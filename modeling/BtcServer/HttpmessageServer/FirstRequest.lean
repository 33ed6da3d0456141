import BtcServer.HttpmessageServer.Following

/-!
# The first request of a stream

Behind the first block of its stream a reader changes nothing of the request but the body.  Whatever
is handed to `handle_request` on a connection is therefore the request of the first block.
-/

namespace BtcServer.HttpmessageServer

open Boost Lib Grammar

/-- The request `q` is `first` with another body, which only a POST has. -/
structure Request.WithBodyOf (first q : Request) : Prop where
  exists_body : ∃ body, q = { first with body := body }
  eq_of_other : first.method ≠ str "post" → q = first

/-- What is handed on when `first` is the request behind the first block. -/
structure HandedOn (funcs : CallbackTable) (first q : Request) (callback : Option Callback) : Prop
    extends Request.WithBodyOf first q where
  callback_eq : callback = funcs.lookup q.uri
  framed : q.method = str "post" → q.BodyAdmitted ∧ q.body.length = q.contentLength.toNat

namespace Request.WithBodyOf

variable {first q : Request}

theorem refl (first : Request) : WithBodyOf first first := ⟨⟨_, rfl⟩, fun _ => rfl⟩

theorem method_eq (h : WithBodyOf first q) : q.method = first.method := by
  obtain ⟨body, rfl⟩ := h.exists_body
  rfl

theorem uri_eq (h : WithBodyOf first q) : q.uri = first.uri := by
  obtain ⟨body, rfl⟩ := h.exists_body
  rfl

theorem contentLength_eq (h : WithBodyOf first q) : q.contentLength = first.contentLength := by
  obtain ⟨body, rfl⟩ := h.exists_body
  rfl

theorem withBody (h : WithBodyOf first q) (hpost : q.method = str "post") (body : Bytes) :
    WithBodyOf first { q with body := body } := by
  refine ⟨?_, fun hother => absurd (h.method_eq ▸ hpost) hother⟩
  obtain ⟨old, rfl⟩ := h.exists_body
  exact ⟨body, rfl⟩

theorem bodyAdmitted_iff (h : WithBodyOf first q) : q.BodyAdmitted ↔ first.BodyAdmitted := by
  unfold BodyAdmitted
  rw [h.contentLength_eq]

end Request.WithBodyOf

theorem HandedOn.framed_of_post {funcs : CallbackTable} {first q : Request}
    {callback : Option Callback} (h : HandedOn funcs first q callback)
    (hpost : first.method = str "post") :
    first.BodyAdmitted ∧ q.body.length = first.contentLength.toNat := by
  obtain ⟨hadmitted, hlength⟩ := h.framed (h.method_eq.trans hpost)
  exact ⟨h.bodyAdmitted_iff.mp hadmitted, by rw [hlength, h.contentLength_eq]⟩

namespace StreamReader

variable {funcs : CallbackTable} {r r' start : StreamReader} {pre out : List Event}
  {first : Request}

/-- The first block of the stream is accepted, and `first` is the request behind it. -/
def First (start : StreamReader) (first : Request) : Prop :=
  ∃ block rest, splitAfter crlfCrlf start.input = some (block, rest) ∧
    (start.parser.parse start.req (block ++ [0])).result = .trueValue ∧
    first = start.acceptedReq block

theorem First.eq_of_head {hd : Head} {req : Request} {tail : Bytes} (hreq : req.Empty)
    (h : First ⟨.head, .fresh, req, hd.render ++ tail⟩ first) : first = (hd.fill req).normalise := by
  obtain ⟨block, rest, hcut, -, rfl⟩ := h
  rw [hd.splitAfter_render tail] at hcut
  obtain ⟨rfl, -⟩ := Prod.mk.inj (Option.some.inj hcut)
  unfold StreamReader.acceptedReq
  rw [RequestParser.parse_head_block hreq]

theorem First.body_eq {req : Request} {stream : Bytes} (hreq : req.Empty)
    (h : First ⟨.head, .fresh, req, stream⟩ first) : first.body = req.body := by
  obtain ⟨block, rest, hcut, htrue, rfl⟩ := h
  obtain ⟨hd, -, hfill, -⟩ := RequestParser.exists_head_of_block hreq hcut htrue
  unfold StreamReader.acceptedReq
  rw [hfill, Request.normalise_body]
  rfl

structure BehindFirst (start r : StreamReader) : Prop where
  resting : r.Resting
  exists_first : ∃ first, start.First first ∧ first.WithBodyOf r.req
  method_eq : r.phase = .body → r.req.method = str "post"

def Behind (start r : StreamReader) : Prop := r.phase = .done ∨ r = start ∨ BehindFirst start r

theorem Behind.acceptedReq (h : Behind start r) (hphase : r.phase = .head) {block rest : Bytes}
    (hcut : splitAfter crlfCrlf r.input = some (block, rest))
    (htrue : (r.parser.parse r.req (block ++ [0])).result = .trueValue) :
    ∃ first, start.First first ∧ first.WithBodyOf (r.acceptedReq block) := by
  rcases h with hdone | rfl | hbehind
  · rw [hphase] at hdone
    cases hdone
  · exact ⟨_, ⟨block, rest, hcut, htrue, rfl⟩, .refl _⟩
  · rw [hbehind.resting.acceptedReq]
    exact hbehind.exists_first

theorem Behind.dispatch (hresting : r.Resting)
    (hfirst : ∃ first, start.First first ∧ first.WithBodyOf r.req) :
    Behind start (r.dispatch funcs).2 := by
  by_cases hdone : (r.dispatch funcs).2.phase = .done
  · exact .inl hdone
  · obtain ⟨heq, -, -⟩ := dispatch_phase hdone
    rw [heq]
    exact .inr (.inr ⟨⟨hresting.parser_eq, hresting.normalise_eq, hresting.admitted⟩, hfirst, nofun⟩)

/-- All that was handed on is the first request, and the reader is not in front of another. -/
def OneRequest (funcs : CallbackTable) (start : StreamReader) (pre : List Event)
    (r : StreamReader) : Prop :=
  (∀ q callback, .requested q callback ∈ pre →
    ∃ first, start.First first ∧ HandedOn funcs first q callback) ∧ Behind start r

theorem OneRequest.append_other (h : OneRequest funcs start pre r) {e : Event}
    (he : e.request = none) (hbehind : Behind start r') :
    OneRequest funcs start (pre ++ [e]) r' := by
  refine ⟨fun q callback hmem => ?_, hbehind⟩
  rcases List.mem_append.mp hmem with hold | hnew
  · exact h.1 q callback hold
  · obtain rfl := List.mem_singleton.mp hnew
    cases he

theorem OneRequest.append_dispatch (h : OneRequest funcs start pre r) {e : Event}
    (he : e.request = none) (hresting : r'.Resting)
    (hfirst : ∃ first, start.First first ∧ first.WithBodyOf r'.req)
    (hbody : r'.req.method = str "post" → r'.req.body.length = r'.req.contentLength.toNat) :
    OneRequest funcs start (pre ++ e :: (r'.dispatch funcs).1) (r'.dispatch funcs).2 := by
  refine ⟨fun q callback hmem => ?_, Behind.dispatch hresting hfirst⟩
  rcases List.mem_append.mp hmem with hold | hnew
  · exact h.1 q callback hold
  · rcases List.mem_cons.mp hnew with rfl | hdispatched
    · cases he
    · obtain ⟨rfl, rfl⟩ := Event.requested.inj (List.mem_singleton.mp hdispatched)
      obtain ⟨first, hcut, hsame⟩ := hfirst
      exact ⟨first, hcut, hsame, rfl, fun hpost => ⟨hresting.admitted hpost, hbody hpost⟩⟩

theorem oneRequest_next (hstart : start.phase = .head) (h : OneRequest funcs start pre r)
    (hnext : r.next funcs = some (out, r')) : OneRequest funcs start (pre ++ out) r' := by
  apply next_rule hnext
  · intro block rest p _ _ _ _
    exact h.append_other rfl (.inl rfl)
  · intro block rest p phase hphase hcut hp htrue hmethod hbody
    refine h.append_other rfl ?_
    by_cases hadmitted : (r.acceptedReq block).BodyAdmitted
    · have hfirst := h.2.acceptedReq hphase hcut (hp ▸ htrue)
      exact .inr (.inr ⟨resting_accepted fun _ => hadmitted, hfirst, fun _ => hmethod⟩)
    · rw [if_neg hadmitted] at hbody
      exact .inl hbody
  · intro block rest p hphase hcut hp htrue hmethod
    exact h.append_dispatch rfl (resting_accepted fun hpost => absurd hpost hmethod)
      (h.2.acceptedReq hphase hcut (hp ▸ htrue)) fun hpost => absurd hpost hmethod
  · intro hphase hle
    rcases h.2 with hdone | rfl | hbehind
    · rw [hphase] at hdone
      cases hdone
    · rw [hstart] at hphase
      cases hphase
    · refine h.append_dispatch rfl hbehind.resting.withBody ?_ fun _ => List.length_take_of_le hle
      obtain ⟨first, hfirst, hsame⟩ := hbehind.exists_first
      exact ⟨first, hfirst, hsame.withBody (hbehind.method_eq hphase) _⟩

theorem oneRequest_of_emits (hstart : start.phase = .head) (h : Emits (next funcs) start out r) :
    OneRequest funcs start out r :=
  h.invariant [] (fun _ _ _ _ hI hnext => oneRequest_next hstart hI hnext)
    ⟨fun _ _ hmem => absurd hmem List.not_mem_nil, .inr (.inl rfl)⟩

theorem first_of_body (hstart : start.phase = .head) (h : Emits (next funcs) start out r)
    (hphase : r.phase = .body) :
    ∃ first, start.First first ∧ first.method = str "post" ∧ first.BodyAdmitted ∧
      r.req.contentLength = first.contentLength := by
  rcases (oneRequest_of_emits hstart h).2 with hdone | rfl | hbehind
  · rw [hphase] at hdone
    cases hdone
  · rw [hstart] at hphase
    cases hphase
  · obtain ⟨first, hfirst, hsame⟩ := hbehind.exists_first
    have hpost := hbehind.method_eq hphase
    exact ⟨first, hfirst, hsame.method_eq ▸ hpost,
      hsame.bodyAdmitted_iff.mp (hbehind.resting.admitted hpost), hsame.contentLength_eq⟩

end StreamReader

namespace Link

variable {funcs : CallbackTable} {ok : Link → Action → Prop} {as : List Action} {req : Request}
  {stream : Bytes} {t : Link} {n : Nat}

/-- Whatever a connection hands on is the request of the first block of its stream. -/
theorem handedOn_of_run (h : Run (step funcs) ok (started req stream) as t) {q : Request}
    {callback : Option Callback} (hmem : .requested q callback ∈ t.conn.log) :
    ∃ first, StreamReader.First ⟨.head, .fresh, req, stream⟩ first ∧
      HandedOn funcs first q callback := by
  obtain ⟨r, hemits, -, -⟩ := follows_of_run h
  have hread : .requested q callback ∈ readEvents t.conn.log :=
    List.mem_filter.mpr ⟨hmem, rfl⟩
  exact (StreamReader.oneRequest_of_emits rfl hemits).1 q callback hread

theorem shown_of_run (h : Run (step funcs) ok (started req stream) as t) {x : Request × Callback}
    (hx : x ∈ invocations t.conn.log) :
    ∃ first, StreamReader.First ⟨.head, .fresh, req, stream⟩ first ∧
      HandedOn funcs first x.1 (some x.2) := by
  obtain ⟨e, hmem, he⟩ := List.mem_filterMap.mp hx
  cases e with
  | requested q callback =>
      cases callback with
      | none => cases he
      | some callback =>
          obtain rfl : (q, callback) = x := Option.some.inj he
          exact handedOn_of_run h hmem
  | _ => cases he

/-! ## The first block alone -/

def delivered (req : Request) (stream : Bytes) (n : Nat) : Link :=
  { started req stream with conn := { (started req stream).conn with
    mRecvBuffer := stream.take n
    mSocket := { (started req stream).conn.mSocket with unread := stream.drop n } } }

theorem step_receive_started (funcs : CallbackTable) (req : Request) (stream : Bytes) (hn : 1 ≤ n)
    (hle : n ≤ stream.length) :
    step funcs (started req stream) (.io (.receive 0 n)) = some (delivered req stream n) := by
  have hready : ReadOp.ready [] (.readUntil crlfCrlf) = none := by decide +kernel
  have hreceive : (started req stream).conn.receive 0 n = some (delivered req stream n).conn := by
    unfold HttpConnction.receive
    exact if_pos ⟨rfl, hready, hn, hle, rfl⟩
  change ((started req stream).conn.receive 0 n).map _ = _
  rw [hreceive]
  rfl

theorem hasBlock_delivered {block rest : Bytes}
    (hcut : splitAfter crlfCrlf stream = some (block, rest)) :
    (delivered req stream block.length).HasBlock block [] := by
  refine ⟨rfl, rfl, ?_⟩
  have htake : stream.take block.length = block := by
    rw [splitAfter_eq_append hcut, List.take_left]
  change splitAfter crlfCrlf (stream.take block.length) = _
  rw [htake, splitAfter_eq_some_iff]
  refine ⟨(List.append_nil _).symm, splitAfter_suffix hcut, fun c hc hend => ?_⟩
  exact splitAfter_first hcut (hc.trans ⟨rest, (splitAfter_eq_append hcut).symm⟩) hend

end Link

end BtcServer.HttpmessageServer
