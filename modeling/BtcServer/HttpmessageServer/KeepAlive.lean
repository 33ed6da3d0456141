import BtcServer.HttpmessageServer.Dispatch

/-!
# Several requests on one connection

What the callbacks see when a peer sends well-formed requests back to back on a connection that is
to be kept.  The first is served as if it had come alone.  The parser stays where it accepted it, so
the second is refused.
-/

namespace BtcServer.HttpmessageServer

open Boost Lib Grammar

/-- A request that asks to keep the connection and whose target is registered.  A body comes with a
`post`, as long as its only content length says. -/
structure KeepAliveRequest (funcs : CallbackTable) where
  head : Head
  body : Bytes
  callback : Callback
  connection : Header
  known : funcs.lookup (toLowerCopy head.target) = some callback
  connection_unique : head.headers.filter (Header.BeginsWith (str "connection") ·) = [connection]
  connection_name : toLowerCopy connection.name = str "connection"
  connection_value : toLowerCopy connection.value = str "keep-alive"
  body_of_post : toLowerCopy head.method = str "post" → ∃ length : Header,
    head.headers.filter (Header.BeginsWith (str "content-length") ·) = [length] ∧
      toLowerCopy length.name = str "content-length" ∧
      length.value ≠ [] ∧ (∀ c ∈ length.value, isDecimalDigit c = true) ∧
      1 ≤ decimalValue length.value ∧ decimalValue length.value ≤ 65535 ∧
      body.length = decimalValue length.value
  body_of_other : toLowerCopy head.method ≠ str "post" → body = []

/-- What a callback is shown of a request: all of it, but length and body only of a `post`. -/
structure Seen where
  callback : Callback
  method : Bytes
  uri : Bytes
  httpVersionMajor : Int
  httpVersionMinor : Int
  headers : List Header
  keepAlive : Bool
  posted : Option (UInt64 × Bytes)
  deriving DecidableEq, Repr

def Seen.of (x : Request × Callback) : Seen where
  callback := x.2
  method := x.1.method
  uri := x.1.uri
  httpVersionMajor := x.1.httpVersionMajor
  httpVersionMinor := x.1.httpVersionMinor
  headers := x.1.headers
  keepAlive := x.1.keepAlive
  posted := if x.1.method = str "post" then some (x.1.contentLength, x.1.body) else none

def seen (log : List Event) : List Seen := (invocations log).map Seen.of

namespace KeepAliveRequest

variable {funcs : CallbackTable} (r : KeepAliveRequest funcs)

def bytes : Bytes := r.head.render ++ r.body

def seen : Seen where
  callback := r.callback
  method := toLowerCopy r.head.method
  uri := toLowerCopy r.head.target
  httpVersionMajor := versionNumber r.head.major
  httpVersionMinor := versionNumber r.head.minor
  headers := r.head.headers.map fun hdr => ⟨toLowerCopy hdr.name, hdr.value⟩
  keepAlive := true
  posted :=
    if toLowerCopy r.head.method = str "post" then some (UInt64.ofNat r.body.length, r.body)
    else none

theorem keepAlive_normalise (req : Request) : (r.head.fill req).normalise.keepAlive = true := by
  have hvalue : (r.head.fill req).subscript (str "connection") = r.connection.value :=
    Request.subscript_of_unique (by decide) r.connection_unique
  rw [Request.normalise_keepAlive, hvalue, r.connection_value]
  rfl

theorem contentLength_normalise (req : Request) (hpost : toLowerCopy r.head.method = str "post") :
    (r.head.fill req).normalise.contentLength = UInt64.ofNat r.body.length ∧
      1 ≤ r.body.length ∧ r.body.length ≤ 65535 := by
  obtain ⟨length, hunique, -, hne, hdigits, hlo, hhi, hbody⟩ := r.body_of_post hpost
  have hvalue : (r.head.fill req).subscript (str "content-length") = length.value :=
    Request.subscript_of_unique (by decide) hunique
  refine ⟨?_, by omega, by omega⟩
  rw [Request.normalise_contentLength, hvalue, if_pos hne,
    extractUInt64_of_digits hne hdigits (by omega), hbody]

theorem describes_seen {req : Request} (h : r.head.Describes req) (hkeep : req.keepAlive = true)
    (hpost : toLowerCopy r.head.method = str "post" →
      req.contentLength = UInt64.ofNat r.body.length ∧ req.body = r.body) :
    Seen.of (req, r.callback) = r.seen := by
  obtain ⟨hmethod, huri, hmajor, hminor, hheaders⟩ := h
  unfold Seen.of seen
  simp only [hmethod, huri, hmajor, hminor, hkeep]
  have hlist : req.headers =
      r.head.headers.map fun hdr => ⟨toLowerCopy hdr.name, hdr.value⟩ := by
    rw [hheaders, Head.headers, List.map_map]
    rfl
  rw [hlist]
  by_cases hp : toLowerCopy r.head.method = str "post"
  · obtain ⟨hlength, hbody⟩ := hpost hp
    simp only [hp, if_true, hlength, hbody]
  · simp only [hp, if_false]

theorem splitAfter_bytes (tail : Bytes) :
    splitAfter crlfCrlf (r.bytes ++ tail) = some (r.head.render, r.body ++ tail) := by
  unfold bytes
  rw [List.append_assoc]
  exact r.head.splitAfter_render _

theorem acceptedReq_first {req : Request} (hreq : req.Empty) (input : Bytes) :
    StreamReader.acceptedReq ⟨.head, .fresh, req, input⟩ r.head.render =
      (r.head.fill req).normalise := by
  unfold StreamReader.acceptedReq
  rw [RequestParser.parse_head_block hreq r.head]

theorem dispatch_known {q : Request} (huri : q.uri = toLowerCopy r.head.target)
    (hkeep : q.keepAlive = true) (phase : Phase) (rest : Bytes) :
    StreamReader.dispatch funcs ⟨phase, ⟨.expectingNewline3⟩, q, rest⟩ =
      ([.requested q (some r.callback)], ⟨.head, ⟨.expectingNewline3⟩, q, rest⟩) := by
  unfold StreamReader.dispatch
  rw [huri, r.known]
  simp [hkeep]

theorem emits_first_post {req : Request} (hreq : req.Empty) (tail : Bytes)
    (hpost : toLowerCopy r.head.method = str "post") :
    ∃ out q, Emits (StreamReader.next funcs) ⟨.head, .fresh, req, r.bytes ++ tail⟩ out
        ⟨.head, ⟨.expectingNewline3⟩, q, tail⟩ ∧
      (invocations out).map Seen.of = [r.seen] := by
  have haccepted := r.acceptedReq_first hreq (r.bytes ++ tail)
  have hdescribes := r.head.describes_normalise_fill req
  have hkeep := r.keepAlive_normalise req
  obtain ⟨hlength, hlo, hhi⟩ := r.contentLength_normalise req hpost
  have htoNat : (r.head.fill req).normalise.contentLength.toNat = r.body.length := by
    rw [hlength, UInt64.toNat_ofNat']
    exact Nat.mod_eq_of_lt (by omega)
  have hadmitted : (r.head.fill req).normalise.BodyAdmitted := by
    rw [Request.bodyAdmitted_iff]
    omega
  have hnext := StreamReader.next_post funcs (r := ⟨.head, .fresh, req, r.bytes ++ tail⟩) rfl
    (r.splitAfter_bytes tail) (RequestParser.parse_head_block hreq r.head) rfl
    (by rw [haccepted]; exact hdescribes.1.trans hpost)
  unfold StreamReader.accepted at hnext
  rw [haccepted, if_pos hadmitted] at hnext
  obtain ⟨q, hq⟩ : ∃ q, q = { (r.head.fill req).normalise with body := r.body } := ⟨_, rfl⟩
  have hwithBody : StreamReader.withBody
      ⟨.body, ⟨.expectingNewline3⟩, (r.head.fill req).normalise, r.body ++ tail⟩ =
      ⟨.body, ⟨.expectingNewline3⟩, q, tail⟩ := by
    unfold StreamReader.withBody
    simp only [htoNat, List.take_left', List.drop_left', hq]
  have hbody := StreamReader.next_body funcs
    (r := ⟨.body, ⟨.expectingNewline3⟩, (r.head.fill req).normalise, r.body ++ tail⟩) rfl
    (by rw [htoNat, List.length_append]; omega)
  rw [hwithBody, r.dispatch_known (hq ▸ hdescribes.2.1) (hq ▸ hkeep)] at hbody
  refine ⟨_, q, (Emits.single hnext).trans (.single hbody), ?_⟩
  have hseen : Seen.of (q, r.callback) = r.seen :=
    r.describes_seen (hq ▸ hdescribes) (hq ▸ hkeep) fun _ => hq ▸ ⟨hlength, rfl⟩
  rw [← hseen]
  rfl

theorem emits_first_other {req : Request} (hreq : req.Empty) (tail : Bytes)
    (hother : toLowerCopy r.head.method ≠ str "post") :
    ∃ out q, Emits (StreamReader.next funcs) ⟨.head, .fresh, req, r.bytes ++ tail⟩ out
        ⟨.head, ⟨.expectingNewline3⟩, q, tail⟩ ∧
      (invocations out).map Seen.of = [r.seen] := by
  have haccepted := r.acceptedReq_first hreq (r.bytes ++ tail)
  have hdescribes := r.head.describes_normalise_fill req
  have hkeep := r.keepAlive_normalise req
  have hnext := StreamReader.next_other funcs (r := ⟨.head, .fresh, req, r.bytes ++ tail⟩) rfl
    (r.splitAfter_bytes tail) (RequestParser.parse_head_block hreq r.head) rfl
    (by rw [haccepted]; exact fun h => hother (hdescribes.1.symm.trans h))
  unfold StreamReader.accepted at hnext
  rw [haccepted, r.dispatch_known hdescribes.2.1 hkeep] at hnext
  rw [r.body_of_other hother, List.nil_append] at hnext
  refine ⟨_, _, .single hnext, ?_⟩
  have hseen := r.describes_seen hdescribes hkeep fun h => absurd h hother
  rw [← hseen]
  rfl

/-- The reader serves the request when it is the first of its stream, and goes on behind it. -/
theorem emits_first {req : Request} (hreq : req.Empty) (tail : Bytes) :
    ∃ out q, Emits (StreamReader.next funcs) ⟨.head, .fresh, req, r.bytes ++ tail⟩ out
        ⟨.head, ⟨.expectingNewline3⟩, q, tail⟩ ∧
      (invocations out).map Seen.of = [r.seen] := by
  by_cases hpost : toLowerCopy r.head.method = str "post"
  · exact r.emits_first_post hreq tail hpost
  · exact r.emits_first_other hreq tail hpost

/-- Behind an accepted request the reader refuses every other. -/
theorem next_later (q : Request) (tail : Bytes) :
    ∃ out r', StreamReader.next funcs
        ⟨.head, ⟨.expectingNewline3⟩, q, r.bytes ++ tail⟩ = some (out, r') ∧
      r'.phase = .done ∧ invocations out = [] := by
  obtain ⟨b, w, hrender, hb⟩ := r.head.render_head_ne
  have hparse : RequestParser.parse ⟨.expectingNewline3⟩ q (r.head.render ++ [0]) =
      ⟨.falseValue, w ++ [0], ⟨.expectingNewline3⟩, q⟩ := by
    rw [hrender, List.cons_append, RequestParser.parse_expectingNewline3]
    simp [hb, Tribool.ofBool]
  have hnext := StreamReader.next_refused funcs
    (r := ⟨.head, ⟨.expectingNewline3⟩, q, r.bytes ++ tail⟩) rfl (r.splitAfter_bytes tail)
    hparse rfl
  exact ⟨_, _, hnext, rfl, rfl⟩

end KeepAliveRequest

section Fidelity

variable {funcs : CallbackTable} {rs : List (KeepAliveRequest funcs)}

/-- A run on a stream in which nothing fails, to the point where no read can go on. -/
def CompleteRunOn (funcs : CallbackTable) (stream : Bytes) (l : Link) : Prop :=
  ∃ major minor contentLength keepAlive as,
    Run (Link.step funcs) (fun _ a => a.unfailing = true)
      (Link.started (.uninitialised major minor contentLength keepAlive) stream) as l ∧
    l.Complete funcs

theorem emits_requests (r : KeepAliveRequest funcs) (rs : List (KeepAliveRequest funcs))
    {req : Request} (hreq : req.Empty) :
    ∃ out t, Emits (StreamReader.next funcs)
        ⟨.head, .fresh, req, (r :: rs).flatMap KeepAliveRequest.bytes⟩ out t ∧
      t.next funcs = none ∧ (invocations out).map Seen.of = [r.seen] := by
  obtain ⟨out, q, hemits, hseen⟩ := r.emits_first hreq (rs.flatMap KeepAliveRequest.bytes)
  cases rs with
  | nil => exact ⟨out, _, hemits, rfl, hseen⟩
  | cons r₂ rs =>
      obtain ⟨more, t, hnext, hdone, hnone⟩ := r₂.next_later q (rs.flatMap KeepAliveRequest.bytes)
      refine ⟨_, t, hemits.trans (.single hnext), StreamReader.next_of_done hdone, ?_⟩
      rw [invocations_append, hnone, List.append_nil, hseen]

theorem seen_of_completeRunOn {r : KeepAliveRequest funcs} (rs : List (KeepAliveRequest funcs))
    {l : Link}
    (h : CompleteRunOn funcs ((r :: rs).flatMap KeepAliveRequest.bytes) l) :
    seen l.conn.log = [r.seen] := by
  obtain ⟨major, minor, contentLength, keepAlive, as, hrun, hcomplete⟩ := h
  obtain ⟨t, hemits, hend⟩ := Link.halted_of_complete True
    (fun _ a ha => ⟨ha, fun hfalse => absurd trivial hfalse⟩) hrun hcomplete
  obtain ⟨out, t', hemits', hhalted, hseen⟩ := emits_requests r rs
    (show (Request.uninitialised major minor contentLength keepAlive).Empty from ⟨rfl, rfl, rfl⟩)
  unfold seen
  rw [← invocations_readEvents]
  rcases hend with hend | ⟨-, hinvoked⟩
  · rw [hemits.eq_of_halted hend hemits' hhalted, hseen]
  · have hprefix : (invocations (readEvents l.conn.log)).map Seen.of <+: [r.seen] := by
      rw [← hseen]
      exact ((hemits.prefix_of_halted hemits' hhalted).filterMap _).map _
    rw [← invocations_readEvents] at hinvoked
    apply hprefix.eq_of_length_le
    rw [List.length_map]
    exact List.length_pos_of_ne_nil hinvoked

/-- Requests sent back to back on one connection are seen by the callbacks as if each had come alone
exactly when there is one of them. -/
theorem fidelity_iff_single {l : Link} (alone : KeepAliveRequest funcs → Link) (hne : rs ≠ [])
    (h : CompleteRunOn funcs (rs.flatMap KeepAliveRequest.bytes) l)
    (halone : ∀ r ∈ rs, CompleteRunOn funcs r.bytes (alone r)) :
    ((seen l.conn.log).length = rs.length ∧
      seen l.conn.log = rs.flatMap fun r => seen (alone r).conn.log) ↔ rs.length = 1 := by
  cases rs with
  | nil => exact absurd rfl hne
  | cons r rs =>
      have hseen := seen_of_completeRunOn rs h
      have hone : seen (alone r).conn.log = [r.seen] := by
        have hr := halone r (by simp)
        rw [← List.append_nil r.bytes] at hr
        exact seen_of_completeRunOn [] hr
      rw [hseen]
      constructor
      · rintro ⟨hlength, -⟩
        exact hlength.symm
      · intro hlength
        obtain rfl : rs = [] := by simpa using hlength
        exact ⟨rfl, by simp [hone]⟩

/-- For concrete runs: a request for "/" that asks to keep the connection. -/
def getRequest : KeepAliveRequest Link.oneCallback where
  head :=
    { method := str "GET"
      target := str "/"
      major := str "1"
      minor := str "1"
      fields :=
        [{ name := str "Connection"
           value := str "keep-alive"
           folds := []
           name_ne_nil := by decide
           token_of_mem := by decide +kernel
           text_of_mem := by decide +kernel }]
      method_ne_nil := by decide
      major_ne_nil := by decide
      minor_ne_nil := by decide
      token_of_mem := by decide +kernel
      target_of_mem := by decide +kernel
      digit_of_mem_major := by decide +kernel
      digit_of_mem_minor := by decide +kernel }
  body := []
  callback := 0
  connection := ⟨str "Connection", str "keep-alive"⟩
  known := by decide
  connection_unique := by decide
  connection_name := by decide
  connection_value := by decide
  body_of_post h := absurd h (by decide)
  body_of_other _ := rfl

theorem completeRunOn_of_exec {stream : Bytes} (as : List Link.Action) {P : Link → Prop}
    [DecidablePred P]
    (h : (exec (Link.step funcs) (fun _ a => a.unfailing = true) (Link.blank stream) as).any
      (fun l => l.conn.mSocket.reads = [] ∧ P l) = true) :
    ∃ l, CompleteRunOn funcs stream l ∧ P l := by
  obtain ⟨l, hrun, hreads, hP⟩ := exists_run_of_exec h
  exact ⟨l, ⟨0, 0, 0, false, as, hrun, Link.complete_of_reads_nil hreads⟩, hP⟩

theorem completeRunOn_getRequest : ∃ l, CompleteRunOn Link.oneCallback getRequest.bytes l := by
  have hrun : ∃ l, CompleteRunOn Link.oneCallback getRequest.bytes l ∧ True :=
    completeRunOn_of_exec [.io (.receive 0 42), .io (.readDone 0 []), .io (.readFailed 0 .eof)]
      (by decide +kernel)
  obtain ⟨l, h, -⟩ := hrun
  exact ⟨l, h⟩

theorem fidelity_of_single_get :
    ∃ l, CompleteRunOn Link.oneCallback getRequest.bytes l ∧
      (seen l.conn.log).length = 1 := by
  obtain ⟨l, h⟩ := completeRunOn_getRequest
  have hstream : CompleteRunOn Link.oneCallback
      ([getRequest].flatMap KeepAliveRequest.bytes) l := by
    simpa using h
  have hiff := fidelity_iff_single (fun _ => l) (by simp) hstream
    fun r hr => by rw [List.mem_singleton.mp hr]; exact h
  exact ⟨l, h, (hiff.mpr rfl).1⟩

/-- Of two requests sent back to back the second is lost. -/
theorem second_request_lost :
    ∃ l₁ l, CompleteRunOn Link.oneCallback getRequest.bytes l₁ ∧
      CompleteRunOn Link.oneCallback
        ([getRequest, getRequest].flatMap KeepAliveRequest.bytes) l ∧
      ¬ ((seen l.conn.log).length = 2 ∧
        seen l.conn.log = [getRequest, getRequest].flatMap fun _ => seen l₁.conn.log) := by
  have hrun : ∃ l, CompleteRunOn Link.oneCallback
      ([getRequest, getRequest].flatMap KeepAliveRequest.bytes) l ∧
      (seen l.conn.log).length = 1 :=
    completeRunOn_of_exec [.io (.receive 0 84), .io (.readDone 0 []), .io (.readDone 0 [])]
      (by decide +kernel)
  obtain ⟨l₁, h₁⟩ := completeRunOn_getRequest
  obtain ⟨l, h, hlength⟩ := hrun
  refine ⟨l₁, l, h₁, h, ?_⟩
  rintro ⟨htwo, -⟩
  rw [hlength] at htwo
  cases htwo

end Fidelity

end BtcServer.HttpmessageServer
