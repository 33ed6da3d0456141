import BtcServer.HttpmessageServer.FirstRequest

/-!
# The limit of a body

The test of `handle_read_headers` is for 66536 where its comment names 64 KB.  Between the two lie
the only lengths with which a connection passes the limit: a body is that long exactly when the
first block of the stream asks for one of them.
-/

namespace BtcServer.HttpmessageServer

open Boost Lib

/-- 64 KB. -/
def bodyLimit : Nat := 65536

/-- The first block is an accepted POST whose length passes the test and the limit. -/
def StreamReader.Oversized (start : StreamReader) : Prop :=
  ∃ first, start.First first ∧ first.method = str "post" ∧
    bodyLimit < first.contentLength.toNat ∧ first.contentLength.toNat < 66536

namespace Link

def AsksAtMost (n : Nat) (l : Link) : Prop :=
  ∀ wanted left, .readExactly wanted left ∈ l.conn.mSocket.reads → wanted ≤ n

/-- The bodies that callbacks were shown and the reads of bodies keep to the limit. -/
structure BodyBounded (l : Link) : Prop where
  shown_le : ∀ x ∈ invocations l.conn.log, x.1.body.length ≤ bodyLimit
  asked_le : l.AsksAtMost bodyLimit

variable {funcs : CallbackTable} {s t : Link} {a : Action} {start : StreamReader} {n : Nat}
  {req : Request} {stream : Bytes}

theorem asksAtMost_of_reads_nil (h : s.conn.mSocket.reads = []) : s.AsksAtMost n := by
  intro wanted left hmem
  rw [h] at hmem
  cases hmem

theorem Effect.asksAtMost (he : Effect funcs s a t)
    (hwaits : ∀ k out r, Reads funcs s k out r → r.phase = .body → r.req.contentLength.toNat ≤ n)
    (h : s.AsksAtMost n) : t.AsksAtMost n := by
  cases he with
  | @receive i m op hreads _ _ _ _ _ =>
      intro wanted left hmem
      cases op with
      | readUntil delim => exact absurd (List.mem_singleton.mp hmem) nofun
      | readExactly wanted' left' =>
          obtain ⟨rfl, -⟩ := ReadOp.readExactly.inj (List.mem_singleton.mp hmem)
          exact h wanted left' (hreads ▸ List.mem_singleton_self _)
  | late hreads _ => exact asksAtMost_of_reads_nil (popRead_reads hreads)
  | readFailed hreads _ => exact asksAtMost_of_reads_nil (popRead_reads hreads)
  | refused _ _ _ => exact asksAtMost_of_reads_nil rfl
  | @waits i calls k m out r hr hphase _ _ _ hlength =>
      intro wanted left hmem
      obtain ⟨rfl, -⟩ := ReadOp.readExactly.inj (List.mem_singleton.mp hmem)
      have hle := hwaits k out r hr hphase
      omega
  | @invokes i calls k before callback r t hr _ _ ht =>
      have hreads : t.conn.mSocket.reads = [] := (Aside.of_eq_runCallback ht).reads_eq
      split_ifs
      · intro wanted left hmem
        change _ ∈ t.conn.mSocket.reads ++ [.readUntil crlfCrlf] at hmem
        rw [hreads] at hmem
        exact absurd (List.mem_singleton.mp hmem) nofun
      · exact asksAtMost_of_reads_nil hreads
  | written _ _ => split_ifs <;> exact h
  | respond _ => exact h
  | stop => exact h

theorem contentLength_le_of_body (hstart : start.phase = .head) (hsize : ¬ start.Oversized)
    {out : List Event} {r : StreamReader} (h : Emits (StreamReader.next funcs) start out r)
    (hphase : r.phase = .body) : r.req.contentLength.toNat ≤ bodyLimit := by
  obtain ⟨first, hfirst, hpost, hadmitted, hlength⟩ := StreamReader.first_of_body hstart h hphase
  have hlt := ((Request.bodyAdmitted_iff _).mp hadmitted).2
  rw [hlength]
  by_contra hle
  exact hsize ⟨first, hfirst, hpost, Nat.lt_of_not_le hle, hlt⟩

theorem asksAtMost_of_run {ok : Link → Action → Prop} {as : List Action}
    (hsize : ¬ StreamReader.Oversized ⟨.head, .fresh, req, stream⟩)
    (h : Run (step funcs) ok (started req stream) as t) : t.AsksAtMost bodyLimit := by
  have hboth := h.invariant
    (I := fun l => l.WellFormed ∧ Follows funcs ⟨.head, .fresh, req, stream⟩ l ∧
      l.AsksAtMost bodyLimit)
    (fun s a t _ hstep hI => by
      obtain ⟨hshape, hf, hasks⟩ := hI
      have he := step_effect hshape hstep
      refine ⟨he.wellFormed hshape, he.follows hf, he.asksAtMost (fun k out r hr hphase => ?_) hasks⟩
      exact contentLength_le_of_body rfl hsize (hf.readUpTo hr []) hphase)
    ⟨wellFormed_started req stream, ⟨_, .refl _, rfl, fun _ => rfl⟩,
      fun wanted left hmem => absurd (List.mem_singleton.mp hmem) nofun⟩
  exact hboth.2.2

theorem shown_le_of_run {ok : Link → Action → Prop} {as : List Action} (hreq : req.Empty)
    (hbody : req.body = []) (hsize : ¬ StreamReader.Oversized ⟨.head, .fresh, req, stream⟩)
    (h : Run (step funcs) ok (started req stream) as t) :
    ∀ x ∈ invocations t.conn.log, x.1.body.length ≤ bodyLimit := by
  intro x hx
  obtain ⟨first, hfirst, hhanded⟩ := shown_of_run h hx
  by_cases hpost : first.method = str "post"
  · obtain ⟨hadmitted, hlength⟩ := hhanded.framed_of_post hpost
    rw [hlength]
    by_contra hle
    exact hsize ⟨first, hfirst, hpost, Nat.lt_of_not_le hle,
      ((Request.bodyAdmitted_iff _).mp hadmitted).2⟩
  · rw [hhanded.eq_of_other hpost, hfirst.body_eq hreq, hbody]
    exact Nat.zero_le _

theorem not_asksAtMost_of_hasBlock {block : Bytes} {calls : List (Call Unit)}
    (h : s.HasBlock block [])
    (htrue : (s.conn.reader.parser.parse s.conn.reader.req (block ++ [0])).result = .trueValue)
    (hpost : (s.conn.reader.acceptedReq block).method = str "post")
    (hadmitted : (s.conn.reader.acceptedReq block).BodyAdmitted)
    (hlarge : n < (s.conn.reader.acceptedReq block).contentLength.toNat) :
    ¬ ((host funcs calls).handleReadHeaders .success block.length
      { s with conn := s.conn.popRead 0 }).AsksAtMost n := by
  -- what is known of the connection once the block is accepted
  have hknown {result : Tribool} {conn : HttpConnction}
      (hparse : (s.conn.popRead 0).parseHeaders block.length = (result, conn))
      (hresult : result ≠ .falseValue) :
      conn.normalise.mRequest = s.conn.reader.acceptedReq block ∧ conn.mRecvBuffer = [] ∧
        conn.mSocket.reads = [] := by
    obtain ⟨-, hlink⟩ := h.readUpTo_of_normalise .body rfl hparse hresult
    have hconn := congrArg Link.conn hlink
    refine ⟨congrArg HttpConnction.mRequest hconn, ?_,
      congrArg (fun c : HttpConnction => c.mSocket.reads) hconn⟩
    exact (congrArg HttpConnction.mRecvBuffer hconn).trans h.rest_eq.symm
  apply Host.handleReadHeaders_rule (Q := fun t : Link => ¬ t.AsksAtMost n)
  · intro hstopped
    have habort : s.conn.mAbort = true := hstopped
    rw [h.abort_eq] at habort
    cases habort
  · intro conn _ hparse
    obtain ⟨hresult, -⟩ := h.readUpTo_of_parseHeaders rfl hparse
    rw [htrue] at hresult
    cases hresult
  · intro result conn _ hparse hresult _ hbad
    rw [(hknown hparse hresult).1] at hbad
    exact absurd hadmitted hbad
  · intro result conn _ hparse hresult _ _ _ hasks
    obtain ⟨hreq, hbuffer, hreads⟩ := hknown hparse hresult
    have hle : conn.normalise.mRequest.contentLength.toNat - conn.mRecvBuffer.length ≤ n := by
      apply hasks _ _
      change _ ∈ conn.mSocket.reads ++ [_]
      exact List.mem_append_right _ (List.mem_singleton_self _)
    rw [hreq, hbuffer, List.length_nil] at hle
    omega
  · intro result conn _ hparse hresult _ _ hcome
    obtain ⟨hreq, hbuffer, -⟩ := hknown hparse hresult
    rw [hreq, hbuffer, List.length_nil] at hcome
    omega
  · intro result conn _ hparse hresult hother
    rw [(hknown hparse hresult).1] at hother
    exact absurd hpost hother

theorem exists_run_of_oversized (funcs : CallbackTable)
    (h : StreamReader.Oversized ⟨.head, .fresh, req, stream⟩) :
    ∃ as t, Run (step funcs) (fun _ _ => True) (started req stream) as t ∧
      ¬ t.AsksAtMost bodyLimit := by
  obtain ⟨first, ⟨block, rest, hcut, htrue, rfl⟩, hpost, hlimit, htest⟩ := h
  change splitAfter crlfCrlf stream = some (block, rest) at hcut
  have hpos : 1 ≤ block.length :=
    le_trans (show 1 ≤ crlfCrlf.length by decide +kernel) (splitAfter_length_le hcut)
  have hle : block.length ≤ stream.length := by
    rw [splitAfter_eq_append hcut, List.length_append]
    exact Nat.le_add_right _ _
  have hreceive := step_receive_started funcs req stream hpos hle
  have hblock : (delivered req stream block.length).HasBlock block [] := hasBlock_delivered hcut
  have hdone := hblock.step_readDone funcs []
  have hadmitted : (StreamReader.acceptedReq ⟨.head, .fresh, req, stream⟩ block).BodyAdmitted :=
    (Request.bodyAdmitted_iff _).mpr ⟨le_trans (by decide +kernel) hlimit.le, htest⟩
  exact ⟨_, _, .cons trivial hreceive (.cons trivial hdone (.nil _)),
    not_asksAtMost_of_hasBlock hblock htrue hpost hadmitted hlimit⟩

/-- Whatever the operations of a connection do, bodies keep to the limit exactly when the stream
does not begin with a POST whose length lies between the limit and the test. -/
theorem body_bounded_iff (funcs : CallbackTable) (major minor : Int) (contentLength : UInt64)
    (keepAlive : Bool) (stream : Bytes) :
    (∀ as t, Run (step funcs) (fun _ _ => True)
        (started (.uninitialised major minor contentLength keepAlive) stream) as t →
        t.BodyBounded) ↔
      ¬ StreamReader.Oversized
        ⟨.head, .fresh, .uninitialised major minor contentLength keepAlive, stream⟩ := by
  constructor
  · intro hall hsize
    obtain ⟨as, t, hrun, hasks⟩ := exists_run_of_oversized funcs hsize
    exact hasks (hall as t hrun).asked_le
  · intro hsize as t hrun
    exact ⟨shown_le_of_run ⟨rfl, rfl, rfl⟩ rfl hsize hrun, asksAtMost_of_run hsize hrun⟩

/-- A connection asks its socket for a body of 65537 bytes. -/
theorem limit_passed :
    ∃ t, Run (step [(str "/", 0)]) (fun _ _ => True)
        (started (.uninitialised 0 0 0 false)
          (str "POST / HTTP/1.1\r\nContent-Length: 65537\r\n\r\n"))
        [.io (.receive 0 42), .io (.readDone 0 [])] t ∧
      .readExactly 65537 65537 ∈ t.conn.mSocket.reads ∧ ¬ t.BodyBounded := by
  have hrun : ∃ t, Run (step [(str "/", 0)]) (fun _ _ => True)
      (started (.uninitialised 0 0 0 false)
        (str "POST / HTTP/1.1\r\nContent-Length: 65537\r\n\r\n"))
      [.io (.receive 0 42), .io (.readDone 0 [])] t ∧
      .readExactly 65537 65537 ∈ t.conn.mSocket.reads :=
    exists_run_of_exec (by decide +kernel)
  obtain ⟨t, h, hmem⟩ := hrun
  exact ⟨t, h, hmem, fun hbounded => absurd (hbounded.asked_le _ _ hmem) (by decide +kernel)⟩

end Link

end BtcServer.HttpmessageServer
