import BtcServer.HttpmessageServer.Service
import BtcServer.Lib.Potential

/-!
# A connection comes to rest

Every handler of a read that goes on reading has taken bytes from the buffer, and every completion
of a write uses up a call of `write_response`.  So asio has only finitely much to do for a
connection, and how much is bounded by the stream and the number of responses
(`completions_bounded`), whatever is received in which pieces.
-/

namespace BtcServer.HttpmessageServer

open Boost Lib

namespace Link

variable {funcs : CallbackTable} {s t l : Link} {a : Action} {calls : List (Call Unit)}

def Action.isIo : Action → Bool
  | .io _ => true
  | _ => false

/-- What is left to read.  The bytes that are still to be received count twice: once for that, and
once for being taken from the buffer. -/
def pendingInput (l : Link) : Nat :=
  2 * l.conn.mSocket.unread.length + l.conn.mRecvBuffer.length + l.conn.mSocket.reads.length

def pendingWrites (l : Link) : Nat := l.conn.mSocket.writes.length

def answered (l : Link) : Nat := (responses l.conn.log).length

/-! ## Taking bytes from the buffer -/

theorem dispatch_recvBuffer (funcs : CallbackTable) (calls : List (Call Unit)) (l : Link) :
    ((host funcs calls).dispatch l).conn.mRecvBuffer = l.conn.mRecvBuffer := by
  cases hlookup : funcs.lookup l.conn.mRequest.uri with
  | none =>
      rw [dispatch_of_none hlookup]
      rfl
  | some callback =>
      have haside := (Aside.runCallback calls
        { l with conn := l.conn.record (.requested l.conn.mRequest (some callback)) }).recvBuffer_eq
      rw [dispatch_of_some hlookup rfl]
      split_ifs <;> exact haside

theorem readHeaders_shrinks {block rest : Bytes} (h : s.HasBlock block rest) :
    ((host funcs calls).handleReadHeaders .success block.length
      { s with conn := s.conn.popRead 0 }).conn.mRecvBuffer.length <
        s.conn.mRecvBuffer.length := by
  have hblock : 4 ≤ block.length := splitAfter_length_le h.cut
  have hbuffer : block.length ≤ s.conn.mRecvBuffer.length := by
    rw [splitAfter_eq_append h.cut, List.length_append]
    exact Nat.le_add_right _ _
  have hparsed {result : Tribool} (conn : HttpConnction)
      (hparse : (s.conn.popRead 0).parseHeaders block.length = (result, conn)) :
      conn.mRecvBuffer.length < s.conn.mRecvBuffer.length := by
    have heq := congrArg (fun out => out.2.mRecvBuffer)
      ((HttpConnction.parseHeaders_eq (s.conn.popRead 0) h.cut).symm.trans hparse)
    rw [← show s.conn.mRecvBuffer.drop block.length = conn.mRecvBuffer from heq, List.length_drop]
    omega
  apply Host.handleReadHeaders_rule
    (Q := fun l : Link => l.conn.mRecvBuffer.length < s.conn.mRecvBuffer.length)
  · intro hstopped
    exact absurd (h.abort_eq.symm.trans hstopped) Bool.false_ne_true
  · intro conn _ hparse
    exact hparsed conn hparse
  · intro result conn _ hparse _ _ _
    exact hparsed conn hparse
  · intro result conn _ hparse _ _ _ _
    exact hparsed conn hparse
  · intro result conn _ hparse _ _ _ hle
    have hshort := hparsed conn hparse
    change ((host funcs calls).dispatch
      { s with conn := conn.normalise.takeBody }).conn.mRecvBuffer.length < _
    rw [dispatch_recvBuffer, HttpConnction.takeBody_eq _ hle]
    change (conn.mRecvBuffer.drop _).length < _
    rw [List.length_drop]
    omega
  · intro result conn _ hparse _ _
    change ((host funcs calls).dispatch
      { s with conn := conn.normalise }).conn.mRecvBuffer.length < _
    rw [dispatch_recvBuffer]
    exact hparsed conn hparse

theorem readBody_shrinks (length : Nat) (habort : s.conn.mAbort = false)
    (hadmitted : s.conn.mRequest.BodyAdmitted)
    (hcome : s.conn.mRecvBuffer.length = s.conn.mRequest.contentLength.toNat) :
    ((host funcs calls).handleReadBody .success length
      { s with conn := s.conn.popRead 0 }).conn.mRecvBuffer.length <
        s.conn.mRecvBuffer.length := by
  apply Host.handleReadBody_rule
    (Q := fun l : Link => l.conn.mRecvBuffer.length < s.conn.mRecvBuffer.length)
  · intro hstopped
    exact absurd (habort.symm.trans hstopped) Bool.false_ne_true
  · intro _
    have hpos := ((Request.bodyAdmitted_iff _).mp hadmitted).1
    change ((host funcs calls).dispatch
      { s with conn := (s.conn.popRead 0).takeBody }).conn.mRecvBuffer.length < _
    rw [dispatch_recvBuffer, HttpConnction.takeBody_eq (s.conn.popRead 0) hcome.ge]
    change (s.conn.mRecvBuffer.drop _).length < _
    rw [List.length_drop]
    exact Nat.sub_lt (hcome ▸ hpos) hpos

theorem shrinks_of_readDone (h : s.WellFormed) (habort : s.conn.mAbort = false) {i : Nat}
    (hstep : step funcs s (.io (.readDone i calls)) = some t) :
    t.conn.mRecvBuffer.length < s.conn.mRecvBuffer.length := by
  obtain ⟨op, length, hop, hready, rfl⟩ := readDone_of_ioStep hstep
  obtain ⟨rfl, hreads⟩ := h.reads_eq_of_getElem? hop
  rcases h.reads_shape with hnil | huntil | ⟨wanted, left, hexactly, -, hadmitted, hlength⟩
  · rw [hnil] at hreads
    cases hreads
  · obtain rfl : op = .readUntil crlfCrlf := by simpa [huntil] using hreads.symm
    obtain ⟨⟨block, rest⟩, hcut, rfl⟩ := Option.map_eq_some_iff.mp hready
    exact readHeaders_shrinks ⟨huntil, habort, hcut⟩
  · obtain rfl : op = .readExactly wanted left := by simpa [hexactly] using hreads.symm
    unfold ReadOp.ready at hready
    dsimp only at hready
    split_ifs at hready with hleft
    subst hleft
    exact readBody_shrinks length habort hadmitted hlength

/-! ## What a step costs -/

theorem answered_append_other {new : List Event} (hlog : t.conn.log = s.conn.log ++ new)
    (hnew : ∀ e ∈ new, e.isWrite = false) : t.answered = s.answered := by
  unfold answered
  rw [hlog, responses_append, responses_of_other hnew, List.append_nil]

theorem answered_managerStop (l : Link) : l.managerStop.answered = l.answered :=
  answered_append_other rfl (List.forall_mem_singleton.mpr rfl)

theorem answered_popWrite (l : Link) (i n : Nat) (ec : ErrorCode) :
    answered { l with conn := l.conn.popWrite i n ec } = l.answered := by
  unfold answered
  change (responses (l.conn.log ++ [.written ec])).length = _
  rw [responses_append]
  exact congrArg List.length (List.append_nil _)

theorem paid_writeResponse (l : Link) (body : Bytes) :
    pendingWrites { l with conn := l.conn.writeResponse body } + l.answered =
      l.pendingWrites + answered { l with conn := l.conn.writeResponse body } := by
  obtain ⟨major, minor, hlog, -, hwrites⟩ := log_writeResponse l.conn body
  unfold pendingWrites answered
  dsimp only
  rw [hlog, hwrites, responses_append, List.length_append, List.length_append]
  exact Nat.add_right_comm ..

theorem paid_runCallback (calls : List (Call Unit)) (l : Link) :
    (l.runCallback calls).pendingWrites + l.answered =
      l.pendingWrites + (l.runCallback calls).answered := by
  induction calls generalizing l with
  | nil => rfl
  | cons c calls ih =>
      have hrest := ih (l.call c)
      have hcall : (l.call c).pendingWrites + l.answered =
          l.pendingWrites + (l.call c).answered := by
        cases c with
        | writeResponse _ body => exact paid_writeResponse l body
        | stop _ => exact congrArg (l.pendingWrites + ·) (answered_managerStop l).symm
        | stopAll =>
            change (if l.registered = true then l.managerStop else l).pendingWrites + _ =
              _ + (if l.registered = true then l.managerStop else l).answered
            split_ifs
            · exact congrArg (l.pendingWrites + ·) (answered_managerStop l).symm
            · rfl
      change ((l.call c).runCallback calls).pendingWrites + _ =
        _ + ((l.call c).runCallback calls).answered
      omega

/-- What a step of asio uses up: input, where writes may have been started, each by a response; or
a write. -/
def Uses (s t : Link) : Prop :=
  t.pendingInput < s.pendingInput ∧ t.pendingWrites + s.answered = s.pendingWrites + t.answered ∨
    t.pendingInput = s.pendingInput ∧ t.pendingWrites + 1 = s.pendingWrites ∧
      t.answered = s.answered

theorem uses_popRead {op : ReadOp} (hreads : s.conn.mSocket.reads = [op]) :
    Uses s (managerStop { s with conn := s.conn.popRead 0 }) := by
  refine .inl ⟨?_, congrArg (s.pendingWrites + ·) (answered_managerStop _).symm⟩
  change _ + _ + (s.conn.mSocket.reads.eraseIdx 0).length < _ + _ + s.conn.mSocket.reads.length
  rw [hreads]
  exact Nat.lt_succ_self _

theorem Effect.uses (he : Effect funcs s a t) (h : s.WellFormed) (hstep : step funcs s a = some t)
    (hio : a.isIo = true) : Uses s t := by
  have hshrinks {i : Nat} {calls : List (Call Unit)} (ha : a = .io (.readDone i calls))
      (habort : s.conn.mAbort = false) : t.conn.mRecvBuffer.length < s.conn.mRecvBuffer.length :=
    shrinks_of_readDone h habort (ha ▸ hstep)
  have hpos {k : Nat} {out : List Event} {r : StreamReader} (hr : Reads funcs s k out r) :
      1 ≤ s.conn.mSocket.reads.length := List.length_pos_of_ne_nil hr.reads_ne_nil
  cases he with
  | @receive i n op hreads _ _ hn hle _ =>
      refine .inl ⟨?_, rfl⟩
      unfold pendingInput
      dsimp only
      rw [hreads, List.length_drop, List.length_append, List.length_take, List.length_singleton,
        List.length_singleton]
      omega
  | late hreads _ => exact uses_popRead hreads
  | readFailed hreads _ => exact uses_popRead hreads
  | @refused i calls k out r hr _ _ =>
      have hone := hpos hr
      have hanswered : (s.readUpTo k r out []).answered = s.answered :=
        answered_append_other rfl (isWrite_of_reads hr)
      refine .inl ⟨?_, ?_⟩
      · change 2 * s.conn.mSocket.unread.length + (s.conn.mRecvBuffer.drop k).length + 0 < _
        unfold pendingInput
        rw [List.length_drop]
        omega
      · rw [answered_managerStop, hanswered]
        rfl
  | @waits i calls k n out r hr _ _ _ _ _ =>
      have hone := hpos hr
      have htaken : (s.conn.mRecvBuffer.drop k).length < s.conn.mRecvBuffer.length :=
        hshrinks rfl hr.abort_eq
      have hanswered : (s.readUpTo k r out [.readExactly n n]).answered = s.answered :=
        answered_append_other rfl (isWrite_of_reads hr)
      refine .inl ⟨?_, congrArg (s.pendingWrites + ·) hanswered.symm⟩
      change 2 * s.conn.mSocket.unread.length + (s.conn.mRecvBuffer.drop k).length + 1 < _
      unfold pendingInput
      omega
  | @invokes i calls k before callback r u hr _ _ hu =>
      have hone := hpos hr
      have haside := Aside.of_eq_runCallback hu
      have hunread : u.conn.mSocket.unread = s.conn.mSocket.unread := haside.unread_eq
      have hreads : u.conn.mSocket.reads = [] := haside.reads_eq
      have hanswered : (s.readUpTo k r (before ++ [.requested r.req (some callback)]) []).answered =
          s.answered := answered_append_other rfl (isWrite_of_reads hr)
      have hpaid : u.pendingWrites + s.answered = s.pendingWrites + u.answered := by
        rw [← hanswered, hu]
        exact paid_runCallback calls _
      by_cases hkeep : r.req.keepAlive = true
      · rw [if_pos hkeep] at hshrinks ⊢
        have htaken : u.conn.mRecvBuffer.length < s.conn.mRecvBuffer.length :=
          hshrinks rfl hr.abort_eq
        refine .inl ⟨?_, hpaid⟩
        change 2 * u.conn.mSocket.unread.length + u.conn.mRecvBuffer.length +
          (u.conn.mSocket.reads ++ [_]).length < _
        unfold pendingInput
        rw [hunread, hreads, List.nil_append, List.length_singleton]
        omega
      · rw [if_neg hkeep] at hshrinks ⊢
        have htaken : u.conn.mRecvBuffer.length < s.conn.mRecvBuffer.length :=
          hshrinks rfl hr.abort_eq
        refine .inl ⟨?_, hpaid⟩
        unfold pendingInput
        rw [hunread, hreads, List.length_nil]
        omega
  | @written i n ec data a hdata _ =>
      have hi : i < s.conn.mSocket.writes.length := (List.getElem?_eq_some_iff.mp hdata).1
      have hpopped : pendingWrites { s with conn := s.conn.popWrite i n ec } + 1 =
          s.pendingWrites := by
        change (s.conn.mSocket.writes.eraseIdx i).length + 1 = s.conn.mSocket.writes.length
        rw [List.length_eraseIdx_of_lt hi]
        omega
      refine .inr ?_
      split_ifs
      · exact ⟨rfl, hpopped, (answered_managerStop _).trans (answered_popWrite s i n ec)⟩
      · exact ⟨rfl, hpopped, answered_popWrite s i n ec⟩
  | respond => cases hio
  | stop => cases hio

/-- What asio does uses something up; what others do pays for what it adds. -/
theorem Effect.pending_le (he : Effect funcs s a t) (h : s.WellFormed)
    (hstep : step funcs s a = some t) :
    (if a.isIo then 1 else 0) + (t.pendingInput + t.pendingWrites) + s.answered ≤
      s.pendingInput + s.pendingWrites + t.answered := by
  by_cases hio : a.isIo = true
  · rw [if_pos hio]
    rcases he.uses h hstep hio with ⟨hinput, hpaid⟩ | ⟨hinput, hwrites, hanswered⟩
    · omega
    · omega
  · rw [if_neg hio]
    cases a with
    | io a => exact absurd rfl hio
    | respond body =>
        cases he with
        | written _ ha => rcases ha with ⟨ha, -⟩ | ⟨ha, -⟩ <;> cases ha
        | respond =>
            have hpaid := paid_writeResponse s body
            change 0 + (s.pendingInput + _) + _ ≤ _
            omega
    | stop =>
        cases he with
        | written _ ha => rcases ha with ⟨ha, -⟩ | ⟨ha, -⟩ <;> cases ha
        | stop =>
            rw [answered_managerStop]
            change 0 + (s.pendingInput + s.pendingWrites) + s.answered ≤ _
            omega

section

variable {ok : Link → Action → Prop} {as : List Action} {req : Request} {stream : Bytes}

end

/-! ## At rest -/

/-- What asio does for a connection whose callbacks answer as the service does, while nothing but
the stream comes to an end. -/
def Scheduled (funcs : CallbackTable) (service : Service) (l : Link) (a : Action) : Prop :=
  Serves funcs service l a ∧ a.clean = true ∧ a.isIo = true

instance (funcs : CallbackTable) (service : Service) (l : Link) :
    DecidablePred (Scheduled funcs service l) := fun _ => inferInstanceAs (Decidable (_ ∧ _))

theorem Effect.invocations_le (he : Effect funcs s a t) :
    (invocations t.conn.log).length ≤ (invocations s.conn.log).length + 1 := by
  have hread {k : Nat} {out : List Event} {r : StreamReader} (reads : List ReadOp)
      (hnone : invocations out = []) :
      invocations (s.readUpTo k r out reads).conn.log = invocations s.conn.log := by
    change invocations (s.conn.log ++ out) = _
    rw [invocations_append, hnone, List.append_nil]
  cases he with
  | receive => exact Nat.le_succ _
  | late =>
      rw [(Aside.managerStop { s with conn := s.conn.popRead 0 }).invocations_eq]
      exact Nat.le_succ _
  | readFailed =>
      rw [(Aside.managerStop { s with conn := s.conn.popRead 0 }).invocations_eq]
      exact Nat.le_succ _
  | refused _ _ hnone =>
      rw [(Aside.managerStop _).invocations_eq, hread [] hnone]
      exact Nat.le_succ _
  | waits _ _ hnone =>
      rw [hread _ hnone]
      exact Nat.le_succ _
  | @invokes i calls k before callback r u _ _ hnone hu =>
      have hinvoked : (invocations u.conn.log).length = (invocations s.conn.log).length + 1 := by
        rw [hu, (Aside.runCallback calls _).invocations_eq]
        change (invocations (s.conn.log ++ (before ++ [.requested r.req (some callback)]))).length = _
        rw [invocations_append, invocations_append, hnone, List.length_append]
        rfl
      split_ifs <;> exact hinvoked.le
  | @written i n ec data a _ _ =>
      have hpopped := (Aside.popWrite s i n ec).invocations_eq
      split_ifs
      · rw [(Aside.managerStop _).invocations_eq, hpopped]
        exact Nat.le_succ _
      · rw [hpopped]
        exact Nat.le_succ _
  | respond =>
      rw [(Aside.writeResponse s _).invocations_eq]
      exact Nat.le_succ _
  | stop =>
      rw [(Aside.managerStop s).invocations_eq]
      exact Nat.le_succ _

theorem exists_serves (service : Service) (h : s.WellFormed) {i : Nat}
    (hstep : step funcs s (.io (.readDone i calls)) = some t) :
    ∃ answer u, Serves funcs service s (.io (.readDone i answer)) ∧
      answer.all Call.isWriteResponse = true ∧
      step funcs s (.io (.readDone i answer)) = some u := by
  obtain ⟨op, length, hop, hready, -⟩ := readDone_of_ioStep hstep
  have hdone (answer : List (Call Unit)) : step funcs s (.io (.readDone i answer)) =
      some ((host funcs answer).handleRead op .success length
        { s with conn := s.conn.popRead i }) := ioStep_readDone hop hready
  have hsame (answer : List (Call Unit)) :
      invoked funcs s (.io (.readDone i answer)) = invoked funcs s (.io (.readDone i [])) := by
    have hread := congrArg invocations (sameRead_handleRead funcs answer [] op .success length
      { s with conn := s.conn.popRead i }).readEvents
    rw [invocations_readEvents, invocations_readEvents] at hread
    unfold invoked
    rw [hdone, hdone, Option.map_some, Option.map_some, hread]
  have hone : (invoked funcs s (.io (.readDone i []))).length ≤ 1 := by
    have hle := (step_effect h (hdone [])).invocations_le
    unfold invoked
    rw [hdone, Option.map_some, Option.getD_some, List.length_drop]
    omega
  cases hinvoked : invoked funcs s (.io (.readDone i [])) with
  | nil =>
      refine ⟨[], _, ?_, rfl, hdone []⟩
      change ∀ x ∈ invoked funcs s (.io (.readDone i [])), _
      rw [hinvoked]
      exact List.forall_mem_nil _
  | cons x xs =>
      refine ⟨[.writeResponse () (service x)], _, ?_, rfl, hdone _⟩
      change ∀ y ∈ invoked funcs s (.io (.readDone i [.writeResponse () (service x)])), _
      obtain rfl : xs = [] := by
        rw [hinvoked] at hone
        exact List.eq_nil_of_length_eq_zero (Nat.le_zero.mp (Nat.le_of_succ_le_succ hone))
      rw [hsame, hinvoked]
      exact List.forall_mem_singleton.mpr rfl

theorem complete_of_atRest (h : s.WellFormed)
    (hrest : AtRest (step funcs) (Scheduled funcs service) s) :
    s.Complete funcs ∧ s.conn.mSocket.writes = [] := by
  refine ⟨⟨fun i n => hrest _ ⟨trivial, rfl, rfl⟩, fun i calls => ?_⟩, ?_⟩
  · cases hstep : step funcs s (.io (.readDone i calls)) with
    | none => rfl
    | some t =>
        obtain ⟨answer, u, hserves, hclean, hnext⟩ := exists_serves service h hstep
        rw [hrest _ ⟨hserves, hclean, rfl⟩] at hnext
        cases hnext
  · have hnone := hrest (.io (.writeDone 0)) ⟨trivial, rfl, rfl⟩
    cases hwrites : s.conn.mSocket.writes with
    | nil => rfl
    | cons data writes =>
        have hsome : s.conn.mSocket.writes[0]? = some data := by rw [hwrites]; rfl
        have hfirst : s.conn.mSocket.writes[0]? = none := Option.map_eq_none_iff.mp hnone
        rw [hsome] at hfirst
        cases hfirst

/-- What is started and not yet done, where every invocation starts one write. -/
def pending (l : Link) : Nat := 2 * l.pendingInput + l.pendingWrites

theorem pending_lt (h : s.WellFormed) (hs : Answering service s.conn.log)
    (ht : Answering service t.conn.log) (hstep : step funcs s a = some t) (hio : a.isIo = true) :
    t.pending < s.pending := by
  have he := step_effect h hstep
  have hle := he.invocations_le
  have hsanswered : s.answered = (invocations s.conn.log).length := by
    unfold answered
    rw [hs.responses_eq, List.length_map]
  have htanswered : t.answered = (invocations t.conn.log).length := by
    unfold answered
    rw [ht.responses_eq, List.length_map]
  unfold pending
  rcases he.uses h hstep hio with ⟨hinput, hpaid⟩ | ⟨hinput, hwrites, -⟩
  · omega
  · omega

/-- Under every schedule a connection comes to rest, after a number of steps that the length of its
stream bounds.  What a client then reads back is what the service answers to all the requests that
the reader finds in the stream. -/
theorem answers_under_every_schedule {as : List Action} {req : Request} {stream : Bytes}
    (h : Run (step funcs) (Scheduled funcs service) (started req stream) as t) :
    as.length ≤ 4 * stream.length + 2 ∧
      (∃ bs u, Run (step funcs) (Scheduled funcs service) t bs u ∧
        AtRest (step funcs) (Scheduled funcs service) u) ∧
      (AtRest (step funcs) (Scheduled funcs service) t → t.conn.mSocket.writes = [] ∧
        ∃ out r, Emits (StreamReader.next funcs) ⟨.head, .fresh, req, stream⟩ out r ∧
          r.next funcs = none ∧
          (NoOverlap t.conn.log →
            bodiesOf (handed t.conn.log) = some ((invocations out).map service))) := by
  have hkept (s t : Link) (a : Action) (hs : Scheduled funcs service s a)
      (hstep : step funcs s a = some t) (hI : s.Serving service) : t.Serving service :=
    hI.step hs.1 hstep
  have hless (s t : Link) (a : Action) (hs : Scheduled funcs service s a)
      (hstep : step funcs s a = some t) (hI : s.Serving service) : t.pending < s.pending :=
    pending_lt hI.wellFormed hI.answering (hkept s t a hs hstep hI).answering hstep hs.2.2
  have hstart := serving_started service req stream
  have hend := h.invariant (fun s a t => hkept s t a) hstart
  refine ⟨?_, Run.exists_rest (fun s a t => hkept s t a) (fun s a t => hless s t a) hend,
    fun hrest => ?_⟩
  · have hlength := h.length_le (fun s a t => hkept s t a) (fun s a t => hless s t a) hstart
    have hpending : (started req stream).pending = 2 * (2 * stream.length + 1) + 0 := rfl
    omega
  · obtain ⟨hcomplete, hwrites⟩ := complete_of_atRest hend.wellFormed hrest
    obtain ⟨r, hemits, hnone⟩ := halted_of_complete False
      (fun _ _ hs => ⟨Action.unfailing_of_clean hs.2.1, fun _ => hs.2.1⟩) h hcomplete
    refine ⟨hwrites, _, r, hemits, hnone.resolve_right fun hby => hby.1, fun hno => ?_⟩
    have hanswering := hend.answering
    rw [hanswering.bodiesOf_eq hno, invocations_readEvents]

theorem answers_under_schedule_of_get :
    ∃ t bs u, Run (step oneCallback) (Scheduled oneCallback echoTarget)
        (blank (str "GET / HTTP/1.1\r\n\r\n"))
        [.io (.receive 0 17), .io (.receive 0 1),
          .io (.readDone 0 [.writeResponse () (str "/")])] t ∧
      Run (step oneCallback) (Scheduled oneCallback echoTarget) t bs u ∧
      AtRest (step oneCallback) (Scheduled oneCallback echoTarget) u := by
  have hrun : ∃ t, Run (step oneCallback) (Scheduled oneCallback echoTarget)
      (blank (str "GET / HTTP/1.1\r\n\r\n"))
      [.io (.receive 0 17), .io (.receive 0 1),
        .io (.readDone 0 [.writeResponse () (str "/")])] t ∧ t.conn.mSocket.writes ≠ [] :=
    exists_run_of_exec (by decide +kernel)
  obtain ⟨t, h, -⟩ := hrun
  obtain ⟨-, ⟨bs, u, hmore, hrest⟩, -⟩ := answers_under_every_schedule h
  exact ⟨t, bs, u, h, hmore, hrest⟩

end Link

end BtcServer.HttpmessageServer
