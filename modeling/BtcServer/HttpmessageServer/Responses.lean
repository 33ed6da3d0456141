import BtcServer.HttpmessageServer.Client
import BtcServer.HttpmessageServer.Dispatch

/-!
# The response stream

All responses of a connection go through one send buffer, and every write sends the whole of it.  As
long as no response is written while an earlier write is outstanding, what is handed to the socket
is the responses one after the other; from the first that is, bytes are handed over twice.
-/

namespace BtcServer.HttpmessageServer

open Boost Lib

def Event.response : Event → Option (Int × Int × Bytes)
  | .responded major minor body => some (major, minor, body)
  | _ => none

def responses (log : List Event) : List (Int × Int × Bytes) := log.filterMap Event.response

def encoded (log : List Event) : Bytes :=
  (responses log).flatMap fun r => HttpmessageServer.response r.1 r.2.1 r.2.2

def Event.data : Event → Bytes
  | .sent data => data
  | _ => []

def handed (log : List Event) : Bytes := log.flatMap Event.data

def Event.isWritten : Event → Bool
  | .written _ => true
  | _ => false

def completions (log : List Event) : Nat := log.countP Event.isWritten

/-- Every response is written when all earlier writes have completed. -/
def NoOverlap (log : List Event) : Prop :=
  Always (fun pre e => (Event.response e).isSome = true → (responses pre).length = completions pre)
    log

instance : DecidablePred NoOverlap := fun log => inferInstanceAs (Decidable (Always _ log))

@[simp] theorem responses_append (log new : List Event) :
    responses (log ++ new) = responses log ++ responses new :=
  List.filterMap_append ..

@[simp] theorem encoded_append (log new : List Event) :
    encoded (log ++ new) = encoded log ++ encoded new := by
  simp [encoded]

@[simp] theorem handed_append (log new : List Event) :
    handed (log ++ new) = handed log ++ handed new :=
  List.flatMap_append

@[simp] theorem completions_append (log new : List Event) :
    completions (log ++ new) = completions log + completions new :=
  List.countP_append

def Event.isWrite : Event → Bool
  | .responded .. | .sent _ | .written _ => true
  | _ => false

section Other

variable {new : List Event} (h : ∀ e ∈ new, e.isWrite = false)

include h

theorem responses_of_other : responses new = [] := by
  unfold responses
  rw [List.filterMap_eq_nil_iff]
  intro e he
  have hother := h e he
  cases e <;> first | rfl | cases hother

theorem handed_of_other : handed new = [] := by
  unfold handed
  rw [List.flatMap_eq_nil_iff]
  intro e he
  have hother := h e he
  cases e <;> first | rfl | cases hother

theorem completions_of_other : completions new = 0 := by
  unfold completions
  rw [List.countP_eq_zero]
  intro e he
  have hother := h e he
  cases e <;> first | exact Bool.false_ne_true | cases hother

theorem noOverlap_append_other (log : List Event) : NoOverlap (log ++ new) ↔ NoOverlap log := by
  unfold NoOverlap
  rw [always_append, and_iff_left_iff_imp]
  intro _ pre e post heq hresponse
  have hother := h e (by rw [heq]; simp)
  cases e <;> simp_all [Event.isWrite, Event.response]

end Other

theorem not_isWrite_of_isRead {e : Event} (h : e.isRead = true) : e.isWrite = false := by
  cases e <;> first | rfl | cases h

namespace Link

variable {funcs : CallbackTable} {ok : Link → Action → Prop} {as : List Action} {req : Request}
  {stream : Bytes} {s t l : Link} {a : Action}

/-! ## Whole responses -/

/-- Nothing was handed over twice, and what the buffer holds is the one outstanding write. -/
structure Intact (l : Link) : Prop where
  noOverlap : NoOverlap l.conn.log
  handed_eq : handed l.conn.log = encoded l.conn.log
  buffer : l.conn.mSocket.writes = [] ∧ l.conn.mSendBuffer = [] ∨
    ∃ data, l.conn.mSocket.writes = [data] ∧ l.conn.mSendBuffer = data ∧ data ≠ []

/-- Some bytes were handed over twice. -/
structure Doubled (l : Link) : Prop where
  overlap : ¬ NoOverlap l.conn.log
  handed_gt : (encoded l.conn.log).length < (handed l.conn.log).length

/-- The write side of a connection that runs. -/
structure Writing (l : Link) : Prop where
  outstanding : (responses l.conn.log).length = completions l.conn.log + l.conn.mSocket.writes.length
  state : l.Intact ∨ l.Doubled

theorem Writing.of_other {new : List Event} (h : s.Writing) (hnew : ∀ e ∈ new, e.isWrite = false)
    (hlog : t.conn.log = s.conn.log ++ new)
    (hwrites : t.conn.mSocket.writes = s.conn.mSocket.writes)
    (hbuffer : t.conn.mSendBuffer = s.conn.mSendBuffer) : t.Writing := by
  have hresponses := responses_of_other hnew
  have hencoded : encoded new = [] := by rw [encoded, hresponses]; rfl
  refine ⟨?_, ?_⟩
  · rw [hlog, responses_append, completions_append, hresponses, completions_of_other hnew,
      hwrites, List.append_nil]
    exact h.outstanding
  · rcases h.state with ⟨hno, heq, hbuf⟩ | ⟨hover, hgt⟩
    · refine .inl ⟨?_, ?_, ?_⟩
      · rwa [hlog, noOverlap_append_other hnew]
      · rw [hlog, handed_append, encoded_append, handed_of_other hnew, hencoded, heq]
      · rwa [hwrites, hbuffer]
    · refine .inr ⟨?_, ?_⟩
      · rwa [hlog, noOverlap_append_other hnew]
      · rwa [hlog, handed_append, encoded_append, handed_of_other hnew, hencoded,
          List.append_nil, List.append_nil]

theorem Writing.of_same (h : s.Writing) (hlog : t.conn.log = s.conn.log)
    (hwrites : t.conn.mSocket.writes = s.conn.mSocket.writes)
    (hbuffer : t.conn.mSendBuffer = s.conn.mSendBuffer) : t.Writing :=
  h.of_other (List.forall_mem_nil _) (hlog.trans (List.append_nil _).symm) hwrites hbuffer

theorem log_writeResponse (conn : HttpConnction) (body : Bytes) :
    ∃ major minor, (conn.writeResponse body).log = conn.log ++ [.responded major minor body,
      .sent (conn.mSendBuffer ++ response major minor body)] ∧
      (conn.writeResponse body).mSendBuffer = conn.mSendBuffer ++ response major minor body ∧
      (conn.writeResponse body).mSocket.writes =
        conn.mSocket.writes ++ [conn.mSendBuffer ++ response major minor body] := by
  refine ⟨conn.mRequest.httpVersionMajor, conn.mRequest.httpVersionMinor, ?_⟩
  simp [HttpConnction.writeResponse, HttpConnction.record, response]

theorem Writing.writeResponse (h : s.Writing) (body : Bytes) :
    Writing { s with conn := s.conn.writeResponse body } := by
  obtain ⟨major, minor, hlog, hbuffer, hwrites⟩ := log_writeResponse s.conn body
  have hresponses : responses (s.conn.writeResponse body).log =
      responses s.conn.log ++ [(major, minor, body)] := by
    rw [hlog, responses_append]
    rfl
  have hencoded : encoded (s.conn.writeResponse body).log =
      encoded s.conn.log ++ response major minor body := by
    rw [encoded, hresponses, List.flatMap_append, ← encoded]
    simp
  have hhanded : handed (s.conn.writeResponse body).log =
      handed s.conn.log ++ (s.conn.mSendBuffer ++ response major minor body) := by
    rw [hlog, handed_append]
    simp [handed, Event.data]
  have hoverlap : NoOverlap (s.conn.writeResponse body).log ↔
      NoOverlap s.conn.log ∧ (responses s.conn.log).length = completions s.conn.log := by
    unfold NoOverlap
    rw [hlog, List.append_cons, always_snoc, always_snoc]
    simp [Event.response]
  have houtstanding := h.outstanding
  refine ⟨?_, ?_⟩
  · change (responses (s.conn.writeResponse body).log).length = _
    rw [hresponses, hwrites, hlog, completions_append]
    simp only [List.length_append, List.length_singleton]
    change _ = completions s.conn.log + 0 + _
    omega
  · rcases h.state with ⟨hno, heq, hidle | ⟨data, hpending, hbuf, hne⟩⟩ | ⟨hover, hgt⟩
    · -- the buffer is empty, so exactly the response is handed over
      obtain ⟨hnone, hempty⟩ := hidle
      refine .inl ⟨?_, ?_, .inr ⟨response major minor body, ?_, ?_, response_ne_nil _ _ _⟩⟩
      · rw [hoverlap, houtstanding, hnone]
        exact ⟨hno, rfl⟩
      · rw [hhanded, hencoded, hempty, heq, List.nil_append]
      · rw [hwrites, hnone, hempty]
        rfl
      · rw [hbuffer, hempty]
        rfl
    · -- the outstanding write is handed over again
      refine .inr ⟨?_, ?_⟩
      · rw [hoverlap, houtstanding, hpending]
        simp
      · have hpos := List.length_pos_of_ne_nil hne
        rw [hhanded, hencoded, heq, hbuf]
        simp only [List.length_append]
        omega
    · refine .inr ⟨?_, ?_⟩
      · rw [hoverlap]
        exact fun hboth => hover hboth.1
      · rw [hhanded, hencoded]
        simp only [List.length_append]
        omega

theorem Writing.popWrite (h : s.Writing) {i : Nat} {data : Bytes} (ec : ErrorCode)
    (hdata : s.conn.mSocket.writes[i]? = some data) :
    Writing { s with conn := s.conn.popWrite i data.length ec } := by
  have hlog : (s.conn.popWrite i data.length ec).log = s.conn.log ++ [.written ec] := rfl
  have hresponses : responses (s.conn.popWrite i data.length ec).log = responses s.conn.log := by
    rw [hlog, responses_append]
    exact List.append_nil _
  have hencoded : encoded (s.conn.popWrite i data.length ec).log = encoded s.conn.log := by
    rw [encoded, hresponses, encoded]
  have hhanded : handed (s.conn.popWrite i data.length ec).log = handed s.conn.log := by
    rw [hlog, handed_append]
    exact List.append_nil _
  have hoverlap : NoOverlap (s.conn.popWrite i data.length ec).log ↔ NoOverlap s.conn.log := by
    unfold NoOverlap
    rw [hlog, always_snoc]
    simp [Event.response]
  have hi : i < s.conn.mSocket.writes.length := (List.getElem?_eq_some_iff.mp hdata).1
  refine ⟨?_, ?_⟩
  · change (responses (s.conn.popWrite i data.length ec).log).length = _
    rw [hresponses, hlog, completions_append, h.outstanding]
    change _ = completions s.conn.log + 1 + (s.conn.mSocket.writes.eraseIdx i).length
    rw [List.length_eraseIdx_of_lt hi]
    omega
  · rcases h.state with ⟨hno, heq, ⟨hnone, -⟩ | ⟨d, hpending, hbuf, -⟩⟩ | ⟨hover, hgt⟩
    · rw [hnone] at hi
      cases hi
    · obtain rfl : i = 0 := by
        rw [hpending] at hi
        exact Nat.lt_one_iff.mp hi
      obtain rfl : d = data := by simpa [hpending] using hdata
      refine .inl ⟨hoverlap.mpr hno, ?_, .inl ⟨?_, ?_⟩⟩
      · rw [hhanded, hencoded, heq]
      · change s.conn.mSocket.writes.eraseIdx 0 = []
        rw [hpending]
        rfl
      · change consume s.conn.mSendBuffer d.length = []
        rw [hbuf]
        exact List.drop_length
    · refine .inr ⟨fun hn => hover (hoverlap.mp hn), ?_⟩
      rwa [hhanded, hencoded]

/-! ## Runs -/

theorem Writing.runCallback (h : s.Writing) (calls : List (Call Unit))
    (hrunning : (s.runCallback calls).conn.mAbort = false) : (s.runCallback calls).Writing := by
  induction calls generalizing s with
  | nil => exact h
  | cons c calls ih =>
      have hstopped (hc : (s.call c).conn.mAbort = true) : False := by
        have := (Aside.runCallback calls (s.call c)).abort_mono hc
        rw [show (s.call c).runCallback calls = s.runCallback (c :: calls) from rfl,
          hrunning] at this
        cases this
      refine ih ?_ hrunning
      cases c with
      | writeResponse _ body => exact h.writeResponse body
      | stop _ => exact (hstopped rfl).elim
      | stopAll =>
          change Writing (if s.registered = true then s.managerStop else s)
          by_cases hregistered : s.registered = true
          · refine (hstopped ?_).elim
            change (if s.registered = true then s.managerStop else s).conn.mAbort = true
            rw [if_pos hregistered]
            rfl
          · rwa [if_neg hregistered]

theorem Effect.writing (he : Effect funcs s a t) (hrunning : t.conn.mAbort = false)
    (h : s.Writing) : t.Writing := by
  have hread {k : Nat} {out : List Event} {r : StreamReader} (hr : Reads funcs s k out r)
      (reads : List ReadOp) : (s.readUpTo k r out reads).Writing := by
    refine h.of_other ?_ rfl rfl rfl
    intro e he
    exact not_isWrite_of_isRead (List.all_eq_true.mp (StreamReader.isRead_of_emits hr.emits) e he)
  cases he with
  | receive => exact h.of_same rfl rfl rfl
  | late => cases hrunning
  | readFailed => cases hrunning
  | refused => cases hrunning
  | waits hr => exact hread hr _
  | @invokes i calls k before callback r t hr _ _ ht =>
      have hrunning' : t.conn.mAbort = false := by
        split_ifs at hrunning <;> exact hrunning
      have hwriting : t.Writing := by
        rw [ht] at hrunning' ⊢
        exact (hread hr []).runCallback calls hrunning'
      split_ifs
      · exact hwriting.of_same rfl rfl rfl
      · exact hwriting
  | @written i n ec data a hdata ha =>
      by_cases hstop : (ec.failed || s.conn.mAbort || !s.conn.mRequest.keepAlive) = true
      · rw [if_pos hstop] at hrunning
        cases hrunning
      · rw [if_neg hstop]
        rcases ha with ⟨-, rfl, rfl⟩ | ⟨-, hfailed, -⟩
        · exact h.popWrite _ hdata
        · simp [hfailed] at hstop
  | respond => exact h.writeResponse _
  | stop => cases hrunning

theorem writing_started (req : Request) (stream : Bytes) : (started req stream).Writing := by
  refine ⟨rfl, .inl ⟨?_, rfl, .inl ⟨rfl, rfl⟩⟩⟩
  exact always_singleton.mpr fun h => by cases h

theorem writing_of_run (h : Run (step funcs) ok (started req stream) as l)
    (hrunning : l.conn.mAbort = false) : l.Writing := by
  have hboth := h.invariant
    (I := fun l => l.WellFormed ∧ (l.conn.mAbort = false → l.Writing))
    (fun s a t _ hstep hI => by
      have he := step_effect hI.1 hstep
      exact ⟨he.wellFormed hI.1, fun hrun => he.writing hrun (hI.2 (he.running hrun))⟩)
    ⟨wellFormed_started req stream, fun _ => writing_started req stream⟩
  exact hboth.2 hrunning

/-- On a connection that was never stopped, the bytes handed to the socket are the responses, each
once and in the order of the calls, and a client recovers their bodies, exactly when no response was
written while an earlier write was outstanding. -/
theorem responses_intact_iff (h : Run (step funcs) ok (started req stream) as l)
    (hrunning : l.conn.mAbort = false) :
    (handed l.conn.log = encoded l.conn.log ∧
      bodiesOf (handed l.conn.log) = some ((responses l.conn.log).map fun r => r.2.2)) ↔
    NoOverlap l.conn.log := by
  rcases (writing_of_run h hrunning).state with ⟨hno, heq, -⟩ | ⟨hover, hgt⟩
  · refine ⟨fun _ => hno, fun _ => ⟨heq, ?_⟩⟩
    rw [heq]
    exact bodiesOf_responses _
  · refine ⟨?_, fun hno => absurd hno hover⟩
    rintro ⟨heq, -⟩
    rw [heq] at hgt
    exact absurd hgt (lt_irrefl _)

/-- Two responses, the second after the first was sent. -/
theorem responses_intact_of_turns :
    ∃ l, Run (step oneCallback) (fun _ _ => True) (blank getKeepAlive)
        [.io (.receive 0 42), .io (.readDone 0 [.writeResponse () (str "a")]),
          .io (.writeDone 0), .respond (str "b")] l ∧
      handed l.conn.log = encoded l.conn.log ∧ (responses l.conn.log).length = 2 := by
  have hrun : ∃ l, Run (step oneCallback) (fun _ _ => True) (blank getKeepAlive)
      [.io (.receive 0 42), .io (.readDone 0 [.writeResponse () (str "a")]),
        .io (.writeDone 0), .respond (str "b")] l ∧
      l.conn.mAbort = false ∧ NoOverlap l.conn.log ∧ (responses l.conn.log).length = 2 :=
    exists_run_of_exec (by decide +kernel)
  obtain ⟨l, h, hrunning, hno, hlength⟩ := hrun
  exact ⟨l, h, ((responses_intact_iff h hrunning).mpr hno).1, hlength⟩

/-- A callback that responds twice has its first response sent twice. -/
theorem responses_doubled :
    ∃ l, Run (step oneCallback) (fun _ _ => True) (blank getKeepAlive)
        [.io (.receive 0 42),
          .io (.readDone 0 [.writeResponse () (str "a"), .writeResponse () (str "b")]),
          .io (.writeDone 0), .io (.writeDone 0)] l ∧
      l.conn.mAbort = false ∧
      ¬ (handed l.conn.log = encoded l.conn.log ∧
        bodiesOf (handed l.conn.log) = some ((responses l.conn.log).map fun r => r.2.2)) := by
  have hrun : ∃ l, Run (step oneCallback) (fun _ _ => True) (blank getKeepAlive)
      [.io (.receive 0 42),
        .io (.readDone 0 [.writeResponse () (str "a"), .writeResponse () (str "b")]),
        .io (.writeDone 0), .io (.writeDone 0)] l ∧
      l.conn.mAbort = false ∧ handed l.conn.log ≠ encoded l.conn.log :=
    exists_run_of_exec (by decide +kernel)
  obtain ⟨l, h, hrunning, hne⟩ := hrun
  exact ⟨l, h, hrunning, fun hboth => hne hboth.1⟩

end Link

end BtcServer.HttpmessageServer
