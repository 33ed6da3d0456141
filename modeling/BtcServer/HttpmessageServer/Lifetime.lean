import BtcServer.HttpmessageServer.Responses

/-!
# When a connection stops

A connection stops itself when a read or a write fails, when it refuses a block and when the last
response has been sent.  The first part is about what follows a stop, the second about stops with a
response outstanding, the third about what is outstanding while the connection has not stopped.
-/

namespace BtcServer.HttpmessageServer

open Boost Lib

/-- Nothing fails, and nobody but the connection itself stops it. -/
def Link.Action.quiet : Link.Action → Bool
  | .io (.readFailed _ _) => false
  | a => a.clean

/-- A response was written and its write has not completed. -/
def Pending (log : List Event) : Prop := completions log < (responses log).length

def Uncut (pre : List Event) (e : Event) : Prop := e = .stopped → ¬ Pending pre

instance (pre : List Event) (e : Event) : Decidable (Uncut pre e) :=
  inferInstanceAs (Decidable (_ → ¬ (_ < _)))

/-- A connection that stops for the first time with a response pending has refused a further header
block, or the write of another response completed and no request is to follow the last one. -/
def StopAllowed (pre : List Event) : Event → Prop
  | .stopped => .stopped ∉ pre → Pending pre →
      (∃ before block consumed, pre = before ++ [.parsed block .falseValue consumed] ∧
        invocations before ≠ []) ∨
      ∃ before req, pre = before ++ [.written .success] ∧
        (requests before).getLast? = some req ∧ req.keepAlive = false
  | _ => True

@[simp] theorem requests_append (log new : List Event) :
    requests (log ++ new) = requests log ++ requests new :=
  List.filterMap_append ..

theorem stopAllowed_append_other {log new : List Event} (h : Always StopAllowed log)
    (hnew : .stopped ∉ new) : Always StopAllowed (log ++ new) := by
  apply h.append_of_forall
  intro pre e he
  cases e with
  | stopped => exact absurd he hnew
  | _ => trivial

theorem stopAllowed_append_again {log new : List Event} (h : Always StopAllowed log)
    (hlog : .stopped ∈ log) : Always StopAllowed (log ++ new) := by
  apply h.append_of_forall
  intro pre e _
  cases e with
  | stopped => exact fun hfirst => absurd (List.mem_append_left pre hlog) hfirst
  | _ => trivial

namespace Link

variable {funcs : CallbackTable} {ok : Link → Action → Prop} {as : List Action} {req : Request}
  {stream : Bytes} {s t l : Link} {a : Action} {start : StreamReader}

theorem stopped_not_mem_of_reads {k : Nat} {out : List Event} {r : StreamReader}
    (hr : Reads funcs s k out r) : Event.stopped ∉ out := by
  intro hmem
  have := List.all_eq_true.mp (StreamReader.isRead_of_emits hr.emits) _ hmem
  cases this

theorem log_call (c : Call Unit) (s : Link) :
    ∃ new, (s.call c).conn.log = s.conn.log ++ new ∧ invocations new = [] ∧
      (c.isWriteResponse = true → Event.stopped ∉ new) := by
  cases c with
  | writeResponse _ body =>
      obtain ⟨major, minor, hlog, -, -⟩ := log_writeResponse s.conn body
      exact ⟨_, hlog, rfl, fun _ => by simp⟩
  | stop _ => exact ⟨[.stopped], rfl, rfl, nofun⟩
  | stopAll =>
      change ∃ new, (if s.registered = true then s.managerStop else s).conn.log = _ ∧ _
      split_ifs
      · exact ⟨[.stopped], rfl, rfl, nofun⟩
      · exact ⟨[], (List.append_nil _).symm, rfl, nofun⟩

theorem log_runCallback (calls : List (Call Unit)) (s : Link) :
    ∃ new, (s.runCallback calls).conn.log = s.conn.log ++ new ∧ invocations new = [] ∧
      (calls.all Call.isWriteResponse = true → Event.stopped ∉ new) := by
  induction calls generalizing s with
  | nil => exact ⟨[], (List.append_nil _).symm, rfl, fun _ => List.not_mem_nil⟩
  | cons c calls ih =>
      obtain ⟨first, hfirst, hnone, hstopped⟩ := log_call c s
      obtain ⟨rest, hrest, hnone', hstopped'⟩ := ih (s.call c)
      refine ⟨first ++ rest, ?_, ?_, ?_⟩
      · rw [← List.append_assoc, ← hfirst]
        exact hrest
      · rw [invocations_append, hnone, hnone']
        rfl
      · intro hcalls
        obtain ⟨hc, hcalls⟩ := Bool.and_eq_true_iff.mp hcalls
        rw [List.mem_append, not_or]
        exact ⟨hstopped hc, hstopped' hcalls⟩

/-! ## After a stop -/

/-- The log shows whether a connection was stopped. -/
def StopLogged (l : Link) : Prop := l.conn.mAbort = true ↔ .stopped ∈ l.conn.log

theorem stopLogged_managerStop (s : Link) : s.managerStop.StopLogged :=
  iff_of_true rfl (List.mem_append_right _ (List.mem_singleton_self _))

theorem StopLogged.append (h : s.StopLogged) {new : List Event} (hnew : .stopped ∉ new)
    (hlog : t.conn.log = s.conn.log ++ new) (habort : t.conn.mAbort = s.conn.mAbort) :
    t.StopLogged := by
  unfold StopLogged
  rw [hlog, habort, List.mem_append, or_iff_left hnew]
  exact h

theorem StopLogged.writeResponse (h : s.StopLogged) (body : Bytes) :
    StopLogged { s with conn := s.conn.writeResponse body } := by
  obtain ⟨_, _, hlog, -, -⟩ := log_writeResponse s.conn body
  exact h.append (by simp) hlog rfl

theorem StopLogged.runCallback (h : s.StopLogged) (calls : List (Call Unit)) :
    (s.runCallback calls).StopLogged := by
  induction calls generalizing s with
  | nil => exact h
  | cons c calls ih =>
      apply ih
      cases c with
      | writeResponse _ body => exact h.writeResponse body
      | stop _ => exact stopLogged_managerStop s
      | stopAll =>
          change StopLogged (if s.registered = true then s.managerStop else s)
          split_ifs
          · exact stopLogged_managerStop s
          · exact h

theorem Effect.stopLogged (he : Effect funcs s a t) (h : s.StopLogged) : t.StopLogged := by
  cases he with
  | receive => exact h
  | late => exact stopLogged_managerStop _
  | readFailed => exact stopLogged_managerStop _
  | refused => exact stopLogged_managerStop _
  | waits hr => exact h.append (stopped_not_mem_of_reads hr) rfl rfl
  | @invokes i calls k before callback r t hr _ _ ht =>
      have hcalled : t.StopLogged := by
        rw [ht]
        apply StopLogged.runCallback
        exact h.append (stopped_not_mem_of_reads hr) rfl rfl
      split_ifs <;> exact hcalled
  | @written i n ec data a _ _ =>
      split_ifs
      · exact stopLogged_managerStop _
      · have hnew : .stopped ∉ [Event.written ec] := by simp
        exact h.append hnew rfl rfl
  | respond => exact h.writeResponse _
  | stop => exact stopLogged_managerStop _

def StopFinal (pre : List Event) (e : Event) : Prop := .stopped ∈ pre → e.invocation = none

theorem stopFinal_append_other {log new : List Event} (h : Always StopFinal log)
    (hnew : invocations new = []) : Always StopFinal (log ++ new) := by
  apply h.append_of_forall
  intro pre e he _
  exact List.filterMap_eq_nil_iff.mp hnew e he

theorem Effect.log_append (he : Effect funcs s a t) (hlogged : s.StopLogged)
    (h : Always StopFinal s.conn.log) :
    (∃ new, t.conn.log = s.conn.log ++ new) ∧ Always StopFinal t.conn.log := by
  have hother {log : List Event} (new : List Event) (hlog : log = s.conn.log ++ new)
      (hnew : invocations new = []) :
      (∃ new, log = s.conn.log ++ new) ∧ Always StopFinal log := by
    rw [hlog]
    exact ⟨⟨new, rfl⟩, stopFinal_append_other h hnew⟩
  cases he with
  | receive => exact hother [] (List.append_nil _).symm rfl
  | late => exact hother [.stopped] rfl rfl
  | readFailed => exact hother [.stopped] rfl rfl
  | @refused i calls k out r hr _ hnone =>
      refine hother (out ++ [.stopped]) ?_ ?_
      · rw [← List.append_assoc]
        rfl
      · rw [invocations_append, hnone]
        rfl
  | @waits i calls k n out r _ _ hnone _ _ _ => exact hother out rfl hnone
  | @invokes i calls k before callback r t hr _ hnone ht =>
      obtain ⟨new, hnew, hnone', -⟩ := log_runCallback calls
        (s.readUpTo k r (before ++ [.requested r.req (some callback)]) [])
      rw [← ht] at hnew
      have hlog : t.conn.log =
          s.conn.log ++ before ++ [.requested r.req (some callback)] ++ new := by
        rw [hnew]
        simp [readUpTo]
      have hrunning : .stopped ∉ s.conn.log ++ before := by
        intro hmem
        rcases List.mem_append.mp hmem with hold | hbefore
        · have habort := hlogged.mpr hold
          rw [hr.abort_eq] at habort
          cases habort
        · exact stopped_not_mem_of_reads hr (List.mem_append_left _ hbefore)
      have hcalled : (∃ new, t.conn.log = s.conn.log ++ new) ∧ Always StopFinal t.conn.log := by
        rw [hlog]
        refine ⟨⟨_, by rw [List.append_assoc, List.append_assoc]⟩, ?_⟩
        apply stopFinal_append_other _ hnone'
        exact always_snoc.mpr
          ⟨stopFinal_append_other h hnone, fun hstopped => absurd hstopped hrunning⟩
      split_ifs <;> exact hcalled
  | @written i n ec data a _ _ =>
      split_ifs
      · refine hother [.written ec, .stopped] ?_ rfl
        rw [List.append_cons]
        rfl
      · exact hother [.written ec] rfl rfl
  | @respond body _ =>
      obtain ⟨_, _, hlog, -, -⟩ := log_writeResponse s.conn body
      exact hother _ hlog rfl
  | stop => exact hother [.stopped] rfl rfl

theorem stopLogged_started (req : Request) (stream : Bytes) :
    (started req stream).StopLogged := by
  have hlog : .stopped ∉ [Event.started] := by simp
  exact iff_of_false Bool.false_ne_true hlog

theorem log_of_run (h : Run (step funcs) ok (started req stream) as l) :
    .started ∈ l.conn.log ∧ Always StopFinal l.conn.log := by
  have hboth := h.invariant
    (I := fun l => (l.WellFormed ∧ l.StopLogged) ∧ .started ∈ l.conn.log ∧
      Always StopFinal l.conn.log)
    (fun l a l' _ hstep hI => by
      obtain ⟨⟨hshape, hlogged⟩, hstarted, hfinal⟩ := hI
      have he := step_effect hshape hstep
      obtain ⟨⟨new, hnew⟩, hfinal'⟩ := he.log_append hlogged hfinal
      refine ⟨⟨he.wellFormed hshape, he.stopLogged hlogged⟩, ?_, hfinal'⟩
      rw [hnew]
      exact List.mem_append_left _ hstarted)
    ⟨⟨wellFormed_started req stream, stopLogged_started req stream⟩, List.mem_singleton_self _,
      always_singleton.mpr fun hmem => by cases hmem⟩
  exact hboth.2

theorem invocations_of_stopped (hshape : s.WellFormed) (habort : s.conn.mAbort = true)
    (h : Run (step funcs) ok s as t) :
    t.conn.mAbort = true ∧ invocations t.conn.log = invocations s.conn.log := by
  have hboth := h.invariant
    (I := fun l => l.WellFormed ∧ l.conn.mAbort = true ∧
      invocations l.conn.log = invocations s.conn.log)
    (fun l a l' _ hstep hI => by
      obtain ⟨hl, hstopped, hsame⟩ := hI
      have he := step_effect hl hstep
      refine ⟨he.wellFormed hl, he.abort_mono hstopped, ?_⟩
      rcases he.readEvents_eq with heq | ⟨_, _, _, _, _, _, hr, _⟩
      · rw [← invocations_readEvents, heq, invocations_readEvents, hsame]
      · rw [hr.abort_eq] at hstopped
        cases hstopped)
    ⟨hshape, habort, rfl⟩
  exact hboth.2

/-! ## Between two requests -/

/-- A running connection that reads nothing has dispatched the last request. -/
def LastDispatched (l : Link) : Prop :=
  l.conn.mAbort = false → l.conn.mSocket.reads = [] →
    l.conn.mRequest.keepAlive = false ∧
      (requests (readEvents l.conn.log)).getLast? = some l.conn.mRequest

theorem LastDispatched.aside (h : s.LastDispatched) (haside : Aside s t)
    (habort : t.conn.mAbort = s.conn.mAbort) : t.LastDispatched := by
  unfold LastDispatched
  rw [habort, haside.reads_eq, haside.request_eq, haside.readEvents_eq]
  exact h

theorem lastDispatched_of_reading (h : s.conn.mSocket.reads ≠ []) : s.LastDispatched :=
  fun _ hreads => absurd hreads h

theorem lastDispatched_of_stopped (h : s.conn.mAbort = true) : s.LastDispatched := by
  intro habort
  rw [h] at habort
  cases habort

theorem Effect.lastDispatched (he : Effect funcs s a t) (h : s.LastDispatched) :
    t.LastDispatched := by
  cases he with
  | receive => exact lastDispatched_of_reading (List.cons_ne_nil _ _)
  | late => exact lastDispatched_of_stopped rfl
  | readFailed => exact lastDispatched_of_stopped rfl
  | refused => exact lastDispatched_of_stopped rfl
  | waits => exact lastDispatched_of_reading (List.cons_ne_nil _ _)
  | @invokes i calls k before callback r t hr _ _ ht =>
      by_cases hkeep : r.req.keepAlive = true
      · rw [if_pos hkeep]
        apply lastDispatched_of_reading
        exact List.append_ne_nil_of_right_ne_nil _ (List.cons_ne_nil _ _)
      · rw [if_neg hkeep]
        intro _ _
        have haside := Aside.of_eq_runCallback ht
        rw [haside.request_eq, haside.readEvents_eq]
        refine ⟨eq_false_of_ne_true hkeep, ?_⟩
        change (requests (readEvents (s.conn.log ++
          (before ++ [.requested r.req (some callback)])))).getLast? = some r.req
        rw [readEvents_append, readEvents_of_emits hr.emits]
        simp [requests, Event.request]
  | @written i n ec data a _ _ =>
      split_ifs
      · exact lastDispatched_of_stopped rfl
      · exact h.aside (Aside.popWrite s i n ec) rfl
  | respond => exact h.aside (Aside.writeResponse s _) rfl
  | stop => exact lastDispatched_of_stopped rfl

theorem phase_ne_done (h : s.conn.mSocket.reads ≠ []) : s.conn.reader.phase ≠ .done := by
  unfold HttpConnction.reader
  cases hreads : s.conn.mSocket.reads with
  | nil => exact absurd hreads h
  | cons op _ => cases op <;> simp

theorem Follows.serving (hf : Follows funcs start s) (hstart : start.phase = .head)
    (habort : s.conn.mAbort = false) (hreads : s.conn.mSocket.reads ≠ [])
    (hinvoked : invocations s.conn.log ≠ []) :
    s.conn.reader.Serving funcs := by
  obtain ⟨r, hemits, -, hreader⟩ := hf
  obtain rfl := hreader habort
  rw [← invocations_readEvents] at hinvoked
  exact StreamReader.serving_of_emits hstart hemits hinvoked (phase_ne_done hreads)

/-! ## Stops with a response outstanding -/

theorem Writing.invocations_ne_nil (h : s.Writing) (hw : s.WritesInvoked)
    (hpending : Pending s.conn.log) : invocations s.conn.log ≠ [] := by
  apply hw
  intro hnil
  have houtstanding := h.outstanding
  unfold Pending at hpending
  rw [hnil, List.length_nil, Nat.add_zero] at houtstanding
  omega

theorem pending_of_reads {k : Nat} {out : List Event} {r : StreamReader}
    (hr : Reads funcs s k out r) (h : Pending (s.conn.log ++ out)) : Pending s.conn.log := by
  have hother : ∀ e ∈ out, e.isWrite = false := fun e he =>
    not_isWrite_of_isRead (List.all_eq_true.mp (StreamReader.isRead_of_emits hr.emits) e he)
  unfold Pending at h ⊢
  rwa [completions_append, responses_append, completions_of_other hother,
    responses_of_other hother, List.append_nil, Nat.add_zero] at h

/-- What is known of a connection before it takes a step. -/
structure Known (funcs : CallbackTable) (start : StreamReader) (l : Link) : Prop where
  wellFormed : l.WellFormed
  writesInvoked : l.WritesInvoked
  follows : Follows funcs start l
  lastDispatched : l.LastDispatched
  writing : l.conn.mAbort = false → l.Writing
  stopLogged : l.StopLogged

theorem Effect.known (he : Effect funcs s a t) (h : Known funcs start s) :
    Known funcs start t where
  wellFormed := he.wellFormed h.wellFormed
  writesInvoked := he.writesInvoked h.writesInvoked
  follows := he.follows h.follows
  lastDispatched := he.lastDispatched h.lastDispatched
  writing ht := he.writing ht (h.writing (he.running ht))
  stopLogged := he.stopLogged h.stopLogged

theorem Known.stopAllowed_of_refused (h : Known funcs start s) (hstart : start.phase = .head)
    {k : Nat} {out : List Event} {r : StreamReader} (hr : Reads funcs s k out r)
    (hphase : r.phase = .done) : StopAllowed (s.conn.log ++ out) .stopped := by
  intro _ hpending
  have hinvoked := (h.writing hr.abort_eq).invocations_ne_nil h.writesInvoked
    (pending_of_reads hr hpending)
  have hserving := h.follows.serving hstart hr.abort_eq hr.reads_ne_nil hinvoked
  obtain ⟨before, block, consumed, rfl⟩ :=
    hserving.refused_of_emits (phase_ne_done hr.reads_ne_nil) hr.emits hphase
  exact .inl ⟨s.conn.log ++ before, block, consumed, (List.append_assoc _ _ _).symm,
    invocations_ne_nil_append hinvoked⟩

theorem Known.stopAllowed_of_written (h : Known funcs start s) (hstart : start.phase = .head)
    (habort : s.conn.mAbort = false) (hkeep : s.conn.mRequest.keepAlive = false)
    (hwrites : s.conn.mSocket.writes ≠ []) :
    StopAllowed (s.conn.log ++ [.written .success]) .stopped := by
  intro _ _
  have hreads : s.conn.mSocket.reads = [] := by
    by_contra hreading
    have hserving := h.follows.serving hstart habort hreading (h.writesInvoked hwrites)
    rw [show s.conn.mRequest.keepAlive = true from hserving.keepAlive_eq] at hkeep
    cases hkeep
  obtain ⟨-, hlast⟩ := h.lastDispatched habort hreads
  refine .inr ⟨s.conn.log, s.conn.mRequest, rfl, ?_, hkeep⟩
  rwa [requests_readEvents] at hlast

theorem Effect.stopAllowed (he : Effect funcs s a t) (hok : a.quiet = true)
    (hstart : start.phase = .head) (h : Known funcs start s)
    (halways : Always StopAllowed s.conn.log) : Always StopAllowed t.conn.log := by
  cases he with
  | receive => exact halways
  | late _ habort => exact stopAllowed_append_again halways (h.stopLogged.mp habort)
  | readFailed => cases hok
  | @refused i calls k out r hr hphase _ =>
      change Always StopAllowed ((s.conn.log ++ out) ++ [.stopped])
      exact always_snoc.mpr
        ⟨stopAllowed_append_other halways (stopped_not_mem_of_reads hr),
          h.stopAllowed_of_refused hstart hr hphase⟩
  | waits hr => exact stopAllowed_append_other halways (stopped_not_mem_of_reads hr)
  | @invokes i calls k before callback r t hr _ _ ht =>
      obtain ⟨new, hnew, -, hstopped⟩ := log_runCallback calls
        (s.readUpTo k r (before ++ [.requested r.req (some callback)]) [])
      rw [← ht] at hnew
      have hcalled : Always StopAllowed t.conn.log := by
        rw [hnew]
        exact stopAllowed_append_other
          (stopAllowed_append_other halways (stopped_not_mem_of_reads hr)) (hstopped hok)
      split_ifs <;> exact hcalled
  | @written i n ec data a hdata ha =>
      have hec : ec = .success := by
        rcases ha with ⟨-, hec, -⟩ | ⟨rfl, -, -⟩
        · exact hec
        · cases hok
      subst hec
      have hwrites : s.conn.mSocket.writes ≠ [] :=
        List.ne_nil_of_mem (List.mem_of_getElem? hdata)
      have hpopped : Always StopAllowed (s.conn.log ++ [.written .success]) :=
        stopAllowed_append_other halways (by simp)
      split_ifs with hstop
      · change Always StopAllowed ((s.conn.log ++ [.written .success]) ++ [.stopped])
        refine always_snoc.mpr ⟨hpopped, ?_⟩
        cases habort : s.conn.mAbort with
        | true =>
            exact fun hfirst => absurd (List.mem_append_left _ (h.stopLogged.mp habort)) hfirst
        | false =>
            rw [habort] at hstop
            exact h.stopAllowed_of_written hstart habort (by simpa [ErrorCode.failed] using hstop)
              hwrites
      · exact hpopped
  | @respond body _ =>
      obtain ⟨_, _, hlog, -, -⟩ := log_writeResponse s.conn body
      rw [hlog]
      exact stopAllowed_append_other halways (by simp)
  | stop => cases hok

theorem known_started (funcs : CallbackTable) (req : Request) (stream : Bytes) :
    Known funcs ⟨.head, .fresh, req, stream⟩ (started req stream) where
  wellFormed := wellFormed_started req stream
  writesInvoked := fun hw => absurd rfl hw
  follows := ⟨_, .refl _, rfl, fun _ => rfl⟩
  lastDispatched := lastDispatched_of_reading (List.cons_ne_nil _ _)
  writing := fun _ => writing_started req stream
  stopLogged := stopLogged_started req stream

/-- While nothing fails and nobody else stops the connection, it stops with a response pending only
where it has refused a further header block, or where another write completed behind the last
request. -/
theorem stop_allowed_of_run
    (h : Run (step funcs) (fun _ a => a.quiet = true) (started req stream) as l) :
    Always StopAllowed l.conn.log := by
  have hboth := h.invariant
    (I := fun l => Known funcs ⟨.head, .fresh, req, stream⟩ l ∧ Always StopAllowed l.conn.log)
    (fun s a t hok hstep hI => by
      have he := step_effect hI.1.wellFormed hstep
      exact ⟨he.known hI.1, he.stopAllowed hok rfl hI.1 hI.2⟩)
    ⟨known_started funcs req stream, always_singleton.mpr trivial⟩
  exact hboth.2

/-- For concrete runs: a request for "/" that does not ask to keep the connection. -/
def getOnce : Bytes := str "GET / HTTP/1.1\r\n\r\n"

/-- One request, one response, and the stop behind it. -/
theorem stop_allowed_of_once :
    ∃ l, Run (step oneCallback) (fun _ a => a.quiet = true) (blank getOnce)
        [.io (.receive 0 18), .io (.readDone 0 [.writeResponse () (str "a")]),
          .io (.writeDone 0)] l ∧
      Always StopAllowed l.conn.log ∧ .stopped ∈ l.conn.log := by
  have hrun : ∃ l, Run (step oneCallback) (fun _ a => a.quiet = true) (blank getOnce)
      [.io (.receive 0 18), .io (.readDone 0 [.writeResponse () (str "a")]),
        .io (.writeDone 0)] l ∧
      .stopped ∈ l.conn.log :=
    exists_run_of_exec (by decide +kernel)
  obtain ⟨l, h, hstopped⟩ := hrun
  exact ⟨l, h, stop_allowed_of_run h, hstopped⟩

/-- Either exception occurs: garbage behind a request stops the connection before its response is
sent, and so does the first of two responses to a request that is the last. -/
theorem responses_cut_off :
    (∃ l, Run (step oneCallback) (fun _ a => a.quiet = true)
        (blank (getKeepAlive ++ str "x\r\n\r\n"))
        [.io (.receive 0 47), .io (.readDone 0 [.writeResponse () (str "a")]),
          .io (.readDone 0 [])] l ∧
      ¬ Always Uncut l.conn.log) ∧
    ∃ l, Run (step oneCallback) (fun _ a => a.quiet = true) (blank getOnce)
        [.io (.receive 0 18),
          .io (.readDone 0 [.writeResponse () (str "a"), .writeResponse () (str "b")]),
          .io (.writeDone 0)] l ∧
      ¬ Always Uncut l.conn.log := by
  exact ⟨exists_run_of_exec (by decide +kernel), exists_run_of_exec (by decide +kernel)⟩

end Link

/-! ## What is outstanding -/

namespace StreamReader

variable {funcs : CallbackTable} {start r r' : StreamReader} {out : List Event}

/-- Only the last request can be one without `keep_alive`, and the reader is done behind it. -/
def LastOnly (pre : List Event) (r : StreamReader) : Prop :=
  (∀ req ∈ (requests pre).dropLast, req.keepAlive = true) ∧
    (r.phase ≠ .done → ∀ req ∈ requests pre, req.keepAlive = true)

theorem lastOnly_dispatch {pre out : List Event} (h : ∀ req ∈ requests pre, req.keepAlive = true)
    (hout : requests out = [r.req]) : LastOnly (pre ++ out) (r.dispatch funcs).2 := by
  unfold LastOnly
  rw [requests_append, hout, List.dropLast_concat]
  refine ⟨h, fun hphase req hmem => ?_⟩
  rcases List.mem_append.mp hmem with hold | hnew
  · exact h req hold
  · obtain rfl := List.mem_singleton.mp hnew
    exact (dispatch_phase hphase).2.2

theorem lastOnly_next {pre : List Event} (h : LastOnly pre r)
    (hnext : r.next funcs = some (out, r')) : LastOnly (pre ++ out) r' := by
  have hall : ∀ req ∈ requests pre, req.keepAlive = true := by
    apply h.2
    intro hdone
    rw [next_of_done hdone] at hnext
    cases hnext
  have hparsed {block : Bytes} {result : Tribool} {consumed : Nat} (r : StreamReader) :
      LastOnly (pre ++ [.parsed block result consumed]) r := by
    unfold LastOnly
    rw [requests_append, show requests [Event.parsed block result consumed] = [] from rfl,
      List.append_nil]
    exact ⟨h.1, fun _ => hall⟩
  apply next_rule hnext
  · intro block rest p _ _ _ _
    exact hparsed _
  · intro block rest p phase _ _ _ _ _ _
    exact hparsed _
  · intro block rest p _ _ _ _ _
    exact lastOnly_dispatch hall rfl
  · intro _ _
    exact lastOnly_dispatch hall rfl

theorem lastOnly_of_emits (h : Emits (next funcs) start out r) : LastOnly out r :=
  h.invariant (I := LastOnly) [] (fun _ _ _ _ => lastOnly_next) ⟨nofun, fun _ => nofun⟩

end StreamReader

def Link.Action.answers : Link.Action → Bool
  | .io (.readDone _ calls) => calls.any Call.isWriteResponse
  | _ => true

def Link.Action.completesWrite : Link.Action → Bool
  | .io (.writeDone _) => true
  | .io (.writeFailed _ _ _) => true
  | _ => false

namespace Link

variable {funcs : CallbackTable} {ok : Link → Action → Prop} {as : List Action} {req : Request}
  {stream : Bytes} {s t l : Link} {a : Action} {start : StreamReader}

/-- A connection that runs has something left to run. -/
def Armed (l : Link) : Prop :=
  l.conn.mAbort = false → l.conn.mSocket.reads ≠ [] ∨ l.conn.mSocket.writes ≠ []

theorem writes_call (c : Call Unit) (s : Link) :
    s.conn.mSocket.writes <+: (s.call c).conn.mSocket.writes := by
  cases c with
  | writeResponse _ body => exact List.prefix_append _ _
  | stop _ => exact List.prefix_refl _
  | stopAll =>
      change _ <+: (if s.registered = true then s.managerStop else s).conn.mSocket.writes
      split_ifs <;> exact List.prefix_refl _

theorem writes_runCallback (calls : List (Call Unit)) (s : Link) :
    s.conn.mSocket.writes <+: (s.runCallback calls).conn.mSocket.writes := by
  induction calls generalizing s with
  | nil => exact List.prefix_refl _
  | cons c calls ih => exact (writes_call c s).trans (ih (s.call c))

theorem writes_ne_nil_of_answers {calls : List (Call Unit)}
    (h : calls.any Call.isWriteResponse = true) (s : Link) :
    (s.runCallback calls).conn.mSocket.writes ≠ [] := by
  induction calls generalizing s with
  | nil => cases h
  | cons c calls ih =>
      cases c with
      | writeResponse _ body =>
          obtain ⟨rest, hrest⟩ :=
            writes_runCallback calls { s with conn := s.conn.writeResponse body }
          change (runCallback calls { s with conn := s.conn.writeResponse body
            }).conn.mSocket.writes ≠ []
          rw [← hrest]
          simp [HttpConnction.writeResponse, HttpConnction.record]
      | stop _ => exact ih h _
      | stopAll => exact ih h _

theorem armed_of_stopped (h : s.conn.mAbort = true) : s.Armed := by
  intro habort
  rw [h] at habort
  cases habort

theorem Effect.armed (he : Effect funcs s a t) (hok : a.answers = true)
    (hlast : s.LastDispatched) : t.Armed := by
  cases he with
  | receive => exact fun _ => .inl (List.cons_ne_nil _ _)
  | late => exact armed_of_stopped rfl
  | readFailed => exact armed_of_stopped rfl
  | refused => exact armed_of_stopped rfl
  | waits => exact fun _ => .inl (List.cons_ne_nil _ _)
  | @invokes i calls k before callback r t hr _ _ ht =>
      by_cases hkeep : r.req.keepAlive = true
      · rw [if_pos hkeep]
        exact fun _ => .inl (List.append_ne_nil_of_right_ne_nil _ (List.cons_ne_nil _ _))
      · rw [if_neg hkeep, ht]
        exact fun _ => .inr (writes_ne_nil_of_answers hok _)
  | @written i n ec data a _ _ =>
      split_ifs with hstop
      · exact armed_of_stopped rfl
      · -- a connection that goes on wants further requests, so it reads
        intro habort
        left
        intro hreads
        obtain ⟨hkeep, -⟩ := hlast habort hreads
        simp [hkeep] at hstop
  | respond => exact fun _ => .inr (List.append_ne_nil_of_right_ne_nil _ (List.cons_ne_nil _ _))
  | stop => exact armed_of_stopped rfl

theorem Known.reads_eq_nil (h : Known funcs start s) (habort : s.conn.mAbort = false)
    {req : Request} (hreq : req ∈ requests s.conn.log) (hkeep : req.keepAlive = false) :
    s.conn.mSocket.reads = [] := by
  by_contra hreads
  obtain ⟨r, hemits, -, hreader⟩ := h.follows
  obtain rfl := hreader habort
  have hphase : s.conn.reader.phase ≠ .done := phase_ne_done hreads
  have hall := (StreamReader.lastOnly_of_emits hemits).2 hphase req
  rw [requests_readEvents] at hall
  rw [hall hreq] at hkeep
  cases hkeep

theorem Effect.stopped_of_completesWrite (he : Effect funcs s a t) (hwrite : a.completesWrite = true)
    (h : Known funcs start s) {req : Request} (hreq : req ∈ requests s.conn.log)
    (hkeep : req.keepAlive = false) : t.conn.mAbort = true ∧ t.registered = false := by
  cases he with
  | @written i n ec data a _ _ =>
      have hstop : (ec.failed || s.conn.mAbort || !s.conn.mRequest.keepAlive) = true := by
        cases habort : s.conn.mAbort with
        | true => simp
        | false =>
            obtain ⟨hlast, -⟩ := h.lastDispatched habort (h.reads_eq_nil habort hreq hkeep)
            simp [hlast]
      rw [if_pos hstop]
      exact ⟨rfl, rfl⟩
  | _ => cases hwrite

/-- When every callback responds: a connection has at most one read outstanding, and something
outstanding as long as it is registered; only its last dispatched request is without `keep_alive`,
and behind such a request it reads no more and the completion of a write stops it. -/
theorem armed_of_run
    (h : Run (step funcs) (fun _ a => a.answers = true) (started req stream) as l) :
    l.conn.mSocket.reads.length ≤ 1 ∧
    (l.registered = true → l.conn.mSocket.reads ≠ [] ∨ l.conn.mSocket.writes ≠ []) ∧
    (∀ req ∈ (requests l.conn.log).dropLast, req.keepAlive = true) ∧
    ∀ req ∈ requests l.conn.log, req.keepAlive = false →
      (l.registered = true → l.conn.mSocket.reads = []) ∧
        ∀ a t, a.completesWrite = true → step funcs l a = some t →
          t.conn.mAbort = true ∧ t.registered = false := by
  have hboth := h.invariant
    (I := fun l => Known funcs ⟨.head, .fresh, req, stream⟩ l ∧ l.Armed)
    (fun s a t hok hstep hI => by
      have he := step_effect hI.1.wellFormed hstep
      exact ⟨he.known hI.1, he.armed hok hI.1.lastDispatched⟩)
    ⟨known_started funcs req stream, fun _ => .inl (List.cons_ne_nil _ _)⟩
  obtain ⟨hknown, harmed⟩ := hboth
  have hrunning := hknown.wellFormed.running_of_registered
  refine ⟨?_, fun hregistered => harmed (hrunning hregistered), ?_, ?_⟩
  · rcases hknown.wellFormed.reads_shape with hreads | hreads | ⟨_, _, hreads, -⟩ <;> simp [hreads]
  · obtain ⟨r, hemits, -, -⟩ := hknown.follows
    have hlast := (StreamReader.lastOnly_of_emits hemits).1
    rwa [requests_readEvents] at hlast
  · intro req hreq hkeep
    refine ⟨fun hregistered => hknown.reads_eq_nil (hrunning hregistered) hreq hkeep, ?_⟩
    intro a t hwrite hstep
    exact (step_effect hknown.wellFormed hstep).stopped_of_completesWrite hwrite hknown hreq hkeep

/-- One request, whose response has not been sent yet. -/
theorem armed_of_run_of_once :
    ∃ l, Run (step oneCallback) (fun _ a => a.answers = true) (blank getOnce)
        [.io (.receive 0 18), .io (.readDone 0 [.writeResponse () (str "a")])] l ∧
      l.registered = true ∧ (l.conn.mSocket.reads ≠ [] ∨ l.conn.mSocket.writes ≠ []) := by
  have hrun : ∃ l, Run (step oneCallback) (fun _ a => a.answers = true) (blank getOnce)
      [.io (.receive 0 18), .io (.readDone 0 [.writeResponse () (str "a")])] l ∧
      l.registered = true :=
    exists_run_of_exec (by decide +kernel)
  obtain ⟨l, h, hregistered⟩ := hrun
  exact ⟨l, h, hregistered, (armed_of_run h).2.1 hregistered⟩

end Link

end BtcServer.HttpmessageServer
