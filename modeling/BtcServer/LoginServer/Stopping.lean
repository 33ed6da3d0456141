import BtcServer.Lib.Run
import BtcServer.LoginServer.SessionMgr

/-!
# Stopping sessions

`session::stop` closes the socket, and what is pending on it completes with `operation_aborted`; the
handlers take that for a failure of the process and call `exit`.  So a stop is harmless exactly when
nothing is pending, which the read loop of a session that is started never allows.
-/

namespace BtcServer.LoginServer

open Boost Lib

def IoOp.Failed (op : IoOp) : Prop :=
  ∃ ec length, op.done = some (ec, length) ∧ ec.failed = true ∧ ec ≠ .operationAborted

namespace SessionMgr

/-- The step closes the socket of session `j`: `stop` or `stop_all` is called, or a handler that is
told of a failure stops its session. -/
def Closes (s : SessionMgr) (j : Nat) : Action → Prop
  | .stop i => i = j
  | .stopAll => j ∈ s.mSessions
  | .run i k => i = j ∧ ∃ op, (s.sessions i).ops[k]? = some op ∧ op.Failed
  | _ => False

/-- No socket with a pending operation is closed. -/
def Harmless (s : SessionMgr) (a : Action) : Prop := ∀ j, s.Closes j a → ¬(s.sessions j).Busy

/-- The process has been ended by a handler, or some handler will end it. -/
def Doomed (s : SessionMgr) : Prop := s.exited ≠ none ∨ ∃ j, (s.sessions j).Doomed

variable {s t : SessionMgr} {i j k length : Nat} {ec : ErrorCode} {kind : IoKind} {op : IoOp}
  {session : Session} {a : Action} {as : List Action} {isOpen : Nat → Bool}
  {buffers rspBuffers : Nat → Vector UInt8 8192}

/-! ## What a step does -/

@[simp] theorem sessions_setSession_self (s : SessionMgr) (i : Nat) (session : Session) :
    (s.setSession i session).sessions i = session :=
  Function.update_self ..

theorem sessions_stopAll (s : SessionMgr) (j : Nat) :
    s.stopAll.sessions j = if j ∈ s.mSessions then (s.sessions j).stop else s.sessions j :=
  rfl

theorem handle_of_aborted (s : SessionMgr) (i : Nat) (kind : IoKind) (length : Nat) :
    s.handle i kind .operationAborted length = s.somethingWrong := by
  cases kind <;> rfl

theorem handle_of_failed (s : SessionMgr) (i : Nat) (kind : IoKind) (length : Nat)
    (hfailed : ec.failed = true) (hne : ec ≠ .operationAborted) :
    s.handle i kind ec length = s.stop i := by
  cases kind <;> simp [handle, handleRead, handleWrite, hfailed, hne.symm]

theorem handle_of_success (s : SessionMgr) (i : Nat) (kind : IoKind) (length : Nat) :
    ∃ session, (s.handle i kind .success length).sessions = Function.update s.sessions i session ∧
      (session.Doomed ↔ (s.sessions i).Doomed) := by
  cases kind with
  | readSome size =>
      refine ⟨((s.sessions i).terminate length).doRead, rfl, ?_⟩
      exact Session.doomed_startOp ((s.sessions i).terminate length) _
  | writeSome data =>
      refine ⟨s.sessions i, ?_, Iff.rfl⟩
      rw [Function.update_eq_self]
      rfl

theorem exited_of_success (s : SessionMgr) (i : Nat) (kind : IoKind) (length : Nat) :
    (s.handle i kind .success length).exited = s.exited := by
  cases kind <;> rfl

theorem sessions_stop_setSession (s : SessionMgr) (i : Nat) (session : Session) :
    ((s.setSession i session).stop i).sessions = Function.update s.sessions i session.stop := by
  simp [stop, setSession]

theorem run_cases (h : s.run i k = some t) :
    ∃ kind ec length, (s.sessions i).ops[k]? = some ⟨kind, some (ec, length)⟩ ∧
      t = (s.setSession i ((s.sessions i).take k)).handle i kind ec length := by
  unfold run at h
  split at h
  case h_1 kind ec length hop => exact ⟨kind, ec, length, hop, (Option.some.inj h).symm⟩
  case h_2 => cases h

/-- A step of a process that goes on. -/
inductive Effect (s : SessionMgr) : Action → SessionMgr → Prop
  | start (i : Nat) : Effect s (.start i) (s.start i)
  | stop (i : Nat) : Effect s (.stop i) (s.stop i)
  | stopAll : Effect s .stopAll s.stopAll
  | doWrite (i : Nat) : Effect s (.doWrite i) (s.setSession i (s.sessions i).doWrite)
  | receive {i k : Nat} {data : List UInt8} {session : Session}
      (h : (s.sessions i).receive k data = some session) :
      Effect s (.receive i k data) (s.setSession i session)
  | send {i k length : Nat} {session : Session}
      (h : (s.sessions i).send k length = some session) :
      Effect s (.send i k length) (s.setSession i session)
  | fail {i k : Nat} {ec : ErrorCode} {session : Session}
      (h : (s.sessions i).fail k ec = some session) :
      Effect s (.fail i k ec) (s.setSession i session)
  | run {i k : Nat} {t : SessionMgr} (h : s.run i k = some t) : Effect s (.run i k) t

theorem effect_of_step (h : s.step a = some t) : s.exited = none ∧ s.Effect a t := by
  unfold step at h
  cases hexited : s.exited with
  | some status =>
      rw [hexited, Option.isSome_some, if_pos rfl] at h
      cases h
  | none =>
      rw [hexited, Option.isSome_none, if_neg Bool.false_ne_true] at h
      refine ⟨rfl, ?_⟩
      cases a with
      | start i =>
          obtain rfl := Option.some.inj h
          exact .start i
      | stop i =>
          obtain rfl := Option.some.inj h
          exact .stop i
      | stopAll =>
          obtain rfl := Option.some.inj h
          exact .stopAll
      | doWrite i =>
          obtain rfl := Option.some.inj h
          exact .doWrite i
      | receive i k data =>
          obtain ⟨session, hsession, rfl⟩ := Option.map_eq_some_iff.mp h
          exact .receive hsession
      | send i k length =>
          obtain ⟨session, hsession, rfl⟩ := Option.map_eq_some_iff.mp h
          exact .send hsession
      | fail i k ec =>
          obtain ⟨session, hsession, rfl⟩ := Option.map_eq_some_iff.mp h
          exact .fail hsession
      | run i k => exact .run h

theorem doomed_update {C : Nat → Prop}
    (hsessions : t.sessions = Function.update s.sessions i session)
    (hself : session.Doomed ↔ (s.sessions i).Doomed ∨ C i ∧ (s.sessions i).Busy)
    (hothers : ∀ j, j ≠ i → ¬C j) (j : Nat) :
    (t.sessions j).Doomed ↔ (s.sessions j).Doomed ∨ C j ∧ (s.sessions j).Busy := by
  rw [hsessions]
  by_cases hj : j = i
  · subst hj
    rw [Function.update_self]
    exact hself
  · rw [Function.update_of_ne hj]
    exact (or_iff_left fun hclosed => hothers j hj hclosed.1).symm

theorem doomed_update_of_iff {C : Nat → Prop}
    (hsessions : t.sessions = Function.update s.sessions i session)
    (hself : session.Doomed ↔ (s.sessions i).Doomed) (hnone : ∀ j, ¬C j) (j : Nat) :
    (t.sessions j).Doomed ↔ (s.sessions j).Doomed ∨ C j ∧ (s.sessions j).Busy :=
  doomed_update hsessions (hself.trans (or_iff_left fun hclosed => hnone i hclosed.1).symm)
    (fun j _ => hnone j) j

theorem doomed_run (h : s.run i k = some t) :
    (t.exited ≠ none ∧ (s.sessions i).Doomed) ∨
      (t.exited = s.exited ∧ ∀ j, (t.sessions j).Doomed ↔
        (s.sessions j).Doomed ∨ s.Closes j (.run i k) ∧ (s.sessions j).Busy) := by
  obtain ⟨kind, ec, length, hop, rfl⟩ := run_cases h
  by_cases hec : ec = .operationAborted
  · subst hec
    rw [handle_of_aborted]
    exact .inl ⟨Option.some_ne_none _, _, List.mem_of_getElem? hop, length, rfl⟩
  · right
    have htake : ((s.sessions i).take k).Doomed ↔ (s.sessions i).Doomed := by
      refine Session.doomed_take hop ?_
      rintro ⟨length', hdone⟩
      injection hdone with hpair
      exact hec (Prod.mk.inj hpair).1
    have hbusy : ((s.sessions i).take k).Busy ↔ (s.sessions i).Busy :=
      Session.busy_take hop (fun hpending => by cases hpending)
    by_cases hfailed : ec.failed = true
    · have hcloses : s.Closes i (.run i k) := ⟨rfl, _, hop, ec, length, rfl, hfailed, hec⟩
      rw [handle_of_failed _ i kind length hfailed hec]
      refine ⟨rfl, doomed_update (sessions_stop_setSession s i _) ?_ ?_⟩
      · rw [Session.doomed_stop, htake, hbusy]
        exact or_congr_right (and_iff_right hcloses).symm
      · rintro j hj ⟨hi, -⟩
        exact hj hi.symm
    · obtain rfl := ErrorCode.eq_success hfailed
      obtain ⟨session, hsessions, hsession⟩ :=
        handle_of_success (s.setSession i ((s.sessions i).take k)) i kind length
      rw [sessions_setSession_self, htake] at hsession
      refine ⟨exited_of_success _ i kind length, doomed_update_of_iff (i := i) ?_ hsession ?_⟩
      · rw [hsessions, setSession, Function.update_idem]
      · rintro j ⟨-, op, hop', ec, length', hdone, hec', -⟩
        obtain rfl := Option.some.inj (hop.symm.trans hop')
        injection hdone with hpair
        rw [← (Prod.mk.inj hpair).1] at hec'
        exact hfailed hec'

/-- What a step does to the sessions with an aborted operation: it ends the process because of one,
or those are added whose socket it closes while something is pending. -/
theorem doomed_step (h : s.step a = some t) :
    (t.exited ≠ none ∧ ∃ j, (s.sessions j).Doomed) ∨
      (t.exited = none ∧ ∀ j, (t.sessions j).Doomed ↔
        (s.sessions j).Doomed ∨ s.Closes j a ∧ (s.sessions j).Busy) := by
  obtain ⟨hexited, heffect⟩ := effect_of_step h
  cases heffect with
  | start i | doWrite i =>
      exact .inr ⟨hexited, doomed_update_of_iff rfl (Session.doomed_startOp _ _) (fun _ => id)⟩
  | stop i =>
      refine .inr ⟨hexited, doomed_update rfl ?_ (fun j hj hi => hj hi.symm)⟩
      rw [Session.doomed_stop]
      exact or_congr_right (and_iff_right rfl).symm
  | stopAll =>
      refine .inr ⟨hexited, fun j => ?_⟩
      rw [sessions_stopAll]
      by_cases hj : j ∈ s.mSessions
      · rw [if_pos hj, Session.doomed_stop]
        exact or_congr_right (and_iff_right hj).symm
      · rw [if_neg hj]
        exact (or_iff_left fun hclosed => hj hclosed.1).symm
  | receive hsession =>
      have hdoomed := Session.doomed_receive hsession
      exact .inr ⟨hexited, doomed_update_of_iff rfl hdoomed (fun _ => id)⟩
  | send hsession =>
      have hdoomed := Session.doomed_send hsession
      exact .inr ⟨hexited, doomed_update_of_iff rfl hdoomed (fun _ => id)⟩
  | fail hsession =>
      have hdoomed := Session.doomed_fail hsession
      exact .inr ⟨hexited, doomed_update_of_iff rfl hdoomed (fun _ => id)⟩
  | run hrun =>
      rcases doomed_run hrun with ⟨hended, hdoomed⟩ | ⟨hkept, hsessions⟩
      · exact .inl ⟨hended, _, hdoomed⟩
      · exact .inr ⟨hkept.trans hexited, hsessions⟩

theorem Doomed.step (h : s.Doomed) (hstep : s.step a = some t) : t.Doomed := by
  rcases doomed_step hstep with ⟨hended, -⟩ | ⟨hkept, hsessions⟩
  · exact .inl hended
  · rcases h with hended | ⟨j, hj⟩
    · exact absurd (effect_of_step hstep).1 hended
    · exact .inr ⟨j, (hsessions j).mpr (.inl hj)⟩

theorem Harmless.not_doomed (hok : s.Harmless a) (h : ¬s.Doomed) (hstep : s.step a = some t) :
    ¬t.Doomed := by
  have hnone : ∀ j, ¬(s.sessions j).Doomed := fun j hj => h (.inr ⟨j, hj⟩)
  rcases doomed_step hstep with ⟨-, j, hj⟩ | ⟨hkept, hsessions⟩
  · exact absurd hj (hnone j)
  · rintro (hended | ⟨j, hj⟩)
    · exact hended hkept
    · rcases (hsessions j).mp hj with hold | ⟨hcloses, hbusy⟩
      · exact hnone j hold
      · exact hok j hcloses hbusy

/-- Closing a socket while something is pending on it dooms the process. -/
theorem harmless_of_not_doomed (hstep : s.step a = some t) (h : ¬t.Doomed) : s.Harmless a := by
  intro j hcloses hbusy
  rcases doomed_step hstep with ⟨hended, -⟩ | ⟨-, hsessions⟩
  · exact h (.inl hended)
  · exact h (.inr ⟨j, (hsessions j).mpr (.inr ⟨hcloses, hbusy⟩)⟩)

theorem Doomed.exits (h : s.Doomed) :
    ∃ bs t, Run SessionMgr.step Harmless s bs t ∧ t.exited ≠ none := by
  by_cases hended : s.exited = none
  · obtain ⟨j, op, hmem, length, hdone⟩ := h.resolve_left (fun hne => hne hended)
    obtain ⟨k, hk⟩ := List.mem_iff_getElem?.mp hmem
    have hop : (s.sessions j).ops[k]? = some ⟨op.kind, some (.operationAborted, length)⟩ := by
      rw [hk, ← hdone]
    have hharmless : s.Harmless (.run j k) := by
      rintro i ⟨-, op', hop', ec, length', hdone', -, hec⟩
      obtain rfl := Option.some.inj (hk.symm.trans hop')
      injection hdone.symm.trans hdone' with hpair
      exact absurd (Prod.mk.inj hpair).1.symm hec
    refine ⟨[.run j k], (s.setSession j ((s.sessions j).take k)).somethingWrong,
      .cons hharmless ?_ (.nil _), Option.some_ne_none _⟩
    rw [SessionMgr.step, hended, Option.isSome_none, if_neg Bool.false_ne_true]
    rw [run, hop]
    exact congrArg some (handle_of_aborted _ j op.kind length)
  · exact ⟨[], s, .nil s, hended⟩

/-! ## Runs -/

theorem not_doomed_create : ¬(create isOpen buffers rspBuffers).Doomed := by
  rintro (hended | ⟨j, op, hmem, -⟩)
  · exact hended rfl
  · cases hmem

theorem harmless_of_run (h : Run step (fun _ _ => True) s as t) (ht : ¬t.Doomed) :
    Run step Harmless s as t := by
  induction h with
  | nil s => exact .nil s
  | cons _ hstep hrun ih =>
      refine .cons (harmless_of_not_doomed hstep fun hdoomed => ht ?_) hstep (ih ht)
      exact hrun.invariant (fun _ _ _ _ hstep hs => Doomed.step hs hstep) hdoomed

/-- No handler ends the process, in a run and whatever harmless steps come after it, exactly when
every step of the run is harmless. -/
theorem stop_harmless_iff
    (h : Run step (fun _ _ => True) (create isOpen buffers rspBuffers) as t) :
    (∀ bs u, Run step Harmless t bs u → u.exited = none) ↔
      Run step Harmless (create isOpen buffers rspBuffers) as t := by
  constructor
  · intro hnever
    refine harmless_of_run h fun hdoomed => ?_
    obtain ⟨bs, u, hrun, hended⟩ := Doomed.exits hdoomed
    exact hended (hnever bs u hrun)
  · intro hharmless bs u hrun
    have hu : ¬u.Doomed :=
      (hharmless.append hrun).invariant (I := fun s => ¬s.Doomed)
        (fun _ _ _ hok hstep hs => Harmless.not_doomed hok hs hstep) not_doomed_create
    by_contra hended
    exact hu (.inl hended)

/-- For concrete runs: all sockets are open. -/
def opened : SessionMgr :=
  create (fun _ => true) (fun _ => .replicate 8192 0) (fun _ => .replicate 8192 0)

/-- The peer of a session closes the connection, and the session is stopped by the handler. -/
theorem stop_harmless_of_eof :
    ∃ t, Run step (fun _ _ => True) opened [.start 0, .fail 0 0 .eof, .run 0 0] t ∧
      (t.sessions 0).mSocketIsOpen = false ∧
      ∀ bs u, Run step Harmless t bs u → u.exited = none := by
  have hidle : ∀ s : SessionMgr, (s.sessions 0).ops = [⟨.readSome 8192, some (.eof, 0)⟩] →
      s.Harmless (.run 0 0) := by
    rintro s hops j ⟨rfl, -⟩ ⟨op, hmem, hpending⟩
    rw [hops, List.mem_singleton] at hmem
    subst hmem
    cases hpending
  have hrun : ∃ t, Run step Harmless opened [.start 0, .fail 0 0 .eof, .run 0 0] t ∧
      (t.sessions 0).mSocketIsOpen = false :=
    ⟨_, .cons (fun _ => False.elim) rfl (.cons (fun _ => False.elim) rfl
      (.cons (hidle _ rfl) rfl (.nil _))), rfl⟩
  obtain ⟨t, hharmless, hclosed⟩ := hrun
  have h := hharmless.mono (fun _ _ _ => trivial)
  exact ⟨t, h, hclosed, (stop_harmless_iff h).mpr hharmless⟩

/-- A session is stopped while its read is pending: the handler of the read ends the process, and
with it a session that nobody has stopped. -/
theorem stop_not_harmless :
    ∃ t, Run step (fun _ _ => True) opened [.start 0, .start 1, .stop 0, .run 0 0] t ∧
      t.exited = some (-1) ∧ 1 ∈ t.mSessions ∧ (t.sessions 1).mSocketIsOpen = true :=
  exists_run_of_exec (by decide +kernel)

end SessionMgr

end BtcServer.LoginServer
