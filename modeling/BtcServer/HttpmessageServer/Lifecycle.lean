import BtcServer.HttpmessageServer.ServerRun

/-!
# The life of a connection

Which connections are in the manager's set, what a stop leaves behind, and when stopping the server
is final.
-/

namespace BtcServer.HttpmessageServer

open Boost Lib

namespace HttpServer

variable {funcs : CallbackTable} {s t : HttpServer} {a : Action} {as : List Action}
  {req : Request} {stream : Bytes}

/-! ## The set of the manager -/

def Started (s : HttpServer) (i : Nat) : Prop := .started ∈ (s.conns i).log

instance (s : HttpServer) (i : Nat) : Decidable (s.Started i) :=
  inferInstanceAs (Decidable (_ ∈ _))

theorem Inv.started_iff (h : s.Inv funcs) (i : Nat) : s.Started i ↔ ¬ (s.link i).Fresh := by
  constructor
  · intro hstarted hfresh
    have hlog : (s.conns i).log = [] := hfresh.log_eq
    unfold Started at hstarted
    rw [hlog] at hstarted
    cases hstarted
  · intro hi
    obtain ⟨req, stream, as, hrun⟩ := h.served hi
    exact (Link.log_of_run hrun).1

theorem Inv.mem_iff (h : s.Inv funcs) (i : Nat) :
    i ∈ s.mHttpConnectionPtrs ↔ s.Started i ∧ (s.conns i).mAbort = false := by
  have hregistered : (s.link i).registered = true ↔ i ∈ s.mHttpConnectionPtrs := decide_eq_true_iff
  rw [← hregistered, h.started_iff]
  by_cases hfresh : (s.link i).Fresh
  · simp [hfresh.1, hfresh]
  · obtain ⟨req, stream, as, hrun⟩ := h.served hfresh
    rw [(Link.wellFormed_of_run hrun).registered_eq]
    simp only [hfresh, not_false_eq_true, true_and, Bool.not_eq_true']
    rfl

def unlogged (s : HttpServer) : HttpServer :=
  { s with conns := fun i => { s.conns i with log := [] } }

theorem unlogged_managerStop_twice (s : HttpServer) (i : Nat) :
    ((s.managerStop i).managerStop i).unlogged = (s.managerStop i).unlogged := by
  have hconns (j : Nat) :
      { ((s.managerStop i).managerStop i).conns j with log := [] } =
        { (s.managerStop i).conns j with log := [] } := by
    by_cases hj : j = i
    · subst hj
      simp [managerStop, setConn, HttpConnction.stop, HttpConnction.record]
    · simp [managerStop, setConn, hj]
  unfold unlogged
  rw [funext hconns]
  simp [managerStop, setConn]

theorem managerStopAll_twice (s : HttpServer) :
    s.managerStopAll.managerStopAll = s.managerStopAll := by
  simp [managerStopAll]

/-- While no exception was thrown: the set of the manager holds exactly the connections that were
started and not stopped; behind a stop no callback is invoked and the connection does not come back
into the set, whatever is still queued or buffered; and to stop twice is to stop once. -/
theorem lifecycle_of_run (h : Run (step funcs) (fun _ _ => True) (started req stream) as s)
    (hthrown : s.thrown = none) :
    (∀ i, i ∈ s.mHttpConnectionPtrs ↔ s.Started i ∧ (s.conns i).mAbort = false) ∧
    (∀ i, Always Link.StopFinal (s.conns i).log) ∧
    (∀ i as' t, (s.conns i).mAbort = true → Run (step funcs) (fun _ _ => True) s as' t →
      t.thrown = none →
      (t.conns i).mAbort = true ∧ i ∉ t.mHttpConnectionPtrs ∧
        invocations (t.conns i).log = invocations (s.conns i).log) ∧
    (∀ i, ((s.managerStop i).managerStop i).unlogged = (s.managerStop i).unlogged) ∧
    s.managerStopAll.managerStopAll = s.managerStopAll := by
  have hinv := inv_of_run h hthrown
  refine ⟨hinv.mem_iff, ?_, ?_, s.unlogged_managerStop_twice, s.managerStopAll_twice⟩
  · intro i
    by_cases hfresh : (s.link i).Fresh
    · have hlog : (s.conns i).log = [] := hfresh.log_eq
      rw [hlog]
      exact always_nil
    · obtain ⟨req, stream, as, hrun⟩ := hinv.served hfresh
      exact (Link.log_of_run hrun).2
  · intro i as' t habort hrun ht
    have hlive : ¬ (s.link i).Fresh := by
      intro hfresh
      have hrunning : (s.conns i).mAbort = false := hfresh.abort_eq
      rw [hrunning] at habort
      cases habort
    obtain ⟨req, stream, as, hserved⟩ := hinv.served hlive
    obtain ⟨bs, hreaches⟩ := hinv.reaches hrun ht hlive
    obtain ⟨hstopped, hsame⟩ :=
      Link.invocations_of_stopped (Link.wellFormed_of_run hserved) habort hreaches
    refine ⟨hstopped, ?_, hsame⟩
    rw [(hinv.run hrun ht).mem_iff]
    rintro ⟨-, hrunning⟩
    rw [show (t.conns i).mAbort = true from hstopped] at hrunning
    cases hrunning

/-- For concrete runs: a request that happened to hold zeros. -/
def zeros : Request := .uninitialised 0 0 0 false

/-- A callback stops its connection, and a block that would be accepted is behind the request. -/
theorem lifecycle_of_run_of_stop :
    ∃ s t, Run (step Link.oneCallback) (fun _ _ => True)
        (started zeros (Link.getKeepAlive ++ str "\n\r\n\r\n"))
        [.acceptDone 0 .success, .acceptRun 0 .success zeros [], .io 0 (.receive 0 47),
          .io 0 (.readDone 0 [.stop 0])] s ∧
      Run (step Link.oneCallback) (fun _ _ => True) s [.io 0 (.readDone 0 [])] t ∧
      (t.conns 0).mAbort = true ∧ 0 ∉ t.mHttpConnectionPtrs ∧
        invocations (t.conns 0).log = invocations (s.conns 0).log := by
  have hrun : ∃ s, Run (step Link.oneCallback) (fun _ _ => True)
      (started zeros (Link.getKeepAlive ++ str "\n\r\n\r\n"))
      [.acceptDone 0 .success, .acceptRun 0 .success zeros [], .io 0 (.receive 0 47),
        .io 0 (.readDone 0 [.stop 0])] s ∧
      s.thrown = none ∧ (s.conns 0).mAbort = true ∧
        (exec (step Link.oneCallback) (fun _ _ => True) s [.io 0 (.readDone 0 [])]).any
          (fun t => t.thrown = none) = true :=
    exists_run_of_exec (by decide +kernel)
  obtain ⟨s, h, hthrown, habort, hnext⟩ := hrun
  obtain ⟨t, h', ht⟩ := exists_run_of_exec hnext
  exact ⟨s, t, h, h', (lifecycle_of_run h hthrown).2.2.1 0 _ t habort h' ht⟩

/-! ## Stopping the server -/

theorem step_serverStop (h : s.thrown = none) : step funcs s .serverStop = some s.stop := by
  unfold step
  rw [h]
  rfl

/-- The server was stopped, and no accept will succeed. -/
structure Closed (s : HttpServer) : Prop where
  isOpen_eq : s.mAcceptorIsOpen = false
  empty : s.mHttpConnectionPtrs = ∅
  failed : ∀ op ∈ s.accepts, ∃ ec, op.done = some ec ∧ ec.failed = true

theorem closed_stop (h : ∀ op ∈ s.accepts, op.done ≠ some .success) : s.stop.Closed where
  isOpen_eq := rfl
  empty := rfl
  failed := by
    intro op hop
    obtain ⟨old, hold, rfl⟩ := List.mem_map.mp hop
    have hold := h old hold
    unfold AcceptOp.abort
    cases hdone : old.done with
    | none => exact ⟨_, rfl, rfl⟩
    | some ec =>
        refine ⟨ec, rfl, ?_⟩
        rw [hdone] at hold
        simpa [ErrorCode.failed] using hold

theorem Effect.closed (he : Effect funcs s a t) (h : s.Closed) :
    t.Closed ∧ t.thrown = s.thrown ∧ ∀ i, (s.link i).Fresh → (t.link i).Fresh := by
  have hpending {c : Nat} {done : Option ErrorCode} (haccepting : s.Accepting ⟨c, done⟩) :
      ∃ ec, done = some ec ∧ ec.failed = true := by
    apply h.failed ⟨c, done⟩
    rw [haccepting.alone]
    exact List.mem_singleton_self _
  cases he with
  | connected haccepting _ =>
      obtain ⟨ec, hdone, -⟩ := hpending haccepting
      cases hdone
  | unconnected haccepting _ =>
      obtain ⟨ec, hdone, -⟩ := hpending haccepting
      cases hdone
  | acceptFailed => exact ⟨⟨h.isOpen_eq, h.empty, nofun⟩, rfl, fun _ hfresh => hfresh⟩
  | admitted haccepting _ =>
      obtain ⟨ec, hdone, hec⟩ := hpending haccepting
      cases hdone
      cases hec
  | threw haccepting _ =>
      obtain ⟨ec, hdone, hec⟩ := hpending haccepting
      cases hdone
      cases hec
  | moves hframe =>
      refine ⟨⟨hframe.isOpen_eq.trans h.isOpen_eq, ?_, hframe.accepts_eq ▸ h.failed⟩,
        hframe.thrown_eq, fun i hfresh => ?_⟩
      · exact Finset.subset_empty.mp (hframe.subset.trans h.empty.subset)
      · rw [(hframe.others i not_false).fresh hfresh]
        exact hfresh
  | serverStop =>
      refine ⟨closed_stop ?_, rfl, fun i hfresh => ?_⟩
      · intro op hop hdone
        obtain ⟨ec, hec, hfailed⟩ := h.failed op hop
        obtain rfl := Option.some.inj (hec.symm.trans hdone)
        cases hfailed
      · rw [link_stop, hfresh.call_stopAll]
        exact hfresh

/-- When the server is stopped, the set of the manager stays empty and no connection is started any
more, whatever happens afterwards, exactly when no accept that has succeeded is waiting for its
handler. -/
theorem stop_final_iff (h : Run (step funcs) (fun _ _ => True) (started req stream) as s)
    (hstop : step funcs s .serverStop = some t) :
    (∀ as' u, Run (step funcs) (fun _ _ => True) t as' u →
      u.mHttpConnectionPtrs = ∅ ∧ ∀ i, u.Started i → t.Started i) ↔
    ∀ op ∈ s.accepts, op.done ≠ some .success := by
  have hrunning := running_of_step hstop
  have hinv := inv_of_run h hrunning
  obtain rfl : s.stop = t := Option.some.inj ((step_serverStop hrunning).symm.trans hstop)
  have hinv' : s.stop.Inv funcs := (Effect.serverStop).inv hrunning hinv
  constructor
  · intro hfinal op hop hdone
    obtain ⟨c, done⟩ := op
    obtain rfl : done = some .success := hdone
    have hqueued : s.stop.Accepting ⟨c, some .success⟩ :=
      hinv'.accepting _ (List.mem_map_of_mem hop)
    obtain ⟨req', stream', hconn⟩ := hqueued.conn_of_success
    have hconn' : ({ s.stop with accepts := [] } : HttpServer).conns c = _ := hconn
    have hrun := acceptRun_of_success hqueued .success req stream
    rw [if_neg (by rw [thrown_managerStart_success hqueued]; simp [stop, managerStopAll, hrunning])]
      at hrun
    have hstep : step funcs s.stop (.acceptRun 0 .success req stream) = _ :=
      (if_neg (by simp [stop, managerStopAll, hrunning])).trans hrun
    obtain ⟨hempty, -⟩ := hfinal _ _ (.cons trivial hstep (.nil _))
    rw [managerStart_success hconn'] at hempty
    exact Finset.insert_ne_empty _ _ hempty
  · intro hnone as' u hrun
    have hall := hrun.invariant
      (I := fun u => u.thrown = none ∧ u.Inv funcs ∧ u.Closed ∧
        ∀ i, (s.stop.link i).Fresh → (u.link i).Fresh)
      (fun u a v _ hstep hI => by
        obtain ⟨hthrown, hu, hclosed, hfresh⟩ := hI
        have he := step_effect hu hstep
        obtain ⟨hclosed', hthrown', hfresh'⟩ := he.closed hclosed
        exact ⟨hthrown'.trans hthrown, he.inv (hthrown'.trans hthrown) hu, hclosed',
          fun i hi => hfresh' i (hfresh i hi)⟩)
      ⟨hrunning, hinv', closed_stop hnone, fun _ hi => hi⟩
    obtain ⟨-, hu, hclosed, hfresh⟩ := hall
    refine ⟨hclosed.empty, fun i hstarted => ?_⟩
    rw [hinv'.started_iff]
    rw [hu.started_iff] at hstarted
    exact fun hi => hstarted (hfresh i hi)

/-- A server that is stopped while its first accept is pending. -/
theorem stop_final_of_pending :
    ∃ t, step Link.oneCallback (started zeros []) .serverStop = some t ∧
      ∀ as' u, Run (step Link.oneCallback) (fun _ _ => True) t as' u →
        u.mHttpConnectionPtrs = ∅ ∧ ∀ i, u.Started i → t.Started i := by
  have hpending : ∀ op ∈ (started zeros []).accepts, op.done ≠ some .success := by decide +kernel
  exact ⟨_, rfl, (stop_final_iff (.nil _) rfl).mpr hpending⟩

/-- An accept has succeeded, the server is stopped, and then the handler of the accept runs. -/
theorem started_after_stop :
    ∃ s t u, Run (step Link.oneCallback) (fun _ _ => True) (started zeros [])
        [.acceptDone 0 .success] s ∧
      step Link.oneCallback s .serverStop = some t ∧
      Run (step Link.oneCallback) (fun _ _ => True) t [.acceptRun 0 .success zeros []] u ∧
      ¬ (u.mHttpConnectionPtrs = ∅ ∧ ∀ i, u.Started i → t.Started i) := by
  have hrun : ∃ s, Run (step Link.oneCallback) (fun _ _ => True) (started zeros [])
      [.acceptDone 0 .success] s ∧
      s.thrown = none ∧
        (exec (step Link.oneCallback) (fun _ _ => True) s.stop
          [.acceptRun 0 .success zeros []]).any (fun u => u.mHttpConnectionPtrs ≠ ∅) = true :=
    exists_run_of_exec (by decide +kernel)
  obtain ⟨s, h, hthrown, hnext⟩ := hrun
  obtain ⟨u, h', hne⟩ := exists_run_of_exec hnext
  exact ⟨s, s.stop, u, h, step_serverStop hthrown, h', fun hboth => hne hboth.1⟩

end HttpServer

end BtcServer.HttpmessageServer
