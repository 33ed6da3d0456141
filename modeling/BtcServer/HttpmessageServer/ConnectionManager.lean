import BtcServer.HttpmessageServer.HttpServer
import BtcServer.Lib.Monitor
import Mathlib.Data.Finset.Sort

/-!
# The connection manager with its mutex

Any number of callers are in `start`, `stop` and `stopAll` of one `http_connection_manager` at the
same time.  Each of them calls `m_mutex_.lock()` and, at its end, `m_mutex_.unlock()`; no guard
stands in between, and `http_connction::start` throws when `set_option` fails.  The connections are
not protected by the mutex: their own handlers change them at any time.
-/

namespace BtcServer.HttpmessageServer

open Boost Lib

/-- What the manager's functions work on: its set and the connections behind the pointers. -/
structure HttpConnectionManager where
  mHttpConnectionPtrs : Finset Nat
  conns : Nat → HttpConnction

/-- The manager of the server, whose handlers find the mutex free. -/
def HttpServer.manager (s : HttpServer) : HttpConnectionManager := ⟨s.mHttpConnectionPtrs, s.conns⟩

inductive ManagerCall
  | start (i : Nat)
  | stop (i : Nat)
  | stopAll
  deriving DecidableEq, Repr

/-- The statements between `lock` and `unlock`. -/
inductive ManagerStatement
  | insert (i : Nat)
  | connStart (i : Nat)
  | connStop (i : Nat)
  | erase (i : Nat)
  | clear
  deriving DecidableEq, Repr

namespace HttpConnectionManager

def setConn (m : HttpConnectionManager) (i : Nat) (conn : HttpConnction) : HttpConnectionManager :=
  { m with conns := Function.update m.conns i conn }

/-- The loop of `stopAll` goes through the set in its order. -/
def body : ManagerCall → HttpConnectionManager → List ManagerStatement
  | .start i, _ => [.insert i, .connStart i]
  | .stop i, _ => [.connStop i, .erase i]
  | .stopAll, m => (m.mHttpConnectionPtrs.sort (· ≤ ·)).map .connStop ++ [.clear]

/-- `http_connction::start` of connection `i`; when it throws, it has already emptied the receive
buffer. -/
def connStart (m : HttpConnectionManager) (i : Nat) (ec : ErrorCode) :
    HttpConnectionManager × Option String :=
  match (m.conns i).start ec with
  | .ok conn => (m.setConn i conn, none)
  | .error what => (m.setConn i { m.conns i with mRecvBuffer := [] }, some what)

/-- `ec` is what `set_option` reports to `http_connction::start`. -/
def exec (statement : ManagerStatement) (ec : ErrorCode) (m : HttpConnectionManager) :
    HttpConnectionManager × Option String :=
  match statement with
  | .insert i => ({ m with mHttpConnectionPtrs := insert i m.mHttpConnectionPtrs }, none)
  | .connStart i => m.connStart i ec
  | .connStop i => (m.setConn i (m.conns i).stop, none)
  | .erase i => ({ m with mHttpConnectionPtrs := m.mHttpConnectionPtrs.erase i }, none)
  | .clear => ({ m with mHttpConnectionPtrs := ∅ }, none)

def setAfter (statement : ManagerStatement) (ptrs : Finset Nat) : Finset Nat :=
  match statement with
  | .insert i => insert i ptrs
  | .connStart _ => ptrs
  | .connStop _ => ptrs
  | .erase i => ptrs.erase i
  | .clear => ∅

/-- The manager as an object under its mutex; without it, handlers change a connection. -/
def monitor : Monitor ManagerCall ManagerStatement ErrorCode (Nat × HttpConnction) String
    HttpConnectionManager where
  body := body
  exec := exec
  outside w m := m.setConn w.1 w.2

abbrev State := Monitor.State ManagerCall ManagerStatement String HttpConnectionManager

abbrev Action := Monitor.Action ManagerCall ErrorCode (Nat × HttpConnction)

def step : State → Action → Option State := monitor.step

variable {m found : HttpConnectionManager} {s t u : State} {i j c : Nat} {ec : ErrorCode}
  {as bs : List Action} {statement : ManagerStatement}

theorem connStart_of_ok {conn : HttpConnction} (h : (m.conns c).start ec = .ok conn) :
    m.connStart c ec = (m.setConn c conn, none) := by
  unfold connStart
  rw [h]

theorem connStart_of_error {what : String} (h : (m.conns c).start ec = .error what) :
    m.connStart c ec = (m.setConn c { m.conns c with mRecvBuffer := [] }, some what) := by
  unfold connStart
  rw [h]

theorem connStart_throws_iff (m : HttpConnectionManager) (c : Nat) (ec : ErrorCode) :
    (m.connStart c ec).2 = if ec.failed then some "error:set Options" else none := by
  unfold connStart HttpConnction.start
  by_cases h : ec.failed = true
  · rw [if_pos h, if_pos h]
  · rw [if_neg h, if_neg h]

theorem ptrs_connStart (m : HttpConnectionManager) (c : Nat) (ec : ErrorCode) :
    (m.connStart c ec).1.mHttpConnectionPtrs = m.mHttpConnectionPtrs := by
  unfold connStart
  cases (m.conns c).start ec <;> rfl

theorem ptrs_exec (statement : ManagerStatement) (ec : ErrorCode) (m : HttpConnectionManager) :
    (exec statement ec m).1.mHttpConnectionPtrs = setAfter statement m.mHttpConnectionPtrs := by
  cases statement with
  | connStart i => exact ptrs_connStart m i ec
  | _ => rfl

/-! ## A start that throws -/

/-- The mutex is released and the set is the one that the call found. -/
def Restored (found : HttpConnectionManager) (s : State) : Prop :=
  s.owner = none ∧ s.data.mHttpConnectionPtrs = found.mHttpConnectionPtrs

theorem ptrs_of_starting {manager : HttpConnectionManager}
    (hrun : Run step (fun _ _ => True) (.create manager) as s)
    (hin : s.stages i = .inside (.start c) found [.connStart c]) :
    s.data.mHttpConnectionPtrs = insert c found.mHttpConnectionPtrs := by
  have htracked : monitor.Tracked mHttpConnectionPtrs setAfter s :=
    Monitor.Tracked.run (fun _ _ => rfl) ptrs_exec manager hrun
  obtain ⟨done, hbody, hdone⟩ := htracked i _ _ _ hin
  have hinsert : [ManagerStatement.insert c] = done :=
    List.append_cancel_right
      (show [.insert c] ++ [.connStart c] = done ++ [.connStart c] from hbody)
  rw [hdone, ← hinsert]
  rfl

/-- A `start` whose `set_option` fails leaves the mutex locked and its connection in the set: from
then on no call of the manager gets the mutex and none returns. -/
theorem start_throws {manager : HttpConnectionManager}
    (hrun : Run step (fun _ _ => True) (.create manager) as s)
    (hin : s.stages i = .inside (.start c) found [.connStart c]) (hec : ec.failed = true) :
    ∃ t, step s (.exec i ec) = some t ∧
      t.stages i = .threw (.start c) found "error:set Options" ∧ ¬Restored found t ∧
      ∀ bs u, Run step (fun _ _ => True) t bs u → u.owner = some i ∧
        u.data.mHttpConnectionPtrs = insert c found.mHttpConnectionPtrs ∧
        u.returned = s.returned ∧ ∀ j, step u (.lock j) = none := by
  have hthrows : (monitor.exec (.connStart c) ec s.data).2 = some "error:set Options" :=
    (connStart_throws_iff s.data c ec).trans (if_pos hec)
  have hlocked : Monitor.Locked s := (Monitor.Locked.create manager).run hrun
  obtain ⟨t, hstep, hthrew, hdata, hreturned, hwedged⟩ :=
    Monitor.wedged_of_exec hlocked hin hthrows
  have hptrs : t.data.mHttpConnectionPtrs = insert c found.mHttpConnectionPtrs := by
    rw [hdata]
    exact (ptrs_exec (.connStart c) ec s.data).trans (ptrs_of_starting hrun hin)
  refine ⟨t, hstep, hthrew, fun hrestored => ?_, fun bs u hafter => ?_⟩
  · cases hrestored.1.symm.trans hwedged.owner
  · obtain ⟨hwedged', hreturned', hptrs'⟩ : Monitor.Wedged u i ∧ u.returned = t.returned ∧
        u.data.mHttpConnectionPtrs = t.data.mHttpConnectionPtrs :=
      hwedged.run (fun _ _ => rfl) hafter
    exact ⟨hwedged'.owner, hptrs'.trans hptrs, hreturned'.trans hreturned, hwedged'.lock_eq_none⟩

/-- Two connections are accepted; caller 0 has inserted connection 0 and caller 1 waits. -/
theorem start_throws_first :
    ∃ s, Run step (fun _ _ => True) (.create HttpServer.create.manager)
        [.call 0 (.start 0), .call 1 (.start 1), .lock 0, .exec 0 .success] s ∧
      s.stages 0 = .inside (.start 0) HttpServer.create.manager [.connStart 0] ∧
      ∃ t, step s (.exec 0 .other) = some t ∧
        t.stages 0 = .threw (.start 0) HttpServer.create.manager "error:set Options" ∧
        ¬Restored HttpServer.create.manager t ∧
        ∀ bs u, Run step (fun _ _ => True) t bs u → u.owner = some 0 ∧
          u.data.mHttpConnectionPtrs = {0} ∧ u.returned = s.returned ∧
          ∀ j, step u (.lock j) = none := by
  have hrun : Run step (fun _ _ => True) (.create HttpServer.create.manager)
      [.call 0 (.start 0), .call 1 (.start 1), .lock 0, .exec 0 .success] _ :=
    .cons trivial rfl (.cons trivial rfl (.cons trivial rfl (.cons trivial rfl (.nil _))))
  exact ⟨_, hrun, rfl, start_throws hrun rfl rfl⟩

/-- Caller 0 has thrown; the mutex is locked, connection 0 is in the set and caller 1, which starts
connection 1, is blocked. -/
theorem start_not_restored :
    ∃ t, Run step (fun _ _ => True) (.create HttpServer.create.manager)
        [.call 0 (.start 0), .call 1 (.start 1), .lock 0, .exec 0 .success, .exec 0 .other] t ∧
      t.stages 0 = .threw (.start 0) HttpServer.create.manager "error:set Options" ∧
      t.stages 1 = .entered (.start 1) ∧ ¬Restored HttpServer.create.manager t ∧
      0 ∈ t.data.mHttpConnectionPtrs ∧ step t (.lock 1) = none := by
  refine ⟨_, .cons trivial rfl (.cons trivial rfl (.cons trivial rfl (.cons trivial rfl
    (.cons trivial rfl (.nil _))))), rfl, rfl, fun h => ?_, ?_, rfl⟩
  · cases h.1
  · exact Finset.mem_insert_self 0 ∅

def NoFailure (s : State) : Action → Prop
  | .exec i ec => ∀ op found c rest, s.stages i = .inside op found (.connStart c :: rest) →
      ec.failed = false
  | _ => True

theorem quiet_iff_noFailure {a : Action} : monitor.Quiet s a ↔ NoFailure s a := by
  cases a with
  | exec i ec =>
      constructor
      · intro h op found c rest hin
        have hquiet := (connStart_throws_iff s.data c ec).symm.trans (h op found _ rest hin)
        by_contra hec
        rw [if_pos (Bool.not_eq_false _ ▸ hec)] at hquiet
        cases hquiet
      · intro h op found b rest hin
        cases b with
        | connStart c =>
            have hec := h op found c rest hin
            exact (connStart_throws_iff s.data c ec).trans (if_neg (Bool.eq_false_iff.mp hec))
        | _ => rfl
  | _ => exact Iff.rfl

/-- Whoever has the mutex is still in its call, throughout a run, exactly when no `set_option` of
the run fails. -/
theorem throughout_orderly_iff {manager : HttpConnectionManager}
    (hrun : Run step (fun _ _ => True) (.create manager) as t) :
    Throughout step Monitor.Orderly (.create manager) as ↔
      Run step NoFailure (.create manager) as t :=
  (Monitor.throughout_orderly_iff manager hrun).trans
    ⟨fun h => h.mono fun _ _ => quiet_iff_noFailure.mp,
      fun h => h.mono fun _ _ => quiet_iff_noFailure.mpr⟩

/-! ## The calls of the server -/

theorem execAll_stopAll {l : List Nat} (hl : l.Nodup) (m : HttpConnectionManager) :
    monitor.execAll ec (l.map .connStop ++ [.clear]) m =
      (⟨∅, fun i => if i ∈ l then (m.conns i).stop else m.conns i⟩, none) := by
  induction l generalizing m with
  | nil => rfl
  | cons k l ih =>
      obtain ⟨hk, hl⟩ := List.nodup_cons.mp hl
      rw [List.map_cons, List.cons_append, Monitor.execAll_cons_of_quiet rfl, ih hl]
      refine congrArg (fun conns => (HttpConnectionManager.mk ∅ conns, none)) (funext fun i => ?_)
      change (if i ∈ l then (Function.update m.conns k (m.conns k).stop i).stop
        else Function.update m.conns k (m.conns k).stop i) = _
      by_cases hi : i = k
      · subst hi
        rw [if_neg hk, if_pos List.mem_cons_self, Function.update_self]
      · rw [Function.update_of_ne hi]
        exact if_congr (List.mem_cons.trans (or_iff_right hi)).symm rfl rfl

end HttpConnectionManager

namespace HttpServer

open HttpConnectionManager (monitor)

variable {s : HttpServer} {i : Nat} {ec : ErrorCode}

theorem managerStart_eq (hempty : (s.conns i).mRecvBuffer = []) :
    (monitor.execAll ec (monitor.body (.start i) s.manager) s.manager).1 =
        (s.managerStart i ec).manager ∧
      (s.managerStart i ec).thrown =
        (monitor.execAll ec (monitor.body (.start i) s.manager) s.manager).2.or s.thrown := by
  let m : HttpConnectionManager := ⟨insert i s.mHttpConnectionPtrs, s.conns⟩
  have hinsert : monitor.execAll ec (monitor.body (.start i) s.manager) s.manager =
      monitor.execAll ec [.connStart i] m := Monitor.execAll_cons_of_quiet rfl
  rw [hinsert]
  unfold managerStart
  dsimp only
  cases hstart : (s.conns i).start ec with
  | ok conn =>
      have hconn : monitor.exec (.connStart i) ec m = (m.setConn i conn, none) :=
        HttpConnectionManager.connStart_of_ok hstart
      rw [Monitor.execAll_cons_of_quiet (congrArg Prod.snd hconn), hconn]
      exact ⟨rfl, rfl⟩
  | error what =>
      have hconn := HttpConnectionManager.connStart_of_error (m := m) hstart
      rw [Monitor.execAll_cons_of_throws (congrArg Prod.snd hconn)]
      refine ⟨(congrArg Prod.fst hconn).trans ?_, ?_⟩
      · refine congrArg (HttpConnectionManager.mk _) (Function.update_eq_self_iff.mpr ?_)
        rw [← hempty]
      · rw [show (monitor.exec (.connStart i) ec m).2 = some what from congrArg Prod.snd hconn]
        rfl

theorem managerStop_eq :
    monitor.execAll ec (monitor.body (.stop i) s.manager) s.manager =
      ((s.managerStop i).manager, none) := by
  rfl

theorem managerStopAll_eq :
    monitor.execAll ec (monitor.body .stopAll s.manager) s.manager =
      (s.managerStopAll.manager, none) := by
  refine (HttpConnectionManager.execAll_stopAll (Finset.sort_nodup ..) s.manager).trans ?_
  simp only [Finset.mem_sort]
  rfl

/-- The functions of the server that is single-threaded are runs of a caller that is alone. -/
theorem exists_run_of_execAll {op : ManagerCall} {m : HttpConnectionManager}
    (h : monitor.execAll ec (monitor.body op s.manager) s.manager = (m, none)) :
    ∃ as t, Run HttpConnectionManager.step (fun _ _ => True) (.create s.manager) as t ∧
      t.owner = none ∧ t.data = m ∧ t.returned = [op] := by
  have hcall : HttpConnectionManager.step (.create s.manager) (.call 0 op) =
      some (Monitor.State.setStage (.create s.manager) 0 (.entered op)) := rfl
  obtain ⟨as, t, hrun, -, howner, hdata, hreturned⟩ :=
    Monitor.run_alone (m := monitor) (Monitor.State.stages_setStage_self (.create s.manager) 0 _)
      rfl h
  exact ⟨_, t, .cons trivial hcall hrun, howner, hdata, hreturned⟩

theorem exists_run_managerStart (s : HttpServer) {i : Nat} (hempty : (s.conns i).mRecvBuffer = []) :
    ∃ as t, Run HttpConnectionManager.step (fun _ _ => True) (.create s.manager) as t ∧
      t.owner = none ∧ t.data = (s.managerStart i .success).manager ∧ t.returned = [.start i] :=
  exists_run_of_execAll (Prod.ext (managerStart_eq hempty).1 rfl)

theorem exists_run_managerStop (s : HttpServer) (i : Nat) :
    ∃ as t, Run HttpConnectionManager.step (fun _ _ => True) (.create s.manager) as t ∧
      t.owner = none ∧ t.data = (s.managerStop i).manager ∧ t.returned = [.stop i] :=
  exists_run_of_execAll (managerStop_eq : monitor.execAll .success _ _ = _)

theorem exists_run_managerStopAll (s : HttpServer) :
    ∃ as t, Run HttpConnectionManager.step (fun _ _ => True) (.create s.manager) as t ∧
      t.owner = none ∧ t.data = s.managerStopAll.manager ∧ t.returned = [.stopAll] :=
  exists_run_of_execAll (managerStopAll_eq : monitor.execAll .success _ _ = _)

end HttpServer

end BtcServer.HttpmessageServer
