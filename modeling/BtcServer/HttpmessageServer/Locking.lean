import BtcServer.Lib.LockOrder

/-!
# The mutexes of the process

What every handler, and whatever callbacks and other threads call, does to the three mutexes of the
process: the table of callbacks is only ever locked in shared mode, a connection that goes with the
manager's set is logged under the manager's mutex, and nothing is called while something is logged.
That is an order.  So however many threads run the `io_service`, they all come to their end unless
an exception has left `http_connection_manager::start`, which keeps the manager's mutex; then nobody
waits for anything else (`stuck_only_after_throw`).
-/

namespace BtcServer.HttpmessageServer

open Lib

inductive Mutex
  /-- `m_callback_funcs_mutex_` -/
  | callbackFuncs
  /-- `m_mutex_` of the connection manager -/
  | manager
  /-- `lock_single<boost::mutex>()` -/
  | logger
  deriving DecidableEq, Repr

namespace Mutex

def rank : Mutex → Nat
  | callbackFuncs => 0
  | manager => 1
  | logger => 2

/-- The one mutex that is never locked in exclusive mode. -/
def Readable (m : Mutex) : Prop := m = callbackFuncs

theorem rank_lt_logger {m : Mutex} (h : m ≠ logger) : m.rank < logger.rank := by
  cases m with
  | logger => exact absurd rfl h
  | _ => decide

end Mutex

/-- What a piece of code does to the mutexes, and whether an exception leaves it. -/
structure Code where
  steps : List (LockStep Mutex)
  throws : Bool
  deriving DecidableEq, Repr

namespace Code

def skip : Code := ⟨[], false⟩

/-- What follows an exception is not executed. -/
def andThen (p q : Code) : Code := if p.throws then p else ⟨p.steps ++ q.steps, q.throws⟩

def lock (m : Mutex) (access : Access) : Code := ⟨[.acquire m access], false⟩

def unlock (m : Mutex) : Code := ⟨[.release m], false⟩

/-- A scope with a guard object, which unlocks the mutex on every way out. -/
def guarded (m : Mutex) (access : Access) (p : Code) : Code :=
  ⟨.acquire m access :: p.steps ++ [.release m], p.throws⟩

end Code

def loggerWriter : Code := .guarded .logger .exclusive .skip

/-- The destructors of so many connections. -/
def destroyed : Nat → Code
  | 0 => .skip
  | n + 1 => loggerWriter.andThen (destroyed n)

/-- `http_connction::start`, where `set_option` may fail. -/
def connStart (optionFails : Bool) : Code :=
  if optionFails then loggerWriter.andThen ⟨[], true⟩ else .skip

/-- `http_connection_manager::start` -/
def managerStart (optionFails : Bool) : Code :=
  (Code.lock .manager .exclusive).andThen ((connStart optionFails).andThen (.unlock .manager))

/-- `http_connection_manager::stop`; its argument keeps the connection alive. -/
def managerStop : Code := (Code.lock .manager .exclusive).andThen (.unlock .manager)

/-- `http_connection_manager::stopAll`; so many connections go with the set. -/
def managerStopAll (last : Nat) : Code :=
  (Code.lock .manager .exclusive).andThen ((destroyed last).andThen (.unlock .manager))

/-- What handlers and callbacks call. -/
inductive LockingCall
  | log
  /-- The last pointer to a connection goes. -/
  | destroy
  | start (optionFails : Bool)
  | stop
  | stopAll (last : Nat)
  | addHandle
  | writeResponse
  /-- `handle_request` for a URI without a callback -/
  | handleUnknown
  /-- `handle_request`, with what the callback calls -/
  | handleRequest (calls : List LockingCall)

mutual

def LockingCall.code : LockingCall → Code
  | .log => loggerWriter
  | .destroy => destroyed 1
  | .start optionFails => managerStart optionFails
  | .stop => managerStop
  | .stopAll last => managerStopAll last
  | .addHandle => .guarded .callbackFuncs .shared .skip
  | .writeResponse => .skip
  | .handleUnknown => loggerWriter.andThen (.guarded .callbackFuncs .shared .skip)
  | .handleRequest calls =>
      loggerWriter.andThen (.guarded .callbackFuncs .shared (codes calls))

def codes : List LockingCall → Code
  | [] => .skip
  | call :: calls => call.code.andThen (codes calls)

end

/-! ## Handlers -/

/-- `handle_request` in a handler: a connection whose URI has no callback is stopped. -/
def handOn : Option (List LockingCall) → List LockingCall
  | none => [.handleUnknown, .stop]
  | some calls => [.handleRequest calls]

inductive BodyOutcome
  /-- An error, or `m_abort` -/
  | failed
  | handed (callback : Option (List LockingCall))

def handleReadBody : BodyOutcome → List LockingCall
  | .failed => [.log, .stop]
  | .handed callback => handOn callback

inductive HeadersOutcome
  | failed
  /-- The parser or the limits of a body refuse the request. -/
  | refused
  | readsBody
  /-- The body is there already. -/
  | body (outcome : BodyOutcome)
  | handed (callback : Option (List LockingCall))

def handleReadHeaders : HeadersOutcome → List LockingCall
  | .failed => [.log, .stop]
  | .refused => [.stop]
  | .readsBody => []
  | .body outcome => handleReadBody outcome
  | .handed callback => handOn callback

/-- What a thread runs: a handler, or what another thread of the program calls, as `main` and
`http_server::stop` do.  With a handler the last pointer to its connection may go; for an accept that
is where `http_server::start` replaces the pointer. -/
inductive Job
  | accept (failed optionFails last : Bool)
  | readHeaders (outcome : HeadersOutcome) (last : Bool)
  | readBody (outcome : BodyOutcome) (last : Bool)
  | write (stops last : Bool)
  | other (calls : List LockingCall)

def lastCall (last : Bool) : List LockingCall := if last then [.destroy] else []

def Job.calls : Job → List LockingCall
  | .accept failed optionFails last =>
      if failed then [.log] else .start optionFails :: lastCall last
  | .readHeaders outcome last => handleReadHeaders outcome ++ lastCall last
  | .readBody outcome last => handleReadBody outcome ++ lastCall last
  | .write stops last => (if stops then [.stop] else []) ++ lastCall last
  | .other calls => calls

/-- A thread runs its jobs one after the other, up to an exception. -/
def threadCode (jobs : List Job) : Code := codes (jobs.flatMap Job.calls)

/-! ## The order -/

/-- In code that runs with nothing but the table of callbacks locked, the order is kept; what an
exception leaves locked is the manager. -/
def Code.Sound (p : Code) : Prop :=
  ∀ held, (∀ h ∈ held, h.1 = .callbackFuncs) →
    Ordered Mutex.rank Mutex.Readable held p.steps ∧
      leftover held p.steps = if p.throws then (.manager, .exclusive) :: held else held

variable {p q : Code}

theorem Code.sound_skip : Code.skip.Sound := fun _ _ => ⟨trivial, rfl⟩

theorem Code.Sound.andThen (hp : p.Sound) (hq : q.Sound) : (p.andThen q).Sound := by
  intro held hheld
  obtain ⟨hordered, hleft⟩ := hp held hheld
  unfold Code.andThen
  by_cases hthrows : p.throws = true
  · rw [if_pos hthrows]
    exact ⟨hordered, hleft⟩
  · rw [if_neg hthrows] at hleft ⊢
    rw [ordered_append, leftover_append, hleft]
    exact ⟨⟨hordered, (hq held hheld).1⟩, (hq held hheld).2⟩

/-- A callback runs with the table locked once more. -/
theorem Code.Sound.guarded (hp : p.Sound) : (Code.guarded .callbackFuncs .shared p).Sound := by
  intro held hheld
  have hheld' : ∀ h ∈ (Mutex.callbackFuncs, Access.shared) :: held, h.1 = .callbackFuncs :=
    List.forall_mem_cons.mpr ⟨rfl, hheld⟩
  obtain ⟨hordered, hleft⟩ := hp _ hheld'
  constructor
  · change (_ ∨ _) ∧ Ordered _ _ _ (p.steps ++ _)
    rw [ordered_append]
    exact ⟨.inl ⟨rfl, rfl⟩, hordered, trivial⟩
  · change leftover _ (p.steps ++ _) = if p.throws then _ else _
    rw [leftover_append, hleft]
    split <;> simp [leftover, without]

/-- Code that may run with any other mutex locked. -/
def Code.Innermost (p : Code) : Prop :=
  ∀ held, (∀ h ∈ held, h.1 ≠ .logger) →
    Ordered Mutex.rank Mutex.Readable held p.steps ∧ leftover held p.steps = held

theorem innermost_skip : Code.skip.Innermost := fun _ _ => ⟨trivial, rfl⟩

theorem innermost_loggerWriter : loggerWriter.Innermost := by
  intro held hheld
  refine ⟨⟨.inr ⟨fun h => (by cases h), fun h hmem => ?_⟩, trivial⟩, ?_⟩
  · exact Mutex.rank_lt_logger (hheld h hmem)
  · simp [loggerWriter, Code.guarded, Code.skip, leftover, without]

theorem Code.Innermost.andThen (hp : p.Innermost) (hq : q.Innermost) :
    (p.andThen q).Innermost := by
  intro held hheld
  obtain ⟨hordered, hleft⟩ := hp held hheld
  unfold Code.andThen
  split
  · exact ⟨hordered, hleft⟩
  · rw [ordered_append, leftover_append, hleft]
    exact ⟨⟨hordered, (hq held hheld).1⟩, (hq held hheld).2⟩

theorem innermost_destroyed (n : Nat) :
    (destroyed n).Innermost ∧ (destroyed n).throws = false := by
  induction n with
  | zero => exact ⟨innermost_skip, rfl⟩
  | succ n ih => exact ⟨innermost_loggerWriter.andThen ih.1, ih.2⟩

theorem innermost_connStart (optionFails : Bool) : (connStart optionFails).Innermost := by
  unfold connStart
  split
  · exact innermost_loggerWriter.andThen fun _ _ => ⟨trivial, rfl⟩
  · exact innermost_skip

theorem Code.Innermost.sound (hp : p.Innermost) (hthrows : p.throws = false) : p.Sound := by
  intro held hheld
  rw [hthrows]
  apply hp held
  intro h hmem hlogger
  cases (hheld h hmem).symm.trans hlogger

theorem Code.Innermost.sound_locked (hp : p.Innermost) :
    ((Code.lock .manager .exclusive).andThen (p.andThen (.unlock .manager))).Sound := by
  intro held hheld
  have hbelow : ∀ h ∈ held, h.1.rank < Mutex.manager.rank := by
    intro h hmem
    rw [hheld h hmem]
    decide
  have hheld' : ∀ h ∈ (Mutex.manager, Access.exclusive) :: held, h.1 ≠ .logger := by
    refine List.forall_mem_cons.mpr ⟨by decide, fun h hmem => ?_⟩
    rw [hheld h hmem]
    decide
  obtain ⟨hordered, hleft⟩ := hp _ hheld'
  have hfirst : Mutex.manager.Readable ∧ Access.exclusive = .shared ∨
      ¬Mutex.manager.Readable ∧ ∀ h ∈ held, h.1.rank < Mutex.manager.rank :=
    .inr ⟨fun h => (by cases h), hbelow⟩
  unfold Code.andThen Code.lock Code.unlock
  by_cases hthrows : p.throws = true
  · simp only [hthrows, if_true, Bool.false_eq_true, if_false]
    exact ⟨⟨hfirst, hordered⟩, hleft⟩
  · simp only [hthrows, Bool.false_eq_true, if_false]
    refine ⟨⟨hfirst, ?_⟩, ?_⟩
    · change Ordered _ _ _ (p.steps ++ _)
      rw [ordered_append]
      exact ⟨hordered, trivial⟩
    · change leftover _ (p.steps ++ _) = held
      rw [leftover_append, hleft]
      simp [leftover, without]

mutual

theorem LockingCall.sound_code : (call : LockingCall) → call.code.Sound
  | .log => innermost_loggerWriter.sound rfl
  | .destroy => (innermost_destroyed 1).1.sound (innermost_destroyed 1).2
  | .start optionFails => (innermost_connStart optionFails).sound_locked
  | .stop => innermost_skip.sound_locked
  | .stopAll last => (innermost_destroyed last).1.sound_locked
  | .addHandle => Code.sound_skip.guarded
  | .writeResponse => Code.sound_skip
  | .handleUnknown => (innermost_loggerWriter.sound rfl).andThen Code.sound_skip.guarded
  | .handleRequest calls => (innermost_loggerWriter.sound rfl).andThen (sound_codes calls).guarded

theorem sound_codes : (calls : List LockingCall) → (codes calls).Sound
  | [] => Code.sound_skip
  | call :: calls => (LockingCall.sound_code call).andThen (sound_codes calls)

end

/-! ## Any number of threads -/

section

variable {ι : Type*} [Fintype ι] [DecidableEq ι] {jobs : ι → List Job}
  {ok : Threads ι Mutex → ι → Prop} {t : Threads ι Mutex} {is : List ι}

def threads (jobs : ι → List Job) : Threads ι Mutex := .start fun i => (threadCode (jobs i)).steps

theorem leftover_threadCode (jobs : List Job) : leftover [] (threadCode jobs).steps =
    if (threadCode jobs).throws then [(.manager, .exclusive)] else [] :=
  (sound_codes _ [] fun _ hmem => absurd hmem List.not_mem_nil).2

omit [Fintype ι] [DecidableEq ι] in
theorem disciplined_threads (jobs : ι → List Job) :
    (threads jobs).Disciplined Mutex.rank Mutex.Readable :=
  .start fun _ => (sound_codes _ [] fun _ hmem => absurd hmem List.not_mem_nil).1

theorem held_of_finished (h : Run Threads.step ok (threads jobs) is t) {i : ι}
    (hi : t.Finished i) :
    t.held i = if (threadCode (jobs i)).throws then [(.manager, .exclusive)] else [] := by
  have hinv := h.invariant
    (I := fun s => leftover (s.held i) (s.rest i) = leftover [] (threadCode (jobs i)).steps)
    (fun s a u _ hstep hs => (Threads.leftover_of_step hstep i).trans hs) rfl
  rw [leftover_threadCode, hi] at hinv
  exact hinv

/-- However threads interleave, the process comes to rest.  Then every thread has come to its end
with nothing locked, or an exception has left `http_connection_manager::start`: the thread on which
it was thrown keeps the mutex of the manager, and whoever has not come to its end waits for that. -/
theorem stuck_only_after_throw (h : Run Threads.step (fun _ _ => True) (threads jobs) is t) :
    is.length ≤ ∑ i, (threadCode (jobs i)).steps.length ∧
      (∃ more u, Run Threads.step (fun _ _ => True) t more u ∧
        AtRest Threads.step (fun _ _ => True) u) ∧
      (AtRest Threads.step (fun _ _ => True) t →
        (∀ i, t.Finished i ∧ t.held i = []) ∨
          (∃ j, t.Finished j ∧ (threadCode (jobs j)).throws = true ∧
            t.held j = [(.manager, .exclusive)]) ∧
          ∀ i, t.Finished i ∨ t.Wants i .manager) := by
  have hless (s : Threads ι Mutex) (i : ι) (u : Threads ι Mutex) (_ : True)
      (hstep : s.step i = some u) (_ : True) : u.remaining < s.remaining :=
    Threads.remaining_lt hstep
  refine ⟨?_, Run.exists_rest (I := fun _ => True) (fun _ _ _ _ _ _ => trivial) hless trivial,
    fun hrest => ?_⟩
  · have hle := h.length_le (I := fun _ => True) (fun _ _ _ _ _ _ => trivial) hless trivial
    exact Nat.le_of_add_right_le hle
  · have hdisciplined := h.invariant (fun _ _ _ _ hstep hs => hs.step hstep)
      (disciplined_threads jobs)
    have hbound (m : Mutex) : m.rank ≤ 2 := by cases m <;> decide
    have hwaits (i : ι) (hi : ¬t.Finished i) : t.Wants i .manager ∧
        ∃ j, t.Finished j ∧ (threadCode (jobs j)).throws = true := by
      obtain ⟨m, hwants, hnot, j, hj, x, hx, hrank⟩ :=
        hdisciplined.waits hbound (fun i => hrest i trivial) hi
      rw [held_of_finished h hj] at hx
      by_cases hthrows : (threadCode (jobs j)).throws = true
      · rw [if_pos hthrows] at hx
        obtain rfl := List.mem_singleton.mp hx
        refine ⟨?_, j, hj, hthrows⟩
        cases m with
        | callbackFuncs => exact absurd rfl hnot
        | manager => exact hwants
        | logger => exact absurd hrank (by decide)
      · rw [if_neg hthrows] at hx
        cases hx
    by_cases hthrown : ∃ j, t.Finished j ∧ (threadCode (jobs j)).throws = true
    · right
      obtain ⟨j, hj, hthrows⟩ := hthrown
      refine ⟨⟨j, hj, hthrows, ?_⟩, fun i => or_iff_not_imp_left.mpr fun hi => (hwaits i hi).1⟩
      rw [held_of_finished h hj, if_pos hthrows]
    · left
      intro i
      have hi : t.Finished i := by
        by_contra hi
        exact hthrown (hwaits i hi).2
      refine ⟨hi, ?_⟩
      rw [held_of_finished h hi, if_neg fun hthrows => hthrown ⟨i, hi, hthrows⟩]

end

/-- One thread accepts a connection whose options cannot be set; another one's write has failed. -/
def failedStart (i : Fin 2) : List Job :=
  if i = 0 then [.accept false true false] else [.write true false]

theorem stuck_of_failedStart :
    ∃ t, Run Threads.step (fun _ _ => True) (threads failedStart) [0, 0, 0] t ∧
      t.Wants 1 .manager := by
  have hrun : ∃ t, Run Threads.step (fun _ _ => True) (threads failedStart) [0, 0, 0] t ∧
      (∀ i, (t.step i).isNone = true) ∧ t.rest 1 ≠ [] :=
    exists_run_of_exec (by decide)
  obtain ⟨t, h, hnone, hunfinished⟩ := hrun
  obtain ⟨-, -, hrest⟩ := stuck_only_after_throw h
  rcases hrest fun i _ => Option.isNone_iff_eq_none.mp (hnone i) with hall | ⟨-, hwants⟩
  · exact absurd (hall 1).1 hunfinished
  · exact ⟨t, h, (hwants 1).resolve_left hunfinished⟩

end BtcServer.HttpmessageServer
