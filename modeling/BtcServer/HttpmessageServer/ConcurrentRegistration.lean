import BtcServer.Boost.SharedMutex
import BtcServer.HttpmessageServer.Registration
import BtcServer.Lib.Run

/-!
# Concurrent registration

Any number of callers are in `http_server::add_handle` and `handle_request` at the same time.  Both
take `m_callback_funcs_mutex_` in shared mode, so nothing keeps a second call of `add_handle` out
while the first is between its lookup and its store.  Registration is atomic in the runs in which
calls do not overlap where an exclusive lock would keep them apart.
-/

namespace BtcServer.HttpmessageServer

open Boost Lib CallbackTable

/-- A call of a member function that uses the table of callbacks. -/
inductive TableCall
  | addHandle (uri : Bytes) (cb : Callback)
  | handleRequest (request : Request)
  deriving DecidableEq, Repr

namespace TableCall

/-- The lock each function declares. -/
def lockMode : TableCall → LockMode
  | addHandle _ _ => .shared
  | handleRequest _ => .shared

def uri : TableCall → Bytes
  | addHandle uri _ => uri
  | handleRequest request => request.uri

end TableCall

inductive CallStage
  | idle
  | entered (call : TableCall)
  | holding (call : TableCall)
  | looked (call : TableCall) (found : Option Callback)
  /-- The return statement is executed and the destructor of the lock is not. -/
  | leaving
  deriving DecidableEq, Repr

def CallStage.hasLock : CallStage → Bool
  | idle => false
  | entered _ => false
  | holding _ => true
  | looked _ _ => true
  | leaving => true

/-- The table, its mutex and the callers. -/
structure SharedTable where
  mCallbackFuncsMutex : SharedMutex Nat
  mCallbackFuncs : CallbackTable
  stages : Nat → CallStage
  /-- The callbacks invoked and the requests they got. -/
  invoked : List (Callback × Request)
  /-- The calls that have executed their return statement, with its value. -/
  returned : List (TableCall × Bool)

namespace SharedTable

inductive Action
  | call (i : Nat) (call : TableCall)
  | acquire (i : Nat)
  | find (i : Nat)
  | proceed (i : Nat)
  | release (i : Nat)
  deriving DecidableEq, Repr

def create (funcs : CallbackTable) : SharedTable where
  mCallbackFuncsMutex := .free
  mCallbackFuncs := funcs
  stages _ := .idle
  invoked := []
  returned := []

def setStage (s : SharedTable) (i : Nat) (stage : CallStage) : SharedTable :=
  { s with stages := Function.update s.stages i stage }

def returns (s : SharedTable) (i : Nat) (call : TableCall) (value : Bool) : SharedTable :=
  { s.setStage i .leaving with returned := s.returned ++ [(call, value)] }

/-- What a call does with the result of its lookup. -/
def useFound (s : SharedTable) (i : Nat) (call : TableCall) (found : Option Callback) :
    SharedTable :=
  match call, found with
  | .addHandle _ _, some _ => s.returns i call false
  | .addHandle uri cb, none =>
      { s.returns i call true with mCallbackFuncs := s.mCallbackFuncs.assign uri cb }
  | .handleRequest _, none => s.returns i call false
  | .handleRequest request, some cb =>
      { s.returns i call true with invoked := s.invoked ++ [(cb, request)] }

/-- One step of a caller, when the calls take the lock in the modes of `mode`. -/
def stepIn (mode : TableCall → LockMode) (s : SharedTable) : Action → Option SharedTable
  | .call i call =>
      match s.stages i with
      | .idle => some (s.setStage i (.entered call))
      | _ => none
  | .acquire i =>
      match s.stages i with
      | .entered call => (s.mCallbackFuncsMutex.acquire (mode call) i).map fun m =>
          { s.setStage i (.holding call) with mCallbackFuncsMutex := m }
      | _ => none
  | .find i =>
      match s.stages i with
      | .holding call => some (s.setStage i (.looked call (s.mCallbackFuncs.lookup call.uri)))
      | _ => none
  | .proceed i =>
      match s.stages i with
      | .looked call found => some (s.useFound i call found)
      | _ => none
  | .release i =>
      match s.stages i with
      | .leaving => some { s.setStage i .idle with
          mCallbackFuncsMutex := s.mCallbackFuncsMutex.release i }
      | _ => none

/-- The calls as they are. -/
def step : SharedTable → Action → Option SharedTable := stepIn TableCall.lockMode

/-- The caller has found its URI unregistered and has not stored its callback yet. -/
def Storing (s : SharedTable) (i : Nat) (uri : Bytes) (cb : Callback) : Prop :=
  s.stages i = .looked (.addHandle uri cb) none

def registers (uri : Bytes) : TableCall × Bool → Bool
  | (.addHandle v _, value) => v = uri && value
  | (.handleRequest _, _) => false

def registrations (s : SharedTable) (uri : Bytes) : List (TableCall × Bool) :=
  s.returned.filter (registers uri)

/-- Registration is atomic: a caller about to store is alone with the lock, at most one call has
returned true for each URI, and the table holds its callback. -/
structure Atomic (s : SharedTable) : Prop where
  alone : ∀ i uri cb, s.Storing i uri cb → ∀ j, j ≠ i → ¬s.mCallbackFuncsMutex.Holds j
  once : ∀ uri, (s.registrations uri).length ≤ 1
  kept : ∀ uri cb, (.addHandle uri cb, true) ∈ s.returned → s.mCallbackFuncs.lookup uri = some cb

/-- A call of `add_handle` holds the lock, and its URI is not in the table. -/
def Adding (s : SharedTable) (i : Nat) (uri : Bytes) (cb : Callback) : Prop :=
  (s.stages i = .holding (.addHandle uri cb) ∨ s.Storing i uri cb) ∧
    s.mCallbackFuncs.lookup uri = none

/-- Nobody acquires the lock while a call of `add_handle` for a new URI holds it, and such a call
acquires it only while nobody holds it. -/
def Apart (s : SharedTable) : Action → Prop
  | .acquire i =>
      (∀ j uri cb, j ≠ i → ¬s.Adding j uri cb) ∧
        ∀ uri cb, s.stages i = .entered (.addHandle uri cb) →
          s.mCallbackFuncs.lookup uri = none → ∀ j, ¬s.mCallbackFuncsMutex.Holds j
  | _ => True

variable {s t : SharedTable} {mode : TableCall → LockMode} {i j : Nat} {call : TableCall}
  {uri : Bytes} {cb : Callback} {stage : CallStage} {found : Option Callback} {value : Bool}
  {funcs : CallbackTable} {a : Action} {as : List Action}

/-! ## What a step does -/

theorem call_cases (h : stepIn mode s (.call i call) = some t) :
    s.stages i = .idle ∧ t = s.setStage i (.entered call) := by
  unfold stepIn at h
  cases hstage : s.stages i <;> simp only [hstage, Option.some.injEq, reduceCtorEq] at h
  exact ⟨rfl, h.symm⟩

theorem acquire_cases (h : stepIn mode s (.acquire i) = some t) :
    ∃ call m, s.stages i = .entered call ∧ s.mCallbackFuncsMutex.acquire (mode call) i = some m ∧
      t = { s.setStage i (.holding call) with mCallbackFuncsMutex := m } := by
  unfold stepIn at h
  cases hstage : s.stages i <;>
    simp only [hstage, Option.map_eq_some_iff, reduceCtorEq] at h
  obtain ⟨m, hm, rfl⟩ := h
  exact ⟨_, m, rfl, hm, rfl⟩

theorem find_cases (h : stepIn mode s (.find i) = some t) :
    ∃ call, s.stages i = .holding call ∧
      t = s.setStage i (.looked call (s.mCallbackFuncs.lookup call.uri)) := by
  unfold stepIn at h
  cases hstage : s.stages i <;> simp only [hstage, Option.some.injEq, reduceCtorEq] at h
  exact ⟨_, rfl, h.symm⟩

theorem proceed_cases (h : stepIn mode s (.proceed i) = some t) :
    ∃ call found, s.stages i = .looked call found ∧ t = s.useFound i call found := by
  unfold stepIn at h
  cases hstage : s.stages i <;> simp only [hstage, Option.some.injEq, reduceCtorEq] at h
  exact ⟨_, _, rfl, h.symm⟩

theorem release_cases (h : stepIn mode s (.release i) = some t) :
    s.stages i = .leaving ∧
      t = { s.setStage i .idle with mCallbackFuncsMutex := s.mCallbackFuncsMutex.release i } := by
  unfold stepIn at h
  cases hstage : s.stages i <;> simp only [hstage, Option.some.injEq, reduceCtorEq] at h
  exact ⟨rfl, h.symm⟩

@[simp] theorem stages_setStage_self (s : SharedTable) (i : Nat) (stage : CallStage) :
    (s.setStage i stage).stages i = stage :=
  Function.update_self ..

@[simp] theorem stages_setStage_of_ne (s : SharedTable) (stage : CallStage) (h : j ≠ i) :
    (s.setStage i stage).stages j = s.stages j :=
  Function.update_of_ne h ..

theorem stages_useFound (s : SharedTable) (i : Nat) (call : TableCall) (found : Option Callback) :
    (s.useFound i call found).stages = (s.setStage i .leaving).stages := by
  cases call <;> cases found <;> rfl

theorem mutex_useFound (s : SharedTable) (i : Nat) (call : TableCall) (found : Option Callback) :
    (s.useFound i call found).mCallbackFuncsMutex = s.mCallbackFuncsMutex := by
  cases call <;> cases found <;> rfl

theorem useFound_of_not_storing (i : Nat)
    (h : ∀ uri cb, (call, found) ≠ (.addHandle uri cb, none)) :
    (s.useFound i call found).mCallbackFuncs = s.mCallbackFuncs ∧
      (∃ value, (s.useFound i call found).returned = s.returned ++ [(call, value)] ∧
        ∀ uri, registers uri (call, value) = false) := by
  cases call with
  | handleRequest request => cases found <;> exact ⟨rfl, _, rfl, fun _ => rfl⟩
  | addHandle uri cb =>
      cases found with
      | none => exact absurd rfl (h uri cb)
      | some cb' => exact ⟨rfl, false, rfl, fun v => Bool.and_false _⟩

/-! ## The invariant -/

/-- The holders of the lock are the callers that are past acquiring it and not past releasing it,
who adds a URI is alone among them, and the URI of a caller about to store is still unregistered. -/
structure Registering (s : SharedTable) : Prop where
  linked : ∀ i, s.mCallbackFuncsMutex.Holds i ↔ (s.stages i).hasLock = true
  apart : ∀ i uri cb, s.Adding i uri cb → ∀ j, j ≠ i → ¬s.mCallbackFuncsMutex.Holds j
  fresh : ∀ i uri cb, s.Storing i uri cb → s.mCallbackFuncs.lookup uri = none
  once : ∀ uri, (s.registrations uri).length ≤ 1
  kept : ∀ uri cb, (.addHandle uri cb, true) ∈ s.returned → s.mCallbackFuncs.lookup uri = some cb

theorem Registering.atomic (h : s.Registering) : s.Atomic where
  alone i uri cb hstoring := h.apart i uri cb ⟨.inr hstoring, h.fresh i uri cb hstoring⟩
  once := h.once
  kept := h.kept

theorem Registering.create (funcs : CallbackTable) : Registering (.create funcs) where
  linked i := iff_of_false (SharedMutex.not_holds_free i) Bool.false_ne_true
  apart _ _ _ h := by rcases h.1 with h | h <;> cases h
  fresh _ _ _ h := by cases h
  once _ := Nat.zero_le 1
  kept _ _ h := by cases h

theorem Registering.not_adding (h : s.Registering) (hlock : (s.stages i).hasLock = true)
    (hne : j ≠ i) : ¬s.Adding j uri cb :=
  fun hadding => h.apart j uri cb hadding i hne.symm ((h.linked i).mpr hlock)

theorem mem_registrations {r : TableCall × Bool} :
    r ∈ s.registrations uri ↔ r ∈ s.returned ∧ ∃ cb, r = (.addHandle uri cb, true) := by
  refine List.mem_filter.trans (and_congr_right fun _ => ?_)
  obtain ⟨call, value⟩ := r
  cases call with
  | handleRequest request => simp [registers]
  | addHandle v cb => simp [registers]

theorem Registering.registrations_eq_nil (h : s.Registering)
    (hnone : s.mCallbackFuncs.lookup uri = none) : s.registrations uri = [] := by
  refine List.eq_nil_iff_forall_not_mem.mpr fun r hr => ?_
  obtain ⟨hmem, cb, rfl⟩ := mem_registrations.mp hr
  rw [h.kept uri cb hmem] at hnone
  cases hnone

/-! ## One step -/

theorem linked_setStage (h : ∀ k, s.mCallbackFuncsMutex.Holds k ↔ (s.stages k).hasLock = true)
    (hlock : stage.hasLock = (s.stages i).hasLock) (k : Nat) :
    s.mCallbackFuncsMutex.Holds k ↔ ((s.setStage i stage).stages k).hasLock = true := by
  by_cases hk : k = i
  · subst hk
    rw [stages_setStage_self, hlock]
    exact h k
  · rw [stages_setStage_of_ne s stage hk]
    exact h k

theorem Registering.move (h : s.Registering) (hstages : t.stages = (s.setStage i stage).stages)
    (hlinked : ∀ k, t.mCallbackFuncsMutex.Holds k ↔ (t.stages k).hasLock = true)
    (htable : t.mCallbackFuncs = s.mCallbackFuncs)
    (hregistrations : ∀ uri, t.registrations uri = s.registrations uri)
    (hself : ∀ uri cb,
      stage = .holding (.addHandle uri cb) ∨ stage = .looked (.addHandle uri cb) none →
        s.mCallbackFuncs.lookup uri = none → ∀ k, k ≠ i → ¬s.mCallbackFuncsMutex.Holds k)
    (hfound : ∀ uri cb, stage = .looked (.addHandle uri cb) none →
      s.mCallbackFuncs.lookup uri = none)
    (hothers : stage.hasLock = true → ∀ k uri cb, k ≠ i → ¬s.Adding k uri cb) :
    t.Registering where
  linked := hlinked
  apart j v d hadding k hne hk := by
    obtain ⟨hstage, hnone⟩ := hadding
    unfold Storing at hstage
    rw [hstages] at hstage
    rw [htable] at hnone
    rw [hlinked, hstages] at hk
    by_cases hj : j = i
    · subst hj
      rw [stages_setStage_self] at hstage
      rw [stages_setStage_of_ne s stage hne, ← h.linked] at hk
      exact hself v d hstage hnone k hne hk
    · rw [stages_setStage_of_ne s stage hj] at hstage
      by_cases hki : k = i
      · subst hki
        rw [stages_setStage_self] at hk
        exact hothers hk j v d hj ⟨hstage, hnone⟩
      · rw [stages_setStage_of_ne s stage hki, ← h.linked] at hk
        exact h.apart j v d ⟨hstage, hnone⟩ k hne hk
  fresh j v d hstoring := by
    rw [htable]
    unfold Storing at hstoring
    rw [hstages] at hstoring
    by_cases hj : j = i
    · subst hj
      rw [stages_setStage_self] at hstoring
      exact hfound v d hstoring
    · rw [stages_setStage_of_ne s stage hj] at hstoring
      exact h.fresh j v d hstoring
  once v := by
    rw [hregistrations]
    exact h.once v
  kept v d hmem := by
    have hold := mem_registrations.mpr ⟨hmem, d, rfl⟩
    rw [hregistrations] at hold
    rw [htable]
    exact h.kept v d (mem_registrations.mp hold).1

theorem lookup_eq_none_of_assign {table : CallbackTable} {v : Bytes}
    (h : (table.assign uri cb).lookup v = none) : table.lookup v = none := by
  rw [lookup_assign] at h
  split_ifs at h
  exact h

theorem Registering.store (h : s.Registering) (hstoring : s.Storing i uri cb)
    (hlinked : ∀ k, s.mCallbackFuncsMutex.Holds k ↔
      ((s.setStage i .leaving).stages k).hasLock = true) :
    (s.useFound i (.addHandle uri cb) none).Registering := by
  have hlock : (s.stages i).hasLock = true := by rw [hstoring]; rfl
  have hnone := h.fresh i uri cb hstoring
  have hgone : ∀ j v d, ¬(s.useFound i (.addHandle uri cb) none).Adding j v d := by
    rintro j v d ⟨hstage, hlookup⟩
    by_cases hji : j = i
    · subst hji
      rcases hstage with hstage | hstage <;>
        cases (stages_setStage_self s j .leaving).symm.trans hstage
    · have hsame := stages_setStage_of_ne s .leaving hji
      exact h.not_adding hlock hji
        ⟨hstage.imp hsame.symm.trans hsame.symm.trans, lookup_eq_none_of_assign hlookup⟩
  refine ⟨hlinked, fun j v d hj => absurd hj (hgone j v d), fun j v d hj => ?_, fun v => ?_,
    fun v d hmem => ?_⟩
  · by_cases hji : j = i
    · subst hji
      cases (stages_setStage_self s j .leaving).symm.trans hj
    · have hold : s.Storing j v d := (stages_setStage_of_ne s .leaving hji).symm.trans hj
      exact absurd ⟨.inr hold, h.fresh j v d hold⟩ (h.not_adding hlock hji)
  · change ((s.returned ++ [(TableCall.addHandle uri cb, true)]).filter (registers v)).length ≤ 1
    rw [List.filter_append, List.length_append]
    by_cases hv : v = uri
    · subst hv
      have hempty : s.returned.filter (registers v) = [] := h.registrations_eq_nil hnone
      rw [hempty, List.length_nil, Nat.zero_add]
      exact List.length_filter_le ..
    · have hother : registers v (TableCall.addHandle uri cb, true) = false := by
        simpa [registers] using Ne.symm hv
      rw [List.filter_singleton, hother]
      exact h.once v
  · change (s.mCallbackFuncs.assign uri cb).lookup v = some d
    rw [lookup_assign]
    rcases List.mem_append.mp hmem with hold | hnew
    · have hd := h.kept v d hold
      have hv : v ≠ uri := by
        rintro rfl
        rw [hnone] at hd
        cases hd
      rw [if_neg hv]
      exact hd
    · obtain ⟨rfl, rfl⟩ : v = uri ∧ d = cb := by simpa using hnew
      exact if_pos rfl

theorem Registering.useFound (h : s.Registering) (hstage : s.stages i = .looked call found) :
    (s.useFound i call found).Registering := by
  have hlock : (s.stages i).hasLock = true := by rw [hstage]; rfl
  have hlinked : ∀ k, s.mCallbackFuncsMutex.Holds k ↔
      ((s.setStage i .leaving).stages k).hasLock = true :=
    linked_setStage h.linked hlock.symm
  by_cases hstore : ∃ uri cb, (call, found) = (.addHandle uri cb, none)
  · obtain ⟨uri, cb, heq⟩ := hstore
    obtain ⟨rfl, rfl⟩ := Prod.mk.inj heq
    exact h.store hstage hlinked
  · obtain ⟨htable, value, hreturned, hregisters⟩ := useFound_of_not_storing (s := s) i
      (fun uri cb heq => hstore ⟨uri, cb, heq⟩)
    refine h.move (stages_useFound s i call found) (fun k => ?_) htable (fun v => ?_)
      (fun _ _ hs => by rcases hs with hs | hs <;> cases hs) (fun _ _ hs => by cases hs)
      (fun _ k v d hk => h.not_adding hlock hk)
    · rw [mutex_useFound, stages_useFound]
      exact hlinked k
    · rw [registrations, hreturned, List.filter_append, List.filter_singleton, hregisters]
      exact List.append_nil _

/-- Such a step keeps the invariant, whatever the modes of the calls are. -/
theorem Registering.step (h : s.Registering) (hok : s.Apart a)
    (hstep : stepIn mode s a = some t) : t.Registering := by
  cases a with
  | call i call =>
      obtain ⟨hstage, rfl⟩ := call_cases hstep
      refine h.move (i := i) rfl (linked_setStage h.linked ?_) rfl (fun _ => rfl)
        (fun _ _ hs => by rcases hs with hs | hs <;> cases hs) (fun _ _ hs => by cases hs)
        (fun hlock => by cases hlock)
      rw [hstage]
      rfl
  | acquire i =>
      obtain ⟨call, m, hstage, hm, rfl⟩ := acquire_cases hstep
      refine h.move (i := i) rfl (fun k => ?_) rfl (fun _ => rfl) (fun v d hs hnone k _ => ?_)
        (fun _ _ hs => by cases hs) (fun _ k v d hk => hok.1 k v d hk)
      · rw [SharedMutex.holds_acquire hm]
        by_cases hk : k = i
        · subst hk
          rw [stages_setStage_self]
          exact iff_of_true (.inl rfl) rfl
        · rw [stages_setStage_of_ne s _ hk, ← h.linked]
          exact or_iff_right hk
      · rcases hs with hs | hs
        · injection hs with hcall
          exact hok.2 v d (hcall ▸ hstage) hnone k
        · cases hs
  | find i =>
      obtain ⟨call, hstage, rfl⟩ := find_cases hstep
      have hlock : (s.stages i).hasLock = true := by rw [hstage]; rfl
      refine h.move (i := i) rfl (linked_setStage h.linked hlock.symm) rfl (fun _ => rfl)
        (fun v d hs hnone => ?_) (fun v d hs => ?_) (fun _ k v d hk => h.not_adding hlock hk)
      · rcases hs with hs | hs
        · cases hs
        · injection hs with hcall
          exact h.apart i v d ⟨.inl (hcall ▸ hstage), hnone⟩
      · injection hs with hcall hnone
        rwa [hcall] at hnone
  | proceed i =>
      obtain ⟨call, found, hstage, rfl⟩ := proceed_cases hstep
      exact h.useFound hstage
  | release i =>
      obtain ⟨hstage, rfl⟩ := release_cases hstep
      refine h.move (i := i) rfl (fun k => ?_) rfl (fun _ => rfl)
        (fun _ _ hs => by rcases hs with hs | hs <;> cases hs) (fun _ _ hs => by cases hs)
        (fun hlock => by cases hlock)
      rw [SharedMutex.holds_release]
      by_cases hk : k = i
      · subst hk
        rw [stages_setStage_self]
        exact iff_of_false (fun hheld => hheld.2 rfl) Bool.false_ne_true
      · rw [stages_setStage_of_ne s _ hk, ← h.linked]
        exact and_iff_left hk

/-! ## Runs -/

theorem exists_not_atomic (hstage : s.stages i = .holding (.addHandle uri cb))
    (hnone : s.mCallbackFuncs.lookup uri = none) (hne : j ≠ i)
    (hheld : s.mCallbackFuncsMutex.Holds j) :
    ∃ as t, Run (stepIn mode) (fun _ _ => True) s as t ∧ ¬t.Atomic := by
  have hstep : stepIn mode s (.find i) =
      some (s.setStage i (.looked (.addHandle uri cb) (s.mCallbackFuncs.lookup uri))) := by
    unfold stepIn
    simp only [hstage]
    rfl
  refine ⟨[.find i], _, .cons trivial hstep (.nil _), fun hatomic => ?_⟩
  refine hatomic.alone i uri cb ((stages_setStage_self s i _).trans ?_) j hne hheld
  rw [hnone]

/-- After any other step some way to go on leads to a caller about to store that is not alone. -/
theorem Registering.exists_not_atomic (h : s.Registering) (hnot : ¬s.Apart a)
    (hstep : stepIn mode s a = some t) :
    ∃ as u, Run (stepIn mode) (fun _ _ => True) t as u ∧ ¬u.Atomic := by
  cases a with
  | acquire i =>
      obtain ⟨call, m, hstage, hm, rfl⟩ := acquire_cases hstep
      have hself : m.Holds i := (SharedMutex.holds_acquire hm).mpr (.inl rfl)
      unfold Apart at hnot
      rw [not_and_or] at hnot
      push Not at hnot
      rcases hnot with ⟨j, uri, cb, hne, hadding, hnone⟩ | ⟨uri, cb, hentered, hnone, j, hheld⟩
      · have hsame := stages_setStage_of_ne s (.holding call) hne
        rcases hadding with hholding | hstoring
        · exact SharedTable.exists_not_atomic (hsame.trans hholding) hnone hne.symm hself
        · exact ⟨[], _, .nil _, fun hatomic =>
            hatomic.alone j uri cb (hsame.trans hstoring) i hne.symm hself⟩
      · have hcall : call = .addHandle uri cb := by
          rw [hentered] at hstage
          injection hstage with hcall
          exact hcall.symm
        have hne : j ≠ i := by
          rintro rfl
          have hlock := (h.linked j).mp hheld
          rw [hstage] at hlock
          cases hlock
        subst hcall
        exact SharedTable.exists_not_atomic (stages_setStage_self ..) hnone hne
          ((SharedMutex.holds_acquire hm).mpr (.inr hheld))
  | call i call => exact absurd trivial hnot
  | find i => exact absurd trivial hnot
  | proceed i => exact absurd trivial hnot
  | release i => exact absurd trivial hnot

theorem registering_of_run (h : Run (stepIn mode) Apart (create funcs) as t) : t.Registering :=
  h.invariant (fun _ _ _ hok hstep hs => hs.step hok hstep) (.create funcs)

/-- Registration is atomic throughout a run in which nobody acquires the lock while a call of
`add_handle` adds a URI, nor such a call while somebody holds it.  Where somebody does, that run can
go on to a state in which it is not. -/
theorem registration_atomic_of_apart (h : Run step Apart (create funcs) as t) :
    Throughout step Atomic (create funcs) as ∧
      ∀ a u, step t a = some u → ¬t.Apart a →
        ∃ bs v, Run step (fun _ _ => True) u bs v ∧ ¬v.Atomic :=
  ⟨h.throughout (I := Registering) (fun _ hs => hs.atomic)
      (fun _ _ _ hok hstep hs => hs.step hok hstep) (.create funcs),
    fun _ _ hstep hnot => (registering_of_run h).exists_not_atomic hnot hstep⟩

def requestOf (uri : Bytes) : Request := { Request.uninitialised 1 1 0 false with uri := uri }

/-- Two calls of `add_handle` for one URI, the second of them with a request at the same time. -/
def turns : List Action :=
  [.call 0 (.addHandle [47] 0), .call 1 (.addHandle [47] 1),
    .call 2 (.handleRequest (requestOf [47])), .acquire 0, .find 0, .proceed 0, .release 0,
    .acquire 1, .acquire 2, .find 1, .find 2, .proceed 2, .proceed 1, .release 1, .release 2]

theorem apart_of_registered
    (h : ∀ j uri cb, s.stages j = .entered (.addHandle uri cb) ∨
      s.stages j = .holding (.addHandle uri cb) ∨ s.Storing j uri cb →
        s.mCallbackFuncs.lookup uri ≠ none) : s.Apart a := by
  cases a with
  | acquire i =>
      exact ⟨fun j uri cb _ hadding => h j uri cb (.inr hadding.1) hadding.2,
        fun uri cb hentered hnone => absurd hnone (h i uri cb (.inl hentered))⟩
  | call i call => trivial
  | find i => trivial
  | proceed i => trivial
  | release i => trivial

/-- The second call returns false, although it overlaps with the request. -/
theorem registration_atomic_of_turns :
    ∃ t, Run step Apart (create []) turns t ∧
      t.returned = [(.addHandle [47] 0, true), (.handleRequest (requestOf [47]), true),
        (.addHandle [47] 1, false)] ∧
      t.invoked = [(0, requestOf [47])] ∧ Throughout step Atomic (create []) turns := by
  have hfirst : (((create []).setStage 0 (.entered (.addHandle [47] 0))).setStage 1
      (.entered (.addHandle [47] 1))).setStage 2 (.entered (.handleRequest (requestOf [47])))
        |>.Apart (.acquire 0) := by
    refine ⟨?_, fun _ _ _ _ j => SharedMutex.not_holds_free j⟩
    rintro j uri cb - ⟨hstage, -⟩
    match j, hstage with
    | 0, h => rcases h with h | h <;> cases h
    | 1, h => rcases h with h | h <;> cases h
    | 2, h => rcases h with h | h <;> cases h
    | j + 3, h => rcases h with h | h <;> cases h
  -- from here on the table has the URI of all calls
  have hlater (s : SharedTable) (i : Nat) (htable : s.mCallbackFuncs = [([47], 0)])
      (hzero : s.stages 0 = .idle) (hone : s.stages 1 = .entered (.addHandle [47] 1) ∨
        s.stages 1 = .holding (.addHandle [47] 1))
      (htwo : s.stages 2 = .entered (.handleRequest (requestOf [47])))
      (hidle : ∀ j, s.stages (j + 3) = .idle) : s.Apart (.acquire i) := by
    apply apart_of_registered
    intro j uri cb h
    rw [htable]
    unfold Storing at h
    match j, h with
    | 0, h => simp [hzero] at h
    | 1, h =>
        obtain rfl : uri = [47] := by
          rcases hone with hone | hone <;> simp [hone] at h <;> exact h.1.symm
        exact Option.some_ne_none _
    | 2, h => simp [htwo] at h
    | j + 3, h => simp [hidle] at h
  have hrun : ∃ t, Run step Apart (create []) turns t ∧
      t.returned = [(.addHandle [47] 0, true), (.handleRequest (requestOf [47]), true),
        (.addHandle [47] 1, false)] ∧ t.invoked = [(0, requestOf [47])] := by
    refine ⟨_, .cons trivial rfl (.cons trivial rfl (.cons trivial rfl (.cons hfirst rfl
      (.cons trivial rfl (.cons trivial rfl (.cons trivial rfl
      (.cons (hlater _ 1 rfl rfl (.inl rfl) rfl fun j => rfl) rfl
      (.cons (hlater _ 2 rfl rfl (.inr rfl) rfl fun j => rfl) rfl
      (.cons trivial rfl (.cons trivial rfl (.cons trivial rfl (.cons trivial rfl (.cons trivial rfl
      (.cons trivial rfl (.nil _))))))))))))))), rfl, rfl⟩
  obtain ⟨t, h, hreturned, hinvoked⟩ := hrun
  exact ⟨t, h, hreturned, hinvoked, (registration_atomic_of_apart h).1⟩

/-- Two calls of `add_handle` for one URI: both look it up before either of them stores. -/
def racing : List Action :=
  [.call 0 (.addHandle [47] 0), .call 1 (.addHandle [47] 1), .acquire 0, .find 0, .acquire 1,
    .find 1, .proceed 0, .release 0, .proceed 1, .release 1]

/-- Both calls return true, and the table keeps the callback of the second. -/
theorem registration_not_atomic :
    ∃ t, Run step (fun _ _ => True) (create []) racing t ∧
      ¬Throughout step Atomic (create []) racing ∧
      t.registrations [47] = [(.addHandle [47] 0, true), (.addHandle [47] 1, true)] ∧
      t.mCallbackFuncs.lookup [47] = some 1 := by
  have hrun : ∃ t, Run step (fun _ _ => True) (create []) racing t ∧
      t.registrations [47] = [(.addHandle [47] 0, true), (.addHandle [47] 1, true)] ∧
      t.mCallbackFuncs.lookup [47] = some 1 :=
    exists_run_of_exec (by decide +kernel)
  obtain ⟨t, h, htwo, hlast⟩ := hrun
  refine ⟨t, h, fun hatomic => ?_, htwo, hlast⟩
  have honce := (hatomic racing t (List.prefix_refl racing) h).once [47]
  rw [htwo] at honce
  exact absurd honce (by decide)

/-! ## With an exclusive lock -/

/-- A call of `add_handle` that has not returned holds the lock in exclusive mode. -/
def Reserved (s : SharedTable) : Prop :=
  ∀ i uri cb, s.stages i = .holding (.addHandle uri cb) ∨ s.Storing i uri cb →
    s.mCallbackFuncsMutex.Exclusive

/-- With an exclusive lock no step can be taken that is not apart. -/
theorem Reserved.apart (hmode : ∀ uri cb, mode (.addHandle uri cb) = .exclusive) (hr : s.Reserved)
    (hstep : stepIn mode s a = some t) : s.Apart a := by
  cases a with
  | acquire i =>
      obtain ⟨call, m, hstage, hm, -⟩ := acquire_cases hstep
      refine ⟨fun j uri cb _ hadding => ?_, fun uri cb hentered _ j => ?_⟩
      · rw [(hr j uri cb hadding.1).acquire_eq_none] at hm
        cases hm
      · rw [hstage] at hentered
        injection hentered with hcall
        rw [hcall, hmode] at hm
        rw [(SharedMutex.acquire_exclusive_iff.mp hm).1]
        exact SharedMutex.not_holds_free j
  | call i call => trivial
  | find i => trivial
  | proceed i => trivial
  | release i => trivial

theorem Reserved.move (hr : s.Reserved) (hstages : t.stages = (s.setStage i stage).stages)
    (hself : ∀ uri cb,
      stage = .holding (.addHandle uri cb) ∨ stage = .looked (.addHandle uri cb) none →
        t.mCallbackFuncsMutex.Exclusive)
    (hothers : ∀ j uri cb, j ≠ i → s.stages j = .holding (.addHandle uri cb) ∨ s.Storing j uri cb →
      s.mCallbackFuncsMutex.Exclusive → t.mCallbackFuncsMutex.Exclusive) : t.Reserved := by
  intro j uri cb hj
  unfold Storing at hj
  rw [hstages] at hj
  by_cases hji : j = i
  · subst hji
    rw [stages_setStage_self] at hj
    exact hself uri cb hj
  · rw [stages_setStage_of_ne s stage hji] at hj
    exact hothers j uri cb hji hj (hr j uri cb hj)

theorem Reserved.step (hmode : ∀ uri cb, mode (.addHandle uri cb) = .exclusive) (hr : s.Reserved)
    (h : s.Registering) (hstep : stepIn mode s a = some t) : t.Reserved := by
  cases a with
  | call i call =>
      obtain ⟨-, rfl⟩ := call_cases hstep
      exact hr.move (i := i) rfl (fun _ _ hs => by rcases hs with hs | hs <;> cases hs)
        (fun _ _ _ _ _ hexclusive => hexclusive)
  | acquire i =>
      obtain ⟨call, m, -, hm, rfl⟩ := acquire_cases hstep
      refine hr.move (i := i) rfl (fun uri cb hs => ?_) (fun _ _ _ _ _ hexclusive => ?_)
      · rcases hs with hs | hs
        · injection hs with hcall
          subst hcall
          rw [hmode] at hm
          exact SharedMutex.exclusive_of_acquire hm
        · cases hs
      · rw [hexclusive.acquire_eq_none] at hm
        cases hm
  | find i =>
      obtain ⟨call, hstage, rfl⟩ := find_cases hstep
      refine hr.move (i := i) rfl (fun uri cb hs => ?_) (fun _ _ _ _ _ hexclusive => hexclusive)
      rcases hs with hs | hs
      · cases hs
      · injection hs with hcall
        subst hcall
        exact hr i uri cb (.inl hstage)
  | proceed i =>
      obtain ⟨call, found, -, rfl⟩ := proceed_cases hstep
      refine hr.move (stages_useFound s i call found)
        (fun _ _ hs => by rcases hs with hs | hs <;> cases hs) (fun _ _ _ _ _ hexclusive => ?_)
      rw [mutex_useFound]
      exact hexclusive
  | release i =>
      obtain ⟨hstage, rfl⟩ := release_cases hstep
      refine hr.move (i := i) rfl (fun _ _ hs => by rcases hs with hs | hs <;> cases hs)
        (fun j uri cb hj hadd hexclusive => absurd ?_ hj)
      have hholds : s.mCallbackFuncsMutex.Holds j := by
        rw [h.linked]
        rcases hadd with hholding | hstoring
        · rw [hholding]
          rfl
        · rw [hstoring]
          rfl
      refine hexclusive.eq hholds ?_
      rw [h.linked, hstage]
      rfl

/-- If `add_handle` took the lock in exclusive mode registration would be atomic in every run. -/
theorem throughout_atomic_of_exclusive
    (hmode : ∀ uri cb, mode (.addHandle uri cb) = .exclusive) (funcs : CallbackTable)
    (as : List Action) : Throughout (stepIn mode) Atomic (create funcs) as := by
  intro bs u _ hrun
  have hinv : u.Registering ∧ u.Reserved := by
    refine hrun.invariant (I := fun s => s.Registering ∧ s.Reserved) (fun s a t _ hstep hs => ?_)
      ⟨.create funcs, fun i uri cb hs => by rcases hs with hs | hs <;> cases hs⟩
    obtain ⟨hreg, hres⟩ := hs
    exact ⟨hreg.step (hres.apart hmode hstep) hstep, hres.step hmode hreg hstep⟩
  exact hinv.1.atomic

end SharedTable

end BtcServer.HttpmessageServer
