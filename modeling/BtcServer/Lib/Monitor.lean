import BtcServer.Lib.Run
import Mathlib.Logic.Function.Basic

/-!
# Operations under a mutex that no guard releases

Any number of callers use one object.  An operation locks the object's mutex, executes its
statements and unlocks the mutex after the last of them.  A statement that throws ends the operation
where it is: the mutex is not held by a guard object, so nothing unlocks it on the way out.  An
operation that has thrown leaves the object wedged (`wedged_of_exec`), and a wedged object stays so
(`Wedged.run`).
-/

namespace BtcServer.Lib

/-- An object with data `σ` and operations `κ`.  A statement `β` gets an answer `ν` from the
environment and may throw an `ε`; `ω` is what happens to the data without the mutex. -/
structure Monitor (κ β ν ω ε σ : Type*) where
  /-- The statements between `lock` and `unlock`, for the data that the operation finds. -/
  body : κ → σ → List β
  exec : β → ν → σ → σ × Option ε
  outside : ω → σ → σ

namespace Monitor

/-- How far a caller is in an operation; `found` is the data when it got the mutex. -/
inductive Stage (κ β ε σ : Type*)
  | idle
  | entered (op : κ)
  | inside (op : κ) (found : σ) (rest : List β)
  /-- An exception has left the operation. -/
  | threw (op : κ) (found : σ) (what : ε)

/-- The stage behind a statement, by what the statement threw. -/
def Stage.after {κ β ε σ : Type*} (op : κ) (found : σ) (rest : List β) :
    Option ε → Stage κ β ε σ
  | none => .inside op found rest
  | some what => .threw op found what

structure State (κ β ε σ : Type*) where
  /-- Who has locked the mutex. -/
  owner : Option Nat
  data : σ
  stages : Nat → Stage κ β ε σ
  /-- The operations that have returned. -/
  returned : List κ

inductive Action (κ ν ω : Type*)
  | call (i : Nat) (op : κ)
  | lock (i : Nat)
  | exec (i : Nat) (answer : ν)
  | unlock (i : Nat)
  /-- The exception is handled outside the object. -/
  | caught (i : Nat)
  | outside (w : ω)
  deriving DecidableEq, Repr

variable {κ β ν ω ε σ : Type*}

namespace State

def create (data : σ) : State κ β ε σ where
  owner := none
  data := data
  stages _ := .idle
  returned := []

def setStage (s : State κ β ε σ) (i : Nat) (stage : Stage κ β ε σ) : State κ β ε σ :=
  { s with stages := Function.update s.stages i stage }

def Inside (s : State κ β ε σ) (i : Nat) : Prop :=
  ∃ op found rest, s.stages i = .inside op found rest

@[simp] theorem stages_setStage_self (s : State κ β ε σ) (i : Nat) (stage : Stage κ β ε σ) :
    (s.setStage i stage).stages i = stage :=
  Function.update_self ..

@[simp] theorem stages_setStage_of_ne (s : State κ β ε σ) {i j : Nat} (stage : Stage κ β ε σ)
    (h : j ≠ i) : (s.setStage i stage).stages j = s.stages j :=
  Function.update_of_ne h ..

theorem not_inside_create (data : σ) (i : Nat) : ¬(create data : State κ β ε σ).Inside i := by
  rintro ⟨op, found, rest, hstage⟩
  cases hstage

end State

/-- One step.  `lock` is possible only while nobody has the mutex; a second `lock` by its owner is
undefined for a `std::mutex` and no step either. -/
def step (m : Monitor κ β ν ω ε σ) (s : State κ β ε σ) : Action κ ν ω → Option (State κ β ε σ)
  | .call i op =>
      match s.stages i with
      | .idle => some (s.setStage i (.entered op))
      | _ => none
  | .lock i =>
      match s.stages i, s.owner with
      | .entered op, none =>
          some { s.setStage i (.inside op s.data (m.body op s.data)) with owner := some i }
      | _, _ => none
  | .exec i answer =>
      match s.stages i with
      | .inside op found (b :: rest) =>
          some { s.setStage i (.after op found rest (m.exec b answer s.data).2) with
            data := (m.exec b answer s.data).1 }
      | _ => none
  | .unlock i =>
      match s.stages i with
      | .inside op _ [] =>
          some { s.setStage i .idle with owner := none, returned := s.returned ++ [op] }
      | _ => none
  | .caught i =>
      match s.stages i with
      | .threw _ _ _ => some (s.setStage i .idle)
      | _ => none
  | .outside w => some { s with data := m.outside w s.data }

variable {m : Monitor κ β ν ω ε σ} {s t : State κ β ε σ} {i j : Nat} {op : κ} {found : σ} {b : β}
  {rest : List β} {answer : ν} {what : ε} {w : ω} {a : Action κ ν ω} {as : List (Action κ ν ω)}
  {ok : State κ β ε σ → Action κ ν ω → Prop}

/-! ## What a step does -/

theorem call_cases (h : m.step s (.call i op) = some t) :
    s.stages i = .idle ∧ t = s.setStage i (.entered op) := by
  unfold step at h
  cases hstage : s.stages i <;> simp only [hstage, Option.some.injEq, reduceCtorEq] at h
  exact ⟨rfl, h.symm⟩

theorem lock_cases (h : m.step s (.lock i) = some t) :
    s.owner = none ∧ ∃ op, s.stages i = .entered op ∧
      t = { s.setStage i (.inside op s.data (m.body op s.data)) with owner := some i } := by
  unfold step at h
  cases hstage : s.stages i <;> cases howner : s.owner <;>
    simp only [hstage, howner, Option.some.injEq, reduceCtorEq] at h
  exact ⟨rfl, _, rfl, h.symm⟩

theorem exec_cases (h : m.step s (.exec i answer) = some t) :
    ∃ op found b rest, s.stages i = .inside op found (b :: rest) ∧
      t = { s.setStage i (.after op found rest (m.exec b answer s.data).2) with
        data := (m.exec b answer s.data).1 } := by
  unfold step at h
  cases hstage : s.stages i with
  | inside op found rest =>
      cases rest <;> simp only [hstage, Option.some.injEq, reduceCtorEq] at h
      exact ⟨op, found, _, _, rfl, h.symm⟩
  | idle => simp only [hstage, reduceCtorEq] at h
  | entered op => simp only [hstage, reduceCtorEq] at h
  | threw op found what => simp only [hstage, reduceCtorEq] at h

theorem unlock_cases (h : m.step s (.unlock i) = some t) :
    ∃ op found, s.stages i = .inside op found [] ∧
      t = { s.setStage i .idle with owner := none, returned := s.returned ++ [op] } := by
  unfold step at h
  cases hstage : s.stages i with
  | inside op found rest =>
      cases rest <;> simp only [hstage, Option.some.injEq, reduceCtorEq] at h
      exact ⟨op, found, rfl, h.symm⟩
  | idle => simp only [hstage, reduceCtorEq] at h
  | entered op => simp only [hstage, reduceCtorEq] at h
  | threw op found what => simp only [hstage, reduceCtorEq] at h

theorem caught_cases (h : m.step s (.caught i) = some t) :
    (∃ op found what, s.stages i = .threw op found what) ∧ t = s.setStage i .idle := by
  unfold step at h
  cases hstage : s.stages i <;> simp only [hstage, Option.some.injEq, reduceCtorEq] at h
  exact ⟨⟨_, _, _, rfl⟩, h.symm⟩

theorem outside_cases (h : m.step s (.outside w) = some t) :
    t = { s with data := m.outside w s.data } :=
  (Option.some.inj h).symm

/-! ## Who has the mutex -/

def Locked (s : State κ β ε σ) : Prop := ∀ i, s.Inside i → s.owner = some i

/-- The mutex is free, or whoever has it is still between `lock` and `unlock`. -/
def Orderly (s : State κ β ε σ) : Prop := s.owner = none ∨ ∃ i, s.Inside i

/-- Caller `i` has the mutex, and nobody is between `lock` and `unlock`. -/
structure Wedged (s : State κ β ε σ) (i : Nat) : Prop where
  owner : s.owner = some i
  outside : ∀ j, ¬s.Inside j

theorem inside_of_stages {stage : Stage κ β ε σ} (hstages : t.stages = (s.setStage i stage).stages)
    (hne : j ≠ i) : t.Inside j ↔ s.Inside j := by
  unfold State.Inside
  rw [hstages, State.stages_setStage_of_ne s stage hne]

def Quiet (m : Monitor κ β ν ω ε σ) (s : State κ β ε σ) : Action κ ν ω → Prop
  | .exec i answer => ∀ op found b rest, s.stages i = .inside op found (b :: rest) →
      (m.exec b answer s.data).2 = none
  | _ => True

/-- What a step does to the mutex and to who is inside; `loud` when it throws. -/
inductive Move (loud : Prop) (s t : State κ β ε σ) : Prop
  | stays (howner : t.owner = s.owner) (hreturned : t.returned = s.returned)
      (hinside : ∀ j, t.Inside j ↔ s.Inside j) : Move loud s t
  | locks (i : Nat) (hfree : s.owner = none) (howner : t.owner = some i)
      (hinside : ∀ j, t.Inside j ↔ j = i ∨ s.Inside j) : Move loud s t
  | unlocks (i : Nat) (hin : s.Inside i) (howner : t.owner = none)
      (hinside : ∀ j, t.Inside j ↔ j ≠ i ∧ s.Inside j) : Move loud s t
  | throws (i : Nat) (hloud : loud) (hin : s.Inside i) (howner : t.owner = s.owner)
      (hinside : ∀ j, t.Inside j ↔ j ≠ i ∧ s.Inside j) : Move loud s t

theorem inside_iff_of_same {stage : Stage κ β ε σ}
    (hstages : t.stages = (s.setStage i stage).stages) (hsame : t.Inside i ↔ s.Inside i) (j : Nat) :
    t.Inside j ↔ s.Inside j := by
  by_cases hj : j = i
  · subst hj
    exact hsame
  · exact inside_of_stages hstages hj

theorem inside_iff_of_leaves {stage : Stage κ β ε σ}
    (hstages : t.stages = (s.setStage i stage).stages) (hout : ¬t.Inside i) (j : Nat) :
    t.Inside j ↔ j ≠ i ∧ s.Inside j := by
  by_cases hj : j = i
  · subst hj
    exact iff_of_false hout fun h => h.1 rfl
  · exact (inside_of_stages hstages hj).trans (and_iff_right hj).symm

theorem not_inside_of_stage {stage : Stage κ β ε σ} (hstage : s.stages i = stage)
    (hout : ∀ op found rest, stage ≠ .inside op found rest) : ¬s.Inside i := by
  rintro ⟨op, found, rest, hin⟩
  exact hout op found rest (hstage.symm.trans hin)

theorem move_of_step (h : m.step s a = some t) : Move (¬m.Quiet s a) s t := by
  cases a with
  | call i op =>
      obtain ⟨hidle, rfl⟩ := call_cases h
      refine .stays rfl rfl (inside_iff_of_same rfl (iff_of_false ?_ ?_))
      · exact not_inside_of_stage (State.stages_setStage_self ..) fun _ _ _ h => by cases h
      · exact not_inside_of_stage hidle fun _ _ _ h => by cases h
  | lock i =>
      obtain ⟨hfree, op, hentered, rfl⟩ := lock_cases h
      refine .locks i hfree rfl fun j => ?_
      by_cases hj : j = i
      · subst hj
        exact iff_of_true ⟨_, _, _, State.stages_setStage_self ..⟩ (.inl rfl)
      · exact (inside_of_stages (i := i) rfl hj).trans (or_iff_right hj).symm
  | exec i answer =>
      obtain ⟨op, found, b, rest, hin, rfl⟩ := exec_cases h
      cases hexec : (m.exec b answer s.data).2 with
      | none =>
          refine .stays rfl rfl (inside_iff_of_same rfl (iff_of_true ?_ ⟨_, _, _, hin⟩))
          exact ⟨op, found, rest, State.stages_setStage_self ..⟩
      | some what =>
          refine .throws i (fun hquiet => ?_) ⟨_, _, _, hin⟩ rfl (inside_iff_of_leaves rfl ?_)
          · cases (hquiet op found b rest hin).symm.trans hexec
          · exact not_inside_of_stage (State.stages_setStage_self ..) fun _ _ _ h => by cases h
  | unlock i =>
      obtain ⟨op, found, hin, rfl⟩ := unlock_cases h
      refine .unlocks i ⟨_, _, _, hin⟩ rfl (inside_iff_of_leaves rfl ?_)
      exact not_inside_of_stage (State.stages_setStage_self ..) fun _ _ _ h => by cases h
  | caught i =>
      obtain ⟨⟨op, found, what, hthrew⟩, rfl⟩ := caught_cases h
      refine .stays rfl rfl (inside_iff_of_same rfl (iff_of_false ?_ ?_))
      · exact not_inside_of_stage (State.stages_setStage_self ..) fun _ _ _ h => by cases h
      · exact not_inside_of_stage hthrew fun _ _ _ h => by cases h
  | outside w =>
      obtain rfl := outside_cases h
      exact .stays rfl rfl fun j => Iff.rfl

theorem Locked.eq (h : Locked s) (hi : s.Inside i) (hj : s.Inside j) : i = j :=
  Option.some.inj ((h i hi).symm.trans (h j hj))

theorem Locked.create (data : σ) : Locked (State.create data : State κ β ε σ) :=
  fun i hi => absurd hi (State.not_inside_create data i)

theorem Locked.step (h : Locked s) (hstep : m.step s a = some t) : Locked t := by
  intro j hj
  cases move_of_step hstep with
  | stays howner _ hinside => rw [howner, h j ((hinside j).mp hj)]
  | locks i hfree howner hinside =>
      rcases (hinside j).mp hj with rfl | hin
      · exact howner
      · cases hfree.symm.trans (h j hin)
  | unlocks i hin _ hinside =>
      obtain ⟨hne, hin'⟩ := (hinside j).mp hj
      exact absurd (h.eq hin' hin) hne
  | throws i _ hin _ hinside =>
      obtain ⟨hne, hin'⟩ := (hinside j).mp hj
      exact absurd (h.eq hin' hin) hne

theorem Locked.run (h : Locked s) (hrun : Run m.step ok s as t) : Locked t :=
  hrun.invariant (fun _ _ _ _ hstep hs => hs.step hstep) h

/-! ## After an exception -/

theorem wedged_of_exec (h : Locked s) (hin : s.stages i = .inside op found (b :: rest))
    (hthrows : (m.exec b answer s.data).2 = some what) :
    ∃ t, m.step s (.exec i answer) = some t ∧ t.stages i = .threw op found what ∧
      t.data = (m.exec b answer s.data).1 ∧ t.returned = s.returned ∧ Wedged t i := by
  refine ⟨{ s.setStage i (.threw op found what) with data := (m.exec b answer s.data).1 }, ?_,
    State.stages_setStage_self .., rfl, rfl, h i ⟨_, _, _, hin⟩, fun j hj => ?_⟩
  · unfold step
    simp only [hin, hthrows, Stage.after]
  · by_cases hne : j = i
    · subst hne
      obtain ⟨_, _, _, hstage⟩ := hj
      cases (State.stages_setStage_self s j _).symm.trans hstage
    · have hold : s.Inside j := (inside_of_stages (i := i) rfl hne).mp hj
      exact hne (h.eq hold ⟨_, _, _, hin⟩)

theorem Wedged.not_orderly (h : Wedged s i) : ¬Orderly s := by
  rintro (hfree | ⟨j, hj⟩)
  · cases hfree.symm.trans h.owner
  · exact h.outside j hj

theorem Wedged.lock_eq_none (h : Wedged s i) (j : Nat) : m.step s (.lock j) = none := by
  cases hlock : m.step s (.lock j) with
  | none => rfl
  | some t => cases (lock_cases hlock).1.symm.trans h.owner

theorem Wedged.step (h : Wedged s i) (hstep : m.step s a = some t) :
    Wedged t i ∧ t.returned = s.returned := by
  cases move_of_step hstep with
  | stays howner hreturned hinside =>
      exact ⟨⟨howner.trans h.owner, fun j hj => h.outside j ((hinside j).mp hj)⟩, hreturned⟩
  | locks j hfree => cases hfree.symm.trans h.owner
  | unlocks j hin => exact absurd hin (h.outside j)
  | throws j _ hin => exact absurd hin (h.outside j)

theorem Wedged.data_step {π : Type*} {view : σ → π}
    (hview : ∀ w data, view (m.outside w data) = view data) (h : Wedged s i)
    (hstep : m.step s a = some t) : view t.data = view s.data := by
  cases a with
  | call j op =>
      obtain ⟨-, rfl⟩ := call_cases hstep
      rfl
  | lock j =>
      rw [h.lock_eq_none] at hstep
      cases hstep
  | exec j answer =>
      obtain ⟨op, found, b, rest, hin, -⟩ := exec_cases hstep
      exact absurd ⟨_, _, _, hin⟩ (h.outside j)
  | unlock j =>
      obtain ⟨op, found, hin, -⟩ := unlock_cases hstep
      exact absurd ⟨_, _, _, hin⟩ (h.outside j)
  | caught j =>
      obtain ⟨-, rfl⟩ := caught_cases hstep
      rfl
  | outside w =>
      obtain rfl := outside_cases hstep
      exact hview w s.data

/-- A wedged object stays wedged: no operation returns any more. -/
theorem Wedged.run {π : Type*} {view : σ → π}
    (hview : ∀ w data, view (m.outside w data) = view data) (h : Wedged s i)
    (hrun : Run m.step ok s as t) :
    Wedged t i ∧ t.returned = s.returned ∧ view t.data = view s.data := by
  refine hrun.invariant
    (I := fun u => Wedged u i ∧ u.returned = s.returned ∧ view u.data = view s.data)
    (fun u a v _ hstep hu => ?_) ⟨h, rfl, rfl⟩
  obtain ⟨hwedged, hreturned, hdata⟩ := hu
  obtain ⟨hwedged', hreturned'⟩ := hwedged.step hstep
  exact ⟨hwedged', hreturned'.trans hreturned, (hwedged.data_step hview hstep).trans hdata⟩

/-! ## What the mutex protects -/

section Protected

variable {π : Type*} {view : σ → π} {effect : β → π → π}

/-- Whoever is inside sees what its own statements so far have made of what it found. -/
def Tracked (m : Monitor κ β ν ω ε σ) (view : σ → π) (effect : β → π → π) (s : State κ β ε σ) :
    Prop :=
  ∀ i op found rest, s.stages i = .inside op found rest → ∃ done,
    m.body op found = done ++ rest ∧ view s.data = done.foldl (fun p b => effect b p) (view found)

theorem Tracked.create (data : σ) : m.Tracked view effect (State.create data) := by
  intro i op found rest hin
  cases hin

theorem Tracked.of_view (h : m.Tracked view effect s) (hview : view t.data = view s.data)
    (hstages : ∀ j op found rest, t.stages j = .inside op found rest → s.stages j = t.stages j) :
    m.Tracked view effect t := by
  intro j op found rest hin
  obtain ⟨done, hbody, hdone⟩ := h j op found rest ((hstages j op found rest hin).trans hin)
  exact ⟨done, hbody, hview.trans hdone⟩

theorem stages_eq_of_inside {stage : Stage κ β ε σ} (i : Nat)
    (hstages : t.stages = (s.setStage i stage).stages)
    (hout : ∀ op found rest, stage ≠ .inside op found rest) (j : Nat) (op : κ) (found : σ)
    (rest : List β) (hin : t.stages j = .inside op found rest) : s.stages j = t.stages j := by
  by_cases hj : j = i
  · subst hj
    rw [hstages, State.stages_setStage_self] at hin
    exact absurd hin (hout op found rest)
  · rw [hstages, State.stages_setStage_of_ne s stage hj]

theorem Tracked.step (hview : ∀ w data, view (m.outside w data) = view data)
    (heffect : ∀ b answer data, view (m.exec b answer data).1 = effect b (view data))
    (h : m.Tracked view effect s) (hlocked : Locked s) (hstep : m.step s a = some t) :
    m.Tracked view effect t := by
  have hlocked' : Locked t := hlocked.step hstep
  cases a with
  | call i op =>
      obtain ⟨-, rfl⟩ := call_cases hstep
      exact h.of_view rfl (stages_eq_of_inside i rfl fun _ _ _ h => by cases h)
  | lock i =>
      obtain ⟨-, op, -, rfl⟩ := lock_cases hstep
      intro j op' found rest hin
      obtain rfl : i = j := Option.some.inj (hlocked' j ⟨_, _, _, hin⟩)
      rw [show _ = Stage.inside op s.data (m.body op s.data) from
        State.stages_setStage_self ..] at hin
      cases hin
      exact ⟨[], rfl, rfl⟩
  | exec i answer =>
      obtain ⟨op, found, b, rest, hin, rfl⟩ := exec_cases hstep
      obtain ⟨done, hbody, hdone⟩ := h i op found (b :: rest) hin
      intro j op' found' rest' hin'
      have hj : i = j := by
        refine Option.some.inj ((hlocked i ⟨_, _, _, hin⟩).symm.trans ?_)
        exact hlocked' j ⟨_, _, _, hin'⟩
      subst hj
      rw [show _ = Stage.after op found rest (m.exec b answer s.data).2 from
        State.stages_setStage_self ..] at hin'
      cases hexec : (m.exec b answer s.data).2 with
      | some what =>
          rw [hexec] at hin'
          cases hin'
      | none =>
          rw [hexec] at hin'
          cases hin'
          refine ⟨done ++ [b], by rw [hbody, List.append_assoc]; rfl, ?_⟩
          rw [List.foldl_append, ← hdone]
          exact heffect b answer s.data
  | unlock i =>
      obtain ⟨op, found, -, rfl⟩ := unlock_cases hstep
      exact h.of_view rfl (stages_eq_of_inside i rfl fun _ _ _ h => by cases h)
  | caught i =>
      obtain ⟨-, rfl⟩ := caught_cases hstep
      exact h.of_view rfl (stages_eq_of_inside i rfl fun _ _ _ h => by cases h)
  | outside w =>
      obtain rfl := outside_cases hstep
      exact h.of_view (hview w s.data) fun _ _ _ _ _ => rfl

theorem Tracked.run (hview : ∀ w data, view (m.outside w data) = view data)
    (heffect : ∀ b answer data, view (m.exec b answer data).1 = effect b (view data)) (data : σ)
    (hrun : Run m.step ok (State.create data) as t) : m.Tracked view effect t := by
  have hinv : Locked t ∧ m.Tracked view effect t := by
    refine hrun.invariant (I := fun s => Locked s ∧ m.Tracked view effect s)
      (fun s a u _ hstep hs => ?_) ⟨Locked.create data, Tracked.create data⟩
    exact ⟨hs.1.step hstep, hs.2.step hview heffect hs.1 hstep⟩
  exact hinv.2

end Protected

/-! ## A caller alone -/

/-- The statements of an operation one after the other, up to the first that throws. -/
def execAll (m : Monitor κ β ν ω ε σ) (answer : ν) : List β → σ → σ × Option ε
  | [], data => (data, none)
  | b :: rest, data =>
      let r := m.exec b answer data
      if r.2.isSome then r else m.execAll answer rest r.1

theorem execAll_cons_of_throws (hthrows : (m.exec b answer found).2 = some what) :
    m.execAll answer (b :: rest) found = m.exec b answer found := by
  unfold execAll
  dsimp only
  rw [hthrows]
  rfl

theorem execAll_cons_of_quiet (hquiet : (m.exec b answer found).2 = none) :
    m.execAll answer (b :: rest) found = m.execAll answer rest (m.exec b answer found).1 := by
  rw [execAll, hquiet]
  rfl

theorem run_exec {data : σ} (hin : s.stages i = .inside op found rest)
    (hall : m.execAll answer rest s.data = (data, none)) :
    ∃ as t, Run m.step (fun _ _ => True) s as t ∧ t.stages i = .inside op found [] ∧
      t.data = data ∧ t.returned = s.returned := by
  induction rest generalizing s with
  | nil => exact ⟨[], s, .nil s, hin, congrArg Prod.fst hall, rfl⟩
  | cons b rest ih =>
      cases hexec : (m.exec b answer s.data).2 with
      | some what =>
          rw [execAll_cons_of_throws hexec] at hall
          cases hexec.symm.trans (congrArg Prod.snd hall)
      | none =>
          rw [execAll_cons_of_quiet hexec] at hall
          have hstep : m.step s (.exec i answer) =
              some { s.setStage i (.inside op found rest) with
                data := (m.exec b answer s.data).1 } := by
            unfold step
            simp only [hin, hexec, Stage.after]
          obtain ⟨as, t, hrun, hdone, hdata, hreturned⟩ :=
            ih (s := { s.setStage i (.inside op found rest) with
              data := (m.exec b answer s.data).1 }) (State.stages_setStage_self ..) hall
          exact ⟨_ :: as, t, .cons trivial hstep hrun, hdone, hdata, hreturned⟩

/-- While the mutex is free an operation that does not throw can return, and leaves it free. -/
theorem run_alone {data : σ} (hentered : s.stages i = .entered op) (hfree : s.owner = none)
    (hall : m.execAll answer (m.body op s.data) s.data = (data, none)) :
    ∃ as t, Run m.step (fun _ _ => True) s as t ∧ t.stages i = .idle ∧ t.owner = none ∧
      t.data = data ∧ t.returned = s.returned ++ [op] := by
  have hlock : m.step s (.lock i) = some
      { s.setStage i (.inside op s.data (m.body op s.data)) with owner := some i } := by
    unfold step
    simp only [hentered, hfree]
  obtain ⟨as, t, hrun, hdone, hdata, hreturned⟩ :=
    run_exec (s := { s.setStage i (.inside op s.data (m.body op s.data)) with owner := some i })
      (State.stages_setStage_self ..) hall
  have hunlock : m.step t (.unlock i) = some
      { t.setStage i .idle with owner := none, returned := t.returned ++ [op] } := by
    unfold step
    simp only [hdone]
  refine ⟨_ :: (as ++ [.unlock i]),
    { t.setStage i .idle with owner := none, returned := t.returned ++ [op] },
    .cons trivial hlock (hrun.append (.cons trivial hunlock (.nil _))),
    State.stages_setStage_self .., rfl, hdata, ?_⟩
  exact congrArg (· ++ [op]) hreturned

/-! ## Runs without exceptions -/

theorem Orderly.step (h : Orderly s) (hquiet : m.Quiet s a) (hstep : m.step s a = some t) :
    Orderly t := by
  cases move_of_step hstep with
  | stays howner _ hinside =>
      rcases h with hfree | ⟨j, hj⟩
      · exact .inl (howner.trans hfree)
      · exact .inr ⟨j, (hinside j).mpr hj⟩
  | locks i _ _ hinside => exact .inr ⟨i, (hinside i).mpr (.inl rfl)⟩
  | unlocks i _ howner => exact .inl howner
  | throws i hloud => exact absurd hquiet hloud

theorem Locked.quiet (h : Locked s) (hstep : m.step s a = some t) (ht : Orderly t) :
    m.Quiet s a := by
  cases a with
  | exec i answer =>
      intro op found b rest hin
      cases hthrows : (m.exec b answer s.data).2 with
      | none => rfl
      | some what =>
          obtain ⟨t', hstep', -, -, -, hwedged⟩ := wedged_of_exec h hin hthrows
          obtain rfl := Option.some.inj (hstep.symm.trans hstep')
          exact absurd ht hwedged.not_orderly
  | _ => trivial

/-- The mutex is in order throughout a run exactly when no statement of the run throws. -/
theorem throughout_orderly_iff (data : σ)
    (hrun : Run m.step (fun _ _ => True) (State.create data) as t) :
    Throughout m.step Orderly (State.create data) as ↔
      Run m.step m.Quiet (State.create data) as t :=
  hrun.throughout_iff (I := fun s => Locked s ∧ Orderly s) (fun _ hs => hs.2)
    (fun _ _ _ hquiet hstep hs => ⟨hs.1.step hstep, hs.2.step hquiet hstep⟩)
    (fun _ _ _ hs hstep ht => hs.1.quiet hstep ht) ⟨Locked.create data, .inl rfl⟩

end Monitor

end BtcServer.Lib
