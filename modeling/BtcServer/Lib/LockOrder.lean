import BtcServer.Lib.Potential
import Mathlib.Algebra.Order.BigOperators.Group.Finset
import Mathlib.Data.Fintype.Basic

/-!
# Locks that are taken in an order

Threads run programs of which only the steps on locks are kept.  Where every program takes a lock
only while all that it holds rank below, threads never wait in a circle: what is left waiting when
nothing can happen any more waits for a lock that some thread has kept to its end, and that ranks no
lower than the one it waits for (`Disciplined.waits`).  Locks that are only ever taken in shared mode
never make anyone wait, and need no rank.
-/

namespace BtcServer.Lib

inductive Access
  | shared
  | exclusive
  deriving DecidableEq, Repr

inductive LockStep (μ : Type*)
  | acquire (l : μ) (access : Access)
  | release (l : μ)
  deriving DecidableEq, Repr

/-- What each thread has still to do, and the locks that it holds. -/
structure Threads (ι μ : Type*) where
  rest : ι → List (LockStep μ)
  held : ι → List (μ × Access)

variable {ι μ : Type*} [DecidableEq ι] [DecidableEq μ]

def without (l : μ) (held : List (μ × Access)) : List (μ × Access) :=
  held.eraseP fun h => h.1 = l

/-- What a program that begins with `held` holds at its end. -/
def leftover : List (μ × Access) → List (LockStep μ) → List (μ × Access)
  | held, [] => held
  | held, .acquire l access :: rest => leftover ((l, access) :: held) rest
  | held, .release l :: rest => leftover (without l held) rest

theorem leftover_append (held : List (μ × Access)) (p q : List (LockStep μ)) :
    leftover held (p ++ q) = leftover (leftover held p) q := by
  induction p generalizing held with
  | nil => rfl
  | cons a p ih =>
      cases a with
      | acquire l access => exact ih _
      | release l => exact ih _

/-- A program takes a lock only while everything that it holds ranks below, or it takes one of the
`readable` locks in shared mode. -/
def Ordered (rank : μ → Nat) (readable : μ → Prop) :
    List (μ × Access) → List (LockStep μ) → Prop
  | _, [] => True
  | held, .acquire l access :: rest =>
      (readable l ∧ access = .shared ∨ ¬readable l ∧ ∀ h ∈ held, rank h.1 < rank l) ∧
        Ordered rank readable ((l, access) :: held) rest
  | held, .release l :: rest => Ordered rank readable (without l held) rest

variable {rank : μ → Nat} {readable : μ → Prop}

theorem ordered_append {held : List (μ × Access)} {p q : List (LockStep μ)} :
    Ordered rank readable held (p ++ q) ↔
      Ordered rank readable held p ∧ Ordered rank readable (leftover held p) q := by
  induction p generalizing held with
  | nil => exact (true_and _).symm.to_iff
  | cons a p ih =>
      cases a with
      | acquire l access =>
          change _ ∧ Ordered rank readable _ (p ++ q) ↔ _
          rw [ih, ← and_assoc]
          rfl
      | release l => exact ih

namespace Threads

def Free (s : Threads ι μ) (l : μ) (access : Access) : Prop :=
  ∀ j, ∀ h ∈ s.held j, h.1 = l → h.2 = .shared ∧ access = .shared

instance [Fintype ι] (s : Threads ι μ) (l : μ) (access : Access) : Decidable (s.Free l access) :=
  inferInstanceAs (Decidable (∀ _, _))

def start (programs : ι → List (LockStep μ)) : Threads ι μ where
  rest := programs
  held _ := []

/-- Thread `i` goes on with `rest` and holds `held`. -/
def advance (s : Threads ι μ) (i : ι) (rest : List (LockStep μ)) (held : List (μ × Access)) :
    Threads ι μ where
  rest := Function.update s.rest i rest
  held := Function.update s.held i held

section

variable (s : Threads ι μ) {i j : ι} (rest : List (LockStep μ)) (held : List (μ × Access))

omit [DecidableEq μ]

@[simp] theorem rest_advance_self : (s.advance i rest held).rest i = rest := Function.update_self ..

@[simp] theorem held_advance_self : (s.advance i rest held).held i = held := Function.update_self ..

theorem rest_advance_of_ne (h : j ≠ i) : (s.advance i rest held).rest j = s.rest j :=
  Function.update_of_ne h ..

theorem held_advance_of_ne (h : j ≠ i) : (s.advance i rest held).held j = s.held j :=
  Function.update_of_ne h ..

end

/-- The next step of thread `i`, if it need not wait. -/
def step [Fintype ι] (s : Threads ι μ) (i : ι) : Option (Threads ι μ) :=
  match s.rest i with
  | [] => none
  | .acquire l access :: rest =>
      if s.Free l access then some (s.advance i rest ((l, access) :: s.held i)) else none
  | .release l :: rest => some (s.advance i rest (without l (s.held i)))

def Finished (s : Threads ι μ) (i : ι) : Prop := s.rest i = []

def Wants (s : Threads ι μ) (i : ι) (l : μ) : Prop :=
  ∃ access rest, s.rest i = .acquire l access :: rest

/-- Every thread keeps to the order. -/
structure Disciplined (rank : μ → Nat) (readable : μ → Prop) (s : Threads ι μ) : Prop where
  ordered : ∀ i, Ordered rank readable (s.held i) (s.rest i)
  shared : ∀ i, ∀ h ∈ s.held i, readable h.1 → h.2 = .shared

omit [DecidableEq ι] in
theorem Disciplined.start {programs : ι → List (LockStep μ)}
    (h : ∀ i, Ordered rank readable [] (programs i)) :
    (start programs).Disciplined rank readable :=
  ⟨h, fun _ _ hmem => absurd hmem List.not_mem_nil⟩

variable [Fintype ι] {s t : Threads ι μ} {i j : ι} {l : μ} {access : Access} {n : Nat}

theorem step_cases (rank : μ → Nat) (readable : μ → Prop) (h : s.step i = some t) :
    ∃ a rest held, s.rest i = a :: rest ∧ t = s.advance i rest held ∧
      leftover held rest = leftover (s.held i) (s.rest i) ∧
      (Ordered rank readable (s.held i) (s.rest i) → Ordered rank readable held rest) ∧
      ∀ x ∈ held, x ∈ s.held i ∨ a = .acquire x.1 x.2 := by
  unfold step at h
  split at h
  case h_1 => cases h
  case h_2 l access rest hrest =>
      by_cases hfree : s.Free l access
      · rw [if_pos hfree] at h
        refine ⟨_, rest, _, hrest, (Option.some.inj h).symm, ?_, ?_, fun x hx => ?_⟩
        · rw [hrest]
          rfl
        · rw [hrest]
          exact fun hordered => hordered.2
        · rcases List.mem_cons.mp hx with rfl | hx
          · exact .inr rfl
          · exact .inl hx
      · rw [if_neg hfree] at h
        cases h
  case h_3 l rest hrest =>
      refine ⟨_, rest, _, hrest, (Option.some.inj h).symm, ?_, ?_, fun x hx => ?_⟩
      · rw [hrest]
        rfl
      · rw [hrest]
        exact id
      · exact .inl (List.mem_of_mem_eraseP hx)

theorem wants_of_stuck (hstuck : s.step i = none) (hrest : ¬s.Finished i) :
    ∃ l access rest, s.rest i = .acquire l access :: rest ∧ ¬s.Free l access := by
  unfold step at hstuck
  split at hstuck
  case h_1 hnil => exact absurd hnil hrest
  case h_2 l access rest hrest =>
      refine ⟨l, access, rest, hrest, fun hfree => ?_⟩
      rw [if_pos hfree] at hstuck
      cases hstuck
  case h_3 => cases hstuck

theorem Disciplined.step (h : s.Disciplined rank readable) (hstep : s.step i = some t) :
    t.Disciplined rank readable := by
  obtain ⟨a, rest, held, hrest, rfl, -, hordered, hheld⟩ :=
    step_cases rank readable hstep
  constructor
  · intro j
    by_cases hj : j = i
    · subst hj
      rw [rest_advance_self, held_advance_self]
      exact hordered (h.ordered j)
    · rw [rest_advance_of_ne _ _ _ hj, held_advance_of_ne _ _ _ hj]
      exact h.ordered j
  · intro j x hx hreadable
    by_cases hj : j = i
    · subst hj
      rw [held_advance_self] at hx
      rcases hheld x hx with hold | rfl
      · exact h.shared j x hold hreadable
      · have hfirst := h.ordered j
        rw [hrest] at hfirst
        rcases hfirst.1 with ⟨-, hshared⟩ | ⟨hnot, -⟩
        · exact hshared
        · exact absurd hreadable hnot
    · rw [held_advance_of_ne _ _ _ hj] at hx
      exact h.shared j x hx hreadable

theorem leftover_of_step (hstep : s.step i = some t) (j : ι) :
    leftover (t.held j) (t.rest j) = leftover (s.held j) (s.rest j) := by
  obtain ⟨a, rest, held, -, rfl, hleftover, -, -⟩ :=
    step_cases (fun _ => 0) (fun _ => True) hstep
  by_cases hj : j = i
  · subst hj
    rw [rest_advance_self, held_advance_self, hleftover]
  · rw [rest_advance_of_ne _ _ _ hj, held_advance_of_ne _ _ _ hj]

/-- When nothing can happen any more, whoever has not finished waits for a lock that no thread
reads only, and some thread has finished with a lock that ranks no lower. -/
theorem Disciplined.waits (h : s.Disciplined rank readable) (hbound : ∀ l, rank l ≤ n)
    (hrest : ∀ i, s.step i = none) (hunfinished : ¬s.Finished i) :
    ∃ l, s.Wants i l ∧ ¬readable l ∧
      ∃ j, s.Finished j ∧ ∃ x ∈ s.held j, rank l ≤ rank x.1 := by
  have hwants (i : ι) (hunfinished : ¬s.Finished i) :
      ∃ l access rest, s.rest i = .acquire l access :: rest ∧ ¬readable l ∧
        ∃ j, ∃ x ∈ s.held j, x.1 = l := by
    obtain ⟨l, access, rest, hacquire, hheld⟩ := wants_of_stuck (hrest i) hunfinished
    unfold Free at hheld
    push Not at hheld
    obtain ⟨j, x, hx, hl, hexclusive⟩ := hheld
    refine ⟨l, access, rest, hacquire, fun hreadable => ?_, j, x, hx, hl⟩
    have hfirst := h.ordered i
    rw [hacquire] at hfirst
    rcases hfirst.1 with ⟨-, hshared⟩ | ⟨hnot, -⟩
    · exact hexclusive (h.shared j x hx (hl ▸ hreadable)) hshared
    · exact hnot hreadable
  obtain ⟨l, access, rest, hacquire, hnot, hheld⟩ := hwants i hunfinished
  refine ⟨l, ⟨access, rest, hacquire⟩, hnot, ?_⟩
  -- The holder of the lock has finished, or waits for one that ranks above it.
  clear hacquire hunfinished
  induction hk : n - rank l using Nat.strongRecOn generalizing l with
  | _ k ih =>
      obtain ⟨j, x, hx, rfl⟩ := hheld
      by_cases hj : s.Finished j
      · exact ⟨j, hj, x, hx, Nat.le_refl _⟩
      · obtain ⟨l', access', rest', hacquire', hnot', hheld'⟩ := hwants j hj
        have hfirst := h.ordered j
        rw [hacquire'] at hfirst
        rcases hfirst.1 with ⟨hreadable, -⟩ | ⟨-, habove⟩
        · exact absurd hreadable hnot'
        · have hlt := habove x hx
          have hle := hbound l'
          obtain ⟨m, hm, y, hy, hrank⟩ := ih (n - rank l') (by omega) l' hnot' hheld' rfl
          exact ⟨m, hm, y, hy, by omega⟩

/-! ## Coming to rest -/

def remaining (s : Threads ι μ) : Nat := ∑ i, (s.rest i).length

theorem remaining_lt (hstep : s.step i = some t) : t.remaining < s.remaining := by
  obtain ⟨a, rest, held, hrest, rfl, -, -, -⟩ :=
    step_cases (fun _ => 0) (fun _ => True) hstep
  unfold remaining
  apply Finset.sum_lt_sum
  · intro j _
    by_cases hj : j = i
    · subst hj
      rw [rest_advance_self, hrest, List.length_cons]
      omega
    · rw [rest_advance_of_ne _ _ _ hj]
  · refine ⟨i, Finset.mem_univ i, ?_⟩
    rw [rest_advance_self, hrest, List.length_cons]
    omega

end Threads

end BtcServer.Lib
