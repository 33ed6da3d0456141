import Mathlib.Data.Finset.Erase
import Mathlib.Data.Finset.Insert

/-!
# `boost::shared_mutex`

A lock with any number of shared holders or one exclusive holder.  The type has no other states.
`acquire` is not possible while the lock is held in a mode that excludes the one asked for.
-/

namespace BtcServer.Boost

/-- `boost::shared_lock` or `boost::unique_lock`. -/
inductive LockMode
  | shared
  | exclusive
  deriving DecidableEq, Repr

inductive SharedMutex (ι : Type*)
  | shared (holders : Finset ι)
  | exclusive (holder : ι)

namespace SharedMutex

variable {ι : Type*} [DecidableEq ι] {m m' : SharedMutex ι} {i j : ι}

def free : SharedMutex ι := shared ∅

def Holds (m : SharedMutex ι) (i : ι) : Prop :=
  match m with
  | shared holders => i ∈ holders
  | exclusive holder => i = holder

def acquire (m : SharedMutex ι) (mode : LockMode) (i : ι) : Option (SharedMutex ι) :=
  match m, mode with
  | shared holders, .shared => some (shared (insert i holders))
  | shared holders, .exclusive => if holders = ∅ then some (exclusive i) else none
  | exclusive _, _ => none

def release (m : SharedMutex ι) (i : ι) : SharedMutex ι :=
  match m with
  | shared holders => shared (holders.erase i)
  | exclusive holder => if i = holder then free else exclusive holder

omit [DecidableEq ι] in
theorem not_holds_free (i : ι) : ¬(free : SharedMutex ι).Holds i := Finset.notMem_empty i

theorem acquire_exclusive_iff :
    m.acquire .exclusive i = some m' ↔ m = free ∧ m' = exclusive i := by
  cases m with
  | exclusive holder => exact iff_of_false (fun h => by cases h) (fun h => by cases h.1)
  | shared holders =>
      change (if holders = ∅ then some (exclusive i) else none) = some m' ↔ _
      by_cases hnone : holders = ∅
      · subst hnone
        rw [if_pos rfl, Option.some.injEq, eq_comm]
        exact (and_iff_right rfl).symm
      · rw [if_neg hnone]
        refine iff_of_false (fun h => by cases h) (fun h => hnone ?_)
        exact shared.inj h.1

theorem holds_acquire {mode : LockMode} (h : m.acquire mode i = some m') :
    m'.Holds j ↔ j = i ∨ m.Holds j := by
  cases mode with
  | exclusive =>
      obtain ⟨rfl, rfl⟩ := acquire_exclusive_iff.mp h
      exact (or_iff_left (not_holds_free j)).symm
  | shared =>
      cases m with
      | exclusive holder => cases h
      | shared holders =>
          obtain rfl := Option.some.inj h
          exact Finset.mem_insert

theorem holds_release : (m.release i).Holds j ↔ m.Holds j ∧ j ≠ i := by
  cases m with
  | shared holders => exact Finset.mem_erase.trans and_comm
  | exclusive holder =>
      change (if i = holder then free else exclusive holder).Holds j ↔ _
      by_cases hi : i = holder
      · subst hi
        rw [if_pos rfl]
        exact iff_of_false (not_holds_free j) (fun h => h.2 h.1)
      · rw [if_neg hi]
        refine (and_iff_left_of_imp ?_).symm
        rintro rfl rfl
        exact hi rfl

def Exclusive (m : SharedMutex ι) : Prop := ∃ holder, m = exclusive holder

omit [DecidableEq ι] in
theorem Exclusive.eq (h : m.Exclusive) (hi : m.Holds i) (hj : m.Holds j) : i = j := by
  obtain ⟨holder, rfl⟩ := h
  exact hi.trans hj.symm

theorem Exclusive.acquire_eq_none (h : m.Exclusive) (mode : LockMode) (i : ι) :
    m.acquire mode i = none := by
  obtain ⟨holder, rfl⟩ := h
  rfl

theorem exclusive_of_acquire (h : m.acquire .exclusive i = some m') : m'.Exclusive :=
  ⟨i, (acquire_exclusive_iff.mp h).2⟩

end SharedMutex

end BtcServer.Boost
