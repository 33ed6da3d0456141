import Mathlib.Data.List.Basic

/-!
# One element of a list

When some element of a list has a property, and another element, at a known place, does not have it,
the first element stays when the other is replaced or erased.  What a function sees of a list does
not change when an element is replaced by one that looks the same.
-/

namespace BtcServer.Lib

variable {α : Type*} {l : List α} {k : Nat} {x y : α} {P : α → Prop}

theorem exists_mem_iff_getElem? : (∃ z ∈ l, P z) ↔ ∃ (i : Nat) (z : α), l[i]? = some z ∧ P z := by
  constructor
  · rintro ⟨z, hz, hP⟩
    obtain ⟨i, hi⟩ := List.mem_iff_getElem?.mp hz
    exact ⟨i, z, hi, hP⟩
  · rintro ⟨i, z, hi, hP⟩
    exact ⟨z, List.mem_of_getElem? hi, hP⟩

theorem exists_mem_set (hx : l[k]? = some x) (hPx : ¬P x) (hPy : ¬P y) :
    (∃ z ∈ l.set k y, P z) ↔ ∃ z ∈ l, P z := by
  rw [exists_mem_iff_getElem?, exists_mem_iff_getElem?]
  refine exists_congr fun i => exists_congr fun z => ?_
  by_cases hi : i = k
  · subst hi
    rw [List.getElem?_set_self (List.getElem?_eq_some_iff.mp hx).1, hx]
    refine iff_of_false ?_ ?_
    · rintro ⟨heq, hP⟩
      exact hPy (Option.some.inj heq ▸ hP)
    · rintro ⟨heq, hP⟩
      exact hPx (Option.some.inj heq ▸ hP)
  · rw [List.getElem?_set_ne (Ne.symm hi)]

theorem exists_mem_eraseIdx (hx : l[k]? = some x) (hPx : ¬P x) :
    (∃ z ∈ l.eraseIdx k, P z) ↔ ∃ z ∈ l, P z := by
  constructor
  · rintro ⟨z, hz, hP⟩
    exact ⟨z, List.mem_of_mem_eraseIdx hz, hP⟩
  · rw [exists_mem_iff_getElem?]
    rintro ⟨i, z, hi, hP⟩
    refine ⟨z, List.mem_eraseIdx_iff_getElem?.mpr ⟨i, ?_, hi⟩, hP⟩
    rintro rfl
    exact hPx (Option.some.inj (hx.symm.trans hi) ▸ hP)

theorem map_set_of_eq {β : Type*} {f : α → β} (hx : l[k]? = some x) (hf : f y = f x) :
    (l.set k y).map f = l.map f := by
  obtain ⟨hk, rfl⟩ := List.getElem?_eq_some_iff.mp hx
  have hk' : k < (l.map f).length := by rwa [List.length_map]
  have hget : (l.map f)[k] = f l[k] := List.getElem_map f
  rw [List.map_set, hf, ← hget, List.set_getElem_self hk']

end BtcServer.Lib
