import Mathlib.Algebra.Group.Nat.Defs
import Mathlib.Data.List.Lex
import Mathlib.Order.Lattice

/-!
# Numbers of a fixed width

`fixedWidth digit b w n` writes the last `w` digits of `n` in base `b`, the most significant one
first.  Among numbers that fit, the order of the words is the order of the numbers, so that a
container sorted by such words is sorted by what they stand for.
-/

namespace BtcServer.Lib

variable {α : Type*}

def fixedWidth (digit : Nat → α) (b : Nat) : Nat → Nat → List α
  | 0, _ => []
  | w + 1, n => fixedWidth digit b w (n / b) ++ [digit (n % b)]

@[simp] theorem length_fixedWidth (digit : Nat → α) (b w n : Nat) :
    (fixedWidth digit b w n).length = w := by
  induction w generalizing n with
  | zero => rfl
  | succ w ih => rw [fixedWidth, List.length_append, ih, List.length_singleton]

theorem fixedWidth_append {digit : Nat → α} {b w n : Nat} (hn : n < b ^ w) (v m : Nat) :
    fixedWidth digit b v m ++ fixedWidth digit b w n =
      fixedWidth digit b (v + w) (m * b ^ w + n) := by
  induction w generalizing n with
  | zero =>
      obtain rfl : n = 0 := by simpa using hn
      simp [fixedWidth]
  | succ w ih =>
      have hb : 0 < b := by
        rcases Nat.eq_zero_or_pos b with rfl | hb
        · simp at hn
        · exact hb
      have hdiv : n / b < b ^ w := by
        rw [Nat.div_lt_iff_lt_mul hb]
        exact hn
      have hquot : (m * b ^ (w + 1) + n) / b = m * b ^ w + n / b := by
        rw [Nat.pow_succ, ← Nat.mul_assoc, Nat.add_comm, Nat.add_mul_div_right _ _ hb, Nat.add_comm]
      have hrem : (m * b ^ (w + 1) + n) % b = n % b := by
        rw [Nat.pow_succ, ← Nat.mul_assoc, Nat.add_comm, Nat.add_mul_mod_self_right]
      rw [fixedWidth, ← List.append_assoc, ih hdiv, ← Nat.add_assoc, fixedWidth, hquot, hrem]

section Order

variable [LinearOrder α]

theorem append_lt_append_iff {l l' m m' : List α} (h : l.length = l'.length) :
    l ++ m < l' ++ m' ↔ l < l' ∨ l = l' ∧ m < m' := by
  induction l generalizing l' with
  | nil =>
      obtain rfl := List.length_eq_zero_iff.mp h.symm
      simp
  | cons a l ih =>
      cases l' with
      | nil => cases h
      | cons a' l' =>
          have hlength : l.length = l'.length := Nat.succ.inj h
          rw [List.cons_append, List.cons_append, List.cons_lt_cons_iff, List.cons_lt_cons_iff,
            ih hlength, List.cons_eq_cons]
          constructor
          · rintro (ha | ⟨rfl, hl | ⟨rfl, hm⟩⟩)
            · exact .inl (.inl ha)
            · exact .inl (.inr ⟨rfl, hl⟩)
            · exact .inr ⟨⟨rfl, rfl⟩, hm⟩
          · rintro ((ha | ⟨rfl, hl⟩) | ⟨⟨rfl, rfl⟩, hm⟩)
            · exact .inl ha
            · exact .inr ⟨rfl, .inl hl⟩
            · exact .inr ⟨rfl, .inr ⟨rfl, hm⟩⟩

/-- The digits stand in the order of their values. -/
def DigitOrder (digit : Nat → α) (b : Nat) : Prop := ∀ i < b, ∀ j < b, digit i < digit j ↔ i < j

theorem DigitOrder.inj {digit : Nat → α} {b i j : Nat} (h : DigitOrder digit b) (hi : i < b)
    (hj : j < b) (hij : digit i = digit j) : i = j := by
  apply Nat.le_antisymm
  · exact Nat.le_of_not_lt fun hlt => ((h j hj i hi).mpr hlt).ne hij.symm
  · exact Nat.le_of_not_lt fun hlt => ((h i hi j hj).mpr hlt).ne hij

theorem fixedWidth_inj {digit : Nat → α} {b w m n : Nat} (hdigit : DigitOrder digit b)
    (hm : m < b ^ w) (hn : n < b ^ w) (h : fixedWidth digit b w m = fixedWidth digit b w n) :
    m = n := by
  induction w generalizing m n with
  | zero =>
      rw [Nat.pow_zero] at hm hn
      omega
  | succ w ih =>
      have hb : 0 < b := by
        rcases Nat.eq_zero_or_pos b with rfl | hb
        · simp at hm
        · exact hb
      rw [Nat.pow_succ] at hm hn
      obtain ⟨hhead, hlast⟩ := List.append_inj' h rfl
      have hquot := ih ((Nat.div_lt_iff_lt_mul hb).mpr hm) ((Nat.div_lt_iff_lt_mul hb).mpr hn) hhead
      have hrem := hdigit.inj (Nat.mod_lt m hb) (Nat.mod_lt n hb) (List.singleton_inj.mp hlast)
      rw [← Nat.div_add_mod m b, ← Nat.div_add_mod n b, hquot, hrem]

theorem fixedWidth_lt_iff {digit : Nat → α} {b w m n : Nat} (hdigit : DigitOrder digit b)
    (hm : m < b ^ w) (hn : n < b ^ w) :
    fixedWidth digit b w m < fixedWidth digit b w n ↔ m < n := by
  induction w generalizing m n with
  | zero =>
      rw [Nat.pow_zero] at hm hn
      obtain rfl : m = n := by omega
      simp
  | succ w ih =>
      have hb : 0 < b := by
        rcases Nat.eq_zero_or_pos b with rfl | hb
        · simp at hm
        · exact hb
      rw [Nat.pow_succ] at hm hn
      have hm' := (Nat.div_lt_iff_lt_mul hb).mpr hm
      have hn' := (Nat.div_lt_iff_lt_mul hb).mpr hn
      have hsplit : m < n ↔ m / b < n / b ∨ m / b = n / b ∧ m % b < n % b := by
        have hmod := Nat.div_add_mod m b
        have hnod := Nat.div_add_mod n b
        have hmlt := Nat.mod_lt m hb
        have hnlt := Nat.mod_lt n hb
        rcases Nat.lt_trichotomy (m / b) (n / b) with hlt | heq | hgt
        · have hle := Nat.mul_le_mul_left b (Nat.succ_le_of_lt hlt)
          rw [Nat.mul_succ] at hle
          omega
        · rw [heq] at hmod ⊢
          omega
        · have hle := Nat.mul_le_mul_left b (Nat.succ_le_of_lt hgt)
          rw [Nat.mul_succ] at hle
          omega
      rw [fixedWidth, fixedWidth, append_lt_append_iff (by simp), ih hm' hn', hsplit]
      have hlast : [digit (m % b)] < [digit (n % b)] ↔ m % b < n % b := by
        rw [List.cons_lt_cons_iff, hdigit _ (Nat.mod_lt m hb) _ (Nat.mod_lt n hb)]
        simp
      rw [hlast]
      constructor
      · rintro (hlt | ⟨heq, hlt⟩)
        · exact .inl hlt
        · exact .inr ⟨fixedWidth_inj hdigit hm' hn' heq, hlt⟩
      · rintro (hlt | ⟨heq, hlt⟩)
        · exact .inl hlt
        · exact .inr ⟨by rw [heq], hlt⟩

end Order

end BtcServer.Lib
