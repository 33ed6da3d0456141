import BtcServer.HttpmessageServer.Request

/-!
# Reading a number from a header

What `normalise` makes of a value of Content-Length, said without the extraction: a value has a
numeral when behind white space it begins with an optional sign and digits.  The extraction gives
the number of the numeral, the maximum when that does not fit, and 0 when there is none; only from a
string of white space it gives nothing, and the variable keeps what it held.
-/

namespace BtcServer.HttpmessageServer

/-- The value has a byte that an extraction stops to look at. -/
def Inked (value : Bytes) : Prop := ∃ b ∈ value, isSpace b = false

instance : DecidablePred Inked := fun value => inferInstanceAs (Decidable (∃ b ∈ value, _))

theorem dropWhile_isSpace_eq_nil_iff (value : Bytes) :
    value.dropWhile isSpace = [] ↔ ¬ Inked value := by
  simp [Inked, List.dropWhile_eq_nil_iff]

theorem extractUInt64_of_inked {value : Bytes} (h : Inked value) (c₁ c₂ : UInt64) :
    extractUInt64 value c₁ = extractUInt64 value c₂ := by
  unfold extractUInt64
  cases hdrop : value.dropWhile isSpace with
  | nil => exact absurd h ((dropWhile_isSpace_eq_nil_iff value).mp hdrop)
  | cons b rest => rfl

theorem extractUInt64_of_not_inked {value : Bytes} (h : ¬ Inked value) (c : UInt64) :
    extractUInt64 value c = c := by
  unfold extractUInt64
  rw [(dropWhile_isSpace_eq_nil_iff value).mpr h]

theorem extractUInt64_of_cons {value tail digits : Bytes} {c : UInt8}
    (hdrop : value.dropWhile isSpace = c :: tail)
    (hdigits : (if c = '-'.toUInt8 ∨ c = '+'.toUInt8 then tail else c :: tail).takeWhile
      isDecimalDigit = digits) (prior : UInt64) :
    extractUInt64 value prior =
      if digits = [] then 0
      else if 0x10000000000000000 ≤ decimalValue digits then 0xffffffffffffffff
      else if c = '-'.toUInt8 then 0 - UInt64.ofNat (decimalValue digits)
      else UInt64.ofNat (decimalValue digits) := by
  unfold extractUInt64
  rw [hdrop]
  simp only [hdigits]

/-- The longest numeral at the front of a value. -/
structure Numeral (value : Bytes) where
  lead : Bytes
  sign : Bytes
  digits : Bytes
  rest : Bytes
  value_eq : value = lead ++ (sign ++ (digits ++ rest))
  space_of_mem : ∀ b ∈ lead, isSpace b = true
  sign_eq : sign = [] ∨ sign = ['+'.toUInt8] ∨ sign = ['-'.toUInt8]
  digits_ne_nil : digits ≠ []
  digit_of_mem : ∀ b ∈ digits, isDecimalDigit b = true
  longest : ∀ b ∈ rest.head?, isDecimalDigit b = false

namespace Numeral

variable {value : Bytes}

def Fits (x : Numeral value) : Prop := decimalValue x.digits < 0x10000000000000000

instance (x : Numeral value) : Decidable x.Fits := inferInstanceAs (Decidable (_ < _))

/-- The number written, where a minus sign negates modulo `2 ^ 64`. -/
def number (x : Numeral value) : Nat :=
  if x.sign = ['-'.toUInt8] then
    (0x10000000000000000 - decimalValue x.digits) % 0x10000000000000000
  else decimalValue x.digits

theorem number_lt (x : Numeral value) (h : x.Fits) : x.number < 0x10000000000000000 := by
  unfold number
  split_ifs
  · exact Nat.mod_lt _ (by decide +kernel)
  · exact h

theorem dropWhile_eq (x : Numeral value) :
    value.dropWhile isSpace = x.sign ++ (x.digits ++ x.rest) := by
  obtain ⟨d, ds, hdigits⟩ := List.exists_cons_of_ne_nil x.digits_ne_nil
  have hd : isSpace d = false :=
    (isDecimalDigit_apart (x.digit_of_mem d (hdigits ▸ List.mem_cons_self))).1
  have hlead : value.dropWhile isSpace = (x.sign ++ (x.digits ++ x.rest)).dropWhile isSpace :=
    (congrArg (List.dropWhile isSpace) x.value_eq).trans
      (List.dropWhile_append_of_pos x.space_of_mem)
  rw [hlead]
  rcases x.sign_eq with h | h | h
  · rw [h, hdigits, List.nil_append, List.cons_append]
    exact List.dropWhile_cons_of_neg (by simp [hd])
  · rw [h]
    rfl
  · rw [h]
    rfl

theorem takeWhile_eq (x : Numeral value) :
    (x.digits ++ x.rest).takeWhile isDecimalDigit = x.digits := by
  have hrest : x.rest.takeWhile isDecimalDigit = [] := by
    have hlongest := x.longest
    cases hcase : x.rest with
    | nil => rfl
    | cons b rest =>
        rw [hcase] at hlongest
        have hb : isDecimalDigit b = false := hlongest b rfl
        rw [List.takeWhile_cons, hb]
        rfl
  rw [List.takeWhile_append_of_pos x.digit_of_mem, hrest, List.append_nil]

/-- What an extraction makes of sign and digits. -/
theorem extractUInt64_eq (x : Numeral value) (prior : UInt64) :
    extractUInt64 value prior =
      if x.Fits then UInt64.ofNat x.number else 0xffffffffffffffff := by
  obtain ⟨d, ds, hdigits⟩ := List.exists_cons_of_ne_nil x.digits_ne_nil
  obtain ⟨-, hminus, hplus⟩ := isDecimalDigit_apart (x.digit_of_mem d (hdigits ▸ List.mem_cons_self))
  have hdrop := x.dropWhile_eq
  have htake := x.takeWhile_eq
  have hne := x.digits_ne_nil
  -- the range decides alike in all three cases
  have hrange {y : UInt64} (hy : x.Fits → y = UInt64.ofNat x.number) :
      (if 0x10000000000000000 ≤ decimalValue x.digits then 0xffffffffffffffff else y) =
        if x.Fits then UInt64.ofNat x.number else 0xffffffffffffffff := by
    by_cases hfits : x.Fits
    · have hlt : ¬ 0x10000000000000000 ≤ decimalValue x.digits := Nat.not_le.mpr hfits
      rw [if_neg hlt, if_pos hfits, hy hfits]
    · have hle : 0x10000000000000000 ≤ decimalValue x.digits := Nat.le_of_not_lt hfits
      rw [if_pos hle, if_neg hfits]
  rcases x.sign_eq with h | h | h
  · have hnumber : x.number = decimalValue x.digits := if_neg (by rw [h]; decide)
    have htake' : (if d = '-'.toUInt8 ∨ d = '+'.toUInt8 then ds ++ x.rest
        else d :: (ds ++ x.rest)).takeWhile isDecimalDigit = x.digits := by
      rw [if_neg (not_or.mpr ⟨hminus, hplus⟩), ← List.cons_append, ← hdigits]
      exact htake
    rw [h, hdigits] at hdrop
    rw [extractUInt64_of_cons hdrop htake', if_neg hne, if_neg hminus]
    exact hrange fun _ => by rw [hnumber]
  · have hnumber : x.number = decimalValue x.digits := if_neg (by rw [h]; decide)
    rw [h] at hdrop
    have hplain : '+'.toUInt8 ≠ '-'.toUInt8 := by decide +kernel
    have htake' : (if '+'.toUInt8 = '-'.toUInt8 ∨ '+'.toUInt8 = '+'.toUInt8 then x.digits ++ x.rest
        else '+'.toUInt8 :: (x.digits ++ x.rest)).takeWhile isDecimalDigit = x.digits := by
      rw [if_pos (.inr rfl)]
      exact htake
    rw [extractUInt64_of_cons hdrop htake', if_neg hne, if_neg hplain]
    exact hrange fun _ => by rw [hnumber]
  · have hnumber : x.number =
        (0x10000000000000000 - decimalValue x.digits) % 0x10000000000000000 := if_pos h
    have htake' : (if '-'.toUInt8 = '-'.toUInt8 ∨ '-'.toUInt8 = '+'.toUInt8 then x.digits ++ x.rest
        else '-'.toUInt8 :: (x.digits ++ x.rest)).takeWhile isDecimalDigit = x.digits := by
      rw [if_pos (.inl rfl)]
      exact htake
    rw [h] at hdrop
    rw [extractUInt64_of_cons hdrop htake', if_neg hne, if_pos rfl]
    refine hrange fun hfits => ?_
    unfold Fits at hfits
    rw [hnumber, ← UInt64.toNat_inj, UInt64.toNat_sub, UInt64.toNat_ofNat', UInt64.toNat_ofNat']
    simp only [UInt64.reduceToNat]
    omega

end Numeral

theorem exists_sign (c : UInt8) (tail : Bytes) :
    ∃ sign body, (sign = [] ∨ sign = ['+'.toUInt8] ∨ sign = ['-'.toUInt8]) ∧
      c :: tail = sign ++ body ∧
      (if c = '-'.toUInt8 ∨ c = '+'.toUInt8 then tail else c :: tail) = body := by
  by_cases h : c = '-'.toUInt8 ∨ c = '+'.toUInt8
  · rw [if_pos h]
    refine ⟨[c], tail, .inr ?_, rfl, rfl⟩
    rcases h with rfl | rfl
    · exact .inr rfl
    · exact .inl rfl
  · rw [if_neg h]
    exact ⟨[], c :: tail, .inl rfl, rfl, rfl⟩

theorem head?_dropWhile (body : Bytes) :
    ∀ b ∈ (body.dropWhile isDecimalDigit).head?, isDecimalDigit b = false := by
  intro b hb
  have hnot := List.head?_dropWhile_not isDecimalDigit body
  rw [Option.mem_def.mp hb] at hnot
  exact hnot

theorem extractUInt64_of_isEmpty {value : Bytes} (hinked : Inked value)
    (h : IsEmpty (Numeral value)) (prior : UInt64) : extractUInt64 value prior = 0 := by
  cases hdrop : value.dropWhile isSpace with
  | nil => exact absurd hinked ((dropWhile_isSpace_eq_nil_iff value).mp hdrop)
  | cons c tail =>
      rw [extractUInt64_of_cons hdrop rfl, if_pos]
      by_contra hne
      obtain ⟨sign, body, hsign, hsplit, hbody⟩ := exists_sign c tail
      rw [hbody] at hne
      have hvalue : value = value.takeWhile isSpace ++ (sign ++
          (body.takeWhile isDecimalDigit ++ body.dropWhile isDecimalDigit)) := by
        rw [List.takeWhile_append_dropWhile, ← hsplit, ← hdrop, List.takeWhile_append_dropWhile]
      exact h.false ⟨_, sign, _, _, hvalue, fun b hb => List.mem_takeWhile_imp hb, hsign, hne,
        fun b hb => List.mem_takeWhile_imp hb, head?_dropWhile body⟩

def HasNumber (value : Bytes) (n : Nat) : Prop := ∃ x : Numeral value, x.Fits ∧ x.number = n

end BtcServer.HttpmessageServer
