import BtcServer.HttpmessageServer.Request
import BtcServer.Lib.FixedWidth

/-!
# `boost::gregorian`

Dates of the Gregorian calendar with a year of four digits, and how `%Y%m%d` writes them.  The order
of the words is the order of the dates.  The day of the month tells dates apart that lie less than
28 days from each other (`DaysLater.eq_of_day_eq`), and no further.
-/

namespace BtcServer.Boost

open HttpmessageServer (Bytes)
open Lib

/-- The order of `std::char_traits<char>`. -/
scoped instance byteOrder : LinearOrder UInt8 where
  le_refl _ := UInt8.le_refl _
  le_trans _ _ _ := UInt8.le_trans
  le_antisymm _ _ := UInt8.le_antisymm
  le_total := UInt8.le_total
  lt_iff_le_not_ge a b := by
    rw [UInt8.le_iff_toNat_le, UInt8.le_iff_toNat_le, UInt8.lt_iff_toNat_lt]
    omega
  toDecidableLE := inferInstance

/-- `gregorian_calendar_base::is_leap_year` -/
def isLeapYear (year : Nat) : Bool := year % 4 = 0 && (year % 100 ≠ 0 || year % 400 = 0)

/-- `gregorian_calendar_base::end_of_month_day` -/
def endOfMonthDay (year month : Nat) : Nat :=
  match month with
  | 2 => if isLeapYear year then 29 else 28
  | 4 | 6 | 9 | 11 => 30
  | _ => 31

theorem endOfMonthDay_bounds (year month : Nat) :
    28 ≤ endOfMonthDay year month ∧ endOfMonthDay year month ≤ 31 := by
  unfold endOfMonthDay
  split
  · split_ifs <;> decide
  all_goals decide

theorem one_le_endOfMonthDay (year month : Nat) : 1 ≤ endOfMonthDay year month :=
  Nat.le_trans (by decide) (endOfMonthDay_bounds year month).1

@[ext] structure Date where
  year : Nat
  month : Nat
  day : Nat
  year_lt : year < 10000
  month_pos : 1 ≤ month
  month_le : month ≤ 12
  day_pos : 1 ≤ day
  day_le : day ≤ endOfMonthDay year month
  deriving DecidableEq, Repr

namespace Date

/-- What the constructor of a `date` checks. -/
abbrev Valid (year month day : Nat) : Prop :=
  year < 10000 ∧ 1 ≤ month ∧ month ≤ 12 ∧ 1 ≤ day ∧ day ≤ endOfMonthDay year month

def ofYmd (year month day : Nat) (h : Valid year month day) : Date :=
  ⟨year, month, day, h.1, h.2.1, h.2.2.1, h.2.2.2.1, h.2.2.2.2⟩

theorem day_le_31 (d : Date) : d.day ≤ 31 := d.day_le.trans (endOfMonthDay_bounds _ _).2

/-- The next day; none behind the last one that has a year of four digits. -/
def next (d : Date) : Option Date :=
  if h : d.day < endOfMonthDay d.year d.month then
    some { d with
      day := d.day + 1
      day_pos := Nat.succ_pos _
      day_le := h }
  else if h : d.month < 12 then
    some { d with
      month := d.month + 1
      day := 1
      month_pos := Nat.succ_pos _
      month_le := h
      day_pos := Nat.le_refl 1
      day_le := one_le_endOfMonthDay _ _ }
  else if h : d.year + 1 < 10000 then
    some {
      year := d.year + 1
      month := 1
      day := 1
      year_lt := h
      month_pos := Nat.le_refl 1
      month_le := by decide
      day_pos := Nat.le_refl 1
      day_le := one_le_endOfMonthDay _ _ }
  else none

/-- `later` is `k` days after `d`. -/
inductive DaysLater : Nat → Date → Date → Prop
  | refl (d : Date) : DaysLater 0 d d
  | next {k : Nat} {d e later : Date} (h : DaysLater k d e) (hnext : e.next = some later) :
      DaysLater (k + 1) d later

/-- The number whose eight digits `%Y%m%d` writes. -/
def key (d : Date) : Nat := d.year * 10000 + d.month * 100 + d.day

theorem key_lt (d : Date) : d.key < 10 ^ 8 := by
  have hyear := d.year_lt
  have hmonth := d.month_le
  have hday := d.day_le_31
  unfold key
  omega

theorem key_inj {d e : Date} (h : d.key = e.key) : d = e := by
  have hd := d.day_le_31
  have he := e.day_le_31
  have hdm := d.month_le
  have hem := e.month_le
  unfold key at h
  ext <;> omega

instance : LinearOrder Date := LinearOrder.lift' key fun _ _ => key_inj

theorem lt_iff {d e : Date} : d < e ↔ d.key < e.key := Iff.rfl

theorem lt_of_next {d e : Date} (h : d.next = some e) : d < e := by
  have hday := d.day_le_31
  have hmonth := d.month_le
  rw [lt_iff]
  unfold next at h
  split_ifs at h with hmore hyear hlast
  all_goals
    obtain rfl := Option.some.inj h
    unfold key
    dsimp only
    omega

theorem DaysLater.le {k : Nat} {d later : Date} (h : DaysLater k d later) : d ≤ later := by
  induction h with
  | refl => exact le_refl _
  | next _ hnext ih => exact ih.trans (lt_of_next hnext).le

/-- Before 28 days have passed the month has changed once at most. -/
theorem DaysLater.day_eq {k : Nat} {d later : Date} (h : DaysLater k d later) (hk : k ≤ 28) :
    (later.year = d.year ∧ later.month = d.month ∧ later.day = d.day + k) ∨
      (later.day + endOfMonthDay d.year d.month = d.day + k ∧ later.day ≤ k) := by
  induction h with
  | refl d => exact .inl ⟨rfl, rfl, rfl⟩
  | @next k d e later _ hnext ih =>
      have hlong := (endOfMonthDay_bounds e.year e.month).1
      have hend := d.day_le
      unfold Date.next at hnext
      rcases ih (by omega) with ⟨hyear, hmonth, hday⟩ | ⟨hday, hle⟩
      · have hle := e.day_le
        have hsame : endOfMonthDay e.year e.month = endOfMonthDay d.year d.month := by
          rw [hyear, hmonth]
        split_ifs at hnext with hmore
        · obtain rfl := Option.some.inj hnext
          exact .inl ⟨hyear, hmonth, congrArg Nat.succ hday⟩
        all_goals
          obtain rfl := Option.some.inj hnext
          dsimp only
          exact .inr ⟨by omega, Nat.one_le_iff_ne_zero.mpr (Nat.succ_ne_zero k)⟩
      · rw [dif_pos (by omega)] at hnext
        obtain rfl := Option.some.inj hnext
        dsimp only
        exact .inr ⟨by omega, Nat.succ_le_succ hle⟩

theorem DaysLater.eq_of_day_eq {k : Nat} {d later : Date} (h : DaysLater k d later) (hk : k < 28)
    (hday : later.day = d.day) : later = d := by
  have hlong := (endOfMonthDay_bounds d.year d.month).1
  rcases h.day_eq hk.le with ⟨hyear, hmonth, hshift⟩ | ⟨hshift, -⟩
  · exact Date.ext hyear hmonth hday
  · omega

/-! ## `%Y%m%d` -/

def digit (n : Nat) : UInt8 := UInt8.ofNat (48 + n)

theorem digitOrder_digit : DigitOrder digit 10 := by
  unfold DigitOrder
  decide

/-- A `time_facet` with the format `%Y%m%d`. -/
def format (d : Date) : Bytes :=
  fixedWidth digit 10 4 d.year ++ fixedWidth digit 10 2 d.month ++ fixedWidth digit 10 2 d.day

theorem format_eq (d : Date) : d.format = fixedWidth digit 10 8 d.key := by
  have hmonth := d.month_le
  have hday := d.day_le_31
  unfold format key
  rw [fixedWidth_append (by omega), fixedWidth_append (by omega)]
  congr 1
  omega

@[simp] theorem length_format (d : Date) : d.format.length = 8 := by
  rw [format_eq, length_fixedWidth]

theorem format_lt_iff {d e : Date} : d.format < e.format ↔ d < e := by
  rw [format_eq, format_eq, fixedWidth_lt_iff digitOrder_digit d.key_lt e.key_lt, lt_iff]

end Date

end BtcServer.Boost
