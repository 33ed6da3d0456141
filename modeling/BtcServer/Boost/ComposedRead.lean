import BtcServer.Boost.Streambuf

/-!
# Composed reads

What `async_read_until` with a delimiter and `async_read` with `transfer_exactly` do: the objects
`read_until_delim_string_op` and `read_streambuf_op`, which run as the handler of one
`async_read_some` after the other.  The first of them never searches again what it has searched, it
goes on at `search_position_`; `splitAfter_resume` says that it misses nothing by that.
-/

namespace BtcServer.Boost

open Lib

section PartialSearch

variable {α : Type*} [DecidableEq α] {d l m : List α}

/-- The inner loop of `partial_search`: `some true` for a full match, `some false` for one that the
end of the sequence cuts off, `none` when the characters differ. -/
def tryMatch (atStart : Bool) : List α → List α → Option Bool
  | _, [] => some true
  | [], _ :: _ => if atStart then none else some false
  | a :: l, b :: d => if a = b then tryMatch false l d else none

/-- `partial_search`; the iterator is the offset from `first1`. -/
def partialSearch (d : List α) : List α → Nat × Bool
  | [] => (0, false)
  | a :: l =>
      match tryMatch true (a :: l) d with
      | some found => (0, found)
      | none => ((partialSearch d l).1 + 1, (partialSearch d l).2)

theorem tryMatch_eq_some_true {atStart : Bool} :
    tryMatch atStart l d = some true ↔ d <+: l := by
  induction l generalizing d atStart with
  | nil =>
      cases d with
      | nil => simp [tryMatch]
      | cons b d => cases atStart <;> simp [tryMatch]
  | cons a l ih =>
      cases d with
      | nil => simp [tryMatch]
      | cons b d =>
          rw [tryMatch, List.cons_prefix_cons]
          by_cases hab : a = b
          · rw [if_pos hab, ih]
            exact ⟨fun h => ⟨hab.symm, h⟩, And.right⟩
          · rw [if_neg hab]
            exact ⟨nofun, fun h => absurd h.1.symm hab⟩

theorem not_prefix_of_tryMatch {atStart : Bool} (h : tryMatch atStart l d = none)
    (hl : atStart = true → l ≠ []) (m : List α) : ¬ d <+: l ++ m := by
  induction l generalizing d atStart with
  | nil =>
      cases d with
      | nil => cases h
      | cons b d =>
          cases atStart with
          | true => exact absurd rfl (hl rfl)
          | false => cases h
  | cons a l ih =>
      cases d with
      | nil => cases h
      | cons b d =>
          rw [tryMatch] at h
          rw [List.cons_append, List.cons_prefix_cons]
          rintro ⟨hba, hrest⟩
          rw [if_pos hba.symm] at h
          exact ih h (fun hfalse => by cases hfalse) hrest

theorem length_lt_of_tryMatch {atStart : Bool} (h : tryMatch atStart l d = some false) :
    l.length < d.length := by
  induction l generalizing d atStart with
  | nil =>
      cases d with
      | nil => cases h
      | cons b d => exact Nat.succ_pos _
  | cons a l ih =>
      cases d with
      | nil => cases h
      | cons b d =>
          rw [tryMatch] at h
          split_ifs at h
          exact Nat.succ_lt_succ (ih h)

theorem partialSearch_of_match {a : α} {found : Bool}
    (h : tryMatch true (a :: l) d = some found) : partialSearch d (a :: l) = (0, found) := by
  rw [partialSearch, h]

theorem partialSearch_of_mismatch {a : α} (h : tryMatch true (a :: l) d = none) :
    partialSearch d (a :: l) = ((partialSearch d l).1 + 1, (partialSearch d l).2) := by
  rw [partialSearch, h]

theorem partialSearch_le (d l : List α) : (partialSearch d l).1 ≤ l.length := by
  induction l with
  | nil => exact Nat.le_refl 0
  | cons a l ih =>
      cases h : tryMatch true (a :: l) d with
      | some found =>
          rw [partialSearch_of_match h]
          exact Nat.zero_le _
      | none =>
          rw [partialSearch_of_mismatch h]
          exact Nat.succ_le_succ ih

theorem splitAfter_of_found (h : (partialSearch d l).2 = true) :
    splitAfter d l = some (l.take ((partialSearch d l).1 + d.length),
      l.drop ((partialSearch d l).1 + d.length)) := by
  induction l with
  | nil => cases h
  | cons a l ih =>
      cases htry : tryMatch true (a :: l) d with
      | some found =>
          rw [partialSearch_of_match htry] at h ⊢
          change found = true at h
          rw [h] at htry
          have hprefix := tryMatch_eq_some_true.mp htry
          rw [splitAfter, if_pos hprefix, Nat.zero_add]
          rw [← List.prefix_iff_eq_take.mp hprefix]
      | none =>
          rw [partialSearch_of_mismatch htry] at h ⊢
          have hprefix : ¬ d <+: a :: l := by
            simpa using not_prefix_of_tryMatch htry (fun _ => List.cons_ne_nil a l) []
          rw [splitAfter, if_neg hprefix, ih h]
          rw [Nat.add_right_comm]
          rfl

theorem partialSearch_add_le (h : (partialSearch d l).2 = true) :
    (partialSearch d l).1 + d.length ≤ l.length := by
  induction l with
  | nil => cases h
  | cons a l ih =>
      cases htry : tryMatch true (a :: l) d with
      | some found =>
          rw [partialSearch_of_match htry] at h ⊢
          change found = true at h
          rw [h] at htry
          rw [Nat.zero_add]
          exact (tryMatch_eq_some_true.mp htry).length_le
      | none =>
          rw [partialSearch_of_mismatch htry] at h ⊢
          have hle := ih h
          rw [List.length_cons]
          omega

theorem splitAfter_of_not_found (hd : d ≠ []) (h : (partialSearch d l).2 = false) :
    splitAfter d l = none := by
  induction l with
  | nil => rw [splitAfter, if_neg hd]
  | cons a l ih =>
      cases htry : tryMatch true (a :: l) d with
      | some found =>
          rw [partialSearch_of_match htry] at h
          change found = false at h
          rw [h] at htry
          exact splitAfter_of_length_lt (length_lt_of_tryMatch htry)
      | none =>
          rw [partialSearch_of_mismatch htry] at h
          have hprefix : ¬ d <+: a :: l := by
            simpa using not_prefix_of_tryMatch htry (fun _ => List.cons_ne_nil a l) []
          rw [splitAfter, if_neg hprefix, ih h]
          rfl

/-- Without a full match, a search of the longer sequence may start where this one ended. -/
theorem splitAfter_resume (h : (partialSearch d l).2 = false) (m : List α) :
    splitAfter d (l ++ m) = (splitAfter d (l.drop (partialSearch d l).1 ++ m)).map
      fun cut => (l.take (partialSearch d l).1 ++ cut.1, cut.2) := by
  induction l with
  | nil => exact Option.map_id'.symm
  | cons a l ih =>
      cases htry : tryMatch true (a :: l) d with
      | some found =>
          rw [partialSearch_of_match htry]
          exact Option.map_id'.symm
      | none =>
          rw [partialSearch_of_mismatch htry] at h ⊢
          have hprefix := not_prefix_of_tryMatch htry (fun _ => List.cons_ne_nil a l) m
          rw [List.cons_append] at hprefix ⊢
          rw [splitAfter, if_neg hprefix, ih h, Option.map_map]
          rfl

/-- No match starts before `position`, whatever follows `l`. -/
def SearchedTo (d l : List α) (position : Nat) : Prop :=
  position ≤ l.length ∧ ∀ m, splitAfter d (l ++ m) =
    (splitAfter d (l.drop position ++ m)).map fun cut => (l.take position ++ cut.1, cut.2)

theorem searchedTo_zero (d l : List α) : SearchedTo d l 0 :=
  ⟨Nat.zero_le _, fun _ => Option.map_id'.symm⟩

namespace SearchedTo

variable {position : Nat}

theorem splitAfter_eq (h : SearchedTo d l position) : splitAfter d l =
    (splitAfter d (l.drop position)).map fun cut => (l.take position ++ cut.1, cut.2) := by
  simpa using h.2 []

theorem append (h : SearchedTo d l position) (m : List α) : SearchedTo d (l ++ m) position := by
  refine ⟨h.1.trans (by rw [List.length_append]; exact Nat.le_add_right ..), fun n => ?_⟩
  rw [List.append_assoc, h.2, List.drop_append_of_le_length h.1, List.append_assoc,
    List.take_append_of_le_length h.1]

theorem resume (h : SearchedTo d l position)
    (hfound : (partialSearch d (l.drop position)).2 = false) :
    SearchedTo d l (position + (partialSearch d (l.drop position)).1) := by
  have hle := partialSearch_le d (l.drop position)
  rw [List.length_drop] at hle
  refine ⟨Nat.add_le_of_le_sub' h.1 hle, fun m => ?_⟩
  rw [h.2, splitAfter_resume hfound, Option.map_map, List.drop_drop]
  congr 1
  funext cut
  change (l.take position ++ (_ ++ cut.1), cut.2) = _
  rw [← List.append_assoc, ← List.take_add]

theorem eq_some (h : SearchedTo d l position)
    (hfound : (partialSearch d (l.drop position)).2 = true) :
    (splitAfter d l).map (fun cut => cut.1.length) =
      some (position + (partialSearch d (l.drop position)).1 + d.length) := by
  have hle := partialSearch_add_le hfound
  have hposition := h.1
  rw [List.length_drop] at hle
  rw [h.splitAfter_eq, splitAfter_of_found hfound]
  change some (List.length (_ ++ _)) = _
  rw [List.length_append, List.length_take, List.length_take, List.length_drop]
  congr 1
  omega

theorem eq_none (h : SearchedTo d l position) (hd : d ≠ [])
    (hfound : (partialSearch d (l.drop position)).2 = false) : splitAfter d l = none := by
  rw [h.splitAfter_eq, splitAfter_of_not_found hd hfound]
  rfl

end SearchedTo

end PartialSearch

/-! ## The operations -/

/-- `read_size_helper` for a vector of this capacity. -/
def readSizeHelper (sb : Streambuf) (capacity maxSize : Nat) : Nat :=
  min (max 512 (capacity - sb.size)) (min maxSize (sb.maxSize - sb.size))

def defaultMaxTransferSize : Nat := 65536

/-- `transfer_exactly_t` -/
def transferExactly (size : Nat) (ec : ErrorCode) (bytesTransferred : Nat) : Nat :=
  if ec.failed ∨ bytesTransferred ≥ size then 0
  else if size - bytesTransferred < defaultMaxTransferSize then size - bytesTransferred
  else defaultMaxTransferSize

inductive ComposedRead
  /-- `read_until_delim_string_op`; without a `searchPosition` the delimiter was `not_found`. -/
  | readUntil (delim : List UInt8) (searchPosition : Option Nat)
  /-- `read_streambuf_op` with `transfer_exactly(size)`. -/
  | readExactly (size totalTransferred : Nat)
  deriving DecidableEq, Repr

namespace ComposedRead

/-- From the top of the loop to the number of bytes the next `async_read_some` may read. -/
def check (sb : Streambuf) (capacity : Nat) (ec : ErrorCode) : ComposedRead → ComposedRead × Nat
  | readUntil delim searchPosition =>
      let start := searchPosition.getD 0
      let found := partialSearch delim (sb.data.drop start)
      if found.2 then (readUntil delim (some (start + found.1 + delim.length)), 0)
      else if sb.size = sb.maxSize then (readUntil delim none, 0)
      else (readUntil delim (some (start + found.1)), readSizeHelper sb capacity 65536)
  | readExactly size total =>
      (readExactly size total, readSizeHelper sb capacity (transferExactly size ec total))

/-- An `async_read_some` has transferred `n` bytes. -/
def transferred (n : Nat) : ComposedRead → ComposedRead
  | readUntil delim searchPosition => readUntil delim searchPosition
  | readExactly size total => readExactly size (total + n)

/-- The condition to leave the loop before the delimiter is searched again. -/
def leaves (ec : ErrorCode) (n : Nat) : ComposedRead → Bool
  | readUntil _ _ => ec.failed || n = 0
  | readExactly _ _ => !ec.failed && n = 0

def outcome (ec : ErrorCode) : ComposedRead → ErrorCode × Nat
  | readUntil _ none => (.other, 0)
  | readUntil _ (some position) => (ec, if ec.failed then 0 else position)
  | readExactly _ total => (ec, total)

def readOp : ComposedRead → ReadOp
  | readUntil delim _ => .readUntil delim
  | readExactly size total => .readExactly size (size - total)

end ComposedRead

/-- An outstanding `async_read_some` for at most `asked` bytes, or the call of the handler. -/
inductive Reading
  | waiting (sb : Streambuf) (op : ComposedRead) (asked : Nat)
  | completed (sb : Streambuf) (op : ComposedRead) (ec : ErrorCode) (length : Nat)
  deriving DecidableEq, Repr

namespace Reading

/-- Prepare the buffer and start `async_read_some`. -/
def readSome (sb : Streambuf) (checked : ComposedRead × Nat) :
    Except Streambuf.LengthError Reading :=
  (sb.reserve checked.2).map fun sb => .waiting sb checked.1 checked.2

/-- The first call of the operation, with `start` being 1. -/
def initiate (sb : Streambuf) (op : ComposedRead) (capacity : Nat) :
    Except Streambuf.LengthError Reading :=
  readSome sb (op.check sb capacity .success)

def complete (sb : Streambuf) (op : ComposedRead) (ec : ErrorCode) : Reading :=
  .completed sb op (op.outcome ec).1 (op.outcome ec).2

/-- The operation is called as the handler of `async_read_some`, which has stored `bytes`. -/
def resume (sb : Streambuf) (op : ComposedRead) (capacity : Nat) (ec : ErrorCode)
    (bytes : List UInt8) : Except Streambuf.LengthError Reading :=
  let op := op.transferred bytes.length
  let sb := (sb.store bytes).commit bytes.length
  if op.leaves ec bytes.length then .ok (complete sb op ec)
  else
    let checked := op.check sb capacity ec
    if checked.2 = 0 then .ok (complete sb checked.1 ec) else readSome sb checked

end Reading

/-! ## What a waiting operation knows -/

namespace ComposedRead

variable {sb : Streambuf} {data : List UInt8} {capacity n : Nat}

/-- What holds of an operation between two searches: a delimiter is not in the data yet, up to the
search position for good, and no more has been transferred than was wanted. -/
def Sound (data : List UInt8) : ComposedRead → Prop
  | readUntil delim searchPosition =>
      delim ≠ [] ∧ ∃ position, searchPosition = some position ∧ SearchedTo delim data position
  | readExactly size total => total ≤ size

theorem Sound.transferred {op : ComposedRead} (h : op.Sound data) {bytes : List UInt8}
    (haccepts : op.readOp.accepts bytes.length = true) :
    (op.transferred bytes.length).Sound (data ++ bytes) := by
  cases op with
  | readUntil delim searchPosition =>
      obtain ⟨hdelim, position, hposition, hsearched⟩ := h
      exact ⟨hdelim, position, hposition, hsearched.append bytes⟩
  | readExactly size total =>
      have hle : bytes.length ≤ size - total := of_decide_eq_true haccepts
      have htotal : total ≤ size := h
      change total + bytes.length ≤ size
      omega

theorem readOp_transferred (op : ComposedRead) (n : Nat) :
    (op.transferred n).readOp = op.readOp.advance n := by
  cases op with
  | readUntil delim searchPosition => rfl
  | readExactly size total =>
      change ReadOp.readExactly size (size - (total + n)) = .readExactly size (size - total - n)
      rw [Nat.sub_add_eq]

/-- What `check` decides: the operation completes with the length for which the read is ready, or
the next `async_read_some` may read as many bytes as the read accepts. -/
structure Checked (sb : Streambuf) (op : ComposedRead) (checked : ComposedRead × Nat) : Prop where
  readOp_eq : checked.1.readOp = op.readOp
  size_add_le : sb.size + checked.2 ≤ sb.maxSize
  ready_of_zero : checked.2 = 0 → ∃ length, op.readOp.ready sb.data = some length ∧
    checked.1.outcome .success = (.success, length)
  unready_of_pos : checked.2 ≠ 0 → op.readOp.ready sb.data = none
  accepts : ∀ n ≤ checked.2, op.readOp.accepts n = true
  sound : checked.2 ≠ 0 → checked.1.Sound sb.data

theorem readSizeHelper_le (sb : Streambuf) (capacity maxSize : Nat) :
    readSizeHelper sb capacity maxSize ≤ maxSize ∧
      readSizeHelper sb capacity maxSize ≤ sb.maxSize - sb.size := by
  unfold readSizeHelper
  omega

theorem readSizeHelper_eq_zero {maxSize : Nat} (hfull : sb.size < sb.maxSize) :
    readSizeHelper sb capacity maxSize = 0 ↔ maxSize = 0 := by
  unfold readSizeHelper
  omega

theorem transferExactly_le (size : Nat) (ec : ErrorCode) (total : Nat) :
    transferExactly size ec total ≤ size - total := by
  unfold transferExactly
  split_ifs <;> omega

theorem transferExactly_eq_zero {size total : Nat} :
    transferExactly size .success total = 0 ↔ size - total = 0 := by
  unfold transferExactly
  rw [ErrorCode.failed]
  simp only [ne_eq, not_true_eq_false, decide_false, Bool.false_eq_true, false_or]
  by_cases hdone : total ≥ size
  · rw [if_pos hdone, Nat.sub_eq_zero_of_le hdone]
  · rw [if_neg hdone]
    split_ifs with hlast
    · exact Iff.rfl
    · have hmax : defaultMaxTransferSize = 65536 := rfl
      omega

theorem Sound.check {op : ComposedRead} (h : op.Sound sb.data) (hfull : sb.size < sb.maxSize)
    (capacity : Nat) : Checked sb op (op.check sb capacity .success) := by
  cases op with
  | readUntil delim searchPosition =>
      obtain ⟨hdelim, position, rfl, hsearched⟩ := h
      cases hfound : (partialSearch delim (sb.data.drop position)).2 with
      | true =>
          have hcheck : (readUntil delim (some position)).check sb capacity .success =
              (readUntil delim (some (position + (partialSearch delim (sb.data.drop position)).1 +
                delim.length)), 0) := by
            unfold ComposedRead.check
            dsimp only [Option.getD_some]
            rw [if_pos hfound]
          rw [hcheck]
          exact {
            readOp_eq := rfl
            size_add_le := hfull.le
            ready_of_zero := fun _ => ⟨_, hsearched.eq_some hfound, rfl⟩
            unready_of_pos := fun hpos => absurd rfl hpos
            accepts := fun _ _ => rfl
            sound := fun hpos => absurd rfl hpos }
      | false =>
          have hcheck : (readUntil delim (some position)).check sb capacity .success =
              (readUntil delim (some (position + (partialSearch delim (sb.data.drop position)).1)),
                readSizeHelper sb capacity 65536) := by
            unfold ComposedRead.check
            dsimp only [Option.getD_some]
            rw [if_neg (by rw [hfound]; exact Bool.false_ne_true), if_neg hfull.ne]
          have hle := (readSizeHelper_le sb capacity 65536).2
          rw [hcheck]
          exact {
            readOp_eq := rfl
            size_add_le := by omega
            ready_of_zero := fun hzero =>
              absurd ((readSizeHelper_eq_zero hfull).mp hzero) (by decide)
            unready_of_pos := fun _ => by
              change (splitAfter delim sb.data).map _ = none
              rw [hsearched.eq_none hdelim hfound]
              rfl
            accepts := fun _ _ => rfl
            sound := fun _ => ⟨hdelim, _, rfl, hsearched.resume hfound⟩ }
  | readExactly size total =>
      have hle := readSizeHelper_le sb capacity (transferExactly size .success total)
      have htransfer := transferExactly_le size .success total
      have htotal : total ≤ size := h
      have hzero : readSizeHelper sb capacity (transferExactly size .success total) = 0 ↔
          size - total = 0 := (readSizeHelper_eq_zero hfull).trans transferExactly_eq_zero
      exact {
        readOp_eq := rfl
        size_add_le := by
          change sb.size + readSizeHelper sb capacity _ ≤ _
          omega
        ready_of_zero := fun hnone => by
          have hdone := hzero.mp hnone
          have hsame : total = size := htotal.antisymm (Nat.sub_eq_zero_iff_le.mp hdone)
          exact ⟨size, if_pos hdone, congrArg (Prod.mk ErrorCode.success) hsame⟩
        unready_of_pos := fun hsome => if_neg fun hdone => hsome (hzero.mpr hdone)
        accepts := fun n hn => decide_eq_true ((hn.trans hle.1).trans htransfer)
        sound := fun _ => htotal }

end ComposedRead

/-! ## A composed read on a socket -/

inductive Transfer
  /-- It has read `n` bytes; the vector of the streambuf has this capacity. -/
  | done (n capacity : Nat)
  | failed (ec : ErrorCode)
  deriving DecidableEq, Repr

namespace Reading

def streambuf : Reading → Streambuf
  | waiting sb _ _ => sb
  | completed sb _ _ _ => sb

def op : Reading → ComposedRead
  | waiting _ op _ => op
  | completed _ op _ _ => op

/-- A read, with the bytes of the peer that it has not taken yet.  An `async_read_some` for no bytes
completes at once, also on a closed socket, another one with at least one byte, or with an error:
the end of the stream only when nothing is left of it. -/
def step (isOpen : Bool) (s : Reading × List UInt8) : Transfer → Option (Reading × List UInt8)
  | .done n capacity =>
      match s.1 with
      | completed .. => none
      | waiting sb op asked =>
          if n ≤ asked ∧ n ≤ s.2.length ∧ (n = 0 ↔ asked = 0) ∧ (n = 0 ∨ isOpen) then
            (resume sb op capacity .success (s.2.take n)).toOption.map fun r => (r, s.2.drop n)
          else none
  | .failed ec =>
      match s.1 with
      | completed .. => none
      | waiting sb op asked =>
          if ec.failed ∧ (ec = .eof → isOpen ∧ s.2 = [] ∧ asked ≠ 0) then
            (resume sb op 0 ec []).toOption.map fun r => (r, s.2)
          else none

/-- What the handler of a completed read is told is true, and a waiting one is not ready, unless all
that it waits for is an `async_read_some` for no bytes. -/
inductive Truthful (isOpen : Bool) (unread : List UInt8) : Reading → Prop
  | waiting {sb : Streambuf} {op : ComposedRead} {asked : Nat}
      (hroom : asked ≤ sb.room) (hroomy : sb.size + unread.length < sb.maxSize)
      (hready : asked = 0 → ∃ length, op.readOp.ready sb.data = some length ∧
        op.outcome .success = (.success, length))
      (hunready : asked ≠ 0 → op.readOp.ready sb.data = none)
      (haccepts : ∀ n ≤ asked, op.readOp.accepts n = true)
      (hsound : asked ≠ 0 → op.Sound sb.data) : Truthful isOpen unread (.waiting sb op asked)
  | succeeded {sb : Streambuf} {op : ComposedRead} {length : Nat}
      (hready : op.readOp.ready sb.data = some length) :
      Truthful isOpen unread (.completed sb op .success length)
  | failed {sb : Streambuf} {op : ComposedRead} {ec : ErrorCode} (hfailed : ec.failed = true)
      (heof : ec = .eof → isOpen = true ∧ unread = [] ∧ op.readOp.ready sb.data = none) :
      Truthful isOpen unread (.completed sb op ec op.readOp.failedLength)

theorem exists_readSome {sb : Streambuf} {op : ComposedRead} {checked : ComposedRead × Nat}
    {isOpen : Bool} {unread : List UInt8} (h : ComposedRead.Checked sb op checked)
    (hroomy : sb.size + unread.length < sb.maxSize) :
    ∃ r, readSome sb checked = .ok r ∧ Truthful isOpen unread r ∧ r.streambuf.data = sb.data ∧
      r.op.readOp = op.readOp := by
  obtain ⟨sb', hreserve, hdata, hmax⟩ := Streambuf.reserve_of_le h.size_add_le
  have hsize : sb'.1.size = sb.size := by
    rw [← Streambuf.length_data, ← Streambuf.length_data, hdata]
  refine ⟨.waiting sb' checked.1 checked.2, ?_, ?_, hdata, h.readOp_eq⟩
  · unfold readSome
    rw [hreserve]
    rfl
  · apply Truthful.waiting
    · exact sb'.2
    · rw [hsize, hmax]
      exact hroomy
    · rw [h.readOp_eq, hdata]
      exact h.ready_of_zero
    · rw [h.readOp_eq, hdata]
      exact h.unready_of_pos
    · rw [h.readOp_eq]
      exact h.accepts
    · rw [hdata]
      exact h.sound

theorem exists_initiate {sb : Streambuf} {op : ComposedRead} {unread : List UInt8}
    (hsound : op.Sound sb.data) (hroomy : sb.size + unread.length < sb.maxSize) (isOpen : Bool)
    (capacity : Nat) :
    ∃ r, initiate sb op capacity = .ok r ∧ Truthful isOpen unread r ∧ r.streambuf.data = sb.data ∧
      r.op.readOp = op.readOp :=
  exists_readSome (hsound.check (by omega) capacity) hroomy

section Resume

variable {sb : Streambuf} {op : ComposedRead} {asked : Nat} {isOpen : Bool}
  {unread : List UInt8}

theorem resume_of_leaves {capacity : Nat} {ec : ErrorCode} {bytes : List UInt8}
    (h : (op.transferred bytes.length).leaves ec bytes.length = true) :
    resume sb op capacity ec bytes = .ok (complete ((sb.store bytes).commit bytes.length)
      (op.transferred bytes.length) ec) := by
  unfold resume
  dsimp only
  rw [if_pos h]

theorem resume_of_none (h : Truthful isOpen unread (.waiting sb op 0)) (capacity : Nat) :
    ∃ length, resume sb op capacity .success [] =
        .ok (.completed ((sb.store []).commit 0) op .success length) ∧
      op.readOp.ready sb.data = some length := by
  cases h with
  | waiting hroom hroomy hready hunready haccepts hsound =>
      obtain ⟨length, hlength, houtcome⟩ := hready rfl
      refine ⟨length, ?_, hlength⟩
      have hsame : op.transferred 0 = op := by cases op <;> rfl
      have hleaves : (op.transferred ([] : List UInt8).length).leaves .success
          ([] : List UInt8).length = true := by cases op <;> rfl
      rw [resume_of_leaves hleaves]
      unfold complete
      rw [List.length_nil, hsame, houtcome]

theorem exists_resume (h : Truthful isOpen unread (.waiting sb op asked)) {n : Nat} (hn : n ≠ 0)
    (hasked : n ≤ asked) (hle : n ≤ unread.length) (capacity : Nat) :
    ∃ r, resume sb op capacity .success (unread.take n) = .ok r ∧
      Truthful isOpen (unread.drop n) r ∧ r.streambuf.data = sb.data ++ unread.take n ∧
      r.op.readOp = op.readOp.advance n := by
  obtain ⟨bytes, hbytes⟩ : ∃ bytes, bytes = unread.take n := ⟨_, rfl⟩
  have hlength : bytes.length = n := by rw [hbytes, List.length_take, Nat.min_eq_left hle]
  cases h with
  | waiting hroom hroomy hready hunready haccepts hsound =>
      obtain ⟨sb', hsb'⟩ : ∃ sb', sb' = (sb.store bytes).commit bytes.length := ⟨_, rfl⟩
      have hdata : sb'.data = sb.data ++ bytes := by
        rw [hsb']
        exact Streambuf.data_commit_store (by omega)
      have hsize : sb'.size = sb.size + n := by
        rw [← Streambuf.length_data, hdata, List.length_append, Streambuf.length_data, hlength]
      have hmax : sb'.maxSize = sb.maxSize := by rw [hsb']; rfl
      have hroomy' : sb'.size + (unread.drop n).length < sb'.maxSize := by
        rw [hsize, hmax, List.length_drop]
        omega
      have hsound' : (op.transferred n).Sound sb'.data := by
        rw [hdata, ← hlength]
        exact (hsound (by omega)).transferred (haccepts _ (by omega))
      have hchecked := hsound'.check (by omega) capacity
      have hadvance := op.readOp_transferred n
      have hleaves : ¬ (op.transferred n).leaves .success n = true := by
        cases op <;> simp [ComposedRead.transferred, ComposedRead.leaves, ErrorCode.failed, hn]
      rw [← hbytes, ← hdata]
      unfold resume
      dsimp only
      rw [hlength, if_neg hleaves, ← hlength, ← hsb', hlength]
      split_ifs with hzero
      · obtain ⟨length, hlength, houtcome⟩ := hchecked.ready_of_zero hzero
        refine ⟨_, rfl, ?_, rfl, hchecked.readOp_eq.trans hadvance⟩
        unfold complete
        rw [houtcome]
        exact .succeeded (by rw [hchecked.readOp_eq]; exact hlength)
      · obtain ⟨r, hr, htruthful, hrdata, hrop⟩ := exists_readSome hchecked hroomy'
        exact ⟨r, hr, htruthful, hrdata, hrop.trans hadvance⟩

theorem exists_resume_failed (h : Truthful isOpen unread (.waiting sb op asked)) {ec : ErrorCode}
    (hec : ec.failed = true) (heof : ec = .eof → isOpen = true ∧ unread = [] ∧ asked ≠ 0) :
    ∃ r, resume sb op 0 ec [] = .ok r ∧ Truthful isOpen unread r ∧ r.streambuf.data = sb.data ∧
      r.op.readOp = op.readOp := by
  cases h with
  | waiting hroom hroomy hready hunready haccepts hsound =>
      have hdata : ((sb.store []).commit 0).data = sb.data := sb.data_commit_store_nil
      have hcompleted : Truthful isOpen unread
          (.completed ((sb.store []).commit 0) op ec op.readOp.failedLength) := by
        refine .failed hec fun h => ?_
        obtain ⟨hopen, hunread, hasked⟩ := heof h
        exact ⟨hopen, hunread, by rw [hdata]; exact hunready hasked⟩
      cases op with
      | readUntil delim searchPosition =>
          have hleaves : ((ComposedRead.readUntil delim searchPosition).transferred
              ([] : List UInt8).length).leaves ec ([] : List UInt8).length = true := by
            simp [ComposedRead.transferred, ComposedRead.leaves]
          refine ⟨_, resume_of_leaves hleaves, ?_, hdata, rfl⟩
          cases searchPosition with
          | none =>
              exfalso
              by_cases hasked : asked = 0
              · obtain ⟨length, -, houtcome⟩ := hready hasked
                cases houtcome
              · obtain ⟨-, position, hposition, -⟩ := hsound hasked
                cases hposition
          | some position =>
              have hnothing : (if ec.failed then 0 else position) = 0 := if_pos hec
              unfold complete
              dsimp only [ComposedRead.transferred, ComposedRead.outcome, List.length_nil]
              rw [hnothing]
              exact hcompleted
      | readExactly size total =>
          have htotal : total ≤ size := by
            by_cases hasked : asked = 0
            · obtain ⟨length, hlength, houtcome⟩ := hready hasked
              obtain rfl : total = length := congrArg Prod.snd houtcome
              change (if size - total = 0 then some size else none) = some total at hlength
              split_ifs at hlength
              exact (Option.some.inj hlength).ge
            · exact hsound hasked
          have hleaves : ¬ (ComposedRead.readExactly size (total + 0)).leaves ec 0 = true := by
            simp [ComposedRead.leaves, hec]
          have hstop : transferExactly size ec (total + 0) = 0 := if_pos (.inl hec)
          have hle := (ComposedRead.readSizeHelper_le ((sb.store []).commit 0) 0
            (transferExactly size ec (total + 0))).1
          have hlength : (ComposedRead.readExactly size total).readOp.failedLength = total :=
            Nat.sub_sub_self htotal
          refine ⟨.completed ((sb.store []).commit 0) (.readExactly size total) ec total, ?_, ?_,
            hdata, rfl⟩
          · unfold resume
            dsimp only [List.length_nil, ComposedRead.transferred]
            rw [if_neg hleaves]
            exact if_pos (Nat.le_zero.mp (hle.trans hstop.le))
          · rw [hlength] at hcompleted
            exact hcompleted

end Resume

end Reading

end BtcServer.Boost
