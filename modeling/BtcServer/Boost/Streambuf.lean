import BtcServer.Boost.Asio
import BtcServer.Lib.Run

/-!
# `basic_streambuf`

A streambuf keeps its bytes in one vector; the get area and the put area are pointers into it, here
offsets from its first element.  `eback` and `pbase` are left out, nothing moves or reads them.
`ByteQueue` is the queue of bytes that a streambuf is for, and `exec_eq` says that a streambuf is
one: for every sequence of operations, up to the first that throws, the same bytes come out, and
`length_error` is thrown exactly where the bytes would exceed `max_size`.  What a throw leaves in
the streambuf is not compared.
-/

namespace BtcServer.Boost

open Lib

/-- Store bytes one behind the other from an offset on. -/
def storeAt : List UInt8 → Nat → List UInt8 → List UInt8
  | buffer, _, [] => buffer
  | buffer, i, c :: bytes => storeAt (buffer.set i c) (i + 1) bytes

@[simp] theorem length_storeAt (buffer : List UInt8) (i : Nat) (bytes : List UInt8) :
    (storeAt buffer i bytes).length = buffer.length := by
  induction bytes generalizing buffer i with
  | nil => rfl
  | cons c bytes ih => rw [storeAt, ih, List.length_set]

theorem take_storeAt {buffer bytes : List UInt8} {i : Nat}
    (hroom : i + bytes.length ≤ buffer.length) :
    (storeAt buffer i bytes).take (i + bytes.length) = buffer.take i ++ bytes := by
  induction bytes generalizing buffer i with
  | nil => simp [storeAt]
  | cons c bytes ih =>
      rw [List.length_cons] at hroom
      have hi : i < buffer.length := by omega
      have hstored : (buffer.set i c).take (i + 1) = buffer.take i ++ [c] := by
        rw [List.take_add_one, List.take_set_of_le (Nat.le_refl i), List.getElem?_set_self hi]
        rfl
      rw [storeAt, List.length_cons, show i + (bytes.length + 1) = i + 1 + bytes.length by omega,
        ih (by rw [List.length_set]; omega), hstored, List.append_assoc]
      rfl

/-- `memmove` of the `n` bytes at an offset to the start of the storage. -/
def moveToFront (buffer : List UInt8) (offset n : Nat) : List UInt8 :=
  (buffer.drop offset).take n ++ buffer.drop n

theorem length_moveToFront {buffer : List UInt8} {offset n : Nat}
    (h : offset + n ≤ buffer.length) : (moveToFront buffer offset n).length = buffer.length := by
  unfold moveToFront
  rw [List.length_append, List.length_take, List.length_drop, List.length_drop]
  omega

theorem take_moveToFront {buffer : List UInt8} {offset n : Nat} (h : offset + n ≤ buffer.length) :
    (moveToFront buffer offset n).take n = (buffer.drop offset).take n := by
  unfold moveToFront
  rw [List.take_append_of_le_length (by rw [List.length_take, List.length_drop]; omega),
    List.take_take, Nat.min_self]

theorem take_resize {s : List UInt8} {m n : Nat} (hmn : m ≤ n) (hms : m ≤ s.length) :
    (resize s n).take m = s.take m := by
  unfold resize
  rw [List.take_append_of_le_length (by rw [List.length_take]; omega), List.take_take,
    Nat.min_eq_left hmn]

def bufferDelta : Nat := 128

structure Streambuf where
  maxSize : Nat
  buffer : List UInt8
  gptr : Nat
  egptr : Nat
  pptr : Nat
  epptr : Nat
  gptr_le : gptr ≤ egptr
  egptr_le : egptr ≤ pptr
  pptr_le : pptr ≤ epptr
  epptr_le : epptr ≤ buffer.length
  epptr_le_maxSize : epptr ≤ maxSize
  deriving DecidableEq, Repr

namespace Streambuf

def create (maxSize : Nat) : Streambuf where
  maxSize := maxSize
  buffer := resize [] (max (min maxSize bufferDelta) 1)
  gptr := 0
  egptr := 0
  pptr := 0
  epptr := min maxSize bufferDelta
  gptr_le := Nat.le_refl 0
  egptr_le := Nat.le_refl 0
  pptr_le := Nat.zero_le _
  epptr_le := by rw [length_resize]; exact Nat.le_max_left ..
  epptr_le_maxSize := Nat.min_le_left ..

def size (sb : Streambuf) : Nat := sb.pptr - sb.gptr

/-- The input sequence. -/
def data (sb : Streambuf) : List UInt8 := (sb.buffer.drop sb.gptr).take sb.size

/-- The bytes that can be stored before the put area has to be enlarged. -/
def room (sb : Streambuf) : Nat := sb.epptr - sb.pptr

theorem gptr_add_size (sb : Streambuf) : sb.gptr + sb.size = sb.pptr :=
  Nat.add_sub_cancel' (sb.gptr_le.trans sb.egptr_le)

theorem pptr_add_room (sb : Streambuf) : sb.pptr + sb.room = sb.epptr :=
  Nat.add_sub_cancel' sb.pptr_le

theorem pptr_le_length (sb : Streambuf) : sb.pptr ≤ sb.buffer.length :=
  sb.pptr_le.trans sb.epptr_le

theorem size_add_room_le (sb : Streambuf) : sb.size + sb.room ≤ sb.maxSize := by
  have hsize := sb.gptr_add_size
  have hroom := sb.pptr_add_room
  have hmax := sb.epptr_le_maxSize
  omega

theorem gptr_add_size_le (sb : Streambuf) : sb.gptr + sb.size ≤ sb.buffer.length :=
  sb.gptr_add_size.trans_le sb.pptr_le_length

theorem length_data (sb : Streambuf) : sb.data.length = sb.size := by
  have hsize := sb.gptr_add_size
  have hlength := sb.pptr_le_length
  unfold data
  rw [List.length_take, List.length_drop]
  omega

theorem data_eq (sb : Streambuf) : sb.data = (sb.buffer.take sb.pptr).drop sb.gptr := by
  unfold data size
  rw [List.drop_take]

theorem data_create (maxSize : Nat) : (create maxSize).data = [] := by
  apply List.eq_nil_of_length_eq_zero
  rw [length_data]
  rfl

/-- What `reserve` throws, with the streambuf as it leaves it. -/
abbrev LengthError := String × Streambuf

/-- `reserve`: the contents are moved to the front, and the storage grows when that is not enough.
With `gptr` at the front already the move is the identity. -/
def reserve (sb : Streambuf) (n : Nat) : Except LengthError { sb' : Streambuf // n ≤ sb'.room } :=
  if hroom : n ≤ sb.room then .ok ⟨sb, hroom⟩
  else
    if hgrow : n > sb.epptr - sb.size then
      if hmax : n ≤ sb.maxSize ∧ sb.size ≤ sb.maxSize - n then
        .ok ⟨{
          maxSize := sb.maxSize
          buffer := resize (moveToFront sb.buffer sb.gptr sb.size) (max (sb.size + n) 1)
          gptr := 0
          egptr := sb.size
          pptr := sb.size
          epptr := sb.size + n
          gptr_le := Nat.zero_le _
          egptr_le := Nat.le_refl _
          pptr_le := Nat.le_add_right ..
          epptr_le := by rw [length_resize]; exact Nat.le_max_left ..
          epptr_le_maxSize := by omega }, Nat.le_sub_of_add_le' (Nat.le_refl _)⟩
      else
        .error ("boost::asio::streambuf too long",
          { sb with
            buffer := moveToFront sb.buffer sb.gptr sb.size
            epptr_le := by rw [length_moveToFront sb.gptr_add_size_le]; exact sb.epptr_le })
    else
      .ok ⟨{
        maxSize := sb.maxSize
        buffer := moveToFront sb.buffer sb.gptr sb.size
        gptr := 0
        egptr := sb.size
        pptr := sb.size
        epptr := sb.epptr
        gptr_le := Nat.zero_le _
        egptr_le := Nat.le_refl _
        pptr_le := (Nat.sub_le ..).trans sb.pptr_le
        epptr_le := by rw [length_moveToFront sb.gptr_add_size_le]; exact sb.epptr_le
        epptr_le_maxSize := sb.epptr_le_maxSize }, Nat.le_of_not_lt hgrow⟩

/-- The bytes that arrive in the prepared region. -/
def store (sb : Streambuf) (bytes : List UInt8) : Streambuf :=
  { sb with
    buffer := storeAt sb.buffer sb.pptr bytes
    epptr_le := by rw [length_storeAt]; exact sb.epptr_le }

def commit (sb : Streambuf) (n : Nat) : Streambuf :=
  let pptr := min (sb.pptr + n) sb.epptr
  { sb with
    egptr := pptr
    pptr := pptr
    gptr_le := (sb.gptr_le.trans sb.egptr_le).trans
      (Nat.le_min.mpr ⟨Nat.le_add_right .., sb.pptr_le⟩)
    egptr_le := Nat.le_refl _
    pptr_le := Nat.min_le_right .. }

/-- A read operation prepares `n` bytes, stores what it got and commits it. -/
def receive (sb : Streambuf) (n : Nat) (bytes : List UInt8) : Except LengthError Streambuf :=
  (sb.reserve n).map fun sb => (sb.1.store bytes).commit bytes.length

def consume (sb : Streambuf) (n : Nat) : Streambuf :=
  { sb with
    gptr := min (sb.gptr + n) sb.pptr
    egptr := sb.pptr
    gptr_le := Nat.min_le_right ..
    egptr_le := Nat.le_refl _ }

/-- `*pptr() = c; pbump(1)` -/
def putChar (sb : Streambuf) (h : 0 < sb.room) (c : UInt8) : Streambuf :=
  { sb with
    buffer := sb.buffer.set sb.pptr c
    pptr := sb.pptr + 1
    egptr_le := sb.egptr_le.trans (Nat.le_succ _)
    pptr_le := Nat.lt_of_sub_pos h
    epptr_le := by rw [List.length_set]; exact sb.epptr_le }

/-- How much `overflow` reserves. -/
def increment (sb : Streambuf) : Nat :=
  if sb.size < sb.maxSize ∧ sb.maxSize - sb.size < bufferDelta then sb.maxSize - sb.size
  else bufferDelta

theorem increment_pos (sb : Streambuf) : 0 < sb.increment := by
  unfold increment
  split_ifs with h
  · exact Nat.sub_pos_of_lt h.1
  · decide

def overflow (sb : Streambuf) (c : UInt8) : Except LengthError Streambuf :=
  if h : 0 < sb.room then .ok (sb.putChar h c)
  else (sb.reserve sb.increment).map fun sb' => sb'.1.putChar (sb.increment_pos.trans_le sb'.2) c

def sputc (sb : Streambuf) (c : UInt8) : Except LengthError Streambuf :=
  if h : 0 < sb.room then .ok (sb.putChar h c) else sb.overflow c

/-- `std::streambuf::sputn`, as if by repeated calls of `sputc`. -/
def sputn (sb : Streambuf) : List UInt8 → Except LengthError Streambuf
  | [] => .ok sb
  | c :: bytes => (sb.sputc c).bind fun sb => sb.sputn bytes

def underflow (sb : Streambuf) : Option UInt8 × Streambuf :=
  if sb.gptr < sb.pptr then
    (sb.buffer[sb.gptr]?,
      { sb with
        egptr := sb.pptr
        gptr_le := sb.gptr_le.trans sb.egptr_le
        egptr_le := Nat.le_refl _ })
  else (none, sb)

/-- `gbump(1)`, within the get area. -/
def bump (sb : Streambuf) : Streambuf :=
  { sb with
    gptr := min (sb.gptr + 1) sb.egptr
    gptr_le := Nat.min_le_right .. }

/-- `std::streambuf::sbumpc`; behind the get area it calls `uflow`, which calls `underflow`. -/
def sbumpc (sb : Streambuf) : Option UInt8 × Streambuf :=
  if sb.gptr < sb.egptr then (sb.buffer[sb.gptr]?, sb.bump)
  else
    match sb.underflow with
    | (none, sb) => (none, sb)
    | (some c, sb) => (some c, sb.bump)

/-- `std::streambuf::sgetn`, as if by repeated calls of `sbumpc`. -/
def sgetn (sb : Streambuf) : Nat → List UInt8 × Streambuf
  | 0 => ([], sb)
  | n + 1 =>
      match sb.sbumpc with
      | (none, sb) => ([], sb)
      | (some c, sb) => (c :: (sb.sgetn n).1, (sb.sgetn n).2)

/-! ## What the operations do to the input sequence -/

theorem reserve_of_le {sb : Streambuf} {n : Nat} (h : sb.size + n ≤ sb.maxSize) :
    ∃ sb', sb.reserve n = .ok sb' ∧ sb'.1.data = sb.data ∧ sb'.1.maxSize = sb.maxSize := by
  have hfront := sb.gptr_add_size_le
  unfold reserve
  split_ifs with hroom hgrow hmax
  · exact ⟨_, rfl, rfl, rfl⟩
  · refine ⟨_, rfl, ?_, rfl⟩
    have hlength := length_moveToFront hfront
    change (List.drop 0 (resize _ _)).take (sb.size - 0) = sb.data
    rw [List.drop_zero, Nat.sub_zero, take_resize (by omega) (by omega), take_moveToFront hfront]
    rfl
  · exact absurd ⟨by omega, by omega⟩ hmax
  · refine ⟨_, rfl, ?_, rfl⟩
    change (List.drop 0 (moveToFront _ _ _)).take (sb.size - 0) = sb.data
    rw [List.drop_zero, Nat.sub_zero, take_moveToFront hfront]
    rfl

theorem reserve_of_lt {sb : Streambuf} {n : Nat} (h : sb.maxSize < sb.size + n) :
    ∃ e, sb.reserve n = .error e := by
  have hsize := sb.size_add_room_le
  have hepptr := sb.epptr_le_maxSize
  unfold reserve
  split_ifs with hroom hgrow hmax
  · omega
  · omega
  · exact ⟨_, rfl⟩
  · omega

theorem data_commit_store {sb : Streambuf} {bytes : List UInt8} (h : bytes.length ≤ sb.room) :
    ((sb.store bytes).commit bytes.length).data = sb.data ++ bytes := by
  have hroom := sb.pptr_add_room
  have hlength := sb.epptr_le
  have hpptr : ((sb.store bytes).commit bytes.length).pptr = sb.pptr + bytes.length :=
    Nat.min_eq_left (show sb.pptr + bytes.length ≤ sb.epptr by omega)
  have hgptr := sb.gptr_add_size
  rw [data_eq, data_eq, hpptr]
  change ((storeAt sb.buffer sb.pptr bytes).take _).drop sb.gptr = _
  rw [take_storeAt (by omega), List.drop_append_of_le_length]
  rw [List.length_take]
  omega

theorem data_commit_store_nil (sb : Streambuf) : ((sb.store []).commit 0).data = sb.data :=
  (data_commit_store (Nat.zero_le _)).trans (List.append_nil _)

theorem data_consume (sb : Streambuf) (n : Nat) : (sb.consume n).data = Boost.consume sb.data n := by
  have hsize := sb.gptr_add_size
  have hlength := sb.pptr_le_length
  rw [data_eq, data_eq]
  change (sb.buffer.take sb.pptr).drop (min (sb.gptr + n) sb.pptr) = _
  unfold Boost.consume
  rw [List.drop_drop]
  by_cases h : sb.gptr + n ≤ sb.pptr
  · rw [Nat.min_eq_left h]
  · rw [Nat.min_eq_right (by omega), List.drop_of_length_le, List.drop_of_length_le]
    all_goals
      rw [List.length_take]
      omega

theorem data_putChar (sb : Streambuf) (h : 0 < sb.room) (c : UInt8) :
    (sb.putChar h c).data = sb.data ++ [c] := by
  have hroom := sb.pptr_add_room
  have hlength := sb.epptr_le
  have hgptr := sb.gptr_add_size
  have hone : sb.pptr + [c].length ≤ sb.buffer.length := by
    rw [List.length_singleton]
    omega
  have hstored : (storeAt sb.buffer sb.pptr [c]).take (sb.pptr + 1) =
      sb.buffer.take sb.pptr ++ [c] := take_storeAt hone
  rw [data_eq, data_eq]
  change ((storeAt sb.buffer sb.pptr [c]).take (sb.pptr + 1)).drop sb.gptr = _
  rw [hstored, List.drop_append_of_le_length]
  rw [List.length_take]
  omega

theorem sputc_of_lt {sb : Streambuf} (h : sb.size < sb.maxSize) (c : UInt8) :
    ∃ sb', sb.sputc c = .ok sb' ∧ sb'.data = sb.data ++ [c] ∧ sb'.maxSize = sb.maxSize := by
  unfold sputc overflow
  split_ifs with hroom
  · exact ⟨_, rfl, data_putChar sb hroom c, rfl⟩
  · have hfits : sb.size + sb.increment ≤ sb.maxSize := by
      unfold increment
      split_ifs with hlast <;> omega
    obtain ⟨sb', hreserve, hdata, hmax⟩ := reserve_of_le hfits
    rw [hreserve]
    exact ⟨_, rfl, (data_putChar _ _ c).trans (by rw [hdata]), hmax⟩

theorem sputc_of_le {sb : Streambuf} (h : sb.maxSize ≤ sb.size) (c : UInt8) :
    ∃ e, sb.sputc c = .error e := by
  have hsize := sb.size_add_room_le
  have hincrement := sb.increment_pos
  unfold sputc overflow
  have hfull : sb.maxSize < sb.size + sb.increment := by omega
  obtain ⟨e, he⟩ := reserve_of_lt hfull
  rw [dif_neg (by omega), dif_neg (by omega), he]
  exact ⟨e, rfl⟩

theorem sputn_of_le {sb : Streambuf} {bytes : List UInt8}
    (h : sb.size + bytes.length ≤ sb.maxSize) :
    ∃ sb', sb.sputn bytes = .ok sb' ∧ sb'.data = sb.data ++ bytes ∧ sb'.maxSize = sb.maxSize := by
  induction bytes generalizing sb with
  | nil => exact ⟨sb, rfl, (List.append_nil _).symm, rfl⟩
  | cons c bytes ih =>
      rw [List.length_cons] at h
      have hlt : sb.size < sb.maxSize := by omega
      obtain ⟨sb₁, hput, hdata, hmax⟩ := sputc_of_lt hlt c
      have hsize : sb₁.size = sb.size + 1 := by
        rw [← length_data, ← length_data, hdata, List.length_append, List.length_singleton]
      have hfits : sb₁.size + bytes.length ≤ sb₁.maxSize := by omega
      obtain ⟨sb₂, hrest, hdata₂, hmax₂⟩ := ih hfits
      refine ⟨sb₂, ?_, ?_, hmax₂.trans hmax⟩
      · rw [sputn, hput]
        exact hrest
      · rw [hdata₂, hdata, List.append_assoc]
        rfl

theorem sputn_of_lt {sb : Streambuf} {bytes : List UInt8}
    (h : sb.maxSize < sb.size + bytes.length) : ∃ e, sb.sputn bytes = .error e := by
  induction bytes generalizing sb with
  | nil =>
      have hsize := sb.size_add_room_le
      rw [List.length_nil] at h
      omega
  | cons c bytes ih =>
      rw [List.length_cons] at h
      by_cases hfull : sb.maxSize ≤ sb.size
      · obtain ⟨e, he⟩ := sputc_of_le hfull c
        exact ⟨e, by rw [sputn, he]; rfl⟩
      · obtain ⟨sb₁, hput, hdata, hmax⟩ := sputc_of_lt (Nat.lt_of_not_le hfull) c
        have hsize : sb₁.size = sb.size + 1 := by
          rw [← length_data, ← length_data, hdata, List.length_append, List.length_singleton]
        have hlong : sb₁.maxSize < sb₁.size + bytes.length := by omega
        obtain ⟨e, he⟩ := ih hlong
        exact ⟨e, by rw [sputn, hput]; exact he⟩

theorem data_eq_cons {sb : Streambuf} (h : sb.gptr < sb.pptr) :
    ∃ c, sb.buffer[sb.gptr]? = some c ∧
      sb.data = c :: (sb.buffer.take sb.pptr).drop (sb.gptr + 1) := by
  have hlt : sb.gptr < (sb.buffer.take sb.pptr).length := by
    have hlength := sb.pptr_le_length
    rw [List.length_take]
    omega
  refine ⟨(sb.buffer.take sb.pptr)[sb.gptr], ?_, ?_⟩
  · rw [List.getElem_take]
    exact List.getElem?_eq_getElem _
  · rw [data_eq, List.drop_eq_getElem_cons hlt]

/-- Reading a character takes the first one of the input sequence, also where the get area ends
before it. -/
theorem sbumpc_eq (sb : Streambuf) :
    ∃ sb', sb'.maxSize = sb.maxSize ∧
      ((sb.data = [] ∧ sb.sbumpc = (none, sb')) ∧ sb'.data = [] ∨
        ∃ c, sb.data = c :: sb'.data ∧ sb.sbumpc = (some c, sb')) := by
  have hgptr := sb.gptr_le
  have hegptr := sb.egptr_le
  unfold sbumpc underflow
  by_cases hget : sb.gptr < sb.egptr
  · obtain ⟨c, hc, hdata⟩ := data_eq_cons (hget.trans_le hegptr)
    refine ⟨sb.bump, rfl, .inr ⟨c, ?_, by rw [if_pos hget, hc]⟩⟩
    rw [hdata, data_eq]
    change _ = c :: (sb.buffer.take sb.pptr).drop (min (sb.gptr + 1) sb.egptr)
    rw [Nat.min_eq_left hget]
  · rw [if_neg hget]
    by_cases hput : sb.gptr < sb.pptr
    · obtain ⟨c, hc, hdata⟩ := data_eq_cons hput
      rw [if_pos hput, hc]
      refine ⟨bump _, ?_, .inr ⟨c, ?_, rfl⟩⟩
      · rfl
      rw [hdata, data_eq]
      change _ = c :: (sb.buffer.take sb.pptr).drop (min (sb.gptr + 1) sb.pptr)
      rw [Nat.min_eq_left hput]
    · have hempty : sb.data = [] := by
        apply List.eq_nil_of_length_eq_zero
        rw [length_data]
        exact Nat.sub_eq_zero_of_le (Nat.le_of_not_lt hput)
      rw [if_neg hput]
      exact ⟨sb, rfl, .inl ⟨⟨hempty, rfl⟩, hempty⟩⟩

theorem sgetn_eq (sb : Streambuf) (n : Nat) :
    (sb.sgetn n).1 = sb.data.take n ∧ (sb.sgetn n).2.data = sb.data.drop n ∧
      (sb.sgetn n).2.maxSize = sb.maxSize := by
  induction n generalizing sb with
  | zero => exact ⟨rfl, rfl, rfl⟩
  | succ n ih =>
      obtain ⟨sb', hmax, ⟨⟨hdata, hnone⟩, hdata'⟩ | ⟨c, hdata, hsome⟩⟩ := sbumpc_eq sb
      · have hstep : sb.sgetn (n + 1) = ([], sb') := by rw [sgetn, hnone]
        rw [hstep, hdata]
        exact ⟨rfl, hdata', hmax⟩
      · have hstep : sb.sgetn (n + 1) = (c :: (sb'.sgetn n).1, (sb'.sgetn n).2) := by
          rw [sgetn, hsome]
        obtain ⟨htaken, hleft, hmax'⟩ := ih sb'
        rw [hstep, hdata, htaken]
        exact ⟨rfl, hleft, hmax'.trans hmax⟩

theorem receive_of_le {sb : Streambuf} {n : Nat} {bytes : List UInt8} (hn : bytes.length ≤ n)
    (h : sb.size + n ≤ sb.maxSize) :
    ∃ sb', sb.receive n bytes = .ok sb' ∧ sb'.data = sb.data ++ bytes ∧
      sb'.maxSize = sb.maxSize := by
  obtain ⟨sb', hreserve, hdata, hmax⟩ := reserve_of_le h
  unfold receive
  rw [hreserve]
  exact ⟨_, rfl, (data_commit_store (hn.trans sb'.2)).trans (by rw [hdata]), hmax⟩

theorem receive_of_lt {sb : Streambuf} {n : Nat} (h : sb.maxSize < sb.size + n)
    (bytes : List UInt8) : ∃ e, sb.receive n bytes = .error e := by
  obtain ⟨e, he⟩ := reserve_of_lt h
  unfold receive
  rw [he]
  exact ⟨e, rfl⟩

end Streambuf

/-! ## A streambuf is a queue of bytes -/

inductive StreambufOp
  /-- A read of at most `n` bytes yields these. -/
  | receive (n : Nat) (bytes : List UInt8)
  | sputn (bytes : List UInt8)
  | sgetn (n : Nat)
  | consume (n : Nat)
  deriving DecidableEq, Repr

/-- A read yields no more than was asked for. -/
def StreambufOp.Admissible : StreambufOp → Prop
  | receive n bytes => bytes.length ≤ n
  | _ => True

instance : DecidablePred StreambufOp.Admissible := fun op => by
  cases op <;> unfold StreambufOp.Admissible <;> infer_instance

/-- A streambuf and what `sgetn` has taken out of it; an operation that throws has no result. -/
def Streambuf.step (s : Streambuf × List UInt8) : StreambufOp → Option (Streambuf × List UInt8)
  | .receive n bytes => (s.1.receive n bytes).toOption.map fun sb => (sb, s.2)
  | .sputn bytes => (s.1.sputn bytes).toOption.map fun sb => (sb, s.2)
  | .sgetn n => some ((s.1.sgetn n).2, s.2 ++ (s.1.sgetn n).1)
  | .consume n => some (s.1.consume n, s.2)

/-- Bytes that wait to be taken, at most `maxSize`, and those that were. -/
structure ByteQueue where
  maxSize : Nat
  waiting : List UInt8
  taken : List UInt8
  deriving DecidableEq, Repr

namespace ByteQueue

def push (q : ByteQueue) (n : Nat) (bytes : List UInt8) : Option ByteQueue :=
  if q.waiting.length + n ≤ q.maxSize then some { q with waiting := q.waiting ++ bytes } else none

def step (q : ByteQueue) : StreambufOp → Option ByteQueue
  | .receive n bytes => q.push n bytes
  | .sputn bytes => q.push bytes.length bytes
  | .sgetn n =>
      some { q with waiting := q.waiting.drop n, taken := q.taken ++ q.waiting.take n }
  | .consume n => some { q with waiting := q.waiting.drop n }

end ByteQueue

def Streambuf.queue (s : Streambuf × List UInt8) : ByteQueue := ⟨s.1.maxSize, s.1.data, s.2⟩

theorem Streambuf.push_eq {s : Streambuf × List UInt8} {n : Nat} {bytes : List UInt8}
    {r : Except Streambuf.LengthError Streambuf}
    (hfits : s.1.size + n ≤ s.1.maxSize → ∃ sb, r = .ok sb ∧ sb.data = s.1.data ++ bytes ∧
      sb.maxSize = s.1.maxSize)
    (hfull : s.1.maxSize < s.1.size + n → ∃ e, r = .error e) :
    (r.toOption.map fun sb => (sb, s.2)).map queue = (queue s).push n bytes := by
  unfold ByteQueue.push queue
  dsimp only
  rw [length_data]
  by_cases h : s.1.size + n ≤ s.1.maxSize
  · obtain ⟨sb, rfl, hdata, hmax⟩ := hfits h
    rw [if_pos h]
    change some (ByteQueue.mk sb.maxSize sb.data s.2) = _
    rw [hdata, hmax]
  · obtain ⟨e, rfl⟩ := hfull (Nat.lt_of_not_le h)
    rw [if_neg h]
    rfl

theorem Streambuf.step_eq {op : StreambufOp} (hop : op.Admissible) (s : Streambuf × List UInt8) :
    (step s op).map queue = (queue s).step op := by
  cases op with
  | receive n bytes =>
      exact push_eq (fun h => receive_of_le hop h) (fun h => receive_of_lt h bytes)
  | sputn bytes => exact push_eq sputn_of_le sputn_of_lt
  | sgetn n =>
      obtain ⟨htaken, hdata, hmax⟩ := s.1.sgetn_eq n
      change some (ByteQueue.mk _ _ _) = some (ByteQueue.mk _ _ _)
      rw [htaken, hdata, hmax]
      rfl
  | consume n =>
      change some (ByteQueue.mk _ _ _) = some (ByteQueue.mk _ _ _)
      rw [data_consume]
      rfl

/-- Whatever is done with a streambuf, up to the first operation that throws, it does what the queue
does, and it throws where the queue has no room. -/
theorem Streambuf.exec_eq (maxSize : Nat) (ops : List StreambufOp) :
    (exec Streambuf.step (fun _ op => op.Admissible) (create maxSize, []) ops).map queue =
      exec ByteQueue.step (fun _ op => op.Admissible) ⟨maxSize, [], []⟩ ops := by
  have hstart : queue (create maxSize, []) = ⟨maxSize, [], []⟩ := by
    unfold queue
    rw [data_create]
    rfl
  rw [← hstart]
  apply exec_map (f := queue)
  · exact fun _ _ => Iff.rfl
  · exact fun s _ hop => step_eq hop s

end BtcServer.Boost
