import BtcServer.Boost.Asio
import BtcServer.Lib.Replace

/-!
# The sessions of the login server

`session` with its socket and its two buffers.  A session is an endless read loop into `m_buffer_`;
what a completed read delivers is put into the buffer when it completes, the handler that prints it
runs later.
-/

namespace BtcServer.LoginServer

open Boost Lib

/-- `async_read_some` into `m_buffer_`, of which it may use `size` chars, or `async_write_some`. -/
inductive IoKind
  | readSome (size : Nat)
  | writeSome (data : List UInt8)
  deriving DecidableEq, Repr

/-- An operation whose handler has not run, with the code and the length that the handler will get
once the operation has completed. -/
structure IoOp where
  kind : IoKind
  done : Option (ErrorCode × Nat)
  deriving DecidableEq, Repr

namespace IoOp

/-- Closing the socket aborts what is pending; what has completed keeps its code. -/
def abort (op : IoOp) : IoOp := { op with done := some (op.done.getD (.operationAborted, 0)) }

def Pending (op : IoOp) : Prop := op.done = none

def Aborted (op : IoOp) : Prop := ∃ length, op.done = some (.operationAborted, length)

instance (op : IoOp) : Decidable op.Pending := inferInstanceAs (Decidable (_ = _))

theorem Pending.aborted {op : IoOp} (h : op.Pending) : op.abort.Aborted := by
  unfold abort
  rw [h]
  exact ⟨0, rfl⟩

theorem Aborted.abort {op : IoOp} (h : op.Aborted) : op.abort.Aborted := by
  obtain ⟨length, hdone⟩ := h
  refine ⟨length, ?_⟩
  unfold IoOp.abort
  rw [hdone]
  rfl

theorem aborted_of_abort {op : IoOp} (h : op.abort.Aborted) (hdone : ¬op.Pending) : op.Aborted := by
  obtain ⟨length, hlength⟩ := h
  obtain ⟨result, hresult⟩ := Option.ne_none_iff_exists'.mp hdone
  unfold IoOp.abort at hlength
  rw [hresult] at hlength
  exact ⟨length, hresult.trans hlength⟩

end IoOp

structure Session where
  mSocketIsOpen : Bool
  ops : List IoOp
  mBuffer : Vector UInt8 8192
  mRspBuffer : Vector UInt8 8192
  /-- The indices of `m_buffer_` at which the handler of `do_read` has stored a terminator. -/
  stores : List Nat

namespace Session

def create (buffer rspBuffer : Vector UInt8 8192) : Session where
  mSocketIsOpen := false
  ops := []
  mBuffer := buffer
  mRspBuffer := rspBuffer
  stores := []

def accepted (s : Session) : Session := { s with mSocketIsOpen := true }

/-- Start an operation on the socket.  On a closed one it fails at once. -/
def startOp (s : Session) (kind : IoKind) : Session :=
  { s with ops := s.ops ++ [⟨kind, if s.mSocketIsOpen then none else some (.other, 0)⟩] }

def doRead (s : Session) : Session := s.startOp (.readSome 8192)

def doWrite (s : Session) : Session := s.startOp (.writeSome s.mRspBuffer.toList)

def start (s : Session) : Session := s.doRead

def stop (s : Session) : Session :=
  { s with mSocketIsOpen := false, ops := s.ops.map IoOp.abort }

/-- `m_buffer_.get()[length] = '\0'`; what lies behind the buffer is not modelled. -/
def terminate (s : Session) (length : Nat) : Session :=
  { s with mBuffer := s.mBuffer.setIfInBounds length 0, stores := s.stores ++ [length] }

/-- `m_buffer_` as a string that ends with a zero. -/
def text (s : Session) : List UInt8 := s.mBuffer.toList.takeWhile (· ≠ 0)

/-! ## Completions -/

/-- The `k`-th operation completes with a code and a length. -/
def complete (s : Session) (k : Nat) (ec : ErrorCode) (length : Nat) : Option Session :=
  match s.ops[k]? with
  | some ⟨kind, none⟩ => some { s with ops := s.ops.set k ⟨kind, some (ec, length)⟩ }
  | _ => none

def fill (s : Session) (data : List UInt8) : Session :=
  { s with mBuffer := .ofFn fun i => (data[i.val]?).getD s.mBuffer[i] }

/-- The `k`-th operation is a read, to which asio delivers `data`. -/
def receive (s : Session) (k : Nat) (data : List UInt8) : Option Session :=
  match s.ops[k]? with
  | some ⟨.readSome size, _⟩ =>
      if data.length ≤ size then (s.fill data).complete k .success data.length else none
  | _ => none

/-- The `k`-th operation is a write, of which asio has sent `length` chars. -/
def send (s : Session) (k length : Nat) : Option Session :=
  match s.ops[k]? with
  | some ⟨.writeSome data, _⟩ => if length ≤ data.length then s.complete k .success length else none
  | _ => none

/-- The `k`-th operation fails, for another reason than that the socket was closed. -/
def fail (s : Session) (k : Nat) (ec : ErrorCode) : Option Session :=
  if ec.failed ∧ ec ≠ .operationAborted then s.complete k ec 0 else none

/-- The session when the handler of its `k`-th operation has been taken out. -/
def take (s : Session) (k : Nat) : Session := { s with ops := s.ops.eraseIdx k }

/-! ## Aborted operations -/

def Busy (s : Session) : Prop := ∃ op ∈ s.ops, op.Pending

/-- Some handler of the session will be told `operation_aborted`. -/
def Doomed (s : Session) : Prop := ∃ op ∈ s.ops, op.Aborted

variable {s s' : Session} {op : IoOp} {k length : Nat} {ec : ErrorCode} {data : List UInt8}

theorem doomed_startOp (s : Session) (kind : IoKind) : (s.startOp kind).Doomed ↔ s.Doomed := by
  unfold Doomed startOp
  constructor
  · rintro ⟨op, hmem, haborted⟩
    rcases List.mem_append.mp hmem with hold | hnew
    · exact ⟨op, hold, haborted⟩
    · obtain rfl := List.mem_singleton.mp hnew
      obtain ⟨length, hdone⟩ := haborted
      cases hopen : s.mSocketIsOpen <;> simp [hopen] at hdone
  · rintro ⟨op, hmem, haborted⟩
    exact ⟨op, List.mem_append_left _ hmem, haborted⟩

theorem doomed_stop (s : Session) : s.stop.Doomed ↔ s.Doomed ∨ s.Busy := by
  constructor
  · rintro ⟨op', hmem, haborted⟩
    obtain ⟨op, hop, rfl⟩ := List.mem_map.mp hmem
    by_cases hpending : op.Pending
    · exact .inr ⟨op, hop, hpending⟩
    · exact .inl ⟨op, hop, IoOp.aborted_of_abort haborted hpending⟩
  · rintro (⟨op, hop, haborted⟩ | ⟨op, hop, hpending⟩)
    · exact ⟨op.abort, List.mem_map_of_mem hop, haborted.abort⟩
    · exact ⟨op.abort, List.mem_map_of_mem hop, hpending.aborted⟩

theorem doomed_complete (h : s.complete k ec length = some s') (hec : ec ≠ .operationAborted) :
    s'.Doomed ↔ s.Doomed := by
  unfold complete at h
  split at h
  case h_1 kind hop =>
      obtain rfl := Option.some.inj h
      refine exists_mem_set hop ?_ ?_
      · rintro ⟨length, hdone⟩
        cases hdone
      · rintro ⟨length, hdone⟩
        injection hdone with hpair
        exact hec (Prod.mk.inj hpair).1
  case h_2 => cases h

theorem doomed_fill (s : Session) (data : List UInt8) : (s.fill data).Doomed ↔ s.Doomed := by
  unfold Doomed fill
  exact Iff.rfl

theorem doomed_receive (h : s.receive k data = some s') : s'.Doomed ↔ s.Doomed := by
  unfold receive at h
  split at h
  case h_1 size done hop =>
      by_cases hsize : data.length ≤ size
      · rw [if_pos hsize] at h
        rw [doomed_complete h (by decide), doomed_fill]
      · rw [if_neg hsize] at h
        cases h
  case h_2 => cases h

theorem doomed_send (h : s.send k length = some s') : s'.Doomed ↔ s.Doomed := by
  unfold send at h
  split at h
  case h_1 data done hop =>
      by_cases hlength : length ≤ data.length
      · rw [if_pos hlength] at h
        exact doomed_complete h (by decide)
      · rw [if_neg hlength] at h
        cases h
  case h_2 => cases h

theorem doomed_fail (h : s.fail k ec = some s') : s'.Doomed ↔ s.Doomed := by
  unfold fail at h
  by_cases hec : ec.failed ∧ ec ≠ .operationAborted
  · rw [if_pos hec] at h
    exact doomed_complete h hec.2
  · rw [if_neg hec] at h
    cases h

theorem doomed_take (hop : s.ops[k]? = some op) (haborted : ¬op.Aborted) :
    (s.take k).Doomed ↔ s.Doomed :=
  exists_mem_eraseIdx hop haborted

theorem busy_take (hop : s.ops[k]? = some op) (hpending : ¬op.Pending) :
    (s.take k).Busy ↔ s.Busy :=
  exists_mem_eraseIdx hop hpending

end Session

end BtcServer.LoginServer
