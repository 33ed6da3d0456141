import BtcServer.Lib.Delimiter

/-!
# `boost::asio`

What the servers use of asio: error codes, the streambuf operations, and the outstanding operations
of a socket.  A composed read completes with success once its condition holds of the buffer; its
length is then fixed by the buffer, so when the completion was queued does not matter and the
handler may run at any later time.  A composed write sends what the streambuf holds when it is
started and consumes the number of bytes transferred when it completes.
-/

namespace BtcServer.Boost

open Lib

inductive ErrorCode
  | success
  | eof
  | operationAborted
  | other
  deriving DecidableEq, Repr

/-- `error_code` in a condition. -/
def ErrorCode.failed (ec : ErrorCode) : Bool := ec ≠ .success

theorem ErrorCode.eq_success {ec : ErrorCode} (h : ¬ec.failed = true) : ec = .success := by
  simpa [failed] using h

/-- `basic_streambuf::sgetn(s, n)`: the first `n` bytes of the buffer, as far as it has them,
replace the front of `s`.  The result is the new `s` and what stays in the buffer. -/
def sgetn (buf s : List UInt8) (n : Nat) : List UInt8 × List UInt8 :=
  (buf.take n ++ s.drop (min n buf.length), buf.drop n)

/-- `basic_streambuf::consume`, clamped to the size. -/
def consume (buf : List UInt8) (n : Nat) : List UInt8 := buf.drop n

def resize (s : List UInt8) (n : Nat) : List UInt8 := s.take n ++ List.replicate (n - s.length) 0

theorem sgetn_of_le {buf : List UInt8} {n : Nat} (h : n ≤ buf.length) (s : List UInt8) :
    sgetn buf s n = (buf.take n ++ s.drop n, buf.drop n) := by
  unfold sgetn
  rw [Nat.min_eq_left h]

@[simp] theorem length_resize (s : List UInt8) (n : Nat) : (resize s n).length = n := by
  unfold resize
  rw [List.length_append, List.length_take, List.length_replicate]
  omega

/-- A composed read into a streambuf: `async_read_until` for a delimiter, or `async_read` with
`transfer_exactly(wanted)`, of which `left` bytes are still to come. -/
inductive ReadOp
  | readUntil (delim : List UInt8)
  | readExactly (wanted left : Nat)
  deriving DecidableEq, Repr

namespace ReadOp

/-- The length a read completes with, once its condition holds. -/
def ready (buf : List UInt8) : ReadOp → Option Nat
  | readUntil delim => (splitAfter delim buf).map fun cut => cut.1.length
  | readExactly wanted left => if left = 0 then some wanted else none

def accepts (n : Nat) : ReadOp → Bool
  | readUntil _ => true
  | readExactly _ left => n ≤ left

def advance (n : Nat) : ReadOp → ReadOp
  | readUntil delim => readUntil delim
  | readExactly wanted left => readExactly wanted (left - n)

/-- How many bytes the handler of a read is told of when it fails. -/
def failedLength : ReadOp → Nat
  | readUntil _ => 0
  | readExactly wanted left => wanted - left

theorem accepts_one {op : ReadOp} {buf : List UInt8} (h : op.ready buf = none) :
    op.accepts 1 = true := by
  cases op with
  | readUntil delim => rfl
  | readExactly wanted left =>
      unfold ready at h
      by_cases hleft : left = 0
      · simp [hleft] at h
      · exact decide_eq_true (Nat.one_le_iff_ne_zero.mpr hleft)

end ReadOp

/-- A stream socket: the bytes of the peer that no read has taken yet, the outstanding reads, and
the outstanding writes with the bytes each of them sends. -/
structure Socket where
  isOpen : Bool
  unread : List UInt8
  reads : List ReadOp
  writes : List (List UInt8)
  deriving DecidableEq, Repr

end BtcServer.Boost
