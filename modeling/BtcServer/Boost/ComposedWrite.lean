import BtcServer.Boost.ComposedRead
import BtcServer.Lib.Potential

/-!
# Composed writes

What `async_write` of a streambuf does: the object `write_op` runs as the handler of one
`async_write_some` after the other, on a buffer that points into the vector of the streambuf, and
`write_streambuf_handler` consumes what was transferred.  However little the socket takes at a time,
it takes the input sequence from its start and in order (`Writing.faithful_of_run`).
-/

namespace BtcServer.Boost

open Lib

/-- `const_buffer`: so many bytes from an offset on. -/
structure ConstBuffer where
  offset : Nat
  size : Nat
  deriving DecidableEq, Repr

namespace ConstBuffer

/-- `operator+` -/
def advance (b : ConstBuffer) (start : Nat) : ConstBuffer :=
  if start > b.size then ⟨0, 0⟩ else ⟨b.offset + start, b.size - start⟩

/-- `asio::buffer` with a maximum. -/
def upTo (b : ConstBuffer) (maxSizeInBytes : Nat) : ConstBuffer :=
  ⟨b.offset, min b.size maxSizeInBytes⟩

/-- What the buffer shows of the vector that it points into. -/
def bytes (b : ConstBuffer) (vector : List UInt8) : List UInt8 := (vector.drop b.offset).take b.size

end ConstBuffer

def Streambuf.dataBuffer (sb : Streambuf) : ConstBuffer := ⟨sb.gptr, sb.size⟩

/-- `transfer_all_t` -/
def transferAll (ec : ErrorCode) (_bytesTransferred : Nat) : Nat :=
  if ec.failed then 0 else defaultMaxTransferSize

/-- A composed write while an `async_write_some` is outstanding for `asked`, or when its handler has
been called. -/
inductive Writing
  | waiting (sb : Streambuf) (buffer : ConstBuffer) (totalTransferred : Nat) (asked : ConstBuffer)
  | completed (sb : Streambuf) (ec : ErrorCode) (bytesTransferred : Nat)
  deriving DecidableEq, Repr

inductive SocketWrite
  | done (n : Nat)
  | failed (ec : ErrorCode)
  deriving DecidableEq, Repr

namespace Writing

def writeSome (sb : Streambuf) (buffer : ConstBuffer) (totalTransferred n : Nat) : Writing :=
  .waiting sb buffer totalTransferred ((buffer.advance totalTransferred).upTo n)

/-- `async_write` -/
def initiate (sb : Streambuf) : Writing :=
  writeSome sb sb.dataBuffer 0 (transferAll .success 0)

/-- `write_streambuf_handler` -/
def complete (sb : Streambuf) (ec : ErrorCode) (bytesTransferred : Nat) : Writing :=
  .completed (sb.consume bytesTransferred) ec bytesTransferred

/-- `write_op::operator()` behind an `async_write_some`. -/
def resume (sb : Streambuf) (buffer : ConstBuffer) (totalTransferred : Nat) (ec : ErrorCode)
    (bytesTransferred : Nat) : Writing :=
  let total := totalTransferred + bytesTransferred
  let n := transferAll ec total
  if !ec.failed && bytesTransferred = 0 || n = 0 || total = buffer.size then complete sb ec total
  else writeSome sb buffer total n

/-- A write, with the bytes that the socket has taken.  An `async_write_some` for no bytes completes
at once, another one with at least one byte, or with an error. -/
def step (s : Writing × List UInt8) : SocketWrite → Option (Writing × List UInt8)
  | .done n =>
      match s.1 with
      | completed .. => none
      | waiting sb buffer total asked =>
          if n ≤ asked.size ∧ (n = 0 ↔ asked.size = 0) then
            some (resume sb buffer total .success n, s.2 ++ (asked.bytes sb.buffer).take n)
          else none
  | .failed ec =>
      match s.1 with
      | completed .. => none
      | waiting sb buffer total _ =>
          if ec.failed then some (resume sb buffer total ec 0, s.2) else none

/-- The socket has taken a part of the data from its start, and that is what the handler is told. -/
inductive Faithful (sb : Streambuf) : Writing × List UInt8 → Prop
  | waiting {total : Nat} (hle : total ≤ sb.size) (hleft : sb.size ≠ 0 → total < sb.size) :
      Faithful sb (writeSome sb sb.dataBuffer total defaultMaxTransferSize, sb.data.take total)
  | completed {ec : ErrorCode} {total : Nat} (hle : total ≤ sb.size)
      (hall : ec = .success → total = sb.size)
      (hpart : ec ≠ .success → sb.size ≠ 0 → total < sb.size) :
      Faithful sb (complete sb ec total, sb.data.take total)

def left (sb : Streambuf) : Writing × List UInt8 → Nat
  | (waiting _ _ total _, _) => sb.size - total + 1
  | (completed .., _) => 0

variable {sb : Streambuf} {total n : Nat} {s t : Writing × List UInt8} {a : SocketWrite}

theorem faithful_initiate (sb : Streambuf) : Faithful sb (initiate sb, []) :=
  @Faithful.waiting sb 0 (Nat.zero_le _) Nat.pos_of_ne_zero

theorem asked_eq (hle : total ≤ sb.size) (n : Nat) :
    (sb.dataBuffer.advance total).upTo n = ⟨sb.gptr + total, min (sb.size - total) n⟩ := by
  have hnot : ¬total > sb.dataBuffer.size := Nat.not_lt.mpr hle
  unfold ConstBuffer.advance ConstBuffer.upTo
  rw [if_neg hnot]
  rfl

theorem taken_eq {m : Nat} (hn : n ≤ min (sb.size - total) m) :
    sb.data.take total ++
        ((⟨sb.gptr + total, min (sb.size - total) m⟩ : ConstBuffer).bytes sb.buffer).take n =
      sb.data.take (total + n) := by
  have hnext : sb.data.drop total = (sb.buffer.drop (sb.gptr + total)).take (sb.size - total) := by
    unfold Streambuf.data
    rw [List.drop_take, List.drop_drop]
  rw [List.take_add, hnext]
  unfold ConstBuffer.bytes
  dsimp only
  rw [List.take_take, List.take_take, Nat.min_eq_left hn,
    Nat.min_eq_left (hn.trans (Nat.min_le_left _ _))]

theorem Faithful.step (h : Faithful sb s) (hstep : Writing.step s a = some t) :
    Faithful sb t ∧ left sb t < left sb s := by
  cases h with
  | completed hle hall hpart => cases a <;> cases hstep
  | @waiting total hle hleft =>
      cases a with
      | done n =>
          unfold Writing.step at hstep
          dsimp only [writeSome] at hstep
          rw [asked_eq hle] at hstep
          split_ifs at hstep with hguard
          obtain ⟨hn, hzero⟩ := hguard
          obtain rfl := Option.some.inj hstep
          dsimp only at hn hzero
          rw [taken_eq hn]
          have hmax : defaultMaxTransferSize = 65536 := rfl
          have hsuccess (k : Nat) : transferAll .success k = defaultMaxTransferSize := rfl
          unfold resume
          dsimp only
          rw [hsuccess]
          by_cases hdone : total + n = sb.size
          · have hcond : (!ErrorCode.success.failed && n = 0 || defaultMaxTransferSize = 0 ||
                total + n = sb.dataBuffer.size) = true := by
              simp [Streambuf.dataBuffer, hdone]
            rw [if_pos hcond]
            exact ⟨.completed hdone.le (fun _ => hdone) fun hec => absurd rfl hec, Nat.succ_pos _⟩
          · have hpos : n ≠ 0 := by omega
            have hcond : ¬(!ErrorCode.success.failed && n = 0 || defaultMaxTransferSize = 0 ||
                total + n = sb.dataBuffer.size) = true := by
              simp [Streambuf.dataBuffer, hdone, hpos, hmax]
            rw [if_neg hcond]
            refine ⟨.waiting (by omega) fun _ => by omega, ?_⟩
            change sb.size - (total + n) + 1 < sb.size - total + 1
            omega
      | failed ec =>
          unfold Writing.step at hstep
          dsimp only [writeSome] at hstep
          split_ifs at hstep with hec
          obtain rfl := Option.some.inj hstep
          have hnone : transferAll ec (total + 0) = 0 := if_pos hec
          unfold resume
          dsimp only
          rw [hnone]
          have hcond : (!ec.failed && (0 : Nat) = 0 || (0 : Nat) = 0 ||
              total + 0 = sb.dataBuffer.size) = true := by
            simp
          rw [if_pos hcond]
          refine ⟨.completed hle (fun h => ?_) fun _ => hleft, Nat.succ_pos _⟩
          rw [h] at hec
          cases hec

theorem Faithful.continues (h : Faithful sb s) (hwaiting : left sb s ≠ 0) :
    ∃ n t, Writing.step s (.done n) = some t := by
  cases h with
  | completed hle hall hpart => exact absurd rfl hwaiting
  | @waiting total hle hleft =>
      refine ⟨min (sb.size - total) defaultMaxTransferSize, ?_⟩
      unfold Writing.step
      dsimp only [writeSome]
      rw [asked_eq hle, if_pos ⟨Nat.le_refl _, Iff.rfl⟩]
      exact ⟨_, rfl⟩

/-- However the socket takes the data: it takes it from its start and in order, the handler is told
how much it was, and it is called after at most one completion for each byte and one more. -/
theorem faithful_of_run {ok : Writing × List UInt8 → SocketWrite → Prop} {as : List SocketWrite}
    (h : Run step ok (initiate sb, []) as t) :
    Faithful sb t ∧ as.length + left sb t ≤ sb.size + 1 :=
  ⟨h.invariant (fun _ _ _ _ hstep hs => (hs.step hstep).1) (faithful_initiate sb),
    h.length_le (I := Faithful sb) (fun _ _ _ _ hstep hs => (hs.step hstep).1)
      (fun _ _ _ _ hstep hs => (hs.step hstep).2) (faithful_initiate sb)⟩

end Writing

end BtcServer.Boost
