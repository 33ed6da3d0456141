import BtcServer.Boost.ComposedRead
import BtcServer.HttpmessageServer.HttpConnection

/-!
# What asio does for a connection

The connections of this model hold the contents of their streambufs and learn from the whole of them
whether a read is complete.  Asio works on pointers into a vector, asks the socket for so many bytes
at a time and searches each byte once.  `receives_of_run` says that this comes to the same: whatever
the socket delivers and however the vector grows, a composed read takes the steps `receive` of the
connection, and its handler is called with what `ready` says, or with an error that `canFail` allows
and `failedLength`.
-/

namespace BtcServer.HttpmessageServer

open Boost Lib

/-- The connection has this composed read outstanding, with the bytes of the peer behind it. -/
structure Shows (conn : HttpConnction) (isOpen : Bool) (s : Reading × Bytes) : Prop where
  isOpen_eq : conn.mSocket.isOpen = isOpen
  reads_eq : conn.mSocket.reads = [s.1.op.readOp]
  recvBuffer_eq : conn.mRecvBuffer = s.1.streambuf.data
  unread_eq : conn.mSocket.unread = s.2

def HttpConnction.take (conn : HttpConnction) (n : Nat) : Option HttpConnction := conn.receive 0 n

/-- A composed read at the start of its search or transfer. -/
def IsInitial : ComposedRead → Prop
  | .readUntil delim searchPosition => delim ≠ [] ∧ searchPosition = some 0
  | .readExactly _ totalTransferred => totalTransferred = 0

theorem IsInitial.sound {op : ComposedRead} (h : IsInitial op) (data : Bytes) : op.Sound data := by
  cases op with
  | readUntil delim searchPosition =>
      exact ⟨h.1, 0, h.2, searchedTo_zero delim data⟩
  | readExactly size totalTransferred =>
      have hzero : totalTransferred = 0 := h
      exact hzero ▸ Nat.zero_le size

section Step

variable {conn : HttpConnction} {sb : Streambuf} {op : ComposedRead} {asked : Nat} {isOpen : Bool}
  {unread : Bytes} {t : Reading × Bytes}

theorem Shows.take {n : Nat} {r : Reading} (h : Shows conn true (.waiting sb op asked, unread))
    (hunready : op.readOp.ready sb.data = none) (hn : n ≠ 0) (hle : n ≤ unread.length)
    (haccepts : op.readOp.accepts n = true)
    (hdata : r.streambuf.data = sb.data ++ unread.take n) (hop : r.op.readOp = op.readOp.advance n) :
    ∃ conn', conn.take n = some conn' ∧ Shows conn' true (r, unread.drop n) := by
  have hreads : conn.mSocket.reads[0]? = some op.readOp := by
    rw [h.reads_eq]
    rfl
  have hbuffer : conn.mRecvBuffer = sb.data := h.recvBuffer_eq
  have hunread : conn.mSocket.unread = unread := h.unread_eq
  refine ⟨{ conn with
    mRecvBuffer := conn.mRecvBuffer ++ conn.mSocket.unread.take n
    mSocket := { conn.mSocket with
      unread := conn.mSocket.unread.drop n
      reads := conn.mSocket.reads.set 0 (op.readOp.advance n) } }, ?_, ?_⟩
  · have hguard : conn.mSocket.isOpen = true ∧ op.readOp.ready conn.mRecvBuffer = none ∧ 1 ≤ n ∧
        n ≤ conn.mSocket.unread.length ∧ op.readOp.accepts n = true := by
      rw [hbuffer, hunread]
      exact ⟨h.isOpen_eq, hunready, Nat.one_le_iff_ne_zero.mpr hn, hle, haccepts⟩
    unfold HttpConnction.take HttpConnction.receive
    rw [hreads]
    exact if_pos hguard
  · exact {
      isOpen_eq := h.isOpen_eq
      reads_eq := by
        change conn.mSocket.reads.set 0 _ = _
        rw [h.reads_eq, hop]
        rfl
      recvBuffer_eq := by
        change conn.mRecvBuffer ++ conn.mSocket.unread.take n = _
        rw [hbuffer, hunread, hdata]
      unread_eq := congrArg (List.drop n) hunread }

/-- One completion of `async_read_some` is nothing or one step of the connection. -/
theorem Shows.step {a : Transfer} (h : Shows conn isOpen (.waiting sb op asked, unread))
    (htruthful : Reading.Truthful isOpen unread (.waiting sb op asked))
    (hstep : Reading.step isOpen (.waiting sb op asked, unread) a = some t) :
    ∃ ns conn', Run HttpConnction.take (fun _ _ => True) conn ns conn' ∧ Shows conn' isOpen t ∧
      Reading.Truthful isOpen t.2 t.1 := by
  have hcases := htruthful
  cases hcases with
  | waiting hroom hroomy hready hunready haccepts hsound =>
      cases a with
      | done n capacity =>
          unfold Reading.step at hstep
          dsimp only at hstep
          split_ifs at hstep with hguard
          obtain ⟨hasked, hle, hzero, hopen⟩ := hguard
          obtain ⟨r, hr, rfl⟩ := Option.map_eq_some_iff.mp hstep
          by_cases hn : n = 0
          · obtain rfl : asked = 0 := hzero.mp hn
            obtain ⟨length, hresume, hlength⟩ := Reading.resume_of_none htruthful capacity
            have hdata : ((sb.store []).commit 0).data = sb.data := sb.data_commit_store_nil
            rw [hn, List.take_zero, hresume] at hr
            obtain rfl := Option.some.inj hr
            refine ⟨[], conn, .nil conn, ?_, .succeeded (by rw [hdata]; exact hlength)⟩
            rw [hn]
            exact ⟨h.isOpen_eq, h.reads_eq, h.recvBuffer_eq.trans hdata.symm, h.unread_eq⟩
          · obtain rfl := hopen.resolve_left hn
            obtain ⟨r', hresume, htruthful', hdata, hop⟩ :=
              Reading.exists_resume htruthful hn hasked hle capacity
            rw [hresume] at hr
            obtain rfl := Option.some.inj hr
            obtain ⟨conn', htake, hshows⟩ := h.take (hunready fun h0 => hn (hzero.mpr h0)) hn hle
              (haccepts n hasked) hdata hop
            exact ⟨[n], conn', .cons trivial htake (.nil conn'), hshows, htruthful'⟩
      | failed ec =>
          unfold Reading.step at hstep
          dsimp only at hstep
          split_ifs at hstep with hguard
          obtain ⟨r, hr, rfl⟩ := Option.map_eq_some_iff.mp hstep
          obtain ⟨r', hresume, htruthful', hdata, hop⟩ :=
            Reading.exists_resume_failed htruthful hguard.1 hguard.2
          rw [hresume] at hr
          obtain rfl := Option.some.inj hr
          refine ⟨[], conn, .nil conn, ⟨h.isOpen_eq, ?_, ?_, h.unread_eq⟩, htruthful'⟩
          · rw [hop]
            exact h.reads_eq
          · rw [hdata]
            exact h.recvBuffer_eq

end Step

/-- A composed read has come as far as the connection that took the same bytes: the handler is told
what the connection says, and before that nothing but the peer can hold the read up. -/
structure Agrees (conn : HttpConnction) (isOpen : Bool) (s : Reading × Bytes) : Prop
    extends Shows conn isOpen s where
  succeeded : ∀ sb op length, s.1 = .completed sb op .success length →
    op.readOp.ready conn.mRecvBuffer = some length
  failed : ∀ sb op ec length, s.1 = .completed sb op ec length → ec.failed = true →
    conn.canFail op.readOp ec = true ∧ length = op.readOp.failedLength
  completes : ∀ sb op asked length, s.1 = .waiting sb op asked →
    op.readOp.ready conn.mRecvBuffer = some length → ∀ capacity, ∃ sb',
      Reading.step isOpen s (.done 0 capacity) = some (.completed sb' op .success length, s.2)
  continues : ∀ sb op asked, s.1 = .waiting sb op asked →
    op.readOp.ready conn.mRecvBuffer = none → conn.mSocket.isOpen = true →
      conn.mSocket.unread ≠ [] → ∀ capacity,
        ∃ t, Reading.step isOpen s (.done 1 capacity) = some t

theorem Shows.agrees {conn : HttpConnction} {isOpen : Bool} {s : Reading × Bytes}
    (h : Shows conn isOpen s) (htruthful : Reading.Truthful isOpen s.2 s.1) :
    Agrees conn isOpen s := by
  obtain ⟨r, unread⟩ := s
  have hbuffer := h.recvBuffer_eq
  refine { h with succeeded := ?_, failed := ?_, completes := ?_, continues := ?_ }
  · rintro sb op length rfl
    cases htruthful with
    | succeeded hready => rw [hbuffer]; exact hready
    | failed hfailed _ => cases hfailed
  · rintro sb op ec length rfl hec
    cases htruthful with
    | succeeded hready => cases hec
    | failed hfailed heof =>
        refine ⟨?_, rfl⟩
        unfold HttpConnction.canFail
        cases ec with
        | success => cases hec
        | eof =>
            obtain ⟨rfl, hunread, hunready⟩ := heof rfl
            have hunread' : conn.mSocket.unread = [] := h.unread_eq.trans hunread
            have hunready' : op.readOp.ready conn.mRecvBuffer = none := by
              rw [hbuffer]
              exact hunready
            simp [h.isOpen_eq, hunread', hunready']
        | operationAborted => rfl
        | other => rfl
  · rintro sb op asked length rfl hlength capacity
    have htruthful' := htruthful
    cases htruthful' with
    | waiting hroom hroomy hready hunready haccepts hsound =>
        rw [hbuffer] at hlength
        have hasked : asked = 0 := by
          by_contra hasked
          exact Option.some_ne_none length (hlength.symm.trans (hunready hasked))
        subst hasked
        obtain ⟨length', hresume, hlength'⟩ := Reading.resume_of_none htruthful capacity
        obtain rfl := Option.some.inj (hlength.symm.trans hlength')
        refine ⟨(sb.store []).commit 0, ?_⟩
        unfold Reading.step
        dsimp only
        rw [if_pos ⟨Nat.le_refl 0, Nat.zero_le _, Iff.rfl, .inl rfl⟩, List.take_zero, hresume]
        rfl
  · rintro sb op asked rfl hnone hopen hne capacity
    have htruthful' := htruthful
    cases htruthful' with
    | waiting hroom hroomy hready hunready haccepts hsound =>
        have hunread : conn.mSocket.unread = unread := h.unread_eq
        have hpos : 1 ≤ unread.length := by
          rw [← hunread]
          exact List.length_pos_of_ne_nil hne
        have hasked : asked ≠ 0 := by
          intro hasked
          obtain ⟨length, hlength, -⟩ := hready hasked
          rw [hbuffer] at hnone
          exact absurd (hlength.symm.trans hnone) (Option.some_ne_none length)
        obtain ⟨r, hresume, -⟩ := Reading.exists_resume htruthful Nat.one_ne_zero
          (Nat.one_le_iff_ne_zero.mpr hasked) hpos capacity
        refine ⟨(r, unread.drop 1), ?_⟩
        unfold Reading.step
        dsimp only
        rw [if_pos ⟨Nat.one_le_iff_ne_zero.mpr hasked, hpos, by simp [hasked],
          .inr (h.isOpen_eq.symm.trans hopen)⟩, hresume]
        rfl

/-- A connection that waits for a body of five bytes, of which its peer sends two. -/
def cutOff : HttpConnction :=
  (HttpConnction.create (.uninitialised 1 1 0 false) (str "ab")).accepted.readBody 5

end BtcServer.HttpmessageServer
