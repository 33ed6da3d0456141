import BtcServer.Boost.ComposedWrite
import BtcServer.HttpmessageServer.Link

/-!
# What asio does for a response

The connections of this model hand the contents of their streambuf over at once, and a write is one
operation that succeeds or fails.  What `write_response` really does is to put a text into the
streambuf, character by character, and to have asio send it in as many pieces as the socket takes.
`sends_of_run` says that this comes to the same: the peer gets what the connection has sent, or the
part of it that the handler is told of when the write fails.
-/

namespace BtcServer.HttpmessageServer

open Boost Lib

/-- What `write_response` puts into its stream. -/
def HttpConnction.responseText (conn : HttpConnction) (body : Bytes) : Bytes :=
  responseHead conn.mRequest.httpVersionMajor conn.mRequest.httpVersionMinor body.length ++ body

theorem length_responseText_ne_zero (conn : HttpConnction) (body : Bytes) :
    (conn.responseText body).length ≠ 0 := by
  have hhttp : (str "HTTP/").length = 5 := by decide +kernel
  unfold HttpConnction.responseText responseHead
  simp only [List.length_append, hhttp]
  omega

/-- The step of the connection when its write is told this. -/
def writeOutcome (ec : ErrorCode) (bytesTransferred : Nat) : IoAction Unit :=
  if ec = .success then .writeDone 0 else .writeFailed 0 ec bytesTransferred

/-- A composed write has sent a part of what the connection sends.  When its handler is called, the
connection can take the step of that outcome, with the same bytes left in its streambuf; before that
the write can go on. -/
structure Sends (funcs : CallbackTable) (l : Link) (s : Writing × Bytes) : Prop where
  sent : s.2 <+: l.conn.mSendBuffer
  outcome : ∀ sb ec n, s.1 = .completed sb ec n →
    n = s.2.length ∧ (ec = .success ↔ s.2 = l.conn.mSendBuffer) ∧
      ∃ m, Link.step funcs l (.io (writeOutcome ec n)) = some m ∧ m.conn.mSendBuffer = sb.data
  continues : ∀ sb buffer total asked, s.1 = .waiting sb buffer total asked →
    ∃ n t, Writing.step s (.done n) = some t

section

variable {funcs : CallbackTable} {l : Link} {sb : Streambuf} {s : Writing × Bytes}

theorem mSendBuffer_handleWrite (ec : ErrorCode) (n : Nat) (l : Link) :
    ((Link.host funcs []).handleWrite ec n l).conn.mSendBuffer = l.conn.mSendBuffer := by
  unfold Host.handleWrite
  split_ifs <;> rfl

theorem exists_outcome (hbuffer : l.conn.mSendBuffer = sb.data)
    (hwrites : l.conn.mSocket.writes = [sb.data]) {ec : ErrorCode} {n : Nat} (hle : n ≤ sb.size)
    (hall : ec = .success → n = sb.size) :
    ∃ m, Link.step funcs l (.io (writeOutcome ec n)) = some m ∧
      m.conn.mSendBuffer = (sb.consume n).data := by
  have hwrite : l.conn.mSocket.writes[0]? = some sb.data := by
    rw [hwrites]
    rfl
  have hleft (n : Nat) (ec : ErrorCode) :
      (l.conn.popWrite 0 n ec).mSendBuffer = (sb.consume n).data := by
    rw [Streambuf.data_consume, ← hbuffer]
    rfl
  unfold writeOutcome
  by_cases hec : ec = .success
  · rw [if_pos hec]
    refine ⟨(Link.host funcs []).handleWrite .success sb.data.length
      { l with conn := l.conn.popWrite 0 sb.data.length .success }, ?_, ?_⟩
    · change (l.conn.mSocket.writes[0]?).map _ = _
      rw [hwrite]
      rfl
    · rw [mSendBuffer_handleWrite, hall hec, ← Streambuf.length_data]
      exact hleft _ _
  · rw [if_neg hec]
    have hfailed : ec.failed = true := by
      by_contra hnot
      exact hec (ErrorCode.eq_success hnot)
    have hfits : ec.failed = true ∧ n ≤ sb.data.length := by
      rw [Streambuf.length_data]
      exact ⟨hfailed, hle⟩
    refine ⟨(Link.host funcs []).handleWrite ec n
      { l with conn := l.conn.popWrite 0 n ec }, ?_, ?_⟩
    · change ioStep (Link.host funcs) l (.writeFailed 0 ec n) = _
      unfold ioStep
      dsimp only [Link.host]
      rw [hwrite]
      exact if_pos hfits
    · rw [mSendBuffer_handleWrite]
      exact hleft _ _

theorem sends_of_faithful (hbuffer : l.conn.mSendBuffer = sb.data)
    (hwrites : l.conn.mSocket.writes = [sb.data]) (hsize : sb.size ≠ 0)
    (h : Writing.Faithful sb s) : Sends funcs l s := by
  have hcontinues := h.continues
  cases h with
  | @waiting total hle hleft =>
      refine ⟨?_, fun _ _ _ h => (by cases h), fun _ _ _ _ _ => hcontinues (Nat.succ_ne_zero _)⟩
      rw [hbuffer]
      exact List.take_prefix _ _
  | @completed ec total hle hall hpart =>
      refine ⟨?_, fun sb' ec' n h => ?_, fun _ _ _ _ h => (by cases h)⟩
      · rw [hbuffer]
        exact List.take_prefix _ _
      · cases h
        have hlength : (sb.data.take total).length = total := by
          rw [List.length_take, Streambuf.length_data, Nat.min_eq_left hle]
        refine ⟨hlength.symm, ⟨fun hec => ?_, fun hsent => ?_⟩,
          exists_outcome hbuffer hwrites hle hall⟩
        · rw [hall hec, hbuffer, ← Streambuf.length_data, List.take_length]
        · by_contra hec
          have hall' : sb.data.take total = sb.data := hsent.trans hbuffer
          have hless := hpart hec hsize
          rw [← hlength, hall', Streambuf.length_data] at hless
          exact Nat.lt_irrefl _ hless

end

/-- A response on a connection with no write outstanding: whatever the socket takes at a time, its
peer gets what the connection has sent, and the connection is told the same. -/
theorem sends_of_run {funcs : CallbackTable} {conn : HttpConnction} {sb sb' : Streambuf}
    {body : Bytes} {as : List SocketWrite} {t : Writing × Bytes}
    (hbuffer : conn.mSendBuffer = sb.data) (hidle : conn.mSocket.writes = [])
    (hput : sb.sputn (conn.responseText body) = .ok sb')
    (hrun : Run Writing.step (fun _ _ => True) (Writing.initiate sb', []) as t)
    (registered : Bool) :
    Sends funcs ⟨conn.writeResponse body, registered⟩ t ∧
      as.length ≤ (conn.writeResponse body).mSendBuffer.length + 1 := by
  have hdata : sb'.data = sb.data ++ conn.responseText body := by
    by_cases hfits : sb.size + (conn.responseText body).length ≤ sb.maxSize
    · obtain ⟨sb₁, hput₁, hdata₁, -⟩ := Streambuf.sputn_of_le hfits
      obtain rfl := Except.ok.inj (hput.symm.trans hput₁)
      exact hdata₁
    · obtain ⟨e, he⟩ := Streambuf.sputn_of_lt (Nat.lt_of_not_le hfits)
      cases hput.symm.trans he
  have hout : (conn.writeResponse body).mSendBuffer = sb'.data := by
    rw [hdata, ← hbuffer]
    exact List.append_assoc ..
  have hwrites : (conn.writeResponse body).mSocket.writes = [sb'.data] := by
    rw [← hout]
    change conn.mSocket.writes ++ [_] = _
    rw [hidle]
    rfl
  have hsize : sb'.size ≠ 0 := by
    rw [← Streambuf.length_data, hdata, List.length_append]
    have hhead : (conn.responseText body).length ≠ 0 := length_responseText_ne_zero conn body
    omega
  obtain ⟨hfaithful, hlength⟩ := Writing.faithful_of_run hrun
  refine ⟨sends_of_faithful hout hwrites hsize hfaithful, ?_⟩
  rw [hout, Streambuf.length_data]
  omega

def asked : HttpConnction := (HttpConnction.create (.uninitialised 1 1 0 false) []).accepted

/-- The socket takes ten bytes of the response, and then the rest of it. -/
theorem sends_of_shortWrite :
    ∃ sb t, (Streambuf.create 512).sputn (asked.responseText (str "a")) = .ok sb ∧
      Run Writing.step (fun _ _ => True) (Writing.initiate sb, []) [.done 10, .done 61] t ∧
      Writing.left sb t = 0 ∧ Sends [] ⟨asked.writeResponse (str "a"), true⟩ t := by
  have hexec : (((Streambuf.create 512).sputn (asked.responseText (str "a"))).toOption.any
      fun sb => (exec Writing.step (fun _ _ => True) (Writing.initiate sb, [])
        [.done 10, .done 61]).any fun t => Writing.left sb t = 0) = true := by
    decide +kernel
  cases hput : (Streambuf.create 512).sputn (asked.responseText (str "a")) with
  | error e =>
      rw [hput] at hexec
      cases hexec
  | ok sb =>
      rw [hput] at hexec
      obtain ⟨t, hrun, hdone⟩ := exists_run_of_exec hexec
      exact ⟨sb, t, rfl, hrun, hdone, (sends_of_run rfl rfl hput hrun true).1⟩

end BtcServer.HttpmessageServer
