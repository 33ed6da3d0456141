import BtcServer.Boost.Asio
import BtcServer.HttpmessageServer.RequestParser

/-!
# Connections

`http_connction` of `http_connection.cpp`.  The object carries the state of its socket and a log of
what it has done, which no handler reads.  Beside its own fields a handler reaches the manager and
the server through references; `Host` is this surrounding, and the handlers are written once for
every surrounding.  A callback is opaque to the connection: which calls it makes before it returns
is given to the handler as `calls`.
-/

namespace BtcServer.HttpmessageServer

open Boost

/-- The identity of a registered function object. -/
abbrev Callback := Nat

/-- `http_request_callback_table`, a map from URIs. -/
abbrev CallbackTable := List (Bytes × Callback)

/-- What a connection did, oldest first. -/
inductive Event
  /-- `start` armed the first read. -/
  | started
  /-- `handle_read_headers` took a block and parsed it, consuming so many bytes. -/
  | parsed (block : Bytes) (result : Tribool) (consumed : Nat)
  /-- `handle_read_body` took a body. -/
  | gotBody (body : Bytes)
  /-- `handle_request` was called and found a callback, which it invoked, or none. -/
  | requested (req : Request) (callback : Option Callback)
  /-- `write_response` was called while the request had this version. -/
  | responded (major minor : Int) (body : Bytes)
  /-- An `async_write` handed these bytes to the socket. -/
  | sent (data : Bytes)
  /-- A write completed. -/
  | written (ec : ErrorCode)
  /-- `stop` was executed. -/
  | stopped
  deriving DecidableEq, Repr

/-- The events of the read side. -/
def Event.isRead : Event → Bool
  | .parsed .. | .gotBody .. | .requested .. => true
  | _ => false

def readEvents (log : List Event) : List Event := log.filter Event.isRead

/-- The request and the callback of an event that invoked one. -/
def Event.invocation : Event → Option (Request × Callback)
  | .requested req (some cb) => some (req, cb)
  | _ => none

def invocations (log : List Event) : List (Request × Callback) := log.filterMap Event.invocation

@[simp] theorem readEvents_append (log new : List Event) :
    readEvents (log ++ new) = readEvents log ++ readEvents new :=
  List.filter_append ..

@[simp] theorem invocations_append (log new : List Event) :
    invocations (log ++ new) = invocations log ++ invocations new :=
  List.filterMap_append ..

theorem invocations_readEvents (log : List Event) :
    invocations (readEvents log) = invocations log := by
  unfold readEvents invocations
  rw [List.filterMap_filter]
  apply List.filterMap_congr
  intro e _
  cases e <;> rfl

structure HttpConnction where
  mSocket : Socket
  mRecvBuffer : Bytes
  mSendBuffer : Bytes
  mRequest : Request
  mRequestParser : RequestParser
  mAbort : Bool
  log : List Event
  deriving DecidableEq, Repr

/-- `out << value` for an `int`. -/
def formatInt : Int → Bytes
  | .ofNat n => (Nat.toDigits 10 n).map Char.toUInt8
  | .negSucc n => '-'.toUInt8 :: (Nat.toDigits 10 (n + 1)).map Char.toUInt8

/-- What `write_response` puts in front of a body. -/
def responseHead (major minor : Int) (length : Nat) : Bytes :=
  str "HTTP/" ++ formatInt major ++ str "." ++ formatInt minor ++ str " 200 OK\r\n" ++
    str "Content-Type: application/json\r\n" ++
    (str "Content-Length: " ++ formatInt length ++ str "\r\n") ++
    str "\r\n"

/-- The lengths a body may have; `handle_read_headers` stops the connection on all others. -/
def Request.BodyAdmitted (req : Request) : Prop :=
  ¬ (req.contentLength = 0 ∨ req.contentLength ≥ 66536)

instance : DecidablePred Request.BodyAdmitted := fun _ => inferInstanceAs (Decidable (¬ _))

theorem Request.bodyAdmitted_iff (req : Request) :
    req.BodyAdmitted ↔ 1 ≤ req.contentLength.toNat ∧ req.contentLength.toNat < 66536 := by
  unfold BodyAdmitted
  rw [not_or, ← UInt64.toNat_inj, ge_iff_le, UInt64.le_iff_toNat_le]
  simp only [UInt64.reduceToNat]
  omega

namespace HttpConnction

/-- The constructor.  `req` is the uninitialised request, `stream` what the peer will send. -/
def create (req : Request) (stream : Bytes) : HttpConnction where
  mSocket := { isOpen := false, unread := stream, reads := [], writes := [] }
  mRecvBuffer := []
  mSendBuffer := []
  mRequest := req
  mRequestParser := .fresh
  mAbort := false
  log := []

/-- `async_accept` connects the socket. -/
def accepted (conn : HttpConnction) : HttpConnction :=
  { conn with mSocket := { conn.mSocket with isOpen := true } }

def record (conn : HttpConnction) (e : Event) : HttpConnction :=
  { conn with log := conn.log ++ [e] }

def armRead (conn : HttpConnction) (op : ReadOp) : HttpConnction :=
  { conn with mSocket := { conn.mSocket with reads := conn.mSocket.reads ++ [op] } }

/-- `async_read_until` with `handle_read_headers` as its handler. -/
def readHeaders (conn : HttpConnction) : HttpConnction :=
  conn.armRead (.readUntil (str "\r\n\r\n"))

/-- `async_read` of exactly `n` bytes with `handle_read_body` as its handler. -/
def readBody (conn : HttpConnction) (n : Nat) : HttpConnction :=
  conn.armRead (.readExactly n n)

/-- `start`; the error code is the one of `set_option`, and a failure throws. -/
def start (conn : HttpConnction) (ec : ErrorCode) : Except String HttpConnction :=
  let conn := { conn with mRecvBuffer := consume conn.mRecvBuffer conn.mRecvBuffer.length }
  if ec.failed then .error "error:set Options"
  else .ok (conn.readHeaders.record .started)

def stop (conn : HttpConnction) : HttpConnction :=
  { conn with mAbort := true, mSocket := { conn.mSocket with isOpen := false } }.record .stopped

/-- Lines 60 to 67 of `handle_read_headers`: copy the block, put a NUL behind it and parse. -/
def parseHeaders (conn : HttpConnction) (length : Nat) : Tribool × HttpConnction :=
  let got := sgetn conn.mRecvBuffer (List.replicate (length + 1) 0) length
  let r := conn.mRequestParser.parse conn.mRequest got.1
  (r.result,
    { conn with mRecvBuffer := got.2, mRequest := r.req, mRequestParser := r.parser }.record
      (.parsed (conn.mRecvBuffer.take length) r.result (got.1.length - r.begin_.length)))

def normalise (conn : HttpConnction) : HttpConnction :=
  { conn with mRequest := conn.mRequest.normalise }

/-- Lines 129 and 130 of `handle_read_body`. -/
def takeBody (conn : HttpConnction) : HttpConnction :=
  let n := conn.mRequest.contentLength.toNat
  let got := sgetn conn.mRecvBuffer (resize conn.mRequest.body n) n
  { conn with mRequest := { conn.mRequest with body := got.1 }, mRecvBuffer := got.2 }.record
    (.gotBody (conn.mRecvBuffer.take n))

def writeResponse (conn : HttpConnction) (body : Bytes) : HttpConnction :=
  let major := conn.mRequest.httpVersionMajor
  let minor := conn.mRequest.httpVersionMinor
  let out := conn.mSendBuffer ++ responseHead major minor body.length ++ body
  ({ conn with
    mSendBuffer := out
    mSocket := { conn.mSocket with writes := conn.mSocket.writes ++ [out] } }.record
      (.responded major minor body)).record (.sent out)

/-- `http_server::handle_request` of the connection itself; `put` puts it where it stands, and `run`
is the callback. -/
def handleRequest {σ : Type} (conn : HttpConnction) (funcs : CallbackTable)
    (put : HttpConnction → σ) (run : σ → σ) : Bool × σ :=
  let callback := funcs.lookup conn.mRequest.uri
  let s := put (conn.record (.requested conn.mRequest callback))
  match callback with
  | none => (false, s)
  | some _ => (true, run s)

section HandleRequest

variable {σ : Type} {conn : HttpConnction} {funcs : CallbackTable} {put : HttpConnction → σ}
  {run : σ → σ}

theorem handleRequest_of_none (h : funcs.lookup conn.mRequest.uri = none) :
    conn.handleRequest funcs put run =
      (false, put (conn.record (.requested conn.mRequest none))) := by
  unfold handleRequest
  dsimp only
  rw [h]

theorem handleRequest_of_some {callback : Callback}
    (h : funcs.lookup conn.mRequest.uri = some callback) :
    conn.handleRequest funcs put run =
      (true, run (put (conn.record (.requested conn.mRequest (some callback))))) := by
  unfold handleRequest
  dsimp only
  rw [h]

theorem handleRequest_rule {Q : σ → Prop}
    (hrecorded : Q (put (conn.record (.requested conn.mRequest (funcs.lookup conn.mRequest.uri)))))
    (hrun : ∀ s, Q s → Q (run s)) : Q (conn.handleRequest funcs put run).2 := by
  unfold handleRequest
  dsimp only
  split
  · exact hrecorded
  · exact hrun _ hrecorded

end HandleRequest

end HttpConnction

/-- What the handlers of one connection reach: the object itself, the manager's `stop` of it, and
`http_server::handle_request`, which may run a callback. -/
structure Host (σ : Type) where
  conn : σ → HttpConnction
  setConn : σ → HttpConnction → σ
  managerStop : σ → σ
  handleRequest : σ → Bool × σ
  conn_setConn : ∀ s c, conn (setConn s c) = c
  setConn_setConn : ∀ s c d, setConn (setConn s c) d = setConn s d

attribute [simp] Host.conn_setConn Host.setConn_setConn

namespace Host

variable {σ : Type} (h : Host σ)

/-- The end both read handlers share: dispatch the request, then stop, go on reading or neither. -/
def dispatch (s : σ) : σ :=
  match h.handleRequest s with
  | (false, s) => h.managerStop s
  | (true, s) =>
      if (h.conn s).mRequest.keepAlive then h.setConn s (h.conn s).readHeaders else s

def handleReadBody (ec : ErrorCode) (_length : Nat) (s : σ) : σ :=
  if ec.failed || (h.conn s).mAbort then h.managerStop s
  else h.dispatch (h.setConn s (h.conn s).takeBody)

/-- `handle_read_headers` behind the guard on `result`. -/
def handleRequestHead (ec : ErrorCode) (s : σ) : σ :=
  let conn := (h.conn s).normalise
  let s := h.setConn s conn
  if conn.mRequest.method = str "post" then
    let contentLength := conn.mRequest.contentLength
    if contentLength = 0 ∨ contentLength ≥ 66536 then h.managerStop s
    else if conn.mRecvBuffer.length ≥ contentLength.toNat then
      h.handleReadBody ec contentLength.toNat s
    else h.setConn s (conn.readBody (contentLength.toNat - conn.mRecvBuffer.length))
  else h.dispatch s

def handleReadHeaders (ec : ErrorCode) (length : Nat) (s : σ) : σ :=
  if ec.failed || (h.conn s).mAbort then h.managerStop s
  else
    let parsed := (h.conn s).parseHeaders length
    let s := h.setConn s parsed.2
    if (parsed.1.not.or (Tribool.indeterminateValue.eq parsed.1)).toBool then h.managerStop s
    else h.handleRequestHead ec s

def handleWrite (ec : ErrorCode) (_length : Nat) (s : σ) : σ :=
  if ec.failed || (h.conn s).mAbort || !(h.conn s).mRequest.keepAlive then h.managerStop s else s

/-- The handler a read was started with. -/
def handleRead (op : ReadOp) (ec : ErrorCode) (length : Nat) (s : σ) : σ :=
  match op with
  | .readUntil _ => h.handleReadHeaders ec length s
  | .readExactly _ _ => h.handleReadBody ec length s

/-! ### Rules

What a read handler can end in, as a rule for each of them: to show `Q` of the result it is enough
to show it at every exit. -/

variable {h} {Q : σ → Prop} {s : σ} {length : Nat}

theorem handleReadBody_rule
    (haborted : (h.conn s).mAbort = true → Q (h.managerStop s))
    (hbody : (h.conn s).mAbort = false → Q (h.dispatch (h.setConn s (h.conn s).takeBody))) :
    Q (h.handleReadBody .success length s) := by
  unfold handleReadBody
  cases habort : (h.conn s).mAbort with
  | true => simpa using haborted habort
  | false => simpa [ErrorCode.failed] using hbody habort

theorem handleReadHeaders_rule
    (haborted : (h.conn s).mAbort = true → Q (h.managerStop s))
    (hrefused : ∀ conn, (h.conn s).mAbort = false →
      (h.conn s).parseHeaders length = (.falseValue, conn) → Q (h.managerStop (h.setConn s conn)))
    (hlength : ∀ result conn, (h.conn s).mAbort = false →
      (h.conn s).parseHeaders length = (result, conn) → result ≠ .falseValue →
      conn.normalise.mRequest.method = str "post" →
      ¬ conn.normalise.mRequest.BodyAdmitted →
      Q (h.managerStop (h.setConn s conn.normalise)))
    (hwait : ∀ result conn, (h.conn s).mAbort = false →
      (h.conn s).parseHeaders length = (result, conn) → result ≠ .falseValue →
      conn.normalise.mRequest.method = str "post" →
      conn.normalise.mRequest.BodyAdmitted →
      conn.mRecvBuffer.length < conn.normalise.mRequest.contentLength.toNat →
      Q (h.setConn s (conn.normalise.readBody
        (conn.normalise.mRequest.contentLength.toNat - conn.mRecvBuffer.length))))
    (hbody : ∀ result conn, (h.conn s).mAbort = false →
      (h.conn s).parseHeaders length = (result, conn) → result ≠ .falseValue →
      conn.normalise.mRequest.method = str "post" →
      conn.normalise.mRequest.BodyAdmitted →
      conn.normalise.mRequest.contentLength.toNat ≤ conn.mRecvBuffer.length →
      Q (h.dispatch (h.setConn s conn.normalise.takeBody)))
    (hhead : ∀ result conn, (h.conn s).mAbort = false →
      (h.conn s).parseHeaders length = (result, conn) → result ≠ .falseValue →
      conn.normalise.mRequest.method ≠ str "post" →
      Q (h.dispatch (h.setConn s conn.normalise))) :
    Q (h.handleReadHeaders .success length s) := by
  unfold handleReadHeaders
  cases habort : (h.conn s).mAbort with
  | true => simpa using haborted habort
  | false =>
      rcases hparse : (h.conn s).parseHeaders length with ⟨result, conn⟩
      have hconn : conn.mAbort = false := by
        rw [← show _ = conn from congrArg Prod.snd hparse]
        exact habort
      simp only [ErrorCode.failed, ne_eq, not_true_eq_false, decide_false, Bool.or_self,
        Bool.false_eq_true, if_false, Tribool.not_or_eq_indeterminate_toBool, decide_eq_true_eq]
      by_cases hresult : result = .falseValue
      · rw [if_pos hresult]
        exact hrefused conn habort (by rw [hparse, hresult])
      · rw [if_neg hresult]
        unfold handleRequestHead
        simp only [conn_setConn, setConn_setConn]
        split_ifs with hpost hbad hgot
        · exact hlength result conn habort hparse hresult hpost (not_not_intro hbad)
        · apply handleReadBody_rule
          · intro hclosed
            rw [conn_setConn] at hclosed
            rw [show conn.normalise.mAbort = conn.mAbort from rfl, hconn] at hclosed
            cases hclosed
          · intro _
            simp only [conn_setConn, setConn_setConn]
            exact hbody result conn habort hparse hresult hpost hbad hgot
        · exact hwait result conn habort hparse hresult hpost hbad (Nat.lt_of_not_le hgot)
        · exact hhead result conn habort hparse hresult hpost

theorem handleRead_failed {ec : ErrorCode} (hec : ec.failed = true) (op : ReadOp) :
    h.handleRead op ec length s = h.managerStop s := by
  cases op <;> simp [handleRead, handleReadHeaders, handleReadBody, hec]

end Host

/-! ## Completions -/

/-- A call a callback can make before it returns; `τ` refers to the connection it is made on. -/
inductive Call (τ : Type)
  | writeResponse (target : τ) (body : Bytes)
  | stop (target : τ)
  | stopAll
  deriving DecidableEq, Repr

/-- What asio can do next for one connection.  Outstanding operations are referred to by their place
in the list. -/
inductive IoAction (τ : Type)
  /-- The socket delivers `n` bytes to the `i`-th read. -/
  | receive (i n : Nat)
  /-- The `i`-th read has completed and its handler runs; `calls` is what the callback does. -/
  | readDone (i : Nat) (calls : List (Call τ))
  /-- The `i`-th read has failed and its handler runs. -/
  | readFailed (i : Nat) (ec : ErrorCode)
  /-- The `i`-th write has sent everything and its handler runs. -/
  | writeDone (i : Nat)
  /-- The `i`-th write has failed after `n` bytes and its handler runs. -/
  | writeFailed (i : Nat) (ec : ErrorCode) (n : Nat)
  deriving DecidableEq, Repr

namespace HttpConnction

/-- A read that is not yet complete takes `n` bytes from the open socket. -/
def receive (conn : HttpConnction) (i n : Nat) : Option HttpConnction :=
  match conn.mSocket.reads[i]? with
  | none => none
  | some op =>
      if conn.mSocket.isOpen ∧ op.ready conn.mRecvBuffer = none ∧ 1 ≤ n ∧
          n ≤ conn.mSocket.unread.length ∧ op.accepts n then
        some { conn with
          mRecvBuffer := conn.mRecvBuffer ++ conn.mSocket.unread.take n
          mSocket := { conn.mSocket with
            unread := conn.mSocket.unread.drop n
            reads := conn.mSocket.reads.set i (op.advance n) } }
      else none

def popRead (conn : HttpConnction) (i : Nat) : HttpConnction :=
  { conn with mSocket := { conn.mSocket with reads := conn.mSocket.reads.eraseIdx i } }

/-- A read can report `ec`: the end of the stream only when nothing is left of it and the read is
not complete, other errors at any time. -/
def canFail (conn : HttpConnction) (op : ReadOp) (ec : ErrorCode) : Bool :=
  match ec with
  | .success => false
  | .eof => conn.mSocket.isOpen && conn.mSocket.unread = [] && op.ready conn.mRecvBuffer = none
  | _ => true

/-- The completion of a write of a streambuf: consume what was transferred, then run the handler. -/
def popWrite (conn : HttpConnction) (i n : Nat) (ec : ErrorCode) : HttpConnction :=
  { conn with
    mSendBuffer := consume conn.mSendBuffer n
    mSocket := { conn.mSocket with writes := conn.mSocket.writes.eraseIdx i } }.record (.written ec)

end HttpConnction

/-- One step of asio for the connection of a host; `host calls` is the surrounding in which a
callback makes the given calls. -/
def ioStep {σ τ : Type} (host : List (Call τ) → Host σ) (s : σ) : IoAction τ → Option σ
  | .receive i n => (((host []).conn s).receive i n).map ((host []).setConn s)
  | .readDone i calls =>
      let h := host calls
      let conn := h.conn s
      match conn.mSocket.reads[i]? with
      | none => none
      | some op =>
          (op.ready conn.mRecvBuffer).map fun length =>
            h.handleRead op .success length (h.setConn s (conn.popRead i))
  | .readFailed i ec =>
      let h := host []
      let conn := h.conn s
      match conn.mSocket.reads[i]? with
      | none => none
      | some op =>
          if conn.canFail op ec then
            some (h.handleRead op ec op.failedLength (h.setConn s (conn.popRead i)))
          else none
  | .writeDone i =>
      let h := host []
      let conn := h.conn s
      (conn.mSocket.writes[i]?).map fun data =>
        h.handleWrite .success data.length (h.setConn s (conn.popWrite i data.length .success))
  | .writeFailed i ec n =>
      let h := host []
      let conn := h.conn s
      match conn.mSocket.writes[i]? with
      | none => none
      | some data =>
          if ec.failed ∧ n ≤ data.length then
            some (h.handleWrite ec n (h.setConn s (conn.popWrite i n ec)))
          else none

section IoStep

variable {σ τ : Type} {host : List (Call τ) → Host σ} {s t : σ} {i n length : Nat} {ec : ErrorCode}
  {calls : List (Call τ)} {op : ReadOp}

theorem HttpConnction.receive_eq_some {conn conn' : HttpConnction}
    (h : conn.receive i n = some conn') :
    ∃ op, conn.mSocket.reads[i]? = some op ∧ conn.mSocket.isOpen = true ∧
      op.ready conn.mRecvBuffer = none ∧ 1 ≤ n ∧ n ≤ conn.mSocket.unread.length ∧
      op.accepts n = true ∧ conn' = { conn with
        mRecvBuffer := conn.mRecvBuffer ++ conn.mSocket.unread.take n
        mSocket := { conn.mSocket with
          unread := conn.mSocket.unread.drop n
          reads := conn.mSocket.reads.set i (op.advance n) } } := by
  unfold HttpConnction.receive at h
  split at h
  case h_1 => cases h
  case h_2 op hop =>
    split at h
    case isFalse => cases h
    case isTrue hok =>
      obtain ⟨hopen, hready, hn, hle, haccepts⟩ := hok
      exact ⟨op, hop, hopen, hready, hn, hle, haccepts, (Option.some.inj h).symm⟩

theorem readDone_of_ioStep (h : ioStep host s (.readDone i calls) = some t) :
    ∃ op length, ((host calls).conn s).mSocket.reads[i]? = some op ∧
      op.ready ((host calls).conn s).mRecvBuffer = some length ∧
      t = (host calls).handleRead op .success length
        ((host calls).setConn s (((host calls).conn s).popRead i)) := by
  unfold ioStep at h
  dsimp only at h
  split at h
  case h_1 => cases h
  case h_2 op hop =>
    obtain ⟨length, hready, rfl⟩ := Option.map_eq_some_iff.mp h
    exact ⟨op, length, hop, hready, rfl⟩

theorem ioStep_readDone (hop : ((host calls).conn s).mSocket.reads[i]? = some op)
    (hready : op.ready ((host calls).conn s).mRecvBuffer = some length) :
    ioStep host s (.readDone i calls) = some ((host calls).handleRead op .success length
      ((host calls).setConn s (((host calls).conn s).popRead i))) := by
  unfold ioStep
  dsimp only
  rw [hop]
  dsimp only
  rw [hready]
  rfl

theorem ioStep_readDone_eq_none (hnone : ((host calls).conn s).mSocket.reads[i]? = none) :
    ioStep host s (.readDone i calls) = none := by
  unfold ioStep
  dsimp only
  rw [hnone]

theorem readFailed_of_ioStep (h : ioStep host s (.readFailed i ec) = some t) :
    ∃ op, ((host []).conn s).mSocket.reads[i]? = some op ∧
      ((host []).conn s).canFail op ec = true ∧
      t = (host []).handleRead op ec op.failedLength
        ((host []).setConn s (((host []).conn s).popRead i)) := by
  unfold ioStep at h
  dsimp only at h
  split at h
  case h_1 => cases h
  case h_2 op hop =>
    split_ifs at h with hfail
    exact ⟨op, hop, hfail, (Option.some.inj h).symm⟩

theorem writeDone_of_ioStep (h : ioStep host s (.writeDone i) = some t) :
    ∃ data, ((host []).conn s).mSocket.writes[i]? = some data ∧
      t = (host []).handleWrite .success data.length
        ((host []).setConn s (((host []).conn s).popWrite i data.length .success)) := by
  obtain ⟨data, hdata, rfl⟩ := Option.map_eq_some_iff.mp h
  exact ⟨data, hdata, rfl⟩

theorem writeFailed_of_ioStep (h : ioStep host s (.writeFailed i ec n) = some t) :
    ∃ data, ((host []).conn s).mSocket.writes[i]? = some data ∧ ec.failed = true ∧
      n ≤ data.length ∧ t = (host []).handleWrite ec n
        ((host []).setConn s (((host []).conn s).popWrite i n ec)) := by
  unfold ioStep at h
  dsimp only at h
  split at h
  case h_1 => cases h
  case h_2 data hdata =>
    split_ifs at h with hok
    exact ⟨data, hdata, hok.1, hok.2, (Option.some.inj h).symm⟩

end IoStep

end BtcServer.HttpmessageServer
