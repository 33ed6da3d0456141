import BtcServer.HttpmessageServer.StreamReader
import BtcServer.Lib.History
import BtcServer.Lib.Run

/-!
# One connection and its surroundings

A `Link` is a started connection together with its membership in the manager's set.  Asio completes
its operations in any order, the callbacks it invokes make any calls on it, and others that hold a
pointer to it may call `write_response` or have the manager stop it at any time.

`Effect` says what one action does, with the read side described by the reader of the whole stream.
Every property of runs is proved from it.
-/

namespace BtcServer.HttpmessageServer

open Boost Lib

structure Link where
  conn : HttpConnction
  registered : Bool
  deriving DecidableEq, Repr

/-- The reader that stands where the connection stands. -/
def HttpConnction.reader (conn : HttpConnction) : StreamReader where
  phase :=
    match conn.mSocket.reads with
    | [] => .done
    | .readUntil _ :: _ => .head
    | .readExactly _ _ :: _ => .body
  parser := conn.mRequestParser
  req := conn.mRequest
  input := conn.mRecvBuffer ++ conn.mSocket.unread

namespace Link

def managerStop (l : Link) : Link := ⟨l.conn.stop, false⟩

/-- A call that a callback makes; `stopAll` reaches the connections of the set. -/
def call (l : Link) : Call Unit → Link
  | .writeResponse _ body => { l with conn := l.conn.writeResponse body }
  | .stop _ => l.managerStop
  | .stopAll => if l.registered then l.managerStop else l

def runCallback (calls : List (Call Unit)) (l : Link) : Link := calls.foldl call l

def handleRequest (funcs : CallbackTable) (calls : List (Call Unit)) (l : Link) : Bool × Link :=
  l.conn.handleRequest funcs (fun conn => { l with conn := conn }) (runCallback calls)

section HandleRequest

variable {funcs : CallbackTable} {calls : List (Call Unit)} {l : Link}

theorem handleRequest_of_none (h : funcs.lookup l.conn.mRequest.uri = none) :
    l.handleRequest funcs calls =
      (false, { l with conn := l.conn.record (.requested l.conn.mRequest none) }) :=
  HttpConnction.handleRequest_of_none h

theorem handleRequest_of_some {callback : Callback}
    (h : funcs.lookup l.conn.mRequest.uri = some callback) :
    l.handleRequest funcs calls =
      (true, runCallback calls
        { l with conn := l.conn.record (.requested l.conn.mRequest (some callback)) }) :=
  HttpConnction.handleRequest_of_some h

end HandleRequest

def host (funcs : CallbackTable) (calls : List (Call Unit)) : Host Link where
  conn := Link.conn
  setConn l conn := { l with conn := conn }
  managerStop := managerStop
  handleRequest := handleRequest funcs calls
  conn_setConn _ _ := rfl
  setConn_setConn _ _ _ := rfl

section Dispatch

variable {funcs : CallbackTable} {calls : List (Call Unit)} {l : Link}

theorem dispatch_of_none (h : funcs.lookup l.conn.mRequest.uri = none) :
    (host funcs calls).dispatch l =
      managerStop { l with conn := l.conn.record (.requested l.conn.mRequest none) } := by
  have hhandle : (host funcs calls).handleRequest l = _ := handleRequest_of_none h
  unfold Host.dispatch
  rw [hhandle]
  rfl

theorem dispatch_of_some {callback : Callback} {t : Link}
    (h : funcs.lookup l.conn.mRequest.uri = some callback)
    (ht : t = runCallback calls
      { l with conn := l.conn.record (.requested l.conn.mRequest (some callback)) }) :
    (host funcs calls).dispatch l =
      if t.conn.mRequest.keepAlive = true then { t with conn := t.conn.readHeaders } else t := by
  have hhandle : (host funcs calls).handleRequest l = (true, t) :=
    (handleRequest_of_some h).trans (ht ▸ rfl)
  unfold Host.dispatch
  rw [hhandle]
  rfl

theorem handleReadBody_eq (ec : ErrorCode) (length : Nat) (l : Link) :
    (host funcs calls).handleReadBody ec length l =
      if (ec.failed || l.conn.mAbort) = true then l.managerStop
      else (host funcs calls).dispatch { l with conn := l.conn.takeBody } :=
  rfl

theorem handleRequestHead_eq (ec : ErrorCode) {n : Link}
    (hn : n = { l with conn := l.conn.normalise }) :
    (host funcs calls).handleRequestHead ec l =
      if n.conn.mRequest.method = str "post" then
        if n.conn.mRequest.contentLength = 0 ∨ n.conn.mRequest.contentLength ≥ 66536 then
          n.managerStop
        else if n.conn.mRecvBuffer.length ≥ n.conn.mRequest.contentLength.toNat then
          (host funcs calls).handleReadBody ec n.conn.mRequest.contentLength.toNat n
        else
          { n with
            conn := n.conn.readBody
              (n.conn.mRequest.contentLength.toNat - n.conn.mRecvBuffer.length) }
      else (host funcs calls).dispatch n := by
  rw [hn]
  rfl

theorem handleReadHeaders_eq (ec : ErrorCode) (length : Nat) (l : Link) :
    (host funcs calls).handleReadHeaders ec length l =
      if (ec.failed || l.conn.mAbort) = true then l.managerStop
      else if ((l.conn.parseHeaders length).1.not.or
          (Tribool.indeterminateValue.eq (l.conn.parseHeaders length).1)).toBool = true then
        managerStop { l with conn := (l.conn.parseHeaders length).2 }
      else
        (host funcs calls).handleRequestHead ec { l with conn := (l.conn.parseHeaders length).2 } :=
  rfl

end Dispatch

inductive Action
  | io (a : IoAction Unit)
  /-- Someone to whom a callback was given the connection calls `write_response`. -/
  | respond (body : Bytes)
  /-- The manager stops the connection, alone or with all others. -/
  | stop
  deriving DecidableEq, Repr

def Action.isReadDone : Action → Bool
  | .io (.readDone _ _) => true
  | _ => false

def step (funcs : CallbackTable) (l : Link) : Action → Option Link
  | .io a => ioStep (host funcs) l a
  | .respond body =>
      if invocations l.conn.log ≠ [] then some { l with conn := l.conn.writeResponse body }
      else none
  | .stop => some l.managerStop

/-- An accepted connection after `http_connection_manager::start`. -/
def started (req : Request) (stream : Bytes) : Link where
  conn := ((HttpConnction.create req stream).accepted.readHeaders).record .started
  registered := true

theorem start_accepted (req : Request) (stream : Bytes) :
    (HttpConnction.create req stream).accepted.start .success = .ok (started req stream).conn :=
  rfl

/-! ## What a callback leaves alone -/

/-- `t` comes from `s` by calls a callback can make. -/
structure Aside (s t : Link) : Prop where
  recvBuffer_eq : t.conn.mRecvBuffer = s.conn.mRecvBuffer
  request_eq : t.conn.mRequest = s.conn.mRequest
  parser_eq : t.conn.mRequestParser = s.conn.mRequestParser
  reads_eq : t.conn.mSocket.reads = s.conn.mSocket.reads
  unread_eq : t.conn.mSocket.unread = s.conn.mSocket.unread
  readEvents_eq : readEvents t.conn.log = readEvents s.conn.log
  abort_mono : s.conn.mAbort = true → t.conn.mAbort = true
  registered_eq : s.registered = (!s.conn.mAbort) → t.registered = !t.conn.mAbort
  isOpen_eq : s.conn.mSocket.isOpen = (!s.conn.mAbort) →
    t.conn.mSocket.isOpen = !t.conn.mAbort

namespace Aside

variable {s t u : Link}

theorem refl (s : Link) : Aside s s :=
  ⟨rfl, rfl, rfl, rfl, rfl, rfl, id, id, id⟩

theorem trans (h₁ : Aside s t) (h₂ : Aside t u) : Aside s u where
  recvBuffer_eq := h₂.recvBuffer_eq.trans h₁.recvBuffer_eq
  request_eq := h₂.request_eq.trans h₁.request_eq
  parser_eq := h₂.parser_eq.trans h₁.parser_eq
  reads_eq := h₂.reads_eq.trans h₁.reads_eq
  unread_eq := h₂.unread_eq.trans h₁.unread_eq
  readEvents_eq := h₂.readEvents_eq.trans h₁.readEvents_eq
  abort_mono := fun h => h₂.abort_mono (h₁.abort_mono h)
  registered_eq := fun h => h₂.registered_eq (h₁.registered_eq h)
  isOpen_eq := fun h => h₂.isOpen_eq (h₁.isOpen_eq h)

theorem writeResponse (s : Link) (body : Bytes) :
    Aside s { s with conn := s.conn.writeResponse body } where
  recvBuffer_eq := rfl
  request_eq := rfl
  parser_eq := rfl
  reads_eq := rfl
  unread_eq := rfl
  readEvents_eq := by
    simp [HttpConnction.writeResponse, HttpConnction.record, readEvents, Event.isRead]
  abort_mono := id
  registered_eq := id
  isOpen_eq := id

theorem managerStop (s : Link) : Aside s s.managerStop where
  recvBuffer_eq := rfl
  request_eq := rfl
  parser_eq := rfl
  reads_eq := rfl
  unread_eq := rfl
  readEvents_eq := by
    simp [Link.managerStop, HttpConnction.stop, HttpConnction.record, readEvents, Event.isRead]
  abort_mono := fun _ => rfl
  registered_eq := fun _ => rfl
  isOpen_eq := fun _ => rfl

theorem call (s : Link) (c : Call Unit) : Aside s (s.call c) := by
  unfold Link.call
  cases c with
  | writeResponse _ body => exact writeResponse s body
  | stop _ => exact managerStop s
  | stopAll =>
      show Aside s (if s.registered = true then s.managerStop else s)
      by_cases h : s.registered = true
      · rw [if_pos h]
        exact managerStop s
      · rw [if_neg h]
        exact refl s

theorem runCallback (calls : List (Call Unit)) (s : Link) : Aside s (s.runCallback calls) := by
  induction calls generalizing s with
  | nil => exact refl s
  | cons c calls ih => exact (call s c).trans (ih (s.call c))

theorem of_eq_runCallback {s t : Link} {calls : List (Call Unit)} (h : t = s.runCallback calls) :
    Aside s t :=
  h ▸ runCallback calls s

end Aside

/-! ## Whatever the callback does -/

section SameRead

variable {funcs : CallbackTable} {calls calls' : List (Call Unit)} {ec : ErrorCode}
  {l t t' : Link}

/-- The two links have the same outstanding reads, the same request and have read the same. -/
structure SameRead (t t' : Link) : Prop where
  reads : t.conn.mSocket.reads = t'.conn.mSocket.reads
  mRequest : t.conn.mRequest = t'.conn.mRequest
  readEvents : readEvents t.conn.log = readEvents t'.conn.log

theorem SameRead.refl (t : Link) : SameRead t t := ⟨rfl, rfl, rfl⟩

theorem SameRead.of_aside (h : Aside l t) (h' : Aside l t') : SameRead t t' where
  reads := h.reads_eq.trans h'.reads_eq.symm
  mRequest := h.request_eq.trans h'.request_eq.symm
  readEvents := h.readEvents_eq.trans h'.readEvents_eq.symm

theorem SameRead.readHeaders (h : SameRead t t') :
    SameRead { t with conn := t.conn.readHeaders } { t' with conn := t'.conn.readHeaders } where
  reads := congrArg (fun reads : List ReadOp => reads ++ [.readUntil crlfCrlf]) h.reads
  mRequest := h.mRequest
  readEvents := h.readEvents

theorem sameRead_dispatch (funcs : CallbackTable) (calls calls' : List (Call Unit)) (l : Link) :
    SameRead ((host funcs calls).dispatch l) ((host funcs calls').dispatch l) := by
  cases hlookup : funcs.lookup l.conn.mRequest.uri with
  | none =>
      rw [dispatch_of_none hlookup, dispatch_of_none hlookup]
      exact .refl _
  | some callback =>
      have hafter := SameRead.of_aside
        (Aside.runCallback calls
          { l with conn := l.conn.record (.requested l.conn.mRequest (some callback)) })
        (Aside.runCallback calls' _)
      rw [dispatch_of_some hlookup rfl, dispatch_of_some hlookup rfl, hafter.mRequest]
      split
      · exact hafter.readHeaders
      · exact hafter

theorem sameRead_handleReadBody (length : Nat) (l : Link) :
    SameRead ((host funcs calls).handleReadBody ec length l)
      ((host funcs calls').handleReadBody ec length l) := by
  rw [handleReadBody_eq, handleReadBody_eq]
  split_ifs
  · exact .refl _
  · exact sameRead_dispatch funcs calls calls' _

theorem sameRead_handleRequestHead (l : Link) :
    SameRead ((host funcs calls).handleRequestHead ec l)
      ((host funcs calls').handleRequestHead ec l) := by
  rw [handleRequestHead_eq ec rfl, handleRequestHead_eq ec rfl]
  split_ifs
  · exact .refl _
  · exact sameRead_handleReadBody _ _
  · exact .refl _
  · exact sameRead_dispatch funcs calls calls' _

/-- What is read does not depend on what the callback does. -/
theorem sameRead_handleRead (funcs : CallbackTable) (calls calls' : List (Call Unit)) (op : ReadOp)
    (ec : ErrorCode) (length : Nat) (l : Link) :
    SameRead ((host funcs calls).handleRead op ec length l)
      ((host funcs calls').handleRead op ec length l) := by
  cases op with
  | readExactly wanted left => exact sameRead_handleReadBody length l
  | readUntil d =>
      change SameRead ((host funcs calls).handleReadHeaders ec length l)
        ((host funcs calls').handleReadHeaders ec length l)
      rw [handleReadHeaders_eq, handleReadHeaders_eq]
      split_ifs
      · exact .refl _
      · exact .refl _
      · exact sameRead_handleRequestHead _

end SameRead

/-! ## What a step does -/

/-- At most one read is outstanding, and one for a body waits for the rest of an admitted one. -/
def ReadsShape (conn : HttpConnction) : Prop :=
  conn.mSocket.reads = [] ∨ conn.mSocket.reads = [.readUntil crlfCrlf] ∨
    ∃ wanted left, conn.mSocket.reads = [.readExactly wanted left] ∧
      conn.mRequest.method = str "post" ∧ conn.mRequest.BodyAdmitted ∧
      conn.mRecvBuffer.length + left = conn.mRequest.contentLength.toNat

/-- The operations of a link and its flags fit together. -/
structure WellFormed (l : Link) : Prop where
  registered_eq : l.registered = !l.conn.mAbort
  isOpen_eq : l.conn.mSocket.isOpen = !l.conn.mAbort
  reads_shape : ReadsShape l.conn

/-- `s` after taking `k` bytes from its buffer and arriving where the reader `r` is. -/
def readUpTo (s : Link) (k : Nat) (r : StreamReader) (out : List Event) (reads : List ReadOp) :
    Link :=
  { s with conn := { s.conn with
      mRecvBuffer := s.conn.mRecvBuffer.drop k
      mRequest := r.req
      mRequestParser := r.parser
      mSocket := { s.conn.mSocket with reads := reads }
      log := s.conn.log ++ out } }

/-- The handler of a read took no block, or the one block at the front of the buffer. -/
def TookBlock (s : Link) (taken : List Bytes) : Prop :=
  taken = [] ∨ ∃ block rest, taken = [block] ∧ s.conn.mSocket.reads = [.readUntil crlfCrlf] ∧
    splitAfter crlfCrlf s.conn.mRecvBuffer = some (block, rest)

/-- A read handler of `s` takes `k` bytes, with the reader going to `r`. -/
structure Reads (funcs : CallbackTable) (s : Link) (k : Nat) (out : List Event) (r : StreamReader) :
    Prop where
  reads_ne_nil : s.conn.mSocket.reads ≠ []
  abort_eq : s.conn.mAbort = false
  emits : Emits (StreamReader.next funcs) s.conn.reader out r
  input_eq : r.input = s.conn.mRecvBuffer.drop k ++ s.conn.mSocket.unread
  tookBlock : s.TookBlock (blocks out)

inductive Effect (funcs : CallbackTable) (s : Link) : Action → Link → Prop
  | receive {i n : Nat} {op : ReadOp} (hreads : s.conn.mSocket.reads = [op])
      (habort : s.conn.mAbort = false) (hready : op.ready s.conn.mRecvBuffer = none) (hn : 1 ≤ n)
      (hle : n ≤ s.conn.mSocket.unread.length) (haccepts : op.accepts n = true) :
      Effect funcs s (.io (.receive i n))
        { s with conn := { s.conn with
          mRecvBuffer := s.conn.mRecvBuffer ++ s.conn.mSocket.unread.take n
          mSocket := { s.conn.mSocket with
            unread := s.conn.mSocket.unread.drop n
            reads := [op.advance n] } } }
  /-- The handler of a read finds the connection stopped. -/
  | late {i : Nat} {calls : List (Call Unit)} {op : ReadOp}
      (hreads : s.conn.mSocket.reads = [op]) (habort : s.conn.mAbort = true) :
      Effect funcs s (.io (.readDone i calls))
        (managerStop { s with conn := s.conn.popRead 0 })
  | readFailed {i : Nat} {ec : ErrorCode} {op : ReadOp} (hreads : s.conn.mSocket.reads = [op])
      (hfail : s.conn.canFail op ec = true) :
      Effect funcs s (.io (.readFailed i ec)) (managerStop { s with conn := s.conn.popRead 0 })
  /-- A block is refused, its length is, or no callback is found. -/
  | refused {i : Nat} {calls : List (Call Unit)} {k : Nat} {out : List Event} {r : StreamReader}
      (hr : Reads funcs s k out r) (hphase : r.phase = .done) (hnone : invocations out = []) :
      Effect funcs s (.io (.readDone i calls)) (managerStop (s.readUpTo k r out []))
  /-- The rest of a body is read. -/
  | waits {i : Nat} {calls : List (Call Unit)} {k n : Nat} {out : List Event} {r : StreamReader}
      (hr : Reads funcs s k out r) (hphase : r.phase = .body) (hnone : invocations out = [])
      (hmethod : r.req.method = str "post") (hadmitted : r.req.BodyAdmitted)
      (hlength : (s.conn.mRecvBuffer.drop k).length + n = r.req.contentLength.toNat) :
      Effect funcs s (.io (.readDone i calls)) (s.readUpTo k r out [.readExactly n n])
  /-- A callback is invoked, and the next block is read when the request asks for it. -/
  | invokes {i : Nat} {calls : List (Call Unit)} {k : Nat} {before : List Event}
      {callback : Callback} {r : StreamReader} {t : Link}
      (hr : Reads funcs s k (before ++ [.requested r.req (some callback)]) r)
      (hphase : r.phase = if r.req.keepAlive then .head else .done)
      (hnone : invocations before = [])
      (ht : t = (s.readUpTo k r (before ++ [.requested r.req (some callback)]) []).runCallback calls) :
      Effect funcs s (.io (.readDone i calls))
        (if r.req.keepAlive then { t with conn := t.conn.readHeaders } else t)
  | written {i n : Nat} {ec : ErrorCode} {data : Bytes} {a : Action}
      (hdata : s.conn.mSocket.writes[i]? = some data)
      (ha : a = .io (.writeDone i) ∧ ec = .success ∧ n = data.length ∨
        a = .io (.writeFailed i ec n) ∧ ec.failed = true ∧ n ≤ data.length) :
      Effect funcs s a
        (if ec.failed || s.conn.mAbort || !s.conn.mRequest.keepAlive then
          managerStop { s with conn := s.conn.popWrite i n ec }
        else { s with conn := s.conn.popWrite i n ec })
  | respond {body : Bytes} (hinvoked : invocations s.conn.log ≠ []) :
      Effect funcs s (.respond body) { s with conn := s.conn.writeResponse body }
  | stop : Effect funcs s .stop s.managerStop

end Link

theorem HttpConnction.parseHeaders_eq (conn : HttpConnction) {block rest : Bytes}
    (hcut : splitAfter crlfCrlf conn.mRecvBuffer = some (block, rest)) :
    conn.parseHeaders block.length =
      ((conn.mRequestParser.parse conn.mRequest (block ++ [0])).result,
        { conn with
          mRecvBuffer := conn.mRecvBuffer.drop block.length
          mRequest := (conn.mRequestParser.parse conn.mRequest (block ++ [0])).req
          mRequestParser := (conn.mRequestParser.parse conn.mRequest (block ++ [0])).parser
          log := conn.log ++ [.parsed block
            (conn.mRequestParser.parse conn.mRequest (block ++ [0])).result
            (block.length + 1 -
              (conn.mRequestParser.parse conn.mRequest (block ++ [0])).begin_.length)] }) := by
  have heq := splitAfter_eq_append hcut
  have hlen : block.length ≤ conn.mRecvBuffer.length := by
    rw [heq, List.length_append]
    omega
  have htake : conn.mRecvBuffer.take block.length = block := by
    rw [heq, List.take_left']
    rfl
  have hnul : (List.replicate (block.length + 1) (0 : UInt8)).drop block.length = [0] := by
    rw [List.drop_replicate, Nat.add_sub_cancel_left]
    rfl
  unfold parseHeaders record
  rw [sgetn_of_le hlen, htake, hnul]
  simp

theorem HttpConnction.takeBody_eq (conn : HttpConnction)
    (hlen : conn.mRequest.contentLength.toNat ≤ conn.mRecvBuffer.length) :
    conn.takeBody =
      { conn with
        mRecvBuffer := conn.mRecvBuffer.drop conn.mRequest.contentLength.toNat
        mRequest := { conn.mRequest with
          body := conn.mRecvBuffer.take conn.mRequest.contentLength.toNat }
        log := conn.log ++
          [.gotBody (conn.mRecvBuffer.take conn.mRequest.contentLength.toNat)] } := by
  have hresized : (resize conn.mRequest.body conn.mRequest.contentLength.toNat).drop
      conn.mRequest.contentLength.toNat = [] :=
    List.drop_of_length_le (length_resize _ _).le
  unfold takeBody record
  simp only [sgetn_of_le hlen, hresized, List.append_nil]

namespace Link

variable {funcs : CallbackTable} {s t : Link}

theorem reader_input (s : Link) :
    s.conn.reader.input = s.conn.mRecvBuffer ++ s.conn.mSocket.unread := rfl

/-- From the dispatch on a read handler does what the reader does. -/
theorem effect_of_dispatch {i k : Nat} {calls : List (Call Unit)} {out : List Event}
    {r : StreamReader} (hreads : s.conn.mSocket.reads ≠ []) (habort : s.conn.mAbort = false)
    (hemits : Emits (StreamReader.next funcs) s.conn.reader (out ++ (r.dispatch funcs).1)
      (r.dispatch funcs).2)
    (hinput : r.input = s.conn.mRecvBuffer.drop k ++ s.conn.mSocket.unread)
    (hblock : s.TookBlock (blocks out))
    (hnone : invocations out = []) :
    Effect funcs s (.io (.readDone i calls))
      ((host funcs calls).dispatch (s.readUpTo k r out [])) := by
  have hr : Reads funcs s k (out ++ (r.dispatch funcs).1) (r.dispatch funcs).2 := by
    refine ⟨hreads, habort, hemits, hinput, ?_⟩
    have hsame : blocks (out ++ (r.dispatch funcs).1) = blocks out := by
      rw [blocks_append]
      exact List.append_nil _
    rwa [hsame]
  cases hlookup : funcs.lookup r.req.uri with
  | none =>
      have hdispatch : (host funcs calls).dispatch (s.readUpTo k r out []) =
          managerStop (s.readUpTo k (r.dispatch funcs).2 (out ++ (r.dispatch funcs).1) []) := by
        refine (dispatch_of_none (l := s.readUpTo k r out []) hlookup).trans ?_
        simp [StreamReader.dispatch, hlookup, readUpTo, HttpConnction.record]
      have hphase : (r.dispatch funcs).2.phase = .done := by
        simp [StreamReader.dispatch, hlookup]
      have hinvoked : invocations (out ++ (r.dispatch funcs).1) = [] := by
        rw [invocations_append, hnone, StreamReader.dispatch, hlookup]
        rfl
      rw [hdispatch]
      exact .refused hr hphase hinvoked
  | some callback =>
      let t :=
        (s.readUpTo k (r.dispatch funcs).2 (out ++ (r.dispatch funcs).1) []).runCallback calls
      have hdispatch : (host funcs calls).dispatch (s.readUpTo k r out []) =
          if t.conn.mRequest.keepAlive = true then { t with conn := t.conn.readHeaders }
          else t := by
        refine dispatch_of_some (l := s.readUpTo k r out []) hlookup ?_
        simp [t, StreamReader.dispatch, hlookup, readUpTo, HttpConnction.record]
      have hreq : t.conn.mRequest = (r.dispatch funcs).2.req :=
        (Aside.runCallback calls _).request_eq
      have hout : (r.dispatch funcs).1 = [.requested (r.dispatch funcs).2.req (some callback)] := by
        simp [StreamReader.dispatch, hlookup]
      have hphase : (r.dispatch funcs).2.phase =
          if (r.dispatch funcs).2.req.keepAlive then .head else .done := by
        simp [StreamReader.dispatch, hlookup]
      rw [hdispatch, hreq]
      rw [hout] at hr
      exact .invokes hr hphase hnone (by rw [← hout])

/-- A header read of a running link is complete, with `block` at the front of the buffer. -/
structure HasBlock (s : Link) (block rest : Bytes) : Prop where
  reads_eq : s.conn.mSocket.reads = [.readUntil crlfCrlf]
  abort_eq : s.conn.mAbort = false
  cut : splitAfter crlfCrlf s.conn.mRecvBuffer = some (block, rest)

namespace HasBlock

variable {i : Nat} {calls : List (Call Unit)} {block rest : Bytes} {p : RequestParser.Parsed}
  {result : Tribool} {conn : HttpConnction}

theorem reads_ne_nil (h : s.HasBlock block rest) : s.conn.mSocket.reads ≠ [] := by
  rw [h.reads_eq]
  exact List.cons_ne_nil _ _

theorem phase_eq (h : s.HasBlock block rest) : s.conn.reader.phase = .head := by
  unfold HttpConnction.reader
  rw [h.reads_eq]

theorem input_eq (h : s.HasBlock block rest) :
    splitAfter crlfCrlf s.conn.reader.input = some (block, rest ++ s.conn.mSocket.unread) :=
  splitAfter_append_right h.cut _

theorem rest_eq (h : s.HasBlock block rest) : rest = s.conn.mRecvBuffer.drop block.length := by
  rw [splitAfter_eq_append h.cut, List.drop_left]

theorem tookBlock (h : s.HasBlock block rest) : s.TookBlock [block] :=
  .inr ⟨block, rest, rfl, h.reads_eq, h.cut⟩

theorem step_readDone (h : s.HasBlock block rest) (funcs : CallbackTable)
    (calls : List (Call Unit)) :
    step funcs s (.io (.readDone 0 calls)) =
      some ((host funcs calls).handleReadHeaders .success block.length
        { s with conn := s.conn.popRead 0 }) := by
  have hop : ((host funcs calls).conn s).mSocket.reads[0]? = some (.readUntil crlfCrlf) := by
    change s.conn.mSocket.reads[0]? = _
    rw [h.reads_eq]
    rfl
  have hready : ReadOp.ready ((host funcs calls).conn s).mRecvBuffer (.readUntil crlfCrlf) =
      some block.length :=
    Option.map_eq_some_iff.mpr ⟨_, h.cut, rfl⟩
  exact ioStep_readDone hop hready

theorem accepted_input (h : s.HasBlock block rest) (phase : Phase) :
    (s.conn.reader.accepted phase block (rest ++ s.conn.mSocket.unread)).input =
      s.conn.mRecvBuffer.drop block.length ++ s.conn.mSocket.unread := by
  rw [← h.rest_eq]
  rfl

theorem readUpTo_of_parseHeaders (h : s.HasBlock block rest)
    (hp : s.conn.reader.parser.parse s.conn.reader.req (block ++ [0]) = p)
    (hparse : (s.conn.popRead 0).parseHeaders block.length = (result, conn)) :
    result = p.result ∧ { s with conn := conn } =
      s.readUpTo block.length ⟨.done, p.parser, p.req, rest ++ s.conn.mSocket.unread⟩
        [.parsed block p.result (block.length + 1 - p.begin_.length)] [] := by
  have hp' : s.conn.mRequestParser.parse s.conn.mRequest (block ++ [0]) = p := hp
  have heq := HttpConnction.parseHeaders_eq (s.conn.popRead 0) h.cut
  rw [hparse] at heq
  obtain ⟨rfl, rfl⟩ := Prod.mk.inj heq
  unfold HttpConnction.popRead readUpTo
  simp only [hp', h.reads_eq, List.eraseIdx_zero, List.tail_cons, and_self]

theorem readUpTo_of_normalise (h : s.HasBlock block rest) (phase : Phase)
    (hp : s.conn.reader.parser.parse s.conn.reader.req (block ++ [0]) = p)
    (hparse : (s.conn.popRead 0).parseHeaders block.length = (result, conn))
    (hresult : result ≠ .falseValue) :
    p.result = .trueValue ∧ { s with conn := conn.normalise } =
      s.readUpTo block.length (s.conn.reader.accepted phase block (rest ++ s.conn.mSocket.unread))
        [.parsed block .trueValue (block.length + 1 - p.begin_.length)] [] := by
  obtain ⟨rfl, hlink⟩ := h.readUpTo_of_parseHeaders hp hparse
  have htrue : p.result = .trueValue := by
    rw [← hp] at hresult ⊢
    exact StreamReader.parse_block_true h.cut hresult
  have hparser := RequestParser.parser_of_parse_true (hp ▸ htrue)
  rw [hp] at hparser
  refine ⟨htrue, ?_⟩
  rw [show conn = _ from congrArg Link.conn hlink]
  unfold HttpConnction.normalise readUpTo StreamReader.accepted StreamReader.acceptedReq
  simp only [hp, htrue, hparser]

theorem effect_of_refused (h : s.HasBlock block rest)
    (hp : s.conn.reader.parser.parse s.conn.reader.req (block ++ [0]) = p)
    (hparse : (s.conn.popRead 0).parseHeaders block.length = (.falseValue, conn)) :
    Effect funcs s (.io (.readDone i calls)) (managerStop { s with conn := conn }) := by
  obtain ⟨hresult, hlink⟩ := h.readUpTo_of_parseHeaders hp hparse
  rw [hlink]
  have hnext := StreamReader.next_refused funcs h.phase_eq h.input_eq hp hresult.symm
  refine .refused ⟨h.reads_ne_nil, h.abort_eq, .single (hresult ▸ hnext), ?_, h.tookBlock⟩ rfl rfl
  rw [← h.rest_eq]

theorem effect_of_length (h : s.HasBlock block rest)
    (hp : s.conn.reader.parser.parse s.conn.reader.req (block ++ [0]) = p)
    (htrue : p.result = .trueValue)
    (hmethod : (s.conn.reader.acceptedReq block).method = str "post")
    (hbad : ¬ (s.conn.reader.acceptedReq block).BodyAdmitted) :
    Effect funcs s (.io (.readDone i calls)) (managerStop
      (s.readUpTo block.length (s.conn.reader.accepted .done block (rest ++ s.conn.mSocket.unread))
        [.parsed block .trueValue (block.length + 1 - p.begin_.length)] [])) := by
  have hnext := StreamReader.next_post funcs h.phase_eq h.input_eq hp htrue hmethod
  rw [if_neg hbad] at hnext
  exact .refused ⟨h.reads_ne_nil, h.abort_eq, .single hnext, h.accepted_input _, h.tookBlock⟩
    rfl rfl

theorem emits_of_admitted (h : s.HasBlock block rest)
    (hp : s.conn.reader.parser.parse s.conn.reader.req (block ++ [0]) = p)
    (htrue : p.result = .trueValue)
    (hmethod : (s.conn.reader.acceptedReq block).method = str "post")
    (hgood : (s.conn.reader.acceptedReq block).BodyAdmitted) :
    Emits (StreamReader.next funcs) s.conn.reader
      [.parsed block .trueValue (block.length + 1 - p.begin_.length)]
      (s.conn.reader.accepted .body block (rest ++ s.conn.mSocket.unread)) := by
  have hnext := StreamReader.next_post funcs h.phase_eq h.input_eq hp htrue hmethod
  rw [if_pos hgood] at hnext
  exact .single hnext

theorem effect_of_wait (h : s.HasBlock block rest)
    (hp : s.conn.reader.parser.parse s.conn.reader.req (block ++ [0]) = p)
    (htrue : p.result = .trueValue)
    (hmethod : (s.conn.reader.acceptedReq block).method = str "post")
    (hgood : (s.conn.reader.acceptedReq block).BodyAdmitted) {n : Nat}
    (hn : (s.conn.mRecvBuffer.drop block.length).length + n =
      (s.conn.reader.acceptedReq block).contentLength.toNat) :
    Effect funcs s (.io (.readDone i calls))
      (s.readUpTo block.length (s.conn.reader.accepted .body block (rest ++ s.conn.mSocket.unread))
        [.parsed block .trueValue (block.length + 1 - p.begin_.length)] [.readExactly n n]) :=
  .waits ⟨h.reads_ne_nil, h.abort_eq, h.emits_of_admitted hp htrue hmethod hgood,
    h.accepted_input _, h.tookBlock⟩ rfl rfl hmethod hgood hn

theorem effect_of_body (h : s.HasBlock block rest)
    (hp : s.conn.reader.parser.parse s.conn.reader.req (block ++ [0]) = p)
    (htrue : p.result = .trueValue)
    (hmethod : (s.conn.reader.acceptedReq block).method = str "post")
    (hgood : (s.conn.reader.acceptedReq block).BodyAdmitted)
    (hcome : (s.conn.reader.acceptedReq block).contentLength.toNat ≤
      (s.conn.mRecvBuffer.drop block.length).length)
    (hlink : { s with conn := conn } =
      s.readUpTo block.length (s.conn.reader.accepted .body block (rest ++ s.conn.mSocket.unread))
        [.parsed block .trueValue (block.length + 1 - p.begin_.length)] []) :
    Effect funcs s (.io (.readDone i calls))
      ((host funcs calls).dispatch { s with conn := conn.takeBody }) := by
  obtain ⟨r, hr⟩ : ∃ r, r =
      s.conn.reader.accepted .body block (rest ++ s.conn.mSocket.unread) := ⟨_, rfl⟩
  have hhead : Emits (StreamReader.next funcs) s.conn.reader
      [.parsed block .trueValue (block.length + 1 - p.begin_.length)] r :=
    hr ▸ h.emits_of_admitted hp htrue hmethod hgood
  rw [← hr] at hlink
  have hlength : r.req.contentLength.toNat ≤ (s.conn.mRecvBuffer.drop block.length).length := by
    rw [hr]
    exact hcome
  have hrin : r.input = s.conn.mRecvBuffer.drop block.length ++ s.conn.mSocket.unread := by
    rw [hr]
    exact h.accepted_input _
  have hbody := StreamReader.next_body funcs (r := r) (by rw [hr]; rfl)
    (by rw [hrin, List.length_append]; omega)
  have htaken : { s with conn := conn.takeBody } =
      s.readUpTo (block.length + r.req.contentLength.toNat) r.withBody
        [.parsed block .trueValue (block.length + 1 - p.begin_.length),
          .gotBody r.withBody.req.body] [] := by
    rw [show conn = _ from congrArg Link.conn hlink, HttpConnction.takeBody_eq _ hlength]
    unfold readUpTo StreamReader.withBody
    rw [hrin, List.take_append_of_le_length hlength]
    simp
  rw [htaken]
  refine effect_of_dispatch h.reads_ne_nil h.abort_eq (hhead.trans (.single hbody)) ?_ ?_ rfl
  · change r.input.drop r.req.contentLength.toNat = _
    rw [hrin, List.drop_append_of_le_length hlength, List.drop_drop]
  · exact h.tookBlock

theorem effect_of_other (h : s.HasBlock block rest)
    (hp : s.conn.reader.parser.parse s.conn.reader.req (block ++ [0]) = p)
    (htrue : p.result = .trueValue)
    (hmethod : (s.conn.reader.acceptedReq block).method ≠ str "post") :
    Effect funcs s (.io (.readDone i calls)) ((host funcs calls).dispatch
      (s.readUpTo block.length (s.conn.reader.accepted .head block (rest ++ s.conn.mSocket.unread))
        [.parsed block .trueValue (block.length + 1 - p.begin_.length)] [])) := by
  have hnext := StreamReader.next_other funcs h.phase_eq h.input_eq hp htrue hmethod
  exact effect_of_dispatch h.reads_ne_nil h.abort_eq (.single hnext) (h.accepted_input _)
    h.tookBlock rfl

end HasBlock

/-- `handle_read_headers` does what the reader does at the head of a request. -/
theorem effect_of_readHeaders {i : Nat} {calls : List (Call Unit)} {block rest : Bytes}
    (h : s.HasBlock block rest) :
    Effect funcs s (.io (.readDone i calls))
      ((host funcs calls).handleReadHeaders .success block.length
        { s with conn := s.conn.popRead 0 }) := by
  obtain ⟨p, hp⟩ : ∃ p, s.conn.reader.parser.parse s.conn.reader.req (block ++ [0]) = p := ⟨_, rfl⟩
  apply Host.handleReadHeaders_rule
  · intro hstopped
    have : s.conn.mAbort = true := hstopped
    rw [h.abort_eq] at this
    cases this
  · intro conn _ hparse
    exact h.effect_of_refused hp hparse
  · intro result conn _ hparse hresult hmethod hbad
    obtain ⟨htrue, hlink⟩ := h.readUpTo_of_normalise .done hp hparse hresult
    rw [show conn.normalise = _ from congrArg Link.conn hlink] at hmethod hbad
    change Effect funcs s _ (managerStop { s with conn := conn.normalise })
    rw [hlink]
    exact h.effect_of_length hp htrue hmethod hbad
  · intro result conn _ hparse hresult hmethod hgood hlt
    obtain ⟨htrue, hlink⟩ := h.readUpTo_of_normalise .body hp hparse hresult
    rw [show conn.mRecvBuffer = conn.normalise.mRecvBuffer from rfl] at hlt ⊢
    rw [show conn.normalise = _ from congrArg Link.conn hlink] at hmethod hgood hlt ⊢
    exact h.effect_of_wait hp htrue hmethod hgood (Nat.add_sub_cancel' hlt.le)
  · intro result conn _ hparse hresult hmethod hgood hle
    obtain ⟨htrue, hlink⟩ := h.readUpTo_of_normalise .body hp hparse hresult
    rw [show conn.mRecvBuffer = conn.normalise.mRecvBuffer from rfl] at hle
    rw [show conn.normalise = _ from congrArg Link.conn hlink] at hmethod hgood hle
    exact h.effect_of_body hp htrue hmethod hgood hle hlink
  · intro result conn _ hparse hresult hmethod
    obtain ⟨htrue, hlink⟩ := h.readUpTo_of_normalise .head hp hparse hresult
    rw [show conn.normalise = _ from congrArg Link.conn hlink] at hmethod
    change Effect funcs s _ ((host funcs calls).dispatch { s with conn := conn.normalise })
    rw [hlink]
    exact h.effect_of_other hp htrue hmethod

/-- `handle_read_body` does what the reader does at a body. -/
theorem effect_of_readBody {i wanted : Nat} {calls : List (Call Unit)} (length : Nat)
    (hreads : s.conn.mSocket.reads = [.readExactly wanted 0]) (habort : s.conn.mAbort = false)
    (hcome : s.conn.mRecvBuffer.length = s.conn.mRequest.contentLength.toNat) :
    Effect funcs s (.io (.readDone i calls))
      ((host funcs calls).handleReadBody .success length { s with conn := s.conn.popRead 0 }) := by
  have hne : s.conn.mSocket.reads ≠ [] := by
    rw [hreads]
    exact List.cons_ne_nil _ _
  have hphase : s.conn.reader.phase = .body := by
    unfold HttpConnction.reader
    rw [hreads]
  have hle : s.conn.mRequest.contentLength.toNat ≤ s.conn.mRecvBuffer.length := hcome.ge
  have hbody := StreamReader.next_body funcs hphase
    (by rw [reader_input, List.length_append]; exact Nat.le_add_right_of_le hle)
  apply Host.handleReadBody_rule
  · intro h
    have : s.conn.mAbort = true := h
    rw [habort] at this
    cases this
  · intro _
    have htaken : { s with conn := (s.conn.popRead 0).takeBody } =
        s.readUpTo s.conn.mRequest.contentLength.toNat s.conn.reader.withBody
          [.gotBody s.conn.reader.withBody.req.body] [] := by
      rw [HttpConnction.takeBody_eq (s.conn.popRead 0) hle]
      unfold readUpTo StreamReader.withBody
      rw [reader_input]
      have htake :
          (s.conn.mRecvBuffer ++ s.conn.mSocket.unread).take s.conn.mRequest.contentLength.toNat =
            s.conn.mRecvBuffer.take s.conn.mRequest.contentLength.toNat :=
        List.take_append_of_le_length hle
      simp [HttpConnction.popRead, HttpConnction.reader, hreads, htake]
    change Effect funcs s _
      ((host funcs calls).dispatch { s with conn := (s.conn.popRead 0).takeBody })
    rw [htaken]
    refine effect_of_dispatch hne habort (.single hbody) ?_ ?_ rfl
    · exact List.drop_append_of_le_length hle
    · exact .inl rfl

theorem WellFormed.running_of_isOpen (h : s.WellFormed) (hopen : s.conn.mSocket.isOpen = true) :
    s.conn.mAbort = false := by
  rw [h.isOpen_eq] at hopen
  simpa using hopen

theorem WellFormed.running_of_registered (h : s.WellFormed) (hregistered : s.registered = true) :
    s.conn.mAbort = false := by
  rw [h.registered_eq] at hregistered
  simpa using hregistered

theorem WellFormed.reads_eq_of_getElem? (h : s.WellFormed) {i : Nat} {op : ReadOp}
    (hop : s.conn.mSocket.reads[i]? = some op) : i = 0 ∧ s.conn.mSocket.reads = [op] := by
  have hsingle {op' : ReadOp} (hreads : s.conn.mSocket.reads = [op']) :
      i = 0 ∧ s.conn.mSocket.reads = [op] := by
    rw [hreads] at hop ⊢
    obtain ⟨hi, hop⟩ := List.getElem?_eq_some_iff.mp hop
    obtain rfl : i = 0 := by simpa using hi
    exact ⟨rfl, by simpa using hop⟩
  rcases h.reads_shape with hreads | hreads | ⟨_, _, hreads, _⟩
  · rw [hreads] at hop
    cases hop
  · exact hsingle hreads
  · exact hsingle hreads

theorem effect_of_readDone (h : s.WellFormed) {i length : Nat} {calls : List (Call Unit)}
    {op : ReadOp} (hreads : s.conn.mSocket.reads = [op])
    (hready : op.ready s.conn.mRecvBuffer = some length) :
    Effect funcs s (.io (.readDone i calls))
      ((host funcs calls).handleRead op .success length { s with conn := s.conn.popRead 0 }) := by
  cases habort : s.conn.mAbort with
  | true =>
      have hlate : Effect funcs s (.io (.readDone i calls)) _ := .late hreads habort
      have hstop : (host funcs calls).handleRead op .success length
          { s with conn := s.conn.popRead 0 } =
          managerStop { s with conn := s.conn.popRead 0 } := by
        have hpopped : ((host funcs calls).conn { s with conn := s.conn.popRead 0 }).mAbort = true :=
          habort
        cases op <;>
          simp [Host.handleRead, Host.handleReadHeaders, Host.handleReadBody, hpopped] <;> rfl
      rwa [hstop]
  | false =>
      rcases h.reads_shape with hnil | huntil | ⟨wanted, left, hexactly, -, -, hlength⟩
      · rw [hnil] at hreads
        cases hreads
      · obtain rfl : op = .readUntil crlfCrlf := by simpa [huntil] using hreads.symm
        obtain ⟨⟨block, rest⟩, hcut, rfl⟩ := Option.map_eq_some_iff.mp hready
        exact effect_of_readHeaders ⟨huntil, habort, hcut⟩
      · obtain rfl : op = .readExactly wanted left := by simpa [hexactly] using hreads.symm
        unfold ReadOp.ready at hready
        dsimp only at hready
        split at hready
        case isTrue hleft =>
          subst hleft
          exact effect_of_readBody length hexactly habort hlength
        case isFalse => cases hready

/-- Everything a step can do. -/
theorem step_effect (h : s.WellFormed) {a : Action} (hstep : step funcs s a = some t) :
    Effect funcs s a t := by
  cases a with
  | io a =>
      cases a with
      | receive i n =>
          obtain ⟨conn, hreceive, rfl⟩ := Option.map_eq_some_iff.mp hstep
          obtain ⟨op, hop, hopen, hready, hn, hle, haccepts, rfl⟩ :=
            HttpConnction.receive_eq_some hreceive
          obtain ⟨rfl, hreads⟩ := h.reads_eq_of_getElem? hop
          have heffect : Effect funcs s (.io (.receive 0 n)) _ :=
            .receive hreads (h.running_of_isOpen hopen) hready hn hle haccepts
          have hset : s.conn.mSocket.reads.set 0 (op.advance n) = [op.advance n] := by
            rw [hreads]
            rfl
          change Effect funcs s _ { s with conn := _ }
          rwa [← hset] at heffect
      | readDone i calls =>
          obtain ⟨op, length, hop, hready, rfl⟩ := readDone_of_ioStep hstep
          obtain ⟨rfl, hreads⟩ := h.reads_eq_of_getElem? hop
          exact effect_of_readDone h hreads hready
      | readFailed i ec =>
          obtain ⟨op, hop, hfail, rfl⟩ := readFailed_of_ioStep hstep
          obtain ⟨rfl, hreads⟩ := h.reads_eq_of_getElem? hop
          have hec : ec.failed = true := by
            cases ec with
            | success => cases hfail
            | _ => rfl
          rw [Host.handleRead_failed hec]
          exact .readFailed hreads hfail
      | writeDone i =>
          obtain ⟨data, hdata, rfl⟩ := writeDone_of_ioStep hstep
          exact .written hdata (.inl ⟨rfl, rfl, rfl⟩)
      | writeFailed i ec n =>
          obtain ⟨data, hdata, hec, hn, rfl⟩ := writeFailed_of_ioStep hstep
          exact .written hdata (.inr ⟨rfl, hec, hn⟩)
  | respond body =>
      change (if invocations s.conn.log ≠ [] then
        some { s with conn := s.conn.writeResponse body } else none) = some t at hstep
      by_cases hinvoked : invocations s.conn.log ≠ []
      · rw [if_pos hinvoked] at hstep
        obtain rfl := Option.some.inj hstep
        exact .respond hinvoked
      · rw [if_neg hinvoked] at hstep
        cases hstep
  | stop =>
      obtain rfl := Option.some.inj hstep
      exact .stop

end Link

end BtcServer.HttpmessageServer
