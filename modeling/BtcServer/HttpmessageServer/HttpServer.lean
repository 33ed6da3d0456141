import BtcServer.HttpmessageServer.HttpConnection
import Mathlib.Data.Finset.Erase
import Mathlib.Data.Finset.Insert
import Mathlib.Logic.Function.Basic

/-!
# The server

`http_server` with its `http_connection_manager` and all connections it has made.  A connection is
referred to by its number in the order of construction.  Each handler runs to its end before the
next one, so the manager's mutex is free whenever one begins.
-/

namespace BtcServer.HttpmessageServer

open Boost

/-- An `async_accept` whose handler has not run: the connection whose socket it fills and, once it
has completed, the code that the handler will get. -/
structure AcceptOp where
  conn : Nat
  done : Option ErrorCode
  deriving DecidableEq, Repr

/-- Closing the acceptor aborts what is pending; what has completed keeps its code. -/
def AcceptOp.abort (op : AcceptOp) : AcceptOp :=
  { op with done := some (op.done.getD .operationAborted) }

structure HttpServer where
  mAcceptorIsOpen : Bool
  accepts : List AcceptOp
  mHttpConnectionPtr : Option Nat
  /-- `m_http_connection_ptrs_` of the manager. -/
  mHttpConnectionPtrs : Finset Nat
  /-- How many connections were constructed. -/
  created : Nat
  conns : Nat → HttpConnction
  /-- What was thrown out of a handler, and so out of `io_service::run`. -/
  thrown : Option String

namespace HttpServer

/-- The constructor.  What `conns` holds for numbers not yet given out does not matter. -/
def create : HttpServer where
  mAcceptorIsOpen := false
  accepts := []
  mHttpConnectionPtr := none
  mHttpConnectionPtrs := ∅
  created := 0
  conns _ := .create (.uninitialised 0 0 0 false) []
  thrown := none

/-- `init` when nothing fails: the acceptor is open, bound and listening. -/
def init (s : HttpServer) : HttpServer := { s with mAcceptorIsOpen := true }

def setConn (s : HttpServer) (i : Nat) (conn : HttpConnction) : HttpServer :=
  { s with conns := Function.update s.conns i conn }

/-! ## The manager -/

/-- `http_connection_manager::start`; `ec` is what `set_option` reports. -/
def managerStart (s : HttpServer) (i : Nat) (ec : ErrorCode) : HttpServer :=
  let s := { s with mHttpConnectionPtrs := insert i s.mHttpConnectionPtrs }
  match (s.conns i).start ec with
  | .ok conn => s.setConn i conn
  | .error what => { s with thrown := some what }

/-- `http_connection_manager::stop` -/
def managerStop (s : HttpServer) (i : Nat) : HttpServer :=
  { s.setConn i (s.conns i).stop with mHttpConnectionPtrs := s.mHttpConnectionPtrs.erase i }

/-- `http_connection_manager::stopAll` -/
def managerStopAll (s : HttpServer) : HttpServer :=
  { s with
    conns := fun i => if i ∈ s.mHttpConnectionPtrs then (s.conns i).stop else s.conns i
    mHttpConnectionPtrs := ∅ }

/-! ## Callbacks -/

/-- Pointers to a connection are given away with its first request. -/
def Known (s : HttpServer) (i : Nat) : Prop := invocations (s.conns i).log ≠ []

instance (s : HttpServer) (i : Nat) : Decidable (s.Known i) := inferInstanceAs (Decidable (_ ≠ _))

/-- A call that a callback makes; it can name only connections that it was given. -/
def call (s : HttpServer) : Call Nat → HttpServer
  | .writeResponse i body =>
      if s.Known i then s.setConn i ((s.conns i).writeResponse body) else s
  | .stop i => if s.Known i then s.managerStop i else s
  | .stopAll => s.managerStopAll

def runCallback (calls : List (Call Nat)) (s : HttpServer) : HttpServer := calls.foldl call s

def handleRequest (funcs : CallbackTable) (i : Nat) (calls : List (Call Nat)) (s : HttpServer) :
    Bool × HttpServer :=
  (s.conns i).handleRequest funcs (s.setConn i) (runCallback calls)

section HandleRequest

variable {funcs : CallbackTable} {i : Nat} {calls : List (Call Nat)} {s : HttpServer}

theorem handleRequest_of_none (h : funcs.lookup (s.conns i).mRequest.uri = none) :
    s.handleRequest funcs i calls =
      (false, s.setConn i ((s.conns i).record (.requested (s.conns i).mRequest none))) :=
  HttpConnction.handleRequest_of_none h

theorem handleRequest_of_some {callback : Callback}
    (h : funcs.lookup (s.conns i).mRequest.uri = some callback) :
    s.handleRequest funcs i calls =
      (true, runCallback calls
        (s.setConn i ((s.conns i).record (.requested (s.conns i).mRequest (some callback))))) :=
  HttpConnction.handleRequest_of_some h

end HandleRequest

def host (funcs : CallbackTable) (i : Nat) (calls : List (Call Nat)) : Host HttpServer where
  conn s := s.conns i
  setConn s conn := s.setConn i conn
  managerStop s := s.managerStop i
  handleRequest := handleRequest funcs i calls
  conn_setConn s c := by simp [setConn]
  setConn_setConn s c d := by simp [setConn]

/-! ## Accepting -/

/-- `start`: construct a connection and accept into its socket.  A closed acceptor fails at once. -/
def start (s : HttpServer) (req : Request) (stream : Bytes) : HttpServer :=
  { s with
    conns := Function.update s.conns s.created (.create req stream)
    mHttpConnectionPtr := some s.created
    accepts := s.accepts ++ [⟨s.created, if s.mAcceptorIsOpen then none else some .other⟩]
    created := s.created + 1 }

/-- Lines 93 to 95: hand the connection to the manager and accept the next. -/
def handOver (s : HttpServer) (setOption : ErrorCode) (req : Request) (stream : Bytes) :
    Option HttpServer :=
  s.mHttpConnectionPtr.map fun i =>
    let s := s.managerStart i setOption
    if s.thrown.isSome then s else s.start req stream

/-- The handler that `start` gives to `async_accept`. -/
def handleAccept (s : HttpServer) (ec setOption : ErrorCode) (req : Request) (stream : Bytes) :
    Option HttpServer :=
  if !s.mAcceptorIsOpen || ec.failed then
    if ec.failed then some s else s.handOver setOption req stream
  else s.handOver setOption req stream

def stop (s : HttpServer) : HttpServer :=
  managerStopAll { s with mAcceptorIsOpen := false, accepts := s.accepts.map AcceptOp.abort }

inductive Action
  /-- The `i`-th accept completes. -/
  | acceptDone (i : Nat) (ec : ErrorCode)
  /-- The handler of the `i`-th accept runs; `req` and `stream` are the uninitialised request and
  the peer of the connection that it constructs. -/
  | acceptRun (i : Nat) (setOption : ErrorCode) (req : Request) (stream : Bytes)
  | io (i : Nat) (a : IoAction Nat)
  /-- Someone to whom a callback was given connection `i` calls `write_response`. -/
  | respond (i : Nat) (body : Bytes)
  /-- Someone to whom a callback was given connection `i` has the manager stop it. -/
  | stop (i : Nat)
  | stopAll
  /-- `http_server::stop` -/
  | serverStop
  deriving DecidableEq, Repr

def acceptDone (s : HttpServer) (i : Nat) (ec : ErrorCode) : Option HttpServer :=
  match s.accepts[i]? with
  | some ⟨c, none⟩ =>
      let s := { s with accepts := s.accepts.set i ⟨c, some ec⟩ }
      some (if ec.failed then s else s.setConn c (s.conns c).accepted)
  | _ => none

def acceptRun (s : HttpServer) (i : Nat) (setOption : ErrorCode) (req : Request) (stream : Bytes) :
    Option HttpServer :=
  match s.accepts[i]? with
  | some ⟨_, some ec⟩ =>
      handleAccept { s with accepts := s.accepts.eraseIdx i } ec setOption req stream
  | _ => none

/-- One step; nothing happens after an exception has left `run`. -/
def step (funcs : CallbackTable) (s : HttpServer) (a : Action) : Option HttpServer :=
  if s.thrown.isSome then none
  else
    match a with
    | .acceptDone i ec => s.acceptDone i ec
    | .acceptRun i setOption req stream => s.acceptRun i setOption req stream
    | .io i a => ioStep (host funcs i) s a
    | .respond i body => if s.Known i then some (s.call (.writeResponse i body)) else none
    | .stop i => if s.Known i then some (s.call (.stop i)) else none
    | .stopAll => some s.managerStopAll
    | .serverStop => some s.stop

/-- A server after `init` and `start`. -/
def started (req : Request) (stream : Bytes) : HttpServer := create.init.start req stream

end HttpServer

end BtcServer.HttpmessageServer
