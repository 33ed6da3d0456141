import BtcServer.LoginServer.Session
import Mathlib.Data.Finset.Erase
import Mathlib.Data.Finset.Insert
import Mathlib.Logic.Function.Basic

/-!
# The sessions and their manager

`sessionMgr` with all sessions, which are numbered, and the handlers of their operations.  Each
handler runs to its end before the next one.  A handler that is told `operation_aborted` ends the
process.
-/

namespace BtcServer.LoginServer

open Boost

structure SessionMgr where
  /-- `m_sessions_` -/
  mSessions : Finset Nat
  sessions : Nat → Session
  /-- The lines written to `cout`. -/
  cout : List (List UInt8)
  /-- The status with which the process has ended. -/
  exited : Option Int

namespace SessionMgr

/-- No session is started.  Sockets may be open, as those of accepted connections are. -/
def create (isOpen : Nat → Bool) (buffers rspBuffers : Nat → Vector UInt8 8192) : SessionMgr where
  mSessions := ∅
  sessions i := { Session.create (buffers i) (rspBuffers i) with mSocketIsOpen := isOpen i }
  cout := []
  exited := none

def setSession (s : SessionMgr) (i : Nat) (session : Session) : SessionMgr :=
  { s with sessions := Function.update s.sessions i session }

def print (s : SessionMgr) (line : List UInt8) : SessionMgr := { s with cout := s.cout ++ [line] }

/-- `sessionMgr::start` -/
def start (s : SessionMgr) (i : Nat) : SessionMgr :=
  { s.setSession i (s.sessions i).start with mSessions := insert i s.mSessions }

/-- `sessionMgr::stop` -/
def stop (s : SessionMgr) (i : Nat) : SessionMgr :=
  { s.setSession i (s.sessions i).stop with mSessions := s.mSessions.erase i }

/-- `sessionMgr::stop_all` -/
def stopAll (s : SessionMgr) : SessionMgr :=
  { s with
    sessions := fun i => if i ∈ s.mSessions then (s.sessions i).stop else s.sessions i
    mSessions := ∅ }

/-- `cout << "something wrong!" << endl; exit(-1);` -/
def somethingWrong (s : SessionMgr) : SessionMgr :=
  { s.print ("something wrong!".toList.map Char.toUInt8) with exited := some (-1) }

/-- The handler that `do_read` gives to `async_read_some`. -/
def handleRead (s : SessionMgr) (i : Nat) (ec : ErrorCode) (length : Nat) : SessionMgr :=
  if !ec.failed then
    let session := (s.sessions i).terminate length
    (s.print session.text).setSession i session.doRead
  else if .operationAborted ≠ ec then s.stop i
  else s.somethingWrong

/-- The handler that `do_write` gives to `async_write_some`. -/
def handleWrite (s : SessionMgr) (i : Nat) (ec : ErrorCode) : SessionMgr :=
  if !ec.failed then s
  else if .operationAborted ≠ ec then s.stop i
  else s.somethingWrong

def handle (s : SessionMgr) (i : Nat) (kind : IoKind) (ec : ErrorCode) (length : Nat) :
    SessionMgr :=
  match kind with
  | .readSome _ => s.handleRead i ec length
  | .writeSome _ => s.handleWrite i ec

/-- The handler of the `k`-th operation of session `i` runs, if the operation has completed. -/
def run (s : SessionMgr) (i k : Nat) : Option SessionMgr :=
  match (s.sessions i).ops[k]? with
  | some ⟨kind, some (ec, length)⟩ =>
      some ((s.setSession i ((s.sessions i).take k)).handle i kind ec length)
  | _ => none

inductive Action
  | start (i : Nat)
  | stop (i : Nat)
  | stopAll
  /-- `session::do_write` is called. -/
  | doWrite (i : Nat)
  | receive (i k : Nat) (data : List UInt8)
  | send (i k length : Nat)
  | fail (i k : Nat) (ec : ErrorCode)
  | run (i k : Nat)
  deriving DecidableEq, Repr

/-- One step; nothing happens in a process that has ended. -/
def step (s : SessionMgr) (a : Action) : Option SessionMgr :=
  if s.exited.isSome then none
  else
    match a with
    | .start i => some (s.start i)
    | .stop i => some (s.stop i)
    | .stopAll => some s.stopAll
    | .doWrite i => some (s.setSession i (s.sessions i).doWrite)
    | .receive i k data => ((s.sessions i).receive k data).map (s.setSession i)
    | .send i k length => ((s.sessions i).send k length).map (s.setSession i)
    | .fail i k ec => ((s.sessions i).fail k ec).map (s.setSession i)
    | .run i k => s.run i k

end SessionMgr

end BtcServer.LoginServer
