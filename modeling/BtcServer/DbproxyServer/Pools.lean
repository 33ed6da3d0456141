import BtcServer.DbproxyServer.Result
import BtcServer.Lib.Handles
import Mathlib.Logic.Function.Basic

/-!
# Databases and their pools

`CPGDB`, `CPGDBPool`, `CPGDbPoolManager` and `main` of `dbproxy_server.cpp`.  A pointer that libpq
gives out is a number in the order of the calls that give them out, and what such a call answers
comes with the call.  Databases are numbers too, in the order of construction.
-/

namespace BtcServer.DbproxyServer

open HttpmessageServer (Bytes str)
open Lib

inductive Handle
  | conn (c : Nat)
  | result (h : Nat)
  deriving DecidableEq, Repr

def Handle.number : Handle → Nat
  | conn c => c
  | result h => h

inductive ConnStatusType
  | connectionOk
  | connectionBad
  deriving DecidableEq, Repr

inductive ExecStatusType
  | commandOk
  | tuplesOk
  | other
  deriving DecidableEq, Repr

/-- A call of libpq, with the pointers that it is given and that it returns. -/
inductive LibpqCall
  | connectdb (conn : Option Nat)
  | status (conn : Option Nat)
  | finish (conn : Option Nat)
  | exec (conn : Option Nat) (strSql : Bytes) (result : Option Nat)
  | resultStatus (result : Option Nat)
  | clear (result : Option Nat)
  | nfields (result : Nat)
  | fname (result field : Nat)
  | ntuples (result : Nat)
  | getvalue (result : Nat) (row : Int) (field : Nat)
  deriving DecidableEq, Repr

/-- What a call does to handles.  Nothing is done to the null pointer. -/
def LibpqCall.events : LibpqCall → List (HandleEvent Handle)
  | connectdb conn => conn.toList.map fun c => .opened (.conn c)
  | status conn => conn.toList.map fun c => .used (.conn c)
  | finish conn => conn.toList.map fun c => .closed (.conn c)
  | exec conn _ result =>
      (conn.toList.map fun c => .used (.conn c)) ++ result.toList.map fun h => .opened (.result h)
  | resultStatus result => result.toList.map fun h => .used (.result h)
  | clear result => result.toList.map fun h => .closed (.result h)
  | nfields h => [.used (.result h)]
  | fname h _ => [.used (.result h)]
  | ntuples h => [.used (.result h)]
  | getvalue h _ _ => [.used (.result h)]

namespace CPGDBResult

/-- What the constructor asks of libpq. -/
def createCalls (h : Nat) (p : PGresult) : List LibpqCall :=
  [.nfields h] ++ (List.range p.fields.length).map (.fname h) ++ [.ntuples h]

/-- What `print` asks of libpq. -/
def printCalls (h : Nat) (p : PGresult) : List LibpqCall :=
  [.nfields h] ++ (List.range p.fields.length).map (.fname h) ++ [.ntuples h] ++
    (List.range p.ntuples).flatMap fun index =>
      (List.range p.fields.length).map fun j => .getvalue h index j

def print (r : CPGDBResult) : Bytes :=
  r.mPResult.fields.flatMap (fun name => name ++ str "   ") ++ str "\n" ++
    (List.range r.mPResult.ntuples).flatMap fun index =>
      (List.range r.mPResult.fields.length).flatMap
        (fun j => (r.mPResult.getvalue index j).getD []) ++ str "\n"

end CPGDBResult

/-- The manager with all databases, what the callers hold, and what was asked of libpq and put
out. -/
structure DbProxy where
  /-- How many calls have given out pointers. -/
  pointers : Nat
  /-- How many databases were constructed. -/
  created : Nat
  /-- `PGconn_` of a database; what it points to may be null. -/
  pgConn : Nat → Option (Option Nat)
  /-- `m_PGDBPools_`, a pool being its list of databases. -/
  mPGDBPools : List (Bytes × List Nat)
  /-- The results that are held. -/
  results : Nat → Option CPGDBResult
  calls : List LibpqCall
  out : Bytes

namespace DbProxy

def create : DbProxy where
  pointers := 0
  created := 0
  pgConn _ := none
  mPGDBPools := []
  results _ := none
  calls := []
  out := []

def callAll (s : DbProxy) (calls : List LibpqCall) : DbProxy := { s with calls := s.calls ++ calls }

def setResult (s : DbProxy) (h : Nat) (r : Option CPGDBResult) : DbProxy :=
  { s with results := Function.update s.results h r }

/-! ## The pools -/

/-- `std::map::insert`, which leaves an entry that is there as it is. -/
def insertPool (pools : List (Bytes × List Nat)) (key : Bytes) (pool : List Nat) :
    List (Bytes × List Nat) :=
  if (pools.lookup key).isSome then pools else pools ++ [(key, pool)]

/-- `CPGDbPoolManager::init` -/
def init (s : DbProxy) : DbProxy :=
  { s with
    created := s.created + 2
    mPGDBPools := insertPool (insertPool s.mPGDBPools (str "read") [s.created]) (str "write")
      [s.created + 1] }

/-- `CPGDbPoolManager::getDB` and `CPGDBPool::getDB`, which gives the first database of the pool. -/
def getDB (s : DbProxy) (key : Bytes) : Option Nat := (s.mPGDBPools.lookup key).bind List.head?

/-! ## A database -/

/-- `PGconn_` gets a new value; the connection that it owned goes when that is in place. -/
def replace (s : DbProxy) (d : Nat) (conn : Option (Option Nat)) : DbProxy :=
  { s with
    pgConn := Function.update s.pgConn d conn
    calls := s.calls ++ ((s.pgConn d).toList.map .finish) }

/-- `CPGDB::Init` -/
def Init (s : DbProxy) (d : Nat) (answer : Option ConnStatusType) : Except String Unit × DbProxy :=
  let conn := answer.map fun _ => s.pointers
  let s := { s with pointers := s.pointers + 1 }.callAll [.connectdb conn]
  let s := s.replace d (some conn)
  match answer with
  | none => (.error "PQconnectdb failed", s)
  | some status =>
      let s := s.callAll [.status conn]
      if status ≠ .connectionOk then (.error "failed to connect db", s) else (.ok (), s)

/-- What `excuteSQL` and `excuteQuery` begin with.  When they throw, the result goes. -/
def excute (s : DbProxy) (d : Nat) (strSql : Bytes) (wanted : ExecStatusType)
    (noResult noSuccess : String) (answer : Option (ExecStatusType × PGresult)) :
    Except String (Nat × PGresult) × DbProxy :=
  let pResult := answer.map fun _ => s.pointers
  let h := s.pointers
  let s := { s with pointers := s.pointers + 1 }.callAll [.exec (s.pgConn d).join strSql pResult]
  match answer with
  | none => (.error noResult, s.callAll [.clear none])
  | some (status, p) =>
      let s := s.callAll [.resultStatus (some h)]
      if status ≠ wanted then (.error noSuccess, s.callAll [.clear (some h)]) else (.ok (h, p), s)

/-- `CPGDB::excuteSQL` -/
def excuteSQL (s : DbProxy) (d : Nat) (strSql : Bytes)
    (answer : Option (ExecStatusType × PGresult)) : Except String Unit × DbProxy :=
  match s.excute d strSql .commandOk "Fail to PQexec." "Fail to exceteUpdate" answer with
  | (.error what, s) => (.error what, s)
  | (.ok (h, _), s) => (.ok (), s.callAll [.clear (some h)])

/-- `CPGDB::excuteQuery`; the caller holds the result. -/
def excuteQuery (s : DbProxy) (d : Nat) (strSql : Bytes)
    (answer : Option (ExecStatusType × PGresult)) : Except String Nat × DbProxy :=
  match s.excute d strSql .tuplesOk "Fail to PQexec" "Fail to PQresultStatus" answer with
  | (.error what, s) => (.error what, s)
  | (.ok (h, p), s) =>
      (.ok h, (s.setResult h (some (.create p))).callAll (CPGDBResult.createCalls h p))

/-! ## A result -/

/-- `getInt` and `getStr` of a result that is held. -/
def read (s : DbProxy) (h : Nat) (r : CPGDBResult) (read : Read) : Except String Unit × DbProxy :=
  match r.mKeyMap.lookup read.strKey with
  | none => (.error "Fail to find key", s)
  | some index =>
      (.ok (), (s.setResult h (some (r.read read))).callAll [.getvalue h r.iCurrentRow index])

def next (s : DbProxy) (h : Nat) (r : CPGDBResult) : DbProxy := s.setResult h (some r.next.2)

def print (s : DbProxy) (h : Nat) (r : CPGDBResult) : DbProxy :=
  { s with out := s.out ++ r.print }.callAll (CPGDBResult.printCalls h r.mPResult)

/-- The last pointer to a result goes. -/
def release (s : DbProxy) (h : Nat) : DbProxy := (s.setResult h none).callAll [.clear (some h)]

/-! ## Callers -/

inductive Action
  | init
  /-- `getDB(key)->Init()`, and the like. -/
  | Init (key : Bytes) (answer : Option ConnStatusType)
  | excuteSQL (key strSql : Bytes) (answer : Option (ExecStatusType × PGresult))
  | excuteQuery (key strSql : Bytes) (answer : Option (ExecStatusType × PGresult))
  | read (h : Nat) (read : Read)
  | next (h : Nat)
  | print (h : Nat)
  | release (h : Nat)
  deriving DecidableEq, Repr

/-- What an action of a caller does, and what it throws; nothing where the caller goes through a
null pointer, or uses a result that it does not hold. -/
def perform (s : DbProxy) : Action → Option (Except String Unit × DbProxy)
  | .init => some (.ok (), s.init)
  | .Init key answer => (s.getDB key).map fun d => s.Init d answer
  | .excuteSQL key strSql answer => (s.getDB key).map fun d => s.excuteSQL d strSql answer
  | .excuteQuery key strSql answer => (s.getDB key).map fun d =>
      ((s.excuteQuery d strSql answer).1.map fun _ => (), (s.excuteQuery d strSql answer).2)
  | .read h read => (s.results h).map fun r => s.read h r read
  | .next h => (s.results h).map fun r => (.ok (), s.next h r)
  | .print h => (s.results h).map fun r => (.ok (), s.print h r)
  | .release h => (s.results h).map fun _ => (.ok (), s.release h)

def step (s : DbProxy) (a : Action) : Option DbProxy := (s.perform a).map Prod.snd

def destroy (s : DbProxy) (d : Nat) : DbProxy := s.replace d none

/-- The destructor of the manager, when the program exits: the map goes from its end.  A database
that is in no pool went when `init` returned, without a connection. -/
def exit (s : DbProxy) : DbProxy :=
  { (s.mPGDBPools.reverse.flatMap Prod.snd).foldl destroy s with mPGDBPools := [] }

/-- The `try` block of `main`: the actions up to the first that throws. -/
def tryAll : DbProxy → List Action → Option (Option String × DbProxy)
  | s, [] => some (none, s)
  | s, a :: as =>
      match s.perform a with
      | none => none
      | some (.error what, s) => some (some what, s)
      | some (.ok _, s) => tryAll s as

/-- `main`, with what libpq answers to its calls. -/
def main (read write : Option ConnStatusType) (answer : Option (ExecStatusType × PGresult)) :
    Option DbProxy :=
  (tryAll create
    [.init, .Init (str "read") read, .Init (str "write") write,
      .excuteQuery (str "read") (str "SELECT * FROM C;") answer, .print 2, .release 2]).map
    fun (thrown, s) =>
      match thrown with
      | none => s.exit
      | some what => { s with out := s.out ++ str what ++ str "\n" }.exit

end DbProxy

end BtcServer.DbproxyServer
