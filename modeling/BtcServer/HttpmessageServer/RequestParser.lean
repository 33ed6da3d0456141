import BtcServer.Boost.Tribool
import BtcServer.HttpmessageServer.Request
import BtcServer.Lib.Scanner

/-!
# The request parser

`request_parser` of `http_helper.hpp`: a machine of 21 states that reads a request one byte at a
time into a `request` owned by the caller.  `consume` is one step and `parse` the loop around it.
`char` is signed on the target compiler, so a byte from 128 on is a negative `int`; the version
numbers are accumulated in an `int` of 32 bits.
-/

namespace BtcServer.HttpmessageServer

open Boost Lib

/-- Promotion of a signed `char` to `int`. -/
def charToInt (c : UInt8) : Int := if c.toNat < 128 then c.toNat else c.toNat - 256

/-- The value of an `int` computation on the target, two's complement in 32 bits. -/
def toInt32 (x : Int) : Int := Int.bmod x 0x100000000

def isChar (c : Int) : Bool := 0 ≤ c && c ≤ 127

def isCtl (c : Int) : Bool := (0 ≤ c && c ≤ 31) || c = 127

def isTspecial (c : Int) : Bool :=
  c ∈ ['(', ')', '<', '>', '@', ',', ';', ':', '\\', '"', '/', '[', ']', '?', '=', '{', '}', ' ',
    '\t'].map fun t => (t.toNat : Int)

def isDigit (c : Int) : Bool := ('0'.toNat : Int) ≤ c && c ≤ '9'.toNat

/-- `version * 10 + input - '0'` -/
def addDigit (version : Int) (input : UInt8) : Int :=
  toInt32 (toInt32 (toInt32 (version * 10) + charToInt input) - '0'.toNat)

/-- An update of `headers.back()`; on an empty vector that is undefined behaviour. -/
def modifyBack (f : Header → Header) : List Header → List Header
  | [] => []
  | [hdr] => [f hdr]
  | hdr :: next :: hdrs => hdr :: modifyBack f (next :: hdrs)

namespace Request

/-- `headers.push_back(header())` -/
def pushHeader (req : Request) : Request :=
  { req with headers := req.headers ++ [⟨[], []⟩] }

/-- `headers.back().name.push_back(input)` -/
def pushName (req : Request) (input : UInt8) : Request :=
  { req with headers := modifyBack (fun hdr => ⟨hdr.name ++ [input], hdr.value⟩) req.headers }

/-- `headers.back().value.push_back(input)` -/
def pushValue (req : Request) (input : UInt8) : Request :=
  { req with headers := modifyBack (fun hdr => ⟨hdr.name, hdr.value ++ [input]⟩) req.headers }

end Request

inductive State
  | methodStart
  | method
  | uriStart
  | uri
  | httpVersionH
  | httpVersionT1
  | httpVersionT2
  | httpVersionP
  | httpVersionSlash
  | httpVersionMajorStart
  | httpVersionMajor
  | httpVersionMinorStart
  | httpVersionMinor
  | expectingNewline1
  | headerLineStart
  | headerLws
  | headerName
  | spaceBeforeHeaderValue
  | headerValue
  | expectingNewline2
  | expectingNewline3
  deriving DecidableEq, Repr

structure RequestParser where
  mState : State
  deriving DecidableEq, Repr

namespace RequestParser

def fresh : RequestParser := ⟨.methodStart⟩

def reset (_ : RequestParser) : RequestParser := ⟨.methodStart⟩

/-- `return false`, in the state the byte was read in. -/
def reject (p : RequestParser) (req : Request) : Tribool × RequestParser × Request :=
  (.falseValue, p, req)

/-- `m_state_ = state; return boost::indeterminate` -/
def goOn (state : State) (req : Request) : Tribool × RequestParser × Request :=
  (.indeterminateValue, ⟨state⟩, req)

def consume (p : RequestParser) (req : Request) (input : UInt8) :
    Tribool × RequestParser × Request :=
  let c := charToInt input
  match p.mState with
  | .methodStart =>
      if !isChar c || isCtl c || isTspecial c then reject p req
      else goOn .method { req with method := req.method ++ [input] }
  | .method =>
      if input = ' '.toUInt8 then goOn .uri req
      else if !isChar c || isCtl c || isTspecial c then reject p req
      else goOn .method { req with method := req.method ++ [input] }
  | .uriStart =>
      if isCtl c then reject p req
      else goOn .uri { req with uri := req.uri ++ [input] }
  | .uri =>
      if input = ' '.toUInt8 then goOn .httpVersionH req
      else if isCtl c then reject p req
      else goOn .uri { req with uri := req.uri ++ [input] }
  | .httpVersionH =>
      if input = 'H'.toUInt8 then goOn .httpVersionT1 req else reject p req
  | .httpVersionT1 =>
      if input = 'T'.toUInt8 then goOn .httpVersionT2 req else reject p req
  | .httpVersionT2 =>
      if input = 'T'.toUInt8 then goOn .httpVersionP req else reject p req
  | .httpVersionP =>
      if input = 'P'.toUInt8 then goOn .httpVersionSlash req else reject p req
  | .httpVersionSlash =>
      if input = '/'.toUInt8 then
        goOn .httpVersionMajorStart { req with httpVersionMajor := 0, httpVersionMinor := 0 }
      else reject p req
  | .httpVersionMajorStart =>
      if isDigit c then
        goOn .httpVersionMajor { req with httpVersionMajor := addDigit req.httpVersionMajor input }
      else reject p req
  | .httpVersionMajor =>
      if input = '.'.toUInt8 then goOn .httpVersionMinorStart req
      else if isDigit c then
        goOn .httpVersionMajor { req with httpVersionMajor := addDigit req.httpVersionMajor input }
      else reject p req
  | .httpVersionMinorStart =>
      if isDigit c then
        goOn .httpVersionMinor { req with httpVersionMinor := addDigit req.httpVersionMinor input }
      else reject p req
  | .httpVersionMinor =>
      if input = '\r'.toUInt8 then goOn .expectingNewline1 req
      else if isDigit c then
        goOn .httpVersionMinor { req with httpVersionMinor := addDigit req.httpVersionMinor input }
      else reject p req
  | .expectingNewline1 =>
      if input = '\n'.toUInt8 then goOn .headerLineStart req else reject p req
  | .headerLineStart =>
      if input = '\r'.toUInt8 then goOn .expectingNewline3 req
      else if req.headers ≠ [] ∧ (input = ' '.toUInt8 ∨ input = '\t'.toUInt8) then
        goOn .headerLws req
      else if !isChar c || isCtl c || isTspecial c then reject p req
      else goOn .headerName (req.pushHeader.pushName input)
  | .headerLws =>
      if input = '\r'.toUInt8 then goOn .expectingNewline2 req
      else if input = ' '.toUInt8 ∨ input = '\t'.toUInt8 then goOn .headerLws req
      else if isCtl c then reject p req
      else goOn .headerValue (req.pushValue input)
  | .headerName =>
      if input = ':'.toUInt8 then goOn .spaceBeforeHeaderValue req
      else if !isChar c || isCtl c || isTspecial c then reject p req
      else goOn .headerName (req.pushName input)
  | .spaceBeforeHeaderValue =>
      if input = ' '.toUInt8 then goOn .headerValue req else reject p req
  | .headerValue =>
      if input = '\r'.toUInt8 then goOn .expectingNewline2 req
      else if isCtl c then reject p req
      else goOn .headerValue (req.pushValue input)
  | .expectingNewline2 =>
      if input = '\n'.toUInt8 then goOn .headerLineStart req else reject p req
  | .expectingNewline3 => (Tribool.ofBool (input = '\n'.toUInt8), p, req)

/-- What `parse` returns, the verdict and where the iterator stopped (`begin_` is the range left
unread), with the parser and the request it leaves. -/
structure Parsed where
  result : Tribool
  begin_ : Bytes
  parser : RequestParser
  req : Request
  deriving DecidableEq, Repr

/-- The loop ends with `result` undecided when the range is used up, since a decided `result` would
have ended it before. -/
def parse (p : RequestParser) (req : Request) : Bytes → Parsed
  | [] => ⟨.indeterminateValue, [], p, req⟩
  | input :: rest =>
      match consume p req input with
      | (result, p, req) =>
          if (result.or result.not).toBool then ⟨result, rest, p, req⟩
          else parse p req rest

/-- `consume` as the step of a scanner whose state is the parser and the request. -/
def scanStep (s : RequestParser × Request) (input : UInt8) :
    Option Bool × RequestParser × Request :=
  match consume s.1 s.2 input with
  | (result, p, req) => (result.decided, p, req)

/-- `parse` is the scan of that scanner. -/
theorem parse_eq_scan (p : RequestParser) (req : Request) (w : Bytes) :
    scan scanStep (p, req) w =
      ⟨(parse p req w).result.decided, (parse p req w).begin_,
        (parse p req w).parser, (parse p req w).req⟩ := by
  induction w generalizing p req with
  | nil => rfl
  | cons input w ih =>
      rw [parse]
      rcases hc : consume p req input with ⟨result, q, req'⟩
      have hstep : scanStep (p, req) input = (result.decided, q, req') := by
        rw [scanStep]
        simp only [hc]
      simp only [Tribool.or_not_toBool]
      cases hd : result.decided with
      | none =>
          rw [hd] at hstep
          rw [scan_cons_of_none hstep, ih]
          rfl
      | some v =>
          rw [hd] at hstep
          rw [scan_cons_of_some hstep]
          simp [hd]

/-- Feed chunks in order until one call of `parse` decides; the number counts the bytes read. -/
def feed (p : RequestParser) (req : Request) :
    List Bytes → Tribool × Nat × RequestParser × Request
  | [] => (.indeterminateValue, 0, p, req)
  | chunk :: chunks =>
      let r := parse p req chunk
      match r.result with
      | .indeterminateValue =>
          let later := feed r.parser r.req chunks
          (later.1, chunk.length + later.2.1, later.2.2)
      | result => (result, chunk.length - r.begin_.length, r.parser, r.req)

theorem feed_eq_scanChunks (p : RequestParser) (req : Request) (chunks : List Bytes) :
    scanChunks scanStep (p, req) chunks =
      ((feed p req chunks).1.decided, (feed p req chunks).2) := by
  induction chunks generalizing p req with
  | nil => rfl
  | cons chunk chunks ih =>
      rw [scanChunks, feed, parse_eq_scan]
      cases hr : (parse p req chunk).result <;> simp [Tribool.decided, ih]

/-- Where the input is cut makes no difference. -/
theorem feed_eq_parse (p : RequestParser) (req : Request) (chunks : List Bytes) :
    feed p req chunks =
      ((parse p req chunks.flatten).result,
        chunks.flatten.length - (parse p req chunks.flatten).begin_.length,
        (parse p req chunks.flatten).parser, (parse p req chunks.flatten).req) := by
  have h := feed_eq_scanChunks p req chunks
  rw [scanChunks_eq, parse_eq_scan] at h
  obtain ⟨hverdict, hrest⟩ := Prod.mk.inj h
  exact Prod.ext (Tribool.decided_injective hverdict.symm) hrest.symm

end RequestParser

end BtcServer.HttpmessageServer
