import BtcServer.HttpmessageServer.Extraction
import BtcServer.HttpmessageServer.FirstRequest

/-!
# Stale lengths

`normalise` leaves `content_length` as it was when no header gives it a value, and so does the
extraction from a string of white space.  This is about two connections that differ in that field
alone when the handler of a header read runs: what each of them decides, and when the two decide
alike whatever the field holds.
-/

namespace BtcServer.HttpmessageServer

open Boost Lib

namespace Request

def withLength (req : Request) (c : UInt64) : Request := { req with contentLength := c }

/-- What `normalise` makes of the length `c`. -/
def lengthFrom (req : Request) (c : UInt64) : UInt64 := (req.withLength c).normalise.contentLength

theorem normalise_withLength (req : Request) (c : UInt64) :
    (req.withLength c).normalise = req.normalise.withLength (req.lengthFrom c) := by
  have hsub (name : Bytes) : (req.withLength c).subscript name = req.subscript name := rfl
  ext1
  · simp [withLength]
  · simp [withLength]
  · simp [withLength]
  · simp [withLength]
  · simp [withLength]
  · rfl
  · simp only [withLength, normalise_keepAlive]
    rfl
  · simp [withLength]

theorem lengthFrom_of_inked {req : Request} (h : Inked (req.subscript (str "content-length")))
    (c₁ c₂ : UInt64) : req.lengthFrom c₁ = req.lengthFrom c₂ := by
  have hsub (c : UInt64) (name : Bytes) : (req.withLength c).subscript name = req.subscript name :=
    rfl
  obtain ⟨b, hb, -⟩ := id h
  have hne : req.subscript (str "content-length") ≠ [] := List.ne_nil_of_mem hb
  unfold lengthFrom
  rw [normalise_contentLength, normalise_contentLength, hsub, hsub, if_pos hne, if_pos hne]
  exact extractUInt64_of_inked h _ _

theorem lengthFrom_of_not_inked {req : Request}
    (h : ¬ Inked (req.subscript (str "content-length"))) (c : UInt64) : req.lengthFrom c = c := by
  have hsub (name : Bytes) : (req.withLength c).subscript name = req.subscript name := rfl
  unfold lengthFrom
  rw [normalise_contentLength, hsub, extractUInt64_of_not_inked h]
  exact ite_self _

end Request

namespace RequestParser

theorem consume_withLength (p : RequestParser) (req : Request) (c : UInt64) (a : UInt8) :
    consume p (req.withLength c) a =
      ((consume p req a).1, (consume p req a).2.1, (consume p req a).2.2.withLength c) := by
  rcases p with ⟨st⟩
  cases st with
  | headerLineStart =>
      -- the one state that reads the request, of which it looks at the headers
      by_cases hfold : req.headers ≠ [] ∧ (a = ' '.toUInt8 ∨ a = '\t'.toUInt8)
      · have hfold' : (req.withLength c).headers ≠ [] ∧ (a = ' '.toUInt8 ∨ a = '\t'.toUInt8) := hfold
        simp only [consume, if_pos hfold, if_pos hfold']
        split_ifs <;> rfl
      · have hfold' : ¬ ((req.withLength c).headers ≠ [] ∧ (a = ' '.toUInt8 ∨ a = '\t'.toUInt8)) :=
          hfold
        simp only [consume, if_neg hfold, if_neg hfold']
        split_ifs <;> rfl
  | _ =>
      simp only [consume]
      try split_ifs
      all_goals rfl

theorem parse_withLength (p : RequestParser) (req : Request) (c : UInt64) (w : Bytes) :
    parse p (req.withLength c) w = { parse p req w with req := (parse p req w).req.withLength c } := by
  induction w generalizing p req with
  | nil => rfl
  | cons a w ih =>
      rw [parse, parse, consume_withLength]
      rcases consume p req a with ⟨result, q, req'⟩
      dsimp only
      split_ifs
      · rfl
      · exact ih q req'

end RequestParser

namespace HttpConnction

def withLength (conn : HttpConnction) (c : UInt64) : HttpConnction :=
  { conn with mRequest := conn.mRequest.withLength c }

theorem parseHeaders_withLength (conn : HttpConnction) (c : UInt64) (length : Nat) :
    (conn.withLength c).parseHeaders length =
      ((conn.parseHeaders length).1, (conn.parseHeaders length).2.withLength c) := by
  have hparse := RequestParser.parse_withLength conn.mRequestParser conn.mRequest c
    (sgetn conn.mRecvBuffer (List.replicate (length + 1) 0) length).1
  unfold parseHeaders withLength
  simp only [hparse]
  rfl

theorem normalise_withLength (conn : HttpConnction) (c : UInt64) :
    (conn.withLength c).normalise = conn.normalise.withLength (conn.mRequest.lengthFrom c) := by
  unfold normalise withLength
  rw [Request.normalise_withLength]

end HttpConnction

/-- What `handle_read_headers` has decided: whether the connection is stopped, what it reads next
and how long the body will be that it reads for, and how long the bodies were that it handed on. -/
structure Decision where
  stopped : Bool
  reads : List ReadOp
  awaited : Option Nat
  handed : List Nat
  deriving DecidableEq, Repr

namespace Link

def withLength (l : Link) (c : UInt64) : Link := { l with conn := l.conn.withLength c }

def handedLengths (log : List Event) : List Nat := (requests log).map fun q => q.body.length

def decision (l : Link) : Decision where
  stopped := l.conn.mAbort
  reads := l.conn.mSocket.reads
  awaited :=
    if l.conn.reader.phase = .body then some l.conn.mRequest.contentLength.toNat else none
  handed := handedLengths l.conn.log

variable {funcs : CallbackTable} {calls : List (Call Unit)} {s l l' : Link} {block rest : Bytes}

theorem Aside.requests_eq (h : Aside l l') : requests l'.conn.log = requests l.conn.log := by
  rw [← requests_readEvents, h.readEvents_eq, requests_readEvents]

theorem runCallback_flags (calls : List (Call Unit)) (habort : l.conn.mAbort = l'.conn.mAbort)
    (hregistered : l.registered = l'.registered) :
    (l.runCallback calls).conn.mAbort = (l'.runCallback calls).conn.mAbort := by
  induction calls generalizing l l' with
  | nil => exact habort
  | cons c calls ih =>
      cases c with
      | writeResponse _ body => exact ih habort hregistered
      | stop _ => exact ih rfl rfl
      | stopAll =>
          have hcall (l : Link) :
              l.call .stopAll = if l.registered = true then l.managerStop else l := rfl
          apply ih
          · rw [hcall, hcall, hregistered]
            split_ifs
            · rfl
            · exact habort
          · rw [hcall, hcall, hregistered]
            split_ifs
            · rfl
            · exact hregistered

def requested (l : Link) (callback : Option Callback) : Link :=
  { l with conn := l.conn.record (.requested l.conn.mRequest callback) }

theorem handedLengths_requested (l : Link) (callback : Option Callback) :
    handedLengths (l.requested callback).conn.log =
      handedLengths l.conn.log ++ [l.conn.mRequest.body.length] := by
  simp [requested, HttpConnction.record, handedLengths, requests, Event.request]

theorem decision_of_reads_nil (h : l.conn.mSocket.reads = []) :
    l.decision = ⟨l.conn.mAbort, [], none, handedLengths l.conn.log⟩ := by
  have hphase : l.conn.reader.phase ≠ .body := by
    unfold HttpConnction.reader
    rw [h]
    exact nofun
  unfold decision
  rw [h, if_neg hphase]

theorem decision_readHeaders (h : l.conn.mSocket.reads = []) :
    decision { l with conn := l.conn.readHeaders } =
      ⟨l.conn.mAbort, [.readUntil crlfCrlf], none, handedLengths l.conn.log⟩ := by
  have hreads : l.conn.readHeaders.mSocket.reads = [.readUntil crlfCrlf] := by
    unfold HttpConnction.readHeaders HttpConnction.armRead
    rw [h]
    rfl
  have hphase : l.conn.readHeaders.reader.phase ≠ .body := by
    unfold HttpConnction.reader
    rw [hreads]
    exact nofun
  unfold decision
  rw [hreads, if_neg hphase]
  rfl

theorem decision_managerStop (h : l.conn.mSocket.reads = []) :
    l.managerStop.decision = ⟨true, [], none, handedLengths l.conn.log⟩ := by
  have hreads : l.managerStop.conn.mSocket.reads = [] := h
  have hhanded : handedLengths l.managerStop.conn.log = handedLengths l.conn.log := by
    unfold handedLengths
    rw [(Aside.managerStop l).requests_eq]
  rw [decision_of_reads_nil hreads, hhanded]
  rfl

theorem decision_dispatch_of_none (hlookup : funcs.lookup l.conn.mRequest.uri = none)
    (hreads : l.conn.mSocket.reads = []) :
    decision ((host funcs calls).dispatch l) =
      ⟨true, [], none, handedLengths l.conn.log ++ [l.conn.mRequest.body.length]⟩ := by
  have hdispatch : (host funcs calls).dispatch l = (l.requested none).managerStop :=
    dispatch_of_none hlookup
  have hreads' : (l.requested none).conn.mSocket.reads = [] := hreads
  rw [hdispatch, decision_managerStop hreads', handedLengths_requested]

theorem decision_dispatch_of_some {callback : Callback}
    (hlookup : funcs.lookup l.conn.mRequest.uri = some callback)
    (hreads : l.conn.mSocket.reads = []) :
    decision ((host funcs calls).dispatch l) =
      ⟨((l.requested callback).runCallback calls).conn.mAbort,
        if l.conn.mRequest.keepAlive then [.readUntil crlfCrlf] else [], none,
        handedLengths l.conn.log ++ [l.conn.mRequest.body.length]⟩ := by
  have hdispatch := dispatch_of_some hlookup
    (rfl : (l.requested callback).runCallback calls = (l.requested callback).runCallback calls)
  have haside := Aside.runCallback calls (l.requested callback)
  have hhanded : handedLengths ((l.requested callback).runCallback calls).conn.log =
      handedLengths l.conn.log ++ [l.conn.mRequest.body.length] := by
    unfold handedLengths
    rw [haside.requests_eq]
    exact handedLengths_requested l callback
  have hreads' : ((l.requested callback).runCallback calls).conn.mSocket.reads = [] :=
    haside.reads_eq.trans hreads
  have hkeep : ((l.requested callback).runCallback calls).conn.mRequest.keepAlive =
      l.conn.mRequest.keepAlive := by
    rw [haside.request_eq]
    rfl
  rw [hdispatch, hkeep, ← hhanded]
  by_cases hagain : l.conn.mRequest.keepAlive = true
  · rw [if_pos hagain, if_pos hagain]
    exact decision_readHeaders hreads'
  · rw [if_neg hagain, if_neg hagain]
    exact decision_of_reads_nil hreads'

theorem handed_dispatch (funcs : CallbackTable) (calls : List (Call Unit))
    (hreads : l.conn.mSocket.reads = []) :
    (decision ((host funcs calls).dispatch l)).handed =
      handedLengths l.conn.log ++ [l.conn.mRequest.body.length] := by
  cases hlookup : funcs.lookup l.conn.mRequest.uri with
  | none => rw [decision_dispatch_of_none hlookup hreads]
  | some callback => rw [decision_dispatch_of_some hlookup hreads]

/-- Two links between which a dispatch makes no difference but for the length in the request. -/
structure Alike (l l' : Link) : Prop where
  abort_eq : l.conn.mAbort = l'.conn.mAbort
  registered_eq : l.registered = l'.registered
  reads_eq : l.conn.mSocket.reads = []
  reads_eq' : l'.conn.mSocket.reads = []
  handed_eq : handedLengths l.conn.log = handedLengths l'.conn.log
  uri_eq : l.conn.mRequest.uri = l'.conn.mRequest.uri
  keepAlive_eq : l.conn.mRequest.keepAlive = l'.conn.mRequest.keepAlive
  body_eq : l.conn.mRequest.body = l'.conn.mRequest.body

theorem Alike.decision_dispatch (h : Alike l l') (funcs : CallbackTable)
    (calls : List (Call Unit)) :
    decision ((host funcs calls).dispatch l) = decision ((host funcs calls).dispatch l') := by
  cases hlookup : funcs.lookup l.conn.mRequest.uri with
  | none =>
      have hlookup' : funcs.lookup l'.conn.mRequest.uri = none := h.uri_eq ▸ hlookup
      rw [decision_dispatch_of_none hlookup h.reads_eq,
        decision_dispatch_of_none hlookup' h.reads_eq', h.handed_eq, h.body_eq]
  | some callback =>
      have hlookup' : funcs.lookup l'.conn.mRequest.uri = some callback := h.uri_eq ▸ hlookup
      have habort : ((l.requested callback).runCallback calls).conn.mAbort =
          ((l'.requested callback).runCallback calls).conn.mAbort :=
        runCallback_flags calls h.abort_eq h.registered_eq
      rw [decision_dispatch_of_some hlookup h.reads_eq,
        decision_dispatch_of_some hlookup' h.reads_eq', habort, h.keepAlive_eq, h.handed_eq,
        h.body_eq]

theorem handleRequestHead_normalise (ec : ErrorCode) (l : Link) :
    (host funcs calls).handleRequestHead ec { l with conn := l.conn.normalise } =
      (host funcs calls).handleRequestHead ec l := by
  have hnormal : l.conn.normalise.normalise = l.conn.normalise := by
    unfold HttpConnction.normalise
    rw [Request.normalise_normalise]
  have hconn : (host funcs calls).conn { l with conn := l.conn.normalise } = l.conn.normalise := rfl
  unfold Host.handleRequestHead
  rw [hconn, hnormal]
  rfl

theorem handleRequestHead_of_other (h : l.conn.normalise.mRequest.method ≠ str "post") :
    (host funcs calls).handleRequestHead .success l =
      (host funcs calls).dispatch { l with conn := l.conn.normalise } :=
  if_neg h

theorem handleRequestHead_of_zero (hpost : l.conn.normalise.mRequest.method = str "post")
    (hzero : l.conn.normalise.mRequest.contentLength = 0) :
    (host funcs calls).handleRequestHead .success l =
      managerStop { l with conn := l.conn.normalise } :=
  (if_pos hpost).trans (if_pos (.inl hzero))

theorem handleRequestHead_of_waits (hpost : l.conn.normalise.mRequest.method = str "post")
    (hadmitted : l.conn.normalise.mRequest.BodyAdmitted)
    (hlt : l.conn.mRecvBuffer.length < l.conn.normalise.mRequest.contentLength.toNat) :
    (host funcs calls).handleRequestHead .success l =
      { l with
        conn := l.conn.normalise.readBody
          (l.conn.normalise.mRequest.contentLength.toNat - l.conn.mRecvBuffer.length) } :=
  (if_pos hpost).trans ((if_neg hadmitted).trans (if_neg (Nat.not_le.mpr hlt)))

theorem handleRequestHead_of_come (hpost : l.conn.normalise.mRequest.method = str "post")
    (hadmitted : l.conn.normalise.mRequest.BodyAdmitted) (habort : l.conn.mAbort = false)
    (hle : l.conn.normalise.mRequest.contentLength.toNat ≤ l.conn.mRecvBuffer.length) :
    (host funcs calls).handleRequestHead .success l =
      (host funcs calls).dispatch { l with conn := l.conn.normalise.takeBody } := by
  have hgoes : ¬(ErrorCode.success.failed || l.conn.mAbort) = true := by
    rw [habort]
    decide
  refine (if_pos hpost).trans ((if_neg hadmitted).trans ((if_pos hle).trans ?_))
  exact (handleReadBody_eq .success _ { l with conn := l.conn.normalise }).trans (if_neg hgoes)

def parsed (s : Link) (block : Bytes) : Link :=
  { s with conn := ((s.conn.popRead 0).parseHeaders block.length).2 }

def parseBlock (s : Link) (block : Bytes) : RequestParser.Parsed :=
  s.conn.mRequestParser.parse s.conn.mRequest (block ++ [0])

theorem parsed_withLength (s : Link) (block : Bytes) (c : UInt64) :
    (s.withLength c).parsed block = (s.parsed block).withLength c := by
  have hparse := HttpConnction.parseHeaders_withLength (s.conn.popRead 0) c block.length
  unfold parsed
  exact congrArg (fun r => (⟨r.2, s.registered⟩ : Link)) hparse

theorem parseBlock_withLength (s : Link) (block : Bytes) (c : UInt64) :
    (s.withLength c).parseBlock block =
      { s.parseBlock block with req := (s.parseBlock block).req.withLength c } :=
  RequestParser.parse_withLength _ _ _ _

namespace HasBlock

theorem withLength (h : s.HasBlock block rest) (c : UInt64) : (s.withLength c).HasBlock block rest :=
  ⟨h.reads_eq, h.abort_eq, h.cut⟩

theorem parsed_eq (h : s.HasBlock block rest) :
    s.parsed block = s.readUpTo block.length
      ⟨.done, (s.parseBlock block).parser, (s.parseBlock block).req, rest ++ s.conn.mSocket.unread⟩
      [.parsed block (s.parseBlock block).result
        (block.length + 1 - (s.parseBlock block).begin_.length)] [] :=
  (h.readUpTo_of_parseHeaders rfl rfl).2

theorem handleReadHeaders_eq (h : s.HasBlock block rest) :
    (host funcs calls).handleReadHeaders .success block.length { s with conn := s.conn.popRead 0 } =
      if (s.parseBlock block).result = .falseValue then (s.parsed block).managerStop
      else (host funcs calls).handleRequestHead .success (s.parsed block) := by
  have habort : ((host funcs calls).conn { s with conn := s.conn.popRead 0 }).mAbort = false :=
    h.abort_eq
  have hparse := congrArg Prod.fst (HttpConnction.parseHeaders_eq (s.conn.popRead 0) h.cut)
  unfold Host.handleReadHeaders
  rw [habort]
  simp only [ErrorCode.failed, ne_eq, not_true_eq_false, decide_false, Bool.or_self,
    Bool.false_eq_true, if_false, Tribool.not_or_eq_indeterminate_toBool, decide_eq_true_eq]
  change (if ((s.conn.popRead 0).parseHeaders block.length).1 = _ then _ else _) = _
  rw [hparse]
  rfl

theorem step_withLength (h : s.HasBlock block rest) (funcs : CallbackTable)
    (calls : List (Call Unit)) (c : UInt64) :
    step funcs (s.withLength c) (.io (.readDone 0 calls)) =
      some (if (s.parseBlock block).result = .falseValue then
          ((s.parsed block).withLength c).managerStop
        else (host funcs calls).handleRequestHead .success ((s.parsed block).withLength c)) := by
  rw [(h.withLength c).step_readDone, (h.withLength c).handleReadHeaders_eq, parsed_withLength,
    parseBlock_withLength]

theorem parsed_reads (h : s.HasBlock block rest) : (s.parsed block).conn.mSocket.reads = [] := by
  rw [h.parsed_eq]
  rfl

theorem parsed_abort (h : s.HasBlock block rest) : (s.parsed block).conn.mAbort = false := by
  rw [h.parsed_eq]
  exact h.abort_eq

theorem parsed_request (h : s.HasBlock block rest) :
    (s.parsed block).conn.mRequest = (s.parseBlock block).req := by
  rw [h.parsed_eq]
  rfl

theorem normalise_of_stale (h : s.HasBlock block rest)
    (hpost : toLowerCopy (s.parseBlock block).req.method = str "post")
    (hstale : ¬ Inked ((s.parseBlock block).req.subscript (str "content-length"))) (c : UInt64) :
    ((s.parsed block).withLength c).conn.normalise.mRequest.method = str "post" ∧
      ((s.parsed block).withLength c).conn.normalise.mRequest.contentLength = c := by
  rw [← h.parsed_request] at hpost hstale
  constructor
  · exact (Request.normalise_method _).trans hpost
  · exact Request.lengthFrom_of_not_inked hstale c

theorem decision_of_other (h : s.HasBlock block rest)
    (hother : toLowerCopy (s.parseBlock block).req.method ≠ str "post") (c₁ c₂ : UInt64) :
    decision ((host funcs calls).handleRequestHead .success ((s.parsed block).withLength c₁)) =
      decision ((host funcs calls).handleRequestHead .success ((s.parsed block).withLength c₂)) := by
  have hnormal (c : UInt64) : ((s.parsed block).withLength c).conn.normalise =
      (s.parsed block).conn.normalise.withLength _ :=
    HttpConnction.normalise_withLength _ c
  have hmethod (c : UInt64) :
      ((s.parsed block).withLength c).conn.normalise.mRequest.method ≠ str "post" := by
    intro hpost
    rw [hnormal] at hpost
    apply hother
    rw [← h.parsed_request, ← hpost]
    exact (Request.normalise_method _).symm
  rw [handleRequestHead_of_other (hmethod c₁), handleRequestHead_of_other (hmethod c₂)]
  apply Alike.decision_dispatch
  rw [hnormal, hnormal]
  exact ⟨rfl, rfl, h.parsed_reads, h.parsed_reads, rfl, rfl, rfl, rfl⟩

theorem decision_of_inked (h : s.HasBlock block rest)
    (hinked : Inked ((s.parseBlock block).req.subscript (str "content-length"))) (c₁ c₂ : UInt64) :
    decision ((host funcs calls).handleRequestHead .success ((s.parsed block).withLength c₁)) =
      decision ((host funcs calls).handleRequestHead .success ((s.parsed block).withLength c₂)) := by
  rw [← h.parsed_request] at hinked
  have hnormal : ((s.parsed block).withLength c₁).conn.normalise =
      ((s.parsed block).withLength c₂).conn.normalise := by
    have hlength := Request.lengthFrom_of_inked hinked c₁ c₂
    exact (HttpConnction.normalise_withLength _ c₁).trans
      (hlength ▸ (HttpConnction.normalise_withLength _ c₂).symm)
  rw [← handleRequestHead_normalise _ ((s.parsed block).withLength c₁), hnormal]
  exact congrArg decision (handleRequestHead_normalise _ ((s.parsed block).withLength c₂))

theorem decision_of_zero (h : s.HasBlock block rest)
    (hpost : toLowerCopy (s.parseBlock block).req.method = str "post")
    (hstale : ¬ Inked ((s.parseBlock block).req.subscript (str "content-length"))) :
    decision ((host funcs calls).handleRequestHead .success ((s.parsed block).withLength 0)) =
      ⟨true, [], none, handedLengths (s.parsed block).conn.log⟩ := by
  obtain ⟨hmethod, hlength⟩ := h.normalise_of_stale hpost hstale 0
  rw [handleRequestHead_of_zero hmethod hlength]
  exact decision_managerStop h.parsed_reads

theorem decision_of_one (h : s.HasBlock block rest)
    (hpost : toLowerCopy (s.parseBlock block).req.method = str "post")
    (hstale : ¬ Inked ((s.parseBlock block).req.subscript (str "content-length"))) :
    decision ((host funcs calls).handleRequestHead .success ((s.parsed block).withLength 1)) ≠
      ⟨true, [], none, handedLengths (s.parsed block).conn.log⟩ := by
  obtain ⟨l, hl⟩ : ∃ l, l = ((s.parsed block).withLength 1) := ⟨_, rfl⟩
  obtain ⟨hmethod, hlength⟩ := h.normalise_of_stale hpost hstale 1
  rw [← hl] at hmethod hlength ⊢
  have hreads : l.conn.normalise.mSocket.reads = [] := hl ▸ h.parsed_reads
  have habort : l.conn.normalise.mAbort = false := hl ▸ h.parsed_abort
  have hlog : handedLengths l.conn.log = handedLengths (s.parsed block).conn.log :=
    congrArg handedLengths (hl ▸ rfl)
  rw [← hlog]
  have hadmitted : l.conn.normalise.mRequest.BodyAdmitted := by
    rw [Request.bodyAdmitted_iff, hlength]
    decide
  intro hsame
  rcases Nat.lt_or_ge l.conn.mRecvBuffer.length 1 with hlt | hge
  · have hwaits : (host funcs calls).handleRequestHead .success l = _ :=
      handleRequestHead_of_waits hmethod hadmitted (by rw [hlength]; exact hlt)
    rw [hwaits] at hsame
    have hstopped : l.conn.normalise.mAbort = true := congrArg Decision.stopped hsame
    rw [habort] at hstopped
    cases hstopped
  · have hcome : (host funcs calls).handleRequestHead .success l = _ :=
      handleRequestHead_of_come hmethod hadmitted habort (by rw [hlength]; exact hge)
    have htaken : handedLengths l.conn.normalise.takeBody.log = handedLengths l.conn.log := by
      simp [HttpConnction.takeBody, HttpConnction.record, HttpConnction.normalise, handedLengths,
        requests, Event.request]
    have hhanded := handed_dispatch funcs calls
      (l := { l with conn := l.conn.normalise.takeBody }) hreads
    rw [← hcome, hsame, htaken] at hhanded
    -- the handed lengths would be one more than they are
    simpa using congrArg List.length hhanded

end HasBlock

/-- What the handler of a complete header read decides does not depend on the length that the
request held before exactly when the block is refused, is no POST, or the value that `normalise`
looks up for the length has a byte that is not white space. -/
theorem decision_independent_iff (h : s.HasBlock block rest) (funcs : CallbackTable)
    (calls : List (Call Unit)) :
    (∀ c₁ c₂, (step funcs (s.withLength c₁) (.io (.readDone 0 calls))).map decision =
        (step funcs (s.withLength c₂) (.io (.readDone 0 calls))).map decision) ↔
      (s.parseBlock block).result = .falseValue ∨
        toLowerCopy (s.parseBlock block).req.method ≠ str "post" ∨
        Inked ((s.parseBlock block).req.subscript (str "content-length")) := by
  simp only [h.step_withLength, Option.map_some, Option.some.injEq]
  constructor
  · intro hall
    by_contra hcond
    rw [not_or, not_or, not_not] at hcond
    obtain ⟨haccepted, hpost, hstale⟩ := hcond
    have hsame := hall 0 1
    rw [if_neg haccepted, if_neg haccepted, h.decision_of_zero hpost hstale] at hsame
    exact h.decision_of_one hpost hstale hsame.symm
  · intro hcond c₁ c₂
    by_cases hrefused : (s.parseBlock block).result = .falseValue
    · have hreads (c : UInt64) : ((s.parsed block).withLength c).conn.mSocket.reads = [] :=
        h.parsed_reads
      rw [if_pos hrefused, if_pos hrefused, decision_managerStop (hreads c₁),
        decision_managerStop (hreads c₂)]
      rfl
    · rw [if_neg hrefused, if_neg hrefused]
      rcases hcond with hfalse | hother | hinked
      · exact absurd hfalse hrefused
      · exact h.decision_of_other hother c₁ c₂
      · exact h.decision_of_inked hinked c₁ c₂

/-- For concrete runs: a POST for "/" with these header lines, which has come. -/
def postArrived (lines : Bytes) : Link :=
  delivered (.uninitialised 0 0 0 false) (str "POST / HTTP/1.1\r\n" ++ lines ++ str "\r\n")
    (lines.length + 19)

theorem decision_independent_of_length :
    (step [(str "/", 0)] ((postArrived (str "Content-Length: 5\r\n")).withLength 0)
        (.io (.readDone 0 []))).map decision =
      (step [(str "/", 0)] ((postArrived (str "Content-Length: 5\r\n")).withLength 1)
        (.io (.readDone 0 []))).map decision := by
  have hcut : splitAfter crlfCrlf
      (str "POST / HTTP/1.1\r\n" ++ str "Content-Length: 5\r\n" ++ str "\r\n") =
        some (str "POST / HTTP/1.1\r\nContent-Length: 5\r\n\r\n", []) := by decide +kernel
  have hblock : (postArrived (str "Content-Length: 5\r\n")).HasBlock _ _ := hasBlock_delivered hcut
  exact (decision_independent_iff hblock [(str "/", 0)] []).mpr (by decide +kernel) 0 1

/-- Without a header for the length the connection is stopped with one stale length and reads a body
with another. -/
theorem stale_length_decides :
    ∃ block, (postArrived []).HasBlock block [] ∧
      (step [(str "/", 0)] ((postArrived []).withLength 0) (.io (.readDone 0 []))).map decision =
        some ⟨true, [], none, []⟩ ∧
      (step [(str "/", 0)] ((postArrived []).withLength 1) (.io (.readDone 0 []))).map decision =
        some ⟨false, [.readExactly 1 1], some 1, []⟩ :=
  ⟨str "POST / HTTP/1.1\r\n\r\n", ⟨rfl, rfl, by decide +kernel⟩, by decide +kernel,
    by decide +kernel⟩

end Link

end BtcServer.HttpmessageServer
