import BtcServer.HttpmessageServer.FirstRequest
import BtcServer.HttpmessageServer.RequestLine

/-!
# What the parser stores

Whatever bytes `consume` is given, in whatever order with calls of `reset` and whatever it has said
before, the strings that it stores are made of the bytes that the grammar allows there, and it never
asks an empty vector of headers for its last element.
-/

namespace BtcServer.HttpmessageServer

open Boost Lib Grammar

/-! ## Clean requests -/

/-- Method, uri and headers are made of the bytes allowed there, and no header is without a name. -/
structure Request.Clean (req : Request) : Prop where
  method : ∀ b ∈ req.method, Token b
  uri : ∀ b ∈ req.uri, TargetByte b
  names : ∀ hdr ∈ req.headers, hdr.name ≠ [] ∧ ∀ b ∈ hdr.name, Token b
  values : ∀ hdr ∈ req.headers, ∀ b ∈ hdr.value, Text b

theorem forall_mem_concat {α : Type*} {P : α → Prop} {l : List α} {a : α} (h : ∀ b ∈ l, P b)
    (ha : P a) : ∀ b ∈ l ++ [a], P b := by
  intro b hb
  rcases List.mem_append.mp hb with hold | hnew
  · exact h b hold
  · obtain rfl := List.mem_singleton.mp hnew
    exact ha

theorem mem_modifyBack {f : Header → Header} {hdrs : List Header} {hdr : Header}
    (h : hdr ∈ modifyBack f hdrs) : hdr ∈ hdrs ∨ ∃ last ∈ hdrs, hdr = f last := by
  induction hdrs with
  | nil => cases h
  | cons first hdrs ih =>
      cases hdrs with
      | nil => exact .inr ⟨first, List.mem_cons_self, List.mem_singleton.mp h⟩
      | cons next hdrs =>
          rcases List.mem_cons.mp h with rfl | hrest
          · exact .inl List.mem_cons_self
          · rcases ih hrest with hmem | ⟨last, hlast, heq⟩
            · exact .inl (List.mem_cons_of_mem _ hmem)
            · exact .inr ⟨last, List.mem_cons_of_mem _ hlast, heq⟩

namespace Request.Clean

variable {req : Request} {a : UInt8}

theorem of_empty (h : req.Empty) : req.Clean := by
  obtain ⟨hmethod, huri, hheaders⟩ := h
  refine ⟨?_, ?_, ?_, ?_⟩
  · rw [hmethod]
    exact fun b hb => by cases hb
  · rw [huri]
    exact fun b hb => by cases hb
  · rw [hheaders]
    exact fun hdr hmem => by cases hmem
  · rw [hheaders]
    exact fun hdr hmem => by cases hmem

theorem pushMethod (h : req.Clean) (ha : Token a) :
    { req with method := req.method ++ [a] }.Clean :=
  { h with method := forall_mem_concat h.method ha }

theorem pushUri (h : req.Clean) (ha : TargetByte a) : { req with uri := req.uri ++ [a] }.Clean :=
  { h with uri := forall_mem_concat h.uri ha }

theorem pushHeader (h : req.Clean) (ha : Token a) : (req.pushHeader.pushName a).Clean := by
  have hheaders : (req.pushHeader.pushName a).headers = req.headers ++ [⟨[a], []⟩] :=
    modifyBack_concat _ req.headers ⟨[], []⟩
  refine ⟨h.method, h.uri, ?_, ?_⟩
  · rw [hheaders]
    exact forall_mem_concat h.names ⟨List.cons_ne_nil _ _, List.forall_mem_singleton.mpr ha⟩
  · rw [hheaders]
    exact forall_mem_concat h.values fun b hb => by cases hb

theorem updateBack (h : req.Clean) {f : Header → Header}
    (hname : ∀ hdr ∈ req.headers, (f hdr).name ≠ [] ∧ ∀ b ∈ (f hdr).name, Token b)
    (hvalue : ∀ hdr ∈ req.headers, ∀ b ∈ (f hdr).value, Text b) :
    { req with headers := modifyBack f req.headers }.Clean where
  method := h.method
  uri := h.uri
  names hdr hmem := by
    rcases mem_modifyBack hmem with hold | ⟨last, hlast, rfl⟩
    · exact h.names hdr hold
    · exact hname last hlast
  values hdr hmem := by
    rcases mem_modifyBack hmem with hold | ⟨last, hlast, rfl⟩
    · exact h.values hdr hold
    · exact hvalue last hlast

theorem pushName (h : req.Clean) (ha : Token a) : (req.pushName a).Clean := by
  refine h.updateBack (fun hdr hmem => ?_) h.values
  exact ⟨List.append_ne_nil_of_right_ne_nil _ (List.cons_ne_nil a []),
    forall_mem_concat (h.names hdr hmem).2 ha⟩

theorem pushValue (h : req.Clean) (ha : Text a) : (req.pushValue a).Clean :=
  h.updateBack h.names fun hdr hmem => forall_mem_concat (h.values hdr hmem) ha

theorem withVersion (h : req.Clean) (major minor : Int) :
    { req with httpVersionMajor := major, httpVersionMinor := minor }.Clean :=
  ⟨h.method, h.uri, h.names, h.values⟩

end Request.Clean

namespace RequestParser

variable {p : RequestParser} {req : Request} {a : UInt8} {st : State} {w : Bytes}

/-! ## One byte -/

/-- The vector that `headers.back()` is called on while this byte is consumed, if it is called. -/
def backOn (p : RequestParser) (req : Request) (input : UInt8) : Option (List Header) :=
  let c := charToInt input
  match p.mState with
  | .headerLineStart =>
      if input = '\r'.toUInt8 then none
      else if req.headers ≠ [] ∧ (input = ' '.toUInt8 ∨ input = '\t'.toUInt8) then none
      else if !isChar c || isCtl c || isTspecial c then none
      else some req.pushHeader.headers
  | .headerLws =>
      if input = '\r'.toUInt8 then none
      else if input = ' '.toUInt8 ∨ input = '\t'.toUInt8 then none
      else if isCtl c then none
      else some req.headers
  | .headerName =>
      if input = ':'.toUInt8 then none
      else if !isChar c || isCtl c || isTspecial c then none
      else some req.headers
  | .headerValue =>
      if input = '\r'.toUInt8 then none
      else if isCtl c then none
      else some req.headers
  | _ => none

/-- The headers change in the element that `back()` returns and nowhere else. -/
theorem consume_headers (p : RequestParser) (req : Request) (a : UInt8) :
    (backOn p req a = none ∧ (consume p req a).2.2.headers = req.headers) ∨
      ∃ hdrs f, backOn p req a = some hdrs ∧
        (consume p req a).2.2.headers = modifyBack f hdrs := by
  rcases p with ⟨st⟩
  cases st with
  | headerLineStart | headerLws =>
      simp only [backOn, consume]
      split_ifs
      · exact .inl ⟨rfl, rfl⟩
      · exact .inl ⟨rfl, rfl⟩
      · exact .inl ⟨rfl, rfl⟩
      · exact .inr ⟨_, _, rfl, rfl⟩
  | headerName | headerValue =>
      simp only [backOn, consume]
      split_ifs
      · exact .inl ⟨rfl, rfl⟩
      · exact .inl ⟨rfl, rfl⟩
      · exact .inr ⟨_, _, rfl, rfl⟩
  | expectingNewline3 => exact .inl ⟨rfl, rfl⟩
  | _ =>
      refine .inl ⟨rfl, ?_⟩
      simp only [consume]
      split_ifs <;> rfl

/-- The states in which the last header is being read. -/
def readsHeader : State → Bool
  | .headerLws | .headerName | .spaceBeforeHeaderValue | .headerValue => true
  | _ => false

/-- What holds of a parser and its request between two bytes. -/
structure Sound (p : RequestParser) (req : Request) : Prop extends req.Clean where
  state_ne : p.mState ≠ .uriStart
  headers_ne_nil : readsHeader p.mState = true → req.headers ≠ []

theorem Sound.of_clean (h : req.Clean) (hst : st ≠ .uriStart) (hidle : readsHeader st = false) :
    Sound ⟨st⟩ req :=
  ⟨h, hst, fun hreads => absurd (hidle.symm.trans hreads) Bool.false_ne_true⟩

theorem Sound.of_headers (h : req.Clean) (hst : st ≠ .uriStart) (hne : req.headers ≠ []) :
    Sound ⟨st⟩ req :=
  ⟨h, hst, fun _ => hne⟩

theorem Sound.of_empty (h : req.Empty) : Sound fresh req :=
  .of_clean (.of_empty h) (by decide) rfl

theorem Sound.reset (h : Sound p req) : Sound p.reset req :=
  .of_clean h.toClean (by decide) rfl

/-- Any byte keeps it, whether it is accepted or not. -/
theorem Sound.consume (h : Sound p req) (a : UInt8) :
    Sound (consume p req a).2.1 (consume p req a).2.2 := by
  rcases p with ⟨st⟩
  cases st with
  | methodStart =>
      simp only [RequestParser.consume, not_token_charToInt, decide_eq_true_eq]
      split_ifs with htoken
      · exact .of_clean (h.pushMethod htoken) (by decide) rfl
      · exact h
  | method =>
      simp only [RequestParser.consume, not_token_charToInt, decide_eq_true_eq]
      split_ifs with hspace htoken
      · exact .of_clean h.toClean (by decide) rfl
      · exact .of_clean (h.pushMethod htoken) (by decide) rfl
      · exact h
  | uriStart => exact absurd rfl h.state_ne
  | uri =>
      simp only [RequestParser.consume, isCtl_charToInt, decide_eq_true_eq]
      split_ifs with hspace hctl
      · exact .of_clean h.toClean (by decide) rfl
      · exact h
      · exact .of_clean (h.pushUri ⟨hctl, hspace⟩) (by decide) rfl
  | httpVersionSlash | httpVersionMajorStart | httpVersionMinorStart =>
      simp only [RequestParser.consume]
      split_ifs
      · exact .of_clean (h.withVersion _ _) (by decide) rfl
      · exact h
  | httpVersionMajor | httpVersionMinor =>
      simp only [RequestParser.consume]
      split_ifs
      · exact .of_clean h.toClean (by decide) rfl
      · exact .of_clean (h.withVersion _ _) (by decide) rfl
      · exact h
  | headerLineStart =>
      simp only [RequestParser.consume, not_token_charToInt, decide_eq_true_eq]
      split_ifs with hend hfold htoken
      · exact .of_clean h.toClean (by decide) rfl
      · -- a continuation line is begun only behind a header
        exact .of_headers h.toClean (by decide) hfold.1
      · exact .of_headers (h.pushHeader htoken) (by decide)
          (Request.pushName_headers_ne_nil (Request.pushHeader_headers_ne_nil req) a)
      · exact h
  | headerLws =>
      simp only [RequestParser.consume, isCtl_charToInt, decide_eq_true_eq]
      split_ifs with hend hblank hctl
      · exact .of_clean h.toClean (by decide) rfl
      · exact h
      · exact h
      · exact .of_headers (h.pushValue hctl) (by decide)
          (Request.pushValue_headers_ne_nil (h.headers_ne_nil rfl) a)
  | headerName =>
      simp only [RequestParser.consume, not_token_charToInt, decide_eq_true_eq]
      split_ifs with hcolon htoken
      · exact .of_headers h.toClean (by decide) (h.headers_ne_nil rfl)
      · exact .of_headers (h.pushName htoken) (by decide)
          (Request.pushName_headers_ne_nil (h.headers_ne_nil rfl) a)
      · exact h
  | spaceBeforeHeaderValue =>
      simp only [RequestParser.consume]
      split_ifs
      · exact .of_headers h.toClean (by decide) (h.headers_ne_nil rfl)
      · exact h
  | headerValue =>
      simp only [RequestParser.consume, isCtl_charToInt, decide_eq_true_eq]
      split_ifs with hend hctl
      · exact .of_clean h.toClean (by decide) rfl
      · exact h
      · exact .of_headers (h.pushValue hctl) (by decide)
          (Request.pushValue_headers_ne_nil (h.headers_ne_nil rfl) a)
  | expectingNewline3 => exact h
  | httpVersionH | httpVersionT1 | httpVersionT2 | httpVersionP | expectingNewline1
  | expectingNewline2 =>
      simp only [RequestParser.consume]
      split_ifs
      · exact .of_clean h.toClean (by decide) rfl
      · exact h

theorem Sound.backOn_ne_nil (h : Sound p req) {hdrs : List Header}
    (hback : backOn p req a = some hdrs) : hdrs ≠ [] := by
  rcases p with ⟨st⟩
  cases st with
  | headerLineStart =>
      simp only [backOn] at hback
      split_ifs at hback
      obtain rfl := Option.some.inj hback
      exact Request.pushHeader_headers_ne_nil req
  | headerLws | headerName | headerValue =>
      simp only [backOn] at hback
      split_ifs at hback
      obtain rfl := Option.some.inj hback
      exact h.headers_ne_nil rfl
  | _ => cases hback

/-! ## Any calls -/

theorem parse_invariant {I : RequestParser → Request → Prop}
    (hstep : ∀ p req a, I p req → I (consume p req a).2.1 (consume p req a).2.2) (h : I p req)
    (w : Bytes) : I (parse p req w).parser (parse p req w).req := by
  induction w generalizing p req with
  | nil => exact h
  | cons a w ih =>
      have hnext := hstep p req a h
      unfold parse
      dsimp only
      split
      · exact hnext
      · exact ih hnext

inductive ParserCall
  | parse (chunk : Bytes)
  | reset
  deriving DecidableEq, Repr

/-- The parser and the request behind some calls, whatever `parse` has returned. -/
def performAll (p : RequestParser) (req : Request) : List ParserCall → RequestParser × Request
  | [] => (p, req)
  | .parse chunk :: calls =>
      let out := p.parse req chunk
      performAll out.parser out.req calls
  | .reset :: calls => performAll p.reset req calls

def consumedBy (p : RequestParser) (req : Request) : List ParserCall → List ConsumeCall
  | [] => []
  | .parse chunk :: calls =>
      let out := p.parse req chunk
      consumed p req chunk ++ consumedBy out.parser out.req calls
  | .reset :: calls => consumedBy p.reset req calls

theorem Sound.consumedBy (h : Sound p req) (calls : List ParserCall) :
    ∀ c ∈ consumedBy p req calls, Sound c.parser c.req := by
  induction calls generalizing p req with
  | nil => exact fun c hc => absurd hc List.not_mem_nil
  | cons call calls ih =>
      intro c hc
      cases call with
      | parse chunk =>
          rcases List.mem_append.mp hc with hnow | hlater
          · exact forall_consumed_of_invariant (fun _ _ a h => h.consume a) h c hnow
          · exact ih (parse_invariant (fun _ _ a h => h.consume a) h chunk) c hlater
      | reset => exact ih h.reset c hc

theorem Sound.performAll (h : Sound p req) (calls : List ParserCall) :
    Sound (performAll p req calls).1 (performAll p req calls).2 := by
  induction calls generalizing p req with
  | nil => exact h
  | cons call calls ih =>
      cases call with
      | parse chunk => exact ih (parse_invariant (fun _ _ a h => h.consume a) h chunk)
      | reset => exact ih h.reset

/-- The request is clean before and behind this byte, and `back()` is defined. -/
structure ConsumesSoundly (c : ConsumeCall) : Prop where
  before : c.req.Clean
  behind : (consume c.parser c.req c.input).2.2.Clean
  back_ne_nil : ∀ hdrs, backOn c.parser c.req c.input = some hdrs → hdrs ≠ []

theorem Sound.consumesSoundly {c : ConsumeCall} (h : Sound c.parser c.req) : ConsumesSoundly c where
  before := h.toClean
  behind := (h.consume c.input).toClean
  back_ne_nil _ hback := h.backOn_ne_nil hback

end RequestParser

/-! ## What a connection hands on -/

theorem token_toLower : ∀ b, Token b → Token (toLower b) :=
  forall_byte (by decide +kernel)

theorem targetByte_toLower : ∀ b, TargetByte b → TargetByte (toLower b) :=
  forall_byte (by decide +kernel)

theorem Request.Clean.normalise {req : Request} (h : req.Clean) : req.normalise.Clean where
  method := by
    rw [normalise_method]
    exact List.forall_mem_map.mpr fun b hb => token_toLower b (h.method b hb)
  uri := by
    rw [normalise_uri]
    exact List.forall_mem_map.mpr fun b hb => targetByte_toLower b (h.uri b hb)
  names := by
    rw [normalise_headers]
    refine List.forall_mem_map.mpr fun hdr hmem => ?_
    obtain ⟨hne, htoken⟩ := h.names hdr hmem
    exact ⟨List.map_eq_nil_iff.not.mpr hne,
      List.forall_mem_map.mpr fun b hb => token_toLower b (htoken b hb)⟩
  values := by
    rw [normalise_headers]
    exact List.forall_mem_map.mpr fun hdr hmem => h.values hdr hmem

/-- No CR, no LF and no NUL. -/
def Harmless (s : Bytes) : Prop := '\r'.toUInt8 ∉ s ∧ '\n'.toUInt8 ∉ s ∧ 0 ∉ s

instance (s : Bytes) : Decidable (Harmless s) := inferInstanceAs (Decidable (_ ∧ _))

theorem harmless_of_text {s : Bytes} (h : ∀ b ∈ s, Text b) : Harmless s := by
  refine ⟨fun hmem => ?_, fun hmem => ?_, fun hmem => ?_⟩
  · exact absurd (h _ hmem) (by decide +kernel)
  · exact absurd (h _ hmem) (by decide +kernel)
  · exact absurd (h _ hmem) (by decide +kernel)

/-- The strings of the request line and the headers are harmless. -/
structure Request.HeadHarmless (req : Request) : Prop where
  method : Harmless req.method
  uri : Harmless req.uri
  names : ∀ hdr ∈ req.headers, Harmless hdr.name
  values : ∀ hdr ∈ req.headers, Harmless hdr.value

theorem Request.Clean.headHarmless {req : Request} (h : req.Clean) : req.HeadHarmless where
  method := harmless_of_text fun b hb => (h.method b hb).2.1
  uri := harmless_of_text fun b hb => (h.uri b hb).1
  names hdr hmem := harmless_of_text fun b hb => ((h.names hdr hmem).2 b hb).2.1
  values hdr hmem := harmless_of_text (h.values hdr hmem)

theorem Request.WithBodyOf.clean {first q : Request} (h : first.WithBodyOf q)
    (hclean : first.Clean) : q.Clean := by
  obtain ⟨body, rfl⟩ := h.exists_body
  exact ⟨hclean.method, hclean.uri, hclean.names, hclean.values⟩

theorem StreamReader.First.clean {req first : Request} {stream : Bytes} (hreq : req.Empty)
    (h : First ⟨.head, .fresh, req, stream⟩ first) : first.Clean := by
  obtain ⟨block, rest, -, -, rfl⟩ := h
  have hsound : RequestParser.Sound .fresh req := .of_empty hreq
  have hparsed := RequestParser.parse_invariant (fun _ _ a h => h.consume a) hsound (block ++ [0])
  exact hparsed.toClean.normalise

/-- What `handle_request` writes to the log. -/
def Event.logged : Event → Option Bytes
  | .requested req _ => some req.uri
  | _ => none

namespace Link

variable {funcs : CallbackTable} {ok : Link → Action → Prop} {as : List Action} {req : Request}
  {stream : Bytes} {t : Link}

theorem headHarmless_of_run (hreq : req.Empty) (h : Run (step funcs) ok (started req stream) as t)
    {q : Request} {callback : Option Callback} (hmem : .requested q callback ∈ t.conn.log) :
    q.HeadHarmless := by
  obtain ⟨first, hfirst, hhanded⟩ := handedOn_of_run h hmem
  exact (hhanded.toWithBodyOf.clean (hfirst.clean hreq)).headHarmless

theorem shown_headHarmless (hreq : req.Empty) (h : Run (step funcs) ok (started req stream) as t) :
    ∀ x ∈ invocations t.conn.log, x.1.HeadHarmless := by
  intro x hx
  obtain ⟨first, hfirst, hhanded⟩ := shown_of_run h hx
  exact (hhanded.toWithBodyOf.clean (hfirst.clean hreq)).headHarmless

theorem logged_harmless (hreq : req.Empty) (h : Run (step funcs) ok (started req stream) as t) :
    ∀ line ∈ t.conn.log.filterMap Event.logged, Harmless line := by
  intro line hline
  obtain ⟨e, hmem, he⟩ := List.mem_filterMap.mp hline
  cases e with
  | requested q callback =>
      obtain rfl : q.uri = line := Option.some.inj he
      exact (headHarmless_of_run hreq h hmem).uri
  | _ => cases he

/-- Whatever the calls of the parser, it stores what the grammar allows and `back()` is defined; and
nothing that a peer sends puts a CR, an LF or a NUL in the log or in what a callback is shown of a
request, the body apart. -/
theorem stored_clean (major minor : Int) (contentLength : UInt64) (keepAlive : Bool) :
    (∀ calls,
      (∀ c ∈ RequestParser.consumedBy .fresh
        (.uninitialised major minor contentLength keepAlive) calls,
        RequestParser.ConsumesSoundly c) ∧
      (RequestParser.performAll .fresh
        (.uninitialised major minor contentLength keepAlive) calls).2.Clean) ∧
    ∀ (funcs : CallbackTable) (stream : Bytes) (as : List Action) (t : Link),
      Run (step funcs) (fun _ _ => True)
        (started (.uninitialised major minor contentLength keepAlive) stream) as t →
      (∀ x ∈ invocations t.conn.log, x.1.HeadHarmless) ∧
        ∀ line ∈ t.conn.log.filterMap Event.logged, Harmless line := by
  have hreq : (Request.uninitialised major minor contentLength keepAlive).Empty := ⟨rfl, rfl, rfl⟩
  refine ⟨fun calls => ⟨fun c hc => ?_, ?_⟩, fun funcs stream as t hrun => ⟨?_, ?_⟩⟩
  · exact ((RequestParser.Sound.of_empty hreq).consumedBy calls c hc).consumesSoundly
  · exact ((RequestParser.Sound.of_empty hreq).performAll calls).toClean
  · exact shown_headHarmless hreq hrun
  · exact logged_harmless hreq hrun

theorem stored_clean_of_post :
    ∃ t, Run (step [(str "/", 0)]) (fun _ _ => True)
        (started (.uninitialised 0 0 0 false)
          (str "POST / HTTP/1.1\r\nContent-Length: 1\r\n\r\n\r"))
        [.io (.receive 0 39), .io (.readDone 0 [])] t ∧
      invocations t.conn.log ≠ [] ∧ ∀ x ∈ invocations t.conn.log, x.1.HeadHarmless := by
  have hrun : ∃ t, Run (step [(str "/", 0)]) (fun _ _ => True)
      (started (.uninitialised 0 0 0 false)
        (str "POST / HTTP/1.1\r\nContent-Length: 1\r\n\r\n\r"))
      [.io (.receive 0 39), .io (.readDone 0 [])] t ∧ invocations t.conn.log ≠ [] :=
    exists_run_of_exec (by decide +kernel)
  obtain ⟨t, h, hne⟩ := hrun
  exact ⟨t, h, hne, ((stored_clean 0 0 0 false).2 _ _ _ t h).1⟩

/-- A body is handed on as it was sent. -/
theorem body_not_harmless :
    ∃ t, Run (step [(str "/", 0)]) (fun _ _ => True)
        (started (.uninitialised 0 0 0 false)
          (str "POST / HTTP/1.1\r\nContent-Length: 1\r\n\r\n\r"))
        [.io (.receive 0 39), .io (.readDone 0 [])] t ∧
      ∃ x ∈ invocations t.conn.log, ¬ Harmless x.1.body :=
  exists_run_of_exec (by decide +kernel)

end Link

end BtcServer.HttpmessageServer
