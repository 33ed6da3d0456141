import BtcServer.HttpmessageServer.Grammar

/-!
# The language of every parser state

`Rest st req w r` says which words `w` complete a request head when the parser is in state `st`,
and which request `r` comes out when the parts read so far are in `req`.  It is written state by
state from the grammar; `rest_cons` shows that `consume` takes its derivative, and `denotes` that
`parse` therefore decides it.
-/

namespace BtcServer.HttpmessageServer

open Boost Lib Grammar

namespace RequestParser

def pushMethod (req : Request) (input : UInt8) : Request :=
  { req with method := req.method ++ [input] }

def pushUri (req : Request) (input : UInt8) : Request :=
  { req with uri := req.uri ++ [input] }

def pushMajor (req : Request) (input : UInt8) : Request :=
  { req with httpVersionMajor := addDigit req.httpVersionMajor input }

def pushMinor (req : Request) (input : UInt8) : Request :=
  { req with httpVersionMinor := addDigit req.httpVersionMinor input }

def zeroVersion (req : Request) : Request :=
  { req with httpVersionMajor := 0, httpVersionMinor := 0 }

/-- The header lines from the start of a line on, with the empty line that ends them. -/
inductive Lines : Request → Bytes → Request → Prop
  | done (req : Request) : Lines req crlf req
  | field {req r : Request} {w : Bytes} (name value : Bytes) (hne : name ≠ [])
      (hname : ∀ b ∈ name, Token b) (hvalue : ∀ b ∈ value, Text b)
      (h : Lines (value.foldl Request.pushValue (name.foldl Request.pushName req.pushHeader)) w r) :
      Lines req (name ++ str ": " ++ value ++ crlf ++ w) r
  | fold {req r : Request} {w : Bytes} (f : Fold) (hne : req.headers ≠ [])
      (h : Lines (f.text.foldl Request.pushValue req) w r) : Lines req (f.render ++ w) r

/-- A line feed, then header lines. -/
def RestNewline (req : Request) (w : Bytes) (r : Request) : Prop :=
  ∃ w', w = '\n'.toUInt8 :: w' ∧ Lines req w' r

def RestValue (req : Request) (w : Bytes) (r : Request) : Prop :=
  UpTo Text '\r'.toUInt8 (fun v w' => RestNewline (v.foldl Request.pushValue req) w' r) w

def RestSpace (req : Request) (w : Bytes) (r : Request) : Prop :=
  ∃ w', w = ' '.toUInt8 :: w' ∧ RestValue req w' r

def RestName (req : Request) (w : Bytes) (r : Request) : Prop :=
  UpTo Token ':'.toUInt8 (fun v w' => RestSpace (v.foldl Request.pushName req) w' r) w

/-- The end of a continuation line: blanks, then the end of the line or text. -/
def RestLws (req : Request) (w : Bytes) (r : Request) : Prop :=
  ∃ blanks w', (∀ b ∈ blanks, Blank b) ∧ w = blanks ++ w' ∧
    ((∃ w'', w' = '\r'.toUInt8 :: w'' ∧ RestNewline req w'' r) ∨
      ∃ t w'', w' = t :: w'' ∧ Text t ∧ t ≠ ' '.toUInt8 ∧ RestValue (req.pushValue t) w'' r)

def RestMinor (req : Request) (w : Bytes) (r : Request) : Prop :=
  UpTo Digit '\r'.toUInt8 (fun v w' => RestNewline (v.foldl pushMinor req) w' r) w

def RestMinorStart (req : Request) (w : Bytes) (r : Request) : Prop :=
  ∃ d w', w = d :: w' ∧ Digit d ∧ RestMinor (pushMinor req d) w' r

def RestMajor (req : Request) (w : Bytes) (r : Request) : Prop :=
  UpTo Digit '.'.toUInt8 (fun v w' => RestMinorStart (v.foldl pushMajor req) w' r) w

def RestMajorStart (req : Request) (w : Bytes) (r : Request) : Prop :=
  ∃ d w', w = d :: w' ∧ Digit d ∧ RestMajor (pushMajor req d) w' r

/-- A literal, then the version numbers. -/
def RestVersion (literal : Bytes) (req : Request) (w : Bytes) (r : Request) : Prop :=
  ∃ w', w = literal ++ w' ∧ RestMajorStart (zeroVersion req) w' r

def RestUri (req : Request) (w : Bytes) (r : Request) : Prop :=
  UpTo TargetByte ' '.toUInt8 (fun v w' => RestVersion (str "HTTP/") (v.foldl pushUri req) w' r) w

def RestMethod (req : Request) (w : Bytes) (r : Request) : Prop :=
  UpTo Token ' '.toUInt8 (fun v w' => RestUri (v.foldl pushMethod req) w' r) w

/-- The words that complete a request head from state `st`, and the request they give. -/
def Rest : State → Request → Bytes → Request → Prop
  | .methodStart, req, w, r => ∃ b w', w = b :: w' ∧ Token b ∧ RestMethod (pushMethod req b) w' r
  | .method, req, w, r => RestMethod req w r
  | .uriStart, req, w, r => ∃ b w', w = b :: w' ∧ Text b ∧ RestUri (pushUri req b) w' r
  | .uri, req, w, r => RestUri req w r
  | .httpVersionH, req, w, r => RestVersion (str "HTTP/") req w r
  | .httpVersionT1, req, w, r => RestVersion (str "TTP/") req w r
  | .httpVersionT2, req, w, r => RestVersion (str "TP/") req w r
  | .httpVersionP, req, w, r => RestVersion (str "P/") req w r
  | .httpVersionSlash, req, w, r => RestVersion (str "/") req w r
  | .httpVersionMajorStart, req, w, r => RestMajorStart req w r
  | .httpVersionMajor, req, w, r => RestMajor req w r
  | .httpVersionMinorStart, req, w, r => RestMinorStart req w r
  | .httpVersionMinor, req, w, r => RestMinor req w r
  | .expectingNewline1, req, w, r => RestNewline req w r
  | .headerLineStart, req, w, r => Lines req w r
  | .headerLws, req, w, r => RestLws req w r
  | .headerName, req, w, r => RestName req w r
  | .spaceBeforeHeaderValue, req, w, r => RestSpace req w r
  | .headerValue, req, w, r => RestValue req w r
  | .expectingNewline2, req, w, r => RestNewline req w r
  | .expectingNewline3, req, w, r => w = ['\n'.toUInt8] ∧ r = req

/-! ## Derivatives -/

/-- What the rest of the word has to be after a step with the given outcome. -/
def AfterStep : Tribool × RequestParser × Request → Bytes → Request → Prop
  | (.falseValue, _, _), _, _ => False
  | (.trueValue, _, req), w, r => w = [] ∧ r = req
  | (.indeterminateValue, p, req), w, r => Rest p.mState req w r

@[simp] theorem afterStep_reject (p : RequestParser) (req : Request) (w : Bytes) (r : Request) :
    AfterStep (reject p req) w r ↔ False :=
  Iff.rfl

@[simp] theorem afterStep_goOn (st : State) (req : Request) (w : Bytes) (r : Request) :
    AfterStep (goOn st req) w r ↔ Rest st req w r :=
  Iff.rfl

theorem restNewline_cons (req : Request) (a : UInt8) (w : Bytes) (r : Request) :
    RestNewline req (a :: w) r ↔ a = '\n'.toUInt8 ∧ Lines req w r := by
  simp [RestNewline, and_assoc]

theorem restSpace_cons (req : Request) (a : UInt8) (w : Bytes) (r : Request) :
    RestSpace req (a :: w) r ↔ a = ' '.toUInt8 ∧ RestValue req w r := by
  simp [RestSpace, and_assoc]

theorem restValue_cons (req : Request) (a : UInt8) (w : Bytes) (r : Request) :
    RestValue req (a :: w) r ↔
      a = '\r'.toUInt8 ∧ RestNewline req w r ∨ Text a ∧ RestValue (req.pushValue a) w r :=
  upTo_cons

theorem restName_cons (req : Request) (a : UInt8) (w : Bytes) (r : Request) :
    RestName req (a :: w) r ↔
      a = ':'.toUInt8 ∧ RestSpace req w r ∨ Token a ∧ RestName (req.pushName a) w r :=
  upTo_cons

theorem restMinor_cons (req : Request) (a : UInt8) (w : Bytes) (r : Request) :
    RestMinor req (a :: w) r ↔
      a = '\r'.toUInt8 ∧ RestNewline req w r ∨ Digit a ∧ RestMinor (pushMinor req a) w r :=
  upTo_cons

theorem restMinorStart_cons (req : Request) (a : UInt8) (w : Bytes) (r : Request) :
    RestMinorStart req (a :: w) r ↔ Digit a ∧ RestMinor (pushMinor req a) w r := by
  simp [RestMinorStart, and_assoc]

theorem restMajor_cons (req : Request) (a : UInt8) (w : Bytes) (r : Request) :
    RestMajor req (a :: w) r ↔
      a = '.'.toUInt8 ∧ RestMinorStart req w r ∨ Digit a ∧ RestMajor (pushMajor req a) w r :=
  upTo_cons

theorem restMajorStart_cons (req : Request) (a : UInt8) (w : Bytes) (r : Request) :
    RestMajorStart req (a :: w) r ↔ Digit a ∧ RestMajor (pushMajor req a) w r := by
  simp [RestMajorStart, and_assoc]

theorem restVersion_cons (b : UInt8) (literal : Bytes) (req : Request) (a : UInt8) (w : Bytes)
    (r : Request) :
    RestVersion (b :: literal) req (a :: w) r ↔ a = b ∧ RestVersion literal req w r := by
  simp [RestVersion, and_assoc]

theorem restVersion_nil (req : Request) (w : Bytes) (r : Request) :
    RestVersion [] req w r ↔ RestMajorStart (zeroVersion req) w r := by
  simp [RestVersion]

theorem restUri_cons (req : Request) (a : UInt8) (w : Bytes) (r : Request) :
    RestUri req (a :: w) r ↔
      a = ' '.toUInt8 ∧ RestVersion (str "HTTP/") req w r ∨
        TargetByte a ∧ RestUri (pushUri req a) w r :=
  upTo_cons

theorem restMethod_cons (req : Request) (a : UInt8) (w : Bytes) (r : Request) :
    RestMethod req (a :: w) r ↔
      a = ' '.toUInt8 ∧ RestUri req w r ∨ Token a ∧ RestMethod (pushMethod req a) w r :=
  upTo_cons

theorem restLws_cons (req : Request) (a : UInt8) (w : Bytes) (r : Request) :
    RestLws req (a :: w) r ↔
      a = '\r'.toUInt8 ∧ RestNewline req w r ∨ Blank a ∧ RestLws req w r ∨
        Text a ∧ a ≠ ' '.toUInt8 ∧ RestValue (req.pushValue a) w r := by
  constructor
  · rintro ⟨blanks, w', hblanks, hw, hend⟩
    cases blanks with
    | nil =>
        obtain rfl : a :: w = w' := hw
        rcases hend with ⟨w'', hcr, hrest⟩ | ⟨t, w'', ht, hrest⟩
        · obtain ⟨rfl, rfl⟩ := List.cons_eq_cons.mp hcr
          exact .inl ⟨rfl, hrest⟩
        · obtain ⟨rfl, rfl⟩ := List.cons_eq_cons.mp ht
          exact .inr (.inr hrest)
    | cons b blanks =>
        obtain ⟨rfl, rfl⟩ := List.cons_eq_cons.mp hw
        exact .inr (.inl ⟨hblanks a (by simp), blanks, w', fun c hc => hblanks c (by simp [hc]), rfl,
          hend⟩)
  · rintro (⟨rfl, hrest⟩ | ⟨ha, blanks, w', hblanks, rfl, hend⟩ | hrest)
    · exact ⟨[], _, by simp, rfl, .inl ⟨w, rfl, hrest⟩⟩
    · refine ⟨a :: blanks, w', ?_, rfl, hend⟩
      intro c hc
      rcases List.mem_cons.mp hc with rfl | hc
      · exact ha
      · exact hblanks c hc
    · exact ⟨[], _, by simp, rfl, .inr ⟨a, w, rfl, hrest⟩⟩

theorem restLws_of_fold (req : Request) (blanks text w : Bytes) (r : Request)
    (hblanks : ∀ b ∈ blanks, Blank b) (htext : ∀ b ∈ text, Text b)
    (hhead : ∀ b ∈ text.head?, b ≠ ' '.toUInt8)
    (h : Lines (text.foldl Request.pushValue req) w r) :
    RestLws req (blanks ++ text ++ crlf ++ w) r := by
  refine ⟨blanks, text ++ crlf ++ w, hblanks, by simp, ?_⟩
  cases text with
  | nil => exact .inl ⟨'\n'.toUInt8 :: w, rfl, w, rfl, h⟩
  | cons t text =>
      refine .inr ⟨t, text ++ crlf ++ w, rfl, htext t (by simp), hhead t (by simp), ?_⟩
      exact ⟨text, '\n'.toUInt8 :: w, fun b hb => htext b (by simp [hb]),
        by simp [crlf, str], w, rfl, h⟩

theorem lines_of_restLws {req r : Request} {a : UInt8} {w : Bytes} (hne : req.headers ≠ [])
    (ha : Blank a) (h : RestLws req w r) : Lines req (a :: w) r := by
  obtain ⟨blanks, w', hblanks, rfl, hend⟩ := h
  have hcons : ∀ b ∈ a :: blanks, Blank b := by
    intro c hc
    rcases List.mem_cons.mp hc with rfl | hc
    · exact ha
    · exact hblanks c hc
  rcases hend with ⟨w'', rfl, w₀, rfl, hlines⟩ |
    ⟨t, w'', rfl, ht, hsp, v, w₁, hv, rfl, w₀, rfl, hlines⟩
  · simpa [Fold.render, crlf, str] using
      Lines.fold ⟨a :: blanks, [], by simp, hcons, by simp, by simp⟩ hne hlines
  · have htv : ∀ b ∈ t :: v, Text b := by
      intro c hc
      rcases List.mem_cons.mp hc with rfl | hc
      · exact ht
      · exact hv c hc
    simpa [Fold.render, crlf, str] using
      Lines.fold ⟨a :: blanks, t :: v, by simp, hcons, htv, by simpa using hsp⟩ hne hlines

theorem lines_cons (req : Request) (a : UInt8) (w : Bytes) (r : Request) :
    Lines req (a :: w) r ↔
      a = '\r'.toUInt8 ∧ w = ['\n'.toUInt8] ∧ r = req ∨
      req.headers ≠ [] ∧ Blank a ∧ RestLws req w r ∨
      Token a ∧ RestName (req.pushHeader.pushName a) w r := by
  constructor
  · intro h
    generalize hx : a :: w = x at h
    cases h with
    | done =>
        obtain ⟨rfl, rfl⟩ := List.cons_eq_cons.mp hx
        exact .inl ⟨rfl, rfl, rfl⟩
    | field name value hne hname hvalue h =>
        cases name with
        | nil => exact absurd rfl hne
        | cons b name =>
            obtain ⟨rfl, rfl⟩ := List.cons_eq_cons.mp hx
            refine .inr (.inr ⟨hname a (by simp), name, _, fun c hc => hname c (by simp [hc]),
              by simp [str]; rfl, _, rfl, value, _, hvalue, ?_, _, rfl, h⟩)
            simp [crlf, str]
    | fold f hne h =>
        obtain ⟨blanks, text, hbne, hblanks, htext, hhead⟩ := f
        cases blanks with
        | nil => exact absurd rfl hbne
        | cons b blanks =>
            obtain ⟨rfl, rfl⟩ := List.cons_eq_cons.mp hx
            exact .inr (.inl ⟨hne, hblanks a (by simp), restLws_of_fold req blanks text _ r
              (fun c hc => hblanks c (by simp [hc])) htext hhead h⟩)
  · rintro (⟨rfl, rfl, rfl⟩ | ⟨hne, ha, h⟩ | ⟨ha, name, w', hname, rfl, w'', rfl, value, w₁, hvalue,
      rfl, w₀, rfl, h⟩)
    · exact .done r
    · exact lines_of_restLws hne ha h
    · have hcons : ∀ b ∈ a :: name, Token b := by
        intro c hc
        rcases List.mem_cons.mp hc with rfl | hc
        · exact ha
        · exact hname c hc
      simpa [crlf, str] using Lines.field (a :: name) value (by simp) hcons hvalue h

theorem restVersion_step (b : UInt8) (literal : Bytes) (p : RequestParser) (req : Request)
    (a : UInt8) (w : Bytes) (r : Request) (st : State) (req' : Request)
    (h : Rest st req' w r ↔ RestVersion literal req w r) :
    RestVersion (b :: literal) req (a :: w) r ↔
      AfterStep (if a = b then goOn st req' else reject p req) w r := by
  rw [restVersion_cons]
  split_ifs with hab <;> simp [hab, h]

/-- `consume` takes the derivative of the language of every state. -/
theorem rest_cons (st : State) (req : Request) (a : UInt8) (w : Bytes) (r : Request) :
    Rest st req (a :: w) r ↔ AfterStep (consume ⟨st⟩ req a) w r := by
  have hcr : ¬ Text '\r'.toUInt8 ∧ ¬ Token '\r'.toUInt8 ∧ ¬ Blank '\r'.toUInt8 := by decide
  cases st with
  | methodStart =>
      simp only [Rest, consume, not_token_charToInt]
      split_ifs <;> simp_all [Rest, pushMethod]
  | method =>
      have hsp : ¬ Token ' '.toUInt8 := by decide
      simp only [Rest, consume, not_token_charToInt, restMethod_cons]
      split_ifs <;> simp_all [Rest, pushMethod]
  | uriStart =>
      simp only [Rest, consume, isCtl_charToInt]
      split_ifs <;> simp_all [Rest, Text, pushUri]
  | uri =>
      have hsp : ¬ TargetByte ' '.toUInt8 := by decide
      simp only [Rest, consume, isCtl_charToInt, restUri_cons]
      split_ifs <;> simp_all [Rest, TargetByte, pushUri]
  | httpVersionH => exact restVersion_step _ _ _ _ _ _ _ _ _ Iff.rfl
  | httpVersionT1 => exact restVersion_step _ _ _ _ _ _ _ _ _ Iff.rfl
  | httpVersionT2 => exact restVersion_step _ _ _ _ _ _ _ _ _ Iff.rfl
  | httpVersionP => exact restVersion_step _ _ _ _ _ _ _ _ _ Iff.rfl
  | httpVersionSlash =>
      exact restVersion_step _ _ _ _ _ _ _ .httpVersionMajorStart (zeroVersion req)
        (restVersion_nil req w r).symm
  | httpVersionMajorStart =>
      simp only [Rest, consume, isDigit_charToInt, restMajorStart_cons]
      split_ifs <;> simp_all [Rest, pushMajor]
  | httpVersionMajor =>
      have hdot : ¬ Digit '.'.toUInt8 := by decide
      simp only [Rest, consume, isDigit_charToInt, restMajor_cons]
      split_ifs <;> simp_all [Rest, pushMajor]
  | httpVersionMinorStart =>
      simp only [Rest, consume, isDigit_charToInt, restMinorStart_cons]
      split_ifs <;> simp_all [Rest, pushMinor]
  | httpVersionMinor =>
      have hdigit : ¬ Digit '\r'.toUInt8 := by decide
      simp only [Rest, consume, isDigit_charToInt, restMinor_cons]
      split_ifs <;> simp_all [Rest, pushMinor]
  | expectingNewline1 =>
      simp only [Rest, consume, restNewline_cons]
      split_ifs <;> simp_all [Rest]
  | headerLineStart =>
      have hblank : ∀ b, Blank b → ¬ Token b := by rintro b (rfl | rfl) <;> decide
      simp only [Rest, consume, not_token_charToInt, lines_cons]
      split_ifs with hacr hfold htoken
      · simp_all [Rest]
      · have := hblank a hfold.2
        simp_all [Rest, Blank]
      · simp_all [Blank]
      · have : ¬ (req.headers ≠ [] ∧ Blank a) := hfold
        simp_all [Rest]
  | headerLws =>
      have hblank : ∀ b, Blank b → ¬ (Text b ∧ b ≠ ' '.toUInt8) := by
        rintro b (rfl | rfl) <;> decide
      simp only [Rest, consume, isCtl_charToInt, restLws_cons]
      split_ifs with hacr hab hctl
      · simp_all [Rest]
      · have hnone : ¬ (Text a ∧ a ≠ ' '.toUInt8) := hblank a hab
        change _ ↔ RestLws req w r
        constructor
        · rintro (⟨hcr', -⟩ | ⟨-, hrest⟩ | ⟨htext, hne, -⟩)
          · exact absurd hcr' hacr
          · exact hrest
          · exact absurd ⟨htext, hne⟩ hnone
        · intro hrest
          exact .inr (.inl ⟨hab, hrest⟩)
      · simp_all [Text, Blank]
      · simp_all [Rest, Text, Blank]
  | headerName =>
      have hcolon : ¬ Token ':'.toUInt8 := by decide
      simp only [Rest, consume, not_token_charToInt, restName_cons]
      split_ifs <;> simp_all [Rest]
  | spaceBeforeHeaderValue =>
      simp only [Rest, consume, restSpace_cons]
      split_ifs <;> simp_all [Rest]
  | headerValue =>
      simp only [Rest, consume, isCtl_charToInt, restValue_cons]
      split_ifs <;> simp_all [Rest, Text]
  | expectingNewline2 =>
      simp only [Rest, consume, restNewline_cons]
      split_ifs <;> simp_all [Rest]
  | expectingNewline3 =>
      simp only [Rest, consume]
      by_cases ha : a = '\n'.toUInt8 <;> simp [ha, Tribool.ofBool, AfterStep]

/-! ## Every state can be completed -/

theorem restNewline_live (req : Request) : RestNewline req (str "\n\r\n") req :=
  ⟨crlf, rfl, .done req⟩

theorem restValue_live (req : Request) : RestValue req (str "\r\n\r\n") req :=
  upTo_sep (restNewline_live req)

theorem restSpace_live (req : Request) : RestSpace req (str " \r\n\r\n") req :=
  ⟨_, rfl, restValue_live req⟩

theorem restName_live (req : Request) : RestName req (str ": \r\n\r\n") req :=
  upTo_sep (restSpace_live req)

theorem restLws_live (req : Request) : RestLws req (str "\r\n\r\n") req :=
  ⟨[], _, by simp, rfl, .inl ⟨_, rfl, restNewline_live req⟩⟩

theorem restMinor_live (req : Request) : RestMinor req (str "\r\n\r\n") req :=
  upTo_sep (restNewline_live req)

theorem restMinorStart_live (req : Request) : ∃ w r, RestMinorStart req w r :=
  ⟨str "0\r\n\r\n", _, _, _, rfl, by decide, restMinor_live _⟩

theorem restMajor_live (req : Request) : ∃ w r, RestMajor req w r := by
  obtain ⟨w, r, h⟩ := restMinorStart_live req
  exact ⟨_, r, upTo_sep h⟩

theorem restMajorStart_live (req : Request) : ∃ w r, RestMajorStart req w r := by
  obtain ⟨w, r, h⟩ := restMajor_live (pushMajor req '0'.toUInt8)
  exact ⟨_, r, '0'.toUInt8, w, rfl, by decide, h⟩

theorem restVersion_live (literal : Bytes) (req : Request) : ∃ w r, RestVersion literal req w r := by
  obtain ⟨w, r, h⟩ := restMajorStart_live (zeroVersion req)
  exact ⟨_, r, w, rfl, h⟩

theorem restUri_live (req : Request) : ∃ w r, RestUri req w r := by
  obtain ⟨w, r, h⟩ := restVersion_live (str "HTTP/") req
  exact ⟨_, r, upTo_sep h⟩

theorem restMethod_live (req : Request) : ∃ w r, RestMethod req w r := by
  obtain ⟨w, r, h⟩ := restUri_live req
  exact ⟨_, r, upTo_sep h⟩

theorem rest_live (st : State) (req : Request) : ∃ w r, Rest st req w r := by
  cases st with
  | methodStart =>
      obtain ⟨w, r, h⟩ := restMethod_live (pushMethod req 'G'.toUInt8)
      exact ⟨_, r, 'G'.toUInt8, w, rfl, by decide, h⟩
  | method => exact restMethod_live req
  | uriStart =>
      obtain ⟨w, r, h⟩ := restUri_live (pushUri req '/'.toUInt8)
      exact ⟨_, r, '/'.toUInt8, w, rfl, by decide, h⟩
  | uri => exact restUri_live req
  | httpVersionH | httpVersionT1 | httpVersionT2 | httpVersionP | httpVersionSlash =>
      exact restVersion_live _ req
  | httpVersionMajorStart => exact restMajorStart_live req
  | httpVersionMajor => exact restMajor_live req
  | httpVersionMinorStart => exact restMinorStart_live req
  | httpVersionMinor => exact ⟨_, _, restMinor_live req⟩
  | expectingNewline1 | expectingNewline2 => exact ⟨_, _, restNewline_live req⟩
  | headerLineStart => exact ⟨crlf, req, .done req⟩
  | headerLws => exact ⟨_, _, restLws_live req⟩
  | headerName => exact ⟨_, _, restName_live req⟩
  | spaceBeforeHeaderValue => exact ⟨_, _, restSpace_live req⟩
  | headerValue => exact ⟨_, _, restValue_live req⟩
  | expectingNewline3 => exact ⟨_, _, rfl, rfl⟩

theorem not_lines_nil (req r : Request) : ¬ Lines req [] r := by
  intro h
  generalize hx : ([] : Bytes) = x at h
  cases h with
  | done => cases hx
  | field => simp [crlf, str] at hx
  | fold => simp [Fold.render, crlf, str] at hx

theorem rest_nil (st : State) (req r : Request) : ¬ Rest st req [] r := by
  cases st <;>
    simp [Rest, RestMethod, RestUri, RestVersion, RestMajorStart, RestMajor, RestMinorStart,
      RestMinor, RestNewline, RestName, RestSpace, RestValue, RestLws, str, not_lines_nil]

/-- The scanner behind `parse` decides the languages `Rest`. -/
theorem denotes : Denotes scanStep Prod.snd fun s w r => Rest s.1.mState s.2 w r where
  nil s r := rest_nil s.1.mState s.2 r
  accept {s a t} h w r := by
    rw [rest_cons]
    revert h
    rcases hc : consume s.1 s.2 a with ⟨_ | _ | _, p, req⟩ <;> simp [scanStep, hc, Tribool.decided]
    rintro rfl
    rfl
  reject {s a t} h w r := by
    rw [rest_cons]
    revert h
    rcases hc : consume s.1 s.2 a with ⟨_ | _ | _, p, req⟩ <;> simp [scanStep, hc, Tribool.decided]
    rintro rfl
    exact id
  more {s a t} h w r := by
    rw [rest_cons]
    revert h
    rcases hc : consume s.1 s.2 a with ⟨_ | _ | _, p, req⟩ <;> simp [scanStep, hc, Tribool.decided]
    rintro rfl
    rfl
  live s := rest_live s.1.mState s.2

end RequestParser

end BtcServer.HttpmessageServer
