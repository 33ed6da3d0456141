import BtcServer.HttpmessageServer.HeaderBlock
import BtcServer.HttpmessageServer.HttpConnection

/-!
# The request line

What `consume` is called with while a head is parsed (`consumed`), and from it two facts about the
request line: when every update of a version number stays in the range of an `int`, and when the
target is not empty.
-/

namespace BtcServer.HttpmessageServer

open Boost Lib Grammar

/-- One call of `consume`. -/
structure ConsumeCall where
  parser : RequestParser
  req : Request
  input : UInt8
  deriving DecidableEq, Repr

namespace RequestParser

def consumed (p : RequestParser) (req : Request) : Bytes → List ConsumeCall
  | [] => []
  | input :: rest =>
      let out := consume p req input
      ⟨p, req, input⟩ ::
        if (out.1.or out.1.not).toBool then [] else consumed out.2.1 out.2.2 rest

variable {p : RequestParser} {req : Request} {a : UInt8} {w : Bytes} {st : State}

theorem forall_consumed_of_goOn {P : ConsumeCall → Prop} {req' : Request}
    (h : consume p req a = goOn st req') :
    (∀ c ∈ consumed p req (a :: w), P c) ↔ P ⟨p, req, a⟩ ∧ ∀ c ∈ consumed ⟨st⟩ req' w, P c := by
  simp [consumed, h, goOn, Tribool.or_not_toBool, Tribool.decided]

theorem forall_consumed_of_loop {P : ConsumeCall → Prop} {Q : UInt8 → Prop}
    {f : Request → UInt8 → Request}
    (hstep : ∀ req b, Q b → consume ⟨st⟩ req b = goOn st (f req b))
    (hP : ∀ req b, Q b → P ⟨⟨st⟩, req, b⟩) {v : Bytes} (hv : ∀ b ∈ v, Q b) :
    (∀ c ∈ consumed ⟨st⟩ req (v ++ w), P c) ↔ ∀ c ∈ consumed ⟨st⟩ (v.foldl f req) w, P c := by
  induction v generalizing req with
  | nil => exact Iff.rfl
  | cons b v ih =>
      have hb := hv b (by simp)
      rw [List.cons_append, forall_consumed_of_goOn (hstep req b hb),
        ih fun c hc => hv c (by simp [hc])]
      simp [hP req b hb]

theorem forall_consumed_of_invariant {I : RequestParser → Request → Prop}
    (hstep : ∀ p req a, I p req → I (consume p req a).2.1 (consume p req a).2.2) (h : I p req) :
    ∀ c ∈ consumed p req w, I c.parser c.req := by
  induction w generalizing p req with
  | nil => simp [consumed]
  | cons a w ih =>
      intro c hc
      unfold consumed at hc
      rcases List.mem_cons.mp hc with rfl | hc
      · exact h
      · split at hc
        case isTrue => cases hc
        case isFalse => exact ih (hstep p req a h) c hc

theorem forall_consumed_of_closed {P : ConsumeCall → Prop} {S : State → Prop}
    (hstep : ∀ p req a, S p.mState → S (consume p req a).2.1.mState)
    (hP : ∀ p req a, S p.mState → P ⟨p, req, a⟩) (hp : S p.mState) :
    ∀ c ∈ consumed p req w, P c := by
  intro c hc
  exact hP c.parser c.req c.input
    (forall_consumed_of_invariant (I := fun p _ => S p.mState) hstep hp c hc)

/-! ## Steps through a request line -/

theorem consume_methodStart (req : Request) {b : UInt8} (hb : Token b) :
    consume ⟨.methodStart⟩ req b = goOn .method (pushMethod req b) := by
  simp [consume, not_token_charToInt, hb, pushMethod]

theorem consume_method (req : Request) (b : UInt8) (hb : Token b) :
    consume ⟨.method⟩ req b = goOn .method (pushMethod req b) := by
  have hsp : b ≠ ' '.toUInt8 := by
    rintro rfl
    exact absurd hb (by decide +kernel)
  simp [consume, not_token_charToInt, hb, hsp, pushMethod]

theorem consume_uri (req : Request) (b : UInt8) (hb : TargetByte b) :
    consume ⟨.uri⟩ req b = goOn .uri (pushUri req b) := by
  obtain ⟨hctl, hsp⟩ := hb
  simp [consume, isCtl_charToInt, hctl, hsp, pushUri]

theorem consume_majorStart (req : Request) (b : UInt8) (hb : Digit b) :
    consume ⟨.httpVersionMajorStart⟩ req b = goOn .httpVersionMajor (pushMajor req b) := by
  simp [consume, isDigit_charToInt, hb, pushMajor]

theorem consume_major (req : Request) (b : UInt8) (hb : Digit b) :
    consume ⟨.httpVersionMajor⟩ req b = goOn .httpVersionMajor (pushMajor req b) := by
  have hdot : b ≠ '.'.toUInt8 := by
    rintro rfl
    exact absurd hb (by decide +kernel)
  simp [consume, isDigit_charToInt, hb, hdot, pushMajor]

theorem consume_minorStart (req : Request) (b : UInt8) (hb : Digit b) :
    consume ⟨.httpVersionMinorStart⟩ req b = goOn .httpVersionMinor (pushMinor req b) := by
  simp [consume, isDigit_charToInt, hb, pushMinor]

theorem consume_minor (req : Request) (b : UInt8) (hb : Digit b) :
    consume ⟨.httpVersionMinor⟩ req b = goOn .httpVersionMinor (pushMinor req b) := by
  have hcr : b ≠ '\r'.toUInt8 := by
    rintro rfl
    exact absurd hb (by decide +kernel)
  simp [consume, isDigit_charToInt, hb, hcr, pushMinor]

/-! ## Version numbers -/

def FitsInt32 (x : Int) : Prop := -0x80000000 ≤ x ∧ x < 0x80000000

/-- No operation of `version * 10 + input - '0'` overflows. -/
def AddDigitFits (version : Int) (input : UInt8) : Prop :=
  FitsInt32 (version * 10) ∧ FitsInt32 (version * 10 + charToInt input) ∧
    FitsInt32 (version * 10 + charToInt input - '0'.toNat)

/-- The version number that a digit read by this call is added to. -/
def versionOf (p : RequestParser) (req : Request) : Option Int :=
  match p.mState with
  | .httpVersionMajorStart | .httpVersionMajor => some req.httpVersionMajor
  | .httpVersionMinorStart | .httpVersionMinor => some req.httpVersionMinor
  | _ => none

/-- The update of a version number that the call makes, if any, stays in the range of `int`. -/
def UpdateFits (c : ConsumeCall) : Prop :=
  ∀ version ∈ versionOf c.parser c.req, Digit c.input → AddDigitFits version c.input

/-- The largest version number that can be read without an overflow on the way: `'0'` is subtracted
last. -/
def maxVersion : Nat := 2147483599

theorem addDigitFits_iff {n : Nat} (hn : n ≤ maxVersion) {b : UInt8} (hb : Digit b) :
    AddDigitFits n b ↔ 10 * n + (b.toNat - 48) ≤ maxVersion := by
  obtain ⟨hlo, hhi⟩ := hb
  have hc : charToInt b = b.toNat := by
    rw [charToInt, if_pos (by omega)]
  have hzero : (('0'.toNat : Nat) : Int) = 48 := rfl
  unfold AddDigitFits FitsInt32 maxVersion at *
  rw [hc, hzero]
  omega

theorem addDigit_eq {n : Nat} {b : UInt8} (hb : Digit b)
    (h : 10 * n + (b.toNat - 48) ≤ maxVersion) :
    addDigit n b = ((10 * n + (b.toNat - 48) : Nat) : Int) := by
  have hint {m : Nat} (hm : m ≤ maxVersion) : toInt32 m = m := by
    unfold maxVersion at hm
    rw [toInt32, Int.bmod_eq_of_le] <;> omega
  have hn : n ≤ maxVersion := by omega
  calc addDigit n b = addDigit (toInt32 n) b := by rw [hint hn]
    _ = toInt32 ((10 * n + (b.toNat - 48) : Nat) : Int) := addDigit_toInt32 n hb
    _ = ((10 * n + (b.toNat - 48) : Nat) : Int) := hint h

theorem le_foldl_digits (digits : Bytes) (n : Nat) :
    n ≤ digits.foldl (fun n c => 10 * n + (c.toNat - 48)) n := by
  induction digits generalizing n with
  | nil => exact le_rfl
  | cons b digits ih =>
      have hle : n ≤ 10 * n + (b.toNat - 48) := by omega
      exact hle.trans (ih _)

section Digits

variable {f : Request → UInt8 → Request} {get : Request → Int}

theorem updatesFit_digits (hstep : ∀ req b, Digit b → consume ⟨st⟩ req b = goOn st (f req b))
    (hversion : ∀ req, versionOf ⟨st⟩ req = some (get req))
    (hget : ∀ req b, get (f req b) = addDigit (get req) b) {digits : Bytes}
    (hdigits : ∀ b ∈ digits, Digit b) {n : Nat} (hn : n ≤ maxVersion) (hreq : get req = n) :
    (∀ c ∈ consumed ⟨st⟩ req (digits ++ w), UpdateFits c) ↔
      digits.foldl (fun n c => 10 * n + (c.toNat - 48)) n ≤ maxVersion ∧
        ∀ c ∈ consumed ⟨st⟩ (digits.foldl f req) w, UpdateFits c := by
  induction digits generalizing req n with
  | nil => simp [hn]
  | cons b digits ih =>
      have hb := hdigits b (by simp)
      have hfits : UpdateFits ⟨⟨st⟩, req, b⟩ ↔ 10 * n + (b.toNat - 48) ≤ maxVersion := by
        rw [← addDigitFits_iff hn hb, ← hreq]
        simp [UpdateFits, hversion, hb]
      rw [List.cons_append, forall_consumed_of_goOn (hstep req b hb), hfits, List.foldl_cons,
        List.foldl_cons]
      by_cases hle : 10 * n + (b.toNat - 48) ≤ maxVersion
      · have hnext : get (f req b) = (10 * n + (b.toNat - 48) : Nat) := by
          rw [hget, hreq, addDigit_eq hb hle]
        rw [ih (fun c hc => hdigits c (by simp [hc])) hle hnext]
        simp [hle]
      · have hlarge := le_foldl_digits digits (10 * n + (b.toNat - 48))
        constructor
        · exact fun h => absurd h.1 hle
        · exact fun h => absurd (hlarge.trans h.1) hle

theorem updatesFit_version {st₀ : State}
    (hstart : ∀ req b, Digit b → consume ⟨st₀⟩ req b = goOn st (f req b))
    (hstep : ∀ req b, Digit b → consume ⟨st⟩ req b = goOn st (f req b))
    (hversion₀ : ∀ req, versionOf ⟨st₀⟩ req = some (get req))
    (hversion : ∀ req, versionOf ⟨st⟩ req = some (get req))
    (hget : ∀ req b, get (f req b) = addDigit (get req) b) {digits : Bytes} (hne : digits ≠ [])
    (hdigits : ∀ b ∈ digits, Digit b) (hreq : get req = 0) :
    (∀ c ∈ consumed ⟨st₀⟩ req (digits ++ w), UpdateFits c) ↔
      decimalValue digits ≤ maxVersion ∧
        ∀ c ∈ consumed ⟨st⟩ (digits.foldl f req) w, UpdateFits c := by
  obtain ⟨b, digits, rfl⟩ := List.exists_cons_of_ne_nil hne
  have hb := hdigits b (by simp)
  have hsame : (∀ c ∈ consumed ⟨st₀⟩ req ((b :: digits) ++ w), UpdateFits c) ↔
      ∀ c ∈ consumed ⟨st⟩ req ((b :: digits) ++ w), UpdateFits c := by
    rw [List.cons_append, forall_consumed_of_goOn (hstart req b hb),
      forall_consumed_of_goOn (hstep req b hb)]
    simp [UpdateFits, hversion₀, hversion]
  rw [hsame]
  exact updatesFit_digits hstep hversion hget hdigits (Nat.zero_le _) hreq

end Digits

def isHeaderState : State → Bool
  | .expectingNewline1 | .headerLineStart | .headerLws | .headerName | .spaceBeforeHeaderValue
  | .headerValue | .expectingNewline2 | .expectingNewline3 => true
  | _ => false

theorem isHeaderState_consume {p : RequestParser} (h : isHeaderState p.mState = true)
    (req : Request) (a : UInt8) : isHeaderState (consume p req a).2.1.mState = true := by
  rcases p with ⟨st⟩
  cases st with
  | expectingNewline3 => rfl
  | _ => first
    | exact absurd h Bool.false_ne_true
    | (simp only [consume]; split_ifs <;> rfl)

theorem updatesFit_headers (h : isHeaderState p.mState = true) :
    ∀ c ∈ consumed p req w, UpdateFits c := by
  refine forall_consumed_of_closed (S := fun st => isHeaderState st = true)
    (fun p req a hp => isHeaderState_consume hp req a) ?_ h
  rintro ⟨st⟩ req a hst version hversion
  cases st <;> first
    | exact absurd hst Bool.false_ne_true
    | cases hversion

theorem updateFits_of_none (h : versionOf p req = none) : UpdateFits ⟨p, req, a⟩ := by
  intro version hversion
  rw [h] at hversion
  cases hversion

theorem updateFits_of_not_digit (h : ¬ Digit a) : UpdateFits ⟨p, req, a⟩ :=
  fun _ _ hdigit => absurd hdigit h

theorem updatesFit_goOn {req' : Request} (hfits : UpdateFits ⟨p, req, a⟩)
    (h : consume p req a = goOn st req') :
    (∀ c ∈ consumed p req (a :: w), UpdateFits c) ↔ ∀ c ∈ consumed ⟨st⟩ req' w, UpdateFits c := by
  rw [forall_consumed_of_goOn h]
  exact and_iff_right hfits

theorem updatesFit_slash (req : Request) (w : Bytes) :
    (∀ c ∈ consumed ⟨.uri⟩ req (str " HTTP/" ++ w), UpdateFits c) ↔
      ∀ c ∈ consumed ⟨.httpVersionMajorStart⟩ (zeroVersion req) w, UpdateFits c := by
  have hstr : str " HTTP/" ++ w = ' '.toUInt8 :: 'H'.toUInt8 :: 'T'.toUInt8 :: 'T'.toUInt8 ::
    'P'.toUInt8 :: '/'.toUInt8 :: w := rfl
  rw [hstr, updatesFit_goOn (updateFits_of_none rfl) rfl,
    updatesFit_goOn (updateFits_of_none rfl) rfl, updatesFit_goOn (updateFits_of_none rfl) rfl,
    updatesFit_goOn (updateFits_of_none rfl) rfl, updatesFit_goOn (updateFits_of_none rfl) rfl,
    updatesFit_goOn (updateFits_of_none rfl) rfl]
  exact Iff.rfl

/-- The updates that reading a head makes. -/
theorem updatesFit_render_iff (req : Request) (hd : Head) (tail : Bytes) :
    (∀ c ∈ consumed fresh req (hd.render ++ tail), UpdateFits c) ↔
      decimalValue hd.major ≤ maxVersion ∧ decimalValue hd.minor ≤ maxVersion := by
  obtain ⟨b, m, hmethod⟩ := List.exists_cons_of_ne_nil hd.method_ne_nil
  have htoken := hd.token_of_mem
  rw [hmethod] at htoken
  obtain ⟨rest, hrest⟩ : ∃ rest, rest = '\n'.toUInt8 ::
      (hd.fields.flatMap Field.render ++ crlf ++ tail) := ⟨_, rfl⟩
  have hrender : hd.render ++ tail = b :: (m ++ ' '.toUInt8 :: (hd.target ++ (str " HTTP/" ++
      (hd.major ++ '.'.toUInt8 :: (hd.minor ++ '\r'.toUInt8 :: rest))))) := by
    rw [hrest, Head.render, hmethod]
    simp [crlf, str]
  rw [hrender, updatesFit_goOn (p := fresh) (updateFits_of_none rfl)
      (consume_methodStart req (htoken b (by simp))),
    forall_consumed_of_loop consume_method (fun _ _ _ => updateFits_of_none rfl)
      fun c hc => htoken c (by simp [hc]),
    updatesFit_goOn (updateFits_of_none rfl) rfl,
    forall_consumed_of_loop consume_uri (fun _ _ _ => updateFits_of_none rfl) hd.target_of_mem,
    updatesFit_slash,
    updatesFit_version consume_majorStart consume_major (fun _ => rfl) (fun _ => rfl)
      (fun _ _ => rfl) hd.major_ne_nil hd.digit_of_mem_major rfl]
  refine and_congr_right fun _ => ?_
  rw [updatesFit_goOn (updateFits_of_not_digit (by decide +kernel)) rfl,
    updatesFit_version consume_minorStart consume_minor (fun _ => rfl) (fun _ => rfl)
      (fun _ _ => rfl) hd.minor_ne_nil hd.digit_of_mem_minor (by rw [foldl_pushMajor]; rfl)]
  rw [updatesFit_goOn (updateFits_of_not_digit (by decide +kernel)) rfl]
  exact and_iff_left (updatesFit_headers rfl)

def statusLine (major minor : Nat) : Bytes :=
  str "HTTP/" ++ (Nat.toDigits 10 major).map Char.toUInt8 ++ str "." ++
    (Nat.toDigits 10 minor).map Char.toUInt8 ++ str " 200 OK\r\n"

/-- `write_response` for the request begins with this status line. -/
def Answers (req : Request) (line : Bytes) : Prop :=
  ∀ (conn : HttpConnction) (body : Bytes), conn.mRequest = req →
    conn.mSendBuffer ++ line <+: (conn.writeResponse body).mSendBuffer

theorem answers_statusLine {req : Request} {major minor : Nat}
    (hmajor : req.httpVersionMajor = major) (hminor : req.httpVersionMinor = minor) :
    Answers req (statusLine major minor) := by
  rintro conn body rfl
  refine ⟨str "Content-Type: application/json\r\n" ++
    (str "Content-Length: " ++ formatInt body.length ++ str "\r\n") ++ str "\r\n" ++ body, ?_⟩
  simp [HttpConnction.writeResponse, HttpConnction.record, responseHead, statusLine, hmajor, hminor,
    formatInt]

/-- The version numbers of a head are read without an overflow, kept and echoed. -/
structure VersionExact (req : Request) (w : Bytes) (hd : Head) : Prop where
  fits : ∀ c ∈ consumed fresh req w, UpdateFits c
  major_eq : (fresh.parse req w).req.httpVersionMajor = decimalValue hd.major
  minor_eq : (fresh.parse req w).req.httpVersionMinor = decimalValue hd.minor
  answers : Answers (fresh.parse req w).req.normalise
    (statusLine (decimalValue hd.major) (decimalValue hd.minor))

/-- The version numbers of what a fresh parser accepts are exact as long as none is past
`maxVersion`. -/
theorem version_exact_iff {major minor : Int} {contentLength : UInt64} {keepAlive : Bool} {w : Bytes}
    (h : (fresh.parse (.uninitialised major minor contentLength keepAlive) w).result = .trueValue) :
    ∃ hd : Head,
      w = hd.render ++
        (fresh.parse (.uninitialised major minor contentLength keepAlive) w).begin_ ∧
      (VersionExact (.uninitialised major minor contentLength keepAlive) w hd ↔
        decimalValue hd.major ≤ maxVersion ∧ decimalValue hd.minor ≤ maxVersion) := by
  obtain ⟨hd, hw, hfill⟩ := exists_head_of_parse ⟨rfl, rfl, rfl⟩ h
  refine ⟨hd, hw, ?_⟩
  have hupdates := updatesFit_render_iff (.uninitialised major minor contentLength keepAlive) hd
    (fresh.parse (.uninitialised major minor contentLength keepAlive) w).begin_
  rw [← hw] at hupdates
  constructor
  · exact fun hexact => hupdates.mp hexact.fits
  · intro hle
    have hlt {n : Nat} (hn : n ≤ maxVersion) : n < 0x80000000 :=
      lt_of_le_of_lt hn (by decide +kernel)
    have hmajor : (hd.fill (.uninitialised major minor contentLength keepAlive)).httpVersionMajor =
        decimalValue hd.major := by
      rw [Head.fill_httpVersionMajor, versionNumber_of_lt (hlt hle.1)]
    have hminor : (hd.fill (.uninitialised major minor contentLength keepAlive)).httpVersionMinor =
        decimalValue hd.minor := by
      rw [Head.fill_httpVersionMinor, versionNumber_of_lt (hlt hle.2)]
    refine ⟨hupdates.mpr hle, by rw [hfill, hmajor], by rw [hfill, hminor], ?_⟩
    rw [hfill]
    exact answers_statusLine (by rw [Request.normalise_httpVersionMajor, hmajor])
      (by rw [Request.normalise_httpVersionMinor, hminor])

theorem simple_hugeVersion : Simple (str "GET") (str "/") (str "2147483648") (str "0") := by
  decide +kernel

/-- For concrete parses: a request whose version has the major number 2147483648. -/
def hugeVersion : Head :=
  .simple (str "GET") (str "/") (str "2147483648") (str "0") [] simple_hugeVersion

theorem version_exact_of_http11 :
    ∃ hd : Head, str "GET / HTTP/1.1\r\n\r\n" = hd.render ++ [] ∧
      (VersionExact (.uninitialised 0 0 0 false) (str "GET / HTTP/1.1\r\n\r\n") hd ↔
        decimalValue hd.major ≤ maxVersion ∧ decimalValue hd.minor ≤ maxVersion) := by
  have haccepted : (fresh.parse (.uninitialised 0 0 0 false)
      (str "GET / HTTP/1.1\r\n\r\n")).result = .trueValue := by decide +kernel
  have hbegin : (fresh.parse (.uninitialised 0 0 0 false)
      (str "GET / HTTP/1.1\r\n\r\n")).begin_ = [] := by decide +kernel
  have hexact := version_exact_iff haccepted
  rwa [hbegin] at hexact

/-- The accumulator wraps around to a negative number. -/
theorem version_wraps :
    (fresh.parse (.uninitialised 0 0 0 false) hugeVersion.render).result = .trueValue ∧
      (fresh.parse (.uninitialised 0 0 0 false) hugeVersion.render).req.httpVersionMajor =
        -2147483648 ∧
      ¬ VersionExact (.uninitialised 0 0 0 false) hugeVersion.render hugeVersion := by
  have hmajor : (fresh.parse (.uninitialised 0 0 0 false) hugeVersion.render).req.httpVersionMajor =
      -2147483648 := by decide +kernel
  refine ⟨by decide +kernel, hmajor, fun hexact => ?_⟩
  have hne : (-2147483648 : Int) ≠ decimalValue hugeVersion.major := by decide +kernel
  exact hne (hmajor ▸ hexact.major_eq)

/-! ## Targets -/

theorem consume_ne_uriStart {p : RequestParser} (h : p.mState ≠ .uriStart) (req : Request)
    (a : UInt8) : (consume p req a).2.1.mState ≠ .uriStart := by
  rcases p with ⟨st⟩
  cases st with
  | uriStart => exact absurd rfl h
  | expectingNewline3 => simp [consume]
  | _ => simp only [consume]; split_ifs <;> simp [goOn, reject]

def behindSpace (w : Bytes) : Option UInt8 := ((w.dropWhile (· ≠ ' '.toUInt8)).drop 1).head?

theorem behindSpace_render (hd : Head) (tail : Bytes) :
    behindSpace (hd.render ++ tail) = (hd.target ++ [' '.toUInt8]).head? := by
  obtain ⟨rest, hrest⟩ : ∃ rest, hd.render ++ tail =
      hd.method ++ ' '.toUInt8 :: (hd.target ++ [' '.toUInt8] ++ rest) :=
    ⟨_, by simp [Head.render, str]; rfl⟩
  have hmethod : ∀ b ∈ hd.method, (decide (b ≠ ' '.toUInt8)) = true := by
    intro b hb
    apply decide_eq_true
    rintro rfl
    exact absurd (hd.token_of_mem _ hb) (by decide +kernel)
  unfold behindSpace
  rw [hrest, List.dropWhile_append_of_pos hmethod]
  cases hd.target <;> simp

/-- The target of what a fresh parser accepts is empty exactly when a second space follows the
method; `uri_start` plays no part in it. -/
theorem target_ne_nil_iff {major minor : Int} {contentLength : UInt64} {keepAlive : Bool} {w : Bytes}
    (h : (fresh.parse (.uninitialised major minor contentLength keepAlive) w).result = .trueValue) :
    ((fresh.parse (.uninitialised major minor contentLength keepAlive) w).req.uri ≠ [] ↔
        behindSpace w ≠ some ' '.toUInt8) ∧
      ∀ c ∈ consumed fresh (.uninitialised major minor contentLength keepAlive) w,
        c.parser.mState ≠ .uriStart := by
  obtain ⟨hd, hw, hfill⟩ := exists_head_of_parse ⟨rfl, rfl, rfl⟩ h
  constructor
  · have huri : (fresh.parse (.uninitialised major minor contentLength keepAlive) w).req.uri =
        hd.target := by rw [hfill, Head.fill]
    rw [huri, hw, behindSpace_render]
    cases htarget : hd.target with
    | nil => simp
    | cons b target =>
        have hb : b ≠ ' '.toUInt8 := (hd.target_of_mem b (by simp [htarget])).2
        simp [hb]
  · exact forall_consumed_of_closed (S := fun st => st ≠ .uriStart)
      (fun p req a hp => consume_ne_uriStart hp req a) (fun _ _ _ hp => hp) (by simp [fresh])

theorem target_ne_nil_iff_of_root :
    ((fresh.parse (.uninitialised 0 0 0 false) (str "GET / HTTP/1.1\r\n\r\n")).req.uri ≠ [] ↔
        behindSpace (str "GET / HTTP/1.1\r\n\r\n") ≠ some ' '.toUInt8) ∧
      ∀ c ∈ consumed fresh (.uninitialised 0 0 0 false) (str "GET / HTTP/1.1\r\n\r\n"),
        c.parser.mState ≠ .uriStart :=
  target_ne_nil_iff (by decide +kernel)

/-- Two spaces behind the method. -/
theorem empty_target_accepted :
    (fresh.parse (.uninitialised 0 0 0 false) (str "GET  HTTP/1.1\r\n\r\n")).result =
        .trueValue ∧
      (fresh.parse (.uninitialised 0 0 0 false) (str "GET  HTTP/1.1\r\n\r\n")).req.uri = [] := by
  decide +kernel

end RequestParser

end BtcServer.HttpmessageServer
