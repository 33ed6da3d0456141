import BtcServer.HttpmessageServer.RequestParser
import Mathlib.Data.Set.Operations

/-!
# The grammar of a request head

The language of request line and headers that `request_parser` is meant to read, written as a
grammar and not as a machine:

    method SP target SP "HTTP/" 1*DIGIT "." 1*DIGIT CRLF
    *( name ":" SP value CRLF *( 1*(SP / HTAB) [ t *text ] CRLF ) ) CRLF

A `Head` is a derivation: its fields carry the proofs that every part is made of the bytes allowed
there.  `Head.render` is the word it derives and `Head.fill` the request it describes.
-/

namespace BtcServer.HttpmessageServer

def crlf : Bytes := str "\r\n"

def crlfCrlf : Bytes := str "\r\n\r\n"

namespace Grammar

/-! ## Byte classes -/

def Ctl (b : UInt8) : Prop := b.toNat ≤ 31 ∨ b.toNat = 127

def Tspecial (b : UInt8) : Prop := b ∈ str "()<>@,;:\\\"/[]?=\x7b\x7d \t"

/-- The bytes of a method or of a header name. -/
def Token (b : UInt8) : Prop := b.toNat ≤ 127 ∧ ¬ Ctl b ∧ ¬ Tspecial b

/-- The bytes of a header value; those from 128 on are among them. -/
def Text (b : UInt8) : Prop := ¬ Ctl b

def TargetByte (b : UInt8) : Prop := ¬ Ctl b ∧ b ≠ ' '.toUInt8

def Digit (b : UInt8) : Prop := 48 ≤ b.toNat ∧ b.toNat ≤ 57

def Blank (b : UInt8) : Prop := b = ' '.toUInt8 ∨ b = '\t'.toUInt8

instance : DecidablePred Ctl := fun _ => inferInstanceAs (Decidable (_ ∨ _))
instance : DecidablePred Tspecial := fun _ => inferInstanceAs (Decidable (_ ∈ _))
instance : DecidablePred Token := fun _ => inferInstanceAs (Decidable (_ ∧ _))
instance : DecidablePred Text := fun _ => inferInstanceAs (Decidable (¬ _))
instance : DecidablePred TargetByte := fun _ => inferInstanceAs (Decidable (_ ∧ _))
instance : DecidablePred Digit := fun _ => inferInstanceAs (Decidable (_ ∧ _))
instance : DecidablePred Blank := fun _ => inferInstanceAs (Decidable (_ ∨ _))

theorem forall_byte {P : UInt8 → Prop} (h : ∀ n < 256, P (UInt8.ofNat n)) (b : UInt8) : P b := by
  simpa using h b.toNat b.toNat_lt

theorem isCtl_charToInt : ∀ b, isCtl (charToInt b) = decide (Ctl b) :=
  forall_byte (by decide +kernel)

theorem not_token_charToInt : ∀ b,
    (!isChar (charToInt b) || isCtl (charToInt b) || isTspecial (charToInt b)) =
      decide (¬ Token b) :=
  forall_byte (by decide +kernel)

theorem isDigit_charToInt : ∀ b, isDigit (charToInt b) = decide (Digit b) :=
  forall_byte (by decide +kernel)

/-! ## Derivations -/

/-- A continuation line of a header. -/
structure Fold where
  blanks : Bytes
  text : Bytes
  blanks_ne_nil : blanks ≠ []
  blank_of_mem : ∀ b ∈ blanks, Blank b
  text_of_mem : ∀ b ∈ text, Text b
  ne_space_of_head : ∀ b ∈ text.head?, b ≠ ' '.toUInt8

/-- A header with its continuation lines. -/
structure Field where
  name : Bytes
  value : Bytes
  folds : List Fold
  name_ne_nil : name ≠ []
  token_of_mem : ∀ b ∈ name, Token b
  text_of_mem : ∀ b ∈ value, Text b

/-- A request line with the headers behind it. -/
structure Head where
  method : Bytes
  target : Bytes
  major : Bytes
  minor : Bytes
  fields : List Field
  method_ne_nil : method ≠ []
  major_ne_nil : major ≠ []
  minor_ne_nil : minor ≠ []
  token_of_mem : ∀ b ∈ method, Token b
  target_of_mem : ∀ b ∈ target, TargetByte b
  digit_of_mem_major : ∀ b ∈ major, Digit b
  digit_of_mem_minor : ∀ b ∈ minor, Digit b

/-- Method, target and version numbers of a head are as the grammar wants them. -/
def Simple (method target major minor : Bytes) : Prop :=
  (method ≠ [] ∧ major ≠ [] ∧ minor ≠ []) ∧ (∀ b ∈ method, Token b) ∧
    (∀ b ∈ target, TargetByte b) ∧ (∀ b ∈ major, Digit b) ∧ ∀ b ∈ minor, Digit b

instance (method target major minor : Bytes) : Decidable (Simple method target major minor) :=
  inferInstanceAs (Decidable (_ ∧ _))

/-- For concrete runs: the head with these parts. -/
def Head.simple (method target major minor : Bytes) (fields : List Field)
    (h : Simple method target major minor) : Head where
  method := method
  target := target
  major := major
  minor := minor
  fields := fields
  method_ne_nil := h.1.1
  major_ne_nil := h.1.2.1
  minor_ne_nil := h.1.2.2
  token_of_mem := h.2.1
  target_of_mem := h.2.2.1
  digit_of_mem_major := h.2.2.2.1
  digit_of_mem_minor := h.2.2.2.2

def Fold.render (f : Fold) : Bytes := f.blanks ++ f.text ++ crlf

def Field.render (f : Field) : Bytes :=
  f.name ++ str ": " ++ f.value ++ crlf ++ f.folds.flatMap Fold.render

def Head.render (h : Head) : Bytes :=
  h.method ++ str " " ++ h.target ++ str " HTTP/" ++ h.major ++ str "." ++ h.minor ++ crlf ++
    h.fields.flatMap Field.render ++ crlf

/-- The language of the grammar. -/
def L : Set Bytes := Set.range Head.render

/-- The header a derivation stands for: a continuation adds its text to the value. -/
def Field.toHeader (f : Field) : Header := ⟨f.name, f.value ++ f.folds.flatMap Fold.text⟩

def Head.headers (hd : Head) : List Header := hd.fields.map Field.toHeader

/-- A version number as an `int` of the target: the decimal value, exact below `2 ^ 31`. -/
def versionNumber (digits : Bytes) : Int := toInt32 (decimalValue digits)

/-- The request `req` with everything the head says written into it. -/
def Head.fill (h : Head) (req : Request) : Request :=
  { req with
    method := h.method
    uri := h.target
    httpVersionMajor := versionNumber h.major
    httpVersionMinor := versionNumber h.minor
    headers := h.fields.map Field.toHeader }

@[simp] theorem Head.fill_httpVersionMajor (h : Head) (req : Request) :
    (h.fill req).httpVersionMajor = versionNumber h.major := by
  rw [Head.fill]

@[simp] theorem Head.fill_httpVersionMinor (h : Head) (req : Request) :
    (h.fill req).httpVersionMinor = versionNumber h.minor := by
  rw [Head.fill]

end Grammar

end BtcServer.HttpmessageServer
