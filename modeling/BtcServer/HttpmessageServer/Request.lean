import Mathlib.Data.List.TakeWhile

/-!
# Requests

`header`, `request` and `request::normalise` of `http_helper.hpp`, with the library functions they
call: `boost::to_lower`, `strncasecmp` and the extraction of an unsigned 64-bit integer from an
`istringstream`, all in the "C" locale.  A `std::string` is the list of its bytes.
-/

namespace BtcServer.HttpmessageServer

abbrev Bytes := List UInt8

def str (s : String) : Bytes := s.toList.map Char.toUInt8

/-- `tolower` in the "C" locale. -/
def toLower (c : UInt8) : UInt8 := if 65 ≤ c ∧ c ≤ 90 then c + 32 else c

/-- `boost::to_lower_copy`; the in-place `boost::to_lower` stores this value. -/
def toLowerCopy (s : Bytes) : Bytes := s.map toLower

/-- `isspace` in the "C" locale. -/
def isSpace (c : UInt8) : Bool := c = 32 || 9 ≤ c && c ≤ 13

/-- `isdigit` in the "C" locale. -/
def isDecimalDigit (c : UInt8) : Bool := 48 ≤ c && c ≤ 57

/-- The number written by a string of decimal digits. -/
def decimalValue (digits : Bytes) : Nat :=
  digits.foldl (fun n c => 10 * n + (c.toNat - 48)) 0

/-- `strncasecmp(s, t, n)` on strings that end in a NUL: the difference of the first two characters
that differ in the first `n`, up to case. -/
def strncasecmp : Bytes → Bytes → Nat → Int
  | _, _, 0 => 0
  | s, t, n + 1 =>
      let a := toLower (s.headD 0)
      let b := toLower (t.headD 0)
      if a ≠ b then (a.toNat : Int) - b.toNat
      else if a = 0 then 0
      else strncasecmp s.tail t.tail n

/-- `std::istream >> std::uint64_t`.  Leading white space is skipped; when nothing is left the
variable keeps its value.  Else the longest prefix that is an optional sign and digits is
converted: no digits give 0, a value past the range gives the maximum, and a minus sign negates
modulo `2 ^ 64`. -/
def extractUInt64 (s : Bytes) (prior : UInt64) : UInt64 :=
  match s.dropWhile isSpace with
  | [] => prior
  | c :: rest =>
      let digits := (if c = '-'.toUInt8 ∨ c = '+'.toUInt8 then rest else c :: rest).takeWhile
        isDecimalDigit
      if digits = [] then 0
      else if 0x10000000000000000 ≤ decimalValue digits then 0xffffffffffffffff
      else if c = '-'.toUInt8 then 0 - UInt64.ofNat (decimalValue digits)
      else UInt64.ofNat (decimalValue digits)

structure Header where
  name : Bytes
  value : Bytes
  deriving DecidableEq, Repr

@[ext] structure Request where
  method : Bytes
  uri : Bytes
  httpVersionMajor : Int
  httpVersionMinor : Int
  headers : List Header
  contentLength : UInt64
  keepAlive : Bool
  body : Bytes
  deriving DecidableEq, Repr

namespace Request

/-- A request as a connection is constructed with it: the strings and the vector are empty, the
numbers and the flag hold whatever the memory held. -/
def uninitialised (httpVersionMajor httpVersionMinor : Int) (contentLength : UInt64)
    (keepAlive : Bool) : Request where
  method := []
  uri := []
  httpVersionMajor := httpVersionMajor
  httpVersionMinor := httpVersionMinor
  headers := []
  contentLength := contentLength
  keepAlive := keepAlive
  body := []

/-- `request::operator[]` -/
def subscript (req : Request) (name : Bytes) : Bytes :=
  match req.headers.find? fun hdr => strncasecmp name hdr.name name.length = 0 with
  | some hdr => hdr.value
  | none => []

def normalise (req : Request) : Request :=
  let req : Request := { req with
    method := toLowerCopy req.method
    uri := toLowerCopy req.uri
    headers := req.headers.map fun hdr => ⟨toLowerCopy hdr.name, hdr.value⟩ }
  let contentlength := req.subscript (str "content-length")
  let req : Request :=
    if contentlength ≠ [] then
      { req with contentLength := extractUInt64 contentlength req.contentLength }
    else req
  { req with keepAlive := toLowerCopy (req.subscript (str "connection")) = str "keep-alive" }

end Request

/-! ## Normalising twice -/

theorem toLower_toLower (c : UInt8) : toLower (toLower c) = toLower c := by
  unfold toLower
  by_cases h : 65 ≤ c ∧ c ≤ 90
  · have hle : ¬ (65 ≤ c + 32 ∧ c + 32 ≤ 90) := by
      obtain ⟨hlo, hhi⟩ := h
      simp only [UInt8.le_iff_toNat_le, UInt8.toNat_add, UInt8.reduceToNat] at hlo hhi ⊢
      omega
    rw [if_pos h, if_neg hle]
  · rw [if_neg h, if_neg h]

@[simp] theorem toLowerCopy_toLowerCopy (s : Bytes) :
    toLowerCopy (toLowerCopy s) = toLowerCopy s := by
  simp [toLowerCopy, toLower_toLower]

theorem strncasecmp_toLowerCopy (s t : Bytes) (n : Nat) :
    strncasecmp s (toLowerCopy t) n = strncasecmp s t n := by
  induction n generalizing s t with
  | zero => rfl
  | succ n ih =>
      have hhead : toLower ((toLowerCopy t).headD 0) = toLower (t.headD 0) := by
        cases t with
        | nil => rfl
        | cons c t => exact toLower_toLower c
      have htail : (toLowerCopy t).tail = toLowerCopy t.tail := by
        cases t <;> rfl
      unfold strncasecmp
      rw [hhead, htail, ih]

theorem extractUInt64_extractUInt64 (s : Bytes) (prior : UInt64) :
    extractUInt64 s (extractUInt64 s prior) = extractUInt64 s prior := by
  unfold extractUInt64
  cases s.dropWhile isSpace <;> rfl

namespace Request

theorem subscript_toLowerCopy (req : Request) {req' : Request} (name : Bytes)
    (h : req'.headers = req.headers.map fun hdr => ⟨toLowerCopy hdr.name, hdr.value⟩) :
    req'.subscript name = req.subscript name := by
  unfold subscript
  rw [h, List.find?_map]
  simp only [Function.comp_def, strncasecmp_toLowerCopy]
  cases req.headers.find? _ <;> rfl

@[simp] theorem normalise_method (req : Request) : req.normalise.method = toLowerCopy req.method := by
  unfold normalise
  dsimp only
  split <;> rfl

@[simp] theorem normalise_uri (req : Request) : req.normalise.uri = toLowerCopy req.uri := by
  unfold normalise
  dsimp only
  split <;> rfl

@[simp] theorem normalise_headers (req : Request) :
    req.normalise.headers = req.headers.map fun hdr => ⟨toLowerCopy hdr.name, hdr.value⟩ := by
  unfold normalise
  dsimp only
  split <;> rfl

@[simp] theorem normalise_httpVersionMajor (req : Request) :
    req.normalise.httpVersionMajor = req.httpVersionMajor := by
  unfold normalise
  dsimp only
  split <;> rfl

@[simp] theorem normalise_httpVersionMinor (req : Request) :
    req.normalise.httpVersionMinor = req.httpVersionMinor := by
  unfold normalise
  dsimp only
  split <;> rfl

@[simp] theorem normalise_body (req : Request) : req.normalise.body = req.body := by
  unfold normalise
  dsimp only
  split <;> rfl

theorem normalise_contentLength (req : Request) :
    req.normalise.contentLength =
      if req.subscript (str "content-length") ≠ [] then
        extractUInt64 (req.subscript (str "content-length")) req.contentLength
      else req.contentLength := by
  unfold normalise
  dsimp only
  rw [subscript_toLowerCopy req (str "content-length") rfl]
  split <;> rfl

theorem normalise_keepAlive (req : Request) :
    req.normalise.keepAlive =
      (toLowerCopy (req.subscript (str "connection")) = str "keep-alive" : Bool) := by
  unfold normalise
  dsimp only
  split <;> rw [subscript_toLowerCopy req (str "connection") rfl]

theorem normalise_normalise (req : Request) : req.normalise.normalise = req.normalise := by
  have hsub (name : Bytes) : req.normalise.subscript name = req.subscript name :=
    subscript_toLowerCopy req name (normalise_headers req)
  have hlength : req.normalise.normalise.contentLength = req.normalise.contentLength := by
    rw [normalise_contentLength req.normalise, hsub, normalise_contentLength req]
    by_cases h : req.subscript (str "content-length") ≠ []
    · rw [if_pos h, if_pos h, extractUInt64_extractUInt64]
    · rw [if_neg h, if_neg h]
  have hkeep : req.normalise.normalise.keepAlive = req.normalise.keepAlive := by
    rw [normalise_keepAlive req.normalise, hsub, normalise_keepAlive req]
  ext1
  · simp
  · simp
  · simp
  · simp
  · simp [Function.comp_def]
  · exact hlength
  · exact hkeep
  · simp

theorem normalise_withBody (req : Request) (body : Bytes) :
    { req with body := body }.normalise = { req.normalise with body := body } := by
  have hsub (name : Bytes) : { req with body := body }.subscript name = req.subscript name := rfl
  ext1
  · simp
  · simp
  · simp
  · simp
  · simp
  · simp only [normalise_contentLength, hsub]
  · simp only [normalise_keepAlive, hsub]
  · simp

end Request

/-! ## Looking a header up -/

theorem toLower_ne_zero {c : UInt8} (h : c ≠ 0) : toLower c ≠ 0 := by
  unfold toLower
  by_cases hupper : 65 ≤ c ∧ c ≤ 90
  · rw [if_pos hupper]
    intro hzero
    have hsum := congrArg UInt8.toNat hzero
    obtain ⟨hlo, hhi⟩ := hupper
    simp only [UInt8.le_iff_toNat_le, UInt8.toNat_add, UInt8.reduceToNat] at hlo hhi hsum
    omega
  · rwa [if_neg hupper]

/-- Comparing as many bytes as the first name has is asking whether the second begins with it. -/
theorem strncasecmp_eq_zero_iff {name : Bytes} (h : 0 ∉ name) (s : Bytes) :
    strncasecmp name s name.length = 0 ↔ toLowerCopy name <+: toLowerCopy s := by
  induction name generalizing s with
  | nil => simp [strncasecmp, toLowerCopy]
  | cons c name ih =>
      obtain ⟨hc, hname⟩ : c ≠ 0 ∧ 0 ∉ name := by
        simpa [eq_comm] using h
      have hlower := toLower_ne_zero hc
      rw [List.length_cons, strncasecmp]
      simp only [List.headD_cons, List.tail_cons]
      cases s with
      | nil =>
          have hne : toLower c ≠ toLower 0 := hlower
          have hdiff : ((toLower c).toNat : Int) - (toLower 0).toNat ≠ 0 := by
            intro hzero
            exact hne (UInt8.toNat_inj.mp (by omega))
          simp [toLowerCopy, hne, hdiff]
      | cons d s =>
          simp only [List.headD_cons, List.tail_cons, toLowerCopy, List.map_cons,
            List.cons_prefix_cons]
          by_cases hcd : toLower c = toLower d
          · rw [hcd] at hlower
            simp only [hcd, ne_eq, not_true_eq_false, if_false, if_neg hlower, true_and]
            exact ih hname s
          · have hdiff : ((toLower c).toNat : Int) - (toLower d).toNat ≠ 0 := by
              intro hzero
              exact hcd (UInt8.toNat_inj.mp (by omega))
            simp [hcd, hdiff]

/-- The name of the header begins with `name`, up to case. -/
def Header.BeginsWith (name : Bytes) (hdr : Header) : Prop :=
  toLowerCopy name <+: toLowerCopy hdr.name

instance (name : Bytes) : DecidablePred (Header.BeginsWith name) :=
  fun _ => inferInstanceAs (Decidable (_ <+: _))

theorem Request.subscript_of_unique {req : Request} {name : Bytes} {hdr : Header} (hname : 0 ∉ name)
    (h : req.headers.filter (Header.BeginsWith name ·) = [hdr]) : req.subscript name = hdr.value := by
  have hfind : req.headers.find? (fun hdr => strncasecmp name hdr.name name.length = 0) =
      some hdr := by
    simp only [strncasecmp_eq_zero_iff hname]
    have hhead := List.head?_filter (p := fun hdr => decide (Header.BeginsWith name hdr))
      (l := req.headers)
    rw [h] at hhead
    exact hhead.symm
  unfold subscript
  rw [hfind]

theorem isDecimalDigit_apart {c : UInt8} (h : isDecimalDigit c = true) :
    isSpace c = false ∧ c ≠ '-'.toUInt8 ∧ c ≠ '+'.toUInt8 := by
  have hrange : 48 ≤ c.toNat ∧ c.toNat ≤ 57 := by
    simpa [isDecimalDigit, UInt8.le_iff_toNat_le] using h
  have h32 : c ≠ 32 := by
    rintro rfl
    exact absurd hrange.1 (by decide)
  have h13 : ¬ c ≤ 13 := by
    rw [UInt8.le_iff_toNat_le]
    simp only [UInt8.reduceToNat]
    omega
  refine ⟨by simp [isSpace, h32, h13], ?_, ?_⟩
  · rintro rfl
    exact absurd hrange.1 (by decide)
  · rintro rfl
    exact absurd hrange.1 (by decide)

theorem extractUInt64_of_digits {digits : Bytes} (hne : digits ≠ [])
    (hdigits : ∀ c ∈ digits, isDecimalDigit c = true)
    (hrange : decimalValue digits < 0x10000000000000000) (prior : UInt64) :
    extractUInt64 digits prior = UInt64.ofNat (decimalValue digits) := by
  cases digits with
  | nil => exact absurd rfl hne
  | cons c rest =>
      obtain ⟨hspace, hminus, hplus⟩ := isDecimalDigit_apart (hdigits c (by simp))
      have hsign : ¬ (c = '-'.toUInt8 ∨ c = '+'.toUInt8) := not_or.mpr ⟨hminus, hplus⟩
      have hdrop : (c :: rest).dropWhile isSpace = c :: rest := by
        simp [hspace]
      have htake : (c :: rest).takeWhile isDecimalDigit = c :: rest :=
        List.takeWhile_eq_self_iff.mpr hdigits
      have hfits : ¬ 0x10000000000000000 ≤ decimalValue (c :: rest) := Nat.not_le.mpr hrange
      unfold extractUInt64
      simp only [hdrop, if_neg hsign, htake, if_neg hne, if_neg hfits, if_neg hminus]

end BtcServer.HttpmessageServer
