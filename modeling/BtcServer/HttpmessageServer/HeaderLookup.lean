import BtcServer.HttpmessageServer.HeaderBlock

/-!
# Header lookup

`request::operator[]` compares as many bytes as the wanted name has, so it finds the first header
that begins with that name.  What follows for the fields that `normalise` computes from two headers:
when a header of another name changes nothing, and when the lookup is that of the whole name.
-/

namespace BtcServer.HttpmessageServer

open Boost Lib Grammar

def firstValue (P : Header → Prop) [DecidablePred P] (hdrs : List Header) : Bytes :=
  match hdrs.find? (P ·) with
  | some hdr => hdr.value
  | none => []

section FirstValue

variable {P : Header → Prop} [DecidablePred P] {pre post : List Header} {hdr : Header}

theorem firstValue_cons_of_pos (h : P hdr) : firstValue P (hdr :: post) = hdr.value := by
  simp [firstValue, h]

theorem firstValue_cons_of_neg (h : ¬ P hdr) : firstValue P (hdr :: post) = firstValue P post := by
  simp [firstValue, h]

theorem firstValue_append_of_none (h : ∀ hdr ∈ pre, ¬ P hdr) :
    firstValue P (pre ++ post) = firstValue P post := by
  have hnone : pre.find? (P ·) = none := List.find?_eq_none.mpr (by simpa using h)
  unfold firstValue
  rw [List.find?_append, hnone, Option.none_or]

theorem firstValue_append_of_exists (h : ∃ hdr ∈ pre, P hdr) :
    firstValue P (pre ++ post) = firstValue P pre := by
  have hsome : (pre.find? (P ·)).isSome := List.find?_isSome.mpr (by simpa using h)
  obtain ⟨found, hfound⟩ := Option.isSome_iff_exists.mp hsome
  unfold firstValue
  rw [List.find?_append, hfound, Option.some_or]

theorem firstValue_insert (h : P hdr → ∃ hdr ∈ pre, P hdr) :
    firstValue P (pre ++ hdr :: post) = firstValue P (pre ++ post) := by
  by_cases hpre : ∃ hdr ∈ pre, P hdr
  · rw [firstValue_append_of_exists hpre, firstValue_append_of_exists hpre]
  · have hnone : ∀ hdr ∈ pre, ¬ P hdr := fun hdr hmem hP => hpre ⟨hdr, hmem, hP⟩
    rw [firstValue_append_of_none hnone, firstValue_append_of_none hnone,
      firstValue_cons_of_neg fun hP => hpre (h hP)]

theorem pos_of_find? (h : post.find? (P ·) = some hdr) : P hdr := by
  simpa using List.find?_some h

theorem firstValue_eq_of_imp {Q : Header → Prop} [DecidablePred Q] (hQP : ∀ hdr, Q hdr → P hdr)
    (hfirst : ∀ hdr ∈ post.find? (P ·), Q hdr) : firstValue P post = firstValue Q post := by
  unfold firstValue
  cases hfound : post.find? (P ·) with
  | none =>
      have hnone : post.find? (Q ·) = none := by
        rw [List.find?_eq_none] at hfound ⊢
        intro hdr hmem hQ
        exact hfound hdr hmem (decide_eq_true (hQP hdr (of_decide_eq_true hQ)))
      rw [hnone]
  | some hdr =>
      obtain ⟨-, before, after, hsplit, hbefore⟩ := List.find?_eq_some_iff_append.mp hfound
      have hsame : post.find? (Q ·) = some hdr := by
        rw [List.find?_eq_some_iff_append]
        refine ⟨decide_eq_true (hfirst hdr hfound), before, after, hsplit, fun other hother => ?_⟩
        have hnot : ¬ P other := by simpa using hbefore other hother
        simpa using fun hQ : Q other => hnot (hQP other hQ)
      rw [hsame]

end FirstValue

/-- The name of the header is `name`, up to case. -/
def Header.Named (name : Bytes) (hdr : Header) : Prop := toLowerCopy hdr.name = toLowerCopy name

instance (name : Bytes) : DecidablePred (Header.Named name) :=
  fun _ => inferInstanceAs (Decidable (_ = _))

theorem Header.Named.beginsWith {name : Bytes} {hdr : Header} (h : hdr.Named name) :
    hdr.BeginsWith name := by
  unfold Header.BeginsWith
  rw [show toLowerCopy hdr.name = toLowerCopy name from h]

namespace Request

theorem subscript_eq_firstValue {name : Bytes} (hname : 0 ∉ name) (req : Request) :
    req.subscript name = firstValue (Header.BeginsWith name) req.headers := by
  unfold subscript firstValue
  simp only [strncasecmp_eq_zero_iff hname]
  rfl

def wholeSubscript (req : Request) (name : Bytes) : Bytes :=
  firstValue (Header.Named name) req.headers

/-- The values of the headers are made of bytes that the parser lets into a value. -/
def TextValues (req : Request) : Prop := ∀ hdr ∈ req.headers, ∀ b ∈ hdr.value, Text b

/-- Headers with these names, of which only those with one name have a value. -/
def valuedAt (name : Bytes) (names : List Bytes) : List Header :=
  names.map fun n => ⟨n, if n = name then str "a" else []⟩

theorem names_valuedAt (name : Bytes) (names : List Bytes) :
    (valuedAt name names).map Header.name = names := by
  simp [valuedAt, Function.comp_def]

theorem text_valuedAt (name : Bytes) (names : List Bytes) :
    ∀ hdr ∈ valuedAt name names, ∀ b ∈ hdr.value, Text b := by
  intro hdr hmem b hb
  obtain ⟨n, -, rfl⟩ := List.mem_map.mp hmem
  by_cases hn : n = name
  · have hb' : b ∈ str "a" := by simpa [hn] using hb
    have htext : ∀ c ∈ str "a", Text c := by decide +kernel
    exact htext b hb'
  · simp [hn] at hb

theorem firstValue_valuedAt_of_first {P : Header → Prop} [DecidablePred P] {name : Bytes}
    {pre : List Bytes} (post : List Bytes) (hname : ∀ value, P ⟨name, value⟩)
    (hpre : ∀ n ∈ pre, ∀ value, ¬ P ⟨n, value⟩) :
    firstValue P (valuedAt name (pre ++ name :: post)) = str "a" := by
  unfold valuedAt
  rw [List.map_append, firstValue_append_of_none, List.map_cons, firstValue_cons_of_pos (hname _)]
  · exact if_pos rfl
  · intro hdr hmem
    obtain ⟨n, hn, rfl⟩ := List.mem_map.mp hmem
    exact hpre n hn _

theorem firstValue_valuedAt_of_not {P : Header → Prop} [DecidablePred P] {name : Bytes}
    (names : List Bytes) (hname : ∀ value, ¬ P ⟨name, value⟩) :
    firstValue P (valuedAt name names) = [] := by
  unfold firstValue
  split
  case h_2 => rfl
  case h_1 hdr hfound =>
    obtain ⟨n, -, rfl⟩ := List.mem_map.mp (List.mem_of_find?_eq_some hfound)
    have hP := pos_of_find? hfound
    refine if_neg ?_
    rintro rfl
    exact hname _ hP

/-- The lookup is that of the whole name, whatever the values are, exactly when the first name that
begins with the wanted one is the wanted one. -/
theorem subscript_eq_wholeSubscript_iff {wanted : Bytes} (hwanted : 0 ∉ wanted)
    (names : List Bytes) :
    (∀ req : Request, req.headers.map Header.name = names → req.TextValues →
        req.subscript wanted = req.wholeSubscript wanted) ↔
      ∀ name ∈ names.find? fun name => toLowerCopy wanted <+: toLowerCopy name,
        toLowerCopy name = toLowerCopy wanted := by
  constructor
  · intro h name hname
    by_contra hne
    obtain ⟨hbegins, pre, post, rfl, hpre⟩ := List.find?_eq_some_iff_append.mp hname
    have hfirst : ∀ value, Header.BeginsWith wanted ⟨name, value⟩ :=
      fun _ => of_decide_eq_true hbegins
    have hbefore : ∀ n ∈ pre, ∀ value, ¬ Header.BeginsWith wanted ⟨n, value⟩ := by
      intro n hn value
      simpa [Header.BeginsWith] using hpre n hn
    -- the first name that begins with the wanted one gets a value, the others none
    have hreq := h { Request.uninitialised 0 0 0 false with
      headers := valuedAt name (pre ++ name :: post) } (names_valuedAt _ _) (text_valuedAt _ _)
    rw [subscript_eq_firstValue hwanted, wholeSubscript,
      firstValue_valuedAt_of_first post hfirst hbefore,
      firstValue_valuedAt_of_not _ fun _ => hne] at hreq
    cases hreq
  · rintro h req rfl -
    rw [subscript_eq_firstValue hwanted]
    refine firstValue_eq_of_imp (fun hdr => Header.Named.beginsWith) fun hdr hfound => ?_
    refine h hdr.name ?_
    rw [List.find?_map]
    exact congrArg (Option.map Header.name) hfound

/-! ## Headers that decide the framing -/

def framingNames : List Bytes := [str "content-length", str "connection"]

theorem zero_notMem_framingNames : ∀ wanted ∈ framingNames, 0 ∉ wanted := by
  decide +kernel

/-- The name is none of those, up to case. -/
def Unrelated (name : Bytes) : Prop :=
  ∀ wanted ∈ framingNames, toLowerCopy name ≠ toLowerCopy wanted

instance : DecidablePred Unrelated :=
  fun _ => inferInstanceAs (Decidable (∀ wanted ∈ framingNames, _))

def withHeaders (req : Request) (headers : List Header) : Request := { req with headers := headers }

@[simp] theorem withHeaders_headers (req : Request) (headers : List Header) :
    (req.withHeaders headers).headers = headers := rfl

/-- `normalise` computes the same length and the same persistence. -/
def SameFraming (req req' : Request) : Prop :=
  req.normalise.contentLength = req'.normalise.contentLength ∧
    req.normalise.keepAlive = req'.normalise.keepAlive

instance : DecidableRel SameFraming :=
  fun _ _ => inferInstanceAs (Decidable (_ ∧ _))

theorem sameFraming_of_subscript {req req' : Request}
    (hprior : req.contentLength = req'.contentLength)
    (h : ∀ wanted ∈ framingNames, req.subscript wanted = req'.subscript wanted) :
    SameFraming req req' := by
  have hlength := h (str "content-length") (by simp [framingNames])
  have hconnection := h (str "connection") (by simp [framingNames])
  constructor
  · rw [normalise_contentLength, normalise_contentLength, hlength, hprior]
  · rw [normalise_keepAlive, normalise_keepAlive, hconnection]

theorem subscript_insert {wanted name : Bytes} (hwanted : 0 ∉ wanted) (req : Request)
    {pre post : List Header} (value : Bytes)
    (h : toLowerCopy wanted <+: toLowerCopy name → ∃ hdr ∈ pre, hdr.BeginsWith wanted) :
    (req.withHeaders (pre ++ ⟨name, value⟩ :: post)).subscript wanted =
      (req.withHeaders (pre ++ post)).subscript wanted := by
  rw [subscript_eq_firstValue hwanted, subscript_eq_firstValue hwanted]
  exact firstValue_insert h

theorem subscript_of_first {wanted name : Bytes} (hwanted : 0 ∉ wanted) (req : Request)
    {pre post : List Header} (value : Bytes) (hname : toLowerCopy wanted <+: toLowerCopy name)
    (hpre : ∀ hdr ∈ pre, ¬ hdr.BeginsWith wanted) :
    (req.withHeaders (pre ++ ⟨name, value⟩ :: post)).subscript wanted = value := by
  have hnew : Header.BeginsWith wanted ⟨name, value⟩ := hname
  rw [subscript_eq_firstValue hwanted, withHeaders_headers, firstValue_append_of_none hpre,
    firstValue_cons_of_pos hnew]

theorem exists_values_of_framingName {wanted : Bytes} (h : wanted ∈ framingNames) :
    ∃ v v' : Bytes, (∀ b ∈ v, Text b) ∧ (∀ b ∈ v', Text b) ∧
      ∀ req req' : Request, req.subscript wanted = v → req'.subscript wanted = v' →
        ¬ SameFraming req req' := by
  obtain rfl | rfl : wanted = str "content-length" ∨ wanted = str "connection" := by
    simpa [framingNames] using h
  · refine ⟨str "1", str "2", by decide +kernel, by decide +kernel, fun req req' hv hv' hsame => ?_⟩
    have hlength := hsame.1
    rw [normalise_contentLength, normalise_contentLength, hv, hv'] at hlength
    have hone : extractUInt64 (str "1") req.contentLength = 1 := rfl
    have htwo : extractUInt64 (str "2") req'.contentLength = 2 := rfl
    rw [if_pos (by decide +kernel), if_pos (by decide +kernel), hone, htwo] at hlength
    exact absurd hlength (by decide +kernel)
  · refine ⟨str "keep-alive", str "close", by decide +kernel, by decide +kernel,
      fun req req' hv hv' hsame => ?_⟩
    have hkeep := hsame.2
    rw [normalise_keepAlive, normalise_keepAlive, hv, hv'] at hkeep
    exact absurd hkeep (by decide +kernel)

/-- Inserting a header of a given name at a given place, or deleting it there, leaves the framing as
it is, whatever its value is, exactly when every looked up name that it begins with is one that an
earlier header begins with. -/
theorem sameFraming_insert_iff (req : Request) (pre post : List Header) (name : Bytes) :
    (∀ value : Bytes, (∀ b ∈ value, Text b) →
        SameFraming (req.withHeaders (pre ++ ⟨name, value⟩ :: post))
          (req.withHeaders (pre ++ post))) ↔
      ∀ wanted ∈ framingNames, toLowerCopy wanted <+: toLowerCopy name →
        ∃ hdr ∈ pre, hdr.BeginsWith wanted := by
  constructor
  · intro h wanted hmem hname
    by_contra hpre
    have hnone : ∀ hdr ∈ pre, ¬ hdr.BeginsWith wanted := fun hdr hin hb => hpre ⟨hdr, hin, hb⟩
    have hwanted := zero_notMem_framingNames wanted hmem
    obtain ⟨v, v', hv, hv', hdiff⟩ := exists_values_of_framingName hmem
    -- the two values would both give the framing without the header
    have hsame := h v hv
    have hsame' := h v' hv'
    have hsub (value : Bytes) :
        (req.withHeaders (pre ++ ⟨name, value⟩ :: post)).subscript wanted = value :=
      subscript_of_first hwanted req value hname hnone
    exact hdiff _ _ (hsub v) (hsub v')
      ⟨hsame.1.trans hsame'.1.symm, hsame.2.trans hsame'.2.symm⟩
  · intro h value _
    refine sameFraming_of_subscript rfl fun wanted hmem => ?_
    exact subscript_insert (zero_notMem_framingNames wanted hmem) req value (h wanted hmem)

/-- When only the headers of the looked up names matter: for a header inserted or deleted at one
place, and for one lookup. -/
theorem named_headers_iff (req : Request) (pre post : List Header) (name : Bytes)
    {wanted : Bytes} (hwanted : 0 ∉ wanted) (names : List Bytes) :
    ((∀ value : Bytes, (∀ b ∈ value, Text b) →
        SameFraming (req.withHeaders (pre ++ ⟨name, value⟩ :: post))
          (req.withHeaders (pre ++ post))) ↔
      ∀ wanted ∈ framingNames, toLowerCopy wanted <+: toLowerCopy name →
        ∃ hdr ∈ pre, hdr.BeginsWith wanted) ∧
      ((∀ req : Request, req.headers.map Header.name = names → req.TextValues →
          req.subscript wanted = req.wholeSubscript wanted) ↔
        ∀ name ∈ names.find? fun name => toLowerCopy wanted <+: toLowerCopy name,
          toLowerCopy name = toLowerCopy wanted) :=
  ⟨sameFraming_insert_iff req pre post name, subscript_eq_wholeSubscript_iff hwanted names⟩

/-- A header of a name without either of them as its beginning changes nothing. -/
theorem named_headers_of_host :
    let req := Request.uninitialised 0 0 0 false
    let named : Header := ⟨str "Content-Length", str "3"⟩
    SameFraming (req.withHeaders [⟨str "Host", str "a"⟩, named]) (req.withHeaders [named]) := by
  have hwanted : 0 ∉ str "connection" := by decide +kernel
  have hiff := named_headers_iff (.uninitialised 0 0 0 false) []
    [⟨str "Content-Length", str "3"⟩] (str "Host") hwanted []
  exact hiff.1.mpr (by decide +kernel) (str "a") (by decide +kernel)

/-- An accepted block in which a header of another name decides the length. -/
theorem longer_name_decides_length :
    let block := str "POST / HTTP/1.1\r\nContent-Length-Extra: 5\r\nContent-Length: 3\r\n\r\n"
    let parsed := RequestParser.fresh.parse (.uninitialised 0 0 0 false) (block ++ [0])
    let extra : Header := ⟨str "Content-Length-Extra", str "5"⟩
    let named : Header := ⟨str "Content-Length", str "3"⟩
    parsed.result = .trueValue ∧ parsed.req.headers = [extra, named] ∧ Unrelated extra.name ∧
      parsed.req.normalise.contentLength = 5 ∧
      (parsed.req.withHeaders [named]).normalise.contentLength = 3 ∧
      ¬ SameFraming parsed.req (parsed.req.withHeaders [named]) ∧
      parsed.req.subscript (str "content-length") = str "5" ∧
      parsed.req.wholeSubscript (str "content-length") = str "3" := by
  decide +kernel

end Request

end BtcServer.HttpmessageServer
