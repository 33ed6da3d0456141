import BtcServer.HttpmessageServer.ParserLanguage
import Mathlib.Data.Int.ModEq
import Mathlib.Tactic.Ring

/-!
# The parser decides the grammar

From an empty request the language of the start state is the grammar `L`, with `Head.fill` as the
request that comes out (`rest_methodStart_iff`).  With `denotes` this gives the verdict, the request
and the number of bytes read for every input, in one piece or in chunks.
-/

namespace BtcServer.HttpmessageServer

open Boost Lib Grammar

/-! ## What the accumulators have collected -/

theorem modifyBack_concat (f : Header → Header) (hdrs : List Header) (hdr : Header) :
    modifyBack f (hdrs ++ [hdr]) = hdrs ++ [f hdr] := by
  induction hdrs with
  | nil => rfl
  | cons h hdrs ih =>
      cases hdrs with
      | nil => rfl
      | cons h' hdrs => simpa [modifyBack] using ih

@[simp] theorem modifyBack_eq_nil_iff (f : Header → Header) (hdrs : List Header) :
    modifyBack f hdrs = [] ↔ hdrs = [] := by
  cases hdrs with
  | nil => simp [modifyBack]
  | cons h hdrs => cases hdrs <;> simp [modifyBack]

namespace Request

/-- The request as its constructor leaves it, the plain fields aside. -/
def Empty (req : Request) : Prop := req.method = [] ∧ req.uri = [] ∧ req.headers = []

def appendHeaders (req : Request) (hdrs : List Header) : Request :=
  { req with headers := req.headers ++ hdrs }

theorem foldl_pushName (req : Request) (hdrs : List Header) (n x v : Bytes)
    (h : req.headers = hdrs ++ [⟨n, x⟩]) :
    v.foldl pushName req = { req with headers := hdrs ++ [⟨n ++ v, x⟩] } := by
  induction v generalizing req n with
  | nil => simp [← h]
  | cons b v ih =>
      rw [List.foldl_cons, ih (req.pushName b) (n ++ [b]) (by simp [pushName, h, modifyBack_concat])]
      simp [pushName]

theorem foldl_pushValue (req : Request) (hdrs : List Header) (n x v : Bytes)
    (h : req.headers = hdrs ++ [⟨n, x⟩]) :
    v.foldl pushValue req = { req with headers := hdrs ++ [⟨n, x ++ v⟩] } := by
  induction v generalizing req x with
  | nil => simp [← h]
  | cons b v ih =>
      rw [List.foldl_cons, ih (req.pushValue b) (x ++ [b])
        (by simp [pushValue, h, modifyBack_concat])]
      simp [pushValue]

theorem pushHeader_headers_ne_nil (req : Request) : req.pushHeader.headers ≠ [] :=
  List.append_ne_nil_of_right_ne_nil _ (List.cons_ne_nil _ _)

theorem pushName_headers_ne_nil {req : Request} (h : req.headers ≠ []) (a : UInt8) :
    (req.pushName a).headers ≠ [] :=
  (modifyBack_eq_nil_iff _ _).not.mpr h

theorem pushValue_headers_ne_nil {req : Request} (h : req.headers ≠ []) (a : UInt8) :
    (req.pushValue a).headers ≠ [] :=
  (modifyBack_eq_nil_iff _ _).not.mpr h

theorem foldl_pushValue_headers_ne_nil {req : Request} (v : Bytes) (h : req.headers ≠ []) :
    (v.foldl pushValue req).headers ≠ [] := by
  induction v generalizing req with
  | nil => exact h
  | cons b v ih => exact ih (pushValue_headers_ne_nil h b)

theorem foldl_push_header (req : Request) (name value : Bytes) :
    value.foldl pushValue (name.foldl pushName req.pushHeader) =
      req.appendHeaders [⟨name, value⟩] := by
  rw [foldl_pushName req.pushHeader req.headers [] [] name rfl,
    foldl_pushValue _ req.headers ([] ++ name) [] value rfl]
  rfl

theorem foldl_pushValue_appendHeaders (req : Request) (name value text : Bytes) :
    text.foldl pushValue (req.appendHeaders [⟨name, value⟩]) =
      req.appendHeaders [⟨name, value ++ text⟩] := by
  rw [foldl_pushValue _ req.headers name value text rfl]
  rfl

end Request

namespace RequestParser

theorem foldl_pushMethod (req : Request) (v : Bytes) :
    v.foldl pushMethod req = { req with method := req.method ++ v } := by
  induction v generalizing req with
  | nil => simp
  | cons b v ih => rw [List.foldl_cons, ih]; simp [pushMethod]

theorem foldl_pushUri (req : Request) (v : Bytes) :
    v.foldl pushUri req = { req with uri := req.uri ++ v } := by
  induction v generalizing req with
  | nil => simp
  | cons b v ih => rw [List.foldl_cons, ih]; simp [pushUri]

theorem foldl_pushMajor (req : Request) (v : Bytes) :
    v.foldl pushMajor req =
      { req with httpVersionMajor := v.foldl addDigit req.httpVersionMajor } := by
  induction v generalizing req with
  | nil => rfl
  | cons b v ih => rw [List.foldl_cons, ih]; rfl

theorem foldl_pushMinor (req : Request) (v : Bytes) :
    v.foldl pushMinor req =
      { req with httpVersionMinor := v.foldl addDigit req.httpVersionMinor } := by
  induction v generalizing req with
  | nil => rfl
  | cons b v ih => rw [List.foldl_cons, ih]; rfl

/-- One digit, with the wrap-around of each operation collected into one. -/
theorem addDigit_toInt32 (n : Nat) {b : UInt8} (hb : Digit b) :
    addDigit (toInt32 n) b = toInt32 ((10 * n + (b.toNat - 48) : Nat) : Int) := by
  obtain ⟨hlo, hhi⟩ := hb
  have hc : charToInt b = b.toNat := by rw [charToInt, if_pos (by omega)]
  have hval : ((10 * n + (b.toNat - 48) : Nat) : Int) = (n : Int) * 10 + (b.toNat : Int) - 48 := by
    omega
  rw [addDigit, hc, hval]
  simp only [toInt32, Int.bmod_mul_bmod, Int.bmod_add_bmod, Int.bmod_sub_bmod]
  rfl

theorem foldl_addDigit (digits : Bytes) (n : Nat) (h : ∀ b ∈ digits, Digit b) :
    digits.foldl addDigit (toInt32 n) =
      toInt32 (digits.foldl (fun n c => 10 * n + (c.toNat - 48)) n : Nat) := by
  induction digits generalizing n with
  | nil => rw [List.foldl_nil, List.foldl_nil]
  | cons b digits ih =>
      rw [List.foldl_cons, List.foldl_cons, addDigit_toInt32 n (h b (by simp)),
        ih _ fun c hc => h c (by simp [hc])]

theorem foldl_addDigit_zero {digits : Bytes} (h : ∀ b ∈ digits, Digit b) :
    digits.foldl addDigit 0 = versionNumber digits := by
  have hzero : toInt32 ((0 : Nat) : Int) = 0 := by decide
  rw [← hzero, foldl_addDigit digits 0 h]
  rfl

/-! ## Header lines as a list of fields -/

theorem lines_folds {req r : Request} {w : Bytes} (folds : List Fold)
    (hne : folds ≠ [] → req.headers ≠ [])
    (h : Lines ((folds.flatMap Fold.text).foldl Request.pushValue req) w r) :
    Lines req (folds.flatMap Fold.render ++ w) r := by
  induction folds generalizing req with
  | nil => exact h
  | cons f folds ih =>
      have hreq : req.headers ≠ [] := hne (by simp)
      rw [List.flatMap_cons, List.foldl_append] at h
      rw [List.flatMap_cons, List.append_assoc]
      exact .fold f hreq (ih (fun _ => Request.foldl_pushValue_headers_ne_nil f.text hreq) h)

theorem lines_fields (req : Request) (fields : List Field) :
    Lines req (fields.flatMap Field.render ++ crlf)
      (req.appendHeaders (fields.map Field.toHeader)) := by
  induction fields generalizing req with
  | nil => simpa [Request.appendHeaders] using Lines.done req
  | cons f fields ih =>
      have hrest : Lines (req.appendHeaders [⟨f.name, f.value⟩])
          (f.folds.flatMap Fold.render ++ (fields.flatMap Field.render ++ crlf))
          (req.appendHeaders ((f :: fields).map Field.toHeader)) := by
        apply lines_folds
        · intro _
          simp [Request.appendHeaders]
        · rw [Request.foldl_pushValue_appendHeaders]
          simpa [Request.appendHeaders, Field.toHeader] using
            ih (req.appendHeaders [f.toHeader])
      rw [← Request.foldl_push_header] at hrest
      simpa [Field.render, List.append_assoc] using
        Lines.field f.name f.value f.name_ne_nil f.token_of_mem f.text_of_mem hrest

theorem exists_fields_of_lines {req r : Request} {w : Bytes} (h : Lines req w r) :
    ∃ (folds : List Fold) (fields : List Field), (folds ≠ [] → req.headers ≠ []) ∧
      w = folds.flatMap Fold.render ++ fields.flatMap Field.render ++ crlf ∧
      r = ((folds.flatMap Fold.text).foldl Request.pushValue req).appendHeaders
        (fields.map Field.toHeader) := by
  induction h with
  | done req => exact ⟨[], [], by simp, rfl, by simp [Request.appendHeaders]⟩
  | @field req r w name value hne hname hvalue _ ih =>
      obtain ⟨folds, fields, -, rfl, rfl⟩ := ih
      refine ⟨[], ⟨name, value, folds, hne, hname, hvalue⟩ :: fields, by simp, ?_, ?_⟩
      · simp [Field.render, List.append_assoc]
      · rw [Request.foldl_push_header, Request.foldl_pushValue_appendHeaders]
        simp [Request.appendHeaders, Field.toHeader]
  | @fold req r w f hne _ ih =>
      obtain ⟨folds, fields, -, rfl, rfl⟩ := ih
      refine ⟨f :: folds, fields, fun _ => hne, ?_, ?_⟩
      · simp [List.append_assoc]
      · rw [List.flatMap_cons, List.foldl_append]

theorem foldl_requestLine {req : Request} (hreq : req.Empty) {major minor : Bytes}
    (hmajor : ∀ b ∈ major, Digit b) (hminor : ∀ b ∈ minor, Digit b) (method target : Bytes) :
    minor.foldl pushMinor (major.foldl pushMajor
        (zeroVersion (target.foldl pushUri (method.foldl pushMethod req)))) =
      { req with
        method := method
        uri := target
        httpVersionMajor := versionNumber major
        httpVersionMinor := versionNumber minor } := by
  obtain ⟨hm, hu, -⟩ := hreq
  simp [foldl_pushMethod, foldl_pushUri, foldl_pushMajor, foldl_pushMinor, zeroVersion, hm, hu,
    foldl_addDigit_zero hmajor, foldl_addDigit_zero hminor]

/-- From an empty request the start state reads exactly the derivations of the grammar. -/
theorem rest_methodStart_iff {req : Request} (hreq : req.Empty) (w : Bytes) (r : Request) :
    Rest .methodStart req w r ↔ ∃ h : Head, w = h.render ∧ r = h.fill req := by
  constructor
  · rintro ⟨b, _, rfl, hb, m, _, hm, rfl, u, _, hu, rfl, _, rfl, d, _, rfl, hd, M, _, hM, rfl, e, _,
      rfl, he, N, _, hN, rfl, _, rfl, hlines⟩
    obtain ⟨folds, fields, hfolds, rfl, rfl⟩ := exists_fields_of_lines hlines
    have hmajor : ∀ c ∈ d :: M, Digit c := by simpa using ⟨hd, hM⟩
    have hminor : ∀ c ∈ e :: N, Digit c := by simpa using ⟨he, hN⟩
    have hline := foldl_requestLine hreq hmajor hminor (b :: m) u
    simp only [List.foldl_cons] at hline
    rw [hline] at hfolds ⊢
    obtain rfl : folds = [] := by
      by_contra hne
      exact hfolds hne hreq.2.2
    refine ⟨⟨b :: m, u, d :: M, e :: N, fields, by simp, by simp, by simp, by simpa using ⟨hb, hm⟩,
      hu, hmajor, hminor⟩, ?_, ?_⟩
    · simp [Head.render, crlf, str]
    · simp [Head.fill, Request.appendHeaders, hreq.2.2]
  · rintro ⟨h, rfl, rfl⟩
    obtain ⟨b, m, hmethod⟩ := List.exists_cons_of_ne_nil h.method_ne_nil
    obtain ⟨d, M, hmajor⟩ := List.exists_cons_of_ne_nil h.major_ne_nil
    obtain ⟨e, N, hminor⟩ := List.exists_cons_of_ne_nil h.minor_ne_nil
    have htoken := h.token_of_mem
    have hM := h.digit_of_mem_major
    have hN := h.digit_of_mem_minor
    rw [hmethod] at htoken
    rw [hmajor] at hM
    rw [hminor] at hN
    have hline := foldl_requestLine hreq h.digit_of_mem_major h.digit_of_mem_minor h.method h.target
    have hlines := lines_fields { req with
      method := h.method
      uri := h.target
      httpVersionMajor := versionNumber h.major
      httpVersionMinor := versionNumber h.minor } h.fields
    rw [← hline, hmethod, hmajor, hminor] at hlines
    have hfill : Request.appendHeaders (N.foldl pushMinor (pushMinor (M.foldl pushMajor (pushMajor
        (zeroVersion (h.target.foldl pushUri (m.foldl pushMethod (pushMethod req b)))) d)) e))
        (h.fields.map Field.toHeader) = h.fill req := by
      simp only [hmethod, hmajor, hminor, List.foldl_cons] at hline
      rw [hline]
      simp [Request.appendHeaders, Head.fill, hreq.2.2, hmethod, hmajor, hminor]
    rw [← hfill]
    refine ⟨b, _, ?_, htoken b (by simp), m, _, fun c hc => htoken c (by simp [hc]), rfl, h.target, _,
      h.target_of_mem, rfl, _, rfl, d, _, rfl, hM d (by simp), M, _, fun c hc => hM c (by simp [hc]),
      rfl, e, _, rfl, hN e (by simp), N, _, fun c hc => hN c (by simp [hc]), rfl, _, rfl, hlines⟩
    simp [Head.render, hmethod, hmajor, hminor, crlf, str]

/-! ## Verdicts -/

theorem mem_L_iff {req : Request} (hreq : req.Empty) (w : Bytes) :
    w ∈ L ↔ ∃ r, Rest .methodStart req w r := by
  simp only [rest_methodStart_iff hreq, L, Set.mem_range]
  constructor
  · rintro ⟨h, rfl⟩
    exact ⟨_, h, rfl, rfl⟩
  · rintro ⟨r, h, rfl, -⟩
    exact ⟨h, rfl⟩

theorem parse_render {req : Request} (hreq : req.Empty) (h : Head) (v : Bytes) :
    ∃ p, fresh.parse req (h.render ++ v) = ⟨.trueValue, v, p, h.fill req⟩ := by
  obtain ⟨⟨p, r⟩, hscan, hout⟩ :=
    denotes.scan_sentence (s := (fresh, req)) ((rest_methodStart_iff hreq _ _).mpr ⟨h, rfl, rfl⟩) v
  obtain rfl : r = h.fill req := hout
  rw [parse_eq_scan] at hscan
  rcases hp : fresh.parse req (h.render ++ v) with ⟨result, rest, q, r'⟩
  simp [hp] at hscan
  exact ⟨p, by simp [hscan]⟩

theorem exists_head_of_parse {req : Request} (hreq : req.Empty) {w : Bytes}
    (h : (fresh.parse req w).result = .trueValue) :
    ∃ hd : Head, w = hd.render ++ (fresh.parse req w).begin_ ∧
      (fresh.parse req w).req = hd.fill req := by
  have hverdict : (scan scanStep (fresh, req) w).verdict = some true := by
    rw [parse_eq_scan, h]
    rfl
  obtain ⟨u, hw, hu⟩ := denotes.sentence_of_accept hverdict
  rw [parse_eq_scan] at hw hu
  obtain ⟨hd, rfl, hr⟩ := (rest_methodStart_iff hreq u _).mp hu
  exact ⟨hd, hw, hr⟩

theorem parse_true_iff {req : Request} (hreq : req.Empty) (w : Bytes) :
    (fresh.parse req w).result = .trueValue ↔ ∃ u ∈ L, u <+: w := by
  constructor
  · intro h
    obtain ⟨hd, hw, -⟩ := exists_head_of_parse hreq h
    exact ⟨hd.render, ⟨hd, rfl⟩, ⟨_, hw.symm⟩⟩
  · rintro ⟨_, ⟨hd, rfl⟩, v, rfl⟩
    obtain ⟨p, hp⟩ := parse_render hreq hd v
    rw [hp]

theorem parse_indeterminate_iff {req : Request} (hreq : req.Empty) (w : Bytes) :
    (fresh.parse req w).result = .indeterminateValue ↔ ∃ v ≠ [], w ++ v ∈ L := by
  have h := denotes.wait_iff (s := (fresh, req)) (w := w)
  rw [parse_eq_scan, Tribool.decided_eq_none_iff] at h
  rw [h]
  simp only [mem_L_iff hreq]
  constructor
  · rintro ⟨v, r, hne, hv⟩
    exact ⟨v, hne, r, hv⟩
  · rintro ⟨v, hne, r, hv⟩
    exact ⟨v, r, hne, hv⟩

theorem parse_false_spec {req : Request} (hreq : req.Empty) {w : Bytes}
    (h : (fresh.parse req w).result = .falseValue) :
    ∃ u a, w = u ++ a :: (fresh.parse req w).begin_ ∧ (∃ v, u ++ v ∈ L) ∧
      ∀ v, u ++ a :: v ∉ L := by
  have hverdict : (scan scanStep (fresh, req) w).verdict = some false := by
    rw [parse_eq_scan, h]
    rfl
  obtain ⟨u, a, hw, ⟨v, r, hv⟩, hdead⟩ := denotes.reject_spec hverdict
  rw [parse_eq_scan] at hw
  refine ⟨u, a, hw, ⟨v, (mem_L_iff hreq _).mpr ⟨r, hv⟩⟩, ?_⟩
  intro v hv
  obtain ⟨r, hr⟩ := (mem_L_iff hreq _).mp hv
  exact hdead v r hr

theorem eq_of_prefix_of_mem_L {u v : Bytes} (hu : u ∈ L) (hv : v ∈ L) (h : u <+: v) : u = v := by
  have hreq : (Request.uninitialised 0 0 0 false).Empty := ⟨rfl, rfl, rfl⟩
  obtain ⟨x, rfl⟩ := h
  obtain ⟨r, hr⟩ := (mem_L_iff hreq u).mp hu
  obtain ⟨r', hr'⟩ := (mem_L_iff hreq _).mp hv
  obtain ⟨rfl, -⟩ := denotes.prefix_free (s := (fresh, _)) hr hr'
  rw [List.append_nil]

theorem versionNumber_of_lt {digits : Bytes} (h : decimalValue digits < 0x80000000) :
    versionNumber digits = decimalValue digits := by
  rw [versionNumber, toInt32, Int.bmod_eq_of_le] <;> omega

/-- The parser and the grammar agree on every input, in whatever chunks it comes. -/
theorem feed_decides_grammar (major minor : Int) (contentLength : UInt64) (keepAlive : Bool)
    (chunks : List Bytes) :
    let req := Request.uninitialised major minor contentLength keepAlive
    let w := chunks.flatten
    let one := fresh.parse req w
    let fed := fresh.feed req chunks
    (fed = (one.result, w.length - one.begin_.length, one.parser, one.req)) ∧
    (fed.1 = .trueValue ↔ ∃ u ∈ L, u <+: w) ∧
    (∀ u ∈ L, u <+: w → fed.2.1 = u.length ∧ ∀ u' ∈ L, u' <+: w → u' = u) ∧
    (fed.1 = .indeterminateValue ↔ ∃ v ≠ [], w ++ v ∈ L) ∧
    (fed.1 = .falseValue → ∃ u a rest, w = u ++ a :: rest ∧ fed.2.1 = u.length + 1 ∧
      (∃ v, u ++ v ∈ L) ∧ ∀ v, u ++ a :: v ∉ L) ∧
    (∀ h : Head, h.render <+: w → fed.2.2.2 = h.fill req ∧
      (decimalValue h.major < 0x80000000 → fed.2.2.2.httpVersionMajor = decimalValue h.major) ∧
      (decimalValue h.minor < 0x80000000 → fed.2.2.2.httpVersionMinor = decimalValue h.minor)) := by
  intro req w one fed
  have hreq : req.Empty := ⟨rfl, rfl, rfl⟩
  have hfed : fed = (one.result, w.length - one.begin_.length, one.parser, one.req) :=
    feed_eq_parse fresh req chunks
  refine ⟨hfed, ?_, ?_, ?_, ?_, ?_⟩
  · rw [hfed]
    exact parse_true_iff hreq w
  · rintro _ ⟨h, rfl⟩ ⟨v, hv⟩
    obtain ⟨p, hp⟩ := parse_render hreq h v
    have hone : one.begin_ = v := by simp only [one, ← hv, hp]
    refine ⟨by simp [hfed, hone, ← hv], ?_⟩
    intro u' hu' hw'
    have hw : h.render <+: w := ⟨v, hv⟩
    rcases List.prefix_or_prefix_of_prefix hw' hw with hpre | hpre
    · exact eq_of_prefix_of_mem_L hu' ⟨h, rfl⟩ hpre
    · exact (eq_of_prefix_of_mem_L ⟨h, rfl⟩ hu' hpre).symm
  · rw [hfed]
    exact parse_indeterminate_iff hreq w
  · intro hfalse
    rw [hfed] at hfalse
    obtain ⟨u, a, hw, hlive, hdead⟩ := parse_false_spec hreq hfalse
    refine ⟨u, a, one.begin_, hw, ?_, hlive, hdead⟩
    have hlen : w.length = u.length + (one.begin_.length + 1) := by
      simpa using congrArg List.length hw
    simp only [hfed]
    omega
  · rintro h ⟨v, hv⟩
    obtain ⟨p, hp⟩ := parse_render hreq h v
    have hfill : fed.2.2.2 = h.fill req := by simp only [hfed, one, ← hv, hp]
    refine ⟨hfill, ?_, ?_⟩
    · intro hlt
      rw [hfill, Head.fill_httpVersionMajor, versionNumber_of_lt hlt]
    · intro hlt
      rw [hfill, Head.fill_httpVersionMinor, versionNumber_of_lt hlt]

end RequestParser

end BtcServer.HttpmessageServer
