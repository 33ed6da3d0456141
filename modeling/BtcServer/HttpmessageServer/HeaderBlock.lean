import BtcServer.HttpmessageServer.ParserGrammar
import BtcServer.Lib.Delimiter

/-!
# Parsing a header block

A connection cuts its stream just past the first CRLFCRLF and hands the block to `parse` with a NUL
behind it.  Whatever state the parser is in, CRLFCRLF brings it to a verdict, so the NUL is never
read; and from the start state on an empty request the blocks that are accepted are the words of
the grammar.  After an acceptance the parser stays in `expecting_newline_3`.
-/

namespace BtcServer.HttpmessageServer

open Boost Lib Grammar

namespace RequestParser

theorem consume_cr (p : RequestParser) (req : Request) :
    consume p req '\r'.toUInt8 = reject p req ∨
      consume p req '\r'.toUInt8 = goOn .expectingNewline1 req ∨
      consume p req '\r'.toUInt8 = goOn .expectingNewline2 req ∨
      consume p req '\r'.toUInt8 = goOn .expectingNewline3 req := by
  rcases p with ⟨st⟩
  cases st <;> first
    | exact .inl rfl
    | exact .inr (.inl rfl)
    | exact .inr (.inr (.inl rfl))
    | exact .inr (.inr (.inr rfl))

theorem parse_newline (req : Request) {st : State}
    (h : st = .expectingNewline1 ∨ st = .expectingNewline2 ∨ st = .expectingNewline3) :
    (parse ⟨st⟩ req (str "\n\r\n")).result = .trueValue := by
  rcases h with rfl | rfl | rfl <;> rfl

theorem parse_crlfCrlf (p : RequestParser) (req : Request) :
    (parse p req crlfCrlf).result ≠ .indeterminateValue := by
  have hcons : crlfCrlf = '\r'.toUInt8 :: str "\n\r\n" := rfl
  rw [hcons, parse]
  rcases consume_cr p req with h | h | h | h <;> rw [h]
  · simp [reject, Tribool.or_not_toBool, Tribool.decided]
  all_goals
    simp only [goOn, Tribool.or_not_toBool, Tribool.decided, Option.isSome_none,
      Bool.false_eq_true, if_false]
    rw [parse_newline req (by simp)]
    simp

theorem parse_eq_of_scan {p : RequestParser} {req : Request} {w : Bytes} {r : Parsed}
    (h : scan scanStep (p, req) w = ⟨r.result.decided, r.begin_, r.parser, r.req⟩) :
    parse p req w = r := by
  rw [parse_eq_scan] at h
  rcases hp : parse p req w with ⟨result, rest, q, req'⟩
  obtain ⟨hresult, hrest, hq, hreq⟩ := by simpa [hp] using h
  obtain rfl := Tribool.decided_injective hresult
  rcases r with ⟨_, _, _, _⟩
  simp_all

theorem parse_append_of_decided {p : RequestParser} {req : Request} {u : Bytes}
    (h : (parse p req u).result ≠ .indeterminateValue) (v : Bytes) :
    parse p req (u ++ v) = { parse p req u with begin_ := (parse p req u).begin_ ++ v } := by
  obtain ⟨b, hb⟩ : ∃ b, (parse p req u).result.decided = some b :=
    Option.ne_none_iff_exists'.mp (mt (Tribool.decided_eq_none_iff _).mp h)
  apply parse_eq_of_scan
  have hscan := parse_eq_scan p req u
  rw [scan_append_of_some (b := b) (by rw [hscan, hb]) v, hscan, hb]

theorem parse_append_of_undecided {p : RequestParser} {req : Request} {u : Bytes}
    (h : (parse p req u).result = .indeterminateValue) (v : Bytes) :
    parse p req (u ++ v) = parse (parse p req u).parser (parse p req u).req v := by
  apply parse_eq_of_scan
  have hscan := parse_eq_scan p req u
  rw [scan_append_of_none (by rw [hscan, h]; rfl) v, hscan, parse_eq_scan]

/-- From every state, a block that ends in CRLFCRLF gets a verdict. -/
theorem parse_decided {block : Bytes} (hend : crlfCrlf <:+ block) (p : RequestParser)
    (req : Request) : (parse p req block).result ≠ .indeterminateValue := by
  obtain ⟨u, rfl⟩ := hend
  by_cases h : (parse p req u).result = .indeterminateValue
  · rw [parse_append_of_undecided h]
    exact parse_crlfCrlf _ _
  · rw [parse_append_of_decided h]
    exact h

theorem parse_block_nul {block : Bytes} (hend : crlfCrlf <:+ block) (p : RequestParser)
    (req : Request) :
    parse p req (block ++ [0]) =
      { parse p req block with begin_ := (parse p req block).begin_ ++ [0] } :=
  parse_append_of_decided (parse_decided hend p req) [0]

theorem consume_true {p : RequestParser} {req : Request} {a : UInt8}
    (h : (consume p req a).1 = .trueValue) :
    p = ⟨.expectingNewline3⟩ ∧ (consume p req a).2 = (p, req) := by
  rcases p with ⟨st⟩
  cases st with
  | expectingNewline3 => exact ⟨rfl, rfl⟩
  | _ =>
      simp only [consume] at h
      split_ifs at h <;> simp [reject, goOn] at h

theorem parser_of_parse_true {p : RequestParser} {req : Request} {w : Bytes}
    (h : (parse p req w).result = .trueValue) :
    (parse p req w).parser = ⟨.expectingNewline3⟩ := by
  induction w generalizing p req with
  | nil => cases h
  | cons a w ih =>
      rw [parse] at h ⊢
      rcases hc : consume p req a with ⟨result, q, req'⟩
      simp only [hc] at h ⊢
      split at h
      case isTrue hdecided =>
        rw [if_pos hdecided]
        have htrue : (consume p req a).1 = .trueValue := by rw [hc]; exact h
        obtain ⟨rfl, hq⟩ := consume_true htrue
        rw [hc] at hq
        exact congrArg Prod.fst hq
      case isFalse hundecided =>
        rw [if_neg hundecided]
        exact ih h

/-- From there one byte decides: the request is accepted again exactly when it is a line feed. -/
theorem parse_expectingNewline3 (req : Request) (a : UInt8) (w : Bytes) :
    parse ⟨.expectingNewline3⟩ req (a :: w) =
      ⟨Tribool.ofBool (a = '\n'.toUInt8), w, ⟨.expectingNewline3⟩, req⟩ := by
  rw [parse]
  by_cases ha : a = '\n'.toUInt8 <;>
    simp [consume, ha, Tribool.ofBool, Tribool.or_not_toBool, Tribool.decided]

theorem parse_expectingNewline3_req (req : Request) (w : Bytes) :
    (parse ⟨.expectingNewline3⟩ req w).req = req := by
  cases w with
  | nil => rfl
  | cons a w => rw [parse_expectingNewline3]

end RequestParser

namespace Grammar

theorem suffix_append_flatMap {β : Type*} {s : Bytes} {f : β → Bytes} (x : Bytes) (l : List β)
    (hx : s <:+ x) (hf : ∀ b ∈ l, s <:+ f b) : s <:+ x ++ l.flatMap f := by
  induction l generalizing x with
  | nil => simpa using hx
  | cons b l ih =>
      rw [List.flatMap_cons, ← List.append_assoc]
      exact ih _ ((hf b (by simp)).trans (List.suffix_append x (f b)))
        fun c hc => hf c (by simp [hc])

theorem crlf_suffix_render (f : Field) : crlf <:+ f.render :=
  suffix_append_flatMap _ f.folds (List.suffix_append _ crlf) fun _ _ => List.suffix_append _ crlf

theorem Head.render_suffix (h : Head) : crlfCrlf <:+ h.render := by
  obtain ⟨x, hx⟩ := suffix_append_flatMap _ h.fields
    (List.suffix_append (h.method ++ str " " ++ h.target ++ str " HTTP/" ++ h.major ++ str "." ++
      h.minor) crlf) fun f _ => crlf_suffix_render f
  refine ⟨x, ?_⟩
  rw [Head.render, ← hx, List.append_assoc]
  rfl

theorem Head.splitAfter_render (h : Head) (rest : Bytes) :
    splitAfter crlfCrlf (h.render ++ rest) = some (h.render, rest) := by
  have hreq : (Request.uninitialised 0 0 0 false).Empty := ⟨rfl, rfl, rfl⟩
  refine splitAfter_eq_some_iff.mpr ⟨rfl, h.render_suffix, ?_⟩
  intro c hc hend
  rcases List.prefix_or_prefix_of_prefix hc (List.prefix_append h.render rest) with hpre | hpre
  · obtain ⟨x, hx⟩ := hpre
    by_cases hnil : x = []
    · rw [← hx, hnil, List.append_nil]
    · have hundecided := (RequestParser.parse_indeterminate_iff hreq c).mpr
        ⟨x, hnil, h, hx.symm⟩
      exact absurd hundecided (RequestParser.parse_decided hend _ _)
  · exact hpre

end Grammar

namespace RequestParser

/-- A fresh parser accepts a block exactly when the whole block is a request head; it has then read
the block to its end. -/
theorem exists_head_of_block {req : Request} (hreq : req.Empty) {s block rest : Bytes}
    (hcut : splitAfter crlfCrlf s = some (block, rest))
    (h : (fresh.parse req (block ++ [0])).result = .trueValue) :
    ∃ hd : Head, block = hd.render ∧ (fresh.parse req (block ++ [0])).req = hd.fill req ∧
      (fresh.parse req (block ++ [0])).begin_ = [0] := by
  have hend := splitAfter_suffix hcut
  rw [parse_block_nul hend] at h ⊢
  obtain ⟨hd, hblock, hfill⟩ := exists_head_of_parse hreq h
  have hpre : hd.render <+: s := by
    rw [splitAfter_eq_append hcut]
    exact List.IsPrefix.trans ⟨_, hblock.symm⟩ (List.prefix_append block rest)
  have hlen := (splitAfter_first hcut hpre hd.render_suffix).length_le
  have hnil : (fresh.parse req block).begin_ = [] := by
    have := congrArg List.length hblock
    rw [List.length_append] at this
    exact List.eq_nil_of_length_eq_zero (by omega)
  exact ⟨hd, by rw [hblock, hnil, List.append_nil], hfill, by simp [hnil]⟩

theorem parse_head_block {req : Request} (hreq : req.Empty) (hd : Head) :
    fresh.parse req (hd.render ++ [0]) =
      ⟨.trueValue, [0], ⟨.expectingNewline3⟩, hd.fill req⟩ := by
  obtain ⟨p, hp⟩ := parse_render hreq hd [0]
  have htrue : (fresh.parse req (hd.render ++ [0])).result = .trueValue := by rw [hp]
  have hstate := parser_of_parse_true htrue
  rw [hp] at hstate ⊢
  rw [show p = _ from hstate]

end RequestParser

end BtcServer.HttpmessageServer
