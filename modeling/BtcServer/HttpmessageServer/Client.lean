import BtcServer.HttpmessageServer.HttpConnection
import BtcServer.HttpmessageServer.Grammar
import BtcServer.Lib.Delimiter
import Mathlib.Algebra.Order.Group.Nat

/-!
# The client

The other end of the responses: a client that reads a status line, header lines up to an empty one,
and as many bytes of body as "Content-Length" says.  `readResponse_response` is the round trip with
what `write_response` puts in the buffer.
-/

namespace BtcServer.HttpmessageServer

open Lib

/-- What one call of `write_response` adds to the send buffer. -/
def response (major minor : Int) (body : Bytes) : Bytes :=
  responseHead major minor body.length ++ body

/-! ## Reading -/

def readHeaderLines : Nat → Bytes → Option (Nat × Bytes)
  | 0, _ => none
  | fuel + 1, s =>
      (splitAfter crlf s).bind fun cut =>
        if cut.1 = crlf then some (0, cut.2)
        else (readHeaderLines fuel cut.2).map fun r =>
          if str "Content-Length: " <+: cut.1 then
            (decimalValue ((cut.1.drop 16).takeWhile isDecimalDigit), r.2)
          else r

def readResponse (s : Bytes) : Option (Bytes × Bytes) :=
  (splitAfter crlf s).bind fun status =>
    (readHeaderLines status.2.length status.2).bind fun r =>
      if r.1 ≤ r.2.length then some (r.2.take r.1, r.2.drop r.1) else none

def readResponses : Nat → Bytes → Option (List Bytes)
  | _, [] => some []
  | 0, _ :: _ => none
  | fuel + 1, a :: s =>
      (readResponse (a :: s)).bind fun r => (readResponses fuel r.2).map fun bodies => r.1 :: bodies

def bodiesOf (s : Bytes) : Option (List Bytes) := readResponses s.length s

/-! ## Numbers -/

theorem toNat_toUInt8_of_isDigit {c : Char} (h : c.isDigit = true) :
    c.toUInt8.toNat = c.toNat ∧ 48 ≤ c.toNat ∧ c.toNat ≤ 57 := by
  have hrange : 48 ≤ c.toNat ∧ c.toNat ≤ 57 := by
    simpa [Char.isDigit, UInt32.le_iff_toNat_le] using h
  refine ⟨?_, hrange⟩
  change c.val.toUInt8.toNat = c.toNat
  rw [UInt32.toNat_toUInt8]
  exact Nat.mod_eq_of_lt (by change c.toNat < 256; omega)

theorem isDecimalDigit_of_mem_formatInt {n : Nat} {b : UInt8} (h : b ∈ formatInt n) :
    isDecimalDigit b = true := by
  obtain ⟨c, hc, rfl⟩ := List.mem_map.mp h
  obtain ⟨hval, hlo, hhi⟩ := toNat_toUInt8_of_isDigit
    (Nat.isDigit_of_mem_toDigits (by decide) (by decide) hc)
  simp only [isDecimalDigit, Bool.and_eq_true, decide_eq_true_eq, UInt8.le_iff_toNat_le, hval,
    UInt8.reduceToNat]
  exact ⟨hlo, hhi⟩

theorem decimalValue_formatInt (n : Nat) : decimalValue (formatInt n) = n := by
  have hfold : decimalValue (formatInt n) = Nat.ofDigitChars 10 (Nat.toDigits 10 n) 0 := by
    change ((Nat.toDigits 10 n).map Char.toUInt8).foldl _ 0 = _
    rw [List.foldl_map, Nat.ofDigitChars_eq_foldl]
    apply List.foldl_ext
    intro acc c hc
    obtain ⟨hval, -, -⟩ := toNat_toUInt8_of_isDigit
      (Nat.isDigit_of_mem_toDigits (by decide) (by decide) hc)
    rw [hval]
    rfl
  rw [hfold, Nat.ofDigitChars_ten_toDigits]

theorem cr_not_mem_formatInt (x : Int) : '\r'.toUInt8 ∉ formatInt x := by
  have hnat (n : Nat) : '\r'.toUInt8 ∉ formatInt n := by
    intro h
    have := isDecimalDigit_of_mem_formatInt h
    exact absurd this (by decide)
  cases x with
  | ofNat n => exact hnat n
  | negSucc n =>
      intro h
      rcases List.mem_cons.mp h with h | h
      · exact absurd h (by decide)
      · exact hnat (n + 1) h

/-! ## The round trip -/

theorem splitAfter_crlf {line : Bytes} (h : '\r'.toUInt8 ∉ line) (rest : Bytes) :
    splitAfter crlf (line ++ crlf ++ rest) = some (line ++ crlf, rest) := by
  induction line with
  | nil => rfl
  | cons a line ih =>
      obtain ⟨ha, hline⟩ : a ≠ '\r'.toUInt8 ∧ '\r'.toUInt8 ∉ line := by
        simpa [eq_comm] using h
      have hpre : ¬ crlf <+: a :: (line ++ crlf ++ rest) := by
        intro hp
        exact ha (List.cons_prefix_cons.mp hp).1.symm
      rw [List.cons_append, List.cons_append, splitAfter, if_neg hpre, ih hline]
      rfl

theorem readHeaderLines_line {line : Bytes} (h : '\r'.toUInt8 ∉ line) (hne : line ≠ [])
    (fuel : Nat) (rest : Bytes) :
    readHeaderLines (fuel + 1) (line ++ crlf ++ rest) =
      (readHeaderLines fuel rest).map fun r =>
        if str "Content-Length: " <+: line ++ crlf then
          (decimalValue (((line ++ crlf).drop 16).takeWhile isDecimalDigit), r.2)
        else r := by
  have hlast : line ++ crlf ≠ crlf := by
    intro heq
    exact hne (List.append_left_eq_self.mp heq)
  rw [readHeaderLines, splitAfter_crlf h]
  simp only [Option.bind_some, if_neg hlast]

theorem readHeaderLines_end (fuel : Nat) (rest : Bytes) :
    readHeaderLines (fuel + 1) (crlf ++ rest) = some (0, rest) := by
  have hcut : splitAfter crlf (crlf ++ rest) = some (crlf, rest) :=
    splitAfter_crlf List.not_mem_nil rest
  rw [readHeaderLines, hcut]
  simp

theorem takeWhile_contentLength (n : Nat) :
    ((str "Content-Length: " ++ formatInt n ++ crlf).drop 16).takeWhile isDecimalDigit =
      formatInt n := by
  have hdrop : (str "Content-Length: " ++ formatInt n ++ crlf).drop 16 = formatInt n ++ crlf := by
    rw [List.append_assoc]
    exact List.drop_left' rfl
  rw [hdrop, List.takeWhile_append_of_pos fun b hb => isDecimalDigit_of_mem_formatInt hb]
  exact List.append_nil _

theorem readHeaderLines_response (n fuel : Nat) (tail : Bytes) :
    readHeaderLines (fuel + 3) (str "Content-Type: application/json" ++ crlf ++
        (str "Content-Length: " ++ formatInt n ++ crlf ++ (crlf ++ tail))) =
      some (n, tail) := by
  have hlength : '\r'.toUInt8 ∉ str "Content-Length: " ++ formatInt n := by
    rw [List.mem_append, not_or]
    exact ⟨by decide, cr_not_mem_formatInt n⟩
  have hne : str "Content-Length: " ++ formatInt n ≠ [] :=
    List.append_ne_nil_of_left_ne_nil (by decide) _
  have hname : str "Content-Length: " <+: str "Content-Length: " ++ formatInt n ++ crlf := by
    rw [List.append_assoc]
    exact List.prefix_append _ _
  have htype : ¬ str "Content-Length: " <+: str "Content-Type: application/json" ++ crlf := by
    decide
  rw [readHeaderLines_line (by decide) (by decide), readHeaderLines_line hlength hne,
    readHeaderLines_end]
  simp only [Option.map_some, if_pos hname, if_neg htype, takeWhile_contentLength,
    decimalValue_formatInt]

theorem readResponse_response (major minor : Int) (body rest : Bytes) :
    readResponse (response major minor body ++ rest) = some (body, rest) := by
  have hlines : response major minor body ++ rest =
      (str "HTTP/" ++ formatInt major ++ str "." ++ formatInt minor ++ str " 200 OK") ++ crlf ++
        (str "Content-Type: application/json" ++ crlf ++
          (str "Content-Length: " ++ formatInt body.length ++ crlf ++ (crlf ++ (body ++ rest)))) := by
    have hstatus : str " 200 OK\r\n" = str " 200 OK" ++ crlf := by decide
    have htype : str "Content-Type: application/json\r\n" =
        str "Content-Type: application/json" ++ crlf := by decide
    unfold response responseHead
    rw [hstatus, htype]
    simp only [List.append_assoc, crlf]
  have hstatus : '\r'.toUInt8 ∉
      str "HTTP/" ++ formatInt major ++ str "." ++ formatInt minor ++ str " 200 OK" := by
    simp only [List.mem_append, not_or]
    exact ⟨⟨⟨⟨by decide, cr_not_mem_formatInt major⟩, by decide⟩, cr_not_mem_formatInt minor⟩,
      by decide⟩
  obtain ⟨lines, hl⟩ : ∃ lines, lines = str "Content-Type: application/json" ++ crlf ++
      (str "Content-Length: " ++ formatInt body.length ++ crlf ++ (crlf ++ (body ++ rest))) :=
    ⟨_, rfl⟩
  obtain ⟨fuel, hfuel⟩ : ∃ fuel, lines.length = fuel + 3 := by
    refine ⟨lines.length - 3, ?_⟩
    have hlong : 3 ≤ (str "Content-Type: application/json").length := by decide
    rw [hl]
    simp only [List.length_append] at hlong ⊢
    omega
  rw [hlines, ← hl, readResponse, splitAfter_crlf hstatus, Option.bind_some, hfuel, hl,
    readHeaderLines_response, Option.bind_some, if_pos (by simp)]
  simp

theorem response_ne_nil (major minor : Int) (body : Bytes) : response major minor body ≠ [] := by
  unfold response responseHead
  simp [str]

/-- A client recovers the bodies of any sequence of responses. -/
theorem bodiesOf_responses (rs : List (Int × Int × Bytes)) :
    bodiesOf (rs.flatMap fun r => response r.1 r.2.1 r.2.2) = some (rs.map fun r => r.2.2) := by
  have hfuel (rs : List (Int × Int × Bytes)) (fuel : Nat)
      (h : (rs.flatMap fun r => response r.1 r.2.1 r.2.2).length ≤ fuel) :
      readResponses fuel (rs.flatMap fun r => response r.1 r.2.1 r.2.2) =
        some (rs.map fun r => r.2.2) := by
    induction rs generalizing fuel with
    | nil => cases fuel <;> rfl
    | cons r rs ih =>
        obtain ⟨major, minor, body⟩ := r
        have hread := readResponse_response major minor body
          (rs.flatMap fun r => response r.1 r.2.1 r.2.2)
        rw [List.flatMap_cons] at h ⊢
        rw [List.length_append] at h
        have hpos := List.length_pos_of_ne_nil (response_ne_nil major minor body)
        cases hs : response major minor body ++ rs.flatMap fun r => response r.1 r.2.1 r.2.2 with
        | nil =>
            have := congrArg List.length hs
            simp only [List.length_append, List.length_nil] at this
            omega
        | cons a s =>
            cases fuel with
            | zero => dsimp only at h; omega
            | succ fuel =>
                rw [hs] at hread
                rw [readResponses, hread]
                have hrest := ih fuel (by dsimp only at h; omega)
                rw [Option.bind_some, hrest]
                rfl
  exact hfuel rs _ le_rfl

end BtcServer.HttpmessageServer
