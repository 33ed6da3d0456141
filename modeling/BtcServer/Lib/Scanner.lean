import Mathlib.Data.List.Basic

/-!
# Incremental scanners and the languages they decide

A scanner reads one symbol at a time and either decides (`some true`, `some false`) or asks for more
(`none`).  `scan` runs it over a word and stops at the first decision; `scanChunks` does the same
over a word that arrives in pieces, and `scanChunks_eq` says that the pieces do not matter.

`Denotes` relates a scanner to a language: every state is given the set of words that complete a
sentence from there, each with its result, and the step function has to take the derivative of that
set.  From this local condition follow the verdicts of `scan` on every word: it accepts exactly the
words with a prefix in the language, waits exactly on the proper prefixes of sentences and rejects
at the first symbol after which no sentence can follow.
-/

namespace BtcServer.Lib

variable {σ α ρ : Type*}

/-- Where a scan stopped: its verdict, the symbols it did not read, and the state it left. -/
structure Scanned (σ α : Type*) where
  verdict : Option Bool
  rest : List α
  state : σ

def scan (step : σ → α → Option Bool × σ) : σ → List α → Scanned σ α
  | s, [] => ⟨none, [], s⟩
  | s, a :: w =>
      match step s a with
      | (none, t) => scan step t w
      | (some v, t) => ⟨some v, w, t⟩

/-- Read a word that arrives in chunks up to the first decision, and count the symbols read. -/
def scanChunks (step : σ → α → Option Bool × σ) : σ → List (List α) → Option Bool × Nat × σ
  | s, [] => (none, 0, s)
  | s, c :: cs =>
      let r := scan step s c
      match r.verdict with
      | none =>
          let later := scanChunks step r.state cs
          (later.1, c.length + later.2.1, later.2.2)
      | some v => (some v, c.length - r.rest.length, r.state)

section Scan

variable {step : σ → α → Option Bool × σ} {s t : σ} {a : α} {u v w : List α} {b : Bool}

theorem scan_cons_of_none (h : step s a = (none, t)) : scan step s (a :: w) = scan step t w := by
  rw [scan, h]

theorem scan_cons_of_some (h : step s a = (some b, t)) :
    scan step s (a :: w) = ⟨some b, w, t⟩ := by
  rw [scan, h]

theorem scan_append_of_none (h : (scan step s u).verdict = none) (v : List α) :
    scan step s (u ++ v) = scan step (scan step s u).state v := by
  induction u generalizing s with
  | nil => rfl
  | cons a u ih =>
      rcases hstep : step s a with ⟨_ | b, t⟩
      · rw [scan_cons_of_none hstep] at h
        rw [List.cons_append, scan_cons_of_none hstep, scan_cons_of_none hstep, ih h]
      · rw [scan_cons_of_some hstep] at h
        cases h

theorem scan_append_of_some (h : (scan step s u).verdict = some b) (v : List α) :
    scan step s (u ++ v) = ⟨some b, (scan step s u).rest ++ v, (scan step s u).state⟩ := by
  induction u generalizing s with
  | nil => cases h
  | cons a u ih =>
      rcases hstep : step s a with ⟨_ | b', t⟩
      · rw [scan_cons_of_none hstep] at h
        rw [List.cons_append, scan_cons_of_none hstep, scan_cons_of_none hstep, ih h]
      · rw [scan_cons_of_some hstep] at h
        rw [List.cons_append, scan_cons_of_some hstep, scan_cons_of_some hstep, ← h]

theorem scan_rest_suffix (step : σ → α → Option Bool × σ) (s : σ) (w : List α) :
    (scan step s w).rest <:+ w := by
  induction w generalizing s with
  | nil => exact List.suffix_refl _
  | cons a w ih =>
      rcases hstep : step s a with ⟨_ | b', t⟩
      · rw [scan_cons_of_none hstep]
        exact (ih t).trans (List.suffix_cons a w)
      · rw [scan_cons_of_some hstep]
        exact List.suffix_cons a w

/-- A word read in chunks gets the verdict, the state and the length of one scan over the whole. -/
theorem scanChunks_eq (step : σ → α → Option Bool × σ) (s : σ) (cs : List (List α)) :
    scanChunks step s cs =
      ((scan step s cs.flatten).verdict,
        cs.flatten.length - (scan step s cs.flatten).rest.length,
        (scan step s cs.flatten).state) := by
  induction cs generalizing s with
  | nil => rfl
  | cons c cs ih =>
      rw [scanChunks, List.flatten_cons]
      cases hv : (scan step s c).verdict with
      | none =>
          have hlen := (scan_rest_suffix step (scan step s c).state cs.flatten).length_le
          simp only [ih, scan_append_of_none hv, List.length_append]
          rw [Nat.add_sub_assoc hlen]
      | some b =>
          have hlen := (scan_rest_suffix step s c).length_le
          simp only [scan_append_of_some hv, List.length_append]
          rw [Nat.add_sub_add_right]

end Scan

/-- `R s w r` says that from state `s` the word `w` completes a sentence with result `r`.  The
scanner `step` with results `out` denotes `R` when reading a symbol takes the derivative of `R`. -/
structure Denotes (step : σ → α → Option Bool × σ) (out : σ → ρ)
    (R : σ → List α → ρ → Prop) : Prop where
  nil : ∀ s r, ¬ R s [] r
  accept : ∀ {s a t}, step s a = (some true, t) → ∀ w r, R s (a :: w) r ↔ w = [] ∧ r = out t
  reject : ∀ {s a t}, step s a = (some false, t) → ∀ w r, ¬ R s (a :: w) r
  more : ∀ {s a t}, step s a = (none, t) → ∀ w r, R s (a :: w) r ↔ R t w r
  live : ∀ s, ∃ w r, R s w r

namespace Denotes

variable {step : σ → α → Option Bool × σ} {out : σ → ρ} {R : σ → List α → ρ → Prop}
  (hR : Denotes step out R) {s : σ} {u v w : List α} {r r' : ρ}

include hR

/-- A sentence is accepted, whatever follows it, and read exactly to its end. -/
theorem scan_sentence (h : R s u r) (v : List α) :
    ∃ t, scan step s (u ++ v) = ⟨some true, v, t⟩ ∧ out t = r := by
  induction u generalizing s with
  | nil => exact absurd h (hR.nil s r)
  | cons a u ih =>
      rcases hstep : step s a with ⟨_ | _ | _, t⟩
      · rw [List.cons_append, scan_cons_of_none hstep]
        exact ih ((hR.more hstep u r).mp h)
      · exact absurd h (hR.reject hstep u r)
      · obtain ⟨rfl, rfl⟩ := (hR.accept hstep u r).mp h
        exact ⟨t, scan_cons_of_some hstep, rfl⟩

theorem sentence_of_accept (h : (scan step s w).verdict = some true) :
    ∃ u, w = u ++ (scan step s w).rest ∧ R s u (out (scan step s w).state) := by
  induction w generalizing s with
  | nil => cases h
  | cons a w ih =>
      rcases hstep : step s a with ⟨_ | _ | _, t⟩
      · rw [scan_cons_of_none hstep] at h ⊢
        obtain ⟨u, hw, hu⟩ := ih h
        exact ⟨a :: u, congrArg (a :: ·) hw, (hR.more hstep u _).mpr hu⟩
      · rw [scan_cons_of_some hstep] at h
        cases h
      · rw [scan_cons_of_some hstep]
        exact ⟨[a], rfl, (hR.accept hstep [] _).mpr ⟨rfl, rfl⟩⟩

/-- No sentence is a proper prefix of another, and a word has one result. -/
theorem prefix_free (hu : R s u r) (hv : R s (u ++ v) r') : v = [] ∧ r = r' := by
  obtain ⟨t, ht, rfl⟩ := hR.scan_sentence hu v
  obtain ⟨t', ht', rfl⟩ := hR.scan_sentence hv []
  rw [List.append_nil, ht] at ht'
  obtain ⟨hnil, rfl⟩ : v = [] ∧ t = t' := by simpa using ht'
  exact ⟨hnil, rfl⟩

/-- While the scan waits, the word is a proper prefix of a sentence, and only then. -/
theorem wait_iff : (scan step s w).verdict = none ↔ ∃ v r, v ≠ [] ∧ R s (w ++ v) r := by
  constructor
  · intro h
    induction w generalizing s with
    | nil =>
        obtain ⟨v, r, hv⟩ := hR.live s
        refine ⟨v, r, ?_, hv⟩
        rintro rfl
        exact hR.nil s r hv
    | cons a w ih =>
        rcases hstep : step s a with ⟨_ | _, t⟩
        · rw [scan_cons_of_none hstep] at h
          obtain ⟨v, r, hne, hv⟩ := ih h
          exact ⟨v, r, hne, (hR.more hstep _ r).mpr hv⟩
        · rw [scan_cons_of_some hstep] at h
          cases h
  · rintro ⟨v, r, hne, hv⟩
    obtain ⟨t, hscan, -⟩ := hR.scan_sentence hv []
    cases hverdict : (scan step s w).verdict with
    | none => rfl
    | some b =>
        rw [List.append_nil, scan_append_of_some hverdict] at hscan
        obtain ⟨-, hrest, -⟩ := by simpa using hscan
        exact absurd hrest.2 hne

/-- A rejection comes at the first symbol after which no sentence can follow. -/
theorem reject_spec (h : (scan step s w).verdict = some false) :
    ∃ u a, w = u ++ a :: (scan step s w).rest ∧ (∃ v r, R s (u ++ v) r) ∧
      ∀ v r, ¬ R s (u ++ a :: v) r := by
  induction w generalizing s with
  | nil => cases h
  | cons a w ih =>
      rcases hstep : step s a with ⟨_ | _ | _, t⟩
      · rw [scan_cons_of_none hstep] at h ⊢
        obtain ⟨u, b, hw, ⟨v, r, hv⟩, hdead⟩ := ih h
        refine ⟨a :: u, b, congrArg (a :: ·) hw, ⟨v, r, (hR.more hstep _ r).mpr hv⟩, ?_⟩
        intro v r hv
        exact hdead v r ((hR.more hstep _ r).mp hv)
      · rw [scan_cons_of_some hstep]
        obtain ⟨v, r, hv⟩ := hR.live s
        exact ⟨[], a, rfl, ⟨v, r, hv⟩, fun v r => hR.reject hstep v r⟩
      · rw [scan_cons_of_some hstep] at h
        cases h

end Denotes

/-! ## Runs of a class of symbols up to a separator -/

/-- `w` is a run `v` of symbols of class `P`, a separator, and a rest, with `k v` of the rest. -/
def UpTo (P : α → Prop) (sep : α) (k : List α → List α → Prop) (w : List α) : Prop :=
  ∃ v rest, (∀ a ∈ v, P a) ∧ w = v ++ sep :: rest ∧ k v rest

section UpTo

variable {P : α → Prop} {sep a : α} {k : List α → List α → Prop} {w : List α}

@[simp] theorem not_upTo_nil : ¬ UpTo P sep k [] := by
  rintro ⟨v, rest, -, hw, -⟩
  simp at hw

theorem upTo_cons : UpTo P sep k (a :: w) ↔
    a = sep ∧ k [] w ∨ P a ∧ UpTo P sep (fun v => k (a :: v)) w := by
  constructor
  · rintro ⟨v, rest, hv, hw, hk⟩
    cases v with
    | nil =>
        obtain ⟨rfl, rfl⟩ := List.cons_eq_cons.mp hw
        exact .inl ⟨rfl, hk⟩
    | cons b v =>
        obtain ⟨rfl, rfl⟩ := List.cons_eq_cons.mp hw
        exact .inr ⟨hv a (by simp), v, rest, fun c hc => hv c (by simp [hc]), rfl, hk⟩
  · rintro (⟨rfl, hk⟩ | ⟨ha, v, rest, hv, rfl, hk⟩)
    · exact ⟨[], w, by simp, rfl, hk⟩
    · refine ⟨a :: v, rest, ?_, rfl, hk⟩
      intro c hc
      rcases List.mem_cons.mp hc with rfl | hc
      · exact ha
      · exact hv c hc

theorem upTo_sep (h : k [] w) : UpTo P sep k (sep :: w) :=
  ⟨[], w, by simp, rfl, h⟩

end UpTo

end BtcServer.Lib
