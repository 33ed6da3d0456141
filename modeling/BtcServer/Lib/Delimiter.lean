import Mathlib.Data.List.Infix

/-!
# Cutting a stream at a delimiter

`splitAfter d l` cuts `l` just past the first occurrence of `d`.  The cut is fixed by the bytes up
to it: `splitAfter_append_right` says that bytes arriving later do not move it, which is what makes
reading up to a delimiter independent of how a stream is delivered.
-/

namespace BtcServer.Lib

variable {α : Type*} [DecidableEq α] {d l b r m : List α}

/-- Cut a list just past the first occurrence of `d`. -/
def splitAfter (d : List α) : List α → Option (List α × List α)
  | [] => if d = [] then some ([], []) else none
  | a :: l =>
      if d <+: a :: l then some (d, (a :: l).drop d.length)
      else (splitAfter d l).map fun cut => (a :: cut.1, cut.2)

theorem splitAfter_eq_append (h : splitAfter d l = some (b, r)) : l = b ++ r := by
  induction l generalizing b r with
  | nil =>
      rw [splitAfter] at h
      split at h <;> simp_all
  | cons a l ih =>
      rw [splitAfter] at h
      split at h
      case isTrue hd =>
        obtain ⟨rfl, rfl⟩ := by simpa using h
        exact (List.prefix_iff_eq_append.mp hd).symm
      case isFalse =>
        obtain ⟨⟨b', r'⟩, hcut, heq⟩ := Option.map_eq_some_iff.mp h
        obtain ⟨rfl, rfl⟩ := by simpa using heq
        rw [List.cons_append, ← ih hcut]

theorem splitAfter_suffix (h : splitAfter d l = some (b, r)) : d <:+ b := by
  induction l generalizing b r with
  | nil =>
      rw [splitAfter] at h
      split at h <;> simp_all
  | cons a l ih =>
      rw [splitAfter] at h
      split at h
      case isTrue hd =>
        obtain ⟨rfl, rfl⟩ := by simpa using h
        exact List.suffix_refl _
      case isFalse =>
        obtain ⟨⟨b', r'⟩, hcut, heq⟩ := Option.map_eq_some_iff.mp h
        obtain ⟨rfl, rfl⟩ := by simpa using heq
        exact (ih hcut).trans (List.suffix_cons a b')

theorem splitAfter_first (h : splitAfter d l = some (b, r)) {c : List α} (hc : c <+: l)
    (hd : d <:+ c) : b <+: c := by
  induction l generalizing b r c with
  | nil =>
      obtain rfl := List.prefix_nil.mp hc
      obtain rfl := List.suffix_nil.mp hd
      obtain ⟨rfl, rfl⟩ := by simpa [splitAfter] using h
      exact List.prefix_refl _
  | cons a l ih =>
      rw [splitAfter] at h
      split at h
      case isTrue hp =>
        obtain ⟨rfl, rfl⟩ := by simpa using h
        exact List.prefix_of_prefix_length_le hp hc hd.length_le
      case isFalse hp =>
        obtain ⟨⟨b', r'⟩, hcut, heq⟩ := Option.map_eq_some_iff.mp h
        obtain ⟨rfl, rfl⟩ := by simpa using heq
        cases c with
        | nil => exact absurd (List.suffix_nil.mp hd ▸ List.nil_prefix) hp
        | cons a' c =>
            obtain ⟨rfl, hcl⟩ := List.cons_prefix_cons.mp hc
            rcases List.suffix_cons_iff.mp hd with rfl | hd'
            · exact absurd hc hp
            · exact List.cons_prefix_cons.mpr ⟨rfl, ih hcut hcl hd'⟩

theorem splitAfter_isSome (h : d <:+: l) : (splitAfter d l).isSome := by
  induction l with
  | nil => simp [splitAfter, List.infix_nil.mp h]
  | cons a l ih =>
      rw [splitAfter]
      split
      case isTrue => rfl
      case isFalse hp =>
        rcases List.infix_cons_iff.mp h with hpre | hin
        · exact absurd hpre hp
        · simpa using ih hin

theorem splitAfter_eq_some_iff : splitAfter d l = some (b, r) ↔
    l = b ++ r ∧ d <:+ b ∧ ∀ c, c <+: l → d <:+ c → b <+: c := by
  constructor
  · intro h
    exact ⟨splitAfter_eq_append h, splitAfter_suffix h, fun c => splitAfter_first h⟩
  · rintro ⟨rfl, hd, hfirst⟩
    obtain ⟨⟨b', r'⟩, hcut⟩ := Option.isSome_iff_exists.mp
      (splitAfter_isSome (hd.isInfix.trans (List.prefix_append b r).isInfix))
    have hbb' := hfirst b' ⟨r', (splitAfter_eq_append hcut).symm⟩ (splitAfter_suffix hcut)
    have hb'b := splitAfter_first hcut (List.prefix_append b r) hd
    obtain rfl := hbb'.eq_of_length_le hb'b.length_le
    obtain rfl := List.append_cancel_left (splitAfter_eq_append hcut)
    exact hcut

/-- What arrives behind the cut does not move it. -/
theorem splitAfter_append_right (h : splitAfter d l = some (b, r)) (m : List α) :
    splitAfter d (l ++ m) = some (b, r ++ m) := by
  obtain ⟨rfl, hd, hfirst⟩ := splitAfter_eq_some_iff.mp h
  refine splitAfter_eq_some_iff.mpr ⟨by simp, hd, ?_⟩
  intro c hc hdc
  have hb : b <+: b ++ r ++ m := by simp
  rcases Nat.le_total b.length c.length with hle | hle
  · exact List.prefix_of_prefix_length_le hb hc hle
  · exact hfirst c ((List.prefix_of_prefix_length_le hc hb hle).trans (List.prefix_append b r)) hdc

theorem splitAfter_of_length_lt (h : l.length < d.length) : splitAfter d l = none := by
  cases hcut : splitAfter d l with
  | none => rfl
  | some cut =>
      have hinfix := (splitAfter_suffix hcut).length_le
      have hlength := congrArg List.length (splitAfter_eq_append hcut)
      rw [List.length_append] at hlength
      omega

theorem splitAfter_length_le (h : splitAfter d l = some (b, r)) : d.length ≤ b.length :=
  (splitAfter_suffix h).length_le

end BtcServer.Lib
