import BtcServer.Lib.History

/-!
# Handles

A library gives out handles, which are to be used only until they are given back, and given back
once.  A log of what is done to handles is disciplined when this is so (`Disciplined`).
`Owns log P` says that a log is disciplined and that the open handles are those with `P`; a program
that keeps track of its handles is verified with the rules `Owns.opened`, `Owns.used` and
`Owns.closed`.
-/

namespace BtcServer.Lib

variable {η : Type*}

inductive HandleEvent (η : Type*)
  | opened (h : η)
  | used (h : η)
  | closed (h : η)
  deriving DecidableEq, Repr

def HandleEvent.handle : HandleEvent η → η
  | opened h => h
  | used h => h
  | closed h => h

def Live (log : List (HandleEvent η)) (h : η) : Prop := .opened h ∈ log ∧ .closed h ∉ log

instance [DecidableEq η] (log : List (HandleEvent η)) (h : η) : Decidable (Live log h) :=
  inferInstanceAs (Decidable (_ ∧ _))

/-- A handle that is given out is a new one, and one that is used or given back is open. -/
def Permitted (pre : List (HandleEvent η)) : HandleEvent η → Prop
  | .opened h => .opened h ∉ pre
  | .used h => Live pre h
  | .closed h => Live pre h

instance [DecidableEq η] (pre : List (HandleEvent η)) : DecidablePred (Permitted pre) := fun e => by
  unfold Permitted
  split <;> infer_instance

def Disciplined (log : List (HandleEvent η)) : Prop := Always Permitted log

instance [DecidableEq η] (log : List (HandleEvent η)) : Decidable (Disciplined log) :=
  inferInstanceAs (Decidable (Always _ _))

namespace Disciplined

variable {log pre post : List (HandleEvent η)} {h : η}

theorem opened_mem (hlog : Disciplined log) {e : HandleEvent η} (he : e ∈ log) :
    .opened e.handle ∈ log := by
  obtain ⟨pre, post, rfl⟩ := List.append_of_mem he
  have hpermitted : Permitted pre e := hlog pre e post rfl
  cases e with
  | opened h => exact List.mem_append_right _ List.mem_cons_self
  | used h => exact List.mem_append_left _ hpermitted.1
  | closed h => exact List.mem_append_left _ hpermitted.1

theorem not_mem_of_closed (hlog : Disciplined (pre ++ .closed h :: post)) {e : HandleEvent η}
    (he : e ∈ post) : e.handle ≠ h := by
  rintro rfl
  obtain ⟨before, after, rfl⟩ := List.append_of_mem he
  have hsplit : pre ++ .closed e.handle :: (before ++ e :: after) =
      (pre ++ .closed e.handle :: before) ++ e :: after := by simp
  have hpermitted : Permitted (pre ++ .closed e.handle :: before) e := hlog _ e after hsplit
  have hclosed : .closed e.handle ∈ pre ++ .closed e.handle :: before :=
    List.mem_append_right _ List.mem_cons_self
  have hopened : .opened e.handle ∈ pre ++ .closed e.handle :: before := by
    have hlive : Live pre e.handle := hlog pre (.closed e.handle) _ rfl
    exact List.mem_append_left _ hlive.1
  cases e with
  | opened h => exact hpermitted hopened
  | used h => exact hpermitted.2 hclosed
  | closed h => exact hpermitted.2 hclosed

/-- A handle is given back at most once. -/
theorem count_closed_le [DecidableEq η] (hlog : Disciplined log) (h : η) :
    log.count (.closed h) ≤ 1 := by
  by_cases hmem : .closed h ∈ log
  · obtain ⟨pre, post, rfl⟩ := List.append_of_mem hmem
    have hpre : .closed h ∉ pre := by
      have hlive : Live pre h := hlog pre (.closed h) post rfl
      exact hlive.2
    have hpost : .closed h ∉ post := fun he => hlog.not_mem_of_closed he rfl
    have hcount : (pre ++ .closed h :: post).count (.closed h) = 1 := by
      rw [List.count_append, List.count_cons_self, List.count_eq_zero.mpr hpre,
        List.count_eq_zero.mpr hpost]
    exact Nat.le_of_eq hcount
  · rw [List.count_eq_zero.mpr hmem]
    exact Nat.zero_le 1

end Disciplined

/-- The log is disciplined, and the handles with `P` are open. -/
structure Owns (log : List (HandleEvent η)) (P : η → Prop) : Prop where
  disciplined : Disciplined log
  live_iff : ∀ h, Live log h ↔ P h

namespace Owns

variable {log : List (HandleEvent η)} {P Q : η → Prop} {h : η}

theorem nil : Owns ([] : List (HandleEvent η)) fun _ => False :=
  ⟨always_nil, fun _ => ⟨fun hlive => List.not_mem_nil hlive.1, False.elim⟩⟩

theorem congr (hlog : Owns log P) (hPQ : ∀ h, P h ↔ Q h) : Owns log Q :=
  ⟨hlog.disciplined, fun h => (hlog.live_iff h).trans (hPQ h)⟩

theorem opened (hlog : Owns log P) (hnew : .opened h ∉ log) :
    Owns (log ++ [.opened h]) fun g => g = h ∨ P g := by
  have hclosed : .closed h ∉ log := fun hmem => hnew (hlog.disciplined.opened_mem hmem)
  refine ⟨always_snoc.mpr ⟨hlog.disciplined, hnew⟩, fun g => ?_⟩
  rw [← hlog.live_iff g]
  unfold Live
  simp only [List.mem_append, List.mem_singleton, HandleEvent.opened.injEq, reduceCtorEq, or_false]
  constructor
  · rintro ⟨hold | rfl, hopen⟩
    · exact .inr ⟨hold, hopen⟩
    · exact .inl rfl
  · rintro (rfl | ⟨hold, hopen⟩)
    · exact ⟨.inr rfl, hclosed⟩
    · exact ⟨.inl hold, hopen⟩

theorem used (hlog : Owns log P) (hopen : P h) : Owns (log ++ [.used h]) P := by
  refine ⟨always_snoc.mpr ⟨hlog.disciplined, (hlog.live_iff h).mpr hopen⟩, fun g => ?_⟩
  rw [← hlog.live_iff g]
  unfold Live
  simp

theorem usedAll (hlog : Owns log P) (hopen : P h) {new : List (HandleEvent η)}
    (hnew : ∀ e ∈ new, e = .used h) : Owns (log ++ new) P := by
  induction new generalizing log with
  | nil => rwa [List.append_nil]
  | cons e new ih =>
      obtain ⟨rfl, hrest⟩ := List.forall_mem_cons.mp hnew
      rw [List.append_cons]
      exact ih (hlog.used hopen) hrest

theorem closed (hlog : Owns log P) (hopen : P h) :
    Owns (log ++ [.closed h]) fun g => P g ∧ g ≠ h := by
  refine ⟨always_snoc.mpr ⟨hlog.disciplined, (hlog.live_iff h).mpr hopen⟩, fun g => ?_⟩
  rw [← hlog.live_iff g]
  unfold Live
  simp only [List.mem_append, List.mem_singleton, reduceCtorEq, or_false,
    HandleEvent.closed.injEq, not_or]
  exact (and_assoc).symm

/-- What was given out and is not open any more was given back once. -/
theorem count_closed_eq [DecidableEq η] (hlog : Owns log P) (hopened : .opened h ∈ log)
    (hclosed : ¬ P h) : log.count (.closed h) = 1 := by
  apply Nat.le_antisymm (hlog.disciplined.count_closed_le h)
  apply List.count_pos_iff.mpr
  by_contra hnot
  exact hclosed ((hlog.live_iff h).mp ⟨hopened, hnot⟩)

end Owns

end BtcServer.Lib
