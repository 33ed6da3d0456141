import Mathlib.Data.List.Basic

/-!
# Properties of a log

A log is a list of events, oldest first.  `Always P log` says that every event of the log stands in
relation `P` to the events before it; this is how safety properties ("no `b` after an `a`") are
stated here.  A system that only appends to its log preserves them event by event
(`always_snoc`, `always_append`).
-/

namespace BtcServer.Lib

variable {ε : Type*} {P : List ε → ε → Prop}

/-- Every event `e` of the log satisfies `P pre e`, where `pre` is what was logged before it. -/
def Always (P : List ε → ε → Prop) (log : List ε) : Prop :=
  ∀ pre e post, log = pre ++ e :: post → P pre e

@[simp] theorem always_nil : Always P [] := by
  intro pre e post h
  simp at h

theorem always_append {log new : List ε} :
    Always P (log ++ new) ↔ Always P log ∧ Always (fun pre e => P (log ++ pre) e) new := by
  constructor
  · intro h
    refine ⟨fun pre e post hl => h pre e (post ++ new) (by simp [hl]), ?_⟩
    intro pre e post hn
    exact h (log ++ pre) e post (by simp [hn])
  · rintro ⟨hlog, hnew⟩ pre e post heq
    rcases List.append_eq_append_iff.mp heq with ⟨mid, rfl, hmid⟩ | ⟨mid, hmid, hrest⟩
    · exact hnew mid e post hmid
    · cases mid with
      | nil =>
          obtain rfl : log = pre := by simpa using hmid
          simpa using hnew [] e post (by simpa using hrest.symm)
      | cons e' mid =>
          obtain ⟨rfl, rfl⟩ := List.cons_eq_cons.mp hrest
          exact hlog pre e mid hmid

@[simp] theorem always_singleton {e : ε} : Always P [e] ↔ P [] e := by
  constructor
  · intro h
    exact h [] e [] rfl
  · intro h pre e' post heq
    cases pre with
    | nil => obtain ⟨rfl, -⟩ := List.cons_eq_cons.mp heq; exact h
    | cons _ pre => simp at heq

theorem Always.append_of_forall {log new : List ε} (h : Always P log)
    (hnew : ∀ pre, ∀ e ∈ new, P (log ++ pre) e) : Always P (log ++ new) := by
  refine always_append.mpr ⟨h, fun pre e post heq => hnew pre e ?_⟩
  rw [heq]
  exact List.mem_append_right _ (List.mem_cons_self ..)

theorem always_snoc {log : List ε} {e : ε} : Always P (log ++ [e]) ↔ Always P log ∧ P log e := by
  rw [always_append, always_singleton, List.append_nil]

instance decidableAlways [∀ pre e, Decidable (P pre e)] (log : List ε) : Decidable (Always P log) :=
  decidable_of_iff (∀ i : Fin log.length, P (log.take i) (log.get i)) <| by
    constructor
    · rintro h pre e post rfl
      simpa using h ⟨pre.length, by simp⟩
    · intro h i
      exact h _ _ (log.drop (i + 1)) (by simp)

end BtcServer.Lib
