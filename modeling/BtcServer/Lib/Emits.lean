import Mathlib.Data.List.Infix

/-!
# Deterministic machines with output

A machine is given by `next : σ → Option (List ε × σ)`: in a state it either halts or emits some
output and goes on.  `Emits next s out t` says that it gets from `s` to `t` with the output `out`.
Because `next` is a function, two such executions from one state are always comparable
(`Emits.linear`), and two that have halted are equal (`Emits.eq_of_halted`): a concurrent system
whose runs all follow one such machine has one observable behaviour.
-/

namespace BtcServer.Lib

variable {σ ε : Type*}

inductive Emits (next : σ → Option (List ε × σ)) : σ → List ε → σ → Prop
  | refl (s : σ) : Emits next s [] s
  | step {s t u : σ} {out rest : List ε} (hnext : next s = some (out, t))
      (hrest : Emits next t rest u) : Emits next s (out ++ rest) u

namespace Emits

variable {next : σ → Option (List ε × σ)} {s t t' u : σ} {out out' : List ε}

theorem trans (h₁ : Emits next s out t) (h₂ : Emits next t out' u) :
    Emits next s (out ++ out') u := by
  induction h₁ with
  | refl => exact h₂
  | step hnext _ ih =>
      rw [List.append_assoc]
      exact .step hnext (ih h₂)

theorem single (hnext : next s = some (out, t)) : Emits next s out t := by
  have h := Emits.step hnext (.refl t)
  rwa [List.append_nil] at h

theorem of_halted (h : Emits next s out t) (hs : next s = none) : out = [] ∧ t = s := by
  cases h with
  | refl => exact ⟨rfl, rfl⟩
  | step hnext _ => rw [hs] at hnext; cases hnext

/-- Of two executions from one state, one continues the other. -/
theorem linear (h₁ : Emits next s out t) (h₂ : Emits next s out' t') :
    (∃ more, Emits next t more t' ∧ out' = out ++ more) ∨
      ∃ more, Emits next t' more t ∧ out = out' ++ more := by
  induction h₁ generalizing out' with
  | refl s => exact .inl ⟨out', h₂, rfl⟩
  | step hnext hrest ih =>
      cases h₂ with
      | refl => exact .inr ⟨_, .step hnext hrest, rfl⟩
      | step hnext' hrest' =>
          obtain ⟨rfl, rfl⟩ := Prod.mk.inj (Option.some.inj (hnext.symm.trans hnext'))
          rcases ih hrest' with ⟨more, hmore, rfl⟩ | ⟨more, hmore, rfl⟩
          · exact .inl ⟨more, hmore, (List.append_assoc _ _ _).symm⟩
          · exact .inr ⟨more, hmore, (List.append_assoc _ _ _).symm⟩

theorem prefix_of_halted (h₁ : Emits next s out t) (h₂ : Emits next s out' t')
    (ht' : next t' = none) : out <+: out' := by
  rcases linear h₁ h₂ with ⟨more, -, rfl⟩ | ⟨more, hmore, rfl⟩
  · exact List.prefix_append out more
  · rw [(of_halted hmore ht').1, List.append_nil]

theorem eq_of_halted (h₁ : Emits next s out t) (ht : next t = none) (h₂ : Emits next s out' t')
    (ht' : next t' = none) : out = out' := by
  have hle := prefix_of_halted h₁ h₂ ht'
  exact hle.eq_of_length_le (prefix_of_halted h₂ h₁ ht).length_le

/-- A relation between the output so far and the state, kept by every `next`. -/
theorem invariant {I : List ε → σ → Prop} (pre : List ε)
    (hI : ∀ pre s out t, I pre s → next s = some (out, t) → I (pre ++ out) t)
    (h : Emits next s out t) (hs : I pre s) : I (pre ++ out) t := by
  induction h generalizing pre with
  | refl => rwa [List.append_nil]
  | step hnext _ ih =>
      rw [← List.append_assoc]
      exact ih _ (hI _ _ _ _ hs hnext)

end Emits

end BtcServer.Lib
