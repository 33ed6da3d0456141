import BtcServer.Lib.Run

/-!
# The potential method

A potential that every counted step uses up, and that other steps may fill again at a cost, bounds
how often the system can take counted steps (`Run.countP_le`).  Where every step that is `ok` uses
some of it up, the system comes to rest under every scheduler: no run is longer than the potential
(`Run.length_le`), and each can be continued to a state in which nothing can happen
(`Run.exists_rest`).
-/

namespace BtcServer.Lib

variable {σ α : Type*} {step : σ → α → Option σ} {ok : σ → α → Prop} {I : σ → Prop} {s t : σ}
  {as : List α}

/-- Nothing that is `ok` can happen. -/
def AtRest (step : σ → α → Option σ) (ok : σ → α → Prop) (s : σ) : Prop :=
  ∀ a, ok s a → step s a = none

namespace Run

/-- Counted steps use `potential` up, which every step may fill by what it adds to `cost`. -/
theorem countP_le {potential cost : σ → Nat} {counted : α → Bool} (h : Run step ok s as t)
    (hI : ∀ s a t, ok s a → step s a = some t → I s → I t)
    (hstep : ∀ s a t, ok s a → step s a = some t → I s →
      (if counted a then 1 else 0) + potential t + cost s ≤ potential s + cost t)
    (hs : I s) : as.countP counted + potential t + cost s ≤ potential s + cost t := by
  induction h with
  | nil => simp
  | cons hok hnext _ ih =>
      have hfirst := hstep _ _ _ hok hnext hs
      have hrest := ih (hI _ _ _ hok hnext hs)
      rw [List.countP_cons]
      omega

variable {potential : σ → Nat}

theorem length_le (h : Run step ok s as t) (hI : ∀ s a t, ok s a → step s a = some t → I s → I t)
    (hstep : ∀ s a t, ok s a → step s a = some t → I s → potential t < potential s) (hs : I s) :
    as.length + potential t ≤ potential s := by
  induction h with
  | nil => simp
  | cons hok hnext _ ih =>
      have hfirst := hstep _ _ _ hok hnext hs
      have hrest := ih (hI _ _ _ hok hnext hs)
      rw [List.length_cons]
      omega

theorem exists_rest (hI : ∀ s a t, ok s a → step s a = some t → I s → I t)
    (hstep : ∀ s a t, ok s a → step s a = some t → I s → potential t < potential s) (hs : I s) :
    ∃ as t, Run step ok s as t ∧ AtRest step ok t := by
  induction hn : potential s using Nat.strongRecOn generalizing s with
  | _ n ih =>
      by_cases hrest : AtRest step ok s
      · exact ⟨[], s, .nil s, hrest⟩
      · unfold AtRest at hrest
        push Not at hrest
        obtain ⟨a, hok, hsome⟩ := hrest
        obtain ⟨u, hnext⟩ := Option.ne_none_iff_exists'.mp hsome
        have hlt := hstep _ _ _ hok hnext hs
        obtain ⟨as, t, hrun, hhalted⟩ := ih _ (hn ▸ hlt) (hI _ _ _ hok hnext hs) rfl
        exact ⟨a :: as, t, .cons hok hnext hrun, hhalted⟩

end Run

end BtcServer.Lib
