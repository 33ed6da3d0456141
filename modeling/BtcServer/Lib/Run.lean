import Mathlib.Data.Option.Basic
import Mathlib.Data.List.Basic

/-!
# Runs of a partial step function

A system is given by `step : σ → α → Option σ`: taking action `a` in state `s` either is not
possible or leads to one next state.  `Run step ok s as t` is a finite run in which every action is
`ok` in the state it is taken in; the predicate carries the assumptions under which a system is
studied.  Invariants are proved with `Run.invariant`, concrete runs are found with `exec`.
-/

namespace BtcServer.Lib

variable {σ α : Type*}

/-- A finite run whose actions are all `ok` where they are taken. -/
inductive Run (step : σ → α → Option σ) (ok : σ → α → Prop) : σ → List α → σ → Prop
  | nil (s : σ) : Run step ok s [] s
  | cons {s t u : σ} {a : α} {as : List α} (hok : ok s a) (hstep : step s a = some t)
      (hrun : Run step ok t as u) : Run step ok s (a :: as) u

namespace Run

variable {step : σ → α → Option σ} {ok : σ → α → Prop} {s t u : σ} {as bs : List α}

theorem append (h₁ : Run step ok s as t) (h₂ : Run step ok t bs u) :
    Run step ok s (as ++ bs) u := by
  induction h₁ with
  | nil => exact h₂
  | cons hok hstep _ ih => exact .cons hok hstep (ih h₂)

theorem mono {ok' : σ → α → Prop} (h : Run step ok s as t) (hok : ∀ s a, ok s a → ok' s a) :
    Run step ok' s as t := by
  induction h with
  | nil s => exact .nil s
  | cons ha hstep _ ih => exact .cons (hok _ _ ha) hstep ih

theorem and_forall {P : α → Prop} (h : Run step ok s as t) (hP : ∀ a ∈ as, P a) :
    Run step (fun s a => ok s a ∧ P a) s as t := by
  induction h with
  | nil s => exact .nil s
  | cons ha hstep _ ih =>
      exact .cons ⟨ha, hP _ List.mem_cons_self⟩ hstep
        (ih fun a ha => hP a (List.mem_cons_of_mem _ ha))

theorem forall_of_ok {P : α → Prop} (h : Run step ok s as t) (hP : ∀ s a, ok s a → P a) :
    ∀ a ∈ as, P a := by
  induction h with
  | nil => exact fun _ ha => absurd ha List.not_mem_nil
  | cons ha _ _ ih => exact List.forall_mem_cons.mpr ⟨hP _ _ ha, ih⟩

/-- What holds at the start and is kept by every allowed step holds at the end of every run. -/
theorem invariant {I : σ → Prop} (hI : ∀ s a t, ok s a → step s a = some t → I s → I t)
    (h : Run step ok s as t) (hs : I s) : I t := by
  induction h with
  | nil => exact hs
  | cons hok hstep _ ih => exact ih (hI _ _ _ hok hstep hs)

end Run

/-- `P` holds in every state of the run that takes the actions `as` from `s`, where it starts and
after each of them. -/
def Throughout (step : σ → α → Option σ) (P : σ → Prop) (s : σ) (as : List α) : Prop :=
  ∀ bs t, bs <+: as → Run step (fun _ _ => True) s bs t → P t

theorem throughout_nil {step : σ → α → Option σ} {P : σ → Prop} {s : σ} :
    Throughout step P s [] ↔ P s := by
  constructor
  · intro h
    exact h [] s (List.prefix_refl []) (.nil s)
  · rintro hs bs t hbs hrun
    obtain rfl := List.prefix_nil.mp hbs
    cases hrun
    exact hs

theorem throughout_cons {step : σ → α → Option σ} {P : σ → Prop} {s t : σ} {a : α} {as : List α}
    (hstep : step s a = some t) :
    Throughout step P s (a :: as) ↔ P s ∧ Throughout step P t as := by
  constructor
  · intro h
    refine ⟨h [] s List.nil_prefix (.nil s), fun bs u hbs hrun => ?_⟩
    exact h (a :: bs) u (List.cons_prefix_cons.mpr ⟨rfl, hbs⟩) (.cons trivial hstep hrun)
  · rintro ⟨hs, ht⟩ bs u hbs hrun
    cases hrun with
    | nil => exact hs
    | cons _ hstep' hrun =>
        obtain ⟨rfl, hrest⟩ := List.cons_prefix_cons.mp hbs
        obtain rfl := Option.some.inj (hstep.symm.trans hstep')
        exact ht _ u hrest hrun

theorem Run.throughout {step : σ → α → Option σ} {ok : σ → α → Prop} {I P : σ → Prop}
    (hP : ∀ s, I s → P s) (hI : ∀ s a t, ok s a → step s a = some t → I s → I t) {s t : σ}
    {as : List α} (h : Run step ok s as t) (hs : I s) : Throughout step P s as := by
  induction h with
  | nil s => exact throughout_nil.mpr (hP s hs)
  | cons ha hstep _ ih =>
      exact (throughout_cons hstep).mpr ⟨hP _ hs, ih (hI _ _ _ ha hstep hs)⟩

/-- Where the steps that are `ok` are those that keep `P`, a run satisfies `P` throughout exactly
when all its steps are `ok`.  The invariant `I` is what the `ok` steps keep, and gives `P`. -/
theorem Run.throughout_iff {step : σ → α → Option σ} {ok : σ → α → Prop} {I P : σ → Prop}
    (hP : ∀ s, I s → P s) (hI : ∀ s a t, ok s a → step s a = some t → I s → I t)
    (hok : ∀ s a t, I s → step s a = some t → P t → ok s a) {s t : σ} {as : List α}
    (h : Run step (fun _ _ => True) s as t) (hs : I s) :
    Throughout step P s as ↔ Run step ok s as t := by
  refine ⟨fun hall => ?_, fun hrun => hrun.throughout hP hI hs⟩
  induction h with
  | nil s => exact .nil s
  | @cons s t u a as _ hstep _ ih =>
      obtain ⟨-, hrest⟩ := (throughout_cons hstep).mp hall
      have ht : P t := hrest [] t List.nil_prefix (.nil t)
      have ha := hok s a t hs hstep ht
      exact .cons ha hstep (ih (hI s a t ha hstep hs) hrest)

def Reaches (step : σ → α → Option σ) (ok : σ → α → Prop) (s t : σ) : Prop :=
  ∃ as, Run step ok s as t

namespace Reaches

variable {step : σ → α → Option σ} {ok : σ → α → Prop} {s t u : σ}

theorem refl (s : σ) : Reaches step ok s s := ⟨[], .nil s⟩

theorem trans (h₁ : Reaches step ok s t) (h₂ : Reaches step ok t u) : Reaches step ok s u := by
  obtain ⟨as, has⟩ := h₁
  obtain ⟨bs, hbs⟩ := h₂
  exact ⟨as ++ bs, has.append hbs⟩

theorem single {a : α} (hok : ok s a) (hstep : step s a = some t) : Reaches step ok s t :=
  ⟨[a], .cons hok hstep (.nil t)⟩

end Reaches

/-- What `obs` shows of the steps that the actions `as` take from `s`. -/
def observed {β : Type*} (step : σ → α → Option σ) (obs : σ → α → Option β) : σ → List α → List β
  | _, [] => []
  | s, a :: as => (obs s a).toList ++ ((step s a).map fun t => observed step obs t as).getD []

theorem observed_cons {β : Type*} {step : σ → α → Option σ} {s t : σ} {a : α}
    (hstep : step s a = some t) (obs : σ → α → Option β) (as : List α) :
    observed step obs s (a :: as) = (obs s a).toList ++ observed step obs t as := by
  rw [observed, hstep]
  rfl

/-- What relates a state to everything shown before it is kept by a run when every step keeps it. -/
theorem Run.observed_invariant {β : Type*} {step : σ → α → Option σ} {ok : σ → α → Prop}
    (obs : σ → α → Option β) {J : List β → σ → Prop}
    (hJ : ∀ shown s a t, ok s a → step s a = some t → J shown s → J (shown ++ (obs s a).toList) t)
    {s t : σ} {as : List α} (h : Run step ok s as t) {shown : List β} (hs : J shown s) :
    J (shown ++ observed step obs s as) t := by
  induction h generalizing shown with
  | nil => rwa [observed, List.append_nil]
  | cons hok hstep _ ih =>
      rw [observed_cons hstep, ← List.append_assoc]
      exact ih (hJ _ _ _ _ hok hstep hs)

/-- Execute a list of actions; `none` when one of them is not `ok` or not possible. -/
def exec (step : σ → α → Option σ) (ok : σ → α → Prop) [∀ s a, Decidable (ok s a)] :
    σ → List α → Option σ
  | s, [] => some s
  | s, a :: as => if ok s a then (step s a).bind fun t => exec step ok t as else none

theorem exec_map {τ : Type*} {step : σ → α → Option σ} {step' : τ → α → Option τ}
    {ok : σ → α → Prop} {ok' : τ → α → Prop} [∀ s a, Decidable (ok s a)]
    [∀ t a, Decidable (ok' t a)] {f : σ → τ} (hok : ∀ s a, ok s a ↔ ok' (f s) a)
    (hstep : ∀ s a, ok s a → (step s a).map f = step' (f s) a) (s : σ) (as : List α) :
    (exec step ok s as).map f = exec step' ok' (f s) as := by
  induction as generalizing s with
  | nil => rfl
  | cons a as ih =>
      rw [exec, exec]
      by_cases h : ok s a
      · rw [if_pos h, if_pos ((hok s a).mp h), ← hstep s a h, Option.map_bind, Option.bind_map]
        exact Option.bind_congr fun t _ => ih t
      · rw [if_neg h, if_neg fun h' => h ((hok s a).mpr h')]
        rfl

theorem run_iff_exec (step : σ → α → Option σ) (ok : σ → α → Prop)
    [∀ s a, Decidable (ok s a)] (s t : σ) (as : List α) :
    Run step ok s as t ↔ exec step ok s as = some t := by
  constructor
  · intro h
    induction h with
    | nil => rfl
    | cons hok hstep _ ih => rw [exec, if_pos hok, hstep, Option.bind_some, ih]
  · intro h
    induction as generalizing s with
    | nil => obtain rfl := Option.some.inj h; exact .nil s
    | cons a as ih =>
        rw [exec] at h
        split at h
        case isTrue hok =>
          obtain ⟨u, hstep, hrest⟩ := Option.bind_eq_some_iff.mp h
          exact .cons hok hstep (ih u hrest)
        case isFalse => cases h

theorem exists_run_of_exec {step : σ → α → Option σ} {ok : σ → α → Prop}
    [∀ s a, Decidable (ok s a)] {s : σ} {as : List α} {P : σ → Prop} [DecidablePred P]
    (h : (exec step ok s as).any (fun t => P t) = true) : ∃ t, Run step ok s as t ∧ P t := by
  cases hexec : exec step ok s as with
  | none => simp [hexec] at h
  | some t => exact ⟨t, (run_iff_exec step ok s t as).mpr hexec, by simpa [hexec] using h⟩

end BtcServer.Lib
