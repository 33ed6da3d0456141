import BtcServer.Lib.Monitor

/-!
# Serial executions

`Serial m start ops data`: the operations `ops`, each from its first statement to its last and one
after the other, take the data from `start` to `data`.  As long as nothing throws and the data is
touched only under the mutex, any interleaving of any number of callers is such an execution of the
operations in the order in which they return, and of the statements so far of the one that is inside
(`serialized_of_run`).
-/

namespace BtcServer.Lib

namespace Monitor

variable {κ β ν ω ε σ : Type*}

/-- The statements, one after the other; none of them throws. -/
inductive Executes (m : Monitor κ β ν ω ε σ) : List β → σ → σ → Prop
  | nil (data : σ) : Executes m [] data data
  | cons {b : β} {rest : List β} {answer : ν} {data data' : σ}
      (hquiet : (m.exec b answer data).2 = none)
      (h : Executes m rest (m.exec b answer data).1 data') : Executes m (b :: rest) data data'

inductive Serial (m : Monitor κ β ν ω ε σ) (start : σ) : List κ → σ → Prop
  | nil : Serial m start [] start
  | snoc {ops : List κ} {op : κ} {data data' : σ} (h : Serial m start ops data)
      (hop : Executes m (m.body op data) data data') : Serial m start (ops ++ [op]) data'

/-- The data is what the operations that have returned made of it; behind that come the statements
so far of the caller that is inside. -/
def Serialized (m : Monitor κ β ν ω ε σ) (start : σ) (s : State κ β ε σ) : Prop :=
  ∃ data, m.Serial start s.returned data ∧ (s.owner = none → s.data = data) ∧
    ∀ i op found rest, s.stages i = .inside op found rest →
      ∃ done, m.body op data = done ++ rest ∧ m.Executes done data s.data

variable {m : Monitor κ β ν ω ε σ} {s t : State κ β ε σ} {i : Nat} {b : β} {answer : ν}
  {data data' start : σ} {done : List β} {a : Action κ ν ω} {as : List (Action κ ν ω)}

theorem Executes.snoc (h : m.Executes done data data')
    (hquiet : (m.exec b answer data').2 = none) :
    m.Executes (done ++ [b]) data (m.exec b answer data').1 := by
  induction h with
  | nil data => exact .cons hquiet (.nil _)
  | cons hfirst _ ih => exact .cons hfirst (ih hquiet)

theorem Executes.eq_of_nil (h : m.Executes [] data data') : data' = data := by
  cases h
  rfl

theorem Executes.exists_of_cons {rest : List β} (h : m.Executes (b :: rest) data data') :
    ∃ answer, m.Executes rest (m.exec b answer data).1 data' := by
  cases h with
  | cons _ h => exact ⟨_, h⟩

theorem Executes.exists_of_append {rest : List β} (h : m.Executes (done ++ rest) data data') :
    ∃ middle, m.Executes done data middle ∧ m.Executes rest middle data' := by
  induction done generalizing data with
  | nil => exact ⟨data, .nil data, h⟩
  | cons b done ih =>
      cases h with
      | cons hquiet h =>
          obtain ⟨middle, hdone, hrest⟩ := ih h
          exact ⟨middle, .cons hquiet hdone, hrest⟩

theorem Serial.invariant {I : List κ → σ → Prop} {ops : List κ} (h : m.Serial start ops data)
    (hI : ∀ ops op data data', I ops data → m.Executes (m.body op data) data data' →
      I (ops ++ [op]) data') (hstart : I [] start) : I ops data := by
  induction h with
  | nil => exact hstart
  | snoc _ hop ih => exact hI _ _ _ _ ih hop

theorem Serialized.create (data : σ) : m.Serialized data (State.create data) := by
  refine ⟨data, .nil, fun _ => rfl, fun i op found rest hin => ?_⟩
  cases hin

theorem Serialized.of_stages {stage : Stage κ β ε σ} (h : m.Serialized start s)
    (howner : t.owner = s.owner) (hreturned : t.returned = s.returned) (hdata : t.data = s.data)
    (hstages : t.stages = (s.setStage i stage).stages)
    (hout : ∀ op found rest, stage ≠ .inside op found rest) : m.Serialized start t := by
  obtain ⟨data, hserial, hfree, hinside⟩ := h
  unfold Serialized
  rw [howner, hreturned, hdata]
  refine ⟨data, hserial, hfree, fun j op found rest hin => ?_⟩
  have hsame := stages_eq_of_inside i hstages hout j op found rest hin
  exact hinside j op found rest (hsame.trans hin)

theorem Serialized.step (houtside : ∀ w data, m.outside w data = data)
    (h : m.Serialized start s) (hlocked : Locked s) (hquiet : m.Quiet s a)
    (hstep : m.step s a = some t) : m.Serialized start t := by
  have hlocked' : Locked t := hlocked.step hstep
  cases a with
  | call i op =>
      obtain ⟨-, rfl⟩ := call_cases hstep
      exact h.of_stages rfl rfl rfl rfl fun _ _ _ h => by cases h
  | lock i =>
      obtain ⟨hfree, op, -, rfl⟩ := lock_cases hstep
      obtain ⟨data, hserial, hdata, -⟩ := h
      refine ⟨data, hserial, fun h => (by cases h), fun j op' found rest hin => ?_⟩
      obtain rfl : i = j := Option.some.inj (hlocked' j ⟨_, _, _, hin⟩)
      rw [show _ = Stage.inside op s.data (m.body op s.data) from
        State.stages_setStage_self ..] at hin
      cases hin
      refine ⟨[], ?_, ?_⟩
      · rw [hdata hfree]
        rfl
      · change m.Executes [] data s.data
        rw [hdata hfree]
        exact .nil data
  | exec i answer =>
      obtain ⟨op, found, b, rest, hin, rfl⟩ := exec_cases hstep
      obtain ⟨data, hserial, -, hinside⟩ := h
      obtain ⟨done, hbody, hdone⟩ := hinside i op found (b :: rest) hin
      have hnone := hquiet op found b rest hin
      have howner : s.owner = some i := hlocked i ⟨_, _, _, hin⟩
      refine ⟨data, hserial, fun hfree => (by cases howner.symm.trans hfree),
        fun j op' found' rest' hin' => ?_⟩
      obtain rfl : i = j := Option.some.inj (howner.symm.trans (hlocked' j ⟨_, _, _, hin'⟩))
      rw [show _ = Stage.after op found rest (m.exec b answer s.data).2 from
        State.stages_setStage_self .., hnone] at hin'
      cases hin'
      refine ⟨done ++ [b], ?_, hdone.snoc hnone⟩
      rw [hbody, List.append_assoc]
      rfl
  | unlock i =>
      obtain ⟨op, found, hin, rfl⟩ := unlock_cases hstep
      obtain ⟨data, hserial, -, hinside⟩ := h
      obtain ⟨done, hbody, hdone⟩ := hinside i op found [] hin
      rw [List.append_nil] at hbody
      refine ⟨s.data, .snoc hserial (hbody ▸ hdone), fun _ => rfl, fun j op' found' rest' hin' => ?_⟩
      exact absurd (hlocked' j ⟨_, _, _, hin'⟩) fun h => by cases h
  | caught i =>
      obtain ⟨-, rfl⟩ := caught_cases hstep
      exact h.of_stages rfl rfl rfl rfl fun _ _ _ h => by cases h
  | outside w =>
      obtain rfl := outside_cases hstep
      rwa [houtside]

/-- Whatever the interleaving, the operations take effect one after the other. -/
theorem serialized_of_run (houtside : ∀ w data, m.outside w data = data) (start : σ)
    (hrun : Run m.step m.Quiet (State.create start) as t) : m.Serialized start t := by
  have hinv : Locked t ∧ m.Serialized start t := by
    refine hrun.invariant (I := fun s => Locked s ∧ m.Serialized start s)
      (fun s a u hquiet hstep hs => ?_) ⟨Locked.create start, Serialized.create start⟩
    exact ⟨hs.1.step hstep, hs.2.step houtside hs.1 hquiet hstep⟩
  exact hinv.2

end Monitor

end BtcServer.Lib
