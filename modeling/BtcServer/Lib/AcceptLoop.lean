import BtcServer.Lib.Run
import Mathlib.Data.List.Nodup

/-!
# Accept loops

A server that waits for connections with one accept at a time: the handler of an accept hands the
object that was filled to a manager, constructs the next object and accepts again.  Objects are
numbered in the order of their construction.  `AcceptLoop` is what such a server shows of its loop;
`survives_iff` says when the loop of a server that moves in this way never ends.
-/

namespace BtcServer.Lib

structure AcceptLoop where
  /-- The acceptor is open. -/
  isOpen : Bool
  /-- The objects that the outstanding accepts are to fill. -/
  outstanding : List Nat
  /-- The number of the next object. -/
  next : Nat

namespace AcceptLoop

variable {l m : AcceptLoop} {handed : Option (Nat × Nat)} {c : Nat}

def rearm (l : AcceptLoop) : AcceptLoop := { l with outstanding := [l.next], next := l.next + 1 }

def lose (l : AcceptLoop) : AcceptLoop := { l with outstanding := [] }

/-- A step of the loop, with the object that is handed over and the one that the accept has
filled. -/
inductive Move (l : AcceptLoop) : Option (Nat × Nat) → AcceptLoop → Prop
  | quiet {m : AcceptLoop} (hopen : m.isOpen = true → l.isOpen = true)
      (houtstanding : m.outstanding = l.outstanding) (hnext : m.next = l.next) : Move l none m
  | rearmed {c : Nat} (hone : l.outstanding = [c]) : Move l (some (c, c)) l.rearm
  | lost {c : Nat} {handed : Option (Nat × Nat)} (hone : l.outstanding = [c])
      (hhanded : ∀ x ∈ handed, x = (c, c)) : Move l handed l.lose

/-- An open acceptor has exactly one outstanding accept. -/
def Listening (l : AcceptLoop) : Prop := l.isOpen = true → l.outstanding.length = 1

/-- At most one accept is outstanding, and its object has been constructed. -/
structure WellFormed (l : AcceptLoop) : Prop where
  length_le : l.outstanding.length ≤ 1
  lt_next : ∀ c ∈ l.outstanding, c < l.next

theorem Move.wellFormed (h : l.Move handed m) (hl : l.WellFormed) : m.WellFormed := by
  cases h with
  | quiet _ houtstanding hnext =>
      exact ⟨houtstanding ▸ hl.length_le, houtstanding ▸ hnext ▸ hl.lt_next⟩
  | rearmed hone =>
      refine ⟨Nat.le_refl 1, fun c hc => ?_⟩
      obtain rfl := List.mem_singleton.mp hc
      exact Nat.lt_succ_self _
  | lost hone hhanded => exact ⟨Nat.zero_le 1, fun c hc => by cases hc⟩

theorem listening_rearm (l : AcceptLoop) : l.rearm.Listening := fun _ => rfl

theorem listening_lose : l.lose.Listening ↔ l.isOpen = false := by
  constructor
  · intro h
    cases hopen : l.isOpen with
    | false => rfl
    | true => exact absurd (h hopen) Nat.zero_ne_one
  · intro h hopen
    exact absurd (h.symm.trans hopen) Bool.false_ne_true

theorem Listening.of_quiet (h : l.Listening) (hopen : m.isOpen = true → l.isOpen = true)
    (houtstanding : m.outstanding = l.outstanding) : m.Listening := by
  intro hm
  rw [houtstanding]
  exact h (hopen hm)

/-- The object comes from an accept that is outstanding, or is still to be constructed. -/
def Ahead (l : AcceptLoop) (c : Nat) : Prop := c ∈ l.outstanding ∨ l.next ≤ c

theorem Move.ahead (h : l.Move handed m) (hl : l.WellFormed) (hc : m.Ahead c) :
    l.Ahead c ∧ ∀ x ∈ handed, x.1 ≠ c := by
  have hnew : ∀ d, l.outstanding = [d] → l.next ≤ c → l.Ahead c ∧ d ≠ c := by
    intro d hone hle
    have hd : d < l.next := hl.lt_next d (hone ▸ List.mem_singleton_self d)
    exact ⟨.inr hle, by omega⟩
  cases h with
  | quiet _ houtstanding hnext =>
      rw [Ahead, houtstanding, hnext] at hc
      exact ⟨hc, fun x hx => by cases hx⟩
  | @rearmed d hone =>
      have hle : l.next ≤ c := by
        rcases hc with hmem | hle
        · exact Nat.le_of_eq (List.mem_singleton.mp hmem).symm
        · exact Nat.le_of_succ_le hle
      obtain ⟨hahead, hne⟩ := hnew d hone hle
      refine ⟨hahead, fun x hx => ?_⟩
      obtain rfl := Option.some.inj hx
      exact hne
  | @lost d handed hone hhanded =>
      have hle : l.next ≤ c := by
        rcases hc with hmem | hle
        · cases hmem
        · exact hle
      obtain ⟨hahead, hne⟩ := hnew d hone hle
      refine ⟨hahead, fun x hx => ?_⟩
      rw [hhanded x hx]
      exact hne

theorem Move.handed_eq (h : l.Move handed m) : ∀ x ∈ handed, x.1 = x.2 ∧ l.Ahead x.1 := by
  intro x hx
  cases h with
  | quiet => cases hx
  | @rearmed d hone =>
      obtain rfl := Option.some.inj hx
      exact ⟨rfl, .inl (hone ▸ List.mem_singleton_self d)⟩
  | @lost d handed hone hhanded =>
      rw [hhanded x hx]
      exact ⟨rfl, .inl (hone ▸ List.mem_singleton_self d)⟩

end AcceptLoop

/-! ## Servers with an accept loop -/

section Server

variable {σ α : Type*} {step : σ → α → Option σ} {view : σ → AcceptLoop}
  {handed : σ → α → Option (Nat × Nat)} {rearms : σ → α → Prop} {I : σ → Prop} {s t : σ}
  {as : List α}

/-- In the run with the actions `as` from `s`, the acceptor never is open without exactly one
outstanding accept; what is handed over is what the accept has filled, and nothing is handed over
twice. -/
structure Survives (step : σ → α → Option σ) (view : σ → AcceptLoop)
    (handed : σ → α → Option (Nat × Nat)) (s : σ) (as : List α) : Prop where
  listening : Throughout step (fun s => (view s).Listening) s as
  filled : ∀ x ∈ observed step handed s as, x.1 = x.2
  once : ((observed step handed s as).map Prod.fst).Nodup

theorem Survives.listening_of_run (h : Survives step view handed s as)
    (hrun : Run step (fun _ _ => True) s as t) : (view t).Listening :=
  h.listening as t (List.prefix_refl as) hrun

/-- The server moves as an accept loop, from the states of `I`. -/
structure Loops (step : σ → α → Option σ) (view : σ → AcceptLoop)
    (handed : σ → α → Option (Nat × Nat)) (I : σ → Prop) : Prop where
  inv : ∀ s a t, I s → step s a = some t → I t
  wellFormed : ∀ s, I s → (view s).WellFormed
  move : ∀ s a t, I s → step s a = some t → (view s).Move (handed s a) (view t)

/-- What is handed over in a run is what was filled, each time another object. -/
theorem Loops.handed_of_run (h : Loops step view handed I)
    (hrun : Run step (fun _ _ => True) s as t) (hs : I s) :
    (∀ x ∈ observed step handed s as, x.1 = x.2 ∧ (view s).Ahead x.1) ∧
      ((observed step handed s as).map Prod.fst).Nodup := by
  induction hrun with
  | nil s => exact ⟨fun x hx => (List.not_mem_nil hx).elim, List.nodup_nil⟩
  | @cons s t u a as _ hstep _ ih =>
      have hmove := h.move s a t hs hstep
      have hwf := h.wellFormed s hs
      obtain ⟨hrest, hnodup⟩ := ih (h.inv s a t hs hstep)
      rw [observed_cons hstep]
      constructor
      · intro x hx
        rcases List.mem_append.mp hx with hnow | hlater
        · exact hmove.handed_eq x (Option.mem_toList.mp hnow)
        · obtain ⟨heq, hahead⟩ := hrest x hlater
          exact ⟨heq, (hmove.ahead hwf hahead).1⟩
      · rw [List.map_append, List.nodup_append]
        refine ⟨?_, hnodup, fun c hc d hd hcd => ?_⟩
        · cases handed s a with
          | none => exact List.nodup_nil
          | some x => exact List.nodup_singleton x.1
        · obtain ⟨x, hx, rfl⟩ := List.mem_map.mp hc
          obtain ⟨y, hy, rfl⟩ := List.mem_map.mp hd
          exact (hmove.ahead hwf (hrest y hy).2).2 x (Option.mem_toList.mp hx) hcd

/-- The loop of a server survives a run exactly when every step leaves an open acceptor armed. -/
theorem Loops.survives_iff (h : Loops step view handed I)
    (hrearms : ∀ s a t, I s → (view s).Listening → step s a = some t →
      (rearms s a ↔ (view t).Listening))
    (hrun : Run step (fun _ _ => True) s as t) (hs : I s) (hlistening : (view s).Listening) :
    Survives step view handed s as ↔ Run step rearms s as t := by
  have hiff : Throughout step (fun s => (view s).Listening) s as ↔ Run step rearms s as t :=
    hrun.throughout_iff (I := fun s => I s ∧ (view s).Listening) (fun _ hs => hs.2)
      (fun s a t hok hstep hs => ⟨h.inv s a t hs.1 hstep, (hrearms s a t hs.1 hs.2 hstep).mp hok⟩)
      (fun s a t hs hstep ht => (hrearms s a t hs.1 hs.2 hstep).mpr ht) ⟨hs, hlistening⟩
  obtain ⟨hfilled, honce⟩ := h.handed_of_run hrun hs
  rw [← hiff]
  exact ⟨Survives.listening, fun ht => ⟨ht, fun x hx => (hfilled x hx).1, honce⟩⟩

end Server

end BtcServer.Lib
