import BtcServer.DbproxyServer.Pools
import BtcServer.Lib.Run
import Mathlib.Data.Finset.Card

/-!
# Who holds the handles of libpq

Databases hold connections, and callers hold results.  Each function keeps the books (`Inv`): what
is open is what somebody holds, whatever libpq answers and whatever is thrown.  So every handle is
used and given back only while it is open, and given back once (`handles_of_run`).
-/

namespace BtcServer.DbproxyServer

open HttpmessageServer (Bytes str)
open Lib

namespace DbProxy

/-! ## Who holds what -/

def events (s : DbProxy) : List (HandleEvent Handle) := s.calls.flatMap LibpqCall.events

/-- The databases hold connections, and the callers results. -/
def Holds (s : DbProxy) : Handle → Prop
  | .conn c => ∃ d, s.pgConn d = some (some c)
  | .result h => (s.results h).isSome

variable {s t : DbProxy} {a : Action} {P : Handle → Prop} {d h : Nat}

theorem events_callAll (s : DbProxy) (calls : List LibpqCall) :
    (s.callAll calls).events = s.events ++ calls.flatMap LibpqCall.events :=
  List.flatMap_append

theorem events_replace (s : DbProxy) (d : Nat) (conn : Option (Option Nat)) :
    (s.replace d conn).events =
      s.events ++ (s.pgConn d).join.toList.map fun c => .closed (.conn c) := by
  unfold replace events
  rw [List.flatMap_append]
  cases hconn : s.pgConn d with
  | none => rfl
  | some old => exact congrArg _ (List.append_nil _)

def Alone (s : DbProxy) : Prop :=
  ∀ d d' c, s.pgConn d = some (some c) → s.pgConn d' = some (some c) → d = d'

theorem holds_replace (hs : s.Alone) (d : Nat) (conn : Option (Option Nat)) (g : Handle) :
    (s.replace d conn).Holds g ↔ conn.join.map .conn = some g ∨
      s.Holds g ∧ ∀ c, s.pgConn d = some (some c) → g ≠ .conn c := by
  cases g with
  | result h =>
      constructor
      · exact fun hr => .inr ⟨hr, fun _ _ => nofun⟩
      · rintro (hconn | ⟨hr, -⟩)
        · simp at hconn
        · exact hr
  | conn x =>
      have hnew : conn.join.map Handle.conn = some (.conn x) ↔ conn = some (some x) := by
        simp [Option.join_eq_some_iff]
      rw [hnew]
      constructor
      · rintro ⟨d', hd'⟩
        change Function.update s.pgConn d conn d' = some (some x) at hd'
        by_cases hd : d' = d
        · subst hd
          rw [Function.update_self] at hd'
          exact .inl hd'
        · rw [Function.update_of_ne hd] at hd'
          refine .inr ⟨⟨d', hd'⟩, fun c hc hx => ?_⟩
          obtain rfl := Handle.conn.inj hx
          exact hd (hs _ _ _ hd' hc)
      · rintro (rfl | ⟨⟨d', hold⟩, hother⟩)
        · exact ⟨d, Function.update_self ..⟩
        · have hd : d' ≠ d := by
            rintro rfl
            exact hother x hold rfl
          exact ⟨d', (Function.update_of_ne hd ..).trans hold⟩

theorem owns_replace (hs : s.Alone) {conn : Option (Option Nat)}
    (hnew : ∀ c, s.pgConn d = some (some c) → conn ≠ some (some c))
    (h : Owns s.events fun g => conn.join.map .conn = some g ∨ s.Holds g) :
    Owns (s.replace d conn).events (s.replace d conn).Holds := by
  rw [events_replace]
  cases hconn : (s.pgConn d).join with
  | none =>
      have hnone (c : Nat) : s.pgConn d ≠ some (some c) := by
        intro hc
        rw [hc] at hconn
        cases hconn
      rw [Option.toList_none, List.map_nil, List.append_nil]
      refine h.congr fun g => ?_
      rw [holds_replace hs]
      simp [hnone]
  | some c =>
      have hc := Option.join_eq_some_iff.mp hconn
      have hold : s.Holds (.conn c) := ⟨d, hc⟩
      refine (h.closed (.inr hold)).congr fun g => ?_
      rw [holds_replace hs]
      constructor
      · rintro ⟨hnew' | hg, hne⟩
        · exact .inl hnew'
        · refine .inr ⟨hg, fun c' hc' => ?_⟩
          obtain rfl := Option.some.inj (Option.some.inj (hc.symm.trans hc'))
          exact hne
      · rintro (hg | ⟨hg, hother⟩)
        · refine ⟨.inl hg, ?_⟩
          rintro rfl
          apply hnew c hc
          simpa [Option.join_eq_some_iff] using hg
        · exact ⟨.inr hg, hother c hc⟩

/-- Handles in the log were given out, databases that have a connection are those that `getDB`
gives, and it gives those of two pools. -/
structure Inv (s : DbProxy) : Prop where
  owns : Owns s.events s.Holds
  fresh : ∀ g, .opened g ∈ s.events → g.number < s.pointers
  alone : s.Alone
  keys : ∀ key d, s.getDB key = some d → (key = str "read" ∨ key = str "write") ∧ d < s.created
  pooled : ∀ d, s.pgConn d ≠ none → ∃ key, s.getDB key = some d

theorem Inv.number_lt (hs : s.Inv) {g : Handle} (hg : s.Holds g) : g.number < s.pointers :=
  hs.fresh g ((hs.owns.live_iff g).mpr hg).1

theorem Inv.unopened (hs : s.Inv) {g : Handle} (hg : g.number = s.pointers) :
    .opened g ∉ s.events := by
  intro hmem
  have hlt := hs.fresh g hmem
  omega

theorem Inv.of_owns (hs : s.Inv) (hconn : t.pgConn = s.pgConn)
    (hpools : t.mPGDBPools = s.mPGDBPools) (hcreated : t.created = s.created)
    (howns : Owns t.events t.Holds) (hfresh : ∀ g, .opened g ∈ t.events → g.number < t.pointers) :
    t.Inv where
  owns := howns
  fresh := hfresh
  alone d d' c hd hd' := hs.alone d d' c (hconn ▸ hd) (hconn ▸ hd')
  keys key d hd := by
    unfold getDB at hd
    rw [hpools] at hd
    rw [hcreated]
    exact hs.keys key d hd
  pooled d hd := by
    unfold getDB
    rw [hpools]
    exact hs.pooled d (hconn ▸ hd)

/-! ## A database -/

theorem owns_connectdb (hs : s.Inv) {conn : Option Nat}
    (hnew : ∀ c, conn = some c → c = s.pointers) :
    Owns (s.callAll [.connectdb conn]).events fun g => conn.map .conn = some g ∨ s.Holds g := by
  rw [events_callAll]
  cases conn with
  | none =>
      have hevents : s.events ++ [LibpqCall.connectdb none].flatMap LibpqCall.events = s.events :=
        List.append_nil _
      rw [hevents]
      exact hs.owns.congr fun g => by simp
  | some c =>
      have hc : .opened (.conn c) ∉ s.events := hs.unopened (hnew c rfl)
      refine (hs.owns.opened hc).congr fun g => ?_
      simp [eq_comm]

theorem opened_mem_callAll {calls : List LibpqCall} (hs : ∀ g, .opened g ∈ s.events → P g)
    (hcalls : ∀ c ∈ calls, ∀ g, .opened g ∈ c.events → P g) :
    ∀ g, .opened g ∈ (s.callAll calls).events → P g := by
  intro g hg
  rw [events_callAll] at hg
  rcases List.mem_append.mp hg with hold | hnew
  · exact hs g hold
  · obtain ⟨c, hc, hg⟩ := List.mem_flatMap.mp hnew
    exact hcalls c hc g hg

theorem not_opened_resultStatus (result : Option Nat) (g : Handle) :
    .opened g ∉ (LibpqCall.resultStatus result).events := by
  simp [LibpqCall.events]

theorem not_opened_clear (result : Option Nat) (g : Handle) :
    .opened g ∉ (LibpqCall.clear result).events := by
  simp [LibpqCall.events]

theorem opened_mem_callAll_singleton {c : LibpqCall} (hc : ∀ g, .opened g ∉ c.events)
    (hs : ∀ g, .opened g ∈ s.events → P g) :
    ∀ g, .opened g ∈ (s.callAll [c]).events → P g := by
  apply opened_mem_callAll hs
  intro c' hmem g hg
  obtain rfl := List.mem_singleton.mp hmem
  exact absurd hg (hc g)

theorem opened_mem_replace {conn : Option (Option Nat)} {g : Handle}
    (hg : .opened g ∈ (s.replace d conn).events) : .opened g ∈ s.events := by
  rw [events_replace] at hg
  rcases List.mem_append.mp hg with hold | hnew
  · exact hold
  · obtain ⟨c, -, hc⟩ := List.mem_map.mp hnew
    cases hc

theorem Alone.replace (hs : s.Alone) {conn : Option Nat}
    (hnew : ∀ c, conn = some c → ∀ d', s.pgConn d' ≠ some (some c)) :
    (s.replace d (some conn)).Alone := by
  intro d₁ d₂ c h₁ h₂
  change Function.update s.pgConn d (some conn) d₁ = some (some c) at h₁
  change Function.update s.pgConn d (some conn) d₂ = some (some c) at h₂
  by_cases hd₁ : d₁ = d <;> by_cases hd₂ : d₂ = d
  · rw [hd₁, hd₂]
  · -- the new connection is held by no other database
    subst hd₁
    rw [Function.update_self] at h₁
    rw [Function.update_of_ne hd₂] at h₂
    exact absurd h₂ (hnew c (Option.some.inj h₁) d₂)
  · subst hd₂
    rw [Function.update_self] at h₂
    rw [Function.update_of_ne hd₁] at h₁
    exact absurd h₁ (hnew c (Option.some.inj h₂) d₁)
  · rw [Function.update_of_ne hd₁] at h₁
    rw [Function.update_of_ne hd₂] at h₂
    exact hs d₁ d₂ c h₁ h₂

theorem Inv.replace (hs : s.Inv) {key : Bytes} (hd : s.getDB key = some d)
    {conn : Option Nat} (hnew : ∀ c, conn = some c → ∀ d', s.pgConn d' ≠ some (some c))
    (howns : Owns t.events fun g => conn.map .conn = some g ∨ s.Holds g)
    (hfresh : ∀ g, .opened g ∈ t.events → g.number < t.pointers)
    (ht : t = { s with pointers := t.pointers, calls := t.calls }) :
    (t.replace d (some conn)).Inv := by
  have hconns : t.pgConn = s.pgConn := by rw [ht]
  have hholds : t.Holds = s.Holds := by rw [ht]; rfl
  have halone : t.Alone := by
    unfold Alone
    rw [hconns]
    exact hs.alone
  have hgetDB : (t.replace d (some conn)).getDB = s.getDB := by rw [ht]; rfl
  refine ⟨?_, fun g hg => hfresh g (opened_mem_replace hg), ?_, ?_, ?_⟩
  · apply owns_replace halone
    · intro c hc heq
      exact hnew c (Option.some.inj heq) d (hconns ▸ hc)
    · rw [hholds]
      exact howns
  · exact halone.replace fun c hc d' => hconns ▸ hnew c hc d'
  · intro key' d' hd'
    rw [hgetDB] at hd'
    have hcreated : (t.replace d (some conn)).created = s.created := by rw [ht]; rfl
    rw [hcreated]
    exact hs.keys key' d' hd'
  · intro d' hd'
    rw [hgetDB]
    by_cases heq : d' = d
    · exact ⟨key, heq ▸ hd⟩
    · apply hs.pooled d'
      change Function.update t.pgConn d (some conn) d' ≠ none at hd'
      rwa [Function.update_of_ne heq, hconns] at hd'

theorem Inv.used (hs : s.Inv) {g : Handle} (hg : s.Holds g) (calls : List LibpqCall)
    (hcalls : ∀ c ∈ calls, ∀ e ∈ c.events, e = .used g) : (s.callAll calls).Inv := by
  have hevents : ∀ e ∈ calls.flatMap LibpqCall.events, e = .used g := by
    intro e he
    obtain ⟨c, hc, he⟩ := List.mem_flatMap.mp he
    exact hcalls c hc e he
  refine hs.of_owns rfl rfl rfl ?_ ?_
  · rw [events_callAll]
    exact hs.owns.usedAll hg hevents
  · apply opened_mem_callAll (P := fun g => g.number < s.pointers) hs.fresh
    intro c hc g' hg'
    cases hcalls c hc _ hg'

theorem Inv.fresh_succ (hs : s.Inv) (g : Handle) (hg : .opened g ∈ s.events) :
    g.number < s.pointers + 1 :=
  Nat.lt_succ_of_lt (hs.fresh g hg)

theorem inv_connectdb (hs : s.Inv) {key : Bytes} (hd : s.getDB key = some d) (conn : Option Nat)
    (hconn : ∀ c, conn = some c → c = s.pointers) :
    (({ s with pointers := s.pointers + 1 }.callAll [.connectdb conn]).replace
      d (some conn)).Inv := by
  refine hs.replace hd (fun c hc d' hheld => ?_) (owns_connectdb hs hconn) ?_ rfl
  · have hholds : s.Holds (.conn c) := ⟨d', hheld⟩
    have hlt : c < s.pointers := hs.number_lt hholds
    rw [hconn c hc] at hlt
    exact Nat.lt_irrefl _ hlt
  · apply opened_mem_callAll (P := fun g => g.number < s.pointers + 1) hs.fresh_succ
    intro call hcall g hg
    obtain rfl := List.mem_singleton.mp hcall
    cases conn with
    | none => cases hg
    | some c =>
        obtain rfl := HandleEvent.opened.inj (List.mem_singleton.mp hg)
        exact Nat.lt_succ_of_le (Nat.le_of_eq (hconn c rfl))

theorem inv_Init (hs : s.Inv) {key : Bytes} (hd : s.getDB key = some d)
    (answer : Option ConnStatusType) : (s.Init d answer).2.Inv := by
  cases answer with
  | none => exact inv_connectdb hs hd none fun _ hc => by cases hc
  | some status =>
      have hreset := inv_connectdb hs hd (some s.pointers) fun _ hc => (Option.some.inj hc).symm
      have hheld : (({ s with pointers := s.pointers + 1 }.callAll
          [.connectdb (some s.pointers)]).replace d (some (some s.pointers))).Holds
            (.conn s.pointers) := ⟨d, Function.update_self ..⟩
      have hstatus := hreset.used hheld [.status (some s.pointers)] fun c hc e he => by
        obtain rfl := List.mem_singleton.mp hc
        exact List.mem_singleton.mp he
      unfold Init
      dsimp only [Option.map_some]
      split_ifs
      · exact hstatus
      · exact hstatus

/-! ## Statements -/

theorem owns_exec (hs : s.Inv) (d : Nat) (strSql : Bytes) (result : Option Nat)
    (hnew : ∀ h, result = some h → h = s.pointers) :
    Owns (s.callAll [.exec (s.pgConn d).join strSql result]).events
      fun g => result.map .result = some g ∨ s.Holds g := by
  have hasked :
      Owns (s.events ++ (s.pgConn d).join.toList.map fun c => .used (.conn c)) s.Holds := by
    cases hconn : (s.pgConn d).join with
    | none => exact (List.append_nil s.events).symm ▸ hs.owns
    | some c => exact hs.owns.used ⟨d, Option.join_eq_some_iff.mp hconn⟩
  have hunopened (h : Nat) (hh : result = some h) : .opened (.result h) ∉
      s.events ++ (s.pgConn d).join.toList.map fun c => HandleEvent.used (Handle.conn c) := by
    intro hmem
    rcases List.mem_append.mp hmem with hold | hused
    · exact hs.unopened (g := .result h) (hnew h hh) hold
    · obtain ⟨c, -, hc⟩ := List.mem_map.mp hused
      cases hc
  have hevents : (s.callAll [.exec (s.pgConn d).join strSql result]).events =
      (s.events ++ (s.pgConn d).join.toList.map fun c => .used (.conn c)) ++
        result.toList.map fun h => .opened (.result h) := by
    rw [events_callAll, List.append_assoc]
    exact congrArg _ (List.append_nil _)
  rw [hevents]
  cases result with
  | none =>
      rw [Option.toList_none, List.map_nil, List.append_nil]
      exact hasked.congr fun g => by simp
  | some h =>
      refine (hasked.opened (hunopened h rfl)).congr fun g => ?_
      simp [eq_comm]

theorem Inv.unheld (hs : s.Inv) : ¬ s.Holds (.result s.pointers) :=
  fun hheld => Nat.lt_irrefl _ (hs.number_lt hheld)

theorem events_clear_none (s : DbProxy) : (s.callAll [.clear none]).events = s.events := by
  rw [events_callAll]
  exact List.append_nil _

theorem owns_clear (ht : Owns t.events fun g => g = .result h ∨ s.Holds g)
    (hh : ¬ s.Holds (.result h)) : Owns (t.callAll [.clear (some h)]).events s.Holds := by
  rw [events_callAll]
  refine (ht.closed (.inl rfl)).congr fun g => ?_
  constructor
  · rintro ⟨hnew | hold, hne⟩
    · exact absurd hnew hne
    · exact hold
  · intro hold
    refine ⟨.inr hold, ?_⟩
    rintro rfl
    exact hh hold

/-- `h` is the one open result that no caller holds yet, and databases, pools and what callers hold
are as before. -/
structure Executed (s : DbProxy) (h : Nat) (t : DbProxy) : Prop where
  conns_eq : t.pgConn = s.pgConn
  pools_eq : t.mPGDBPools = s.mPGDBPools
  created_eq : t.created = s.created
  results_eq : t.results = s.results
  owns : Owns t.events fun g => g = .result h ∨ s.Holds g
  fresh : ∀ g, .opened g ∈ t.events → g.number < t.pointers

theorem Executed.holds_eq (ht : Executed s h t) : t.Holds = s.Holds := by
  funext g
  cases g with
  | conn c => exact congrArg (fun f => ∃ d, f d = some (some c)) ht.conns_eq
  | result h => exact congrArg (fun f => (f h).isSome = true) ht.results_eq

theorem fresh_exec (hs : s.Inv) (d : Nat) (strSql : Bytes) (result : Option Nat)
    (hnew : ∀ h, result = some h → h = s.pointers) :
    ∀ g, .opened g ∈ (s.callAll [.exec (s.pgConn d).join strSql result]).events →
      g.number < s.pointers + 1 := by
  apply opened_mem_callAll (P := fun g => g.number < s.pointers + 1) hs.fresh_succ
  intro c hc g hg
  obtain rfl := List.mem_singleton.mp hc
  rcases List.mem_append.mp hg with hused | hopened
  · obtain ⟨_, -, heq⟩ := List.mem_map.mp hused
    cases heq
  · obtain ⟨h, hh, heq⟩ := List.mem_map.mp hopened
    obtain rfl := HandleEvent.opened.inj heq
    exact Nat.lt_succ_of_le (Nat.le_of_eq (hnew h (Option.mem_toList.mp hh)))

/-- `PQexec`, which gives a result, and `PQresultStatus` of the result. -/
def answered (s : DbProxy) (d : Nat) (strSql : Bytes) : DbProxy :=
  ({ s with pointers := s.pointers + 1 }.callAll
    [.exec (s.pgConn d).join strSql (some s.pointers)]).callAll [.resultStatus (some s.pointers)]

theorem executed_answered (hs : s.Inv) (d : Nat) (strSql : Bytes) :
    Executed s s.pointers (s.answered d strSql) := by
  have hnew (h : Nat) (hh : some s.pointers = some h) : h = s.pointers := (Option.some.inj hh).symm
  have hexec : Owns (s.callAll [.exec (s.pgConn d).join strSql (some s.pointers)]).events
      fun g => g = .result s.pointers ∨ s.Holds g :=
    (owns_exec hs d strSql _ hnew).congr fun g => by simp [eq_comm]
  refine ⟨rfl, rfl, rfl, rfl, ?_, ?_⟩
  · unfold answered
    rw [events_callAll]
    exact hexec.used (.inl rfl)
  · exact opened_mem_callAll_singleton (not_opened_resultStatus _) (fresh_exec hs d strSql _ hnew)

/-- `excute` throws and leaves everything as it was, or the caller gets a new result with the status
that it wants. -/
theorem excute_cases (hs : s.Inv) (d : Nat) (strSql : Bytes) (wanted : ExecStatusType)
    (noResult noSuccess : String) (answer : Option (ExecStatusType × PGresult)) :
    (∃ what t, s.excute d strSql wanted noResult noSuccess answer = (.error what, t) ∧ t.Inv ∧
      t.results = s.results) ∨
    ∃ p t, s.excute d strSql wanted noResult noSuccess answer = (.ok (s.pointers, p), t) ∧
      answer = some (wanted, p) ∧ Executed s s.pointers t := by
  cases answer with
  | none =>
      have hnew (h : Nat) (hh : none = some h) : h = s.pointers := by cases hh
      refine .inl ⟨noResult, _, rfl, hs.of_owns rfl rfl rfl ?_ ?_, rfl⟩
      · have hexec : Owns (s.callAll [.exec (s.pgConn d).join strSql none]).events s.Holds :=
          (owns_exec hs d strSql none hnew).congr fun g => by simp
        rw [events_clear_none]
        exact hexec
      · exact opened_mem_callAll_singleton (not_opened_clear _) (fresh_exec hs d strSql none hnew)
  | some result =>
      obtain ⟨status, p⟩ := result
      have ht := executed_answered hs d strSql
      by_cases hstatus : status = wanted
      · refine .inr ⟨p, s.answered d strSql, ?_, by rw [hstatus], ht⟩
        unfold excute
        exact if_neg (not_not.mpr hstatus)
      · refine .inl
          ⟨noSuccess, (s.answered d strSql).callAll [.clear (some s.pointers)], ?_, ?_, rfl⟩
        · unfold excute
          exact if_pos hstatus
        · refine hs.of_owns ht.conns_eq ht.pools_eq ht.created_eq (owns_clear ht.owns hs.unheld) ?_
          exact opened_mem_callAll_singleton (not_opened_clear _) ht.fresh

theorem inv_excuteSQL (hs : s.Inv) (d : Nat) (strSql : Bytes)
    (answer : Option (ExecStatusType × PGresult)) : (s.excuteSQL d strSql answer).2.Inv := by
  unfold excuteSQL
  rcases excute_cases hs d strSql .commandOk "Fail to PQexec." "Fail to exceteUpdate" answer with
    ⟨what, t, heq, ht, -⟩ | ⟨p, t, heq, -, ht⟩
  · rw [heq]
    exact ht
  · rw [heq]
    refine hs.of_owns ht.conns_eq ht.pools_eq ht.created_eq ?_ ?_
    · refine (owns_clear ht.owns hs.unheld).congr fun g => ?_
      rw [← ht.holds_eq]
      rfl
    · exact opened_mem_callAll_singleton (not_opened_clear _) ht.fresh

/-! ## Results -/

theorem holds_setResult (s : DbProxy) (h : Nat) (r : CPGDBResult) (g : Handle) :
    (s.setResult h (some r)).Holds g ↔ g = .result h ∨ s.Holds g := by
  cases g with
  | conn c => exact ⟨.inr, fun hheld => hheld.resolve_left nofun⟩
  | result h' =>
      change (Function.update s.results h (some r) h').isSome = true ↔ _
      by_cases hh : h' = h
      · simp [hh]
      · rw [Function.update_of_ne hh]
        simp [hh, Holds]

theorem holds_setResult_none (s : DbProxy) (h : Nat) (g : Handle) :
    (s.setResult h none).Holds g ↔ s.Holds g ∧ g ≠ .result h := by
  cases g with
  | conn c => exact ⟨fun hheld => ⟨hheld, nofun⟩, And.left⟩
  | result h' =>
      change (Function.update s.results h none h').isSome = true ↔ _
      by_cases hh : h' = h
      · simp [hh]
      · rw [Function.update_of_ne hh]
        simp [hh, Holds]

theorem events_createCalls {p : PGresult} :
    ∀ c ∈ CPGDBResult.createCalls h p, c.events = [.used (.result h)] := by
  simp only [CPGDBResult.createCalls, List.mem_append, List.mem_singleton, List.mem_map]
  rintro c ((rfl | ⟨_, -, rfl⟩) | rfl) <;> rfl

theorem events_printCalls {p : PGresult} :
    ∀ c ∈ CPGDBResult.printCalls h p, c.events = [.used (.result h)] := by
  simp only [CPGDBResult.printCalls, List.mem_append, List.mem_singleton, List.mem_map,
    List.mem_flatMap]
  rintro c (((rfl | ⟨_, -, rfl⟩) | rfl) | ⟨_, -, _, -, rfl⟩) <;> rfl

theorem Inv.callAll (hs : s.Inv) (hh : s.Holds (.result h)) {calls : List LibpqCall}
    (hcalls : ∀ c ∈ calls, c.events = [.used (.result h)]) : (s.callAll calls).Inv := by
  apply hs.used hh
  intro c hc e he
  rw [hcalls c hc] at he
  exact List.mem_singleton.mp he

theorem inv_excuteQuery (hs : s.Inv) (d : Nat) (strSql : Bytes)
    (answer : Option (ExecStatusType × PGresult)) : (s.excuteQuery d strSql answer).2.Inv := by
  unfold excuteQuery
  rcases excute_cases hs d strSql .tuplesOk "Fail to PQexec" "Fail to PQresultStatus" answer with
    ⟨what, t, heq, ht, -⟩ | ⟨p, t, heq, -, ht⟩
  · rw [heq]
    exact ht
  · rw [heq]
    have hinv : (t.setResult s.pointers (some (.create p))).Inv := by
      refine hs.of_owns ht.conns_eq ht.pools_eq ht.created_eq ?_ ht.fresh
      refine ht.owns.congr fun g => ?_
      rw [holds_setResult, ht.holds_eq]
    apply hinv.callAll _ events_createCalls
    exact (holds_setResult ..).mpr (.inl rfl)

theorem Inv.setResult (hs : s.Inv) (hh : s.Holds (.result h)) (r : CPGDBResult) :
    (s.setResult h (some r)).Inv := by
  refine hs.of_owns rfl rfl rfl (hs.owns.congr fun g => ?_) hs.fresh
  rw [holds_setResult]
  exact ⟨.inr, fun hg => hg.elim (fun heq => heq ▸ hh) id⟩

theorem inv_read (hs : s.Inv) (hh : s.Holds (.result h)) (r : CPGDBResult) (read : Read) :
    (s.read h r read).2.Inv := by
  unfold DbProxy.read
  split
  · exact hs
  · apply (hs.setResult hh _).callAll ((holds_setResult ..).mpr (.inl rfl))
    intro c hc
    obtain rfl := List.mem_singleton.mp hc
    rfl

theorem inv_release (hs : s.Inv) (hh : s.Holds (.result h)) : (s.release h).Inv := by
  refine hs.of_owns rfl rfl rfl ?_ ?_
  · unfold release
    rw [events_callAll]
    refine (hs.owns.closed hh).congr fun g => ?_
    exact (holds_setResult_none s h g).symm
  · exact opened_mem_callAll_singleton (not_opened_clear _) hs.fresh

theorem inv_print (hs : s.Inv) (hh : s.Holds (.result h)) (r : CPGDBResult) :
    (s.print h r).Inv := by
  have hout : ({ s with out := s.out ++ r.print } : DbProxy).Inv :=
    hs.of_owns rfl rfl rfl hs.owns hs.fresh
  exact hout.callAll hh events_printCalls

/-! ## The pools -/

theorem lookup_insertPool (pools : List (Bytes × List Nat)) (key key' : Bytes) (pool : List Nat) :
    (insertPool pools key pool).lookup key' =
      (pools.lookup key').or (if key' = key then some pool else none) := by
  unfold insertPool
  by_cases hkey : key' = key
  · subst hkey
    rw [if_pos rfl]
    cases hold : pools.lookup key' with
    | some old =>
        rw [Option.isSome_some, if_pos rfl, hold]
        rfl
    | none =>
        rw [Option.isSome_none, if_neg Bool.false_ne_true, List.lookup_append, hold,
          List.lookup_cons_self]
  · rw [if_neg hkey, Option.or_none]
    split
    · rfl
    · rw [List.lookup_append, List.lookup_cons, beq_false_of_ne hkey]
      exact Option.or_none

theorem getDB_init (s : DbProxy) (key : Bytes) :
    s.init.getDB key = ((s.mPGDBPools.lookup key).or
      ((if key = str "read" then some [s.created] else none).or
        (if key = str "write" then some [s.created + 1] else none))).bind List.head? := by
  change ((insertPool (insertPool s.mPGDBPools (str "read") [s.created]) (str "write")
    [s.created + 1]).lookup key).bind List.head? = _
  rw [lookup_insertPool, lookup_insertPool, Option.or_assoc]

theorem Inv.init (hs : s.Inv) : s.init.Inv where
  owns := hs.owns
  fresh := hs.fresh
  alone := hs.alone
  keys key d hd := by
    rw [getDB_init] at hd
    change _ ∧ d < s.created + 2
    cases hlookup : s.mPGDBPools.lookup key with
    | some pool =>
        rw [hlookup, Option.some_or] at hd
        have hold : s.getDB key = some d := by
          unfold getDB
          rw [hlookup]
          exact hd
        obtain ⟨hkey, hlt⟩ := hs.keys key d hold
        exact ⟨hkey, by omega⟩
    | none =>
        rw [hlookup, Option.none_or] at hd
        by_cases hread : key = str "read"
        · rw [if_pos hread] at hd
          obtain rfl := Option.some.inj hd
          exact ⟨.inl hread, by omega⟩
        · rw [if_neg hread, Option.none_or] at hd
          by_cases hwrite : key = str "write"
          · rw [if_pos hwrite] at hd
            obtain rfl := Option.some.inj hd
            exact ⟨.inr hwrite, by omega⟩
          · rw [if_neg hwrite] at hd
            cases hd
  pooled d hd := by
    obtain ⟨key, hkey⟩ := hs.pooled d hd
    refine ⟨key, ?_⟩
    rw [getDB_init]
    unfold getDB at hkey
    cases hlookup : s.mPGDBPools.lookup key with
    | none =>
        rw [hlookup] at hkey
        cases hkey
    | some pool =>
        rw [hlookup] at hkey
        exact hkey

/-! ## Runs -/

theorem inv_create : create.Inv where
  owns := Owns.nil.congr fun g => by cases g <;> simp [Holds, create]
  fresh _ hg := absurd hg List.not_mem_nil
  alone _ _ _ hd := by cases hd
  keys _ _ hd := by cases hd
  pooled _ hd := absurd rfl hd

theorem Inv.perform (hs : s.Inv) {outcome : Except String Unit × DbProxy}
    (h : s.perform a = some outcome) : outcome.2.Inv := by
  have hheld {h : Nat} {r : CPGDBResult} (hr : s.results h = some r) : s.Holds (.result h) :=
    Option.isSome_of_eq_some hr
  cases a with
  | init =>
      obtain rfl := Option.some.inj h
      exact hs.init
  | Init key answer =>
      obtain ⟨d, hd, rfl⟩ := Option.map_eq_some_iff.mp h
      exact inv_Init hs hd answer
  | excuteSQL key strSql answer =>
      obtain ⟨d, -, rfl⟩ := Option.map_eq_some_iff.mp h
      exact inv_excuteSQL hs d strSql answer
  | excuteQuery key strSql answer =>
      obtain ⟨d, -, rfl⟩ := Option.map_eq_some_iff.mp h
      exact inv_excuteQuery hs d strSql answer
  | read h read =>
      obtain ⟨r, hr, rfl⟩ := Option.map_eq_some_iff.mp h
      exact inv_read hs (hheld hr) r read
  | next h =>
      obtain ⟨r, hr, rfl⟩ := Option.map_eq_some_iff.mp h
      exact hs.setResult (hheld hr) _
  | print h =>
      obtain ⟨r, hr, rfl⟩ := Option.map_eq_some_iff.mp h
      exact inv_print hs (hheld hr) r
  | release h =>
      obtain ⟨r, hr, rfl⟩ := Option.map_eq_some_iff.mp h
      exact inv_release hs (hheld hr)

theorem inv_of_run {as : List Action} (h : Run step (fun _ _ => True) create as s) : s.Inv :=
  h.invariant (I := Inv)
    (fun _ _ _ _ hstep hs => by
      obtain ⟨outcome, hperform, rfl⟩ := Option.map_eq_some_iff.mp hstep
      exact hs.perform hperform)
    inv_create

theorem owns_destroyAll (l : List Nat) (hs : Owns s.events s.Holds) (halone : s.Alone) :
    Owns (l.foldl destroy s).events (l.foldl destroy s).Holds ∧
      (l.foldl destroy s).results = s.results ∧
      ∀ d c, (l.foldl destroy s).pgConn d = some (some c) → s.pgConn d = some (some c) ∧ d ∉ l := by
  induction l generalizing s with
  | nil => exact ⟨hs, rfl, fun _ _ hd => ⟨hd, List.not_mem_nil⟩⟩
  | cons d l ih =>
      have hkept (d' c : Nat) (hd' : (s.destroy d).pgConn d' = some (some c)) :
          s.pgConn d' = some (some c) ∧ d' ≠ d := by
        change Function.update s.pgConn d none d' = some (some c) at hd'
        by_cases heq : d' = d
        · rw [heq, Function.update_self] at hd'
          cases hd'
        · rw [Function.update_of_ne heq] at hd'
          exact ⟨hd', heq⟩
      have hone : Owns (s.destroy d).events (s.destroy d).Holds :=
        owns_replace halone (fun _ _ => nofun) (hs.congr fun g => by simp)
      have halone' : (s.destroy d).Alone := fun d₁ d₂ c h₁ h₂ =>
        halone d₁ d₂ c (hkept d₁ c h₁).1 (hkept d₂ c h₂).1
      obtain ⟨howns, hresults, hconns⟩ := ih hone halone'
      refine ⟨howns, hresults, fun d' c hd' => ?_⟩
      obtain ⟨hd', hnot⟩ := hconns d' c hd'
      obtain ⟨hold, hne⟩ := hkept d' c hd'
      exact ⟨hold, fun hmem => (List.mem_cons.mp hmem).elim hne hnot⟩

theorem mem_databases_of_getDB {key : Bytes} (h : s.getDB key = some d) :
    d ∈ s.mPGDBPools.reverse.flatMap Prod.snd := by
  obtain ⟨pool, hpool, hd⟩ := Option.bind_eq_some_iff.mp h
  obtain ⟨before, after, hpools, -⟩ := List.lookup_eq_some_iff.mp hpool
  refine List.mem_flatMap.mpr ⟨(key, pool), List.mem_reverse.mpr ?_, List.mem_of_mem_head? hd⟩
  rw [hpools]
  exact List.mem_append_right _ List.mem_cons_self

/-- At exit every connection is given back, and so everything when no result is held. -/
theorem Inv.exit (hs : s.Inv) (hresults : ∀ h, s.results h = none) :
    Owns s.exit.events fun _ => False := by
  obtain ⟨howns, hsame, hconns⟩ :=
    owns_destroyAll (s.mPGDBPools.reverse.flatMap Prod.snd) hs.owns hs.alone
  refine Owns.congr (P := ((s.mPGDBPools.reverse.flatMap Prod.snd).foldl destroy s).Holds)
    howns fun g => ?_
  refine ⟨fun hheld => ?_, False.elim⟩
  cases g with
  | conn c =>
      obtain ⟨d, hd⟩ := hheld
      obtain ⟨hold, hnot⟩ := hconns d c hd
      obtain ⟨key, hkey⟩ := hs.pooled d (by rw [hold]; exact Option.some_ne_none _)
      exact hnot (mem_databases_of_getDB hkey)
  | result h =>
      change (((s.mPGDBPools.reverse.flatMap Prod.snd).foldl destroy s).results h).isSome = true
        at hheld
      rw [hsame, hresults h] at hheld
      cases hheld

theorem Inv.card_le (hs : s.Inv) (conns : Finset Nat)
    (hopen : ∀ c ∈ conns, Live s.events (.conn c)) : conns.card ≤ 2 := by
  have hsubset : conns ⊆ {(((s.getDB (str "read")).bind s.pgConn).join).getD 0,
      (((s.getDB (str "write")).bind s.pgConn).join).getD 0} := by
    intro c hc
    obtain ⟨d, hd⟩ : s.Holds (.conn c) := (hs.owns.live_iff _).mp (hopen c hc)
    obtain ⟨key, hkey⟩ := hs.pooled d (by rw [hd]; exact Option.some_ne_none _)
    have hconn : ((s.getDB key).bind s.pgConn).join.getD 0 = c := by
      rw [hkey, Option.bind_some, hd]
      rfl
    rcases (hs.keys key d hkey).1 with rfl | rfl
    · rw [hconn]
      exact Finset.mem_insert_self ..
    · rw [hconn]
      exact Finset.mem_insert_of_mem (Finset.mem_singleton_self _)
  exact (Finset.card_le_card hsubset).trans Finset.card_le_two

/-- A connection that fails, a query that is refused, and one whose result goes. -/
def twoQueries : List Action :=
  [.init, .Init (str "read") (some .connectionOk), .Init (str "write") (some .connectionBad),
    .excuteQuery (str "read") (str "SELECT 1;") (some (.other, ⟨[], []⟩)),
    .excuteQuery (str "read") (str "SELECT 1;") (some (.tuplesOk, ⟨[str "c"], [[str "1"]]⟩)),
    .next 3, .release 3]

end DbProxy

end BtcServer.DbproxyServer
