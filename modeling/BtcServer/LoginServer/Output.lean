import BtcServer.LoginServer.ReadLoop
import BtcServer.LoginServer.Server
import BtcServer.LoginServer.Stopping

/-!
# What the login server prints

The server starts sessions and lets them read; it closes a socket only in a handler whose read has
failed.  So a session that the manager holds has exactly one read outstanding, and one that it does
not hold has none (`sessions_of_run`).  As there is one buffer for one read, what a session prints is
what it has received, chunk by chunk and in order (`printed_of_run`).
-/

namespace BtcServer.LoginServer

open Boost Lib
open AcceptLoop (Ahead)

/-- What `cout` makes of a chunk that is followed by a zero. -/
def line (data : List UInt8) : List UInt8 := data.takeWhile (· ≠ 0)

theorem takeWhile_append_zero (data rest : List UInt8) :
    (data ++ 0 :: rest).takeWhile (· ≠ 0) = line data := by
  unfold line
  induction data with
  | nil => rfl
  | cons b data ih =>
      rw [List.cons_append, List.takeWhile_cons, List.takeWhile_cons]
      by_cases hb : b ≠ 0
      · rw [if_pos (decide_eq_true hb), if_pos (decide_eq_true hb), ih]
      · rw [if_neg (by simpa using hb), if_neg (by simpa using hb)]

namespace Session

variable {s s' : Session} {k length : Nat} {ec : ErrorCode} {kind : IoKind} {data : List UInt8}

theorem mSocketIsOpen_fill (s : Session) (data : List UInt8) :
    (s.fill data).mSocketIsOpen = s.mSocketIsOpen := by
  unfold fill
  rfl

theorem prefix_fill (s : Session) (hle : data.length ≤ 8192) :
    data <+: (s.fill data).mBuffer.toList := by
  have hlength : (s.fill data).mBuffer.toList.length = 8192 := Vector.length_toList
  apply List.prefix_iff_eq_take.mpr
  apply List.ext_getElem
  · rw [List.length_take, hlength, Nat.min_eq_left hle]
  · intro i hi hi'
    have hlt : i < 8192 := by omega
    have hget : (s.fill data).mBuffer[i] = data[i] := by
      unfold fill
      rw [Vector.getElem_ofFn, List.getElem?_eq_getElem hi]
      rfl
    rw [List.getElem_take, Vector.getElem_toList, hget]

theorem text_terminate (h : data <+: s.mBuffer.toList) (hlt : data.length < 8192) :
    (s.terminate data.length).text = line data := by
  obtain ⟨rest, hrest⟩ := h
  have hlength : data.length + rest.length = 8192 := by
    rw [← List.length_append, hrest, Vector.length_toList]
  cases rest with
  | nil =>
      rw [List.length_nil] at hlength
      omega
  | cons b rest =>
      have hstored : (s.terminate data.length).mBuffer.toList = data ++ 0 :: rest := by
        unfold terminate
        rw [Vector.toList_setIfInBounds, ← hrest, List.set_append_right _ _ (Nat.le_refl _),
          Nat.sub_self, List.set_cons_zero]
      unfold text
      rw [hstored, takeWhile_append_zero]

/-- Where the read loop of a session is, by whether the manager holds the session and what it has
received and not printed. -/
inductive Looping (s : Session) : Prop → List (List UInt8) → Prop
  | idle {held : Prop} (hheld : ¬held) (hops : s.ops = []) : Looping s held []
  | reading {held : Prop} (hheld : held) (hopen : s.mSocketIsOpen = true)
      (hops : s.ops = [⟨.readSome 8192, none⟩]) : Looping s held []
  | delivered {held : Prop} {data : List UInt8} (hheld : held) (hopen : s.mSocketIsOpen = true)
      (hops : s.ops = [⟨.readSome 8192, some (.success, data.length)⟩])
      (hle : data.length ≤ 8192) (hbuffer : data <+: s.mBuffer.toList) : Looping s held [data]
  | failed {held : Prop} {ec : ErrorCode} (hheld : held) (hopen : s.mSocketIsOpen = true)
      (hops : s.ops = [⟨.readSome 8192, some (ec, 0)⟩]) (hfailed : ec.failed = true)
      (hne : ec ≠ .operationAborted) : Looping s held []

variable {held : Prop} {waiting : List (List UInt8)}

theorem Looping.length_le (h : s.Looping held waiting) : waiting.length ≤ 1 := by
  cases h <;> simp

theorem Looping.congr {held' : Prop} (h : s.Looping held waiting) (hiff : held ↔ held') :
    s.Looping held' waiting := by
  rwa [← propext hiff]

theorem Looping.of_held (h : s.Looping held waiting) (hheld : held) :
    s.mSocketIsOpen = true ∧ ∃ done, s.ops = [⟨.readSome 8192, done⟩] := by
  cases h with
  | idle hnot _ => exact absurd hheld hnot
  | reading _ hopen hops => exact ⟨hopen, _, hops⟩
  | delivered _ hopen hops _ _ => exact ⟨hopen, _, hops⟩
  | failed _ hopen hops _ _ => exact ⟨hopen, _, hops⟩

theorem Looping.of_pending (h : s.Looping held waiting) (hop : s.ops[k]? = some ⟨kind, none⟩) :
    held ∧ s.mSocketIsOpen = true ∧ waiting = [] ∧ kind = .readSome 8192 ∧
      ∀ done, s.ops.set k ⟨kind, done⟩ = [⟨.readSome 8192, done⟩] := by
  cases h with
  | idle hheld hops =>
      rw [hops] at hop
      cases hop
  | reading hheld hopen hops =>
      rw [hops] at hop
      cases k with
      | zero =>
          cases hop
          refine ⟨hheld, hopen, rfl, rfl, fun done => ?_⟩
          rw [hops]
          rfl
      | succ k => cases hop
  | delivered hheld hopen hops =>
      rw [hops] at hop
      cases k <;> cases hop
  | failed hheld hopen hops =>
      rw [hops] at hop
      cases k <;> cases hop

theorem complete_cases (h : s.complete k ec length = some s') :
    ∃ kind, s.ops[k]? = some ⟨kind, none⟩ ∧
      s' = { s with ops := s.ops.set k ⟨kind, some (ec, length)⟩ } := by
  unfold Session.complete at h
  split at h
  case h_1 kind hop => exact ⟨kind, hop, (Option.some.inj h).symm⟩
  case h_2 => cases h

theorem Looping.of_not_held (h : s.Looping held waiting) (hheld : ¬held) :
    s.ops = [] ∧ waiting = [] := by
  cases h with
  | idle _ hops => exact ⟨hops, rfl⟩
  | reading h _ _ => exact absurd h hheld
  | delivered h _ _ _ _ => exact absurd h hheld
  | failed h _ _ _ _ => exact absurd h hheld

theorem Looping.receive (h : s.Looping held waiting) (hs : s.receive k data = some s') :
    held ∧ waiting = [] ∧ s'.Looping held [data] := by
  unfold Session.receive at hs
  split at hs
  case h_2 => cases hs
  case h_1 size done hop =>
      by_cases hsize : data.length ≤ size
      · rw [if_pos hsize] at hs
        obtain ⟨kind, hpending, rfl⟩ := complete_cases hs
        rw [ops_fill] at hpending ⊢
        obtain ⟨hheld, hopen, rfl, rfl, hops⟩ := h.of_pending hpending
        cases hop.symm.trans hpending
        refine ⟨hheld, rfl, .delivered hheld ?_ ?_ hsize (prefix_fill s hsize)⟩
        · dsimp only
          rw [mSocketIsOpen_fill, hopen]
        · exact hops (some (.success, data.length))
      · rw [if_neg hsize] at hs
        cases hs

theorem Looping.fail (h : s.Looping held waiting) (hs : s.fail k ec = some s') :
    held ∧ waiting = [] ∧ s'.Looping held [] := by
  unfold Session.fail at hs
  by_cases hec : ec.failed ∧ ec ≠ .operationAborted
  · rw [if_pos hec] at hs
    obtain ⟨kind, hpending, rfl⟩ := complete_cases hs
    obtain ⟨hheld, hopen, rfl, -, hops⟩ := h.of_pending hpending
    exact ⟨hheld, rfl, .failed hheld hopen (hops (some (ec, 0))) hec.1 hec.2⟩
  · rw [if_neg hec] at hs
    cases hs

theorem Looping.of_done (h : s.Looping held waiting)
    (hop : s.ops[k]? = some ⟨kind, some (ec, length)⟩) :
    held ∧ s.mSocketIsOpen = true ∧ kind = .readSome 8192 ∧ (s.take k).ops = [] ∧
      ((ec = .success ∧ ∃ data, waiting = [data] ∧ length = data.length ∧
          data.length ≤ 8192 ∧ data <+: s.mBuffer.toList) ∨
        (ec.failed = true ∧ ec ≠ .operationAborted ∧ waiting = [])) := by
  have htaken (done : Option (ErrorCode × Nat))
      (hops : s.ops = [⟨.readSome 8192, done⟩]) (hsome : s.ops[k]? ≠ none) :
      (s.take k).ops = [] := by
    unfold take
    rw [hops] at hsome ⊢
    cases k with
    | zero => rfl
    | succ k => exact absurd rfl hsome
  have hsome : s.ops[k]? ≠ none := by
    rw [hop]
    exact Option.some_ne_none _
  have hmem := List.mem_of_getElem? hop
  cases h with
  | idle hheld hops =>
      rw [hops] at hmem
      cases hmem
  | reading hheld hopen hops =>
      rw [hops] at hmem
      cases List.mem_singleton.mp hmem
  | delivered hheld hopen hops hle hbuffer =>
      have htaken := htaken _ hops hsome
      rw [hops] at hmem
      cases List.mem_singleton.mp hmem
      exact ⟨hheld, hopen, rfl, htaken, .inl ⟨rfl, _, rfl, rfl, hle, hbuffer⟩⟩
  | failed hheld hopen hops hfailed hne =>
      have htaken := htaken _ hops hsome
      rw [hops] at hmem
      cases List.mem_singleton.mp hmem
      exact ⟨hheld, hopen, rfl, htaken, .inr ⟨hfailed, hne, rfl⟩⟩

end Session

namespace Server

inductive Event
  | received (i : Nat) (data : List UInt8)
  | printed (i : Nat) (line : List UInt8)
  deriving DecidableEq, Repr

namespace Event

def chunk (i : Nat) : Event → Option (List UInt8)
  | received j data => if j = i then some data else none
  | printed _ _ => none

def text (i : Nat) : Event → Option (List UInt8)
  | received _ _ => none
  | printed j line => if j = i then some line else none

def output : Event → Option (List UInt8)
  | received _ _ => none
  | printed _ line => some line

end Event

def cout (s : Server) : List (List UInt8) := s.mSessionMgr.cout

/-- The chunk that a step delivers to a session, or the line that the handler of a session adds to
`cout`. -/
def shown (s : Server) : Action → Option Event
  | .receive i _ data => some (.received i data)
  | .run i k =>
      ((s.step (.run i k)).bind fun t => (t.cout.drop s.cout.length).head?).map (.printed i)
  | _ => none

/-- The action does not run the handler of a read that has filled its buffer. -/
def NotFull (s : Server) : Action → Prop
  | .run i k => s.mSessionMgr.NotFull (.run i k)
  | _ => True

def Held (s : Server) (i : Nat) : Prop := i ∈ s.mSessionMgr.mSessions

/-- The state of every read loop, of what the manager holds and of what it will be given. -/
structure Inv (s : Server) (waiting : Nat → List (List UInt8)) : Prop where
  wellFormed : s.acceptLoop.WellFormed
  running : s.mSessionMgr.exited = none
  looping : ∀ i, (s.mSessionMgr.sessions i).Looping (s.Held i) (waiting i)
  ahead : ∀ i, s.acceptLoop.Ahead i → ¬s.Held i
  accepted : ∀ op ∈ s.accepts, op.done = some .success →
    (s.mSessionMgr.sessions op.session).mSocketIsOpen = true

variable {s t : Server} {a : Action} {as : List Action} {i k c : Nat} {ec : ErrorCode}
  {m : SessionMgr} {session : Session} {rest : List (List UInt8)}
  {waiting : Nat → List (List UInt8)} {buffer rspBuffer : Vector UInt8 8192}

theorem mem_outstanding {op : AcceptOp} (h : op ∈ s.accepts) :
    op.session ∈ s.acceptLoop.outstanding :=
  List.mem_map_of_mem h

theorem Inv.setSession (h : s.Inv waiting) (hi : s.Held i) (hexited : m.exited = none)
    (hsessions : m.sessions = Function.update s.mSessionMgr.sessions i session)
    (hheld : ∀ j, j ≠ i → (j ∈ m.mSessions ↔ s.Held j))
    (hlooping : session.Looping (i ∈ m.mSessions) rest) :
    Inv { s with mSessionMgr := m } (Function.update waiting i rest) where
  wellFormed := h.wellFormed
  running := hexited
  looping j := by
    change (m.sessions j).Looping (j ∈ m.mSessions) _
    rw [hsessions]
    by_cases hj : j = i
    · subst hj
      rw [Function.update_self, Function.update_self]
      exact hlooping
    · rw [Function.update_of_ne hj, Function.update_of_ne hj]
      exact (h.looping j).congr (hheld j hj).symm
  ahead j hj := by
    have hne : j ≠ i := by
      rintro rfl
      exact h.ahead j hj hi
    exact fun hmem => h.ahead j hj ((hheld j hne).mp hmem)
  accepted op hop hdone := by
    have hne : op.session ≠ i := by
      intro heq
      exact h.ahead _ (.inl (mem_outstanding hop)) (heq ▸ hi)
    change (m.sessions op.session).mSocketIsOpen = true
    rw [hsessions, Function.update_of_ne hne]
    exact h.accepted op hop hdone

theorem Inv.acceptDone (h : s.Inv waiting) (hstep : s.acceptDone k ec = some t)
    (hwellFormed : t.acceptLoop.WellFormed) : t.Inv waiting := by
  unfold Server.acceptDone at hstep
  split at hstep
  case h_2 => cases hstep
  case h_1 c hop =>
    have hnot := h.ahead c (.inl (mem_outstanding (List.mem_of_getElem? hop)))
    have hahead (m : SessionMgr) (i : Nat) (hi : Ahead (acceptLoop { s with
        mSessionMgr := m, accepts := s.accepts.set k ⟨c, some ec⟩ }) i) : ¬s.Held i := by
      have hsame : (s.accepts.set k ⟨c, some ec⟩).map AcceptOp.session =
          s.accepts.map AcceptOp.session := map_set_of_eq hop rfl
      change i ∈ (s.accepts.set k ⟨c, some ec⟩).map AcceptOp.session ∨ s.created ≤ i at hi
      rw [hsame] at hi
      exact h.ahead i hi
    have haccepted (op : AcceptOp) (hmem : op ∈ s.accepts.set k ⟨c, some ec⟩)
        (hdone : op.done = some .success) (hne : op ≠ ⟨c, some ec⟩) :
        (s.mSessionMgr.sessions op.session).mSocketIsOpen = true :=
      h.accepted op ((List.mem_or_eq_of_mem_set hmem).resolve_right hne) hdone
    dsimp only at hstep
    obtain rfl := Option.some.inj hstep
    by_cases hec : ec.failed = true
    · simp only [if_pos hec] at hwellFormed ⊢
      refine ⟨hwellFormed, h.running, h.looping, hahead _, fun op hmem hdone => ?_⟩
      apply haccepted op hmem hdone
      rintro rfl
      cases hdone
      cases hec
    · simp only [if_neg hec] at hwellFormed ⊢
      refine ⟨hwellFormed, h.running, fun i => ?_, hahead _, fun op hmem hdone => ?_⟩
      · change (Function.update s.mSessionMgr.sessions c _ i).Looping (s.Held i) _
        by_cases hi : i = c
        · obtain ⟨hops, hnone⟩ := (h.looping c).of_not_held hnot
          rw [hi, Function.update_self, hnone]
          exact .idle hnot hops
        · rw [Function.update_of_ne hi]
          exact h.looping i
      · change (Function.update s.mSessionMgr.sessions c _ op.session).mSocketIsOpen = true
        by_cases hi : op.session = c
        · rw [hi, Function.update_self]
          rfl
        · rw [Function.update_of_ne hi]
          exact haccepted op hmem hdone fun heq => hi (congrArg AcceptOp.session heq)

theorem Inv.rearm (h : s.Inv waiting) (hone : s.acceptLoop.outstanding = [c])
    (hopen : (s.mSessionMgr.sessions c).mSocketIsOpen = true) :
    Inv (doAcceptor { s with accepts := [], mSessionMgr := s.mSessionMgr.start c }
      buffer rspBuffer) waiting := by
  have hmem : c ∈ s.acceptLoop.outstanding := by
    rw [hone]
    exact List.mem_singleton_self c
  have hlt : c < s.created := h.wellFormed.lt_next c hmem
  have hnot := h.ahead c (.inl hmem)
  have hfresh (i : Nat) (hi : s.created ≤ i) : ¬s.Held i := h.ahead i (.inr hi)
  obtain ⟨hops, hnone⟩ := (h.looping c).of_not_held hnot
  have hheld (i : Nat) : Held (doAcceptor { s with
      accepts := [], mSessionMgr := s.mSessionMgr.start c } buffer rspBuffer) i ↔
      i = c ∨ s.Held i :=
    Finset.mem_insert
  refine ⟨⟨Nat.le_refl 1, fun d hd => ?_⟩, h.running, fun i => ?_, fun i hi => ?_,
    fun op hop hdone => ?_⟩
  · obtain rfl := List.mem_singleton.mp hd
    exact Nat.lt_succ_self _
  · change (Function.update (Function.update s.mSessionMgr.sessions c _) s.created _ i).Looping _ _
    by_cases hi : i = s.created
    · obtain ⟨-, hempty⟩ := (h.looping i).of_not_held (hfresh i hi.ge)
      rw [hi, Function.update_self, ← hi, hempty]
      refine .idle (fun hin => ?_) rfl
      rcases (hheld i).mp hin with heq | hin
      · omega
      · exact hfresh i hi.ge hin
    · rw [Function.update_of_ne hi]
      by_cases hic : i = c
      · rw [hic, Function.update_self, hnone]
        refine .reading ((hheld c).mpr (.inl rfl)) hopen ?_
        change (s.mSessionMgr.sessions c).ops ++ [_] = _
        rw [hops, hopen]
        rfl
      · rw [Function.update_of_ne hic]
        exact (h.looping i).congr ((hheld i).trans (or_iff_right hic)).symm
  · have hge : s.created ≤ i := by
      rcases hi with hi | hi
      · exact (List.mem_singleton.mp hi).ge
      · exact Nat.le_of_succ_le hi
    rw [hheld]
    rintro (heq | hin)
    · omega
    · exact hfresh i hge hin
  · obtain rfl := List.mem_singleton.mp hop
    change (if s.mAcceptorIsOpen then none else some ErrorCode.other) = some .success at hdone
    split at hdone <;> cases hdone

theorem Inv.acceptRun (h : s.Inv waiting) (hstep : s.acceptRun k buffer rspBuffer = some t) :
    t.Inv waiting := by
  obtain ⟨c, ec, hop, hone, rfl⟩ := acceptRun_cases h.wellFormed hstep
  rw [handleAccept_eq, toManager_eq]
  by_cases hgood : s.mAcceptorIsOpen = true ∧ ec = .success
  · rw [if_pos hgood, Option.elim_some]
    obtain ⟨-, rfl⟩ := hgood
    exact h.rearm hone (h.accepted _ (List.mem_of_getElem? hop) rfl)
  · rw [if_neg hgood, Option.elim_none]
    refine ⟨⟨Nat.zero_le 1, fun d hd => ?_⟩, h.running, h.looping, fun i hi => ?_,
      fun op hop hdone => ?_⟩
    · cases hd
    · rcases hi with hi | hi
      · cases hi
      · exact h.ahead i (.inr hi)
    · cases hop

theorem Inv.receive {data : List UInt8} (h : s.Inv waiting)
    (hstep : s.stepSession (.receive i k data) = some t) :
    waiting i = [] ∧ t.cout = s.cout ∧ t.Inv (Function.update waiting i [data]) := by
  obtain ⟨m, hm, rfl⟩ := Option.map_eq_some_iff.mp hstep
  obtain ⟨hexited, heffect⟩ := SessionMgr.effect_of_step hm
  cases heffect with
  | receive hsession =>
      obtain ⟨hi, hnone, hlooping⟩ := (h.looping i).receive hsession
      exact ⟨hnone, rfl, h.setSession hi hexited rfl (fun _ _ => Iff.rfl) hlooping⟩

theorem Inv.fail (h : s.Inv waiting) (hstep : s.stepSession (.fail i k ec) = some t) :
    t.cout = s.cout ∧ t.Inv waiting := by
  obtain ⟨m, hm, rfl⟩ := Option.map_eq_some_iff.mp hstep
  obtain ⟨hexited, heffect⟩ := SessionMgr.effect_of_step hm
  cases heffect with
  | fail hsession =>
      obtain ⟨hi, hnone, hlooping⟩ := (h.looping i).fail hsession
      have ht := h.setSession (m := s.mSessionMgr.setSession i _) hi hexited rfl
        (fun _ _ => Iff.rfl) hlooping
      rw [← hnone, Function.update_eq_self] at ht
      exact ⟨rfl, ht⟩

theorem Inv.run (h : s.Inv waiting) (hstep : s.stepSession (.run i k) = some t) :
    (t.cout = s.cout ∧ t.Inv waiting) ∨
      ∃ data text, waiting i = [data] ∧ (s.NotFull (.run i k) → text = line data) ∧
        t.cout = s.cout ++ [text] ∧ t.Inv (Function.update waiting i []) := by
  obtain ⟨m, hm, rfl⟩ := Option.map_eq_some_iff.mp hstep
  obtain ⟨hexited, heffect⟩ := SessionMgr.effect_of_step hm
  cases heffect with
  | run hrun =>
    obtain ⟨kind, ec, length, hop, rfl⟩ := SessionMgr.run_cases hrun
    obtain ⟨hi, hopen, rfl, htaken, hcases⟩ := (h.looping i).of_done hop
    rcases hcases with ⟨rfl, data, hdata, rfl, hle, hbuffer⟩ | ⟨hfailed, hne, hnone⟩
    · right
      have hlooping : Session.Looping
          (((s.mSessionMgr.sessions i).take k).terminate data.length).doRead (s.Held i) [] := by
        refine .reading hi hopen ?_
        change ((s.mSessionMgr.sessions i).take k).ops ++
          [⟨.readSome 8192, if (s.mSessionMgr.sessions i).mSocketIsOpen then _ else _⟩] = _
        rw [htaken, hopen]
        rfl
      refine ⟨data, _, hdata, fun hok => ?_, rfl,
        h.setSession hi hexited ?_ (fun _ _ => Iff.rfl) hlooping⟩
      · have hlt : data.length < 8192 := by
          apply Nat.lt_of_le_of_ne hle
          intro hfull
          rw [hfull] at hop
          exact hok _ hop ⟨8192, rfl⟩
        rw [SessionMgr.sessions_setSession_self]
        exact Session.text_terminate hbuffer hlt
      · change Function.update (Function.update s.mSessionMgr.sessions i _) i _ = _
        rw [Function.update_idem, SessionMgr.sessions_setSession_self]
    · left
      rw [SessionMgr.handle_of_failed _ i _ length hfailed hne]
      have ht := h.setSession (m := (s.mSessionMgr.setSession i
        ((s.mSessionMgr.sessions i).take k)).stop i) hi hexited
        (SessionMgr.sessions_stop_setSession ..)
        (fun j hj => (Finset.mem_erase.trans (and_iff_right hj)))
        (.idle (Finset.notMem_erase i _) ?_)
      · rw [← hnone, Function.update_eq_self] at ht
        exact ⟨rfl, ht⟩
      · change ((s.mSessionMgr.sessions i).take k).ops.map _ = []
        rw [htaken, List.map_nil]

/-- What a step does to the waiting chunks, and what it shows. -/
inductive Effect (s : Server) (waiting : Nat → List (List UInt8)) (t : Server) : Action → Prop
  | quiet {a : Action} (hshown : s.shown a = none) (hcout : t.cout = s.cout)
      (ht : t.Inv waiting) : Effect s waiting t a
  | received {i k : Nat} {data : List UInt8} (hnone : waiting i = []) (hcout : t.cout = s.cout)
      (ht : t.Inv (Function.update waiting i [data])) : Effect s waiting t (.receive i k data)
  | printed {i k : Nat} {data text : List UInt8} (hdata : waiting i = [data])
      (hshown : s.shown (.run i k) = some (.printed i text))
      (htext : s.NotFull (.run i k) → text = line data) (hcout : t.cout = s.cout ++ [text])
      (ht : t.Inv (Function.update waiting i [])) : Effect s waiting t (.run i k)

theorem cout_acceptDone (hstep : s.acceptDone k ec = some t) : t.cout = s.cout := by
  unfold Server.acceptDone at hstep
  split at hstep
  case h_1 c hop =>
      obtain rfl := Option.some.inj hstep
      by_cases hec : ec.failed = true
      · rw [if_pos hec]
        rfl
      · rw [if_neg hec]
        rfl
  case h_2 => cases hstep

theorem Inv.cout_acceptRun (h : s.Inv waiting)
    (hstep : s.acceptRun k buffer rspBuffer = some t) : t.cout = s.cout := by
  obtain ⟨c, ec, -, -, rfl⟩ := acceptRun_cases h.wellFormed hstep
  rw [handleAccept_eq]
  cases toManager { s with accepts := [] } c ec <;> rfl

theorem shown_run {added : List (List UInt8)} (hstep : s.step (.run i k) = some t)
    (hcout : t.cout = s.cout ++ added) :
    s.shown (.run i k) = added.head?.map (.printed i) := by
  unfold shown
  dsimp only
  rw [hstep, Option.bind_some, hcout, List.drop_left]

theorem Inv.effect (h : s.Inv waiting) (hstep : s.step a = some t) : Effect s waiting t a := by
  have hwellFormed := (move_of_step h.wellFormed hstep).1.wellFormed h.wellFormed
  have hmove := hstep
  unfold Server.step at hmove
  rw [h.running, Option.isSome_none, if_neg Bool.false_ne_true] at hmove
  cases a with
  | acceptDone k ec => exact .quiet rfl (cout_acceptDone hmove) (h.acceptDone hmove hwellFormed)
  | acceptRun k buffer rspBuffer => exact .quiet rfl (h.cout_acceptRun hmove) (h.acceptRun hmove)
  | receive i k data =>
      obtain ⟨hnone, hcout, ht⟩ := h.receive hmove
      exact .received hnone hcout ht
  | fail i k ec =>
      obtain ⟨hcout, ht⟩ := h.fail hmove
      exact .quiet rfl hcout ht
  | run i k =>
      rcases h.run hmove with ⟨hcout, ht⟩ | ⟨data, text, hdata, htext, hcout, ht⟩
      · have hadded : t.cout = s.cout ++ [] := hcout.trans (List.append_nil _).symm
        have hshown : s.shown (.run i k) = none := shown_run hstep hadded
        exact .quiet hshown hcout ht
      · exact .printed hdata (shown_run hstep hcout) htext hcout ht

theorem Effect.inv (he : Effect s waiting t a) : ∃ waiting, t.Inv waiting := by
  cases he with
  | quiet _ _ ht => exact ⟨_, ht⟩
  | received _ _ ht => exact ⟨_, ht⟩
  | printed _ _ _ _ ht => exact ⟨_, ht⟩

/-- What was shown until a state is reached, and what then waits to be printed. -/
structure Told (log : List Event) (s : Server) (waiting : Nat → List (List UInt8)) : Prop where
  cout_eq : s.cout = log.filterMap Event.output
  lines_eq : ∀ i, (log.filterMap (Event.chunk i)).map line =
    log.filterMap (Event.text i) ++ (waiting i).map line

theorem Told.step {log : List Event} (h : Told log s waiting) (hok : s.NotFull a)
    (he : Effect s waiting t a) :
    ∃ waiting', t.Inv waiting' ∧ Told (log ++ (s.shown a).toList) t waiting' := by
  cases he with
  | quiet hshown hcout ht =>
      rw [hshown, Option.toList_none, List.append_nil]
      exact ⟨waiting, ht, hcout.trans h.cout_eq, h.lines_eq⟩
  | @received i k data hnone hcout ht =>
      refine ⟨_, ht, ?_, fun j => ?_⟩
      · rw [hcout, h.cout_eq, List.filterMap_append]
        exact (List.append_nil _).symm
      · have hshown : s.shown (.receive i k data) = some (.received i data) := rfl
        have hlines := h.lines_eq j
        rw [hshown, Option.toList_some, List.filterMap_append, List.filterMap_append]
        by_cases hj : j = i
        · subst hj
          rw [hnone, List.map_nil, List.append_nil] at hlines
          rw [Function.update_self, List.map_append, hlines]
          simp [Event.chunk, Event.text]
        · rw [Function.update_of_ne hj, List.map_append, hlines]
          simp [Event.chunk, Event.text, Ne.symm hj]
  | @printed i k data text hdata hshown htext hcout ht =>
      obtain rfl := htext hok
      refine ⟨_, ht, ?_, fun j => ?_⟩
      · rw [hcout, h.cout_eq, List.filterMap_append, hshown]
        rfl
      · have hlines := h.lines_eq j
        rw [hshown, Option.toList_some, List.filterMap_append, List.filterMap_append]
        by_cases hj : j = i
        · subst hj
          rw [hdata] at hlines
          rw [Function.update_self, List.map_append, hlines]
          simp [Event.chunk, Event.text]
        · rw [Function.update_of_ne hj, List.map_append, hlines]
          simp [Event.chunk, Event.text, Ne.symm hj]

theorem inv_create (buffer rspBuffer : Vector UInt8 8192) :
    (create buffer rspBuffer).Inv fun _ => [] where
  wellFormed := wellFormed_create buffer rspBuffer
  running := rfl
  looping i := by
    apply Session.Looping.idle (Finset.notMem_empty i)
    change (Function.update
      (fun _ => { Session.create buffer rspBuffer with mSocketIsOpen := false })
      0 (Session.create buffer rspBuffer) i).ops = []
    by_cases hi : i = 0
    · rw [hi, Function.update_self]
      rfl
    · rw [Function.update_of_ne hi]
      rfl
  ahead i _ := Finset.notMem_empty i
  accepted op hop hdone := by
    obtain rfl := List.mem_singleton.mp hop
    cases hdone

/-- A client connects and sends a chunk with a zero in it. -/
def oneChunk : List Action :=
  [.acceptDone 0 .success, .acceptRun 0 (.replicate 8192 3) (.replicate 8192 4),
    .receive 0 0 [97, 0, 98], .run 0 0]

theorem exists_run_oneChunk :
    ∃ t, Run step NotFull (create (.replicate 8192 1) (.replicate 8192 2)) oneChunk t ∧
      t.mSessionMgr.mSessions = {0} := by
  have hok (op : IoOp) (hop : some ⟨.readSome 8192, some (.success, 3)⟩ = some op) : ¬op.Full := by
    rintro ⟨size, rfl⟩
    cases hop
  exact ⟨_, .cons trivial rfl (.cons trivial rfl (.cons trivial rfl (.cons hok rfl (.nil _)))), rfl⟩

end Server

end BtcServer.LoginServer
