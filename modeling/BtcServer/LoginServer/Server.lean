import BtcServer.Lib.AcceptLoop
import BtcServer.LoginServer.SessionMgr

/-!
# The login server

`server` with its `sessionMgr` and all sessions it has made, numbered in the order of construction.
The constructor accepts the first session; nothing closes the acceptor.  The handler of an accept
returns without accepting again when it is told of an error.
-/

namespace BtcServer.LoginServer

open Boost Lib

/-- An `async_accept` whose handler has not run: the session whose socket it fills, which is the one
that its handler captures, and the code that the handler will get once the accept has completed. -/
structure AcceptOp where
  session : Nat
  done : Option ErrorCode
  deriving DecidableEq, Repr

structure Server where
  mAcceptorIsOpen : Bool
  accepts : List AcceptOp
  mSessionMgr : SessionMgr
  /-- How many sessions were constructed. -/
  created : Nat

namespace Server

/-- Construct a session and accept into its socket. -/
def doAcceptor (s : Server) (buffer rspBuffer : Vector UInt8 8192) : Server :=
  { s with
    mSessionMgr := s.mSessionMgr.setSession s.created (.create buffer rspBuffer)
    accepts := s.accepts ++ [⟨s.created, if s.mAcceptorIsOpen then none else some .other⟩]
    created := s.created + 1 }

/-- The constructor when nothing fails.  What the manager holds for numbers not yet given out does
not matter. -/
def create (buffer rspBuffer : Vector UInt8 8192) : Server :=
  doAcceptor
    { mAcceptorIsOpen := true
      accepts := []
      mSessionMgr := .create (fun _ => false) (fun _ => buffer) (fun _ => rspBuffer)
      created := 0 }
    buffer rspBuffer

/-- The session that the handler gives to `sessionMgr::start`, if it comes to that. -/
def toManager (s : Server) (session : Nat) (ec : ErrorCode) : Option Nat :=
  if !s.mAcceptorIsOpen then none
  else if !ec.failed then some session
  else none

/-- The handler that `do_acceptor` gives to `async_accept`. -/
def handleAccept (s : Server) (session : Nat) (ec : ErrorCode)
    (buffer rspBuffer : Vector UInt8 8192) : Server :=
  if !s.mAcceptorIsOpen then s
  else if !ec.failed then
    doAcceptor { s with mSessionMgr := s.mSessionMgr.start session } buffer rspBuffer
  else s

inductive Action
  /-- The `k`-th accept completes. -/
  | acceptDone (k : Nat) (ec : ErrorCode)
  /-- The handler of the `k`-th accept runs; the buffers are those of the session it constructs. -/
  | acceptRun (k : Nat) (buffer rspBuffer : Vector UInt8 8192)
  | receive (i k : Nat) (data : List UInt8)
  | fail (i k : Nat) (ec : ErrorCode)
  /-- The handler of the `k`-th operation of session `i` runs. -/
  | run (i k : Nat)
  deriving DecidableEq

def acceptDone (s : Server) (k : Nat) (ec : ErrorCode) : Option Server :=
  match s.accepts[k]? with
  | some ⟨c, none⟩ =>
      let s := { s with accepts := s.accepts.set k ⟨c, some ec⟩ }
      let session := s.mSessionMgr.sessions c
      some (if ec.failed then s
        else { s with mSessionMgr := s.mSessionMgr.setSession c session.accepted })
  | _ => none

def acceptRun (s : Server) (k : Nat) (buffer rspBuffer : Vector UInt8 8192) : Option Server :=
  match s.accepts[k]? with
  | some ⟨c, some ec⟩ =>
      some (handleAccept { s with accepts := s.accepts.eraseIdx k } c ec buffer rspBuffer)
  | _ => none

def stepSession (s : Server) (a : SessionMgr.Action) : Option Server :=
  (s.mSessionMgr.step a).map fun m => { s with mSessionMgr := m }

/-- One step; nothing happens in a process that has ended. -/
def step (s : Server) (a : Action) : Option Server :=
  if s.mSessionMgr.exited.isSome then none
  else
    match a with
    | .acceptDone k ec => s.acceptDone k ec
    | .acceptRun k buffer rspBuffer => s.acceptRun k buffer rspBuffer
    | .receive i k data => s.stepSession (.receive i k data)
    | .fail i k ec => s.stepSession (.fail i k ec)
    | .run i k => s.stepSession (.run i k)

/-! ## The accept loop -/

def acceptLoop (s : Server) : AcceptLoop where
  isOpen := s.mAcceptorIsOpen
  outstanding := s.accepts.map AcceptOp.session
  next := s.created

def handed (s : Server) : Action → Option (Nat × Nat)
  | .acceptRun k _ _ =>
      match s.accepts[k]? with
      | some ⟨c, some ec⟩ => (s.toManager c ec).map fun p => (p, c)
      | _ => none
  | _ => none

/-- While the acceptor is open, the handler runs only for an accept that has succeeded. -/
def Rearms (s : Server) : Action → Prop
  | .acceptRun k _ _ => s.mAcceptorIsOpen = true → ∀ op ∈ s.accepts[k]?, op.done = some .success
  | _ => True

variable {s t : Server} {a : Action} {as : List Action} {c k : Nat} {ec : ErrorCode}
  {buffer rspBuffer : Vector UInt8 8192}

/-! ## One step -/

theorem handleAccept_eq (s : Server) (c : Nat) (ec : ErrorCode)
    (buffer rspBuffer : Vector UInt8 8192) :
    s.handleAccept c ec buffer rspBuffer = (s.toManager c ec).elim s fun p =>
      doAcceptor { s with mSessionMgr := s.mSessionMgr.start p } buffer rspBuffer := by
  unfold handleAccept toManager
  by_cases hopen : s.mAcceptorIsOpen = true
  · by_cases hec : ec.failed = true <;> simp [hopen, hec]
  · simp [hopen]

theorem toManager_eq (s : Server) (c : Nat) (ec : ErrorCode) :
    s.toManager c ec = if s.mAcceptorIsOpen = true ∧ ec = .success then some c else none := by
  unfold toManager
  by_cases hopen : s.mAcceptorIsOpen = true
  · cases ec <;> simp [hopen, ErrorCode.failed]
  · simp [hopen]

theorem acceptRun_cases (h : s.acceptLoop.WellFormed)
    (hrun : s.acceptRun k buffer rspBuffer = some t) :
    ∃ c ec, s.accepts[k]? = some ⟨c, some ec⟩ ∧ s.acceptLoop.outstanding = [c] ∧
      t = handleAccept { s with accepts := [] } c ec buffer rspBuffer := by
  unfold acceptRun at hrun
  split at hrun
  case h_1 c ec hop =>
    refine ⟨c, ec, hop, ?_⟩
    have hle : s.accepts.length ≤ 1 := by
      have hle := h.length_le
      rwa [acceptLoop, List.length_map] at hle
    obtain ⟨hk, hget⟩ := List.getElem?_eq_some_iff.mp hop
    obtain rfl : k = 0 := by omega
    obtain ⟨op, haccepts⟩ : ∃ op, s.accepts = [op] :=
      List.length_eq_one_iff.mp (Nat.le_antisymm hle hk)
    rw [haccepts] at hop hrun
    obtain rfl := Option.some.inj hop
    refine ⟨?_, (Option.some.inj hrun).symm⟩
    change s.accepts.map AcceptOp.session = _
    rw [haccepts]
    rfl
  case h_2 => cases hrun

theorem handed_acceptRun (hop : s.accepts[k]? = some ⟨c, some ec⟩) :
    s.handed (.acceptRun k buffer rspBuffer) =
      if s.mAcceptorIsOpen = true ∧ ec = .success then some (c, c) else none := by
  unfold handed
  simp only [hop, toManager_eq]
  split <;> rfl

theorem quiet_of_step (hstep : s.step a = some t)
    (hother : ∀ k buffer rspBuffer, a ≠ .acceptRun k buffer rspBuffer) :
    t.mAcceptorIsOpen = s.mAcceptorIsOpen ∧
      t.acceptLoop.outstanding = s.acceptLoop.outstanding ∧ t.created = s.created := by
  have hsession {a : SessionMgr.Action} (h : s.stepSession a = some t) :
      t.mAcceptorIsOpen = s.mAcceptorIsOpen ∧
        t.acceptLoop.outstanding = s.acceptLoop.outstanding ∧ t.created = s.created := by
    obtain ⟨m, -, rfl⟩ := Option.map_eq_some_iff.mp h
    exact ⟨rfl, rfl, rfl⟩
  unfold step at hstep
  split at hstep
  · cases hstep
  · cases a with
    | acceptRun k buffer rspBuffer => exact absurd rfl (hother k buffer rspBuffer)
    | receive i k data => exact hsession hstep
    | fail i k ec => exact hsession hstep
    | run i k => exact hsession hstep
    | acceptDone k ec =>
        change s.acceptDone k ec = some t at hstep
        unfold acceptDone at hstep
        split at hstep
        case h_1 c hop =>
          have hsame : (s.accepts.set k ⟨c, some ec⟩).map AcceptOp.session =
              s.accepts.map AcceptOp.session :=
            map_set_of_eq hop rfl
          obtain rfl := Option.some.inj hstep
          by_cases hec : ec.failed = true
          · rw [if_pos hec]
            exact ⟨rfl, hsame, rfl⟩
          · rw [if_neg hec]
            exact ⟨rfl, hsame, rfl⟩
        case h_2 => cases hstep

theorem acceptLoop_doAcceptor (hnone : s.accepts = []) (buffer rspBuffer : Vector UInt8 8192) :
    (s.doAcceptor buffer rspBuffer).acceptLoop = s.acceptLoop.rearm := by
  unfold doAcceptor acceptLoop
  dsimp only
  rw [hnone]
  rfl

theorem acceptLoop_handleAccept (s : Server) (c : Nat) (ec : ErrorCode)
    (buffer rspBuffer : Vector UInt8 8192) :
    (handleAccept { s with accepts := [] } c ec buffer rspBuffer).acceptLoop =
      if s.mAcceptorIsOpen = true ∧ ec = .success then s.acceptLoop.rearm
      else s.acceptLoop.lose := by
  rw [handleAccept_eq, toManager_eq]
  by_cases hgood : s.mAcceptorIsOpen = true ∧ ec = .success
  · rw [if_pos hgood, if_pos hgood, Option.elim_some]
    exact acceptLoop_doAcceptor rfl buffer rspBuffer
  · rw [if_neg hgood, if_neg hgood]
    rfl

theorem move_of_acceptRun (h : s.acceptLoop.WellFormed)
    (hrun : s.acceptRun k buffer rspBuffer = some t) :
    s.acceptLoop.Move (s.handed (.acceptRun k buffer rspBuffer)) t.acceptLoop ∧
      (s.Rearms (.acceptRun k buffer rspBuffer) ↔ t.acceptLoop.Listening) := by
  obtain ⟨c, ec, hop, hone, rfl⟩ := acceptRun_cases h hrun
  have hrearms : s.Rearms (.acceptRun k buffer rspBuffer) ↔
      (s.mAcceptorIsOpen = true → ec = .success) := by
    refine imp_congr_right fun _ => ⟨fun hall => Option.some.inj (hall _ hop), ?_⟩
    rintro rfl op hmem
    obtain rfl := Option.some.inj (hop.symm.trans hmem)
    rfl
  rw [handed_acceptRun hop, acceptLoop_handleAccept, hrearms]
  by_cases hgood : s.mAcceptorIsOpen = true ∧ ec = .success
  · rw [if_pos hgood, if_pos hgood]
    exact ⟨.rearmed hone, iff_of_true (fun _ => hgood.2) (AcceptLoop.listening_rearm _)⟩
  · rw [if_neg hgood, if_neg hgood, AcceptLoop.listening_lose]
    refine ⟨.lost hone (fun x hx => by cases hx), ?_⟩
    change _ ↔ s.mAcceptorIsOpen = false
    cases hopen : s.mAcceptorIsOpen with
    | false => simp
    | true => simpa [hopen] using hgood

/-- A step is a move of the loop, and it leaves an open acceptor armed when it rearms. -/
theorem move_of_step (h : s.acceptLoop.WellFormed) (hstep : s.step a = some t) :
    s.acceptLoop.Move (s.handed a) t.acceptLoop ∧
      (s.acceptLoop.Listening → (s.Rearms a ↔ t.acceptLoop.Listening)) := by
  have hquiet (hother : ∀ k buffer rspBuffer, a ≠ .acceptRun k buffer rspBuffer)
      (hrearms : s.Rearms a) :
      s.acceptLoop.Move none t.acceptLoop ∧
        (s.acceptLoop.Listening → (s.Rearms a ↔ t.acceptLoop.Listening)) := by
    obtain ⟨hopen, houtstanding, hcreated⟩ := quiet_of_step hstep hother
    have hopen' : t.acceptLoop.isOpen = true → s.acceptLoop.isOpen = true :=
      fun h => hopen.symm.trans h
    exact ⟨.quiet hopen' houtstanding hcreated, fun hlistening =>
      iff_of_true hrearms (hlistening.of_quiet hopen' houtstanding)⟩
  cases a with
  | acceptRun k buffer rspBuffer =>
      unfold step at hstep
      split at hstep
      · cases hstep
      · obtain ⟨hmove, hrearms⟩ := move_of_acceptRun h hstep
        exact ⟨hmove, fun _ => hrearms⟩
  | _ => exact hquiet (fun _ _ _ => nofun) trivial

/-! ## Runs -/

theorem loops : Loops step acceptLoop handed (fun s => s.acceptLoop.WellFormed) where
  inv _ _ _ hs hstep := (move_of_step hs hstep).1.wellFormed hs
  wellFormed _ hs := hs
  move _ _ _ hs hstep := (move_of_step hs hstep).1

theorem wellFormed_create (buffer rspBuffer : Vector UInt8 8192) :
    (create buffer rspBuffer).acceptLoop.WellFormed := by
  refine ⟨Nat.le_refl 1, fun c hc => ?_⟩
  obtain rfl : c = 0 := List.mem_singleton.mp hc
  exact Nat.one_pos

/-- The accept loop of the server survives a run exactly when no handler of an accept is told of an
error while the acceptor is open. -/
theorem survives_iff (h : Run step (fun _ _ => True) (create buffer rspBuffer) as t) :
    Survives step acceptLoop handed (create buffer rspBuffer) as ↔
      Run step Rearms (create buffer rspBuffer) as t :=
  loops.survives_iff (fun _ _ _ hs hlistening hstep => (move_of_step hs hstep).2 hlistening) h
    (wellFormed_create buffer rspBuffer) (fun _ => rfl)

end Server

end BtcServer.LoginServer
