import BtcServer.HttpmessageServer.ServerRun
import BtcServer.Lib.AcceptLoop

/-!
# The accept loop of the http server

The handler of an accept returns without accepting again when it is told of an error, and it is left
by an exception when `set_option` fails.  The connection that it hands over is that of the member
`m_http_connection_ptr_`, which is the one whose socket the accept has filled.
-/

namespace BtcServer.HttpmessageServer

open Boost Lib

namespace HttpServer

def acceptLoop (s : HttpServer) : AcceptLoop where
  isOpen := s.mAcceptorIsOpen
  outstanding := s.accepts.map AcceptOp.conn
  next := s.created

/-- What the handler gives to `http_connection_manager::start`, if it comes to that. -/
def toManager (s : HttpServer) (ec : ErrorCode) : Option Nat :=
  if !s.mAcceptorIsOpen || ec.failed then
    if ec.failed then none else s.mHttpConnectionPtr
  else s.mHttpConnectionPtr

/-- The connection that a step hands over and the one that the accept was to fill. -/
def handed (s : HttpServer) : Action → Option (Nat × Nat)
  | .acceptRun k _ _ _ =>
      match s.accepts[k]? with
      | some ⟨c, some ec⟩ => (s.toManager ec).map fun p => (p, c)
      | _ => none
  | _ => none

/-- While the acceptor is open, the handler runs only for an accept that has succeeded, and then
`set_option` does not fail. -/
def Rearms (s : HttpServer) : Action → Prop
  | .acceptRun k setOption _ _ => s.mAcceptorIsOpen = true →
      setOption.failed = false ∧ ∀ op ∈ s.accepts[k]?, op.done = some .success
  | _ => True

variable {funcs : CallbackTable} {s t : HttpServer} {a : Action} {as : List Action} {c k : Nat}
  {ec setOption : ErrorCode} {req : Request} {stream : Bytes}

/-! ## One step -/

theorem toManager_of_failed (hec : ec.failed = true) : s.toManager ec = none := by
  simp [toManager, hec]

theorem toManager_success (s : HttpServer) : s.toManager .success = s.mHttpConnectionPtr := by
  simp [toManager, ErrorCode.failed]

theorem acceptLoop_managerStart (s : HttpServer) (c : Nat) (ec : ErrorCode) :
    (s.managerStart c ec).acceptLoop = s.acceptLoop := by
  unfold managerStart
  dsimp only
  split <;> rfl

theorem acceptLoop_start (hnone : s.accepts = []) (req : Request) (stream : Bytes) :
    (s.start req stream).acceptLoop = s.acceptLoop.rearm := by
  unfold start acceptLoop
  dsimp only
  rw [hnone]
  rfl

theorem Accepting.outstanding {op : AcceptOp} (h : s.Accepting op) :
    s.acceptLoop.outstanding = [op.conn] := by
  change s.accepts.map AcceptOp.conn = _
  rw [h.alone]
  rfl

theorem Accepting.handed_acceptRun (h : s.Accepting ⟨c, some ec⟩) (setOption : ErrorCode)
    (req : Request) (stream : Bytes) :
    s.handed (.acceptRun 0 setOption req stream) = if ec.failed then none else some (c, c) := by
  have hop : s.accepts[0]? = some ⟨c, some ec⟩ := by
    rw [h.alone]
    rfl
  unfold handed
  simp only [hop]
  by_cases hec : ec.failed = true
  · rw [toManager_of_failed hec, if_pos hec]
    rfl
  · obtain rfl := ErrorCode.eq_success hec
    rw [toManager_success, h.ptr_eq]
    rfl

theorem Accepting.acceptLoop_of_failed (h : s.Accepting ⟨c, some ec⟩)
    (hbad : ¬(setOption.failed = false ∧ ec = .success))
    (hrun : handleAccept { s with accepts := [] } ec setOption req stream = some t) :
    t.acceptLoop = s.acceptLoop.lose := by
  have hptr : ({ s with accepts := [] } : HttpServer).mHttpConnectionPtr = some c := h.ptr_eq
  by_cases hec : ec.failed = true
  · rw [handleAccept_of_failed hec, Option.some.injEq] at hrun
    rw [← hrun]
    rfl
  · obtain rfl := ErrorCode.eq_success hec
    have hset : setOption.failed = true := by simpa using hbad
    have hthrown := thrown_managerStart hset { s with accepts := [] } c
    rw [handleAccept_success hptr, if_pos (Option.isSome_iff_ne_none.mpr hthrown),
      Option.some.injEq] at hrun
    rw [← hrun, acceptLoop_managerStart]
    rfl

theorem Accepting.acceptLoop_of_success (h : s.Accepting ⟨c, some .success⟩)
    (hrunning : s.thrown = none)
    (hrun : handleAccept { s with accepts := [] } .success .success req stream = some t) :
    t.acceptLoop = s.acceptLoop.rearm := by
  have hptr : ({ s with accepts := [] } : HttpServer).mHttpConnectionPtr = some c := h.ptr_eq
  have hthrown : (managerStart { s with accepts := [] } c .success).thrown = none :=
    (thrown_managerStart_success h).trans hrunning
  have hempty : (managerStart { s with accepts := [] } c .success).accepts = [] := by
    obtain ⟨req₀, stream₀, hconn⟩ := h.conn_of_success
    have hconn' : ({ s with accepts := [] } : HttpServer).conns c = _ := hconn
    rw [managerStart_success hconn']
  rw [handleAccept_success hptr, hthrown, Option.isSome_none, if_neg Bool.false_ne_true,
    Option.some.injEq] at hrun
  rw [← hrun, acceptLoop_start hempty, acceptLoop_managerStart]
  rfl

theorem quiet_of_step (h : s.Inv funcs) (hstep : step funcs s a = some t)
    (hother : ∀ k setOption req stream, a ≠ .acceptRun k setOption req stream) :
    (t.mAcceptorIsOpen = true → s.mAcceptorIsOpen = true) ∧
      t.acceptLoop.outstanding = s.acceptLoop.outstanding ∧ t.created = s.created := by
  have heffect := step_effect h hstep
  cases heffect with
  | connected haccepting => exact ⟨id, haccepting.outstanding.symm, rfl⟩
  | unconnected haccepting => exact ⟨id, haccepting.outstanding.symm, rfl⟩
  | acceptFailed => exact absurd rfl (hother _ _ _ _)
  | admitted => exact absurd rfl (hother _ _ _ _)
  | threw => exact absurd rfl (hother _ _ _ _)
  | moves hframe =>
      refine ⟨fun hopen => hframe.isOpen_eq ▸ hopen, ?_, hframe.created_eq⟩
      change t.accepts.map _ = s.accepts.map _
      rw [hframe.accepts_eq]
  | serverStop =>
      refine ⟨fun hopen => (Bool.false_ne_true hopen).elim, ?_, rfl⟩
      change (s.accepts.map AcceptOp.abort).map AcceptOp.conn = s.accepts.map AcceptOp.conn
      rw [List.map_map]
      rfl

theorem Inv.move_of_acceptRun (h : s.Inv funcs) (hrunning : s.thrown = none)
    (hrun : s.acceptRun k setOption req stream = some t) :
    s.acceptLoop.Move (s.handed (.acceptRun k setOption req stream)) t.acceptLoop ∧
      (s.Rearms (.acceptRun k setOption req stream) ↔ t.acceptLoop.Listening) := by
  obtain ⟨rfl, c, ec, haccepting, hrun⟩ := h.acceptRun_cases hrun
  have hop : s.accepts[0]? = some ⟨c, some ec⟩ := by
    rw [haccepting.alone]
    rfl
  rw [haccepting.handed_acceptRun]
  by_cases hgood : setOption.failed = false ∧ ec = .success
  · obtain ⟨hset, rfl⟩ := hgood
    obtain rfl := ErrorCode.eq_success (ne_true_of_eq_false hset)
    rw [haccepting.acceptLoop_of_success hrunning hrun]
    refine ⟨.rearmed haccepting.outstanding,
      iff_of_true (fun _ => ⟨rfl, fun op hmem => ?_⟩) (AcceptLoop.listening_rearm _)⟩
    obtain rfl := Option.some.inj (hop.symm.trans hmem)
    rfl
  · rw [haccepting.acceptLoop_of_failed hgood hrun, AcceptLoop.listening_lose]
    refine ⟨.lost haccepting.outstanding fun x hx => ?_, fun hrearms => ?_, ?_⟩
    · split at hx
      · cases hx
      · exact (Option.some.inj hx).symm
    · cases hopen : s.mAcceptorIsOpen with
      | false => exact hopen
      | true =>
          obtain ⟨hset, hdone⟩ := hrearms hopen
          exact absurd ⟨hset, Option.some.inj (hdone _ hop)⟩ hgood
    · intro hclosed hopen
      exact absurd (hclosed.symm.trans hopen) Bool.false_ne_true

/-- A step is a move of the loop, and it leaves an open acceptor armed when it rearms. -/
theorem Inv.move (h : s.Inv funcs) (hstep : step funcs s a = some t) :
    s.acceptLoop.Move (s.handed a) t.acceptLoop ∧
      (s.acceptLoop.Listening → (s.Rearms a ↔ t.acceptLoop.Listening)) := by
  have hquiet (hother : ∀ k setOption req stream, a ≠ .acceptRun k setOption req stream)
      (hrearms : s.Rearms a) :
      s.acceptLoop.Move none t.acceptLoop ∧
        (s.acceptLoop.Listening → (s.Rearms a ↔ t.acceptLoop.Listening)) := by
    obtain ⟨hopen, houtstanding, hcreated⟩ := quiet_of_step h hstep hother
    exact ⟨.quiet hopen houtstanding hcreated, fun hlistening =>
      iff_of_true hrearms (hlistening.of_quiet hopen houtstanding)⟩
  cases a with
  | acceptRun k setOption req stream =>
      have hrunning := running_of_step hstep
      rw [step, hrunning, Option.isSome_none, if_neg Bool.false_ne_true] at hstep
      obtain ⟨hmove, hrearms⟩ := h.move_of_acceptRun hrunning hstep
      exact ⟨hmove, fun _ => hrearms⟩
  | _ => exact hquiet (fun _ _ _ _ => nofun) trivial

/-! ## Runs -/

/-- The invariant of the server, which an exception may break, and that of its accept loop. -/
def Looping (funcs : CallbackTable) (s : HttpServer) : Prop :=
  (s.thrown = none → s.Inv funcs) ∧ s.acceptLoop.WellFormed

theorem loops (funcs : CallbackTable) :
    Loops (step funcs) acceptLoop handed (Looping funcs) where
  inv s a t hs hstep := by
    have hinv := hs.1 (running_of_step hstep)
    exact ⟨fun hthrown => (step_effect hinv hstep).inv hthrown hinv,
      (hinv.move hstep).1.wellFormed hs.2⟩
  wellFormed s hs := hs.2
  move s a t hs hstep := ((hs.1 (running_of_step hstep)).move hstep).1

theorem looping_started (req : Request) (stream : Bytes) : Looping funcs (started req stream) := by
  refine ⟨fun _ => inv_started req stream, Nat.le_refl 1, fun c hc => ?_⟩
  obtain rfl : c = 0 := List.mem_singleton.mp hc
  exact Nat.one_pos

/-- The accept loop of the server survives a run exactly when no handler of an accept is told of an
error, or left by an exception, while the acceptor is open. -/
theorem survives_iff (h : Run (step funcs) (fun _ _ => True) (started req stream) as t) :
    Survives (step funcs) acceptLoop handed (started req stream) as ↔
      Run (step funcs) Rearms (started req stream) as t :=
  (loops funcs).survives_iff
    (fun _ _ _ hs hlistening hstep => ((hs.1 (running_of_step hstep)).move hstep).2 hlistening) h
    (looping_started req stream) (fun _ => rfl)

end HttpServer

end BtcServer.HttpmessageServer
