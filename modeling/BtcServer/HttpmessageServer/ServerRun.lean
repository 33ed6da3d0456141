import BtcServer.HttpmessageServer.Lifetime
import BtcServer.HttpmessageServer.Projection

/-!
# Runs of the server

What a step of the server does (`Effect`), and that in every run of the server each connection that
was started takes a run of its own (`inv_of_run`, `Inv.reaches`).
-/

namespace BtcServer.HttpmessageServer

open Boost Lib

namespace HttpServer

variable {funcs : CallbackTable} {s t u : HttpServer} {a : Action}

/-! ## What a step does -/

/-- `op` is the one accept that is outstanding, and the connection it fills was not started. -/
structure Accepting (s : HttpServer) (op : AcceptOp) : Prop where
  alone : s.accepts = [op]
  ptr_eq : s.mHttpConnectionPtr = some op.conn
  created : op.conn < s.created
  unregistered : (s.link op.conn).registered = false
  conn_eq : ∃ req stream, s.conns op.conn =
    if op.done = some .success then (HttpConnction.create req stream).accepted
    else .create req stream

/-- Every connection is fresh or in a run of its own. -/
structure Inv (funcs : CallbackTable) (s : HttpServer) : Prop where
  each : ∀ i, (s.link i).Fresh ∨ (s.link i).Served funcs
  unused : ∀ i, s.created ≤ i → (s.link i).Fresh
  accepting : ∀ op ∈ s.accepts, s.Accepting op

/-- Everything a step can do. -/
inductive Effect (funcs : CallbackTable) (s : HttpServer) : Action → HttpServer → Prop
  /-- The socket of a new connection is connected. -/
  | connected {c : Nat} {req : Request} {stream : Bytes} (haccepting : s.Accepting ⟨c, none⟩)
      (hconn : s.conns c = .create req stream) :
      Effect funcs s (.acceptDone 0 .success)
        ({ s with accepts := [⟨c, some .success⟩] }.setConn c
          (HttpConnction.create req stream).accepted)
  | unconnected {ec : ErrorCode} {c : Nat} (haccepting : s.Accepting ⟨c, none⟩)
      (hec : ec.failed = true) :
      Effect funcs s (.acceptDone 0 ec) { s with accepts := [⟨c, some ec⟩] }
  | acceptFailed {ec setOption : ErrorCode} {c : Nat} {req : Request} {stream : Bytes}
      (haccepting : s.Accepting ⟨c, some ec⟩) (hec : ec.failed = true) :
      Effect funcs s (.acceptRun 0 setOption req stream) { s with accepts := [] }
  /-- A connection is started, and the next constructed. -/
  | admitted {c : Nat} {req₀ req : Request} {stream₀ stream : Bytes}
      (haccepting : s.Accepting ⟨c, some .success⟩)
      (hconn : s.conns c = (HttpConnction.create req₀ stream₀).accepted) :
      Effect funcs s (.acceptRun 0 .success req stream)
        ((managerStart { s with accepts := [] } c .success).start req stream)
  /-- `set_option` fails. -/
  | threw {setOption : ErrorCode} {c : Nat} {req : Request} {stream : Bytes}
      (haccepting : s.Accepting ⟨c, some .success⟩) (hset : setOption.failed = true) :
      Effect funcs s (.acceptRun 0 setOption req stream)
        (managerStart { s with accepts := [] } c setOption)
  /-- Connections run. -/
  | moves {a : Action} {t : HttpServer} (hframe : Frame funcs (fun _ => False) s t) :
      Effect funcs s a t
  | serverStop : Effect funcs s .serverStop s.stop

theorem frame_ioStep {i : Nat} {a : IoAction Nat} (hfresh : ¬ (s.link i).Fresh)
    (h : ioStep (host funcs i) s a = some t) : Frame funcs (fun _ => False) s t := by
  have hframe := ioStep_relates (respects_frame funcs i) h
  refine ⟨hframe.isOpen_eq, hframe.accepts_eq, hframe.ptr_eq, hframe.created_eq,
    hframe.thrown_eq, hframe.subset, fun j _ => ?_⟩
  by_cases hj : j = i
  · subst hj
    exact .inr ⟨hfresh, .single trivial (link_ioStep h)⟩
  · exact hframe.others j hj

theorem Inv.accepting_of_getElem? (h : s.Inv funcs) {i : Nat} {op : AcceptOp}
    (hop : s.accepts[i]? = some op) : i = 0 ∧ s.Accepting op := by
  have haccepting := h.accepting op (List.mem_of_getElem? hop)
  rw [haccepting.alone] at hop
  obtain ⟨hi, -⟩ := List.getElem?_eq_some_iff.mp hop
  exact ⟨by simpa using hi, haccepting⟩

theorem Accepting.conn_of_none {c : Nat} (h : s.Accepting ⟨c, none⟩) :
    ∃ req stream, s.conns c = .create req stream := by
  obtain ⟨req, stream, hconn⟩ := h.conn_eq
  exact ⟨req, stream, by simpa using hconn⟩

theorem Accepting.conn_of_success {c : Nat} (h : s.Accepting ⟨c, some .success⟩) :
    ∃ req stream, s.conns c = (HttpConnction.create req stream).accepted := by
  obtain ⟨req, stream, hconn⟩ := h.conn_eq
  exact ⟨req, stream, by simpa using hconn⟩

theorem Accepting.fresh {op : AcceptOp} (h : s.Accepting op) : (s.link op.conn).Fresh := by
  obtain ⟨req, stream, hconn⟩ := h.conn_eq
  refine ⟨h.unregistered, req, stream, ?_⟩
  split_ifs at hconn
  · exact .inr hconn
  · exact .inl hconn

theorem effect_of_acceptDone (h : s.Inv funcs) {i : Nat} {ec : ErrorCode}
    (hdone : s.acceptDone i ec = some t) : Effect funcs s (.acceptDone i ec) t := by
  unfold acceptDone at hdone
  split at hdone
  case h_2 => cases hdone
  case h_1 c hop =>
    obtain ⟨rfl, haccepting⟩ := h.accepting_of_getElem? hop
    have haccepts := haccepting.alone
    obtain ⟨req, stream, hconn⟩ := haccepting.conn_of_none
    have hset : s.accepts.set 0 ⟨c, some ec⟩ = [⟨c, some ec⟩] := by
      rw [haccepts]
      rfl
    rw [hset] at hdone
    obtain rfl := Option.some.inj hdone
    by_cases hec : ec.failed = true
    · simp only [hec, if_true]
      exact .unconnected haccepting hec
    · obtain rfl := ErrorCode.eq_success hec
      simp only [hec, hconn]
      exact .connected haccepting hconn

theorem handOver_eq {c : Nat} (hptr : s.mHttpConnectionPtr = some c) (setOption : ErrorCode)
    (req : Request) (stream : Bytes) :
    s.handOver setOption req stream =
      some (if (s.managerStart c setOption).thrown.isSome then s.managerStart c setOption
        else (s.managerStart c setOption).start req stream) := by
  unfold handOver
  rw [hptr]
  rfl

theorem managerStart_success {c : Nat} {req : Request} {stream : Bytes}
    (hconn : s.conns c = (HttpConnction.create req stream).accepted) :
    s.managerStart c .success =
      { s with
        mHttpConnectionPtrs := insert c s.mHttpConnectionPtrs
        conns := Function.update s.conns c (Link.started req stream).conn } := by
  unfold managerStart
  dsimp only
  rw [hconn, Link.start_accepted]
  rfl

theorem created_managerStart {c : Nat} {req : Request} {stream : Bytes}
    (hconn : s.conns c = (HttpConnction.create req stream).accepted) :
    (s.managerStart c .success).created = s.created := by
  rw [managerStart_success hconn]

theorem thrown_managerStart {ec : ErrorCode} (hec : ec.failed = true) (s : HttpServer) (c : Nat) :
    (s.managerStart c ec).thrown ≠ none := by
  simp [managerStart, HttpConnction.start, hec]

theorem handleAccept_of_failed {ec : ErrorCode} (hec : ec.failed = true) (s : HttpServer)
    (setOption : ErrorCode) (req : Request) (stream : Bytes) :
    s.handleAccept ec setOption req stream = some s := by
  simp [handleAccept, hec]

theorem handleAccept_success {c : Nat} (hptr : s.mHttpConnectionPtr = some c)
    (setOption : ErrorCode) (req : Request) (stream : Bytes) :
    s.handleAccept .success setOption req stream =
      some (if (s.managerStart c setOption).thrown.isSome then s.managerStart c setOption
        else (s.managerStart c setOption).start req stream) := by
  rw [← handOver_eq hptr]
  simp [handleAccept, ErrorCode.failed]

theorem Inv.acceptRun_cases (h : s.Inv funcs) {i : Nat} {setOption : ErrorCode} {req : Request}
    {stream : Bytes} (hrun : s.acceptRun i setOption req stream = some t) :
    i = 0 ∧ ∃ c ec, s.Accepting ⟨c, some ec⟩ ∧
      handleAccept { s with accepts := [] } ec setOption req stream = some t := by
  unfold acceptRun at hrun
  split at hrun
  case h_1 c ec hop =>
    obtain ⟨rfl, haccepting⟩ := h.accepting_of_getElem? hop
    refine ⟨rfl, c, ec, haccepting, ?_⟩
    have herase : s.accepts.eraseIdx 0 = [] := by
      rw [haccepting.alone]
      rfl
    rw [herase] at hrun
    exact hrun
  case h_2 => cases hrun

theorem acceptRun_of_success {c : Nat} (h : s.Accepting ⟨c, some .success⟩)
    (setOption : ErrorCode) (req : Request) (stream : Bytes) :
    s.acceptRun 0 setOption req stream =
      some (if (managerStart { s with accepts := [] } c setOption).thrown.isSome then
          managerStart { s with accepts := [] } c setOption
        else (managerStart { s with accepts := [] } c setOption).start req stream) := by
  have hptr : ({ s with accepts := [] } : HttpServer).mHttpConnectionPtr = some c := h.ptr_eq
  rw [← handleAccept_success hptr]
  unfold acceptRun
  rw [h.alone]
  rfl

theorem thrown_managerStart_success {c : Nat} (h : s.Accepting ⟨c, some .success⟩) :
    (managerStart { s with accepts := [] } c .success).thrown = s.thrown := by
  obtain ⟨req, stream, hconn⟩ := h.conn_of_success
  have hconn' : ({ s with accepts := [] } : HttpServer).conns c = _ := hconn
  rw [managerStart_success hconn']

theorem effect_of_acceptRun (h : s.Inv funcs) {i : Nat} {setOption : ErrorCode} {req : Request}
    {stream : Bytes} (hrunning : ¬ s.thrown.isSome = true)
    (hrun : s.acceptRun i setOption req stream = some t) :
    Effect funcs s (.acceptRun i setOption req stream) t := by
  obtain ⟨rfl, c, ec, haccepting, hhandle⟩ := h.acceptRun_cases hrun
  by_cases hec : ec.failed = true
  · rw [handleAccept_of_failed hec] at hhandle
    obtain rfl := Option.some.inj hhandle
    exact .acceptFailed haccepting hec
  · obtain rfl := ErrorCode.eq_success hec
    rw [acceptRun_of_success haccepting] at hrun
    obtain rfl := Option.some.inj hrun
    by_cases hset : setOption.failed = true
    · rw [if_pos (Option.isSome_iff_ne_none.mpr (thrown_managerStart hset _ c))]
      exact .threw haccepting hset
    · obtain rfl := ErrorCode.eq_success hset
      obtain ⟨req₀, stream₀, hconn⟩ := haccepting.conn_of_success
      rw [if_neg (by rwa [thrown_managerStart_success haccepting])]
      exact .admitted haccepting hconn

theorem step_effect (h : s.Inv funcs) (hstep : step funcs s a = some t) :
    Effect funcs s a t := by
  unfold step at hstep
  split at hstep
  case isTrue => cases hstep
  case isFalse hrunning =>
    cases a with
    | acceptDone i ec => exact effect_of_acceptDone h hstep
    | acceptRun i setOption req stream => exact effect_of_acceptRun h hrunning hstep
    | io i a =>
        refine .moves (frame_ioStep (fun hfresh => ?_) hstep)
        have := link_ioStep hstep
        rw [hfresh.ioStep_eq] at this
        cases this
    | respond i body =>
        dsimp only at hstep
        split_ifs at hstep
        obtain rfl := Option.some.inj hstep
        exact .moves (.call s _)
    | stop i =>
        dsimp only at hstep
        split_ifs at hstep
        obtain rfl := Option.some.inj hstep
        exact .moves (.call s _)
    | stopAll =>
        obtain rfl := Option.some.inj hstep
        exact .moves (.managerStopAll s)
    | serverStop =>
        obtain rfl := Option.some.inj hstep
        exact .serverStop

/-! ## What every step keeps -/

theorem link_managerStart_self {c : Nat} {req : Request} {stream : Bytes}
    (hconn : s.conns c = (HttpConnction.create req stream).accepted) :
    (s.managerStart c .success).link c = Link.started req stream := by
  rw [managerStart_success hconn]
  simp [link, Link.started]

theorem link_managerStart_of_ne {c i : Nat} {req : Request} {stream : Bytes} (hi : i ≠ c)
    (hconn : s.conns c = (HttpConnction.create req stream).accepted) :
    (s.managerStart c .success).link i = s.link i := by
  rw [managerStart_success hconn]
  simp [link, hi]

theorem link_start_self (s : HttpServer) (req : Request) (stream : Bytes) :
    (s.start req stream).link s.created =
      ⟨.create req stream, (s.link s.created).registered⟩ := by
  unfold link start
  dsimp only
  rw [Function.update_self]

theorem link_start_of_ne {i : Nat} (hi : i ≠ s.created) (req : Request) (stream : Bytes) :
    (s.start req stream).link i = s.link i := by
  unfold link start
  dsimp only
  rw [Function.update_of_ne hi]

/-- What a step does to one connection: it takes steps of its own, or it is on its way to be
started. -/
inductive Moved (funcs : CallbackTable) (l : Link) : Link → Prop
  | touched {m : Link} (h : Link.Touched funcs l m) : Moved funcs l m
  | fresh {m : Link} (hl : l.Fresh) (hm : m.Fresh) : Moved funcs l m
  | started (hl : l.Fresh) (req : Request) (stream : Bytes) :
      Moved funcs l (Link.started req stream)

theorem moved_of_admitted {c : Nat} {req₀ req : Request} {stream₀ stream : Bytes}
    (hfresh : (s.link c).Fresh) (hconn : s.conns c = (HttpConnction.create req₀ stream₀).accepted)
    (hcreated : c < s.created) (hunused : (s.link s.created).Fresh) (i : Nat) :
    Moved funcs (s.link i) (((s.managerStart c .success).start req stream).link i) := by
  have hsame := created_managerStart hconn
  by_cases hi : i = s.created
  · subst hi
    have hlink := link_managerStart_of_ne (Nat.ne_of_gt hcreated) hconn
    have hstart := link_start_self (s.managerStart c .success) req stream
    rw [hsame, hlink, hunused.1] at hstart
    rw [hstart]
    exact .fresh hunused ⟨rfl, req, stream, .inl rfl⟩
  · rw [link_start_of_ne (hsame ▸ hi)]
    by_cases hc : i = c
    · subst hc
      rw [link_managerStart_self hconn]
      exact .started hfresh req₀ stream₀
    · rw [link_managerStart_of_ne hc hconn]
      exact .touched (.refl _)

theorem link_stop (s : HttpServer) (i : Nat) : s.stop.link i = (s.link i).call .stopAll :=
  link_managerStopAll _ i

theorem Effect.moved (he : Effect funcs s a t) (hthrown : t.thrown = none) (h : s.Inv funcs)
    (i : Nat) : Moved funcs (s.link i) (t.link i) := by
  cases he with
  | threw _ hset => exact absurd hthrown (thrown_managerStart hset _ _)
  | @connected c req stream haccepting hconn =>
      by_cases hi : i = c
      · subst hi
        rw [link_setConn_self]
        exact .fresh haccepting.fresh ⟨haccepting.unregistered, req, stream, .inr rfl⟩
      · rw [link_setConn_of_ne hi]
        exact .touched (.refl _)
  | unconnected => exact .touched (.refl _)
  | acceptFailed => exact .touched (.refl _)
  | @admitted c req₀ req stream₀ stream haccepting hconn =>
      exact moved_of_admitted (s := { s with accepts := [] }) haccepting.fresh hconn
        haccepting.created (h.unused _ le_rfl) i
  | moves hframe => exact .touched (hframe.others i not_false)
  | serverStop =>
      rw [link_stop]
      exact .touched (Link.touched_stopAll _)

theorem Moved.each {l m : Link} (h : Moved funcs l m) (hl : l.Fresh ∨ l.Served funcs) :
    m.Fresh ∨ m.Served funcs := by
  cases h with
  | touched htouched =>
      rcases hl with hfresh | ⟨req, stream, hreaches⟩
      · rw [htouched.fresh hfresh]
        exact .inl hfresh
      · exact .inr ⟨req, stream, hreaches.trans htouched.reaches⟩
  | fresh _ hm => exact .inl hm
  | started _ req stream => exact .inr ⟨req, stream, .refl _⟩

theorem Moved.reaches {l m : Link} (h : Moved funcs l m) (hl : ¬ l.Fresh) :
    Reaches (Link.step funcs) (fun _ _ => True) l m := by
  cases h with
  | touched htouched => exact htouched.reaches
  | fresh hfresh _ => exact absurd hfresh hl
  | started hfresh _ _ => exact absurd hfresh hl

theorem Accepting.of_link {op op' : AcceptOp} (h : s.Accepting op) (halone : t.accepts = [op'])
    (hconn : op'.conn = op.conn) (hdone : op'.done = some .success ↔ op.done = some .success)
    (hptr : t.mHttpConnectionPtr = s.mHttpConnectionPtr) (hcreated : t.created = s.created)
    (hlink : t.link op.conn = s.link op.conn) : t.Accepting op' where
  alone := halone
  ptr_eq := by rw [hptr, hconn, h.ptr_eq]
  created := by rw [hcreated, hconn]; exact h.created
  unregistered := by rw [hconn, hlink]; exact h.unregistered
  conn_eq := by
    obtain ⟨req, stream, heq⟩ := h.conn_eq
    refine ⟨req, stream, ?_⟩
    rw [hconn, show t.conns op.conn = s.conns op.conn from congrArg Link.conn hlink, heq]
    simp only [hdone]

theorem accepting_start (hnone : s.accepts = []) (hunused : (s.link s.created).Fresh)
    (req : Request) (stream : Bytes) :
    ∀ op ∈ (s.start req stream).accepts, (s.start req stream).Accepting op := by
  intro op hop
  have haccepts : (s.start req stream).accepts =
      [⟨s.created, if s.mAcceptorIsOpen then none else some .other⟩] := by
    change s.accepts ++ _ = _
    rw [hnone]
    rfl
  rw [haccepts] at hop
  obtain rfl := List.mem_singleton.mp hop
  refine ⟨haccepts, rfl, Nat.lt_succ_self _, ?_, req, stream, ?_⟩
  · rw [link_start_self]
    exact hunused.1
  · have hdone : (if s.mAcceptorIsOpen then none else some ErrorCode.other) ≠
        some ErrorCode.success := by
      split_ifs <;> simp
    rw [if_neg hdone]
    exact Function.update_self ..

theorem Effect.accepting (he : Effect funcs s a t) (hthrown : t.thrown = none)
    (h : s.Inv funcs) : ∀ op ∈ t.accepts, t.Accepting op := by
  intro op hop
  cases he with
  | threw _ hset => exact absurd hthrown (thrown_managerStart hset _ _)
  | @connected c req stream haccepting hconn =>
      obtain rfl := List.mem_singleton.mp hop
      refine ⟨rfl, haccepting.ptr_eq, haccepting.created, ?_, req, stream, ?_⟩
      · rw [link_setConn_self]
        exact haccepting.unregistered
      · simp [setConn]
  | @unconnected ec c haccepting hec =>
      obtain rfl := List.mem_singleton.mp hop
      refine haccepting.of_link rfl rfl ?_ rfl rfl rfl
      have hne : ec ≠ .success := by simpa [ErrorCode.failed] using hec
      simp [hne]
  | acceptFailed => cases hop
  | @admitted c req₀ req stream₀ stream haccepting hconn =>
      have hconn' : ({ s with accepts := [] } : HttpServer).conns c = _ := hconn
      refine accepting_start ?_ ?_ req stream op hop
      · rw [managerStart_success hconn']
      · rw [created_managerStart hconn',
          link_managerStart_of_ne (Nat.ne_of_gt haccepting.created) hconn']
        exact h.unused _ le_rfl
  | moves hframe =>
      rw [hframe.accepts_eq] at hop
      have haccepting := h.accepting op hop
      refine haccepting.of_link (hframe.accepts_eq.trans haccepting.alone) rfl Iff.rfl
        hframe.ptr_eq hframe.created_eq ?_
      exact (hframe.others op.conn not_false).fresh haccepting.fresh
  | serverStop =>
      obtain ⟨old, hold, rfl⟩ := List.mem_map.mp hop
      have haccepting := h.accepting old hold
      refine haccepting.of_link ?_ rfl ?_ rfl rfl ?_
      · change s.accepts.map AcceptOp.abort = _
        rw [haccepting.alone]
        rfl
      · unfold AcceptOp.abort
        cases old.done <;> simp
      · rw [link_stop, haccepting.fresh.call_stopAll]

theorem Effect.inv (he : Effect funcs s a t) (hthrown : t.thrown = none) (h : s.Inv funcs) :
    t.Inv funcs where
  each i := (he.moved hthrown h i).each (h.each i)
  unused i hi := by
    cases he with
    | threw _ hset => exact absurd hthrown (thrown_managerStart hset _ _)
    | @connected c req stream haccepting hconn =>
        rw [link_setConn_of_ne (Nat.ne_of_gt (Nat.lt_of_lt_of_le haccepting.created hi))]
        exact h.unused i hi
    | unconnected => exact h.unused i hi
    | acceptFailed => exact h.unused i hi
    | @admitted c req₀ req stream₀ stream haccepting hconn =>
        have hconn' : ({ s with accepts := [] } : HttpServer).conns c = _ := hconn
        have hbelow : c < s.created := haccepting.created
        have hcreated := created_managerStart hconn'
        have hlt : s.created + 1 ≤ i := hcreated ▸ hi
        have hne : i ≠ s.created := by omega
        rw [link_start_of_ne (by rw [hcreated]; exact hne),
          link_managerStart_of_ne (by omega) hconn']
        exact h.unused i (Nat.le_of_lt hlt)
    | moves hframe =>
        have hfresh := h.unused i (hframe.created_eq ▸ hi)
        rw [(hframe.others i not_false).fresh hfresh]
        exact hfresh
    | serverStop =>
        have hfresh := h.unused i hi
        rw [link_stop, hfresh.call_stopAll]
        exact hfresh
  accepting := he.accepting hthrown h

/-! ## Runs -/

theorem running_of_step (h : step funcs s a = some t) : s.thrown = none := by
  unfold step at h
  cases hthrown : s.thrown with
  | none => rfl
  | some what => simp [hthrown] at h

theorem inv_started (req : Request) (stream : Bytes) : (started req stream).Inv funcs := by
  have hfresh (i : Nat) : (create.init.link i).Fresh := ⟨rfl, _, _, .inl rfl⟩
  have heach (i : Nat) : ((started req stream).link i).Fresh := by
    by_cases hi : i = 0
    · subst hi
      change ((create.init.start req stream).link create.init.created).Fresh
      rw [link_start_self]
      exact ⟨rfl, req, stream, .inl rfl⟩
    · unfold started
      rw [link_start_of_ne hi]
      exact hfresh i
  exact ⟨fun i => .inl (heach i), fun i _ => heach i, accepting_start rfl (hfresh 0) req stream⟩

section

variable {ok : HttpServer → Action → Prop} {as : List Action} {req : Request} {stream : Bytes}

theorem Inv.run (h : Run (step funcs) ok s as t) (hs : s.Inv funcs) (hthrown : t.thrown = none) :
    t.Inv funcs :=
  h.invariant (I := fun s => s.thrown = none → s.Inv funcs)
    (fun _ _ _ _ hstep hI ht =>
      (step_effect (hI (running_of_step hstep)) hstep).inv ht (hI (running_of_step hstep)))
    (fun _ => hs) hthrown

theorem inv_of_run (h : Run (step funcs) ok (started req stream) as s) (hthrown : s.thrown = none) :
    s.Inv funcs :=
  (inv_started req stream).run h hthrown

theorem served_not_fresh {l : Link} (h : l.Served funcs) : ¬ l.Fresh := by
  obtain ⟨req, stream, as, hrun⟩ := h
  intro hfresh
  have hstarted := (Link.log_of_run hrun).1
  rw [hfresh.log_eq] at hstarted
  cases hstarted

theorem Inv.served (h : s.Inv funcs) {i : Nat} (hi : ¬ (s.link i).Fresh) :
    (s.link i).Served funcs :=
  (h.each i).resolve_left hi

/-- Every run of the server is a run of each connection that was started. -/
theorem Inv.reaches (hs : s.Inv funcs) (h : Run (step funcs) ok s as t) (hthrown : t.thrown = none)
    {i : Nat} (hi : ¬ (s.link i).Fresh) :
    Reaches (Link.step funcs) (fun _ _ => True) (s.link i) (t.link i) := by
  obtain ⟨req, stream, hserved⟩ := hs.served hi
  have hboth := h.invariant
    (I := fun u => u.thrown = none →
      u.Inv funcs ∧ Reaches (Link.step funcs) (fun _ _ => True) (s.link i) (u.link i))
    (fun u a v _ hstep hI hv => by
      obtain ⟨hu, hreaches⟩ := hI (running_of_step hstep)
      have he := step_effect hu hstep
      refine ⟨he.inv hv hu, ?_⟩
      have hlive := served_not_fresh ⟨req, stream, hserved.trans hreaches⟩
      exact hreaches.trans ((he.moved hv hu i).reaches hlive))
    (fun _ => ⟨hs, .refl _⟩)
  exact (hboth hthrown).2

end

end HttpServer

end BtcServer.HttpmessageServer
