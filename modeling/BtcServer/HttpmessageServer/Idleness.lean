import BtcServer.HttpmessageServer.Ownership

/-!
# When asio is idle

Where callbacks answer, a connection that asio has nothing left to do for exists only for a reason:
the server accepts into its socket, or it waits for more than its peer has sent
(`owned_iff_of_idle`).
-/

namespace BtcServer.HttpmessageServer

open Boost Lib

namespace Link

variable {funcs : CallbackTable} {as : List Action} {req : Request} {stream : Bytes} {l : Link}

theorem armed_of_answers
    (h : Run (step funcs) (fun _ a => a.answers = true) (started req stream) as l) : l.Armed := by
  have hboth := h.invariant
    (I := fun l => Known funcs ⟨.head, .fresh, req, stream⟩ l ∧ l.Armed)
    (fun _ _ _ hanswers hstep hI => by
      have he := step_effect hI.1.wellFormed hstep
      exact ⟨he.known hI.1, he.armed hanswers hI.1.lastDispatched⟩)
    ⟨known_started funcs req stream, fun _ => .inl (List.cons_ne_nil _ _)⟩
  exact hboth.2

end Link

def Call.answers (i : Nat) : Call Nat → Bool
  | .writeResponse j _ => j = i
  | _ => false

def IoAction.failsRead {τ : Type} : IoAction τ → Bool
  | .readFailed _ _ => true
  | _ => false

namespace HttpConnction

/-- The connection runs, and waits for more than its peer has sent. -/
def Starves (conn : HttpConnction) : Prop :=
  conn.mAbort = false ∧ conn.mSocket.unread = [] ∧
    ∃ op, conn.mSocket.reads = [op] ∧ op.ready conn.mRecvBuffer = none

instance (conn : HttpConnction) : Decidable conn.Starves :=
  decidable_of_iff
    (conn.mAbort = false ∧ conn.mSocket.unread = [] ∧
      ∃ op ∈ conn.mSocket.reads, conn.mSocket.reads = [op] ∧ op.ready conn.mRecvBuffer = none) <| by
    unfold Starves
    simp only [and_congr_right_iff]
    intro _ _
    constructor
    · rintro ⟨op, -, hone, hready⟩
      exact ⟨op, hone, hready⟩
    · rintro ⟨op, hone, hready⟩
      exact ⟨op, hone ▸ List.mem_singleton_self op, hone, hready⟩

def Resting (conn : HttpConnction) : Prop :=
  conn.mSocket.writes = [] ∧ (conn.mSocket.reads = [] ∨ conn.Starves)

instance (conn : HttpConnction) : Decidable conn.Resting := inferInstanceAs (Decidable (_ ∧ _))

end HttpConnction

theorem Link.Fresh.nothing_outstanding {l : Link} (h : l.Fresh) :
    l.conn.mSocket.reads = [] ∧ l.conn.mSocket.writes = [] := by
  obtain ⟨-, req, stream, hconn | hconn⟩ := h <;> rw [hconn] <;> exact ⟨rfl, rfl⟩

namespace HttpServer

variable {funcs : CallbackTable} {s t : HttpServer} {i : Nat}

/-- What asio has to do: everything but to fail the reads of connections that run. -/
def Owed (s : HttpServer) : Action → Prop
  | .io i a => a.failsRead = true → (s.conns i).mAbort = true
  | _ => False

theorem step_io (hrunning : s.thrown = none) (i : Nat) (a : IoAction Nat) :
    step funcs s (.io i a) = ioStep (host funcs i) s a := by
  unfold step
  rw [hrunning]
  rfl

theorem ioStep_of_resting (h : (s.conns i).Resting) {a : IoAction Nat}
    (hfails : a.failsRead = true → (s.conns i).mAbort = true) :
    ioStep (host funcs i) s a = none := by
  obtain ⟨hwrites, hreads | ⟨habort, hunread, op, hreads, hready⟩⟩ := h
  · exact ioStep_of_nothing_outstanding hreads hwrites a
  · cases a with
    | receive k n =>
        have hnone : (s.conns i).receive k n = none := by
          cases hreceive : (s.conns i).receive k n with
          | none => rfl
          | some conn =>
              obtain ⟨-, -, -, -, hone, hle, -⟩ := HttpConnction.receive_eq_some hreceive
              rw [hunread, List.length_nil] at hle
              omega
        exact Option.map_eq_none_iff.mpr hnone
    | readDone k calls =>
        cases hstep : ioStep (host funcs i) s (.readDone k calls) with
        | none => rfl
        | some t =>
            obtain ⟨op', length, hop, hlength, -⟩ := readDone_of_ioStep hstep
            change (s.conns i).mSocket.reads[k]? = some op' at hop
            change op'.ready (s.conns i).mRecvBuffer = some length at hlength
            rw [hreads] at hop
            obtain rfl := List.mem_singleton.mp (List.mem_of_getElem? hop)
            rw [hready] at hlength
            cases hlength
    | readFailed k ec =>
        rw [hfails rfl] at habort
        cases habort
    | writeDone k => simp [ioStep, host, hwrites]
    | writeFailed k ec n => simp [ioStep, host, hwrites]

theorem Inv.wellFormed_of_reads (hs : s.Inv funcs) (hreads : (s.conns i).mSocket.reads ≠ []) :
    (s.link i).WellFormed := by
  have hlive : ¬ (s.link i).Fresh := fun hfresh => hreads hfresh.nothing_outstanding.1
  obtain ⟨req, stream, as, hrun⟩ := hs.served hlive
  exact Link.wellFormed_of_run hrun

theorem resting_of_ioStep (hs : s.Inv funcs)
    (h : ∀ a : IoAction Nat, (a.failsRead = true → (s.conns i).mAbort = true) →
      ioStep (host funcs i) s a = none) : (s.conns i).Resting := by
  have hother {a : IoAction Nat} (ha : a.failsRead = false) : ioStep (host funcs i) s a = none := by
    apply h a
    intro hfails
    rw [ha] at hfails
    cases hfails
  have hwrites : (s.conns i).mSocket.writes = [] := by
    have hwritten : ioStep (host funcs i) s (.writeDone 0) = none := hother rfl
    have hdone : ((s.conns i).mSocket.writes[0]?).map _ = none := hwritten
    have hnone : (s.conns i).mSocket.writes[0]? = none := Option.map_eq_none_iff.mp hdone
    exact List.eq_nil_of_length_eq_zero (Nat.le_zero.mp (List.getElem?_eq_none_iff.mp hnone))
  refine ⟨hwrites, ?_⟩
  by_cases hreads : (s.conns i).mSocket.reads = []
  · exact .inl hreads
  · have hshape := hs.wellFormed_of_reads hreads
    obtain ⟨op, hone⟩ : ∃ op, (s.conns i).mSocket.reads = [op] := by
      rcases hshape.reads_shape with hnil | huntil | ⟨wanted, left, hexactly, -⟩
      · exact absurd hnil hreads
      · exact ⟨_, huntil⟩
      · exact ⟨_, hexactly⟩
    have hop : (s.conns i).mSocket.reads[0]? = some op := by
      rw [hone]
      rfl
    have habort : (s.conns i).mAbort = false := by
      by_contra hstopped
      have hfailed := h (.readFailed 0 .operationAborted) fun _ => eq_true_of_ne_false hstopped
      unfold ioStep at hfailed
      simp [host, hop, HttpConnction.canFail] at hfailed
    have hready : op.ready (s.conns i).mRecvBuffer = none := by
      cases hlength : op.ready (s.conns i).mRecvBuffer with
      | none => rfl
      | some length =>
          have hdone : ioStep (host funcs i) s (.readDone 0 []) = none := hother rfl
          rw [ioStep_readDone hop hlength] at hdone
          cases hdone
    refine .inr ⟨habort, ?_, op, hone, hready⟩
    by_contra hunread
    have hreceived : ioStep (host funcs i) s (.receive 0 1) = none := hother rfl
    have hnone : (s.conns i).receive 0 1 = none := Option.map_eq_none_iff.mp hreceived
    have hopen : (s.conns i).mSocket.isOpen = true := by
      have hisOpen : (s.conns i).mSocket.isOpen = !(s.conns i).mAbort := hshape.isOpen_eq
      rw [hisOpen, habort]
      rfl
    have hpos : 1 ≤ (s.conns i).mSocket.unread.length := List.length_pos_of_ne_nil hunread
    unfold HttpConnction.receive at hnone
    simp [hop, hopen, hready, hpos, ReadOp.accepts_one hready] at hnone

theorem atRest_iff (hs : s.Inv funcs) (hrunning : s.thrown = none) :
    AtRest (step funcs) Owed s ↔ ∀ i, (s.conns i).Resting := by
  constructor
  · intro h i
    apply resting_of_ioStep hs
    intro a ha
    rw [← step_io hrunning]
    exact h (.io i a) ha
  · intro h a ha
    cases a with
    | io i a =>
        rw [step_io hrunning]
        exact ioStep_of_resting (h i) ha
    | _ => exact ha.elim

/-- A callback that is invoked calls `write_response` on its connection before it returns. -/
def Action.answers : Action → Bool
  | .io i (.readDone _ calls) => calls.any (Call.answers i)
  | _ => true

theorem allows_of_answers {a : Action} (h : a.answers = true) :
    Allows (fun _ b => b.answers = true) i s a := by
  refine ⟨fun b hb => ?_, fun l b hb => ?_⟩
  · cases a with
    | io j a =>
        change (if j = i then some _ else none) = some b at hb
        split_ifs at hb with hj
        subst hj
        obtain rfl := Option.some.inj hb
        cases a with
        | readDone k calls =>
            obtain ⟨c, hc, hanswers⟩ := List.any_eq_true.mp h
            apply List.any_eq_true.mpr
            cases c with
            | writeResponse j' body =>
                obtain rfl : j' = j := of_decide_eq_true hanswers
                have hon : (Call.writeResponse j' body).on j' = some (.writeResponse () body) :=
                  if_pos rfl
                exact ⟨_, List.mem_filterMap.mpr ⟨_, hc, hon⟩, rfl⟩
            | stop | stopAll => cases hanswers
        | _ => rfl
    | _ => cases hb
  · have haction (c : Call Unit) : c.action.answers = true := by cases c <;> rfl
    cases a with
    | io j a =>
        change b ∈ (if j = i then [] else _) at hb
        split_ifs at hb
        · cases hb
        · obtain ⟨c, -, rfl⟩ := List.mem_map.mp hb
          exact haction c
    | respond j body =>
        change b ∈ (if j = i then [_] else []) at hb
        split_ifs at hb
        · obtain rfl := List.mem_singleton.mp hb
          rfl
        · cases hb
    | stop j =>
        change b ∈ (if j = i then [_] else []) at hb
        split_ifs at hb
        · obtain rfl := List.mem_singleton.mp hb
          rfl
        · cases hb
    | stopAll | serverStop =>
        obtain rfl := List.mem_singleton.mp hb
        rfl
    | acceptDone | acceptRun => cases hb

section

variable {as : List Action} {req : Request} {stream : Bytes}

theorem armed_of_started
    (h : Run (step funcs) (fun _ a => a.answers = true) (started req stream) as t)
    (hstarted : t.Started i) (habort : (t.conns i).mAbort = false) :
    (t.conns i).mSocket.reads ≠ [] ∨ (t.conns i).mSocket.writes ≠ [] := by
  cases hp : (peersOf funcs req stream as)[i]? with
  | none =>
      obtain ⟨hlog, -⟩ := log_of_unconstructed h hp
      unfold Started at hstarted
      rw [hlog] at hstarted
      cases hstarted
  | some p =>
      obtain ⟨l, hconn, hown⟩ := ownRun_of_run (fun _ _ b => b.answers = true)
        (fun _ _ _ hanswers _ => allows_of_answers hanswers) h hp
      unfold Started at hstarted
      rw [← hconn] at hstarted habort ⊢
      rcases hown with ⟨hwaiting, -⟩ | ⟨bs, hrun, -⟩
      · rw [hwaiting.fresh.log_eq] at hstarted
        cases hstarted
      · exact Link.armed_of_answers hrun habort

end

end HttpServer

namespace Sharing

variable {funcs : CallbackTable} {s t : Sharing} {i : Nat}

def Action.answers : Action → Bool
  | .server a _ => a.answers
  | .drop _ => true

section

variable {ok : Sharing → Action → Prop} {ok' : HttpServer → HttpServer.Action → Prop}
  {as : List Action} {req : Request} {stream : Bytes}

theorem run_server (h : Run (step funcs) ok s as t)
    (hok : ∀ s b keeps, ok s (.server b keeps) → ok' s.server b) :
    Reaches (HttpServer.step funcs) ok' s.server t.server := by
  induction h with
  | nil s => exact .refl _
  | cons ha hstep _ ih =>
      rcases server_of_step hstep with ⟨hsame, -⟩ | ⟨b, keeps, rfl, -, hserver, -⟩
      · rwa [hsame] at ih
      · exact (Reaches.single (hok _ _ _ ha) hserver).trans ih

/-- When every callback answers, nobody outside of the server holds a connection, and asio has
nothing left to do, then the connections that still exist are the one that the server accepts, and
those that wait for more than their peers have sent. -/
theorem owned_iff_of_idle
    (h : Run (step funcs) (fun _ a => a.answers = true) (started req stream) as s)
    (hrunning : s.server.thrown = none) (hkept : s.kept = ∅)
    (hidle : AtRest (HttpServer.step funcs) HttpServer.Owed s.server) :
    s.Owned i ↔ s.server.mHttpConnectionPtr = some i ∨ (s.server.conns i).Starves := by
  obtain ⟨bs, hrun⟩ : Reaches (HttpServer.step funcs) (fun _ b => b.answers = true)
      (HttpServer.started req stream) s.server := run_server h fun _ _ _ hanswers => hanswers
  have hs := HttpServer.inv_of_run hrun hrunning
  obtain ⟨hwrites, hreads⟩ := (HttpServer.atRest_iff hs hrunning).mp hidle i
  constructor
  · rintro (hptr | hset | hreading | hwriting | hmem)
    · exact .inl hptr
    · obtain ⟨hstarted, habort⟩ := (hs.mem_iff i).mp hset
      rcases hreads with hnil | hstarves
      · rcases HttpServer.armed_of_started hrun hstarted habort with hreading | hwriting
        · exact absurd hnil hreading
        · exact absurd hwrites hwriting
      · exact .inr hstarves
    · exact .inr (hreads.resolve_left hreading)
    · exact absurd hwrites hwriting
    · rw [hkept] at hmem
      exact absurd hmem (Finset.notMem_empty i)
  · rintro (hptr | ⟨-, -, op, hone, -⟩)
    · exact .inl hptr
    · refine .inr (.inr (.inl ?_))
      rw [hone]
      exact List.cons_ne_nil _ _

/-- One peer has been served, the next has sent the beginning of a request, and a third connection
waits for its peer. -/
def threeConnections : List Action :=
  [.server (.acceptDone 0 .success) false,
    .server (.acceptRun 0 .success (.uninitialised 0 0 0 false) (str "GET")) false,
    .server (.io 0 (.receive 0 18)) false,
    .server (.io 0 (.readDone 0 [.writeResponse 0 (str "/")])) false,
    .server (.io 0 (.writeDone 0)) false,
    .server (.acceptDone 0 .success) false,
    .server (.acceptRun 0 .success (.uninitialised 0 0 0 false) []) false,
    .server (.io 1 (.receive 0 3)) false]

theorem owned_iff_of_threeConnections :
    ∃ s, Run (step Link.oneCallback) (fun _ a => a.answers = true)
        (started HttpServer.getPeer.1 HttpServer.getPeer.2) threeConnections s ∧
      AtRest (HttpServer.step Link.oneCallback) HttpServer.Owed s.server ∧
      (s.server.conns 1).Starves ∧
      ∀ i, s.Owned i ↔ s.server.mHttpConnectionPtr = some i ∨ (s.server.conns i).Starves := by
  have hrun : ∃ s, Run (step Link.oneCallback) (fun _ a => a.answers = true)
      (started HttpServer.getPeer.1 HttpServer.getPeer.2) threeConnections s ∧
      (s.server.thrown = none ∧ s.kept = ∅ ∧ s.server.created = 3 ∧
        (∀ i < 3, (s.server.conns i).Resting) ∧ (s.server.conns 1).Starves) :=
    exists_run_of_exec (by decide +kernel)
  obtain ⟨s, h, hrunning, hkept, hcreated, hresting, hstarves⟩ := hrun
  have hs := (settled_of_run h).inv hrunning
  have hidle : AtRest (HttpServer.step Link.oneCallback) HttpServer.Owed s.server := by
    apply (HttpServer.atRest_iff hs hrunning).mpr
    intro i
    by_cases hi : i < 3
    · exact hresting i hi
    · obtain ⟨hreads, hwrites⟩ :=
        (hs.unused i (hcreated ▸ Nat.not_lt.mp hi)).nothing_outstanding
      exact ⟨hwrites, .inl hreads⟩
  exact ⟨s, h, hidle, hstarves, fun i => owned_iff_of_idle h hrunning hkept hidle⟩

end

end Sharing

end BtcServer.HttpmessageServer
