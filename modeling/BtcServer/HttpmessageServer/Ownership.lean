import BtcServer.HttpmessageServer.EveryPeer
import BtcServer.HttpmessageServer.Lifecycle

/-!
# How long a connection lives

A connection is destroyed when the last `std::shared_ptr` to it goes.  The server holds one while it
accepts, the set of the manager holds one, the handler of an outstanding read or write is bound to
one, and a callback may keep the one that it is given.  The handler of an accept is bound to the
server only, although the accept fills the socket of a connection.

No connection is touched when nobody holds it any more (`released_of_run`).
-/

namespace BtcServer.HttpmessageServer

open Boost Lib

def Call.target : Call Nat → Option Nat
  | .writeResponse i _ => some i
  | .stop i => some i
  | .stopAll => none

namespace HttpServer

/-- The connections that an action names from outside of the server. -/
def Action.targets : Action → List Nat
  | .io j a => (a.calls.filterMap Call.target).filter fun i => i ≠ j
  | .respond i _ => [i]
  | .stop i => [i]
  | _ => []

def given (funcs : CallbackTable) (s : HttpServer) : Action → Finset Nat
  | .io j a => if invoked funcs s (.io j a) j = [] then ∅ else {j}
  | _ => ∅

end HttpServer

/-- A server, and the connections to which somebody outside of it holds a pointer. -/
structure Sharing where
  server : HttpServer
  kept : Finset Nat

namespace Sharing

inductive Action
  /-- The server takes a step; `keeps` says whether a callback that it invokes keeps the pointer. -/
  | server (a : HttpServer.Action) (keeps : Bool)
  /-- The pointer to connection `i` is given up. -/
  | drop (i : Nat)
  deriving DecidableEq, Repr

/-- Only who holds a connection can name it. -/
def step (funcs : CallbackTable) (s : Sharing) : Action → Option Sharing
  | .server a keeps =>
      if ∀ i ∈ a.targets, i ∈ s.kept then
        (s.server.step funcs a).map fun t =>
          ⟨t, if keeps then s.kept ∪ HttpServer.given funcs s.server a else s.kept⟩
      else none
  | .drop i => some { s with kept := s.kept.erase i }

def Owned (s : Sharing) (i : Nat) : Prop :=
  s.server.mHttpConnectionPtr = some i ∨ i ∈ s.server.mHttpConnectionPtrs ∨
    (s.server.conns i).mSocket.reads ≠ [] ∨ (s.server.conns i).mSocket.writes ≠ [] ∨ i ∈ s.kept

instance (s : Sharing) (i : Nat) : Decidable (s.Owned i) := inferInstanceAs (Decidable (_ ∨ _))

def started (req : Request) (stream : Bytes) : Sharing := ⟨HttpServer.started req stream, ∅⟩

/-- Nothing keeps the connection alive. -/
structure Released (s : Sharing) (i : Nat) : Prop where
  ptr_ne : s.server.mHttpConnectionPtr ≠ some i
  notMem : i ∉ s.server.mHttpConnectionPtrs
  reads_eq : (s.server.conns i).mSocket.reads = []
  writes_eq : (s.server.conns i).mSocket.writes = []
  notKept : i ∉ s.kept

theorem not_owned_iff {s : Sharing} {i : Nat} : ¬ s.Owned i ↔ s.Released i := by
  unfold Owned
  simp only [not_or, not_not]
  constructor
  · rintro ⟨hptr, hset, hreads, hwrites, hkept⟩
    exact ⟨hptr, hset, hreads, hwrites, hkept⟩
  · intro h
    exact ⟨h.ptr_ne, h.notMem, h.reads_eq, h.writes_eq, h.notKept⟩

end Sharing

namespace Link

variable {funcs : CallbackTable} {ok : Link → Action → Prop} {as : List Action} {req : Request}
  {stream : Bytes} {l : Link}

theorem stopLogged_of_run (h : Run (step funcs) ok (started req stream) as l) : l.StopLogged := by
  have hboth := h.invariant (I := fun l => l.WellFormed ∧ l.StopLogged)
    (fun _ _ _ _ hstep hI => by
      have he := step_effect hI.1 hstep
      exact ⟨he.wellFormed hI.1, he.stopLogged hI.2⟩)
    ⟨wellFormed_started req stream, stopLogged_started req stream⟩
  exact hboth.2

end Link

/-! ## What nobody names -/

namespace HttpServer

variable {funcs : CallbackTable} {s t : HttpServer} {a : Action} {i j : Nat}

/-- A connection that is not in the set stays as it is. -/
def Untouched (i : Nat) (s t : HttpServer) : Prop :=
  i ∉ s.mHttpConnectionPtrs → t.link i = s.link i

theorem Untouched.trans {u : HttpServer} (h₁ : Untouched i s t) (h₂ : Untouched i t u) :
    Untouched i s u := by
  intro hi
  have hlink := h₁ hi
  have hregistered : decide (i ∈ t.mHttpConnectionPtrs) = decide (i ∈ s.mHttpConnectionPtrs) :=
    congrArg Link.registered hlink
  have hi' : i ∉ t.mHttpConnectionPtrs := by
    rwa [decide_eq_false hi, decide_eq_false_iff_not] at hregistered
  rw [h₂ hi', hlink]

theorem untouched_of_eq (h : t.link i = s.link i) : Untouched i s t := fun _ => h

theorem untouched_managerStopAll (s : HttpServer) : Untouched i s s.managerStopAll := by
  intro hi
  rw [link_managerStopAll]
  apply if_neg
  change ¬ decide (i ∈ s.mHttpConnectionPtrs) = true
  rwa [decide_eq_true_iff]

theorem untouched_call {c : Call Nat} (hc : c.target ≠ some i) : Untouched i s (s.call c) := by
  cases c with
  | stopAll => exact untouched_managerStopAll s
  | writeResponse j body =>
      apply untouched_of_eq
      change (if s.Known j then s.setConn j ((s.conns j).writeResponse body) else s).link i = _
      split_ifs
      · exact link_setConn_of_ne (fun hij => hc (congrArg some hij.symm)) _ _
      · rfl
  | stop j =>
      apply untouched_of_eq
      change (if s.Known j then s.managerStop j else s).link i = _
      split_ifs
      · exact link_managerStop_of_ne (fun hij => hc (congrArg some hij.symm)) _
      · rfl

theorem untouched_runCallback {calls : List (Call Nat)} (hcalls : ∀ c ∈ calls, c.target ≠ some i) :
    Untouched i s (s.runCallback calls) := by
  induction calls generalizing s with
  | nil => exact untouched_of_eq rfl
  | cons c calls ih =>
      have hfirst : Untouched i s (s.call c) := untouched_call (hcalls c List.mem_cons_self)
      exact hfirst.trans (ih fun c hc => hcalls c (List.mem_cons_of_mem _ hc))

theorem respects_untouched (hj : i ≠ j) {calls : List (Call Nat)}
    (hcalls : ∀ c ∈ calls, c.target ≠ some i) :
    (host funcs j calls).Respects (Untouched i) where
  refl s := untouched_of_eq rfl
  trans _ _ _ := Untouched.trans
  setConn s c := untouched_of_eq (link_setConn_of_ne hj _ _)
  managerStop s := untouched_of_eq (link_managerStop_of_ne hj _)
  handleRequest s := by
    change Untouched i s (handleRequest funcs j calls s).2
    exact HttpConnction.handleRequest_rule (Q := Untouched i s)
      (untouched_of_eq (link_setConn_of_ne hj _ _))
      fun _ ht => ht.trans (untouched_runCallback hcalls)

theorem ioStep_of_nothing_outstanding (hreads : (s.conns i).mSocket.reads = [])
    (hwrites : (s.conns i).mSocket.writes = []) (a : IoAction Nat) :
    ioStep (host funcs i) s a = none := by
  unfold ioStep
  cases a <;> simp [host, HttpConnction.receive, hreads, hwrites]

theorem link_of_unnamed (hs : s.Inv funcs) (hlive : ¬ (s.link i).Fresh)
    (hstep : step funcs s a = some t) (hthrown : t.thrown = none)
    (hset : i ∉ s.mHttpConnectionPtrs) (hreads : (s.conns i).mSocket.reads = [])
    (hwrites : (s.conns i).mSocket.writes = []) (htargets : i ∉ a.targets) :
    t.link i = s.link i := by
  have hrunning := running_of_step hstep
  unfold step at hstep
  rw [hrunning] at hstep
  cases a with
  | acceptDone k ec => exact link_of_acceptDone hs hlive hstep
  | acceptRun k setOption req stream =>
      exact link_of_acceptRun hs hlive hrunning hthrown hstep
  | io j a =>
      have hstep : ioStep (host funcs j) s a = some t := hstep
      by_cases hj : i = j
      · subst hj
        rw [ioStep_of_nothing_outstanding hreads hwrites] at hstep
        cases hstep
      · have hcalls : ∀ c ∈ a.calls, c.target ≠ some i := by
          intro c hc htarget
          apply htargets
          apply List.mem_filter.mpr
          exact ⟨List.mem_filterMap.mpr ⟨c, hc, htarget⟩, decide_eq_true hj⟩
        rw [ioStep_eq_calls] at hstep
        exact ioStep_relates (fun _ => respects_untouched hj hcalls) hstep hset
  | respond j body =>
      dsimp only at hstep
      split_ifs at hstep
      obtain rfl := Option.some.inj hstep
      have htarget : (Call.writeResponse j body).target ≠ some i := by
        intro heq
        exact htargets (List.mem_singleton.mpr (Option.some.inj heq).symm)
      exact untouched_call htarget hset
  | stop j =>
      dsimp only at hstep
      split_ifs at hstep
      obtain rfl := Option.some.inj hstep
      have htarget : (Call.stop j).target ≠ some i := by
        intro heq
        exact htargets (List.mem_singleton.mpr (Option.some.inj heq).symm)
      exact untouched_call htarget hset
  | stopAll =>
      obtain rfl := Option.some.inj hstep
      exact untouched_managerStopAll s hset
  | serverStop =>
      obtain rfl := Option.some.inj hstep
      exact untouched_managerStopAll _ hset

/-! ## Connections that are no longer being accepted -/

/-- All connections but the one whose socket is to be filled were started. -/
def Introduced (s : HttpServer) : Prop :=
  ∀ i < s.created, s.mHttpConnectionPtr ≠ some i → ¬ (s.link i).Fresh

theorem managerStart_failed {ec : ErrorCode} (hec : ec.failed = true) (s : HttpServer) (c : Nat) :
    s.managerStart c ec =
      { s with
        mHttpConnectionPtrs := insert c s.mHttpConnectionPtrs
        thrown := some "error:set Options" } := by
  unfold managerStart HttpConnction.start
  simp only [hec, if_true]

theorem ptr_of_step (hs : s.Inv funcs) (hstep : step funcs s a = some t) :
    t.mHttpConnectionPtr = s.mHttpConnectionPtr ∧ t.created = s.created ∨
      ∃ c, s.mHttpConnectionPtr = some c ∧ t.mHttpConnectionPtr = some s.created ∧
        t.created = s.created + 1 ∧ ¬ (t.link c).Fresh := by
  cases step_effect hs hstep with
  | connected | unconnected | acceptFailed | serverStop => exact .inl ⟨rfl, rfl⟩
  | threw _ hset =>
      rw [managerStart_failed hset]
      exact .inl ⟨rfl, rfl⟩
  | @admitted c req₀ req stream₀ stream haccepting hconn =>
      have hconn' : ({ s with accepts := [] } : HttpServer).conns c =
        (HttpConnction.create req₀ stream₀).accepted := hconn
      have hsame := created_managerStart hconn'
      refine .inr ⟨c, haccepting.ptr_eq, congrArg some hsame, congrArg Nat.succ hsame, ?_⟩
      rw [link_start_of_ne (hsame ▸ Nat.ne_of_lt haccepting.created),
        link_managerStart_self hconn']
      have hserved : (Link.started req₀ stream₀).Served funcs := ⟨req₀, stream₀, .refl _⟩
      exact served_not_fresh hserved
  | moves hframe => exact .inl ⟨hframe.ptr_eq, hframe.created_eq⟩

theorem Introduced.step (h : s.Introduced) (hs : s.Inv funcs) (hstep : step funcs s a = some t)
    (hthrown : t.thrown = none) : t.Introduced := by
  have hlive {i : Nat} (hi : ¬ (s.link i).Fresh) : ¬ (t.link i).Fresh := by
    obtain ⟨req, stream, hserved⟩ := hs.served hi
    have hrun : Run (HttpServer.step funcs) (fun _ _ => True) s [a] t :=
      .cons trivial hstep (.nil t)
    exact served_not_fresh ⟨req, stream, hserved.trans (hs.reaches hrun hthrown hi)⟩
  intro i hi hptr
  rcases ptr_of_step hs hstep with ⟨hsame, hcreated⟩ | ⟨c, hold, hnew, hcreated, hstarted⟩
  · exact hlive (h i (hcreated ▸ hi) (hsame ▸ hptr))
  · by_cases hc : i = c
    · rwa [hc]
    · apply hlive
      apply h i
      · have hlast : i ≠ s.created := by
          rintro rfl
          exact hptr hnew
        omega
      · rw [hold]
        exact fun heq => hc (Option.some.inj heq).symm

theorem Inv.stopped_of_notMem (h : s.Inv funcs) (hi : ¬ (s.link i).Fresh)
    (hset : i ∉ s.mHttpConnectionPtrs) : .stopped ∈ (s.conns i).log := by
  obtain ⟨req, stream, as, hrun⟩ := h.served hi
  have hshape := Link.wellFormed_of_run hrun
  have hregistered := hshape.registered_eq
  have hout : (s.link i).registered = false := decide_eq_false hset
  rw [hout] at hregistered
  apply (Link.stopLogged_of_run hrun).mp
  simpa using hregistered

/-- What is known of the connections of a server, also when it has thrown. -/
structure Settled (funcs : CallbackTable) (s : HttpServer) : Prop where
  inv : s.thrown = none → s.Inv funcs
  introduced : s.thrown = none → s.Introduced
  stopped : ∀ i < s.created, s.mHttpConnectionPtr ≠ some i → i ∉ s.mHttpConnectionPtrs →
    .stopped ∈ (s.conns i).log

theorem ptrs_of_thrown (hs : s.Inv funcs) (hstep : step funcs s a = some t)
    (hthrown : t.thrown ≠ none) : ∃ c, s.mHttpConnectionPtr = some c ∧
      t.mHttpConnectionPtrs = insert c s.mHttpConnectionPtrs := by
  have hrunning := running_of_step hstep
  cases step_effect hs hstep with
  | @threw setOption c req stream haccepting hset =>
      refine ⟨c, haccepting.ptr_eq, ?_⟩
      rw [managerStart_failed hset]
  | connected | unconnected | acceptFailed | serverStop => exact absurd hrunning hthrown
  | @admitted c req₀ req stream₀ stream _ hconn =>
      have hconn' : ({ s with accepts := [] } : HttpServer).conns c =
        (HttpConnction.create req₀ stream₀).accepted := hconn
      rw [managerStart_success hconn'] at hthrown
      exact absurd hrunning hthrown
  | moves hframe => exact absurd (hframe.thrown_eq.trans hrunning) hthrown

theorem Settled.step (h : s.Settled funcs) (hstep : step funcs s a = some t) :
    t.Settled funcs := by
  have hrunning := running_of_step hstep
  have hs := h.inv hrunning
  by_cases hthrown : t.thrown = none
  · have ht := (step_effect hs hstep).inv hthrown hs
    have hintroduced := (h.introduced hrunning).step hs hstep hthrown
    exact ⟨fun _ => ht, fun _ => hintroduced, fun i hi hptr hset =>
      ht.stopped_of_notMem (hintroduced i hi hptr) hset⟩
  · refine ⟨fun h => absurd h hthrown, fun h => absurd h hthrown, fun i hi hptr hset => ?_⟩
    obtain ⟨hconns, hcreated, -⟩ := conns_of_thrown hs hstep hthrown
    obtain ⟨c, hc, hptrs⟩ := ptrs_of_thrown hs hstep hthrown
    rw [hconns]
    apply h.stopped i (hcreated ▸ hi)
    · rcases ptr_of_step hs hstep with ⟨hsame, -⟩ | ⟨_, _, _, hnew, -⟩
      · exact hsame ▸ hptr
      · omega
    · rw [hptrs] at hset
      exact fun hmem => hset (Finset.mem_insert_of_mem hmem)

theorem settled_started (req : Request) (stream : Bytes) : (started req stream).Settled funcs where
  inv _ := inv_started req stream
  introduced _ := fun _ hi hptr => absurd (congrArg some (Nat.lt_one_iff.mp hi).symm) hptr
  stopped := fun _ hi hptr => absurd (congrArg some (Nat.lt_one_iff.mp hi).symm) hptr

theorem Settled.link_of_unnamed (h : s.Settled funcs) (hstep : HttpServer.step funcs s a = some t)
    (hi : i < s.created) (hptr : s.mHttpConnectionPtr ≠ some i)
    (hset : i ∉ s.mHttpConnectionPtrs) (hreads : (s.conns i).mSocket.reads = [])
    (hwrites : (s.conns i).mSocket.writes = []) (htargets : i ∉ a.targets) :
    t.link i = s.link i := by
  have hrunning := running_of_step hstep
  have hs := h.inv hrunning
  by_cases hthrown : t.thrown = none
  · exact HttpServer.link_of_unnamed hs (h.introduced hrunning i hi hptr) hstep hthrown hset hreads
      hwrites htargets
  · obtain ⟨hconns, -, -⟩ := conns_of_thrown hs hstep hthrown
    obtain ⟨c, hc, hptrs⟩ := ptrs_of_thrown hs hstep hthrown
    have hne : i ≠ c := by
      rintro rfl
      exact hptr hc
    unfold link
    simp [hconns, hptrs, hne]

end HttpServer

/-! ## Runs -/

namespace Sharing

variable {funcs : CallbackTable} {s t : Sharing} {a : Action} {i : Nat}

theorem given_of_nothing_outstanding {a : HttpServer.Action} {u : HttpServer}
    (hstep : s.server.step funcs a = some u) (h : s.Released i) :
    i ∉ HttpServer.given funcs s.server a := by
  cases a with
  | io j a =>
      intro hmem
      change i ∈ (if HttpServer.invoked funcs s.server (.io j a) j = [] then ∅ else {j}) at hmem
      split_ifs at hmem
      · exact absurd hmem (Finset.notMem_empty i)
      · obtain rfl := Finset.mem_singleton.mp hmem
        have hrunning := HttpServer.running_of_step hstep
        unfold HttpServer.step at hstep
        rw [hrunning] at hstep
        have hio : ioStep (HttpServer.host funcs i) s.server a = some u := hstep
        rw [HttpServer.ioStep_of_nothing_outstanding h.reads_eq h.writes_eq] at hio
        cases hio
  | _ => exact Finset.notMem_empty i

theorem server_of_step (hstep : step funcs s a = some t) :
    (t.server = s.server ∧ t.kept ⊆ s.kept) ∨ ∃ b keeps, a = .server b keeps ∧
      (∀ i ∈ b.targets, i ∈ s.kept) ∧ s.server.step funcs b = some t.server ∧
      t.kept ⊆ s.kept ∪ HttpServer.given funcs s.server b := by
  cases a with
  | drop i =>
      obtain rfl := Option.some.inj hstep
      exact .inl ⟨rfl, Finset.erase_subset _ _⟩
  | server b keeps =>
      have htargets : ∀ i ∈ b.targets, i ∈ s.kept := by
        by_contra hnot
        have hnone : step funcs s (.server b keeps) = none := if_neg hnot
        rw [hnone] at hstep
        cases hstep
      have hmap : step funcs s (.server b keeps) = _ := if_pos htargets
      obtain ⟨u, hu, rfl⟩ := Option.map_eq_some_iff.mp (hmap.symm.trans hstep)
      refine .inr ⟨b, keeps, rfl, htargets, hu, ?_⟩
      dsimp only
      split_ifs
      · exact subset_rfl
      · exact Finset.subset_union_left

theorem settled_step (h : s.server.Settled funcs) (hstep : step funcs s a = some t) :
    t.server.Settled funcs := by
  rcases server_of_step hstep with ⟨hsame, -⟩ | ⟨b, keeps, -, -, hserver, -⟩
  · rwa [hsame]
  · exact h.step hserver

/-- What is released stays as it is. -/
theorem Released.step (h : s.Released i) (hs : s.server.Settled funcs) (hi : i < s.server.created)
    (hstep : Sharing.step funcs s a = some t) :
    t.server.conns i = s.server.conns i ∧ i < t.server.created ∧ t.Released i := by
  rcases server_of_step hstep with ⟨hsame, hkept⟩ | ⟨b, keeps, -, htargets, hserver, hkept⟩
  · obtain ⟨server, kept⟩ := t
    obtain rfl : server = s.server := hsame
    exact ⟨rfl, hi, { h with notKept := fun hmem => h.notKept (hkept hmem) }⟩
  · have hlink := hs.link_of_unnamed hserver hi h.ptr_ne h.notMem h.reads_eq h.writes_eq
      fun hmem => h.notKept (htargets i hmem)
    have hconn : t.server.conns i = s.server.conns i := congrArg Link.conn hlink
    have hregistered : decide (i ∈ t.server.mHttpConnectionPtrs) =
        decide (i ∈ s.server.mHttpConnectionPtrs) := congrArg Link.registered hlink
    have hrunning := HttpServer.running_of_step hserver
    have hptr : t.server.mHttpConnectionPtr ≠ some i ∧ i < t.server.created := by
      rcases HttpServer.ptr_of_step (hs.inv hrunning) hserver with
        ⟨hsame, hcreated⟩ | ⟨_, _, hnew, hcreated, -⟩
      · rw [hsame, hcreated]
        exact ⟨h.ptr_ne, hi⟩
      · rw [hnew, hcreated]
        exact ⟨fun heq => Nat.ne_of_gt hi (Option.some.inj heq), Nat.lt_succ_of_lt hi⟩
    refine ⟨hconn, hptr.2, hptr.1, ?_, ?_, ?_, fun hmem => ?_⟩
    · rwa [decide_eq_false h.notMem, decide_eq_false_iff_not] at hregistered
    · rw [hconn]
      exact h.reads_eq
    · rw [hconn]
      exact h.writes_eq
    · rcases Finset.mem_union.mp (hkept hmem) with hold | hgiven
      · exact h.notKept hold
      · exact given_of_nothing_outstanding hserver h hgiven

section

variable {ok : Sharing → Action → Prop} {as : List Action} {req : Request} {stream : Bytes}

theorem settled_of_run (h : Run (step funcs) ok (started req stream) as s) :
    s.server.Settled funcs :=
  h.invariant (I := fun s => s.server.Settled funcs) (fun _ _ _ _ hstep hs => settled_step hs hstep)
    (HttpServer.settled_started req stream)

/-- A connection that nobody holds was stopped, nothing that happens afterwards touches it, and
nobody gets hold of it again. -/
theorem released_of_run (h : Run (step funcs) ok (started req stream) as s)
    (hi : i < s.server.created) (hreleased : ¬ s.Owned i) :
    .stopped ∈ (s.server.conns i).log ∧
      ∀ bs t, Run (step funcs) ok s bs t →
        t.server.conns i = s.server.conns i ∧ ¬ t.Owned i := by
  have hs := settled_of_run h
  have hr := not_owned_iff.mp hreleased
  refine ⟨hs.stopped i hi hr.ptr_ne hr.notMem, fun bs t hrun => ?_⟩
  have hall := hrun.invariant
    (I := fun u => u.server.Settled funcs ∧ u.server.conns i = s.server.conns i ∧
      i < u.server.created ∧ u.Released i)
    (fun u a v _ hstep hI => by
      obtain ⟨hu, hsame, hcreated, hr⟩ := hI
      obtain ⟨hconn, hcreated', hr'⟩ := hr.step hu hcreated hstep
      exact ⟨settled_step hu hstep, hconn.trans hsame, hcreated', hr'⟩)
    ⟨hs, rfl, hi, hr⟩
  exact ⟨hall.2.1, not_owned_iff.mpr hall.2.2.2⟩

/-- A connection is accepted, answers its request, is stopped behind the response, and goes. -/
def onePeer : List Action :=
  [.server (.acceptDone 0 .success) false,
    .server (.acceptRun 0 .success (.uninitialised 0 0 0 false) []) false,
    .server (.io 0 (.receive 0 18)) false,
    .server (.io 0 (.readDone 0 [.writeResponse 0 (str "/")])) true,
    .server (.io 0 (.writeDone 0)) false, .drop 0]

theorem released_of_onePeer :
    ∃ s, Run (step Link.oneCallback) (fun _ _ => True) (started HttpServer.getPeer.1
        HttpServer.getPeer.2) onePeer s ∧
      0 < s.server.created ∧ ¬ s.Owned 0 ∧ .stopped ∈ (s.server.conns 0).log ∧
      ∀ bs t, Run (step Link.oneCallback) (fun _ _ => True) s bs t →
        t.server.conns 0 = s.server.conns 0 ∧ ¬ t.Owned 0 := by
  have hrun : ∃ s, Run (step Link.oneCallback) (fun _ _ => True) (started HttpServer.getPeer.1
      HttpServer.getPeer.2) onePeer s ∧ 0 < s.server.created ∧ ¬ s.Owned 0 :=
    exists_run_of_exec (by decide +kernel)
  obtain ⟨s, h, hcreated, hreleased⟩ := hrun
  exact ⟨s, h, hcreated, hreleased, released_of_run h hcreated hreleased⟩

end

end Sharing

end BtcServer.HttpmessageServer
