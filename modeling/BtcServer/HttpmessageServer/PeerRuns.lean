import BtcServer.HttpmessageServer.Progress
import BtcServer.HttpmessageServer.ServerRun

/-!
# What a run of the server is to a peer

Which peer a connection has is settled when the connection is constructed.  From then on a run of
the server is a run of the connection (`ownRun_of_run`): asio takes the steps that the server's run
takes for it, in their order, and in between come the calls that others make on it.
-/

namespace BtcServer.HttpmessageServer

open Boost Lib

/-- The uninitialised request of a connection, and the stream of its peer. -/
abbrev Peer := Request × Bytes

/-! ## What an action does to one connection -/

def IoAction.calls {τ : Type} : IoAction τ → List (Call τ)
  | .readDone _ calls => calls
  | _ => []

theorem ioStep_eq_calls {σ τ : Type} (host : List (Call τ) → Host σ) (s : σ) (a : IoAction τ) :
    ioStep host s a = ioStep (fun _ => host a.calls) s a := by
  cases a <;> rfl

/-- A call on a connection, when somebody else makes it. -/
def Call.action : Call Unit → Link.Action
  | .writeResponse _ body => .respond body
  | .stop _ => .stop
  | .stopAll => .stop

namespace HttpServer

def Action.own (i : Nat) : Action → Option Link.Action
  | .io j a => if j = i then some (.io (a.mapCalls (List.filterMap (Call.on i)))) else none
  | _ => none

/-- What others may do to connection `i`. -/
def Action.aside (i : Nat) : Action → List Link.Action
  | .io j a => if j = i then [] else (a.calls.filterMap (Call.on i)).map Call.action
  | .respond j body => if j = i then [.respond body] else []
  | .stop j => if j = i then [.stop] else []
  | .stopAll => [.stop]
  | .serverStop => [.stop]
  | _ => []

/-- What the action does to connection `i` is `ok`. -/
structure Allows (ok : Link → Link.Action → Prop) (i : Nat) (s : HttpServer) (a : Action) :
    Prop where
  own : ∀ b, a.own i = some b → ok (s.link i) b
  aside : ∀ l, ∀ b ∈ a.aside i, ok l b

theorem allows_true {i : Nat} {s : HttpServer} {a : Action} : Allows (fun _ _ => True) i s a :=
  ⟨fun _ _ => trivial, fun _ _ _ => trivial⟩

end HttpServer

namespace Link

/-- Others may take the connection from `l` to `m`. -/
def Meanwhile (funcs : CallbackTable) (ok : Link → Action → Prop) (l m : Link) : Prop :=
  ∃ bs, Run (step funcs) ok l bs m ∧ bs.filter Action.isIo = []

variable {funcs : CallbackTable} {ok : Link → Action → Prop} {l m n : Link} {a : Action}

namespace Meanwhile

theorem refl (l : Link) : Meanwhile funcs ok l l := ⟨[], .nil l, rfl⟩

theorem trans (h₁ : Meanwhile funcs ok l m) (h₂ : Meanwhile funcs ok m n) :
    Meanwhile funcs ok l n := by
  obtain ⟨as, has, hnone⟩ := h₁
  obtain ⟨bs, hbs, hnone'⟩ := h₂
  exact ⟨as ++ bs, has.append hbs, by rw [List.filter_append, hnone, hnone', List.append_nil]⟩

theorem single (hok : ok l a) (ha : a.isIo = false) (hstep : step funcs l a = some m) :
    Meanwhile funcs ok l m :=
  ⟨[a], .cons hok hstep (.nil m), by rw [List.filter_cons_of_neg (by simp [ha]), List.filter_nil]⟩

theorem stopAll (hok : ok l .stop) : Meanwhile funcs ok l (l.call .stopAll) := by
  change Meanwhile funcs ok l (if l.registered = true then l.managerStop else l)
  split_ifs
  · exact single hok rfl rfl
  · exact refl l

end Meanwhile

end Link

namespace HttpServer

variable {funcs : CallbackTable} {ok : Link → Link.Action → Prop} {s t : HttpServer} {a : Action}
  {i : Nat}

theorem meanwhile_call {c : Call Nat} (hok : ∀ l, ∀ b ∈ (c.on i).map Call.action, ok l b) :
    Link.Meanwhile funcs ok (s.link i) ((s.call c).link i) := by
  cases c with
  | stopAll =>
      rw [show s.call .stopAll = s.managerStopAll from rfl, link_managerStopAll]
      exact .stopAll (hok _ _ rfl)
  | writeResponse j body =>
      change Link.Meanwhile funcs ok (s.link i)
        ((if s.Known j then s.setConn j ((s.conns j).writeResponse body) else s).link i)
      split_ifs with hknown
      · by_cases hj : j = i
        · subst hj
          rw [link_setConn_self]
          have hon : (Call.writeResponse j body).on j = some (.writeResponse () body) := if_pos rfl
          exact .single (a := .respond body) (hok _ _ (by rw [hon]; rfl)) rfl (if_pos hknown)
        · rw [link_setConn_of_ne (Ne.symm hj)]
          exact .refl _
      · exact .refl _
  | stop j =>
      change Link.Meanwhile funcs ok (s.link i) ((if s.Known j then s.managerStop j else s).link i)
      split_ifs with hknown
      · by_cases hj : j = i
        · subst hj
          rw [link_managerStop_self]
          have hon : (Call.stop j).on j = some (.stop ()) := if_pos rfl
          exact .single (a := .stop) (hok _ _ (by rw [hon]; rfl)) rfl rfl
        · rw [link_managerStop_of_ne (Ne.symm hj)]
          exact .refl _
      · exact .refl _

theorem meanwhile_runCallback {calls : List (Call Nat)}
    (hok : ∀ l, ∀ b ∈ (calls.filterMap (Call.on i)).map Call.action, ok l b) :
    Link.Meanwhile funcs ok (s.link i) ((s.runCallback calls).link i) := by
  have heach (c : Call Nat) (hc : c ∈ calls) (l : Link) (b : Link.Action)
      (hb : b ∈ (c.on i).map Call.action) : ok l b := by
    obtain ⟨c', hc', rfl⟩ := Option.map_eq_some_iff.mp hb
    exact hok l _ (List.mem_map_of_mem (List.mem_filterMap.mpr ⟨c, hc, hc'⟩))
  clear hok
  induction calls generalizing s with
  | nil => exact .refl _
  | cons c calls ih =>
      have hfirst : Link.Meanwhile funcs ok (s.link i) ((s.call c).link i) :=
        meanwhile_call (heach c List.mem_cons_self)
      exact hfirst.trans (ih fun c hc => heach c (List.mem_cons_of_mem _ hc))

theorem respects_meanwhile {j : Nat} (hj : j ≠ i) {calls : List (Call Nat)}
    (hok : ∀ l, ∀ b ∈ (calls.filterMap (Call.on i)).map Call.action, ok l b) :
    (host funcs j calls).Respects fun s t => Link.Meanwhile funcs ok (s.link i) (t.link i) := by
  have hset (s : HttpServer) (c : HttpConnction) :
      Link.Meanwhile funcs ok (s.link i) ((s.setConn j c).link i) := by
    rw [link_setConn_of_ne (Ne.symm hj)]
    exact .refl _
  refine ⟨fun s => .refl _, fun _ _ _ => .trans, hset, fun s => ?_, fun s => ?_⟩
  · change Link.Meanwhile funcs ok (s.link i) ((s.managerStop j).link i)
    rw [link_managerStop_of_ne (Ne.symm hj)]
    exact .refl _
  · change Link.Meanwhile funcs ok (s.link i) ((handleRequest funcs j calls s).2.link i)
    exact HttpConnction.handleRequest_rule
      (Q := fun t : HttpServer => Link.Meanwhile funcs ok (s.link i) (t.link i)) (hset s _)
      fun _ ht => ht.trans (meanwhile_runCallback hok)

/-! ## What a step does to a connection that was started -/

theorem link_of_acceptDone (hs : s.Inv funcs) (hlive : ¬(s.link i).Fresh) {k : Nat} {ec : ErrorCode}
    (h : s.acceptDone k ec = some t) : t.link i = s.link i := by
  unfold acceptDone at h
  split at h
  case h_2 => cases h
  case h_1 c hop =>
    obtain ⟨-, haccepting⟩ := hs.accepting_of_getElem? hop
    have hne : i ≠ c := by
      rintro rfl
      exact hlive haccepting.fresh
    obtain rfl := Option.some.inj h
    split_ifs
    · rfl
    · exact link_setConn_of_ne hne _ _

theorem link_of_acceptRun (hs : s.Inv funcs) (hlive : ¬(s.link i).Fresh) {k : Nat}
    {setOption : ErrorCode} {req : Request} {stream : Bytes} (hrunning : s.thrown = none)
    (hthrown : t.thrown = none) (h : s.acceptRun k setOption req stream = some t) :
    t.link i = s.link i := by
  obtain ⟨rfl, c, ec, haccepting, hhandle⟩ := hs.acceptRun_cases h
  by_cases hec : ec.failed = true
  · rw [handleAccept_of_failed hec] at hhandle
    obtain rfl := Option.some.inj hhandle
    rfl
  · obtain rfl := ErrorCode.eq_success hec
    obtain ⟨req₀, stream₀, hconn⟩ := haccepting.conn_of_success
    rw [acceptRun_of_success haccepting] at h
    obtain rfl := Option.some.inj h
    by_cases hset : setOption.failed = true
    · rw [if_pos (Option.isSome_iff_ne_none.mpr (thrown_managerStart hset _ c))] at hthrown
      exact absurd hthrown (thrown_managerStart hset _ c)
    · obtain rfl := ErrorCode.eq_success hset
      have hconn' : ({ s with accepts := [] } : HttpServer).conns c =
        (HttpConnction.create req₀ stream₀).accepted := hconn
      have hc : i ≠ c := by
        rintro rfl
        exact hlive haccepting.fresh
      have hi : i ≠ s.created := by
        rintro rfl
        exact hlive (hs.unused _ le_rfl)
      rw [if_neg (by rw [thrown_managerStart_success haccepting, hrunning]; exact Bool.false_ne_true),
        link_start_of_ne (by rwa [created_managerStart hconn']), link_managerStart_of_ne hc hconn']
      rfl

/-- A step of the server is a step of asio for the connection, or what others do to it. -/
theorem run_of_step (hs : s.Inv funcs) (hstep : step funcs s a = some t) (hthrown : t.thrown = none)
    (hlive : ¬(s.link i).Fresh) (hok : Allows ok i s a) :
    ∃ bs, Run (Link.step funcs) ok (s.link i) bs (t.link i) ∧
      bs.filter Link.Action.isIo = (a.own i).toList := by
  have hrunning := running_of_step hstep
  have haside (hown : a.own i = none) (h : Link.Meanwhile funcs ok (s.link i) (t.link i)) :
      ∃ bs, Run (Link.step funcs) ok (s.link i) bs (t.link i) ∧
        bs.filter Link.Action.isIo = (a.own i).toList := by
    rw [hown]
    exact h
  have hsame (hown : a.own i = none) (h : t.link i = s.link i) :
      ∃ bs, Run (Link.step funcs) ok (s.link i) bs (t.link i) ∧
        bs.filter Link.Action.isIo = (a.own i).toList := by
    apply haside hown
    rw [h]
    exact .refl _
  unfold step at hstep
  rw [hrunning] at hstep
  cases a with
  | acceptDone k ec => exact hsame rfl (link_of_acceptDone hs hlive hstep)
  | acceptRun k setOption req stream =>
      exact hsame rfl (link_of_acceptRun hs hlive hrunning hthrown hstep)
  | io j a =>
      by_cases hj : j = i
      · subst hj
        have hown : (Action.io j a).own j =
            some (.io (a.mapCalls (List.filterMap (Call.on j)))) := if_pos rfl
        refine ⟨[_], .cons (hok.own _ hown) (link_ioStep hstep) (.nil _), ?_⟩
        rw [hown]
        rfl
      · have hcalls (l : Link) (b : Link.Action)
            (hb : b ∈ (a.calls.filterMap (Call.on i)).map Call.action) : ok l b := by
          apply hok.aside l b
          change b ∈ if j = i then [] else _
          rwa [if_neg hj]
        have hstep' : ioStep (host funcs j) s a = some t := hstep
        rw [ioStep_eq_calls] at hstep'
        exact haside (if_neg hj) (ioStep_relates (fun _ => respects_meanwhile hj hcalls) hstep')
  | respond j body =>
      dsimp only at hstep
      split_ifs at hstep
      obtain rfl := Option.some.inj hstep
      refine haside rfl (meanwhile_call fun l b hb => hok.aside l b ?_)
      obtain ⟨c, hc, rfl⟩ := Option.map_eq_some_iff.mp hb
      change (if j = i then some (Call.writeResponse () body) else none) = some c at hc
      change Call.action c ∈ if j = i then [Link.Action.respond body] else []
      split_ifs at hc ⊢ with hj
      obtain rfl := Option.some.inj hc
      exact List.mem_singleton_self _
  | stop j =>
      dsimp only at hstep
      split_ifs at hstep
      obtain rfl := Option.some.inj hstep
      refine haside rfl (meanwhile_call fun l b hb => hok.aside l b ?_)
      obtain ⟨c, hc, rfl⟩ := Option.map_eq_some_iff.mp hb
      change (if j = i then some (Call.stop ()) else none) = some c at hc
      change Call.action c ∈ if j = i then [Link.Action.stop] else []
      split_ifs at hc ⊢ with hj
      obtain rfl := Option.some.inj hc
      exact List.mem_singleton_self _
  | stopAll =>
      obtain rfl := Option.some.inj hstep
      apply haside rfl
      rw [link_managerStopAll]
      exact .stopAll (hok.aside _ _ (List.mem_singleton_self _))
  | serverStop =>
      obtain rfl := Option.some.inj hstep
      apply haside rfl
      rw [link_stop]
      exact .stopAll (hok.aside _ _ (List.mem_singleton_self _))

end HttpServer

/-! ## Peers -/

namespace Link

/-- Constructed for this peer, and perhaps connected to it, but not started. -/
def Waiting (p : Peer) (l : Link) : Prop :=
  l.registered = false ∧
    (l.conn = .create p.1 p.2 ∨ l.conn = (HttpConnction.create p.1 p.2).accepted)

/-- Waiting for its peer, or in a run of its own in which asio has taken the steps `done`. -/
def OwnRun (funcs : CallbackTable) (ok : Link → Action → Prop) (p : Peer) (done : List Action)
    (l : Link) : Prop :=
  l.Waiting p ∧ done = [] ∨
    ∃ bs, Run (step funcs) ok (started p.1 p.2) bs l ∧ bs.filter Action.isIo = done

variable {funcs : CallbackTable} {ok : Link → Action → Prop} {p : Peer} {done : List Action}
  {l : Link}

theorem Waiting.fresh (h : l.Waiting p) : l.Fresh := ⟨h.1, p.1, p.2, h.2⟩

theorem OwnRun.waiting (h : l.OwnRun funcs ok p done) (hfresh : l.Fresh) :
    l.Waiting p ∧ done = [] := by
  rcases h with hwaiting | ⟨bs, hrun, -⟩
  · exact hwaiting
  · have hserved : l.Served funcs := ⟨p.1, p.2, bs, hrun.mono fun _ _ _ => trivial⟩
    exact absurd hfresh (HttpServer.served_not_fresh hserved)

theorem Waiting.eq_peer (h : l.Waiting p) {req : Request} {stream : Bytes}
    (hconn : l.conn = .create req stream ∨ l.conn = (HttpConnction.create req stream).accepted) :
    (req, stream) = p := by
  have hreq : l.conn.mRequest = p.1 := by rcases h.2 with heq | heq <;> rw [heq] <;> rfl
  have hstream : l.conn.mSocket.unread = p.2 := by rcases h.2 with heq | heq <;> rw [heq] <;> rfl
  rcases hconn with heq | heq
  · rw [heq] at hreq hstream
    exact Prod.ext hreq hstream
  · rw [heq] at hreq hstream
    exact Prod.ext hreq hstream

theorem OwnRun.emits (h : l.OwnRun funcs ok p done) :
    ∃ r, Emits (StreamReader.next funcs) ⟨.head, .fresh, p.1, p.2⟩ (readEvents l.conn.log) r := by
  rcases h with ⟨hwaiting, -⟩ | ⟨bs, hrun, -⟩
  · rw [hwaiting.fresh.log_eq]
    exact ⟨_, .refl _⟩
  · obtain ⟨r, hemits, -⟩ := follows_of_run hrun
    exact ⟨r, hemits⟩

end Link

namespace HttpServer

variable {funcs : CallbackTable} {ok : Nat → Link → Link.Action → Prop} {s t : HttpServer}
  {a : Action} {peers : List Peer} {done : Nat → List Link.Action}

def Action.peer : Action → Option Peer
  | .acceptRun _ _ req stream => some (req, stream)
  | _ => none

def constructed (funcs : CallbackTable) (s : HttpServer) (a : Action) : Option Peer :=
  (step funcs s a).bind fun t => if t.created = s.created then none else a.peer

def peersOf (funcs : CallbackTable) (req : Request) (stream : Bytes) (as : List Action) :
    List Peer :=
  (req, stream) :: observed (step funcs) (constructed funcs) (started req stream) as

/-- Every connection that was constructed has its peer, and asio has taken these steps for it. -/
structure Own (funcs : CallbackTable) (ok : Nat → Link → Link.Action → Prop) (peers : List Peer)
    (done : Nat → List Link.Action) (s : HttpServer) : Prop where
  created_eq : s.created = peers.length
  each : ∀ i p, peers[i]? = some p → (s.link i).OwnRun funcs (ok i) p (done i)
  unused : ∀ i, peers.length ≤ i → done i = []

theorem constructed_of_created_eq (hstep : step funcs s a = some t) (h : t.created = s.created) :
    constructed funcs s a = none := by
  unfold constructed
  rw [hstep, Option.bind_some, if_pos h]

theorem own_eq_none {i : Nat} (hstep : step funcs s a = some t) (hfresh : (s.link i).Fresh) :
    a.own i = none := by
  cases a with
  | io j a =>
      apply if_neg
      rintro rfl
      have hrunning := running_of_step hstep
      unfold step at hstep
      rw [hrunning] at hstep
      have hlink := link_ioStep hstep
      rw [hfresh.ioStep_eq] at hlink
      cases hlink
  | _ => rfl

theorem Own.unused_step (h : Own funcs ok peers done s) (hs : s.Inv funcs)
    (hstep : step funcs s a = some t) {i : Nat} (hi : peers.length ≤ i) :
    done i ++ (a.own i).toList = [] := by
  rw [h.unused i hi, own_eq_none hstep (hs.unused i (h.created_eq ▸ hi))]
  rfl

theorem ownRun_of_step {i : Nat} {p : Peer} (hs : s.Inv funcs) (hstep : step funcs s a = some t)
    (hthrown : t.thrown = none) (hok : Allows (ok i) i s a)
    (hfresh : (s.link i).Fresh → (t.link i).Waiting p)
    (h : (s.link i).OwnRun funcs (ok i) p (done i)) :
    (t.link i).OwnRun funcs (ok i) p (done i ++ (a.own i).toList) := by
  by_cases hlive : (s.link i).Fresh
  · refine .inl ⟨hfresh hlive, ?_⟩
    rw [(h.waiting hlive).2, own_eq_none hstep hlive]
    rfl
  · obtain ⟨bs, hrun, hdone⟩ := h.resolve_left fun hwaiting => hlive hwaiting.1.fresh
    obtain ⟨more, hmore, hown⟩ := run_of_step hs hstep hthrown hlive hok
    exact .inr ⟨bs ++ more, hrun.append hmore, by rw [List.filter_append, hdone, hown]⟩

theorem Own.of_links (h : Own funcs ok peers done s) (hs : s.Inv funcs)
    (hstep : step funcs s a = some t) (hthrown : t.thrown = none)
    (hok : ∀ i, Allows (ok i) i s a) (hcreated : t.created = s.created)
    (hfresh : ∀ i p, (s.link i).Waiting p → (t.link i).Waiting p) :
    Own funcs ok (peers ++ (constructed funcs s a).toList) (fun i => done i ++ (a.own i).toList)
      t := by
  rw [constructed_of_created_eq hstep hcreated]
  change Own funcs ok (peers ++ []) _ t
  rw [List.append_nil]
  refine ⟨hcreated.trans h.created_eq, fun i p hp => ?_, fun i hi => h.unused_step hs hstep hi⟩
  have hown := h.each i p hp
  exact ownRun_of_step hs hstep hthrown (hok i) (fun hi => hfresh i p (hown.waiting hi).1) hown

theorem Own.step (h : Own funcs ok peers done s) (hs : s.Inv funcs)
    (hstep : step funcs s a = some t) (hthrown : t.thrown = none)
    (hok : ∀ i, Allows (ok i) i s a) :
    Own funcs ok (peers ++ (constructed funcs s a).toList) (fun i => done i ++ (a.own i).toList)
      t := by
  cases step_effect hs hstep with
  | threw _ hset => exact absurd hthrown (thrown_managerStart hset _ _)
  | @connected c req stream haccepting hconn =>
      refine h.of_links hs hstep hthrown hok rfl fun i p hwaiting => ?_
      by_cases hi : i = c
      · subst hi
        obtain rfl := hwaiting.eq_peer (.inl hconn)
        rw [link_setConn_self]
        exact ⟨haccepting.unregistered, .inr rfl⟩
      · rw [link_setConn_of_ne hi]
        exact hwaiting
  | unconnected => exact h.of_links hs hstep hthrown hok rfl fun _ _ => id
  | acceptFailed => exact h.of_links hs hstep hthrown hok rfl fun _ _ => id
  | @admitted c req₀ req stream₀ stream haccepting hconn =>
      have hconn' : ({ s with accepts := [] } : HttpServer).conns c =
        (HttpConnction.create req₀ stream₀).accepted := hconn
      have hsame := created_managerStart hconn'
      have hcreated : ((managerStart { s with accepts := [] } c .success).start req stream).created =
          s.created + 1 := congrArg Nat.succ hsame
      have hpeer : constructed funcs s (.acceptRun 0 .success req stream) = some (req, stream) := by
        unfold constructed
        rw [hstep, Option.bind_some, if_neg (by rw [hcreated]; exact Nat.succ_ne_self _)]
        rfl
      have hnone (i : Nat) : done i ++ (Action.own i (.acceptRun 0 .success req stream)).toList =
          done i := List.append_nil _
      simp only [hpeer, hnone]
      have hlength : (peers ++ [(req, stream)]).length = s.created + 1 := by
        rw [List.length_append, ← h.created_eq]
        rfl
      refine ⟨hcreated.trans hlength.symm, fun i p hp => ?_, fun i hi => ?_⟩
      · by_cases hi : i = s.created
        · rw [hi, h.created_eq, Option.toList_some, List.getElem?_concat_length] at hp
          obtain rfl := Option.some.inj hp
          have hlink := link_start_self (managerStart { s with accepts := [] } c .success) req stream
          rw [hsame, link_managerStart_of_ne (Nat.ne_of_gt haccepting.created) hconn'] at hlink
          rw [hi]
          refine .inl ⟨⟨?_, .inl ?_⟩, h.unused _ h.created_eq.ge⟩
          · exact (congrArg Link.registered hlink).trans (hs.unused _ le_rfl).1
          · exact congrArg Link.conn hlink
        · have hlt : i < peers.length := by
            obtain ⟨hbelow, -⟩ := List.getElem?_eq_some_iff.mp hp
            rw [Option.toList_some, hlength] at hbelow
            rw [← h.created_eq]
            omega
          rw [List.getElem?_append_left hlt] at hp
          have hown := h.each i p hp
          rw [link_start_of_ne (by rw [hsame]; exact hi)]
          by_cases hc : i = c
          · subst hc
            obtain ⟨hwaiting, hdone⟩ := hown.waiting haccepting.fresh
            obtain rfl := hwaiting.eq_peer (.inr hconn)
            rw [link_managerStart_self hconn', hdone]
            exact .inr ⟨[], .nil _, rfl⟩
          · rw [link_managerStart_of_ne hc hconn']
            exact hown
      · rw [Option.toList_some, hlength] at hi
        exact h.unused i (by rw [← h.created_eq]; omega)
  | moves hframe =>
      refine h.of_links hs hstep hthrown hok hframe.created_eq fun i p hwaiting => ?_
      rwa [(hframe.others i not_false).fresh hwaiting.fresh]
  | serverStop =>
      refine h.of_links hs hstep hthrown hok rfl fun i p hwaiting => ?_
      rwa [link_stop, hwaiting.fresh.call_stopAll]

/-! ## Runs -/

theorem conns_of_thrown (hs : s.Inv funcs) (hstep : step funcs s a = some t)
    (hthrown : t.thrown ≠ none) :
    t.conns = s.conns ∧ t.created = s.created ∧ ∀ i, a.own i = none := by
  have hrunning := running_of_step hstep
  cases step_effect hs hstep with
  | @threw setOption c req stream _ hset =>
      unfold managerStart HttpConnction.start
      simp [hset, Action.own]
  | connected | unconnected | acceptFailed | serverStop => exact absurd hrunning hthrown
  | @admitted c req₀ req stream₀ stream _ hconn =>
      have hconn' : ({ s with accepts := [] } : HttpServer).conns c =
        (HttpConnction.create req₀ stream₀).accepted := hconn
      rw [managerStart_success hconn'] at hthrown
      exact absurd hrunning hthrown
  | moves hframe => exact absurd (hframe.thrown_eq.trans hrunning) hthrown

theorem own_started (ok : Nat → Link → Link.Action → Prop) (req : Request) (stream : Bytes) :
    Own funcs ok [(req, stream)] (fun _ => []) (started req stream) where
  created_eq := rfl
  each i p hp := by
    obtain rfl : i = 0 := by
      obtain ⟨hlength, -⟩ := List.getElem?_eq_some_iff.mp hp
      exact Nat.lt_one_iff.mp hlength
    obtain rfl := Option.some.inj hp
    exact .inl ⟨⟨rfl, .inl rfl⟩, rfl⟩
  unused _ _ := rfl

/-- The connections are those of a server on which all runs of connections are their own. -/
def OwnConns (funcs : CallbackTable) (ok : Nat → Link → Link.Action → Prop) (peers : List Peer)
    (done : Nat → List Link.Action) (conns : Nat → HttpConnction) : Prop :=
  ∃ s : HttpServer, s.conns = conns ∧ s.Inv funcs ∧ Own funcs ok peers done s

variable {okS : HttpServer → Action → Prop} {as : List Action}

theorem ownConns_of_own (hok : ∀ s a i, okS s a → (step funcs s a).isSome → Allows (ok i) i s a)
    (hrun : Run (step funcs) okS s as t) (hs : s.Inv funcs) (h : Own funcs ok peers done s) :
    OwnConns funcs ok (peers ++ observed (step funcs) (constructed funcs) s as)
      (fun i => done i ++ as.filterMap (Action.own i)) t.conns := by
  induction hrun generalizing peers done with
  | nil s =>
      refine ⟨s, rfl, hs, ?_⟩
      simpa [observed] using h
  | @cons s u t a as ha hstep hrest ih =>
      have hallows (i : Nat) : Allows (ok i) i s a := by
        apply hok s a i ha
        rw [hstep]
        rfl
      have hdone : (fun i => done i ++ (a :: as).filterMap (Action.own i)) =
          fun i => (done i ++ (a.own i).toList) ++ as.filterMap (Action.own i) := by
        funext i
        rw [List.append_assoc]
        cases hown : a.own i with
        | none => rw [List.filterMap_cons_none hown]; rfl
        | some b => rw [List.filterMap_cons_some hown]; rfl
      rw [observed_cons hstep, ← List.append_assoc, hdone]
      by_cases hu : u.thrown = none
      · exact ih ((step_effect hs hstep).inv hu hs) (h.step hs hstep hu hallows)
      · obtain ⟨hconns, hcreated, hown⟩ := conns_of_thrown hs hstep hu
        cases hrest with
        | nil =>
            refine ⟨s, hconns.symm, hs, ?_⟩
            rw [constructed_of_created_eq hstep hcreated]
            simpa [observed, hown] using h
        | cons _ hnext _ => exact absurd (running_of_step hnext) hu

section

variable {req : Request} {stream : Bytes} {i : Nat} {p : Peer}

theorem ownConns_of_run (ok : Nat → Link → Link.Action → Prop)
    (hok : ∀ s a i, okS s a → (step funcs s a).isSome → Allows (ok i) i s a)
    (h : Run (step funcs) okS (started req stream) as t) :
    OwnConns funcs ok (peersOf funcs req stream as) (fun i => as.filterMap (Action.own i)) t.conns :=
  ownConns_of_own hok h (inv_started req stream) (own_started ok req stream)

/-- A run of the server is, to the connection of a peer, a run of its own. -/
theorem ownRun_of_run (ok : Nat → Link → Link.Action → Prop)
    (hok : ∀ s a i, okS s a → (step funcs s a).isSome → Allows (ok i) i s a)
    (h : Run (step funcs) okS (started req stream) as t)
    (hp : (peersOf funcs req stream as)[i]? = some p) :
    ∃ l : Link, l.conn = t.conns i ∧ l.OwnRun funcs (ok i) p (as.filterMap (Action.own i)) := by
  obtain ⟨s, hconns, -, hown⟩ := ownConns_of_run ok hok h
  exact ⟨s.link i, congrFun hconns i, hown.each i p hp⟩

theorem log_of_unconstructed (h : Run (step funcs) okS (started req stream) as t)
    (hi : (peersOf funcs req stream as)[i]? = none) :
    (t.conns i).log = [] ∧ as.filterMap (Action.own i) = [] := by
  obtain ⟨s, hconns, hs, hown⟩ := ownConns_of_run _ (fun _ _ _ _ _ => allows_true) h
  have hle : (peersOf funcs req stream as).length ≤ i := List.getElem?_eq_none_iff.mp hi
  refine ⟨?_, hown.unused i hle⟩
  rw [← hconns]
  exact (hs.unused i (hown.created_eq ▸ hle)).log_eq

end

end HttpServer

end BtcServer.HttpmessageServer
