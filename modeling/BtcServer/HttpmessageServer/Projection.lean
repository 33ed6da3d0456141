import BtcServer.HttpmessageServer.Following
import BtcServer.HttpmessageServer.HttpServer

/-!
# A server and its connections

`link` forgets all connections of a server but one.  The handlers of that connection commute with it
(`hom_link`), and what the handlers of another one do to it are calls that someone might make at any
time (`respects_frame`).
-/

namespace BtcServer.HttpmessageServer

open Boost Lib

/-! ## Maps and relations of surroundings -/

namespace Host

variable {σ σ' : Type} {h : Host σ} {h' : Host σ'} {p : σ → σ'}

/-- What a handler does in one surrounding is what it does in the other. -/
structure Hom (h : Host σ) (h' : Host σ') (p : σ → σ') : Prop where
  conn : ∀ s, h'.conn (p s) = h.conn s
  setConn : ∀ s c, p (h.setConn s c) = h'.setConn (p s) c
  managerStop : ∀ s, p (h.managerStop s) = h'.managerStop (p s)
  handleRequest : ∀ s, h'.handleRequest (p s) = ((h.handleRequest s).1, p (h.handleRequest s).2)

namespace Hom

theorem dispatch (hp : Hom h h' p) (s : σ) : p (h.dispatch s) = h'.dispatch (p s) := by
  unfold Host.dispatch
  rw [hp.handleRequest]
  rcases h.handleRequest s with ⟨found, t⟩
  cases found with
  | false => exact hp.managerStop t
  | true =>
      dsimp only
      rw [hp.conn, apply_ite p, hp.setConn]

theorem handleReadBody (hp : Hom h h' p) (ec : ErrorCode) (length : Nat) (s : σ) :
    p (h.handleReadBody ec length s) = h'.handleReadBody ec length (p s) := by
  unfold Host.handleReadBody
  rw [hp.conn, apply_ite p, hp.managerStop, hp.dispatch, hp.setConn]

theorem handleRequestHead (hp : Hom h h' p) (ec : ErrorCode) (s : σ) :
    p (h.handleRequestHead ec s) = h'.handleRequestHead ec (p s) := by
  unfold Host.handleRequestHead
  simp only [apply_ite p, hp.conn, hp.managerStop, hp.dispatch, hp.setConn, hp.handleReadBody]

theorem handleReadHeaders (hp : Hom h h' p) (ec : ErrorCode) (length : Nat) (s : σ) :
    p (h.handleReadHeaders ec length s) = h'.handleReadHeaders ec length (p s) := by
  unfold Host.handleReadHeaders
  simp only [apply_ite p, hp.conn, hp.managerStop, hp.setConn, hp.handleRequestHead]

theorem handleRead (hp : Hom h h' p) (op : ReadOp) (ec : ErrorCode) (length : Nat) (s : σ) :
    p (h.handleRead op ec length s) = h'.handleRead op ec length (p s) := by
  cases op with
  | readUntil _ => exact hp.handleReadHeaders ec length s
  | readExactly _ _ => exact hp.handleReadBody ec length s

theorem handleWrite (hp : Hom h h' p) (ec : ErrorCode) (length : Nat) (s : σ) :
    p (h.handleWrite ec length s) = h'.handleWrite ec length (p s) := by
  unfold Host.handleWrite
  rw [hp.conn, apply_ite p, hp.managerStop]

end Hom

/-- A preorder that every access to the surroundings keeps. -/
structure Respects (h : Host σ) (R : σ → σ → Prop) : Prop where
  refl : ∀ s, R s s
  trans : ∀ s t u, R s t → R t u → R s u
  setConn : ∀ s c, R s (h.setConn s c)
  managerStop : ∀ s, R s (h.managerStop s)
  handleRequest : ∀ s, R s (h.handleRequest s).2

namespace Respects

variable {R : σ → σ → Prop}

theorem dispatch (hR : h.Respects R) (s : σ) : R s (h.dispatch s) := by
  have hrequest := hR.handleRequest s
  unfold Host.dispatch
  rcases heq : h.handleRequest s with ⟨found, t⟩
  rw [heq] at hrequest
  cases found with
  | false => exact hR.trans _ _ _ hrequest (hR.managerStop t)
  | true =>
      dsimp only
      split_ifs
      · exact hR.trans _ _ _ hrequest (hR.setConn t _)
      · exact hrequest

theorem handleReadBody (hR : h.Respects R) (ec : ErrorCode) (length : Nat) (s : σ) :
    R s (h.handleReadBody ec length s) := by
  unfold Host.handleReadBody
  split_ifs
  · exact hR.managerStop s
  · exact hR.trans _ _ _ (hR.setConn s _) (hR.dispatch _)

theorem handleRequestHead (hR : h.Respects R) (ec : ErrorCode) (s : σ) :
    R s (h.handleRequestHead ec s) := by
  unfold Host.handleRequestHead
  apply hR.trans _ _ _ (hR.setConn s (h.conn s).normalise)
  dsimp only
  split_ifs
  · exact hR.managerStop _
  · exact hR.handleReadBody _ _ _
  · exact hR.setConn _ _
  · exact hR.dispatch _

theorem handleReadHeaders (hR : h.Respects R) (ec : ErrorCode) (length : Nat) (s : σ) :
    R s (h.handleReadHeaders ec length s) := by
  unfold Host.handleReadHeaders
  dsimp only
  split_ifs
  · exact hR.managerStop s
  · exact hR.trans _ _ _ (hR.setConn s _) (hR.managerStop _)
  · exact hR.trans _ _ _ (hR.setConn s _) (hR.handleRequestHead _ _)

theorem handleRead (hR : h.Respects R) (op : ReadOp) (ec : ErrorCode) (length : Nat) (s : σ) :
    R s (h.handleRead op ec length s) := by
  cases op with
  | readUntil _ => exact hR.handleReadHeaders ec length s
  | readExactly _ _ => exact hR.handleReadBody ec length s

theorem handleWrite (hR : h.Respects R) (ec : ErrorCode) (length : Nat) (s : σ) :
    R s (h.handleWrite ec length s) := by
  unfold Host.handleWrite
  split_ifs
  · exact hR.managerStop s
  · exact hR.refl s

end Respects

end Host

def IoAction.mapCalls {τ τ' : Type} (f : List (Call τ) → List (Call τ')) :
    IoAction τ → IoAction τ'
  | .receive i n => .receive i n
  | .readDone i calls => .readDone i (f calls)
  | .readFailed i ec => .readFailed i ec
  | .writeDone i => .writeDone i
  | .writeFailed i ec n => .writeFailed i ec n

section IoStep

variable {σ σ' τ τ' : Type} {host : List (Call τ) → Host σ} {host' : List (Call τ') → Host σ'}

theorem ioStep_map {p : σ → σ'} {f : List (Call τ) → List (Call τ')} (hf : f [] = [])
    (hp : ∀ calls, Host.Hom (host calls) (host' (f calls)) p) (s : σ) (a : IoAction τ) :
    (ioStep host s a).map p = ioStep host' (p s) (a.mapCalls f) := by
  have hnil : Host.Hom (host []) (host' []) p := hf ▸ hp []
  cases a with
  | receive i n =>
      unfold IoAction.mapCalls ioStep
      rw [hnil.conn, Option.map_map]
      congr 1
      funext c
      exact hnil.setConn s c
  | readDone i calls =>
      unfold IoAction.mapCalls ioStep
      dsimp only
      rw [(hp calls).conn]
      split
      case h_1 => rfl
      case h_2 op hop =>
        rw [Option.map_map]
        congr 1
        funext length
        rw [← (hp calls).setConn, ← (hp calls).handleRead]
        rfl
  | readFailed i ec =>
      unfold IoAction.mapCalls ioStep
      dsimp only
      rw [hnil.conn]
      split
      case h_1 => rfl
      case h_2 op hop =>
        rw [← hnil.setConn, ← hnil.handleRead]
        split_ifs <;> rfl
  | writeDone i =>
      unfold IoAction.mapCalls ioStep
      dsimp only
      rw [hnil.conn, Option.map_map]
      congr 1
      funext data
      rw [← hnil.setConn, ← hnil.handleWrite]
      rfl
  | writeFailed i ec n =>
      unfold IoAction.mapCalls ioStep
      dsimp only
      rw [hnil.conn]
      split
      case h_1 => rfl
      case h_2 data hdata =>
        rw [← hnil.setConn, ← hnil.handleWrite]
        split_ifs <;> rfl

theorem ioStep_relates {R : σ → σ → Prop} (hR : ∀ calls, (host calls).Respects R) {s t : σ}
    {a : IoAction τ} (h : ioStep host s a = some t) : R s t := by
  cases a with
  | receive i n =>
      obtain ⟨c, -, rfl⟩ := Option.map_eq_some_iff.mp h
      exact (hR []).setConn s c
  | readDone i calls =>
      obtain ⟨op, length, -, -, rfl⟩ := readDone_of_ioStep h
      exact (hR calls).trans _ _ _ ((hR calls).setConn s _) ((hR calls).handleRead _ _ _ _)
  | readFailed i ec =>
      obtain ⟨op, -, -, rfl⟩ := readFailed_of_ioStep h
      exact (hR []).trans _ _ _ ((hR []).setConn s _) ((hR []).handleRead _ _ _ _)
  | writeDone i =>
      obtain ⟨data, -, rfl⟩ := writeDone_of_ioStep h
      exact (hR []).trans _ _ _ ((hR []).setConn s _) ((hR []).handleWrite _ _ _)
  | writeFailed i ec n =>
      obtain ⟨data, -, -, -, rfl⟩ := writeFailed_of_ioStep h
      exact (hR []).trans _ _ _ ((hR []).setConn s _) ((hR []).handleWrite _ _ _)

end IoStep

/-! ## One connection of a server -/

/-- The call as connection `i` sees it. -/
def Call.on (i : Nat) : Call Nat → Option (Call Unit)
  | .writeResponse j body => if j = i then some (.writeResponse () body) else none
  | .stop j => if j = i then some (.stop ()) else none
  | .stopAll => some .stopAll

namespace HttpServer

variable {funcs : CallbackTable} {s t : HttpServer}

def link (s : HttpServer) (i : Nat) : Link := ⟨s.conns i, i ∈ s.mHttpConnectionPtrs⟩

theorem link_setConn_self (s : HttpServer) (i : Nat) (conn : HttpConnction) :
    (s.setConn i conn).link i = ⟨conn, (s.link i).registered⟩ := by
  unfold link setConn
  dsimp only
  rw [Function.update_self]

theorem link_setConn_of_ne {i j : Nat} (h : j ≠ i) (s : HttpServer) (conn : HttpConnction) :
    (s.setConn i conn).link j = s.link j := by
  unfold link setConn
  dsimp only
  rw [Function.update_of_ne h]

theorem link_managerStop_self (s : HttpServer) (i : Nat) :
    (s.managerStop i).link i = (s.link i).managerStop := by
  simp [link, managerStop, setConn, Link.managerStop]

theorem link_managerStop_of_ne {i j : Nat} (h : j ≠ i) (s : HttpServer) :
    (s.managerStop i).link j = s.link j := by
  simp [link, managerStop, setConn, h]

theorem link_managerStopAll (s : HttpServer) (i : Nat) :
    s.managerStopAll.link i = (s.link i).call .stopAll := by
  unfold link managerStopAll Link.call Link.managerStop
  by_cases h : i ∈ s.mHttpConnectionPtrs <;> simp [h]

theorem link_call_self {i : Nat} (h : s.Known i) (c : Call Nat) :
    (s.call c).link i = ((c.on i).elim (s.link i) (s.link i).call) := by
  cases c with
  | writeResponse j body =>
      change (if s.Known j then s.setConn j ((s.conns j).writeResponse body) else s).link i =
        Option.elim (if j = i then some (Call.writeResponse () body) else none) _ _
      by_cases hj : j = i
      · subst hj
        rw [if_pos h, if_pos rfl, link_setConn_self]
        rfl
      · rw [if_neg hj]
        split_ifs
        · exact link_setConn_of_ne (Ne.symm hj) s _
        · rfl
  | stop j =>
      change (if s.Known j then s.managerStop j else s).link i =
        Option.elim (if j = i then some (Call.stop ()) else none) _ _
      by_cases hj : j = i
      · subst hj
        rw [if_pos h, if_pos rfl, link_managerStop_self]
        rfl
      · rw [if_neg hj]
        split_ifs
        · exact link_managerStop_of_ne (Ne.symm hj) s
        · rfl
  | stopAll => exact link_managerStopAll s i

theorem known_of_link {i : Nat} (h : s.Known i) (haside : Link.Aside (s.link i) (t.link i)) :
    t.Known i := by
  unfold Known at h ⊢
  have heq := haside.invocations_eq
  change invocations (t.conns i).log = invocations (s.conns i).log at heq
  rwa [heq]

theorem link_runCallback {i : Nat} (calls : List (Call Nat)) (h : s.Known i) :
    (s.runCallback calls).link i = (s.link i).runCallback (calls.filterMap (Call.on i)) := by
  induction calls generalizing s with
  | nil => rfl
  | cons c calls ih =>
      have hcall := link_call_self h c
      cases hc : c.on i with
      | none =>
          rw [hc] at hcall
          have hknown : (s.call c).Known i :=
            known_of_link h (hcall ▸ Link.Aside.refl _)
          rw [List.filterMap_cons_none hc, ← show (s.call c).link i = s.link i from hcall]
          exact ih hknown
      | some c' =>
          rw [hc] at hcall
          have hknown : (s.call c).Known i :=
            known_of_link h (hcall ▸ Link.Aside.call _ c')
          rw [List.filterMap_cons_some hc]
          change _ = ((s.link i).call c').runCallback _
          rw [← show (s.call c).link i = (s.link i).call c' from hcall]
          exact ih hknown

theorem link_handleRequest (i : Nat) (calls : List (Call Nat)) (s : HttpServer) :
    Link.handleRequest funcs (calls.filterMap (Call.on i)) (s.link i) =
      ((s.handleRequest funcs i calls).1, (s.handleRequest funcs i calls).2.link i) := by
  cases hfound : funcs.lookup (s.conns i).mRequest.uri with
  | none =>
      rw [handleRequest_of_none hfound, Link.handleRequest_of_none hfound]
      dsimp only
      rw [link_setConn_self]
      rfl
  | some callback =>
      obtain ⟨u, hu⟩ : ∃ u, u = s.setConn i ((s.conns i).record
          (.requested (s.conns i).mRequest (some callback))) := ⟨_, rfl⟩
      have hknown : u.Known i := by
        rw [hu]
        simp [Known, setConn, HttpConnction.record, invocations, Event.invocation]
      rw [handleRequest_of_some hfound, Link.handleRequest_of_some hfound, ← hu]
      dsimp only
      rw [link_runCallback calls hknown, hu, link_setConn_self]
      rfl

theorem hom_link (funcs : CallbackTable) (i : Nat) (calls : List (Call Nat)) :
    Host.Hom (host funcs i calls) (Link.host funcs (calls.filterMap (Call.on i)))
      (fun s => s.link i) where
  conn _ := rfl
  setConn s c := link_setConn_self s i c
  managerStop s := link_managerStop_self s i
  handleRequest s := link_handleRequest i calls s

/-- A step of asio for a connection is one for its link. -/
theorem link_ioStep {i : Nat} {a : IoAction Nat} (h : ioStep (host funcs i) s a = some t) :
    Link.step funcs (s.link i) (.io (a.mapCalls (List.filterMap (Call.on i)))) =
      some (t.link i) := by
  have hmap := ioStep_map (f := List.filterMap (Call.on i)) rfl (hom_link funcs i) s a
  rw [h] at hmap
  exact hmap.symm

end HttpServer

/-! ## What is done to the other connections -/

namespace Link

variable {funcs : CallbackTable} {l m n : Link}

/-- A connection that was constructed, and perhaps connected, but not started. -/
def Fresh (l : Link) : Prop :=
  l.registered = false ∧ ∃ req stream,
    l.conn = .create req stream ∨ l.conn = (HttpConnction.create req stream).accepted

theorem Fresh.log_eq (h : l.Fresh) : l.conn.log = [] := by
  obtain ⟨-, req, stream, hconn | hconn⟩ := h <;> rw [hconn] <;> rfl

theorem Fresh.abort_eq (h : l.Fresh) : l.conn.mAbort = false := by
  obtain ⟨-, req, stream, hconn | hconn⟩ := h <;> rw [hconn] <;> rfl

theorem Fresh.call_stopAll (h : l.Fresh) : l.call .stopAll = l := by
  change (if l.registered = true then l.managerStop else l) = l
  rw [h.1]
  rfl

theorem Fresh.ioStep_eq (h : l.Fresh) (a : IoAction Unit) : step funcs l (.io a) = none := by
  obtain ⟨-, req, stream, hconn⟩ := h
  have hreads : l.conn.mSocket.reads = [] := by
    rcases hconn with hconn | hconn <;> rw [hconn] <;> rfl
  have hwrites : l.conn.mSocket.writes = [] := by
    rcases hconn with hconn | hconn <;> rw [hconn] <;> rfl
  unfold step ioStep
  cases a <;> simp [host, HttpConnction.receive, hreads, hwrites]

/-- A connection in a run of its own. -/
def Served (funcs : CallbackTable) (l : Link) : Prop :=
  ∃ req stream, Reaches (step funcs) (fun _ _ => True) (started req stream) l

/-- What others do to a connection: nothing as long as it is fresh. -/
def Touched (funcs : CallbackTable) (l m : Link) : Prop :=
  m = l ∨ ¬ l.Fresh ∧ Reaches (step funcs) (fun _ _ => True) l m

theorem Touched.refl (l : Link) : Touched funcs l l := .inl rfl

theorem Touched.trans (h₁ : Touched funcs l m) (h₂ : Touched funcs m n) : Touched funcs l n := by
  rcases h₁ with rfl | ⟨hlive, hreaches⟩
  · exact h₂
  · rcases h₂ with rfl | ⟨-, hreaches'⟩
    · exact .inr ⟨hlive, hreaches⟩
    · exact .inr ⟨hlive, hreaches.trans hreaches'⟩

theorem Touched.fresh (h : Touched funcs l m) (hl : l.Fresh) : m = l := by
  rcases h with heq | ⟨hlive, -⟩
  · exact heq
  · exact absurd hl hlive

theorem Touched.reaches (h : Touched funcs l m) : Reaches (step funcs) (fun _ _ => True) l m := by
  rcases h with rfl | ⟨-, hreaches⟩
  · exact .refl _
  · exact hreaches

theorem touched_of_step {a : Action} (h : invocations l.conn.log ≠ [])
    (hstep : step funcs l a = some m) : Touched funcs l m := by
  refine .inr ⟨fun hfresh => ?_, .single trivial hstep⟩
  rw [hfresh.log_eq] at h
  exact h rfl

theorem touched_stopAll (l : Link) : Touched funcs l (l.call .stopAll) := by
  change Touched funcs l (if l.registered = true then l.managerStop else l)
  by_cases hregistered : l.registered = true
  · rw [if_pos hregistered]
    refine .inr ⟨fun hfresh => ?_, .single (a := .stop) trivial rfl⟩
    rw [hfresh.1] at hregistered
    cases hregistered
  · rw [if_neg hregistered]
    exact .refl l

end Link

namespace HttpServer

variable {funcs : CallbackTable} {own : Nat → Prop} {s t u : HttpServer}

/-- Nothing but connections changed from `s` to `t`, and those that are not `own` were at most
touched. -/
structure Frame (funcs : CallbackTable) (own : Nat → Prop) (s t : HttpServer) : Prop where
  isOpen_eq : t.mAcceptorIsOpen = s.mAcceptorIsOpen
  accepts_eq : t.accepts = s.accepts
  ptr_eq : t.mHttpConnectionPtr = s.mHttpConnectionPtr
  created_eq : t.created = s.created
  thrown_eq : t.thrown = s.thrown
  subset : t.mHttpConnectionPtrs ⊆ s.mHttpConnectionPtrs
  others : ∀ i, ¬ own i → Link.Touched funcs (s.link i) (t.link i)

namespace Frame

theorem refl (s : HttpServer) : Frame funcs own s s :=
  ⟨rfl, rfl, rfl, rfl, rfl, subset_rfl, fun i _ => .refl (s.link i)⟩

theorem trans (h₁ : Frame funcs own s t) (h₂ : Frame funcs own t u) : Frame funcs own s u where
  isOpen_eq := h₂.isOpen_eq.trans h₁.isOpen_eq
  accepts_eq := h₂.accepts_eq.trans h₁.accepts_eq
  ptr_eq := h₂.ptr_eq.trans h₁.ptr_eq
  created_eq := h₂.created_eq.trans h₁.created_eq
  thrown_eq := h₂.thrown_eq.trans h₁.thrown_eq
  subset := h₂.subset.trans h₁.subset
  others i hi := (h₁.others i hi).trans (h₂.others i hi)

theorem managerStopAll (s : HttpServer) : Frame funcs own s s.managerStopAll where
  isOpen_eq := rfl
  accepts_eq := rfl
  ptr_eq := rfl
  created_eq := rfl
  thrown_eq := rfl
  subset := Finset.empty_subset _
  others i _ := by
    rw [link_managerStopAll]
    exact Link.touched_stopAll _

theorem call (s : HttpServer) (c : Call Nat) : Frame funcs own s (s.call c) := by
  cases c with
  | writeResponse i body =>
      change Frame funcs own s (if s.Known i then s.setConn i ((s.conns i).writeResponse body) else s)
      by_cases hknown : s.Known i
      · rw [if_pos hknown]
        refine ⟨rfl, rfl, rfl, rfl, rfl, subset_rfl, fun j _ => ?_⟩
        by_cases hj : j = i
        · subst hj
          rw [link_setConn_self]
          exact Link.touched_of_step (a := .respond body) hknown (if_pos hknown)
        · rw [link_setConn_of_ne hj]
          exact .refl _
      · rw [if_neg hknown]
        exact refl s
  | stop i =>
      change Frame funcs own s (if s.Known i then s.managerStop i else s)
      by_cases hknown : s.Known i
      · rw [if_pos hknown]
        refine ⟨rfl, rfl, rfl, rfl, rfl, Finset.erase_subset _ _, fun j _ => ?_⟩
        by_cases hj : j = i
        · subst hj
          rw [link_managerStop_self]
          exact Link.touched_of_step (a := .stop) hknown rfl
        · rw [link_managerStop_of_ne hj]
          exact .refl _
      · rw [if_neg hknown]
        exact refl s
  | stopAll => exact managerStopAll s

theorem runCallback (calls : List (Call Nat)) (s : HttpServer) :
    Frame funcs own s (s.runCallback calls) := by
  induction calls generalizing s with
  | nil => exact refl s
  | cons c calls ih => exact (call s c).trans (ih (s.call c))

theorem setConn (i : Nat) (s : HttpServer) (conn : HttpConnction) :
    Frame funcs (fun j => j = i) s (s.setConn i conn) := by
  refine ⟨rfl, rfl, rfl, rfl, rfl, subset_rfl, fun j hj => ?_⟩
  rw [link_setConn_of_ne hj]
  exact .refl _

theorem managerStop (i : Nat) (s : HttpServer) :
    Frame funcs (fun j => j = i) s (s.managerStop i) := by
  refine ⟨rfl, rfl, rfl, rfl, rfl, Finset.erase_subset _ _, fun j hj => ?_⟩
  rw [link_managerStop_of_ne hj]
  exact .refl _

end Frame

theorem respects_frame (funcs : CallbackTable) (i : Nat) (calls : List (Call Nat)) :
    (host funcs i calls).Respects (Frame funcs fun j => j = i) where
  refl := .refl
  trans _ _ _ := .trans
  setConn := .setConn i
  managerStop := .managerStop i
  handleRequest s := by
    change Frame funcs _ s (handleRequest funcs i calls s).2
    exact HttpConnction.handleRequest_rule (Q := Frame funcs (fun j => j = i) s)
      (.setConn i s _) fun t ht => ht.trans (.runCallback calls t)

end HttpServer

end BtcServer.HttpmessageServer
