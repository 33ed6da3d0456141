import BtcServer.LoginServer.Stopping
import Mathlib.Data.List.TakeWhile

/-!
# The read loop and its buffer

`do_read` offers asio all 8192 chars of `m_buffer_` and stores a terminator behind what arrived.  A
read that fills the buffer leaves no room for the terminator, which then goes behind the allocation.
-/

namespace BtcServer.LoginServer

open Boost Lib

theorem length_takeWhile_le_of_getElem? {α : Type*} {p : α → Bool} {l : List α} {k : Nat} {a : α}
    (hk : l[k]? = some a) (ha : p a = false) : (l.takeWhile p).length ≤ k := by
  by_contra hlt
  have hmem : a ∈ l.takeWhile p := by
    refine List.mem_of_getElem? (i := k) ?_
    have hsome := List.getElem?_eq_getElem (Nat.lt_of_not_le hlt)
    rw [← hk, hsome]
    exact (List.prefix_iff_getElem?.mp (List.takeWhile_prefix p) k (Nat.lt_of_not_le hlt)).symm
  exact Bool.false_ne_true (ha.symm.trans (List.mem_takeWhile_imp hmem))

/-! ## One session -/

/-- A read is offered the whole of `m_buffer_` and delivers no more than it was offered. -/
def IoOp.Fits (op : IoOp) : Prop :=
  ∀ size, op.kind = .readSome size → size = 8192 ∧
    ∀ ec length, op.done = some (ec, length) → length ≤ size

def IoOp.Full (op : IoOp) : Prop := ∃ size, op = ⟨.readSome size, some (.success, size)⟩

theorem IoOp.Fits.abort {op : IoOp} (h : op.Fits) : op.abort.Fits := by
  intro size hkind
  obtain ⟨hsize, hlength⟩ := h size hkind
  refine ⟨hsize, fun ec length hdone => ?_⟩
  cases hold : op.done with
  | some result => exact hlength ec length (by rw [← hdone, IoOp.abort, hold]; rfl)
  | none =>
      rw [IoOp.abort, hold] at hdone
      injection hdone with hpair
      rw [← (Prod.mk.inj hpair).2]
      exact Nat.zero_le size

namespace Session

/-- The terminators of the session are in its buffer, and its reads fit. -/
structure Bounded (s : Session) : Prop where
  stores : ∀ index ∈ s.stores, index < 8192
  ops : ∀ op ∈ s.ops, op.Fits

variable {s s' : Session} {op : IoOp} {k length : Nat} {ec : ErrorCode} {data : List UInt8}

theorem Bounded.startOp (h : s.Bounded) (kind : IoKind)
    (hkind : ∀ size, kind = .readSome size → size = 8192) : (s.startOp kind).Bounded where
  stores := h.stores
  ops op hmem := by
    rcases List.mem_append.mp hmem with hold | hnew
    · exact h.ops op hold
    · obtain rfl := List.mem_singleton.mp hnew
      refine fun size hsize => ⟨hkind size hsize, fun ec length hdone => ?_⟩
      cases hopen : s.mSocketIsOpen <;> simp [hopen] at hdone
      rw [← hdone.2]
      exact Nat.zero_le size

theorem Bounded.doRead (h : s.Bounded) : s.doRead.Bounded :=
  h.startOp _ fun _ hsize => (IoKind.readSome.inj hsize).symm

theorem Bounded.doWrite (h : s.Bounded) : s.doWrite.Bounded :=
  h.startOp _ fun _ hsize => by cases hsize

theorem Bounded.stop (h : s.Bounded) : s.stop.Bounded where
  stores := h.stores
  ops op hmem := by
    obtain ⟨old, hold, rfl⟩ := List.mem_map.mp hmem
    exact (h.ops old hold).abort

theorem Bounded.take (h : s.Bounded) (k : Nat) : (s.take k).Bounded where
  stores := h.stores
  ops op hmem := h.ops op (List.mem_of_mem_eraseIdx hmem)

theorem stores_fill (s : Session) (data : List UInt8) : (s.fill data).stores = s.stores := by
  cases s
  rfl

theorem ops_fill (s : Session) (data : List UInt8) : (s.fill data).ops = s.ops := by
  cases s
  rfl

theorem Bounded.fill (h : s.Bounded) (data : List UInt8) : (s.fill data).Bounded where
  stores := by
    rw [stores_fill]
    exact h.stores
  ops := by
    rw [ops_fill]
    exact h.ops

theorem receive_spec {size : Nat} (hop : s.ops[k]? = some ⟨.readSome size, none⟩)
    (hle : data.length ≤ size) :
    ∃ s', s.receive k data = some s' ∧ s'.stores = s.stores ∧
      s'.ops = s.ops.set k ⟨.readSome size, some (.success, data.length)⟩ := by
  refine ⟨{ s.fill data with
    ops := s.ops.set k ⟨.readSome size, some (.success, data.length)⟩ }, ?_, ?_, rfl⟩
  · unfold Session.receive
    rw [hop]
    dsimp only
    rw [if_pos hle]
    unfold Session.complete
    rw [ops_fill, hop]
  · dsimp only
    exact stores_fill s data

theorem Bounded.complete (h : s.Bounded) (hs : s.complete k ec length = some s')
    (hlength : ∀ size done, s.ops[k]? = some ⟨.readSome size, done⟩ → length ≤ size) :
    s'.Bounded := by
  unfold Session.complete at hs
  split at hs
  case h_1 kind hop =>
      obtain rfl := Option.some.inj hs
      refine ⟨h.stores, fun op hmem => ?_⟩
      rcases List.mem_or_eq_of_mem_set hmem with hold | rfl
      · exact h.ops op hold
      · intro size hkind
        refine ⟨(h.ops _ (List.mem_of_getElem? hop) size hkind).1, fun ec' length' hdone => ?_⟩
        injection hdone with hpair
        rw [← (Prod.mk.inj hpair).2]
        cases hkind
        exact hlength size none hop
  case h_2 => cases hs

theorem Bounded.receive (h : s.Bounded) (hs : s.receive k data = some s') : s'.Bounded := by
  unfold Session.receive at hs
  split at hs
  case h_1 size done hop =>
      by_cases hsize : data.length ≤ size
      · rw [if_pos hsize] at hs
        refine (h.fill data).complete hs fun size' done' hop' => ?_
        rw [ops_fill] at hop'
        injection (hop.symm.trans hop') with heq
        injection heq with hkind
        injection hkind with heq
        exact heq ▸ hsize
      · rw [if_neg hsize] at hs
        cases hs
  case h_2 => cases hs

theorem Bounded.send (h : s.Bounded) (hs : s.send k length = some s') : s'.Bounded := by
  unfold Session.send at hs
  split at hs
  case h_1 data done hop =>
      by_cases hlength : length ≤ data.length
      · rw [if_pos hlength] at hs
        refine h.complete hs fun size' done' hop' => ?_
        cases hop.symm.trans hop'
      · rw [if_neg hlength] at hs
        cases hs
  case h_2 => cases hs

theorem Bounded.fail (h : s.Bounded) (hs : s.fail k ec = some s') : s'.Bounded := by
  unfold Session.fail at hs
  by_cases hec : ec.failed ∧ ec ≠ .operationAborted
  · rw [if_pos hec] at hs
    exact h.complete hs fun size _ _ => Nat.zero_le size
  · rw [if_neg hec] at hs
    cases hs

theorem Bounded.terminate (h : s.Bounded) (hlength : length < 8192) :
    (s.terminate length).Bounded where
  stores index hmem := by
    rcases List.mem_append.mp hmem with hold | hnew
    · exact h.stores index hold
    · obtain rfl := List.mem_singleton.mp hnew
      exact hlength
  ops := h.ops

theorem length_text_terminate (s : Session) (hlength : length < 8192) :
    (s.terminate length).text.length ≤ length := by
  have hzero : (s.terminate length).mBuffer.toList[length]? = some 0 := by
    unfold terminate
    simp [hlength]
  exact length_takeWhile_le_of_getElem? hzero (by decide)

end Session

/-! ## The process -/

namespace SessionMgr

/-- No terminator was stored outside a buffer, and every string that was printed ended within the
8192 chars it was in. -/
structure InBuffer (s : SessionMgr) : Prop where
  stores : ∀ j, ∀ index ∈ (s.sessions j).stores, index < (s.sessions j).mBuffer.size
  cout : ∀ line ∈ s.cout, line.length < 8192

/-- The action does not run the handler of a read that has filled its buffer. -/
def NotFull (s : SessionMgr) : Action → Prop
  | .run i k => ∀ op, (s.sessions i).ops[k]? = some op → ¬op.Full
  | _ => True

structure Bounded (s : SessionMgr) : Prop where
  sessions : ∀ j, (s.sessions j).Bounded
  cout : ∀ line ∈ s.cout, line.length < 8192

variable {s t : SessionMgr} {i k : Nat} {session : Session} {line : List UInt8} {a : Action}
  {as : List Action} {isOpen : Nat → Bool} {buffers rspBuffers : Nat → Vector UInt8 8192}

theorem Bounded.inBuffer (h : s.Bounded) : s.InBuffer where
  stores j index hmem := (h.sessions j).stores index hmem
  cout := h.cout

theorem Bounded.create : (create isOpen buffers rspBuffers).Bounded where
  sessions _ :=
    ⟨fun _ hmem => (List.not_mem_nil hmem).elim, fun _ hmem => (List.not_mem_nil hmem).elim⟩
  cout _ hmem := by cases hmem

theorem Bounded.setSession (h : s.Bounded) (i : Nat) (hsession : session.Bounded) :
    (s.setSession i session).Bounded where
  sessions := (Function.forall_update_iff _ fun _ session => Session.Bounded session).mpr
    ⟨hsession, fun j _ => h.sessions j⟩
  cout := h.cout

theorem Bounded.print (h : s.Bounded) (hline : line.length < 8192) : (s.print line).Bounded where
  sessions := h.sessions
  cout new hmem := by
    rcases List.mem_append.mp hmem with hold | hnew
    · exact h.cout new hold
    · obtain rfl := List.mem_singleton.mp hnew
      exact hline

theorem Bounded.stop (h : s.Bounded) (i : Nat) : (s.stop i).Bounded where
  sessions := (h.setSession i (h.sessions i).stop).sessions
  cout := h.cout

theorem Bounded.somethingWrong (h : s.Bounded) : s.somethingWrong.Bounded where
  sessions := h.sessions
  cout := (h.print (by decide)).cout

theorem stores_handle_read (s : SessionMgr) (i size length : Nat) :
    ((s.handle i (.readSome size) .success length).sessions i).stores =
      (s.sessions i).stores ++ [length] := by
  change (Function.update s.sessions i ((s.sessions i).terminate length).doRead i).stores = _
  rw [Function.update_self]
  rfl

theorem Bounded.run (h : s.Bounded) (hok : s.NotFull (.run i k)) (hstep : s.run i k = some t) :
    t.Bounded := by
  obtain ⟨kind, ec, length, hop, rfl⟩ := run_cases hstep
  have htaken := h.setSession i ((h.sessions i).take k)
  by_cases hec : ec = .operationAborted
  · subst hec
    rw [handle_of_aborted]
    exact htaken.somethingWrong
  · by_cases hfailed : ec.failed = true
    · rw [handle_of_failed _ i kind length hfailed hec]
      exact htaken.stop i
    · obtain rfl := ErrorCode.eq_success hfailed
      cases kind with
      | writeSome data => exact htaken
      | readSome size =>
          obtain ⟨rfl, hlength⟩ := (h.sessions i).ops _ (List.mem_of_getElem? hop) size rfl
          have hne : length ≠ 8192 := by
            rintro rfl
            exact hok _ hop ⟨8192, rfl⟩
          have hlt : length < 8192 := Nat.lt_of_le_of_ne (hlength _ _ rfl) hne
          have hterminated := (htaken.sessions i).terminate hlt
          have htext := Session.length_text_terminate (((s.setSession i
            ((s.sessions i).take k)).sessions i)) hlt
          exact (htaken.print (Nat.lt_of_le_of_lt htext hlt)).setSession i hterminated.doRead

theorem Bounded.step (h : s.Bounded) (hok : s.NotFull a) (hstep : s.step a = some t) :
    t.Bounded := by
  obtain ⟨-, heffect⟩ := effect_of_step hstep
  cases heffect with
  | start i => exact ⟨(h.setSession i (h.sessions i).doRead).sessions, h.cout⟩
  | stop i => exact h.stop i
  | stopAll =>
      refine ⟨fun j => ?_, h.cout⟩
      rw [sessions_stopAll]
      by_cases hj : j ∈ s.mSessions
      · rw [if_pos hj]
        exact (h.sessions j).stop
      · rw [if_neg hj]
        exact h.sessions j
  | doWrite i => exact h.setSession i (h.sessions i).doWrite
  | receive hsession => exact h.setSession _ ((h.sessions _).receive hsession)
  | send hsession => exact h.setSession _ ((h.sessions _).send hsession)
  | fail hsession => exact h.setSession _ ((h.sessions _).fail hsession)
  | run hrun => exact h.run hok hrun

theorem Bounded.notFull (h : s.Bounded) (hstep : s.step a = some t) (ht : t.InBuffer) :
    s.NotFull a := by
  obtain ⟨-, heffect⟩ := effect_of_step hstep
  cases heffect with
  | @run i k _ hrun =>
      rintro op hop ⟨size, rfl⟩
      obtain ⟨kind, ec, length, hop', rfl⟩ := run_cases hrun
      cases hop.symm.trans hop'
      obtain ⟨rfl, -⟩ := (h.sessions i).ops _ (List.mem_of_getElem? hop) _ rfl
      have hstored : 8192 ∈ ((handle (s.setSession i ((s.sessions i).take k)) i
          (.readSome 8192) .success 8192).sessions i).stores := by
        rw [stores_handle_read]
        exact List.mem_append_right _ (List.mem_singleton_self 8192)
      exact absurd (ht.stores i 8192 hstored) (Nat.lt_irrefl 8192)
  | _ => trivial

/-- No terminator goes outside a buffer, throughout a run, exactly when no handler of the run is
that of a read which has filled the buffer. -/
theorem in_buffer_iff (h : Run step (fun _ _ => True) (create isOpen buffers rspBuffers) as t) :
    Throughout step InBuffer (create isOpen buffers rspBuffers) as ↔
      Run step NotFull (create isOpen buffers rspBuffers) as t :=
  h.throughout_iff (I := Bounded) (fun _ hs => hs.inBuffer)
    (fun _ _ _ hok hstep hs => hs.step hok hstep)
    (fun _ _ _ hs hstep ht => hs.notFull hstep ht) .create

theorem step_run_spec {size length : Nat} (hexited : s.exited = none)
    (hop : (s.sessions i).ops[k]? = some ⟨.readSome size, some (.success, length)⟩) :
    ∃ t, s.step (.run i k) = some t ∧
      (t.sessions i).stores = (s.sessions i).stores ++ [length] := by
  refine ⟨(s.setSession i ((s.sessions i).take k)).handle i (.readSome size) .success length,
    ?_, ?_⟩
  · unfold SessionMgr.step
    rw [if_neg (by rw [hexited]; exact Bool.false_ne_true)]
    dsimp only
    unfold SessionMgr.run
    rw [hop]
  · rw [stores_handle_read, sessions_setSession_self]
    rfl

theorem run_of_delivery {data : List UInt8} (hle : data.length ≤ 8192) :
    ∃ s, Run step NotFull opened [.start 0, .receive 0 0 data] s ∧ s.exited = none ∧
      (s.sessions 0).stores = [] ∧
      (s.sessions 0).ops = [⟨.readSome 8192, some (.success, data.length)⟩] := by
  obtain ⟨session, hreceive, hstores, hops⟩ :=
    Session.receive_spec (s := (opened.start 0).sessions 0) (k := 0) rfl hle
  have hstep : (opened.start 0).step (.receive 0 0 data) =
      some ((opened.start 0).setSession 0 session) :=
    congrArg (Option.map ((opened.start 0).setSession 0)) hreceive
  refine ⟨_, .cons trivial rfl (.cons trivial hstep (.nil _)), rfl, ?_, ?_⟩
  · rw [sessions_setSession_self]
    exact hstores
  · rw [sessions_setSession_self]
    exact hops

/-- A read delivers three chars. -/
theorem in_buffer_of_short :
    ∃ t, Run step (fun _ _ => True) opened [.start 0, .receive 0 0 [97, 98, 99], .run 0 0] t ∧
      (t.sessions 0).stores = [3] ∧
      Throughout step InBuffer opened [.start 0, .receive 0 0 [97, 98, 99], .run 0 0] := by
  obtain ⟨s, hrun, hexited, hstores, hops⟩ :=
    run_of_delivery (show [97, 98, 99].length ≤ 8192 by decide)
  obtain ⟨t, hstep, hstored⟩ := step_run_spec (k := 0) hexited (by rw [hops]; rfl)
  have hok : s.NotFull (.run 0 0) := by
    rintro op hop ⟨size, rfl⟩
    rw [hops] at hop
    cases hop
  have h := hrun.append (.cons hok hstep (.nil t))
  refine ⟨t, h.mono fun _ _ _ => trivial, by rw [hstored, hstores]; rfl, ?_⟩
  exact (in_buffer_iff (h.mono fun _ _ _ => trivial)).mpr h

/-- A read delivers 8192 chars, and the terminator goes to index 8192. -/
theorem stored_behind_buffer :
    ∃ t, Run step (fun _ _ => True) opened
        [.start 0, .receive 0 0 (List.replicate 8192 65), .run 0 0] t ∧
      8192 ∈ (t.sessions 0).stores ∧ ¬t.InBuffer := by
  have hle : (List.replicate 8192 (65 : UInt8)).length ≤ 8192 := List.length_replicate.le
  obtain ⟨s, hrun, hexited, hstores, hops⟩ := run_of_delivery hle
  obtain ⟨t, hstep, hstored⟩ := step_run_spec (k := 0) hexited (by rw [hops]; rfl)
  have hmem : 8192 ∈ (t.sessions 0).stores := by
    rw [hstored, hstores, List.length_replicate]
    exact List.mem_singleton_self 8192
  refine ⟨t, (hrun.mono fun _ _ _ => trivial).append (.cons trivial hstep (.nil t)), hmem, ?_⟩
  intro h
  exact absurd (h.stores 0 8192 hmem) (Nat.lt_irrefl 8192)

end SessionMgr

end BtcServer.LoginServer
