import BtcServer.HttpmessageServer.Link

/-!
# Every run follows the reader

Whatever the order of the completions, the blocks, bodies and requests in the log of a connection
are those of the reader of its stream, as far as it has got (`follows_of_run`).  When nothing fails
and nobody stops the connection it gets as far as the reader does (`halted_of_complete`).
-/

namespace BtcServer.HttpmessageServer

open Boost Lib

namespace Link

variable {funcs : CallbackTable} {s t : Link} {a : Action}

/-! ## The shape is kept -/

theorem wellFormed_started (req : Request) (stream : Bytes) : (started req stream).WellFormed where
  registered_eq := rfl
  isOpen_eq := rfl
  reads_shape := .inr (.inl rfl)

theorem wellFormed_managerStop (h : ReadsShape s.conn) : s.managerStop.WellFormed where
  registered_eq := rfl
  isOpen_eq := rfl
  reads_shape := h

theorem popRead_reads {conn : HttpConnction} {op : ReadOp} (h : conn.mSocket.reads = [op]) :
    (conn.popRead 0).mSocket.reads = [] := by
  unfold HttpConnction.popRead
  rw [h]
  rfl

theorem Effect.wellFormed (he : Effect funcs s a t) (h : s.WellFormed) : t.WellFormed := by
  cases he with
  | receive hreads habort hready hn hle haccepts =>
      refine ⟨h.registered_eq, h.isOpen_eq, ?_⟩
      rcases h.reads_shape with hnil | huntil | ⟨wanted, left, hexactly, hmethod, hadmitted, hlength⟩
      · rw [hnil] at hreads
        cases hreads
      · rw [huntil] at hreads
        obtain rfl := (List.cons_eq_cons.mp hreads).1
        exact .inr (.inl rfl)
      · rw [hexactly] at hreads
        obtain rfl := (List.cons_eq_cons.mp hreads).1
        refine .inr (.inr ⟨wanted, _, rfl, hmethod, hadmitted, ?_⟩)
        simp only [ReadOp.accepts, decide_eq_true_eq] at haccepts
        simp only [List.length_append, List.length_take]
        omega
  | late hreads _ => exact wellFormed_managerStop (.inl (popRead_reads hreads))
  | readFailed hreads _ => exact wellFormed_managerStop (.inl (popRead_reads hreads))
  | refused _ _ _ => exact wellFormed_managerStop (.inl rfl)
  | waits hr _ _ hmethod hadmitted hlength =>
      exact ⟨h.registered_eq, h.isOpen_eq, .inr (.inr ⟨_, _, rfl, hmethod, hadmitted, hlength⟩)⟩
  | @invokes i calls k before callback r t hr _ _ ht =>
      have haside := Aside.of_eq_runCallback ht
      have hregistered : t.registered = !t.conn.mAbort := haside.registered_eq h.registered_eq
      have hopen : t.conn.mSocket.isOpen = !t.conn.mAbort := haside.isOpen_eq h.isOpen_eq
      have hreads : t.conn.mSocket.reads = [] := haside.reads_eq
      by_cases hkeep : r.req.keepAlive = true
      · rw [if_pos hkeep]
        refine ⟨hregistered, hopen, .inr (.inl ?_)⟩
        change t.conn.mSocket.reads ++ [.readUntil crlfCrlf] = _
        rw [hreads]
        rfl
      · rw [if_neg hkeep]
        exact ⟨hregistered, hopen, .inl hreads⟩
  | written _ _ =>
      split_ifs
      · exact wellFormed_managerStop h.reads_shape
      · exact ⟨h.registered_eq, h.isOpen_eq, h.reads_shape⟩
  | respond _ => exact ⟨h.registered_eq, h.isOpen_eq, h.reads_shape⟩
  | stop => exact wellFormed_managerStop h.reads_shape

theorem Effect.abort_mono (he : Effect funcs s a t) (h : s.conn.mAbort = true) :
    t.conn.mAbort = true := by
  cases he with
  | receive => exact h
  | late => rfl
  | readFailed => rfl
  | refused => rfl
  | waits => exact h
  | invokes hr => exact absurd h (by simp [hr.abort_eq])
  | written =>
      split_ifs
      · rfl
      · exact h
  | respond => exact h
  | stop => rfl

theorem Effect.running (he : Effect funcs s a t) (h : t.conn.mAbort = false) :
    s.conn.mAbort = false := by
  apply Bool.eq_false_of_not_eq_true
  intro hs
  rw [he.abort_mono hs] at h
  cases h

theorem wellFormed_of_run {ok : Link → Action → Prop} {as : List Action} {req : Request}
    {stream : Bytes} (h : Run (step funcs) ok (started req stream) as t) : t.WellFormed :=
  h.invariant (fun _ _ _ _ hstep hw => (step_effect hw hstep).wellFormed hw)
    (wellFormed_started req stream)

/-! ## Following the reader -/

/-- The events so far are those of the reader that began in `start`, and unless the connection was
stopped it stands where that reader stands. -/
def Follows (funcs : CallbackTable) (start : StreamReader) (l : Link) : Prop :=
  ∃ r, Emits (StreamReader.next funcs) start (readEvents l.conn.log) r ∧
    r.input = l.conn.mRecvBuffer ++ l.conn.mSocket.unread ∧
    (l.conn.mAbort = false → l.conn.reader = r)

variable {start : StreamReader}

theorem Aside.reader_eq (h : Aside s t) : t.conn.reader = s.conn.reader := by
  unfold HttpConnction.reader
  rw [h.recvBuffer_eq, h.request_eq, h.parser_eq, h.reads_eq, h.unread_eq]

theorem Aside.popWrite (s : Link) (i n : Nat) (ec : ErrorCode) :
    Aside s { s with conn := s.conn.popWrite i n ec } where
  recvBuffer_eq := rfl
  request_eq := rfl
  parser_eq := rfl
  reads_eq := rfl
  unread_eq := rfl
  readEvents_eq := by
    simp [HttpConnction.popWrite, HttpConnction.record, readEvents, Event.isRead]
  abort_mono := id
  registered_eq := id
  isOpen_eq := id

theorem Follows.aside (h : Follows funcs start s) (haside : Aside s t) :
    Follows funcs start t := by
  obtain ⟨r, hemits, hinput, hreader⟩ := h
  refine ⟨r, ?_, ?_, ?_⟩
  · rwa [haside.readEvents_eq]
  · rw [haside.recvBuffer_eq, haside.unread_eq, hinput]
  · intro habort
    rw [haside.reader_eq]
    apply hreader
    cases hs : s.conn.mAbort with
    | false => rfl
    | true =>
        rw [haside.abort_mono hs] at habort
        cases habort

theorem readEvents_of_emits {r r' : StreamReader} {out : List Event}
    (h : Emits (StreamReader.next funcs) r out r') : readEvents out = out :=
  List.filter_eq_self.mpr (List.all_eq_true.mp (StreamReader.isRead_of_emits h))

theorem Follows.popRead_stop (h : Follows funcs start s) :
    Follows funcs start (managerStop { s with conn := s.conn.popRead 0 }) := by
  obtain ⟨r, hemits, hinput, -⟩ := h
  refine ⟨r, ?_, hinput, fun habort => by cases habort⟩
  rwa [(Aside.managerStop { s with conn := s.conn.popRead 0 }).readEvents_eq]

theorem Follows.readUpTo (h : Follows funcs start s) {k : Nat} {out : List Event}
    {r : StreamReader} (hr : Reads funcs s k out r) (reads : List ReadOp) :
    Emits (StreamReader.next funcs) start (readEvents (s.readUpTo k r out reads).conn.log) r := by
  obtain ⟨r₀, hemits, -, hreader⟩ := h
  obtain rfl := hreader hr.abort_eq
  change Emits _ _ (readEvents (s.conn.log ++ out)) _
  rw [readEvents_append, readEvents_of_emits hr.emits]
  exact hemits.trans hr.emits

theorem reader_readUpTo {k : Nat} {out : List Event} {r : StreamReader} {reads : List ReadOp}
    (hr : Reads funcs s k out r)
    (hphase : r.phase = (s.readUpTo k r out reads).conn.reader.phase) :
    (s.readUpTo k r out reads).conn.reader = r :=
  StreamReader.ext hphase.symm rfl rfl hr.input_eq.symm

theorem Effect.follows (he : Effect funcs s a t) (h : Follows funcs start s) :
    Follows funcs start t := by
  cases he with
  | @receive i n op hreads habort hready hn hle haccepts =>
      obtain ⟨r, hemits, hinput, hreader⟩ := h
      refine ⟨r, hemits, ?_, ?_⟩
      · rw [hinput]
        simp
      · intro _
        rw [← hreader habort]
        unfold HttpConnction.reader
        rw [hreads]
        cases op <;> simp [ReadOp.advance]
  | late _ _ => exact h.popRead_stop
  | readFailed _ _ => exact h.popRead_stop
  | @refused i calls k out r hr hphase hnone =>
      refine ⟨r, ?_, hr.input_eq, fun habort => by cases habort⟩
      rw [(Aside.managerStop (s.readUpTo k r out [])).readEvents_eq]
      exact h.readUpTo hr []
  | @waits i calls k n out r hr hphase hnone hmethod hadmitted hlength =>
      exact ⟨r, h.readUpTo hr _, hr.input_eq, fun _ => reader_readUpTo hr hphase⟩
  | @invokes i calls k before callback r t hr hphase hnone ht =>
      have haside := Aside.of_eq_runCallback ht
      by_cases hkeep : r.req.keepAlive = true
      · rw [if_pos hkeep] at hphase ⊢
        refine ⟨r, ?_, ?_, ?_⟩
        · have := haside.readEvents_eq
          change Emits _ _ (readEvents t.conn.log) _
          rw [this]
          exact h.readUpTo hr []
        · change _ = t.conn.mRecvBuffer ++ t.conn.mSocket.unread
          rw [haside.recvBuffer_eq, haside.unread_eq]
          exact hr.input_eq
        · intro _
          apply StreamReader.ext
          · have hreads : t.conn.mSocket.reads = [] := haside.reads_eq
            rw [hphase]
            unfold HttpConnction.reader HttpConnction.readHeaders HttpConnction.armRead
            rw [hreads]
            rfl
          · exact haside.parser_eq
          · exact haside.request_eq
          · change t.conn.mRecvBuffer ++ t.conn.mSocket.unread = r.input
            rw [haside.recvBuffer_eq, haside.unread_eq, hr.input_eq]
            rfl
      · rw [if_neg hkeep] at hphase ⊢
        have hself : Follows funcs start
            (s.readUpTo k r (before ++ [.requested r.req (some callback)]) []) :=
          ⟨r, h.readUpTo hr [], hr.input_eq, fun _ => reader_readUpTo hr hphase⟩
        exact hself.aside haside
  | @written i n ec data a _ _ =>
      have hpopped := h.aside (Aside.popWrite s i n ec)
      split_ifs
      · exact hpopped.aside (Aside.managerStop _)
      · exact hpopped
  | respond _ => exact h.aside (Aside.writeResponse s _)
  | stop => exact h.aside (Aside.managerStop s)

theorem Effect.readEvents_eq (he : Effect funcs s a t) :
    readEvents t.conn.log = readEvents s.conn.log ∨
      ∃ i calls k out r, a = .io (.readDone i calls) ∧ Reads funcs s k out r ∧
        readEvents t.conn.log = readEvents s.conn.log ++ out := by
  have hread {k : Nat} {out : List Event} {r : StreamReader} (hr : Reads funcs s k out r)
      (reads : List ReadOp) :
      readEvents (s.readUpTo k r out reads).conn.log = readEvents s.conn.log ++ out := by
    change readEvents (s.conn.log ++ out) = _
    rw [readEvents_append, readEvents_of_emits hr.emits]
  cases he with
  | receive => exact .inl rfl
  | late => exact .inl (Aside.managerStop { s with conn := s.conn.popRead 0 }).readEvents_eq
  | readFailed => exact .inl (Aside.managerStop { s with conn := s.conn.popRead 0 }).readEvents_eq
  | @refused i calls k out r hr _ _ =>
      refine .inr ⟨i, calls, k, out, r, rfl, hr, ?_⟩
      rw [(Aside.managerStop _).readEvents_eq, hread hr]
  | @waits i calls k n out r hr _ _ _ _ _ =>
      exact .inr ⟨i, calls, k, out, r, rfl, hr, hread hr _⟩
  | @invokes i calls k before callback r t hr _ _ ht =>
      refine .inr ⟨i, calls, k, _, r, rfl, hr, ?_⟩
      have hlog : readEvents t.conn.log =
          readEvents s.conn.log ++ (before ++ [.requested r.req (some callback)]) := by
        rw [ht, (Aside.runCallback calls _).readEvents_eq, hread hr]
      split_ifs <;> exact hlog
  | @written i n ec data a _ _ =>
      have hpopped := Aside.popWrite s i n ec
      split_ifs
      · exact .inl (hpopped.trans (Aside.managerStop _)).readEvents_eq
      · exact .inl hpopped.readEvents_eq
  | respond => exact .inl (Aside.writeResponse s _).readEvents_eq
  | stop => exact .inl (Aside.managerStop s).readEvents_eq

theorem follows_of_run {ok : Link → Action → Prop} {as : List Action} {req : Request}
    {stream : Bytes} (h : Run (step funcs) ok (started req stream) as t) :
    Follows funcs ⟨.head, .fresh, req, stream⟩ t := by
  have hstart : Follows funcs ⟨.head, .fresh, req, stream⟩ (started req stream) :=
    ⟨_, .refl _, rfl, fun _ => rfl⟩
  have hboth := h.invariant
    (I := fun l => l.WellFormed ∧ Follows funcs ⟨.head, .fresh, req, stream⟩ l)
    (fun _ _ _ _ hstep hI =>
      ⟨(step_effect hI.1 hstep).wellFormed hI.1, (step_effect hI.1 hstep).follows hI.2⟩)
    ⟨wellFormed_started req stream, hstart⟩
  exact hboth.2

/-! ## Runs in which nothing fails -/

end Link

def Call.isWriteResponse {τ : Type} : Call τ → Bool
  | .writeResponse _ _ => true
  | _ => false

/-- No operation fails, but that the peer may end its stream, and nobody but a callback stops the
connection. -/
def Link.Action.unfailing : Link.Action → Bool
  | .io (.readFailed _ ec) => ec = .eof
  | .io (.writeFailed _ _ _) => false
  | .stop => false
  | _ => true

/-- In addition, callbacks only call `write_response`. -/
def Link.Action.clean : Link.Action → Bool
  | .io (.readDone _ calls) => calls.all Call.isWriteResponse
  | a => a.unfailing

namespace Link

variable {funcs : CallbackTable} {s t : Link} {a : Action} {start : StreamReader}

theorem runCallback_abort {calls : List (Call Unit)} (h : calls.all Call.isWriteResponse = true)
    (l : Link) : (l.runCallback calls).conn.mAbort = l.conn.mAbort := by
  induction calls generalizing l with
  | nil => rfl
  | cons c calls ih =>
      obtain ⟨hc, hcalls⟩ := Bool.and_eq_true_iff.mp h
      have hkept : (l.call c).conn.mAbort = l.conn.mAbort := by
        cases c with
        | writeResponse _ body => rfl
        | stop _ => cases hc
        | stopAll => cases hc
      rw [← hkept]
      exact ih hcalls (l.call c)

def WritesInvoked (l : Link) : Prop := l.conn.mSocket.writes ≠ [] → invocations l.conn.log ≠ []

theorem Aside.invocations_eq (h : Aside s t) :
    invocations t.conn.log = invocations s.conn.log := by
  rw [← invocations_readEvents, h.readEvents_eq, invocations_readEvents]

theorem invocations_ne_nil_append {log new : List Event} (h : invocations log ≠ []) :
    invocations (log ++ new) ≠ [] := by
  rw [invocations_append]
  exact List.append_ne_nil_of_left_ne_nil h _

theorem invocations_runCallback {k : Nat} {r : StreamReader} {before : List Event}
    {callback : Callback} {calls : List (Call Unit)}
    (ht : t = (s.readUpTo k r (before ++ [.requested r.req (some callback)]) []).runCallback calls) :
    invocations t.conn.log ≠ [] := by
  rw [ht, (Aside.runCallback calls _).invocations_eq]
  change invocations (s.conn.log ++ (before ++ [.requested r.req (some callback)])) ≠ []
  simp [invocations, Event.invocation]

theorem Effect.writesInvoked (he : Effect funcs s a t) (h : s.WritesInvoked) :
    t.WritesInvoked := by
  cases he with
  | receive => exact h
  | late => exact fun hw => invocations_ne_nil_append (h hw)
  | readFailed => exact fun hw => invocations_ne_nil_append (h hw)
  | refused => exact fun hw => invocations_ne_nil_append (invocations_ne_nil_append (h hw))
  | waits => exact fun hw => invocations_ne_nil_append (h hw)
  | invokes _ _ _ ht =>
      have hinvoked := invocations_runCallback ht
      split_ifs <;> exact fun _ => hinvoked
  | written hdata _ =>
      have hw : s.conn.mSocket.writes ≠ [] :=
        List.ne_nil_of_mem (List.mem_of_getElem? hdata)
      split_ifs
      · exact fun _ => invocations_ne_nil_append (invocations_ne_nil_append (h hw))
      · exact fun _ => invocations_ne_nil_append (h hw)
  | respond hinvoked =>
      exact fun _ => invocations_ne_nil_append (invocations_ne_nil_append hinvoked)
  | stop => exact fun hw => invocations_ne_nil_append (h hw)

theorem Action.unfailing_of_clean (h : a.clean = true) : a.unfailing = true := by
  unfold Action.clean at h
  split at h
  · rfl
  · exact h

/-- Where the connection was stopped, its stream has no more to give; or a callback was invoked,
where callbacks may stop it (`byCallback`). -/
def Halts (byCallback : Prop) (funcs : CallbackTable) (start : StreamReader) (l : Link) : Prop :=
  l.conn.mAbort = true →
    ∃ r, Emits (StreamReader.next funcs) start (readEvents l.conn.log) r ∧
      (r.next funcs = none ∨ byCallback ∧ invocations l.conn.log ≠ [])

theorem next_reader_of_starved (h : s.WellFormed) {op : ReadOp}
    (hreads : s.conn.mSocket.reads = [op]) (hready : op.ready s.conn.mRecvBuffer = none)
    (hunread : s.conn.mSocket.unread = []) : s.conn.reader.next funcs = none := by
  have hinput : s.conn.reader.input = s.conn.mRecvBuffer := by
    rw [reader_input, hunread, List.append_nil]
  rcases h.reads_shape with hnil | huntil | ⟨wanted, left, hexactly, -, -, hlength⟩
  · rw [hnil] at hreads
    cases hreads
  · have hphase : s.conn.reader.phase = .head := by
      unfold HttpConnction.reader
      rw [huntil]
    rw [huntil] at hreads
    obtain rfl := (List.cons_eq_cons.mp hreads).1
    unfold StreamReader.next StreamReader.nextHead
    rw [hphase, hinput, Option.map_eq_none_iff.mp hready]
    rfl
  · have hphase : s.conn.reader.phase = .body := by
      unfold HttpConnction.reader
      rw [hexactly]
    rw [hexactly] at hreads
    obtain rfl := (List.cons_eq_cons.mp hreads).1
    unfold ReadOp.ready at hready
    by_cases hleft : left = 0
    · simp [hleft] at hready
    · unfold StreamReader.next StreamReader.nextBody
      rw [hphase, hinput]
      exact if_neg (show ¬ s.conn.mRequest.contentLength.toNat ≤ _ by omega)

variable {byCallback : Prop}

theorem Halts.aside (h : Halts byCallback funcs start s) (haside : Aside s t)
    (habort : t.conn.mAbort = s.conn.mAbort) : Halts byCallback funcs start t := by
  intro ht
  rw [haside.readEvents_eq, haside.invocations_eq]
  exact h (habort ▸ ht)

theorem halts_of_running (h : s.conn.mAbort = false) : Halts byCallback funcs start s := by
  intro habort
  rw [h] at habort
  cases habort

/-- The completion of a write ends a connection whose reader has nothing left to do: the write was
started by a callback, so a request without keep-alive was the last one. -/
theorem Halts.of_written (h : Halts byCallback funcs start s) (hstart : start.phase = .head)
    (hw : s.WritesInvoked) (hf : Follows funcs start s) (hwrites : s.conn.mSocket.writes ≠ [])
    (hend : s.conn.mAbort = true ∨ s.conn.mRequest.keepAlive = false) :
    ∃ r, Emits (StreamReader.next funcs) start (readEvents s.conn.log) r ∧
      (r.next funcs = none ∨ byCallback ∧ invocations s.conn.log ≠ []) := by
  cases habort : s.conn.mAbort with
  | true => exact h habort
  | false =>
      obtain ⟨r, hemits, -, hreader⟩ := hf
      obtain rfl := hreader habort
      refine ⟨_, hemits, .inl (StreamReader.next_of_done ?_)⟩
      by_contra hphase
      have hinvoked : invocations (readEvents s.conn.log) ≠ [] := by
        rw [invocations_readEvents]
        exact hw hwrites
      have hkeep : s.conn.mRequest.keepAlive = true :=
        (StreamReader.serving_of_emits hstart hemits hinvoked hphase).keepAlive_eq
      rcases hend with hend | hend
      · rw [habort] at hend
        cases hend
      · rw [hkeep] at hend
        cases hend

theorem Effect.halts (he : Effect funcs s a t) (hok : a.unfailing = true)
    (hcalls : ¬ byCallback → a.clean = true) (hstart : start.phase = .head)
    (hshape : s.WellFormed) (hw : s.WritesInvoked) (hf : Follows funcs start s)
    (h : Halts byCallback funcs start s) : Halts byCallback funcs start t := by
  cases he with
  | receive _ habort => exact halts_of_running habort
  | late _ habort =>
      intro _
      have haside := Aside.managerStop { s with conn := s.conn.popRead 0 }
      rw [haside.readEvents_eq, haside.invocations_eq]
      exact h habort
  | readFailed hreads hfail =>
      intro _
      obtain ⟨r, hemits, -, hreader⟩ := hf
      refine ⟨r, ?_, .inl ?_⟩
      · rwa [(Aside.managerStop { s with conn := s.conn.popRead 0 }).readEvents_eq]
      · have heof : _ = ErrorCode.eof := of_decide_eq_true hok
        subst heof
        simp only [HttpConnction.canFail, Bool.and_eq_true, decide_eq_true_eq] at hfail
        obtain ⟨⟨hopen, hunread⟩, hready⟩ := hfail
        have habort := hshape.running_of_isOpen hopen
        rw [← hreader habort]
        exact next_reader_of_starved hshape hreads hready hunread
  | @refused i calls k out r hr hphase _ =>
      intro _
      rw [(Aside.managerStop (s.readUpTo k r out [])).readEvents_eq]
      exact ⟨r, hf.readUpTo hr [], .inl (StreamReader.next_of_done hphase)⟩
  | waits hr => exact halts_of_running hr.abort_eq
  | @invokes i calls k before callback r t hr hphase hnone ht =>
      by_cases hby : byCallback
      · intro _
        obtain ⟨r', hemits, -, -⟩ := (Effect.invokes (i := i) hr hphase hnone ht).follows hf
        refine ⟨r', hemits, .inr ⟨hby, ?_⟩⟩
        have hinvoked := invocations_runCallback ht
        split_ifs <;> exact hinvoked
      · have habort : t.conn.mAbort = false := by
          rw [ht, runCallback_abort (hcalls hby)]
          exact hr.abort_eq
        split_ifs <;> exact halts_of_running habort
  | @written i n ec data a hdata ha =>
      have hec : ec.failed = false := by
        rcases ha with ⟨rfl, rfl, -⟩ | ⟨rfl, -, -⟩
        · rfl
        · cases hok
      have hpopped := Aside.popWrite s i n ec
      by_cases hstop : (ec.failed || s.conn.mAbort || !s.conn.mRequest.keepAlive) = true
      · rw [if_pos hstop]
        intro _
        have haside := hpopped.trans (Aside.managerStop _)
        rw [haside.readEvents_eq, haside.invocations_eq]
        have hwrites : s.conn.mSocket.writes ≠ [] :=
          List.ne_nil_of_mem (List.mem_of_getElem? hdata)
        exact h.of_written hstart hw hf hwrites (by simpa [hec] using hstop)
      · rw [if_neg hstop]
        exact h.aside hpopped rfl
  | respond => exact h.aside (Aside.writeResponse s _) rfl
  | stop => cases hok

/-- No read gets further bytes, and no read handler is left to run. -/
def Complete (funcs : CallbackTable) (l : Link) : Prop :=
  (∀ i n, step funcs l (.io (.receive i n)) = none) ∧
    ∀ i calls, step funcs l (.io (.readDone i calls)) = none

theorem next_reader_of_complete (h : s.WellFormed) (hcomplete : s.Complete funcs)
    (habort : s.conn.mAbort = false) : s.conn.reader.next funcs = none := by
  have hsingle {op : ReadOp} (hreads : s.conn.mSocket.reads = [op]) :
      s.conn.reader.next funcs = none := by
    have hop : s.conn.mSocket.reads[0]? = some op := by
      rw [hreads]
      rfl
    cases hready : op.ready s.conn.mRecvBuffer with
    | some length =>
        have hdone := hcomplete.2 0 []
        rw [show step funcs s (.io (.readDone 0 [])) = _ from ioStep_readDone hop hready] at hdone
        cases hdone
    | none =>
        by_cases hunread : s.conn.mSocket.unread = []
        · exact next_reader_of_starved h hreads hready hunread
        · have hreceive : s.conn.receive 0 1 ≠ none := by
            unfold HttpConnction.receive
            rw [hop]
            have hopen : s.conn.mSocket.isOpen = true := by
              rw [h.isOpen_eq, habort]
              rfl
            have hone : 1 ≤ s.conn.mSocket.unread.length :=
              List.length_pos_of_ne_nil hunread
            simp [hopen, hready, hone, ReadOp.accepts_one hready]
          exact absurd (Option.map_eq_none_iff.mp (hcomplete.1 0 1)) hreceive
  rcases h.reads_shape with hnil | huntil | ⟨wanted, left, hexactly, -⟩
  · apply StreamReader.next_of_done
    unfold HttpConnction.reader
    rw [hnil]
  · exact hsingle huntil
  · exact hsingle hexactly

section UnfailingRuns

variable {ok : Link → Action → Prop} {as : List Action} {req : Request} {stream : Bytes}

theorem halts_of_run
    (hok : ∀ s a, ok s a → a.unfailing = true ∧ (¬ byCallback → a.clean = true))
    (h : Run (step funcs) ok (started req stream) as t) :
    Halts byCallback funcs ⟨.head, .fresh, req, stream⟩ t := by
  have hboth := h.invariant
    (I := fun l => l.WellFormed ∧ l.WritesInvoked ∧
      Follows funcs ⟨.head, .fresh, req, stream⟩ l ∧
      Halts byCallback funcs ⟨.head, .fresh, req, stream⟩ l)
    (fun s a t hs hstep hI => by
      obtain ⟨hshape, hw, hf, hh⟩ := hI
      have he := step_effect hshape hstep
      exact ⟨he.wellFormed hshape, he.writesInvoked hw, he.follows hf,
        he.halts (hok s a hs).1 (hok s a hs).2 rfl hshape hw hf hh⟩)
    ⟨wellFormed_started req stream, fun hw => absurd rfl hw,
      ⟨_, .refl _, rfl, fun _ => rfl⟩, halts_of_running rfl⟩
  exact hboth.2.2.2

/-- A complete run in which nothing fails has made of the stream all that the reader makes of it,
unless a callback stopped the connection. -/
theorem halted_of_complete (byCallback : Prop)
    (hok : ∀ s a, ok s a → a.unfailing = true ∧ (¬ byCallback → a.clean = true))
    (h : Run (step funcs) ok (started req stream) as t) (hcomplete : t.Complete funcs) :
    ∃ r, Emits (StreamReader.next funcs) ⟨.head, .fresh, req, stream⟩ (readEvents t.conn.log) r ∧
      (r.next funcs = none ∨ byCallback ∧ invocations t.conn.log ≠ []) := by
  cases habort : t.conn.mAbort with
  | true => exact halts_of_run hok h habort
  | false =>
      obtain ⟨r, hemits, -, hreader⟩ := follows_of_run h
      obtain rfl := hreader habort
      exact ⟨_, hemits, .inl (next_reader_of_complete (wellFormed_of_run h) hcomplete habort)⟩

end UnfailingRuns

end Link

end BtcServer.HttpmessageServer
