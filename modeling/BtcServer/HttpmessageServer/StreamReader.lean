import BtcServer.HttpmessageServer.HeaderBlock
import BtcServer.HttpmessageServer.HttpConnection
import BtcServer.Lib.Emits

/-!
# Reading a stream in order

What a connection does to the stream of its peer, without buffers, operations and completions: a
reader that has the whole stream before it and takes it apart block by block and body by body.
`next` is a function, so the reader has one behaviour for every stream; that a connection follows it
in every order of completions is proved in `Link.lean`.

`Framed` says how the events account for the bytes of the stream.
-/

namespace BtcServer.HttpmessageServer

open Boost Lib

/-- What the reader is waiting for. -/
inductive Phase
  | head
  | body
  | done
  deriving DecidableEq, Repr

@[ext] structure StreamReader where
  phase : Phase
  parser : RequestParser
  req : Request
  input : Bytes
  deriving DecidableEq, Repr

namespace StreamReader

/-- Hand the request on.  The reader goes on when a callback is found and the request asks for
it. -/
def dispatch (funcs : CallbackTable) (r : StreamReader) : List Event × StreamReader :=
  ([.requested r.req (funcs.lookup r.req.uri)],
    { r with phase :=
        if (funcs.lookup r.req.uri).isSome ∧ r.req.keepAlive = true then .head else .done })

def nextHead (funcs : CallbackTable) (r : StreamReader) : Option (List Event × StreamReader) :=
  (splitAfter crlfCrlf r.input).map fun cut =>
    let p := r.parser.parse r.req (cut.1 ++ [0])
    let e := Event.parsed cut.1 p.result (cut.1.length + 1 - p.begin_.length)
    if p.result = .falseValue then ([e], ⟨.done, p.parser, p.req, cut.2⟩)
    else
      let r : StreamReader := ⟨.head, p.parser, p.req.normalise, cut.2⟩
      if r.req.method = str "post" then
        ([e], { r with phase := if r.req.BodyAdmitted then .body else .done })
      else (e :: (r.dispatch funcs).1, (r.dispatch funcs).2)

def withBody (r : StreamReader) : StreamReader :=
  { r with
    req := { r.req with body := r.input.take r.req.contentLength.toNat }
    input := r.input.drop r.req.contentLength.toNat }

def nextBody (funcs : CallbackTable) (r : StreamReader) : Option (List Event × StreamReader) :=
  if r.req.contentLength.toNat ≤ r.input.length then
    some (.gotBody r.withBody.req.body :: (r.withBody.dispatch funcs).1,
      (r.withBody.dispatch funcs).2)
  else none

def next (funcs : CallbackTable) (r : StreamReader) : Option (List Event × StreamReader) :=
  match r.phase with
  | .head => r.nextHead funcs
  | .body => r.nextBody funcs
  | .done => none

/-- The request behind an accepted block. -/
def acceptedReq (r : StreamReader) (block : Bytes) : Request :=
  (r.parser.parse r.req (block ++ [0])).req.normalise

/-- The reader behind an accepted block, waiting for `phase`. -/
def accepted (r : StreamReader) (phase : Phase) (block rest : Bytes) : StreamReader :=
  ⟨phase, ⟨.expectingNewline3⟩, r.acceptedReq block, rest⟩

variable {funcs : CallbackTable} {r r' : StreamReader} {out : List Event}

theorem parse_block_true {s block rest : Bytes} {p : RequestParser} {req : Request}
    (hcut : splitAfter crlfCrlf s = some (block, rest))
    (h : (p.parse req (block ++ [0])).result ≠ .falseValue) :
    (p.parse req (block ++ [0])).result = .trueValue := by
  have hdecided := RequestParser.parse_decided (splitAfter_suffix hcut) p req
  rw [RequestParser.parse_block_nul (splitAfter_suffix hcut)] at h ⊢
  cases hresult : (p.parse req block).result with
  | falseValue => exact absurd hresult h
  | trueValue => rfl
  | indeterminateValue => exact absurd hresult hdecided

/-- The ways in which the reader takes something from its stream. -/
theorem next_rule {Q : List Event → StreamReader → Prop} (h : r.next funcs = some (out, r'))
    (hrefused : ∀ block rest p, r.phase = .head → splitAfter crlfCrlf r.input = some (block, rest) →
      r.parser.parse r.req (block ++ [0]) = p → p.result = .falseValue →
      Q [.parsed block .falseValue (block.length + 1 - p.begin_.length)]
        ⟨.done, p.parser, p.req, rest⟩)
    (hpost : ∀ block rest p phase, r.phase = .head →
      splitAfter crlfCrlf r.input = some (block, rest) →
      r.parser.parse r.req (block ++ [0]) = p → p.result = .trueValue →
      (r.acceptedReq block).method = str "post" →
      (phase = if (r.acceptedReq block).BodyAdmitted then .body else .done) →
      Q [.parsed block .trueValue (block.length + 1 - p.begin_.length)]
        (r.accepted phase block rest))
    (hother : ∀ block rest p, r.phase = .head → splitAfter crlfCrlf r.input = some (block, rest) →
      r.parser.parse r.req (block ++ [0]) = p → p.result = .trueValue →
      (r.acceptedReq block).method ≠ str "post" →
      Q (.parsed block .trueValue (block.length + 1 - p.begin_.length) ::
          ((r.accepted .head block rest).dispatch funcs).1)
        ((r.accepted .head block rest).dispatch funcs).2)
    (hbody : r.phase = .body → r.req.contentLength.toNat ≤ r.input.length →
      Q (.gotBody r.withBody.req.body :: (r.withBody.dispatch funcs).1)
        (r.withBody.dispatch funcs).2) :
    Q out r' := by
  unfold next at h
  cases hphase : r.phase with
  | head =>
      rw [hphase] at h
      obtain ⟨⟨block, rest⟩, hcut, heq⟩ := Option.map_eq_some_iff.mp h
      rcases hp : r.parser.parse r.req (block ++ [0]) with ⟨result, begin_, p, req⟩
      simp only [hp] at heq
      by_cases hresult : result = .falseValue
      · subst hresult
        rw [if_pos rfl] at heq
        obtain ⟨rfl, rfl⟩ := Prod.mk.inj heq
        exact hrefused block rest _ hphase hcut hp rfl
      · have htrue : result = .trueValue := by
          have := parse_block_true hcut (by rwa [hp] : (r.parser.parse r.req _).result ≠ _)
          rwa [hp] at this
        subst htrue
        have hstate : p = ⟨.expectingNewline3⟩ := by
          have := RequestParser.parser_of_parse_true (p := r.parser) (by rw [hp])
          rwa [hp] at this
        subst hstate
        have hreq : r.acceptedReq block = req.normalise := by
          unfold acceptedReq
          rw [hp]
        rw [if_neg hresult] at heq
        by_cases hmethod : req.normalise.method = str "post"
        · rw [if_pos hmethod] at heq
          obtain ⟨rfl, rfl⟩ := Prod.mk.inj heq
          have := hpost block rest _ _ hphase hcut hp rfl (hreq ▸ hmethod) rfl
          rwa [accepted, hreq] at this
        · rw [if_neg hmethod] at heq
          obtain ⟨rfl, rfl⟩ := Prod.mk.inj heq
          have := hother block rest _ hphase hcut hp rfl (hreq ▸ hmethod)
          rwa [accepted, hreq] at this
  | body =>
      rw [hphase] at h
      unfold nextBody at h
      by_cases hlen : r.req.contentLength.toNat ≤ r.input.length
      · rw [if_pos hlen] at h
        obtain ⟨rfl, rfl⟩ := Prod.mk.inj (Option.some.inj h)
        exact hbody hphase hlen
      · rw [if_neg hlen] at h
        cases h
  | done => rw [hphase] at h; cases h

theorem next_of_done (h : r.phase = .done) : r.next funcs = none := by
  unfold next
  rw [h]

section Head

variable {block rest : Bytes} {p : RequestParser.Parsed}

theorem next_refused (funcs : CallbackTable) (hphase : r.phase = .head)
    (hcut : splitAfter crlfCrlf r.input = some (block, rest))
    (hp : r.parser.parse r.req (block ++ [0]) = p) (hresult : p.result = .falseValue) :
    r.next funcs = some ([.parsed block .falseValue (block.length + 1 - p.begin_.length)],
      ⟨.done, p.parser, p.req, rest⟩) := by
  unfold next nextHead
  rw [hphase, hcut]
  simp [hp, hresult]

theorem next_of_true (funcs : CallbackTable) (hphase : r.phase = .head)
    (hcut : splitAfter crlfCrlf r.input = some (block, rest))
    (hp : r.parser.parse r.req (block ++ [0]) = p) (hresult : p.result = .trueValue) :
    r.next funcs = some (if (r.acceptedReq block).method = str "post" then
        ([.parsed block .trueValue (block.length + 1 - p.begin_.length)],
          r.accepted (if (r.acceptedReq block).BodyAdmitted then .body else .done) block rest)
      else
        (.parsed block .trueValue (block.length + 1 - p.begin_.length) ::
            ((r.accepted .head block rest).dispatch funcs).1,
          ((r.accepted .head block rest).dispatch funcs).2)) := by
  have hparser := RequestParser.parser_of_parse_true (hp ▸ hresult)
  rw [hp] at hparser
  unfold next nextHead accepted acceptedReq
  rw [hp, hphase, hcut]
  simp [hp, hresult, hparser, -Request.normalise_method]

theorem next_post (funcs : CallbackTable) (hphase : r.phase = .head)
    (hcut : splitAfter crlfCrlf r.input = some (block, rest))
    (hp : r.parser.parse r.req (block ++ [0]) = p) (hresult : p.result = .trueValue)
    (hmethod : (r.acceptedReq block).method = str "post") :
    r.next funcs = some ([.parsed block .trueValue (block.length + 1 - p.begin_.length)],
      r.accepted (if (r.acceptedReq block).BodyAdmitted then .body else .done) block rest) := by
  rw [next_of_true funcs hphase hcut hp hresult, if_pos hmethod]

theorem next_other (funcs : CallbackTable) (hphase : r.phase = .head)
    (hcut : splitAfter crlfCrlf r.input = some (block, rest))
    (hp : r.parser.parse r.req (block ++ [0]) = p) (hresult : p.result = .trueValue)
    (hmethod : (r.acceptedReq block).method ≠ str "post") :
    r.next funcs = some (.parsed block .trueValue (block.length + 1 - p.begin_.length) ::
        ((r.accepted .head block rest).dispatch funcs).1,
      ((r.accepted .head block rest).dispatch funcs).2) := by
  rw [next_of_true funcs hphase hcut hp hresult, if_neg hmethod]

end Head

theorem next_body (funcs : CallbackTable) (hphase : r.phase = .body)
    (hlength : r.req.contentLength.toNat ≤ r.input.length) :
    r.next funcs = some (.gotBody r.withBody.req.body :: (r.withBody.dispatch funcs).1,
      (r.withBody.dispatch funcs).2) := by
  unfold next nextBody
  rw [hphase]
  exact if_pos hlength

end StreamReader

/-! ## Accounting for the bytes -/

/-- `Framed stream events rest`: the events take the stream apart from its start up to `rest`. -/
inductive Framed : Bytes → List Event → Bytes → Prop
  | nil (stream : Bytes) : Framed stream [] stream
  /-- A block that no request follows: it was refused, or the body is still to come. -/
  | block {stream block rest : Bytes} {result : Tribool} {consumed : Nat}
      (hcut : splitAfter crlfCrlf stream = some (block, rest)) :
      Framed stream [.parsed block result consumed] rest
  | request {stream block tail rest : Bytes} {consumed : Nat} {req : Request}
      {callback : Option Callback} {events : List Event}
      (hcut : splitAfter crlfCrlf stream = some (block, tail)) (hmethod : req.method ≠ str "post")
      (htail : Framed tail events rest) :
      Framed stream (.parsed block .trueValue consumed :: .requested req callback :: events) rest
  | requestWithBody {stream block tail rest : Bytes} {consumed : Nat} {req : Request}
      {callback : Option Callback} {events : List Event}
      (hcut : splitAfter crlfCrlf stream = some (block, req.body ++ tail))
      (hmethod : req.method = str "post") (hadmitted : req.BodyAdmitted)
      (hlength : req.body.length = req.contentLength.toNat) (htail : Framed tail events rest) :
      Framed stream
        (.parsed block .trueValue consumed :: .gotBody req.body :: .requested req callback :: events)
        rest

def Event.taken : Event → Bytes
  | .parsed block _ _ => block
  | .gotBody body => body
  | _ => []

def Event.block : Event → Option Bytes
  | .parsed block _ _ => some block
  | _ => none

def blocks (log : List Event) : List Bytes := log.filterMap Event.block

@[simp] theorem blocks_append (log new : List Event) :
    blocks (log ++ new) = blocks log ++ blocks new :=
  List.filterMap_append ..

def Event.request : Event → Option Request
  | .requested req _ => some req
  | _ => none

def requests (log : List Event) : List Request := log.filterMap Event.request

theorem requests_readEvents (log : List Event) : requests (readEvents log) = requests log := by
  unfold readEvents requests
  rw [List.filterMap_filter]
  apply List.filterMap_congr
  intro e _
  cases e <;> rfl

namespace Framed

variable {stream rest : Bytes} {events : List Event}

/-- Nothing is skipped, taken twice or reordered. -/
theorem stream_eq (h : Framed stream events rest) : stream = events.flatMap Event.taken ++ rest := by
  induction h with
  | nil => rfl
  | block hcut => simpa [Event.taken] using splitAfter_eq_append hcut
  | request hcut _ _ ih =>
      rw [splitAfter_eq_append hcut, ih]
      simp [Event.taken]
  | requestWithBody hcut _ _ _ _ ih =>
      rw [splitAfter_eq_append hcut, ih]
      simp [Event.taken]

theorem requests_length_le (h : Framed stream events rest) :
    4 * (requests events).length + rest.length ≤ stream.length := by
  have hblock {s b t : Bytes} (hcut : splitAfter crlfCrlf s = some (b, t)) :
      4 + t.length ≤ s.length := by
    have hlen := congrArg List.length (splitAfter_eq_append hcut)
    have hfour : 4 ≤ b.length := splitAfter_length_le hcut
    rw [List.length_append] at hlen
    omega
  induction h with
  | nil => simp [requests]
  | block hcut =>
      have := hblock hcut
      show 4 * 0 + _ ≤ _
      omega
  | request hcut _ _ ih =>
      have := hblock hcut
      simp only [requests, Event.request, List.filterMap_cons, List.length_cons] at ih ⊢
      omega
  | requestWithBody hcut _ _ _ _ ih =>
      have := hblock hcut
      simp only [requests, Event.request, List.filterMap_cons, List.length_cons,
        List.length_append] at ih this ⊢
      omega

end Framed

namespace StreamReader

variable {funcs : CallbackTable} {r r' : StreamReader} {out : List Event}

theorem isRead_of_emits (h : Emits (next funcs) r out r') : out.all Event.isRead = true := by
  induction h with
  | refl => rfl
  | step hnext _ ih =>
      rw [List.all_append, ih, Bool.and_true]
      apply next_rule hnext <;> intros <;> rfl

/-- `Framed` from the middle of a request on. -/
def FramedFrom (r : StreamReader) (events : List Event) (rest : Bytes) : Prop :=
  match r.phase with
  | .head => Framed r.input events rest
  | .body => (events = [] ∧ rest = r.input) ∨ ∃ callback tail,
      r.req.contentLength.toNat ≤ r.input.length ∧
      events = .gotBody r.withBody.req.body :: .requested r.withBody.req callback :: tail ∧
      Framed r.withBody.input tail rest
  | .done => events = [] ∧ rest = r.input

theorem framedFrom_refl (r : StreamReader) : r.FramedFrom [] r.input := by
  unfold FramedFrom
  cases r.phase with
  | head => exact .nil _
  | body => exact .inl ⟨rfl, rfl⟩
  | done => exact ⟨rfl, rfl⟩

theorem framed_of_dispatch {events : List Event} {rest : Bytes}
    (h : (r.dispatch funcs).2.FramedFrom events rest) : Framed r.input events rest := by
  unfold dispatch FramedFrom at h
  dsimp only at h
  split at h
  case h_1 => exact h
  case h_2 hphase => split_ifs at hphase
  case h_3 =>
    obtain ⟨rfl, rfl⟩ := h
    exact .nil _

theorem framedFrom_next {events : List Event} {rest : Bytes} (hnext : r.next funcs = some (out, r'))
    (h : r'.FramedFrom events rest) : r.FramedFrom (out ++ events) rest := by
  revert h
  apply next_rule hnext
  · intro block tail p hphase hcut _ _ h
    unfold FramedFrom
    rw [hphase]
    obtain ⟨rfl, rfl⟩ := h
    exact .block hcut
  · intro block tail p phase hphase hcut _ _ hmethod hbody h
    unfold FramedFrom
    rw [hphase]
    by_cases hadmitted : (r.acceptedReq block).BodyAdmitted
    · rw [if_pos hadmitted] at hbody
      subst hbody
      rcases h with ⟨rfl, rfl⟩ | ⟨callback, events', hlen, rfl, htail⟩
      · exact .block hcut
      · have hcut' : splitAfter crlfCrlf r.input =
            some (block, (r.accepted .body block tail).withBody.req.body ++
              (r.accepted .body block tail).withBody.input) := by
          rw [hcut]
          exact congrArg (fun t => some (block, t)) (List.take_append_drop _ tail).symm
        have hlength : (r.accepted .body block tail).withBody.req.body.length =
            (r.accepted .body block tail).withBody.req.contentLength.toNat :=
          List.length_take_of_le hlen
        exact .requestWithBody hcut' hmethod hadmitted hlength htail
    · rw [if_neg hadmitted] at hbody
      subst hbody
      obtain ⟨rfl, rfl⟩ := h
      exact .block hcut
  · intro block tail p hphase hcut _ _ hmethod h
    unfold FramedFrom
    rw [hphase]
    exact .request hcut hmethod (framed_of_dispatch h)
  · intro hphase hlen h
    unfold FramedFrom
    rw [hphase]
    exact .inr ⟨_, events, hlen, rfl, framed_of_dispatch h⟩

/-- The reader accounts for every byte it takes. -/
theorem framedFrom_of_emits (h : Emits (next funcs) r out r') : r.FramedFrom out r'.input := by
  induction h with
  | refl r => exact framedFrom_refl r
  | step hnext _ ih => exact framedFrom_next hnext ih

/-! ## Behind the first block

The parser is never reset, so behind an accepted block it stays where it accepted, and no later
block changes the request. -/

/-- The reader behind an accepted block. -/
structure Resting (r : StreamReader) : Prop where
  parser_eq : r.parser = ⟨.expectingNewline3⟩
  normalise_eq : r.req.normalise = r.req
  admitted : r.req.method = str "post" → r.req.BodyAdmitted

/-- The reader behind a dispatch after which it goes on. -/
structure Serving (funcs : CallbackTable) (r : StreamReader) : Prop extends Resting r where
  keepAlive_eq : r.req.keepAlive = true
  known : (funcs.lookup r.req.uri).isSome

theorem Resting.acceptedReq (h : r.Resting) (block : Bytes) : r.acceptedReq block = r.req := by
  unfold StreamReader.acceptedReq
  rw [h.parser_eq, RequestParser.parse_expectingNewline3_req]
  exact h.normalise_eq

theorem Resting.withBody (h : r.Resting) : r.withBody.Resting where
  parser_eq := h.parser_eq
  normalise_eq := by
    unfold StreamReader.withBody
    rw [Request.normalise_withBody, h.normalise_eq]
  admitted := h.admitted

theorem Serving.withBody (h : r.Serving funcs) : r.withBody.Serving funcs where
  toResting := h.toResting.withBody
  keepAlive_eq := h.keepAlive_eq
  known := h.known

theorem resting_accepted {phase : Phase} {block rest : Bytes}
    (h : (r.acceptedReq block).method = str "post" → (r.acceptedReq block).BodyAdmitted) :
    (r.accepted phase block rest).Resting where
  parser_eq := rfl
  normalise_eq := Request.normalise_normalise _
  admitted := h

theorem Serving.accepted (h : r.Serving funcs) (phase : Phase) (block rest : Bytes) :
    (r.accepted phase block rest).Serving funcs := by
  have hreq := h.acceptedReq block
  refine ⟨resting_accepted (hreq ▸ h.admitted), ?_, ?_⟩
  · change (r.acceptedReq block).keepAlive = true
    rw [hreq]
    exact h.keepAlive_eq
  · change (funcs.lookup (r.acceptedReq block).uri).isSome
    rw [hreq]
    exact h.known

theorem dispatch_phase (h : (r.dispatch funcs).2.phase ≠ .done) :
    (r.dispatch funcs).2 = { r with phase := .head } ∧ (funcs.lookup r.req.uri).isSome ∧
      r.req.keepAlive = true := by
  unfold dispatch at h ⊢
  by_cases hgoes : (funcs.lookup r.req.uri).isSome ∧ r.req.keepAlive = true
  · simp only [if_pos hgoes, true_and]
    exact hgoes
  · simp [if_neg hgoes] at h

theorem Serving.dispatch (h : r.Serving funcs) :
    (r.dispatch funcs).2 = { r with phase := .head } := by
  unfold StreamReader.dispatch
  rw [if_pos ⟨h.known, h.keepAlive_eq⟩]

/-- Where a reader can be after the events `pre`, when it began in `start`. -/
def Stage (funcs : CallbackTable) (start : StreamReader) (pre : List Event) (r : StreamReader) :
    Prop :=
  match r.phase with
  | .head => (pre = [] ∧ r = start) ∨ r.Serving funcs
  | .body => r.Resting ∧ r.req.method = str "post" ∧ (invocations pre ≠ [] → r.Serving funcs)
  | .done => True

theorem stage_of_dispatch {start : StreamReader} {pre : List Event} (h : r.Resting) :
    Stage funcs start pre (r.dispatch funcs).2 := by
  by_cases hdone : (r.dispatch funcs).2.phase = .done
  · unfold Stage
    rw [hdone]
    trivial
  · obtain ⟨heq, hknown, hkeep⟩ := dispatch_phase hdone
    rw [heq]
    exact .inr ⟨⟨h.parser_eq, h.normalise_eq, h.admitted⟩, hkeep, hknown⟩

theorem stage_next {start : StreamReader} {pre : List Event} (h : Stage funcs start pre r)
    (hnext : r.next funcs = some (out, r')) : Stage funcs start (pre ++ out) r' := by
  revert h
  apply next_rule hnext
  · intros
    trivial
  · intro block rest p phase hphase _ _ _ hmethod hbody h
    by_cases hadmitted : (r.acceptedReq block).BodyAdmitted
    · rw [if_pos hadmitted] at hbody
      subst hbody
      refine ⟨resting_accepted fun _ => hadmitted, hmethod, ?_⟩
      intro hinvoked
      unfold Stage at h
      rw [hphase] at h
      rcases h with ⟨rfl, -⟩ | hserving
      · exact absurd rfl hinvoked
      · exact hserving.accepted _ _ _
    · rw [if_neg hadmitted] at hbody
      subst hbody
      trivial
  · intro block rest p _ _ _ _ hmethod _
    exact stage_of_dispatch (resting_accepted fun hpost => absurd hpost hmethod)
  · intro hphase _ h
    unfold Stage at h
    rw [hphase] at h
    exact stage_of_dispatch h.1.withBody

theorem stage_of_emits {start : StreamReader} (hstart : start.phase = .head)
    (h : Emits (next funcs) start out r) : Stage funcs start out r := by
  have hinit : Stage funcs start [] start := by
    unfold Stage
    rw [hstart]
    exact .inl ⟨rfl, rfl⟩
  exact h.invariant [] (fun _ _ _ _ => stage_next) hinit

theorem serving_of_emits {start : StreamReader} (hstart : start.phase = .head)
    (h : Emits (next funcs) start out r) (hinvoked : invocations out ≠ [])
    (hphase : r.phase ≠ .done) : r.Serving funcs := by
  have hstage := stage_of_emits hstart h
  unfold Stage at hstage
  cases hcase : r.phase with
  | head =>
      rw [hcase] at hstage
      rcases hstage with ⟨rfl, -⟩ | hserving
      · exact absurd rfl hinvoked
      · exact hserving
  | body =>
      rw [hcase] at hstage
      exact hstage.2.2 hinvoked
  | done => exact absurd hcase hphase

theorem Serving.refused_of_next (h : r.Serving funcs) (hnext : r.next funcs = some (out, r')) :
    r'.Serving funcs ∧ r'.phase ≠ .done ∨
      r'.phase = .done ∧ ∃ block consumed, out = [.parsed block .falseValue consumed] := by
  apply next_rule hnext
  · intro block rest p _ _ _ _
    exact .inr ⟨rfl, block, _, rfl⟩
  · intro block rest p phase _ _ _ _ hmethod hbody
    have hserving := h.accepted .body block rest
    have hadmitted : (r.acceptedReq block).BodyAdmitted := hserving.admitted hmethod
    rw [if_pos hadmitted] at hbody
    subst hbody
    exact .inl ⟨hserving, by simp [StreamReader.accepted]⟩
  · intro block rest p _ _ _ _ _
    have hserving := h.accepted .head block rest
    rw [hserving.dispatch]
    exact .inl ⟨hserving, by simp⟩
  · intro _ _
    rw [h.withBody.dispatch]
    exact .inl ⟨⟨⟨h.withBody.parser_eq, h.withBody.normalise_eq, h.withBody.admitted⟩,
      h.withBody.keepAlive_eq, h.withBody.known⟩, by simp⟩

theorem Serving.refused_of_emits (h : r.Serving funcs) (hphase : r.phase ≠ .done)
    (hemits : Emits (next funcs) r out r') (hdone : r'.phase = .done) :
    ∃ before block consumed, out = before ++ [.parsed block .falseValue consumed] := by
  induction hemits with
  | refl => exact absurd hdone hphase
  | step hnext hrest ih =>
      rcases h.refused_of_next hnext with ⟨hserving, hphase'⟩ | ⟨hphase', block, consumed, rfl⟩
      · obtain ⟨before, block, consumed, rfl⟩ := ih hserving hphase' hdone
        exact ⟨_, block, consumed, (List.append_assoc _ _ _).symm⟩
      · obtain ⟨rfl, rfl⟩ := Emits.of_halted hrest (next_of_done hphase')
        exact ⟨[], block, consumed, rfl⟩

end StreamReader

end BtcServer.HttpmessageServer
