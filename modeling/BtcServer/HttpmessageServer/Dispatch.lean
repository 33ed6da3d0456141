import BtcServer.HttpmessageServer.Following

/-!
# What is dispatched

Which requests a connection hands to `handle_request`, for every stream and every order of
completions: they do not depend on how the stream is delivered, they account for its bytes, none of
them comes from an undecided parse, and as long as no later block begins with a line feed each of
them is the request of its own block.
-/

namespace BtcServer.HttpmessageServer

open Boost Lib Grammar

theorem requests_le {log log' : List Event} (h : readEvents log <+: readEvents log') :
    requests log <+: requests log' := by
  rw [← requests_readEvents log, ← requests_readEvents log']
  exact h.filterMap _

namespace Link

variable {funcs : CallbackTable} {ok : Link → Action → Prop} {as as₁ as₂ : List Action}
  {req : Request} {stream : Bytes} {l l₁ l₂ : Link}

/-! ## Delivery -/

theorem readEvents_comparable (h₁ : Run (step funcs) ok (started req stream) as₁ l₁)
    (h₂ : Run (step funcs) ok (started req stream) as₂ l₂) :
    readEvents l₁.conn.log <+: readEvents l₂.conn.log ∨
      readEvents l₂.conn.log <+: readEvents l₁.conn.log := by
  obtain ⟨r₁, hemits₁, -, -⟩ := follows_of_run h₁
  obtain ⟨r₂, hemits₂, -, -⟩ := follows_of_run h₂
  rcases hemits₁.linear hemits₂ with ⟨more, -, heq⟩ | ⟨more, -, heq⟩
  · exact .inl ⟨more, heq.symm⟩
  · exact .inr ⟨more, heq.symm⟩

theorem readEvents_prefix_of_complete
    (h₁ : Run (step funcs) ok (started req stream) as₁ l₁)
    (h₂ : Run (step funcs) (fun _ a => a.clean = true) (started req stream) as₂ l₂)
    (hcomplete : l₂.Complete funcs) : readEvents l₁.conn.log <+: readEvents l₂.conn.log := by
  obtain ⟨r₁, hemits₁, -, -⟩ := follows_of_run h₁
  obtain ⟨r₂, hemits₂, hhalted⟩ := halted_of_complete False
    (fun _ a ha => ⟨a.unfailing_of_clean ha, fun _ => ha⟩) h₂ hcomplete
  rcases hhalted with hhalted | ⟨hfalse, -⟩
  · exact hemits₁.prefix_of_halted hemits₂ hhalted
  · exact hfalse.elim

theorem framed_of_run (h : Run (step funcs) ok (started req stream) as l) :
    Framed stream (readEvents l.conn.log) (l.conn.mRecvBuffer ++ l.conn.mSocket.unread) := by
  obtain ⟨r, hemits, hinput, -⟩ := follows_of_run h
  rw [← hinput]
  exact StreamReader.framedFrom_of_emits hemits

/-- Two deliveries of one stream to connections with the same initial request: what is handed to
`handle_request` is the same as far as both have got, and the same altogether when both are
complete; and it takes the stream apart from its start, so no byte is lost or used twice. -/
theorem dispatch_independent_of_delivery
    (h₁ : Run (step funcs) (fun _ a => a.clean = true) (started req stream) as₁ l₁)
    (h₂ : Run (step funcs) (fun _ a => a.clean = true) (started req stream) as₂ l₂) :
    (requests l₁.conn.log <+: requests l₂.conn.log ∨
      requests l₂.conn.log <+: requests l₁.conn.log) ∧
    (l₂.Complete funcs → requests l₁.conn.log <+: requests l₂.conn.log) ∧
    (l₁.Complete funcs → l₂.Complete funcs →
      requests l₁.conn.log = requests l₂.conn.log ∧
        readEvents l₁.conn.log = readEvents l₂.conn.log) ∧
    Framed stream (readEvents l₁.conn.log) (l₁.conn.mRecvBuffer ++ l₁.conn.mSocket.unread) ∧
    stream = (readEvents l₁.conn.log).flatMap Event.taken ++
      (l₁.conn.mRecvBuffer ++ l₁.conn.mSocket.unread) ∧
    4 * (requests l₁.conn.log).length ≤ stream.length := by
  have hframed := framed_of_run h₁
  refine ⟨?_, ?_, ?_, hframed, hframed.stream_eq, ?_⟩
  · rcases readEvents_comparable h₁ h₂ with h | h
    · exact .inl (requests_le h)
    · exact .inr (requests_le h)
  · intro hcomplete
    exact requests_le (readEvents_prefix_of_complete h₁ h₂ hcomplete)
  · intro hcomplete₁ hcomplete₂
    have hle := readEvents_prefix_of_complete h₁ h₂ hcomplete₂
    have hge := readEvents_prefix_of_complete h₂ h₁ hcomplete₁
    have heq := hle.eq_of_length_le hge.length_le
    exact ⟨by rw [← requests_readEvents, heq, requests_readEvents], heq⟩
  · have hle := hframed.requests_length_le
    rw [requests_readEvents] at hle
    omega

theorem complete_of_reads_nil (h : l.conn.mSocket.reads = []) : l.Complete funcs := by
  constructor
  · intro i n
    have hreceive : l.conn.receive i n = none := by
      unfold HttpConnction.receive
      rw [h]
      rfl
    exact Option.map_eq_none_iff.mpr hreceive
  · intro i calls
    have hnone : l.conn.mSocket.reads[i]? = none := by
      rw [h]
      rfl
    exact ioStep_readDone_eq_none hnone

/-- For concrete runs: one callback, for the target "/". -/
def oneCallback : CallbackTable := [(str "/", 0)]

/-- For concrete runs: a connection whose request happened to hold zeros. -/
def blank (stream : Bytes) : Link := started (.uninitialised 0 0 0 false) stream

/-- For concrete runs: a request for "/" that asks to keep the connection. -/
def getKeepAlive : Bytes := str "GET / HTTP/1.1\r\nConnection: keep-alive\r\n\r\n"

/-- A request that comes at once and the same in two pieces. -/
theorem dispatch_independent_of_delivery_of_get :
    ∃ l₁ l₂, Run (step oneCallback) (fun _ a => a.clean = true)
        (blank (str "GET / HTTP/1.1\r\n\r\n"))
        [.io (.receive 0 18), .io (.readDone 0 [.writeResponse () (str "a")])] l₁ ∧
      Run (step oneCallback) (fun _ a => a.clean = true)
        (blank (str "GET / HTTP/1.1\r\n\r\n"))
        [.io (.receive 0 1), .io (.receive 0 17), .io (.readDone 0 [])] l₂ ∧
      requests l₁.conn.log = requests l₂.conn.log ∧ (requests l₁.conn.log).length = 1 := by
  have hrun₁ : ∃ l, Run (step oneCallback) (fun _ a => a.clean = true)
      (blank (str "GET / HTTP/1.1\r\n\r\n"))
      [.io (.receive 0 18), .io (.readDone 0 [.writeResponse () (str "a")])] l ∧
      l.conn.mSocket.reads = [] ∧ (requests l.conn.log).length = 1 :=
    exists_run_of_exec (by decide +kernel)
  have hrun₂ : ∃ l, Run (step oneCallback) (fun _ a => a.clean = true)
      (blank (str "GET / HTTP/1.1\r\n\r\n"))
      [.io (.receive 0 1), .io (.receive 0 17), .io (.readDone 0 [])] l ∧
      l.conn.mSocket.reads = [] :=
    exists_run_of_exec (by decide +kernel)
  obtain ⟨l₁, h₁, hreads₁, hlength⟩ := hrun₁
  obtain ⟨l₂, h₂, hreads₂⟩ := hrun₂
  have hcomplete₁ : l₁.Complete oneCallback := complete_of_reads_nil hreads₁
  have hcomplete₂ : l₂.Complete oneCallback := complete_of_reads_nil hreads₂
  have hsame := (dispatch_independent_of_delivery h₁ h₂).2.2.1 hcomplete₁ hcomplete₂
  exact ⟨l₁, l₂, h₁, h₂, hsame.1, hlength⟩

end Link

/-! ## Verdicts -/

def Event.verdict : Event → Option Tribool
  | .parsed _ result _ => some result
  | _ => none

def verdicts (log : List Event) : List Tribool := log.filterMap Event.verdict

/-- A parse decides, the guard behind it lets exactly the accepted blocks through, and the first
accepted block is read to its end and no further.  Bodies and requests follow an acceptance. -/
def Decided (pre : List Event) : Event → Prop
  | .parsed block result consumed =>
      result ≠ .indeterminateValue ∧
      ((result.not.or (Tribool.indeterminateValue.eq result)).toBool = false ↔
        result = .trueValue) ∧
      (blocks pre = [] → result = .trueValue → consumed = block.length)
  | .gotBody _ => (verdicts pre).getLast? = some .trueValue
  | .requested _ _ => (verdicts pre).getLast? = some .trueValue
  | _ => True

namespace StreamReader

variable {funcs : CallbackTable} {start r r' : StreamReader} {out : List Event}

/-- What the reader knows about the verdicts so far. -/
structure Verdicts (start : StreamReader) (pre : List Event) (r : StreamReader) : Prop where
  always : Always Decided pre
  start_of_nil : blocks pre = [] → r = start
  accepted_of_body : r.phase = .body → (verdicts pre).getLast? = some .trueValue

theorem decided_parsed_true {pre : List Event} {block : Bytes} {consumed : Nat}
    (h : blocks pre = [] → consumed = block.length) :
    Decided pre (.parsed block .trueValue consumed) :=
  ⟨by simp, by simp [Tribool.not_or_eq_indeterminate_toBool], fun hpre _ => h hpre⟩

theorem dispatch_phase_ne_body : (r.dispatch funcs).2.phase ≠ .body := by
  unfold dispatch
  dsimp only
  split_ifs <;> simp

theorem verdicts_next (hhead : start.phase = .head) (hreq : start.req.Empty)
    (hfresh : start.parser = .fresh) {pre : List Event} (h : Verdicts start pre r)
    (hnext : r.next funcs = some (out, r')) :
    Verdicts start (pre ++ out) r' := by
  have hconsumed {block rest : Bytes} {p : RequestParser.Parsed}
      (hcut : splitAfter crlfCrlf r.input = some (block, rest))
      (hp : r.parser.parse r.req (block ++ [0]) = p) (htrue : p.result = .trueValue) :
      blocks pre = [] → block.length + 1 - p.begin_.length = block.length := by
    intro hnil
    obtain rfl := h.start_of_nil hnil
    rw [hfresh] at hp
    obtain ⟨-, -, -, hbegin⟩ := RequestParser.exists_head_of_block hreq hcut (hp ▸ htrue)
    rw [hp] at hbegin
    rw [hbegin]
    rfl
  apply next_rule hnext
  · intro block rest p _ _ _ _
    refine ⟨always_snoc.mpr ⟨h.always, by simp, by simp [Tribool.not_or_eq_indeterminate_toBool],
      fun _ htrue => by cases htrue⟩, ?_, fun hbody => by cases hbody⟩
    simp [blocks, Event.block]
  · intro block rest p phase _ hcut hp htrue _ _
    refine ⟨always_snoc.mpr ⟨h.always, decided_parsed_true (hconsumed hcut hp htrue)⟩, ?_, ?_⟩
    · simp [blocks, Event.block]
    · simp [verdicts, Event.verdict]
  · intro block rest p _ hcut hp htrue _
    have hparsed := decided_parsed_true (hconsumed hcut hp htrue)
    refine ⟨?_, ?_, fun hbody => absurd hbody dispatch_phase_ne_body⟩
    · rw [List.append_cons]
      refine always_snoc.mpr ⟨always_snoc.mpr ⟨h.always, hparsed⟩, ?_⟩
      simp [Decided, verdicts, Event.verdict]
    · simp [blocks, Event.block]
  · intro hphase _
    have hlast := h.accepted_of_body hphase
    refine ⟨?_, ?_, fun hbody => absurd hbody dispatch_phase_ne_body⟩
    · rw [List.append_cons]
      refine always_snoc.mpr ⟨always_snoc.mpr ⟨h.always, hlast⟩, ?_⟩
      simpa [Decided, verdicts, Event.verdict] using hlast
    · intro hnil
      have hpre : blocks pre = [] := by
        rw [blocks_append] at hnil
        exact (List.append_eq_nil_iff.mp hnil).1
      rw [h.start_of_nil hpre, hhead] at hphase
      cases hphase

theorem verdicts_of_emits (hhead : start.phase = .head) (hreq : start.req.Empty)
    (hfresh : start.parser = .fresh) (h : Emits (next funcs) start out r) :
    Verdicts start out r := by
  have hinit : Verdicts start [] start := by
    refine ⟨always_nil, fun _ => rfl, ?_⟩
    intro hbody
    rw [hhead] at hbody
    cases hbody
  exact h.invariant [] (fun _ _ _ _ => verdicts_next hhead hreq hfresh) hinit

end StreamReader

namespace Link

variable {funcs : CallbackTable} {ok : Link → Action → Prop} {as : List Action} {stream : Bytes}
  {l : Link}

/-- In every run every parse of a header block decides, only accepted blocks get past the guard, and
the first one is consumed without the NUL behind it. -/
theorem parse_decided_of_run {major minor : Int} {contentLength : UInt64} {keepAlive : Bool}
    (h : Run (step funcs) ok
      (started (.uninitialised major minor contentLength keepAlive) stream) as l) :
    Always Decided (readEvents l.conn.log) := by
  obtain ⟨r, hemits, -, -⟩ := follows_of_run h
  exact (StreamReader.verdicts_of_emits rfl ⟨rfl, rfl, rfl⟩ rfl hemits).always

/-- A connection that gets a request and then a line of garbage. -/
theorem parse_decided_of_run_of_garbage :
    ∃ l, Run (step oneCallback) (fun _ _ => True)
        (blank (getKeepAlive ++ str "x\r\n\r\n"))
        [.io (.receive 0 47), .io (.readDone 0 []), .io (.readDone 0 [])] l ∧
      Always Decided (readEvents l.conn.log) ∧
      verdicts l.conn.log = [.trueValue, .falseValue] := by
  have hrun : ∃ l, Run (step oneCallback) (fun _ _ => True)
      (blank (getKeepAlive ++ str "x\r\n\r\n"))
      [.io (.receive 0 47), .io (.readDone 0 []), .io (.readDone 0 [])] l ∧
      verdicts l.conn.log = [.trueValue, .falseValue] :=
    exists_run_of_exec (by decide +kernel)
  obtain ⟨l, h, hverdicts⟩ := hrun
  exact ⟨l, h, parse_decided_of_run h, hverdicts⟩

end Link

/-! ## Sound dispatch -/

namespace Grammar

/-- The method, target, version and headers of a head, normalised, are those of a request. -/
def Head.Describes (hd : Head) (req : Request) : Prop :=
  req.method = toLowerCopy hd.method ∧ req.uri = toLowerCopy hd.target ∧
    req.httpVersionMajor = versionNumber hd.major ∧
    req.httpVersionMinor = versionNumber hd.minor ∧
    req.headers = hd.fields.map fun f => ⟨toLowerCopy f.toHeader.name, f.toHeader.value⟩

theorem Head.describes_normalise_fill (hd : Head) (req : Request) :
    hd.Describes (hd.fill req).normalise := by
  refine ⟨?_, ?_, ?_, ?_, ?_⟩
  · rw [Request.normalise_method, Head.fill]
  · rw [Request.normalise_uri, Head.fill]
  · rw [Request.normalise_httpVersionMajor, Head.fill_httpVersionMajor]
  · rw [Request.normalise_httpVersionMinor, Head.fill_httpVersionMinor]
  · rw [Request.normalise_headers, Head.fill]
    simp [Function.comp_def]

end Grammar

/-- A request is handed on right behind a block, and a body when it has one, and the block is as a
whole a head of the grammar that describes it. -/
def Caused (pre : List Event) : Event → Prop
  | .requested req _ => ∃ before hd consumed,
      (pre = before ++ [.parsed (Head.render hd) .trueValue consumed] ∨
        ∃ body, pre = before ++ [.parsed (Head.render hd) .trueValue consumed, .gotBody body]) ∧
      hd.Describes req
  | _ => True

/-- Behind the first block, none begins with a line feed. -/
def NoStrayNewline (log : List Event) : Prop :=
  ∀ block ∈ (blocks log).tail, block.head? ≠ some '\n'.toUInt8

theorem NoStrayNewline.of_append {log new : List Event} (h : NoStrayNewline (log ++ new)) :
    NoStrayNewline log := by
  intro block hblock
  apply h
  rw [blocks_append]
  cases hlog : blocks log with
  | nil => rw [hlog] at hblock; cases hblock
  | cons b bs =>
      rw [hlog] at hblock
      exact List.mem_append_left _ hblock

theorem NoStrayNewline.head_ne {log more : List Event} {block : Bytes} {result : Tribool}
    {consumed : Nat} (h : NoStrayNewline (log ++ .parsed block result consumed :: more))
    (hlater : blocks log ≠ []) : block.head? ≠ some '\n'.toUInt8 := by
  apply h
  rw [blocks_append, List.tail_append_of_ne_nil hlater]
  exact List.mem_append_right _ (by simp [blocks, Event.block])

namespace StreamReader

variable {funcs : CallbackTable} {start r r' : StreamReader} {out : List Event}

structure Sound (start : StreamReader) (pre : List Event) (r : StreamReader) : Prop where
  always : Always Caused pre
  start_of_nil : blocks pre = [] → r = start
  parser_eq : blocks pre ≠ [] → r.phase ≠ .done → r.parser = ⟨.expectingNewline3⟩
  described_of_body : r.phase = .body → ∃ before hd consumed,
    pre = before ++ [.parsed (Head.render hd) .trueValue consumed] ∧ hd.Describes r.req

theorem head_eq_newline_of_accepted {block rest : Bytes} {p : RequestParser.Parsed}
    (hcut : splitAfter crlfCrlf r.input = some (block, rest))
    (hparser : r.parser = ⟨.expectingNewline3⟩)
    (hp : r.parser.parse r.req (block ++ [0]) = p) (htrue : p.result = .trueValue) :
    block.head? = some '\n'.toUInt8 := by
  cases block with
  | nil =>
      have := splitAfter_length_le hcut
      simp [crlfCrlf, str] at this
  | cons a block =>
      rw [hparser, List.cons_append, RequestParser.parse_expectingNewline3] at hp
      rw [← hp] at htrue
      by_cases ha : a = '\n'.toUInt8
      · rw [ha]
        rfl
      · simp [ha, Tribool.ofBool] at htrue

theorem Sound.head_of_accepted {pre : List Event} (h : Sound start pre r)
    (hreq : start.req.Empty) (hfresh : start.parser = .fresh) {block rest : Bytes}
    {p : RequestParser.Parsed} (hphase : r.phase = .head)
    (hcut : splitAfter crlfCrlf r.input = some (block, rest))
    (hp : r.parser.parse r.req (block ++ [0]) = p) (htrue : p.result = .trueValue)
    (hstray : blocks pre ≠ [] → block.head? ≠ some '\n'.toUInt8) :
    ∃ hd : Head, block = hd.render ∧ hd.Describes (r.acceptedReq block) := by
  by_cases hfirst : blocks pre = []
  · obtain rfl := h.start_of_nil hfirst
    rw [hfresh] at hp
    obtain ⟨hd, hblock, hfill, -⟩ := RequestParser.exists_head_of_block hreq hcut (hp ▸ htrue)
    refine ⟨hd, hblock, ?_⟩
    unfold acceptedReq
    rw [hfresh, hfill]
    exact hd.describes_normalise_fill _
  · have hnewline := head_eq_newline_of_accepted hcut (h.parser_eq hfirst (by simp [hphase])) hp
      htrue
    exact absurd hnewline (hstray hfirst)

theorem sound_next (hreq : start.req.Empty)
    (hfresh : start.parser = .fresh) {pre : List Event}
    (h : NoStrayNewline pre → Sound start pre r) (hnext : r.next funcs = some (out, r')) :
    NoStrayNewline (pre ++ out) → Sound start (pre ++ out) r' := by
  apply next_rule hnext
  · intro block rest p _ _ _ _ hstray
    have hs := h hstray.of_append
    refine ⟨always_snoc.mpr ⟨hs.always, trivial⟩, ?_, fun _ hdone => absurd rfl hdone, nofun⟩
    simp [blocks, Event.block]
  · intro block rest p phase hphase hcut hp htrue _ hbody hstray
    have hs := h hstray.of_append
    obtain ⟨hd, rfl, hdescribes⟩ :=
      hs.head_of_accepted hreq hfresh hphase hcut hp htrue hstray.head_ne
    refine ⟨always_snoc.mpr ⟨hs.always, trivial⟩, ?_, fun _ _ => rfl,
      fun _ => ⟨pre, hd, _, rfl, hdescribes⟩⟩
    simp [blocks, Event.block]
  · intro block rest p hphase hcut hp htrue _ hstray
    have hs := h hstray.of_append
    obtain ⟨hd, rfl, hdescribes⟩ :=
      hs.head_of_accepted hreq hfresh hphase hcut hp htrue hstray.head_ne
    refine ⟨?_, ?_, fun _ _ => rfl, fun hbody => absurd hbody dispatch_phase_ne_body⟩
    · rw [List.append_cons]
      exact always_snoc.mpr ⟨always_snoc.mpr ⟨hs.always, trivial⟩,
        pre, hd, _, .inl rfl, hdescribes⟩
    · simp [blocks, Event.block]
  · intro hphase _ hstray
    have hs := h hstray.of_append
    obtain ⟨before, hd, consumed, rfl, hdescribes⟩ := hs.described_of_body hphase
    have hblocks : blocks (before ++ [.parsed hd.render .trueValue consumed]) ≠ [] := by
      simp [blocks, Event.block]
    refine ⟨?_, ?_, ?_, fun hbody => absurd hbody dispatch_phase_ne_body⟩
    · rw [List.append_cons]
      refine always_snoc.mpr ⟨always_snoc.mpr ⟨hs.always, trivial⟩,
        before, hd, consumed, .inr ⟨_, by rw [List.append_assoc]; rfl⟩, hdescribes⟩
    · intro hnil
      rw [blocks_append] at hnil
      exact absurd (List.append_eq_nil_iff.mp hnil).1 hblocks
    · intro _ _
      exact hs.parser_eq hblocks (by simp [hphase])

theorem sound_of_emits (hhead : start.phase = .head) (hreq : start.req.Empty)
    (hfresh : start.parser = .fresh) (h : Emits (next funcs) start out r)
    (hstray : NoStrayNewline out) : Sound start out r := by
  have hinit : Sound start [] start := by
    refine ⟨always_nil, fun _ => rfl, fun hne => absurd rfl hne, ?_⟩
    intro hbody
    rw [hhead] at hbody
    cases hbody
  exact h.invariant (I := fun pre r => NoStrayNewline pre → Sound start pre r) []
    (fun _ _ _ _ => sound_next hreq hfresh) (fun _ => hinit) hstray

end StreamReader

namespace Grammar

theorem Head.render_head_ne (hd : Head) : ∃ b w, hd.render = b :: w ∧ b ≠ '\n'.toUInt8 := by
  cases hmethod : hd.method with
  | nil => exact absurd hmethod hd.method_ne_nil
  | cons b method =>
      have htoken : Token b := hd.token_of_mem b (by simp [hmethod])
      refine ⟨b, _, by rw [Head.render, hmethod]; rfl, ?_⟩
      rintro rfl
      exact absurd htoken (by decide)

end Grammar

namespace Link

variable {funcs : CallbackTable} {as : List Action} {stream : Bytes} {s t l : Link} {a : Action}

/-- Unless it is the first, the handler of a header read of a connection that was not stopped does
not find a line feed at the front of the buffer. -/
def NoStrayStep (s : Link) (a : Action) : Prop :=
  a.isReadDone = true → s.conn.mAbort = false → s.conn.mSocket.reads = [.readUntil crlfCrlf] →
    blocks (readEvents s.conn.log) ≠ [] → s.conn.mRecvBuffer.head? ≠ some '\n'.toUInt8

instance (s : Link) (a : Action) : Decidable (NoStrayStep s a) :=
  inferInstanceAs (Decidable (_ → _ → _ → _ → _))

theorem Effect.noStrayNewline (he : Effect funcs s a t) (hok : NoStrayStep s a)
    (h : NoStrayNewline (readEvents s.conn.log)) : NoStrayNewline (readEvents t.conn.log) := by
  rcases he.readEvents_eq with heq | ⟨i, calls, k, out, r, ha, hr, heq⟩
  · rwa [heq]
  · rw [heq]
    unfold NoStrayNewline at h ⊢
    rw [blocks_append]
    rcases hr.tookBlock with hnone | ⟨block, rest, hone, hreads, hcut⟩
    · rwa [hnone, List.append_nil]
    · rw [hone]
      by_cases hfirst : blocks (readEvents s.conn.log) = []
      · rw [hfirst]
        simp
      · rw [List.tail_append_of_ne_nil hfirst]
        intro b hb
        rcases List.mem_append.mp hb with hold | hnew
        · exact h b hold
        · obtain rfl := List.mem_singleton.mp hnew
          have hhead := hok (by rw [ha]; rfl) hr.abort_eq hreads hfirst
          rw [splitAfter_eq_append hcut] at hhead
          have hlen : 4 ≤ b.length := splitAfter_length_le hcut
          cases b with
          | nil => simp at hlen
          | cons c b => exact hhead

/-- As long as no later header read finds a line feed first, every request handed to
`handle_request` is the request of the block read last, and nothing is handed on twice. -/
theorem dispatch_sound_of_noStrayStep {major minor : Int} {contentLength : UInt64}
    {keepAlive : Bool}
    (h : Run (step funcs) NoStrayStep
      (started (.uninitialised major minor contentLength keepAlive) stream) as l) :
    Always Caused (readEvents l.conn.log) := by
  have hboth := h.invariant
    (I := fun l => l.WellFormed ∧ NoStrayNewline (readEvents l.conn.log))
    (fun s a t hok hstep hI =>
      ⟨(step_effect hI.1 hstep).wellFormed hI.1,
        (step_effect hI.1 hstep).noStrayNewline hok hI.2⟩)
    ⟨wellFormed_started _ _, fun b hb => by cases hb⟩
  obtain ⟨r, hemits, -, -⟩ := follows_of_run h
  exact (StreamReader.sound_of_emits rfl ⟨rfl, rfl, rfl⟩ rfl hemits hboth.2).always

/-- A request and then a block that is refused. -/
theorem dispatch_sound_of_noStrayStep_of_garbage :
    ∃ l, Run (step oneCallback) NoStrayStep
        (blank (getKeepAlive ++ str "x\r\n\r\n"))
        [.io (.receive 0 47), .io (.readDone 0 []), .io (.readDone 0 [])] l ∧
      Always Caused (readEvents l.conn.log) ∧ (requests l.conn.log).length = 1 := by
  have hrun : ∃ l, Run (step oneCallback) NoStrayStep
      (blank (getKeepAlive ++ str "x\r\n\r\n"))
      [.io (.receive 0 47), .io (.readDone 0 []), .io (.readDone 0 [])] l ∧
      (requests l.conn.log).length = 1 :=
    exists_run_of_exec (by decide +kernel)
  obtain ⟨l, h, hlength⟩ := hrun
  exact ⟨l, h, dispatch_sound_of_noStrayStep h, hlength⟩

/-- The five bytes LF CRLF CRLF behind a request have it handed on a second time. -/
theorem replay_of_stray_newline :
    ∃ l, Run (step oneCallback) (fun _ _ => True)
        (blank (getKeepAlive ++ str "\n\r\n\r\n"))
        [.io (.receive 0 47), .io (.readDone 0 []), .io (.readDone 0 [])] l ∧
      ¬ Always Caused (readEvents l.conn.log) := by
  have hrun : ∃ l, Run (step oneCallback) (fun _ _ => True)
      (blank (getKeepAlive ++ str "\n\r\n\r\n"))
      [.io (.receive 0 47), .io (.readDone 0 []), .io (.readDone 0 [])] l ∧
      readEvents l.conn.log = (readEvents l.conn.log).take 2 ++
        [.parsed (str "\n\r\n\r\n") .trueValue 1] ++ [.requested l.conn.mRequest (some 0)] :=
    exists_run_of_exec (by decide +kernel)
  obtain ⟨l, h, hlog⟩ := hrun
  refine ⟨l, h, fun halways => ?_⟩
  obtain ⟨before, hd, consumed, hpre, -⟩ := halways _ _ [] hlog
  rcases hpre with hpre | ⟨body, hpre⟩
  · have hlast := congrArg List.getLast? hpre
    rw [List.getLast?_concat] at hlast
    obtain ⟨b, w, hrender, hne⟩ := hd.render_head_ne
    obtain ⟨heq, -⟩ : str "\n\r\n\r\n" = hd.render ∧ 1 = consumed := by simpa using hlast
    rw [hrender] at heq
    exact hne (List.cons_eq_cons.mp heq).1.symm
  · have hlast := congrArg List.getLast? hpre
    simp at hlast

end Link

end BtcServer.HttpmessageServer
