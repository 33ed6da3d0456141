import BtcServer.HttpmessageServer.Extraction
import BtcServer.HttpmessageServer.FirstRequest

/-!
# Decoding Content-Length

A callback sees a body as long as the numeral at the front of the value says, whatever stands behind
it.  A value without a numeral, or with one that does not fit into 64 bits, stops the connection.
-/

namespace BtcServer.HttpmessageServer

open Boost Lib Grammar

theorem hasNumber_of_admitted {value : Bytes} {prior : UInt64} (hinked : Inked value)
    (hlo : 1 ≤ (extractUInt64 value prior).toNat)
    (hhi : (extractUInt64 value prior).toNat < 66536) :
    HasNumber value (extractUInt64 value prior).toNat := by
  rcases isEmpty_or_nonempty (Numeral value) with hnone | ⟨⟨x⟩⟩
  · rw [extractUInt64_of_isEmpty hinked hnone] at hlo
    exact absurd hlo (by decide +kernel)
  · rw [x.extractUInt64_eq] at hhi ⊢
    by_cases hfits : x.Fits
    · rw [if_pos hfits, UInt64.toNat_ofNat', Nat.mod_eq_of_lt (x.number_lt hfits)]
      exact ⟨x, hfits, rfl⟩
    · rw [if_neg hfits] at hhi
      exact absurd hhi (by decide +kernel)

/-- The value is decimal digits between spaces and writes `n`. -/
def Plain (value : Bytes) (n : Nat) : Prop :=
  ∃ lead digits trail, value = lead ++ digits ++ trail ∧ (∀ b ∈ lead ++ trail, b = ' '.toUInt8) ∧
    digits ≠ [] ∧ (∀ b ∈ digits, isDecimalDigit b = true) ∧ decimalValue digits = n

theorem Plain.mem {value : Bytes} {n : Nat} (h : Plain value n) :
    ∀ b ∈ value, b = ' '.toUInt8 ∨ isDecimalDigit b = true := by
  obtain ⟨lead, digits, trail, rfl, hspace, -, hdigit, -⟩ := h
  intro b hb
  rcases List.mem_append.mp hb with hleft | htrail
  · rcases List.mem_append.mp hleft with hlead | hdigits
    · exact .inl (hspace b (List.mem_append_left _ hlead))
    · exact .inr (hdigit b hdigits)
  · exact .inl (hspace b (List.mem_append_right _ htrail))

namespace Link

variable {funcs : CallbackTable} {ok : Link → Action → Prop} {as : List Action} {s t : Link}
  {a : Action} {start : StreamReader} {req : Request} {stream : Bytes}

def UntouchedOrStopped (l : Link) : Prop := blocks l.conn.log = [] ∨ l.conn.mAbort = true

theorem Effect.untouchedOrStopped (he : Effect funcs s a t) (hstart : start.phase = .head)
    (hbad : ∀ first, start.First first → first.method = str "post" ∧ ¬ first.BodyAdmitted)
    (hf : Follows funcs start s) (h : s.UntouchedOrStopped) : t.UntouchedOrStopped := by
  have hkept {new : List Event} (hnew : blocks new = []) (habort : t.conn.mAbort = s.conn.mAbort)
      (hlog : t.conn.log = s.conn.log ++ new) : t.UntouchedOrStopped := by
    unfold UntouchedOrStopped
    rw [hlog, habort, blocks_append, hnew, List.append_nil]
    exact h
  cases he with
  | receive => exact hkept rfl rfl (List.append_nil _).symm
  | late => exact .inr rfl
  | readFailed => exact .inr rfl
  | refused => exact .inr rfl
  | waits hr hphase _ _ _ _ =>
      obtain ⟨first, hfirst, -, hadmitted, -⟩ :=
        StreamReader.first_of_body hstart (hf.readUpTo hr []) hphase
      exact absurd hadmitted (hbad first hfirst).2
  | @invokes i calls k before callback r t hr _ _ _ =>
      have hmem : .requested r.req (some callback) ∈ readEvents
          (s.readUpTo k r (before ++ [.requested r.req (some callback)]) []).conn.log :=
        List.mem_filter.mpr ⟨by simp [readUpTo], rfl⟩
      obtain ⟨first, hfirst, hhanded⟩ :=
        (StreamReader.oneRequest_of_emits hstart (hf.readUpTo hr [])).1 _ _ hmem
      obtain ⟨hpost, hrefused⟩ := hbad first hfirst
      exact absurd (hhanded.framed_of_post hpost).1 hrefused
  | @written i n ec data a _ _ =>
      by_cases hstop : (ec.failed || s.conn.mAbort || !s.conn.mRequest.keepAlive) = true
      · rw [if_pos hstop]
        exact .inr rfl
      · rw [if_neg hstop] at hkept ⊢
        have hnew : blocks [.written ec] = [] := rfl
        exact hkept hnew rfl rfl
  | @respond body _ =>
      have hlog : (s.conn.writeResponse body).log = s.conn.log ++
          [.responded s.conn.mRequest.httpVersionMajor s.conn.mRequest.httpVersionMinor body,
            .sent (s.conn.writeResponse body).mSendBuffer] := by
        simp [HttpConnction.writeResponse, HttpConnction.record]
      exact hkept rfl rfl hlog
  | stop => exact .inr rfl

theorem untouchedOrStopped_of_run
    (hbad : ∀ first, StreamReader.First ⟨.head, .fresh, req, stream⟩ first →
      first.method = str "post" ∧ ¬ first.BodyAdmitted)
    (h : Run (step funcs) ok (started req stream) as t) : t.UntouchedOrStopped := by
  have hboth := h.invariant
    (I := fun l => l.WellFormed ∧ Follows funcs ⟨.head, .fresh, req, stream⟩ l ∧
      l.UntouchedOrStopped)
    (fun s a t _ hstep hI => by
      obtain ⟨hshape, hf, hu⟩ := hI
      have he := step_effect hshape hstep
      exact ⟨he.wellFormed hshape, he.follows hf, he.untouchedOrStopped rfl hbad hf hu⟩)
    ⟨wellFormed_started req stream, ⟨_, .refl _, rfl, fun _ => rfl⟩, .inl rfl⟩
  exact hboth.2.2

theorem first_of_head {hd : Head} {length : Header} {major minor : Int} {contentLength : UInt64}
    {keepAlive : Bool} {tail : Bytes} {first : Request}
    (hpost : toLowerCopy hd.method = str "post")
    (hunique : hd.headers.filter (Header.BeginsWith (str "content-length") ·) = [length])
    (hinked : Inked length.value)
    (hfirst : StreamReader.First ⟨.head, .fresh,
      .uninitialised major minor contentLength keepAlive, hd.render ++ tail⟩ first) :
    first.method = str "post" ∧
      first.contentLength = extractUInt64 length.value contentLength := by
  have hvalue : (hd.fill (.uninitialised major minor contentLength keepAlive)).subscript
      (str "content-length") = length.value :=
    Request.subscript_of_unique (by decide +kernel) hunique
  obtain ⟨b, hb, -⟩ := id hinked
  rw [hfirst.eq_of_head ⟨rfl, rfl, rfl⟩]
  constructor
  · exact (Request.normalise_method _).trans hpost
  · rw [Request.normalise_contentLength, hvalue, if_pos (List.ne_nil_of_mem hb)]
    rfl

/-- A callback is invoked with a body of `n` bytes only when the value of Content-Length has the
number `n`, and a value without a number stops the connection. -/
theorem content_length_decoded {hd : Head} {length : Header} {major minor : Int}
    {contentLength : UInt64} {keepAlive : Bool} {tail : Bytes}
    (hpost : toLowerCopy hd.method = str "post")
    (hunique : hd.headers.filter (Header.BeginsWith (str "content-length") ·) = [length])
    (hinked : Inked length.value)
    (h : Run (step funcs) ok
      (started (.uninitialised major minor contentLength keepAlive) (hd.render ++ tail)) as t) :
    (∀ x ∈ invocations t.conn.log, HasNumber length.value x.1.body.length) ∧
      ((¬ ∃ n, HasNumber length.value n) →
        invocations t.conn.log = [] ∧ (blocks t.conn.log ≠ [] → t.conn.mAbort = true)) := by
  have hdecoded {first : Request} (hfirst : StreamReader.First ⟨.head, .fresh,
      .uninitialised major minor contentLength keepAlive, hd.render ++ tail⟩ first)
      (hadmitted : first.BodyAdmitted) : HasNumber length.value first.contentLength.toNat := by
    obtain ⟨-, hlength⟩ := first_of_head hpost hunique hinked hfirst
    obtain ⟨hlo, hhi⟩ := (Request.bodyAdmitted_iff _).mp hadmitted
    rw [hlength] at hlo hhi ⊢
    exact hasNumber_of_admitted hinked hlo hhi
  have hshown : ∀ x ∈ invocations t.conn.log, HasNumber length.value x.1.body.length := by
    intro x hx
    obtain ⟨first, hfirst, hhanded⟩ := shown_of_run h hx
    obtain ⟨hmethod, -⟩ := first_of_head hpost hunique hinked hfirst
    obtain ⟨hadmitted, hlength⟩ := hhanded.framed_of_post hmethod
    rw [hlength]
    exact hdecoded hfirst hadmitted
  refine ⟨hshown, fun hnone => ⟨?_, fun hblocks => ?_⟩⟩
  · exact List.eq_nil_iff_forall_not_mem.mpr fun x hx => hnone ⟨_, hshown x hx⟩
  · have hstopped := untouchedOrStopped_of_run
      (fun first hfirst => ⟨(first_of_head hpost hunique hinked hfirst).1,
        fun hadmitted => hnone ⟨_, hdecoded hfirst hadmitted⟩⟩) h
    exact hstopped.resolve_left hblocks

theorem simple_post : Simple (str "POST") (str "/") (str "1") (str "1") := by
  decide +kernel

theorem token_contentLength :
    str "Content-Length" ≠ [] ∧ ∀ b ∈ str "Content-Length", Token b := by
  decide +kernel

/-- For concrete runs: a POST with this value of Content-Length. -/
def postOf (value : Bytes) (htext : ∀ b ∈ value, Text b) : Head :=
  .simple (str "POST") (str "/") (str "1") (str "1")
    [{ name := str "Content-Length"
       value := value
       folds := []
       name_ne_nil := token_contentLength.1
       token_of_mem := token_contentLength.2
       text_of_mem := htext }] simple_post

theorem content_length_decoded_of_digit :
    ∃ t, Run (step [(str "/", 0)]) (fun _ _ => True)
        (started (.uninitialised 0 0 0 false) ((postOf (str "5") (by decide +kernel)).render ++
          str "abcde"))
        [.io (.receive 0 43), .io (.readDone 0 [])] t ∧
      invocations t.conn.log ≠ [] ∧
      ∀ x ∈ invocations t.conn.log, HasNumber (str "5") x.1.body.length := by
  have hrun : ∃ t, Run (step [(str "/", 0)]) (fun _ _ => True)
      (started (.uninitialised 0 0 0 false) ((postOf (str "5") (by decide +kernel)).render ++
          str "abcde"))
      [.io (.receive 0 43), .io (.readDone 0 [])] t ∧ invocations t.conn.log ≠ [] :=
    exists_run_of_exec (by decide +kernel)
  obtain ⟨t, h, hne⟩ := hrun
  have hunique : (postOf (str "5") (by decide +kernel)).headers.filter
      (Header.BeginsWith (str "content-length") ·) = [⟨str "Content-Length", str "5"⟩] := by
    decide +kernel
  exact ⟨t, h, hne, (content_length_decoded (by decide +kernel) hunique (by decide +kernel) h).1⟩

/-- Text behind the digits does not stop the connection. -/
theorem trailing_text_accepted :
    ∃ t, Run (step [(str "/", 0)]) (fun _ _ => True)
        (started (.uninitialised 0 0 0 false)
          ((postOf (str "5abc") (by decide +kernel)).render ++ str "abcde"))
        [.io (.receive 0 46), .io (.readDone 0 [])] t ∧
      (∃ x ∈ invocations t.conn.log, x.1.body.length = 5) ∧ ∀ n, ¬ Plain (str "5abc") n := by
  have hrun : ∃ t, Run (step [(str "/", 0)]) (fun _ _ => True)
      (started (.uninitialised 0 0 0 false)
        ((postOf (str "5abc") (by decide +kernel)).render ++ str "abcde"))
      [.io (.receive 0 46), .io (.readDone 0 [])] t ∧
      ∃ x ∈ invocations t.conn.log, x.1.body.length = 5 :=
    exists_run_of_exec (by decide +kernel)
  obtain ⟨t, h, hshown⟩ := hrun
  refine ⟨t, h, hshown, fun n hplain => ?_⟩
  exact absurd (hplain.mem 'a'.toUInt8 (by decide +kernel)) (by decide +kernel)

end Link

end BtcServer.HttpmessageServer
