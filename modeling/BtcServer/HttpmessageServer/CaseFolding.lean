import BtcServer.HttpmessageServer.HeaderLookup
import BtcServer.HttpmessageServer.Link
import Mathlib.Data.List.Forall2

/-!
# Letter case

Two requests that are the same up to the case of letters where `normalise` does not care for it, and
what `handle_read_headers` makes of them.  `Agrees` is what they have in common once they are
normalised; a handler that is run on both keeps it.
-/

namespace BtcServer.HttpmessageServer

open Boost Lib

/-! ## Words -/

/-- The same byte, or the same ASCII letter once as a capital and once not. -/
def SameLetter (a b : UInt8) : Prop :=
  a = b ∨ (65 ≤ a ∧ a ≤ 90 ∧ b = a + 32) ∨ (65 ≤ b ∧ b ≤ 90 ∧ a = b + 32)

/-- The words are the same up to the case of their letters. -/
def CaseVariant (s t : Bytes) : Prop := List.Forall₂ SameLetter s t

theorem toNat_toLower (c : UInt8) :
    (toLower c).toNat = if 65 ≤ c.toNat ∧ c.toNat ≤ 90 then c.toNat + 32 else c.toNat := by
  unfold toLower
  simp only [UInt8.le_iff_toNat_le, UInt8.reduceToNat]
  by_cases h : 65 ≤ c.toNat ∧ c.toNat ≤ 90
  · rw [if_pos h, if_pos h]
    simp only [UInt8.toNat_add, UInt8.reduceToNat]
    omega
  · rw [if_neg h, if_neg h]

theorem sameLetter_iff {a b : UInt8} : SameLetter a b ↔ toLower a = toLower b := by
  unfold SameLetter
  rw [← UInt8.toNat_inj (a := toLower a), toNat_toLower, toNat_toLower]
  simp only [UInt8.le_iff_toNat_le, ← UInt8.toNat_inj, UInt8.toNat_add, UInt8.reduceToNat]
  have ha := a.toNat_lt
  have hb := b.toNat_lt
  split_ifs <;> omega

theorem caseVariant_iff {s t : Bytes} : CaseVariant s t ↔ toLowerCopy s = toLowerCopy t := by
  unfold CaseVariant toLowerCopy
  rw [← List.forall₂_eq_eq_eq, List.forall₂_map_left_iff, List.forall₂_map_right_iff]
  constructor
  · intro h
    exact h.imp fun _ _ => sameLetter_iff.mp
  · intro h
    exact h.imp fun _ _ => sameLetter_iff.mpr

theorem CaseVariant.strncasecmp {s t : Bytes} (h : CaseVariant s t) (name : Bytes) (n : Nat) :
    strncasecmp name s n = strncasecmp name t n := by
  rw [← strncasecmp_toLowerCopy name s, caseVariant_iff.mp h, strncasecmp_toLowerCopy]

/-! ## Requests -/

/-- The headers differ in the case of the name, and if they are named `connection` in the case of
the value. -/
structure Header.CaseVariant (hdr hdr' : Header) : Prop where
  name : HttpmessageServer.CaseVariant hdr.name hdr'.name
  value : hdr.value = hdr'.value ∨
    hdr.Named (str "connection") ∧ HttpmessageServer.CaseVariant hdr.value hdr'.value

/-- The requests differ in the case of the method, the uri and such headers.  `keep_alive` is
overwritten, so it may be anything. -/
structure Request.CaseVariant (req req' : Request) : Prop where
  method : HttpmessageServer.CaseVariant req.method req'.method
  uri : HttpmessageServer.CaseVariant req.uri req'.uri
  httpVersionMajor : req.httpVersionMajor = req'.httpVersionMajor
  httpVersionMinor : req.httpVersionMinor = req'.httpVersionMinor
  headers : List.Forall₂ Header.CaseVariant req.headers req'.headers
  contentLength : req.contentLength = req'.contentLength
  body : req.body = req'.body

/-- The requests differ at most in the values of their headers. -/
structure Request.Agrees (req req' : Request) : Prop where
  method : req.method = req'.method
  uri : req.uri = req'.uri
  httpVersionMajor : req.httpVersionMajor = req'.httpVersionMajor
  httpVersionMinor : req.httpVersionMinor = req'.httpVersionMinor
  names : req.headers.map Header.name = req'.headers.map Header.name
  contentLength : req.contentLength = req'.contentLength
  keepAlive : req.keepAlive = req'.keepAlive
  body : req.body = req'.body

theorem rel_find? {α : Type*} {R : α → α → Prop} {p : α → Bool} {l l' : List α}
    (hp : ∀ a b, R a b → p a = p b) (h : List.Forall₂ R l l') :
    Option.Rel R (l.find? p) (l'.find? p) := by
  induction h with
  | nil => exact .none
  | @cons a b l l' hab _ ih =>
      cases ha : p a with
      | true =>
          rw [List.find?_cons_of_pos ha, List.find?_cons_of_pos (hp a b hab ▸ ha)]
          exact .some hab
      | false =>
          rw [List.find?_cons_of_neg (Bool.eq_false_iff.mp ha),
            List.find?_cons_of_neg (Bool.eq_false_iff.mp (hp a b hab ▸ ha))]
          exact ih

namespace Request

variable {req req' : Request}

theorem CaseVariant.subscript (h : req.CaseVariant req') {name : Bytes} (hname : 0 ∉ name) :
    req.subscript name = [] ∧ req'.subscript name = [] ∨
      ∃ hdr hdr' : Header, hdr.BeginsWith name ∧ hdr.CaseVariant hdr' ∧
        req.subscript name = hdr.value ∧ req'.subscript name = hdr'.value := by
  let found (hdr : Header) : Bool := strncasecmp name hdr.name name.length = 0
  have hsame : ∀ hdr hdr' : Header, hdr.CaseVariant hdr' → found hdr = found hdr' := by
    intro hdr hdr' hvariant
    exact decide_eq_decide.mpr (by rw [hvariant.name.strncasecmp])
  have hrel := rel_find? hsame h.headers
  unfold Request.subscript
  cases hfind : req.headers.find? found with
  | none =>
      rw [hfind] at hrel
      cases hfind' : req'.headers.find? found with
      | none => exact .inl ⟨rfl, rfl⟩
      | some hdr' =>
          rw [hfind'] at hrel
          cases hrel
  | some hdr =>
      rw [hfind] at hrel
      cases hfind' : req'.headers.find? found with
      | none =>
          rw [hfind'] at hrel
          cases hrel
      | some hdr' =>
          rw [hfind'] at hrel
          cases hrel with
          | some hvariant =>
              have hfound : found hdr = true := List.find?_some hfind
              have hbegins := (strncasecmp_eq_zero_iff hname hdr.name).mp (of_decide_eq_true hfound)
              exact .inr ⟨hdr, hdr', hbegins, hvariant, rfl, rfl⟩

theorem not_named_connection {hdr : Header} (h : hdr.BeginsWith (str "content-length")) :
    ¬hdr.Named (str "connection") := by
  intro hnamed
  unfold Header.BeginsWith at h
  rw [show toLowerCopy hdr.name = _ from hnamed] at h
  exact absurd h (by decide +kernel)

theorem CaseVariant.contentLength_value (h : req.CaseVariant req') :
    req.subscript (str "content-length") = req'.subscript (str "content-length") := by
  have hname : 0 ∉ str "content-length" := by decide +kernel
  rcases h.subscript hname with
    ⟨hnone, hnone'⟩ | ⟨hdr, hdr', hbegins, hvariant, hfound, hfound'⟩
  · rw [hnone, hnone']
  · rw [hfound, hfound']
    exact hvariant.value.resolve_right fun hnamed => not_named_connection hbegins hnamed.1

theorem CaseVariant.connection_value (h : req.CaseVariant req') :
    toLowerCopy (req.subscript (str "connection")) =
      toLowerCopy (req'.subscript (str "connection")) := by
  have hname : 0 ∉ str "connection" := by decide +kernel
  rcases h.subscript hname with
    ⟨hnone, hnone'⟩ | ⟨hdr, hdr', -, hvariant, hfound, hfound'⟩
  · rw [hnone, hnone']
  · rw [hfound, hfound']
    rcases hvariant.value with hsame | ⟨-, hcase⟩
    · rw [hsame]
    · exact caseVariant_iff.mp hcase

/-- Requests that differ in case only agree once they are normalised. -/
theorem CaseVariant.normalise (h : req.CaseVariant req') :
    req.normalise.Agrees req'.normalise where
  method := by
    rw [normalise_method, normalise_method, caseVariant_iff.mp h.method]
  uri := by
    rw [normalise_uri, normalise_uri, caseVariant_iff.mp h.uri]
  httpVersionMajor := by
    rw [normalise_httpVersionMajor, normalise_httpVersionMajor, h.httpVersionMajor]
  httpVersionMinor := by
    rw [normalise_httpVersionMinor, normalise_httpVersionMinor, h.httpVersionMinor]
  names := by
    rw [normalise_headers, normalise_headers, List.map_map, List.map_map]
    rw [← List.forall₂_eq_eq_eq, List.forall₂_map_left_iff, List.forall₂_map_right_iff]
    exact h.headers.imp fun hdr hdr' hvariant => caseVariant_iff.mp hvariant.name
  contentLength := by
    rw [normalise_contentLength, normalise_contentLength, h.contentLength_value, h.contentLength]
  keepAlive := by
    rw [normalise_keepAlive, normalise_keepAlive, h.connection_value]
  body := by
    rw [normalise_body, normalise_body, h.body]

end Request

/-! ## Connections -/

inductive Event.Agrees : Event → Event → Prop
  | refl (e : Event) : Agrees e e
  | requested {req req' : Request} (callback : Option Callback) (h : req.Agrees req') :
      Agrees (.requested req callback) (.requested req' callback)

theorem Event.Agrees.isRead {e e' : Event} (h : e.Agrees e') : e.isRead = e'.isRead := by
  cases h <;> rfl

theorem agrees_readEvents {log log' : List Event} (h : List.Forall₂ Event.Agrees log log') :
    List.Forall₂ Event.Agrees (readEvents log) (readEvents log') := by
  unfold readEvents
  induction h with
  | nil => exact .nil
  | @cons e e' log log' he _ ih =>
      by_cases hread : e.isRead = true
      · rw [List.filter_cons_of_pos hread, List.filter_cons_of_pos (he.isRead ▸ hread)]
        exact .cons he ih
      · rw [List.filter_cons_of_neg hread, List.filter_cons_of_neg (he.isRead ▸ hread)]
        exact ih

structure HttpConnction.Agrees (conn conn' : HttpConnction) : Prop where
  mSocket : conn.mSocket = conn'.mSocket
  mRecvBuffer : conn.mRecvBuffer = conn'.mRecvBuffer
  mSendBuffer : conn.mSendBuffer = conn'.mSendBuffer
  mRequest : conn.mRequest.Agrees conn'.mRequest
  mRequestParser : conn.mRequestParser = conn'.mRequestParser
  mAbort : conn.mAbort = conn'.mAbort
  log : List.Forall₂ Event.Agrees conn.log conn'.log

namespace HttpConnction

variable {conn conn' : HttpConnction}

theorem Agrees.record (h : conn.Agrees conn') {e e' : Event} (he : e.Agrees e') :
    (conn.record e).Agrees (conn'.record e') :=
  { h with log := List.rel_append h.log (.cons he .nil) }

theorem Agrees.armRead (h : conn.Agrees conn') (op : ReadOp) :
    (conn.armRead op).Agrees (conn'.armRead op) :=
  { h with mSocket := congrArg (fun s : Socket => { s with reads := s.reads ++ [op] }) h.mSocket }

theorem Agrees.stop (h : conn.Agrees conn') : conn.stop.Agrees conn'.stop :=
  { h with
    mSocket := congrArg (fun s : Socket => { s with isOpen := false }) h.mSocket
    mAbort := rfl
    log := List.rel_append h.log (.cons (.refl .stopped) .nil) }

theorem Agrees.writeResponse (h : conn.Agrees conn') (body : Bytes) :
    (conn.writeResponse body).Agrees (conn'.writeResponse body) := by
  have hout : conn.mSendBuffer ++ responseHead conn.mRequest.httpVersionMajor
        conn.mRequest.httpVersionMinor body.length ++ body =
      conn'.mSendBuffer ++ responseHead conn'.mRequest.httpVersionMajor
        conn'.mRequest.httpVersionMinor body.length ++ body := by
    rw [h.mSendBuffer, h.mRequest.httpVersionMajor, h.mRequest.httpVersionMinor]
  unfold HttpConnction.writeResponse
  dsimp only
  rw [hout, h.mSocket, h.mRequest.httpVersionMajor, h.mRequest.httpVersionMinor]
  exact { h with
    mSocket := rfl
    mSendBuffer := rfl
    log := List.rel_append (List.rel_append h.log (.cons (.refl _) .nil)) (.cons (.refl _) .nil) }

theorem Agrees.takeBody (h : conn.Agrees conn') : conn.takeBody.Agrees conn'.takeBody := by
  unfold HttpConnction.takeBody
  dsimp only
  rw [h.mRecvBuffer, h.mRequest.contentLength, h.mRequest.body]
  exact { h with
    mRecvBuffer := rfl
    mRequest := { h.mRequest with contentLength := rfl, body := rfl }
    log := List.rel_append h.log (.cons (.refl _) .nil) }

end HttpConnction

/-! ## Handlers -/

namespace Link

structure Agrees (l l' : Link) : Prop where
  conn : l.conn.Agrees l'.conn
  registered : l.registered = l'.registered

variable {funcs : CallbackTable} {calls calls' : List (Call Unit)} {l l' t t' : Link}
  {ec : ErrorCode} {length : Nat}

theorem Agrees.setConn (h : l.Agrees l') {conn conn' : HttpConnction} (hconn : conn.Agrees conn') :
    Agrees { l with conn := conn } { l' with conn := conn' } :=
  ⟨hconn, h.registered⟩

theorem Agrees.managerStop (h : l.Agrees l') : l.managerStop.Agrees l'.managerStop :=
  ⟨h.conn.stop, rfl⟩

theorem Agrees.call (h : l.Agrees l') (c : Call Unit) : (l.call c).Agrees (l'.call c) := by
  cases c with
  | writeResponse _ body => exact h.setConn (h.conn.writeResponse body)
  | stop _ => exact h.managerStop
  | stopAll =>
      change Agrees (if l.registered = true then l.managerStop else l)
        (if l'.registered = true then l'.managerStop else l')
      rw [h.registered]
      by_cases hregistered : l'.registered = true
      · rw [if_pos hregistered, if_pos hregistered]
        exact h.managerStop
      · rw [if_neg hregistered, if_neg hregistered]
        exact h

theorem Agrees.runCallback (h : l.Agrees l') (calls : List (Call Unit)) :
    (l.runCallback calls).Agrees (l'.runCallback calls) := by
  induction calls generalizing l l' with
  | nil => exact h
  | cons c calls ih => exact ih (h.call c)

theorem Agrees.requested (h : l.Agrees l') (callback : Option Callback) :
    Agrees { l with conn := l.conn.record (.requested l.conn.mRequest callback) }
      { l' with conn := l'.conn.record (.requested l'.conn.mRequest callback) } :=
  h.setConn (h.conn.record (.requested callback h.conn.mRequest))

theorem Agrees.dispatch (h : l.Agrees l') :
    ((host funcs calls).dispatch l).Agrees ((host funcs calls).dispatch l') := by
  cases hlookup : funcs.lookup l.conn.mRequest.uri with
  | none =>
      have hlookup' : funcs.lookup l'.conn.mRequest.uri = none := h.conn.mRequest.uri ▸ hlookup
      rw [dispatch_of_none hlookup, dispatch_of_none hlookup']
      exact (h.requested none).managerStop
  | some callback =>
      have hlookup' : funcs.lookup l'.conn.mRequest.uri = some callback :=
        h.conn.mRequest.uri ▸ hlookup
      have hafter := (h.requested (some callback)).runCallback calls
      rw [dispatch_of_some hlookup rfl, dispatch_of_some hlookup' rfl,
        hafter.conn.mRequest.keepAlive]
      split
      · exact hafter.setConn (hafter.conn.armRead _)
      · exact hafter

theorem Agrees.handleReadBody (h : l.Agrees l') :
    ((host funcs calls).handleReadBody ec length l).Agrees
      ((host funcs calls).handleReadBody ec length l') := by
  rw [handleReadBody_eq, handleReadBody_eq, h.conn.mAbort]
  split_ifs
  · exact h.managerStop
  · exact (h.setConn h.conn.takeBody).dispatch

theorem Agrees.handleRequestHead
    (h : Agrees { l with conn := l.conn.normalise } { l' with conn := l'.conn.normalise }) :
    ((host funcs calls).handleRequestHead ec l).Agrees
      ((host funcs calls).handleRequestHead ec l') := by
  obtain ⟨n, hn⟩ : ∃ n : Link, n = { l with conn := l.conn.normalise } := ⟨_, rfl⟩
  obtain ⟨n', hn'⟩ : ∃ n : Link, n = { l' with conn := l'.conn.normalise } := ⟨_, rfl⟩
  rw [← hn, ← hn'] at h
  rw [handleRequestHead_eq ec hn, handleRequestHead_eq ec hn', h.conn.mRequest.method,
    h.conn.mRequest.contentLength, h.conn.mRecvBuffer]
  split_ifs
  · exact h.managerStop
  · exact h.handleReadBody
  · exact h.setConn (h.conn.armRead _)
  · exact h.dispatch

/-- The two links have taken the same branch: they read on in the same way, their requests agree,
and so do the requests they have dispatched, with the same entries of the table. -/
structure SameBranch (t t' : Link) : Prop where
  reads : t.conn.mSocket.reads = t'.conn.mSocket.reads
  mRequest : t.conn.mRequest.Agrees t'.conn.mRequest
  readEvents : List.Forall₂ Event.Agrees (readEvents t.conn.log) (readEvents t'.conn.log)

theorem Agrees.sameBranch {u : Link} (h : t.Agrees t') (h' : SameRead t' u) : SameBranch t u where
  reads := (congrArg Socket.reads h.conn.mSocket).trans h'.reads
  mRequest := h'.mRequest ▸ h.conn.mRequest
  readEvents := h'.readEvents ▸ agrees_readEvents h.conn.log

def withRequest (l : Link) (req : Request) : Link :=
  { l with conn := { l.conn with mRequest := req } }

theorem agrees_normalise (l : Link) {req req' : Request} (h : req.CaseVariant req') :
    Agrees { l with conn := (l.withRequest req).conn.normalise }
      { l with conn := (l.withRequest req').conn.normalise } where
  conn :=
    { mSocket := rfl
      mRecvBuffer := rfl
      mSendBuffer := rfl
      mRequest := h.normalise
      mRequestParser := rfl
      mAbort := rfl
      log := List.forall₂_same.mpr fun e _ => .refl e }
  registered := rfl

/-- `normalise` is idempotent, and requests that differ in case only agree behind it.  Behind the
guard `handle_read_headers` takes the same branch for both, whatever the callback does; and if the
callback does the same for both, nothing else differs either. -/
theorem normalise_up_to_case (req : Request) :
    req.normalise.normalise = req.normalise ∧
      ∀ req', req.CaseVariant req' → req.normalise.Agrees req'.normalise ∧
        ∀ (funcs : CallbackTable) (ec : ErrorCode) (l : Link) (calls calls' : List (Call Unit)),
          SameBranch ((host funcs calls).handleRequestHead ec (l.withRequest req))
              ((host funcs calls').handleRequestHead ec (l.withRequest req')) ∧
            ((host funcs calls).handleRequestHead ec (l.withRequest req)).Agrees
              ((host funcs calls).handleRequestHead ec (l.withRequest req')) := by
  refine ⟨req.normalise_normalise, fun req' h => ⟨h.normalise, fun funcs ec l calls calls' => ?_⟩⟩
  have hagrees : ((host funcs calls).handleRequestHead ec (l.withRequest req)).Agrees
      ((host funcs calls).handleRequestHead ec (l.withRequest req')) :=
    (agrees_normalise l h).handleRequestHead
  exact ⟨hagrees.sameBranch (sameRead_handleRequestHead _), hagrees⟩

/-- For concrete requests: the method, the uri, a header `connection` and its value. -/
def shortRequest (method uri name value : String) : Request :=
  { Request.uninitialised 1 1 0 false with
    method := str method
    uri := str uri
    headers := [⟨str name, str value⟩] }

theorem normalise_up_to_case_of_get :
    let req := shortRequest "GET" "/A" "Connection" "Keep-Alive"
    let req' := shortRequest "get" "/a" "CONNECTION" "keep-alive"
    req ≠ req' ∧ req.normalise.keepAlive = true ∧ req.normalise.Agrees req'.normalise := by
  intro req req'
  have hvalue : CaseVariant (str "Keep-Alive") (str "keep-alive") :=
    caseVariant_iff.mpr (by decide +kernel)
  have hheader : Header.CaseVariant ⟨str "Connection", str "Keep-Alive"⟩
      ⟨str "CONNECTION", str "keep-alive"⟩ :=
    ⟨caseVariant_iff.mpr (by decide +kernel), .inr ⟨by unfold Header.Named; decide +kernel, hvalue⟩⟩
  have h : req.CaseVariant req' :=
    { method := caseVariant_iff.mpr (by decide +kernel)
      uri := caseVariant_iff.mpr (by decide +kernel)
      httpVersionMajor := rfl
      httpVersionMinor := rfl
      headers := .cons hheader .nil
      contentLength := rfl
      body := rfl }
  exact ⟨by decide +kernel, by decide +kernel, ((normalise_up_to_case req).2 req' h).1⟩

end Link

end BtcServer.HttpmessageServer
