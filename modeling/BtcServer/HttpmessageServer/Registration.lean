import BtcServer.HttpmessageServer.FirstRequest

/-!
# Registered callbacks

`http_server::add_handle` keeps the first callback of every URI, under the bytes it is given.
`request::normalise` puts the URI of a request in lower case before `handle_request` looks it up, so
a callback registered under another spelling is not found.
-/

namespace BtcServer.HttpmessageServer

open Boost Lib Grammar

namespace CallbackTable

/-- `m_callback_funcs_[uri] = cb` -/
def assign (funcs : CallbackTable) (uri : Bytes) (cb : Callback) : CallbackTable :=
  (uri, cb) :: funcs.filter (·.1 ≠ uri)

def addHandle (funcs : CallbackTable) (uri : Bytes) (cb : Callback) : Bool × CallbackTable :=
  if (funcs.lookup uri).isSome then (false, funcs) else (true, funcs.assign uri cb)

def addHandles (funcs : CallbackTable) (calls : List (Bytes × Callback)) : CallbackTable :=
  calls.foldl (fun funcs call => (funcs.addHandle call.1 call.2).2) funcs

/-- One of the calls registered `cb` for `uri` and returned true. -/
def Registered (calls : List (Bytes × Callback)) (uri : Bytes) (cb : Callback) : Prop :=
  ∃ before after, calls = before ++ (uri, cb) :: after ∧
    ((addHandles [] before).addHandle uri cb).1 = true

variable {funcs : CallbackTable} {uri v : Bytes} {cb : Callback}

theorem lookup_filter_ne (funcs : CallbackTable) (h : v ≠ uri) :
    (funcs.filter (·.1 ≠ uri)).lookup v = funcs.lookup v := by
  induction funcs with
  | nil => rfl
  | cons entry funcs ih =>
      obtain ⟨key, cb⟩ := entry
      by_cases hkey : key = uri
      · subst hkey
        have hv : (v == key) = false := beq_eq_false_iff_ne.mpr h
        simp [List.lookup_cons, hv, ← ih]
      · have hkept : ((key, cb) :: funcs).filter (·.1 ≠ uri) =
            (key, cb) :: funcs.filter (·.1 ≠ uri) := by
          simp [hkey]
        rw [hkept, List.lookup_cons, List.lookup_cons, ih]

theorem lookup_assign (funcs : CallbackTable) (uri v : Bytes) (cb : Callback) :
    (funcs.assign uri cb).lookup v = if v = uri then some cb else funcs.lookup v := by
  unfold assign
  by_cases hv : v = uri
  · subst hv
    rw [List.lookup_cons_self, if_pos rfl]
  · have hne : (v == uri) = false := beq_eq_false_iff_ne.mpr hv
    rw [List.lookup_cons, hne, if_neg hv]
    exact lookup_filter_ne funcs hv

theorem addHandle_fst (funcs : CallbackTable) (uri : Bytes) (cb : Callback) :
    (funcs.addHandle uri cb).1 = true ↔ funcs.lookup uri = none := by
  unfold addHandle
  cases funcs.lookup uri <;> simp

theorem lookup_addHandle (funcs : CallbackTable) (uri v : Bytes) (cb : Callback) :
    (funcs.addHandle uri cb).2.lookup v =
      if v = uri ∧ funcs.lookup uri = none then some cb else funcs.lookup v := by
  unfold addHandle
  cases hold : funcs.lookup uri with
  | some cb' => simp
  | none =>
      simp only [Option.isSome_none, Bool.false_eq_true, if_false, and_true]
      exact lookup_assign funcs uri v cb

theorem addHandles_concat (funcs : CallbackTable) (calls : List (Bytes × Callback)) (uri : Bytes)
    (cb : Callback) :
    funcs.addHandles (calls ++ [(uri, cb)]) = ((funcs.addHandles calls).addHandle uri cb).2 := by
  unfold addHandles
  rw [List.foldl_append]
  rfl

theorem registered_concat (calls : List (Bytes × Callback)) (u : Bytes) (d : Callback) :
    Registered (calls ++ [(u, d)]) uri cb ↔
      Registered calls uri cb ∨
        (uri, cb) = (u, d) ∧ ((addHandles [] calls).addHandle uri cb).1 = true := by
  constructor
  · rintro ⟨before, after, heq, htrue⟩
    rcases List.eq_nil_or_concat after with rfl | ⟨after', last, rfl⟩
    · obtain ⟨rfl, hlast⟩ := List.append_inj' heq rfl
      exact .inr ⟨(List.singleton_inj.mp hlast).symm, htrue⟩
    · have heq' : calls ++ [(u, d)] = (before ++ (uri, cb) :: after') ++ [last] := by
        rw [heq]
        simp
      obtain ⟨rfl, -⟩ := List.append_inj' heq' rfl
      exact .inl ⟨before, after', rfl, htrue⟩
  · rintro (⟨before, after, rfl, htrue⟩ | ⟨heq, htrue⟩)
    · exact ⟨before, after ++ [(u, d)], by simp, htrue⟩
    · exact ⟨calls, [], by rw [heq], htrue⟩

/-- The table holds what was registered, and nothing else. -/
theorem lookup_addHandles_iff (calls : List (Bytes × Callback)) :
    (addHandles [] calls).lookup uri = some cb ↔ Registered calls uri cb := by
  induction calls using List.reverseRecOn with
  | nil =>
      refine iff_of_false (by simp [addHandles]) ?_
      rintro ⟨before, after, heq, -⟩
      simp at heq
  | append_singleton calls call ih =>
      obtain ⟨u, d⟩ := call
      rw [addHandles_concat, lookup_addHandle, registered_concat, addHandle_fst, ← ih, Prod.mk.injEq]
      by_cases hu : uri = u ∧ (addHandles [] calls).lookup u = none
      · obtain ⟨rfl, hnone⟩ := hu
        simp [hnone, eq_comm]
      · rw [if_neg hu]
        refine (or_iff_left ?_).symm
        rintro ⟨⟨rfl, rfl⟩, hnone⟩
        exact hu ⟨rfl, hnone⟩

end CallbackTable

open CallbackTable

namespace Link

/-- The callback of a URI is the one invoked for a request with this target exactly when the target
has no upper case letter, or the callback is also registered under its lower case form. -/
theorem callback_registered_iff {calls : List (Bytes × Callback)} {hd : Head} {cb : Callback}
    (hregistered : Registered calls hd.target cb) {major minor : Int} {contentLength : UInt64}
    {keepAlive : Bool} {tail : Bytes} {ok : Link → Action → Prop} {as : List Action} {t : Link}
    (h : Run (step (addHandles [] calls)) ok
      (started (.uninitialised major minor contentLength keepAlive) (hd.render ++ tail)) as t)
    {q : Request} {callback : Option Callback} (hmem : .requested q callback ∈ t.conn.log) :
    callback = some cb ↔
      toLowerCopy hd.target = hd.target ∨ Registered calls (toLowerCopy hd.target) cb := by
  obtain ⟨first, hfirst, hhanded⟩ := handedOn_of_run h hmem
  have huri : q.uri = toLowerCopy hd.target := by
    rw [hhanded.uri_eq, hfirst.eq_of_head ⟨rfl, rfl, rfl⟩, Request.normalise_uri]
    rfl
  rw [hhanded.callback_eq, huri, lookup_addHandles_iff]
  constructor
  · exact .inr
  · rintro (hlower | hlower)
    · rwa [hlower]
    · exact hlower

theorem simple_root : Simple (str "GET") (str "/") (str "1") (str "1") := by
  decide +kernel

theorem simple_upper : Simple (str "GET") (str "/A") (str "1") (str "1") := by
  decide +kernel

/-- For concrete runs: GET requests for "/" and for "/A". -/
def getRoot : Head := .simple (str "GET") (str "/") (str "1") (str "1") [] simple_root

def getUpper : Head := .simple (str "GET") (str "/A") (str "1") (str "1") [] simple_upper

theorem callback_registered_of_root :
    ∃ t, Run (step (addHandles [] [(str "/", 0)])) (fun _ _ => True)
        (started (.uninitialised 0 0 0 false) (getRoot.render ++ []))
        [.io (.receive 0 18), .io (.readDone 0 [])] t ∧
      ∃ q, .requested q (some 0) ∈ t.conn.log := by
  have hrun : ∃ t, Run (step (addHandles [] [(str "/", 0)])) (fun _ _ => True)
      (started (.uninitialised 0 0 0 false) (getRoot.render ++ []))
      [.io (.receive 0 18), .io (.readDone 0 [])] t ∧
      ∃ e ∈ t.conn.log, e.request.isSome :=
    exists_run_of_exec (by decide +kernel)
  obtain ⟨t, h, e, hmem, he⟩ := hrun
  cases e with
  | requested q callback =>
      have hregistered : Registered [(str "/", 0)] getRoot.target 0 := ⟨[], [], rfl, rfl⟩
      have hcallback := (callback_registered_iff hregistered h hmem).mpr (.inl (by decide +kernel))
      exact ⟨t, h, q, hcallback ▸ hmem⟩
  | _ => cases he

/-- A callback registered for "/A" is not found by a request for "/A". -/
theorem upper_case_not_found :
    ∃ t, (addHandle [] (str "/A") 0).1 = true ∧
      Run (step (addHandles [] [(str "/A", 0)])) (fun _ _ => True)
        (started (.uninitialised 0 0 0 false) (getUpper.render ++ []))
        [.io (.receive 0 19), .io (.readDone 0 [])] t ∧
      ∃ q, .requested q none ∈ t.conn.log ∧ q.uri = str "/a" := by
  have hrun : ∃ t, Run (step (addHandles [] [(str "/A", 0)])) (fun _ _ => True)
      (started (.uninitialised 0 0 0 false) (getUpper.render ++ []))
      [.io (.receive 0 19), .io (.readDone 0 [])] t ∧
      .requested (getUpper.fill (.uninitialised 0 0 0 false)).normalise none ∈ t.conn.log :=
    exists_run_of_exec (by decide +kernel)
  obtain ⟨t, h, hmem⟩ := hrun
  exact ⟨t, rfl, h, _, hmem, by decide +kernel⟩

end Link

end BtcServer.HttpmessageServer
