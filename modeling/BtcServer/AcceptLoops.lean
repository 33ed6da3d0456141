import BtcServer.HttpmessageServer.Accepting
import BtcServer.LoginServer.Server

/-!
# The accept loops of both servers

The two servers wait for connections in the same way, and both end their loop when an accept fails:
from then on the acceptor is open and nobody accepts.
-/

namespace BtcServer

open Boost Lib

section

variable {funcs : HttpmessageServer.CallbackTable} {req : HttpmessageServer.Request}
  {stream : HttpmessageServer.Bytes} {httpActions : List HttpmessageServer.HttpServer.Action}
  {http : HttpmessageServer.HttpServer} {buffer rspBuffer : Vector UInt8 8192}
  {loginActions : List LoginServer.Server.Action} {login : LoginServer.Server}

/-- The accept loop of the http server survives a run exactly when, while its acceptor is open, no
handler of an accept is told of an error and `set_option` does not fail in one; that of the login
server exactly when no handler of an accept is told of an error. -/
theorem accept_loops_survive_iff
    (hhttp : Run (HttpmessageServer.HttpServer.step funcs) (fun _ _ => True)
      (.started req stream) httpActions http)
    (hlogin : Run LoginServer.Server.step (fun _ _ => True) (.create buffer rspBuffer) loginActions
      login) :
    (Survives (HttpmessageServer.HttpServer.step funcs) HttpmessageServer.HttpServer.acceptLoop
        HttpmessageServer.HttpServer.handed (.started req stream) httpActions ↔
      Run (HttpmessageServer.HttpServer.step funcs) HttpmessageServer.HttpServer.Rearms
        (.started req stream) httpActions http) ∧
    (Survives LoginServer.Server.step LoginServer.Server.acceptLoop LoginServer.Server.handed
        (.create buffer rspBuffer) loginActions ↔
      Run LoginServer.Server.step LoginServer.Server.Rearms (.create buffer rspBuffer) loginActions
        login) :=
  ⟨HttpmessageServer.HttpServer.survives_iff hhttp, LoginServer.Server.survives_iff hlogin⟩

end

/-- For concrete runs: a server of each kind that has begun to accept. -/
def httpServer : HttpmessageServer.HttpServer := .started (.uninitialised 0 0 0 false) []

def loginServer : LoginServer.Server := .create (.replicate 8192 0) (.replicate 8192 0)

/-- An accept completes with `ec`, and its handler runs. -/
def httpAccept (ec : ErrorCode) : List HttpmessageServer.HttpServer.Action :=
  [.acceptDone 0 ec, .acceptRun 0 .success (.uninitialised 0 0 0 false) []]

def loginAccept (ec : ErrorCode) : List LoginServer.Server.Action :=
  [.acceptDone 0 ec, .acceptRun 0 (.replicate 8192 0) (.replicate 8192 0)]

/-- Both loops survive an accept that succeeds. -/
theorem accept_loops_survive_success :
    Survives (HttpmessageServer.HttpServer.step []) HttpmessageServer.HttpServer.acceptLoop
        HttpmessageServer.HttpServer.handed httpServer (httpAccept .success) ∧
      Survives LoginServer.Server.step LoginServer.Server.acceptLoop LoginServer.Server.handed
        loginServer (loginAccept .success) := by
  have hhttp : ∃ t, Run (HttpmessageServer.HttpServer.step []) HttpmessageServer.HttpServer.Rearms
      httpServer (httpAccept .success) t :=
    ⟨_, .cons trivial rfl (.cons (fun _ => ⟨rfl, fun op hop => by cases hop; rfl⟩) rfl (.nil _))⟩
  have hlogin : ∃ t, Run LoginServer.Server.step LoginServer.Server.Rearms loginServer
      (loginAccept .success) t :=
    ⟨_, .cons trivial rfl (.cons (fun _ op hop => by cases hop; rfl) rfl (.nil _))⟩
  obtain ⟨t, ht⟩ := hhttp
  obtain ⟨u, hu⟩ := hlogin
  have hiff :=
    accept_loops_survive_iff (ht.mono fun _ _ _ => trivial) (hu.mono fun _ _ _ => trivial)
  exact ⟨hiff.1.mpr ht, hiff.2.mpr hu⟩

/-- One accept that fails, for a reason of its own, makes each of the open servers deaf. -/
theorem accept_loops_end :
    (∃ t, Run (HttpmessageServer.HttpServer.step []) (fun _ _ => True) httpServer
        (httpAccept .other) t ∧ t.mAcceptorIsOpen = true ∧ t.accepts = [] ∧
        ¬Survives (HttpmessageServer.HttpServer.step []) HttpmessageServer.HttpServer.acceptLoop
          HttpmessageServer.HttpServer.handed httpServer (httpAccept .other)) ∧
      (∃ t, Run LoginServer.Server.step (fun _ _ => True) loginServer (loginAccept .other) t ∧
        t.mAcceptorIsOpen = true ∧ t.accepts = [] ∧
        ¬Survives LoginServer.Server.step LoginServer.Server.acceptLoop LoginServer.Server.handed
          loginServer (loginAccept .other)) := by
  have hhttp : ∃ t, Run (HttpmessageServer.HttpServer.step []) (fun _ _ => True) httpServer
      (httpAccept .other) t ∧ t.mAcceptorIsOpen = true ∧ t.accepts = [] :=
    exists_run_of_exec (by decide +kernel)
  have hlogin : ∃ t, Run LoginServer.Server.step (fun _ _ => True) loginServer
      (loginAccept .other) t ∧ t.mAcceptorIsOpen = true ∧ t.accepts = [] :=
    exists_run_of_exec (by decide +kernel)
  obtain ⟨t, ht, hopen, hnone⟩ := hhttp
  obtain ⟨u, hu, hopen', hnone'⟩ := hlogin
  refine ⟨⟨t, ht, hopen, hnone, fun hsurvives => ?_⟩, u, hu, hopen', hnone', fun hsurvives => ?_⟩
  · have hone : (t.accepts.map _).length = 1 := hsurvives.listening_of_run ht hopen
    rw [hnone] at hone
    exact Nat.zero_ne_one hone
  · have hone : (u.accepts.map _).length = 1 := hsurvives.listening_of_run hu hopen'
    rw [hnone'] at hone
    exact Nat.zero_ne_one hone

end BtcServer
