import BtcServer.AvRouter.Logger
import BtcServer.HttpmessageServer.Isolation
import BtcServer.HttpmessageServer.Representation

/-!
# The log of a server

`handle_request` logs the target of every request as the peer has sent it.  A target has no newline,
so no peer can end a line of the log and write the next one: the log reads back as what was logged,
line by line (`log_reads_back`).
-/

namespace BtcServer.HttpmessageServer

open Boost Lib AvRouter

namespace HttpServer

variable {funcs : CallbackTable} {ok : HttpServer → Action → Prop} {as : List Action}
  {req : Request} {stream : Bytes} {t : HttpServer} {i : Nat}

theorem handedOn_of_run (h : Run (step funcs) ok (started req stream) as t) {q : Request}
    {callback : Option Callback} (hmem : .requested q callback ∈ (t.conns i).log) :
    ∃ p first, (peersOf funcs req stream as)[i]? = some p ∧
      StreamReader.First ⟨.head, .fresh, p.1, p.2⟩ first ∧ HandedOn funcs first q callback := by
  cases hp : (peersOf funcs req stream as)[i]? with
  | none =>
      rw [(log_of_unconstructed h hp).1] at hmem
      exact absurd hmem List.not_mem_nil
  | some p =>
      obtain ⟨r, hemits⟩ := reads_own_stream h hp
      have hread : .requested q callback ∈ readEvents (t.conns i).log :=
        List.mem_filter.mpr ⟨hmem, rfl⟩
      obtain ⟨first, hfirst, hhanded⟩ :=
        (StreamReader.oneRequest_of_emits rfl hemits).1 q callback hread
      exact ⟨p, first, rfl, hfirst, hhanded⟩

/-- The strings of the requests that are constructed are empty. -/
def EmptyRequests (funcs : CallbackTable) (req : Request) (stream : Bytes) (as : List Action) :
    Prop :=
  ∀ p ∈ peersOf funcs req stream as, p.1.Empty

theorem logged_harmless (hempty : EmptyRequests funcs req stream as)
    (h : Run (step funcs) ok (started req stream) as t) {line : Bytes}
    (hline : line ∈ (t.conns i).log.filterMap Event.logged) : Harmless line := by
  obtain ⟨e, hmem, he⟩ := List.mem_filterMap.mp hline
  cases e with
  | requested q callback =>
      obtain rfl : q.uri = line := Option.some.inj he
      obtain ⟨p, first, hp, hfirst, hhanded⟩ := handedOn_of_run h hmem
      have hclean := hfirst.clean (hempty p (List.mem_of_getElem? hp))
      exact (hhanded.toWithBodyOf.clean hclean).headHarmless.uri
  | _ => cases he

/-- Whatever peers send, the log file reads back line by line: first what it said before, then what
this process has logged, be it a message of its own or a target that a connection handed on. -/
theorem log_reads_back (hempty : EmptyRequests funcs req stream as)
    (h : Run (step funcs) ok (started req stream) as t) {logfile : Bytes} (hname : logfile ≠ [])
    (hstar : '*'.toUInt8 ∉ logfile) {sur : Surroundings} (hopens : sur.opens = true) {disk : Disk}
    {before : List Line} (hbefore : readLog ((disk logfile).getD []) = some before)
    {ws : List (Surroundings × Entry)}
    (hws : ∀ w ∈ ws, '\n'.toUInt8 ∉ w.2.message ∨
      ∃ i, w.2.message ∈ (t.conns i).log.filterMap Event.logged) :
    ∃ text, (logAll (initLogger logfile disk sur) ws).2 logfile = some text ∧
      readLog text = some (before ++ .init :: ws.map fun w => w.2.line) := by
  refine readLog_initLogger hname hstar hopens (fun w hw => ?_) hbefore
  rcases hws w hw with hown | ⟨i, hmem⟩
  · exact hown
  · exact (logged_harmless hempty h hmem).2.1

/-- What is logged on the first day of 2024. -/
def onNewYear (message : Bytes) : Surroundings × Entry :=
  (Logging.onDay Logging.newYear, ⟨.halfPastNine Logging.newYear, .err, message⟩)

/-- `main` logs a message of its own, and the server the target of a request. -/
theorem log_reads_back_of_get :
    ∃ t text, Run (step Link.oneCallback) (fun _ _ => True) (started getPeer.1 getPeer.2) alone t ∧
      (logAll (initLogger (str "example.log") (fun _ => none) (onNewYear []).1)
        [onNewYear (str "123"), onNewYear (str "/")]).2 (str "example.log") = some text ∧
      readLog text = some [.init, (onNewYear (str "123")).2.line, (onNewYear (str "/")).2.line] := by
  have hrun : ∃ t, Run (step Link.oneCallback) (fun _ _ => True)
      (started getPeer.1 getPeer.2) alone t ∧
      str "/" ∈ (t.conns 0).log.filterMap Event.logged :=
    exists_run_of_exec (by decide +kernel)
  have hpeers : peersOf Link.oneCallback getPeer.1 getPeer.2 alone =
      [getPeer, (.uninitialised 0 0 0 false, [])] := by decide +kernel
  have hempty : EmptyRequests Link.oneCallback getPeer.1 getPeer.2 alone := by
    unfold EmptyRequests
    rw [hpeers]
    intro p hp
    rcases List.mem_cons.mp hp with rfl | hp
    · exact ⟨rfl, rfl, rfl⟩
    · obtain rfl := List.mem_singleton.mp hp
      exact ⟨rfl, rfl, rfl⟩
  obtain ⟨t, h, hlogged⟩ := hrun
  have hws : ∀ w ∈ [onNewYear (str "123"), onNewYear (str "/")], '\n'.toUInt8 ∉ w.2.message ∨
      ∃ i, w.2.message ∈ (t.conns i).log.filterMap Event.logged := by
    intro w hw
    rcases List.mem_cons.mp hw with rfl | hw
    · exact .inl (by decide)
    · obtain rfl := List.mem_singleton.mp hw
      exact .inr ⟨0, hlogged⟩
  have hlog : ∃ text, (logAll (initLogger (str "example.log") (fun _ => none) (onNewYear []).1)
        [onNewYear (str "123"), onNewYear (str "/")]).2 (str "example.log") = some text ∧
      readLog text = some ([] ++ .init ::
        [onNewYear (str "123"), onNewYear (str "/")].map fun w => w.2.line) :=
    log_reads_back hempty h (by decide) (by decide) rfl rfl hws
  obtain ⟨text, htext, hread⟩ := hlog
  exact ⟨t, text, h, htext, hread⟩

end HttpServer

end BtcServer.HttpmessageServer
