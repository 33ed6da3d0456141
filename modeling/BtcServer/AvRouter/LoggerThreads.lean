import BtcServer.AvRouter.Logger
import BtcServer.Lib.Serial

/-!
# Logging from several threads

`logger_writer` statement by statement, with what it shares: the stream and the buffer that
`time_now_string` keeps in statics, the log file and the console.  The statics are used one after
another by whoever logs, and the stream gets its format when it is first used.  Under the mutex of
`LOGGER_LOCKS_` the threads of a process write one log: its entries are those of the calls that have
returned, in that order, and each is whole (`readLog_of_threads`).
-/

namespace BtcServer.AvRouter

open Boost Lib
open HttpmessageServer (Bytes str)

structure LogCall where
  level : Level
  message : Bytes
  disableCout : Bool
  deriving DecidableEq, Repr

structure LogLocals where
  s : Bytes
  heading : Bytes
  deriving DecidableEq, Repr

structure LoggerState where
  /-- The stream `oss` has its facet. -/
  imbued : Bool
  oss : Bytes
  /-- `static char str[200]` -/
  timeStr : Bytes
  locals : Nat → LogLocals
  log : AutoLoggerFile × Disk
  cout : Bytes

/-- The statements of `logger_writer` and of the functions that it calls. -/
inductive LogStatement
  /-- `if (oss.str().empty()) ... oss.imbue(...)` -/
  | imbue
  /-- `oss.str("")` -/
  | clear
  /-- `oss << microsec_clock::local_time()` -/
  | putTime
  /-- `s = oss.str()`, and the microseconds are cut off. -/
  | cut
  /-- `sprintf(str, "%s ", s.c_str())` -/
  | sprintf
  /-- `prefix = time_now_string() + "[" + level + "]: "` -/
  | head
  /-- Write to the file, if it is open. -/
  | write
  /-- `cout << prefix` -/
  | coutHead
  /-- `cout << message` -/
  | coutMessage
  deriving DecidableEq, Repr

/-- `%Y-%m-%d %H:%M:%S.%f` -/
def Ptime.format (now : Ptime) : Bytes :=
  decimal 4 now.date.year ++ str "-" ++ decimal 2 now.date.month ++ str "-" ++
    decimal 2 now.date.day ++ str " " ++ decimal 2 now.hours ++ str ":" ++ decimal 2 now.minutes ++
    str ":" ++ decimal 2 now.seconds ++ str "." ++ decimal 6 now.microseconds

theorem timeNowString_eq_format (now : Ptime) : timeNowString now =
    (if now.format.length > 3 then now.format.take (now.format.length - 3) else now.format) ++
      str " " :=
  rfl

namespace LoggerState

def create (log : AutoLoggerFile × Disk) : LoggerState where
  imbued := false
  oss := []
  timeStr := []
  locals _ := ⟨[], []⟩
  log := log
  cout := []

def setLocals (d : LoggerState) (i : Nat) (l : LogLocals) : LoggerState :=
  { d with locals := Function.update d.locals i l }

/-- A statement of thread `i`.  Without its facet the stream prints times by `plain`. -/
def exec (plain : Ptime → Bytes) (i : Nat) (call : LogCall) (now : Ptime) (sur : Surroundings)
    (d : LoggerState) : LogStatement → LoggerState
  | .imbue => if d.oss = [] then { d with imbued := true } else d
  | .clear => { d with oss := [] }
  | .putTime => { d with oss := d.oss ++ if d.imbued then now.format else plain now }
  | .cut =>
      let s := if d.oss.length > 3 then d.oss.take (d.oss.length - 3) else d.oss
      d.setLocals i { d.locals i with s := s }
  | .sprintf => { d with timeStr := (d.locals i).s ++ str " " }
  | .head =>
      let heading := d.timeStr ++ str "[" ++ call.level.text ++ str "]: "
      d.setLocals i { d.locals i with heading := heading }
  | .write =>
      let whole := (d.locals i).heading ++ (call.message ++ str "\n")
      if d.log.1.isOpen then { d with log := d.log.1.write d.log.2 sur whole } else d
  | .coutHead => if call.disableCout then d else { d with cout := d.cout ++ (d.locals i).heading }
  | .coutMessage =>
      if call.disableCout then d else { d with cout := d.cout ++ (call.message ++ str "\n") }

end LoggerState

/-- What goes before the message, and what is done with it. -/
def headStatements : List LogStatement := [.imbue, .clear, .putTime, .cut, .sprintf, .head]

def outputStatements : List LogStatement := [.write, .coutHead, .coutMessage]

/-- `logger_writer`, called by any number of threads. -/
def loggerThreads (plain : Ptime → Bytes) :
    Monitor (Nat × LogCall) ((Nat × LogCall) × LogStatement) (Ptime × Surroundings) Empty Empty
      LoggerState where
  body op _ := (headStatements ++ outputStatements).map fun statement => (op, statement)
  exec b answer d := (d.exec plain b.1.1 b.1.2 answer.1 answer.2 b.2, none)
  outside w _ := w.elim

def LogCall.entry (call : LogCall) (now : Ptime) : Entry := ⟨now, call.level, call.message⟩

def LogCall.printed (call : LogCall) (now : Ptime) : Bytes :=
  if call.disableCout then [] else (call.entry now).whole

variable {plain : Ptime → Bytes} {d d' e : LoggerState} {i : Nat} {call : LogCall}

/-- The stream has its facet once it has been written to. -/
def LoggerState.Ready (d : LoggerState) : Prop := d.oss ≠ [] → d.imbued = true

theorem exec_imbue (h : d.Ready) (now : Ptime) (sur : Surroundings) :
    d.exec plain i call now sur .imbue = { d with imbued := true } := by
  unfold LoggerState.exec
  by_cases hempty : d.oss = []
  · rw [if_pos hempty]
  · rw [if_neg hempty, ← h hempty]

/-- Whatever is in the statics, the call gets the time at which it reads the clock. -/
theorem headed_of_executes (hready : d.Ready)
    (h : (loggerThreads plain).Executes
      (headStatements.map fun statement => ((i, call), statement)) d e) :
    ∃ now, (e.locals i).heading ++ (call.message ++ str "\n") = (call.entry now).whole ∧
      e.log = d.log ∧ e.cout = d.cout ∧ e.Ready := by
  obtain ⟨answer₁, h⟩ := h.exists_of_cons
  obtain ⟨answer₂, h⟩ := h.exists_of_cons
  obtain ⟨answer₃, h⟩ := h.exists_of_cons
  obtain ⟨answer₄, h⟩ := h.exists_of_cons
  obtain ⟨answer₅, h⟩ := h.exists_of_cons
  obtain ⟨answer₆, h⟩ := h.exists_of_cons
  have he := h.eq_of_nil
  dsimp only [loggerThreads] at he
  rw [exec_imbue hready] at he
  subst he
  refine ⟨answer₃.1, ?_, rfl, rfl, fun _ => rfl⟩
  simp only [LoggerState.exec, LoggerState.setLocals, Function.update_self, if_true,
    List.nil_append, Entry.whole, LogCall.entry, timeNowString_eq_format]

theorem written_of_executes
    (h : (loggerThreads plain).Executes
      (outputStatements.map fun statement => ((i, call), statement)) e d') :
    ∃ sur, d'.log = (if e.log.1.isOpen then
        e.log.1.write e.log.2 sur ((e.locals i).heading ++ (call.message ++ str "\n")) else e.log) ∧
      d'.cout = (if call.disableCout then e.cout else
        e.cout ++ ((e.locals i).heading ++ (call.message ++ str "\n"))) ∧
      d'.oss = e.oss ∧ d'.imbued = e.imbued := by
  obtain ⟨answer₁, h⟩ := h.exists_of_cons
  obtain ⟨answer₂, h⟩ := h.exists_of_cons
  obtain ⟨answer₃, h⟩ := h.exists_of_cons
  have hd' := h.eq_of_nil
  dsimp only [loggerThreads] at hd'
  subst hd'
  refine ⟨answer₁.2, ?_⟩
  unfold LoggerState.exec
  by_cases hopen : e.log.1.isOpen = true <;> by_cases hcout : call.disableCout = true <;>
    simp [hopen, hcout]

theorem effect_of_executes {op : Nat × LogCall} (hready : d.Ready)
    (h : (loggerThreads plain).Executes ((loggerThreads plain).body op d) d d') :
    ∃ now sur, d'.log = loggerWriter d.log (sur, op.2.entry now) ∧
      d'.cout = d.cout ++ op.2.printed now ∧ d'.Ready := by
  have hbody : (loggerThreads plain).body op d =
      (headStatements.map fun statement => (op, statement)) ++
        outputStatements.map fun statement => (op, statement) := List.map_append
  rw [hbody] at h
  obtain ⟨e, hhead, houtput⟩ := h.exists_of_append
  obtain ⟨now, hwhole, hlog, hcout, hready'⟩ := headed_of_executes hready hhead
  obtain ⟨sur, hlog', hcout', hoss, himbued⟩ := written_of_executes houtput
  refine ⟨now, sur, ?_, ?_, ?_⟩
  · rw [hlog', hwhole, hlog]
    rfl
  · rw [hcout', hwhole, hcout]
    unfold LogCall.printed
    split
    · exact (List.append_nil _).symm
    · rfl
  · unfold LoggerState.Ready
    rw [hoss, himbued]
    exact hready'

/-! ## The log of all threads -/

variable {log : AutoLoggerFile × Disk} {t : Monitor.State (Nat × LogCall)
    ((Nat × LogCall) × LogStatement) Empty LoggerState}
  {ok : Monitor.State (Nat × LogCall) ((Nat × LogCall) × LogStatement) Empty LoggerState →
    Monitor.Action (Nat × LogCall) (Ptime × Surroundings) Empty → Prop}
  {as : List (Monitor.Action (Nat × LogCall) (Ptime × Surroundings) Empty)}

/-- A call that has been made, with the time at which it read the clock and what its write met. -/
abbrev MadeCall := (Nat × LogCall) × Ptime × Surroundings

namespace MadeCall

def entry (x : MadeCall) : Entry := x.1.2.entry x.2.1

def printed (x : MadeCall) : Bytes := x.1.2.printed x.2.1

end MadeCall

theorem logAll_of_serial {ops : List (Nat × LogCall)}
    (h : (loggerThreads plain).Serial (.create log) ops d) :
    ∃ made : List MadeCall, made.map Prod.fst = ops ∧
      d.log = logAll log (made.map fun x => (x.2.2, x.entry)) ∧
      d.cout = (made.map MadeCall.printed).flatten := by
  have hinv := h.invariant
    (I := fun ops d => d.Ready ∧ ∃ made : List MadeCall, made.map Prod.fst = ops ∧
      d.log = logAll log (made.map fun x => (x.2.2, x.entry)) ∧
      d.cout = (made.map MadeCall.printed).flatten) ?_ ⟨fun h => absurd rfl h, [], rfl, rfl, rfl⟩
  · exact hinv.2
  · rintro ops op d d' ⟨hready, made, hops, hlog, hcout⟩ hop
    obtain ⟨now, sur, hlog', hcout', hready'⟩ := effect_of_executes hready hop
    refine ⟨hready', made ++ [(op, now, sur)], ?_, ?_, ?_⟩
    · rw [List.map_append, hops]
      rfl
    · rw [hlog', hlog]
      unfold logAll
      rw [List.map_append, List.foldl_append]
      rfl
    · rw [hcout', hcout, List.map_append, List.flatten_append]
      simp [MadeCall.printed]

theorem quiet_loggerThreads (s : Monitor.State (Nat × LogCall) ((Nat × LogCall) × LogStatement)
    Empty LoggerState) (a : Monitor.Action (Nat × LogCall) (Ptime × Surroundings) Empty) :
    (loggerThreads plain).Quiet s a := by
  cases a with
  | exec i answer => exact fun _ _ _ _ _ => rfl
  | _ => trivial

/-- However the threads of a process interleave: when no call is in progress, the file reads back as
it was, and then as the calls that have returned, each of them once, in the order in which they
returned.  The console has the same lines in the same order, but for the calls that do not print. -/
theorem readLog_of_threads {logfile : Bytes} (hname : logfile ≠ []) (hstar : '*'.toUInt8 ∉ logfile)
    {sur : Surroundings} (hopens : sur.opens = true) {disk : Disk} {before : List Line}
    (hbefore : readLog ((disk logfile).getD []) = some before)
    (h : Run (loggerThreads plain).step ok (.create (.create (initLogger logfile disk sur))) as t)
    (hfree : t.owner = none) (hmessages : ∀ op ∈ t.returned, '\n'.toUInt8 ∉ op.2.message) :
    ∃ (text : Bytes) (made : List MadeCall), made.map Prod.fst = t.returned ∧
      t.data.log.2 logfile = some text ∧
      readLog text = some (before ++ .init :: made.map fun x => x.entry.line) ∧
      t.data.cout = (made.map MadeCall.printed).flatten := by
  obtain ⟨data, hserial, hdata, -⟩ := Monitor.serialized_of_run (fun w _ => w.elim) _
    (h.mono fun s a _ => quiet_loggerThreads s a)
  obtain ⟨made, hops, hlog, hcout⟩ := logAll_of_serial hserial
  have hws : ∀ w ∈ made.map (fun x => (x.2.2, x.entry)), '\n'.toUInt8 ∉ w.2.message := by
    intro w hw
    obtain ⟨x, hx, rfl⟩ := List.mem_map.mp hw
    exact hmessages x.1 (hops ▸ List.mem_map_of_mem hx)
  obtain ⟨text, htext, hread⟩ := readLog_initLogger hname hstar hopens hws hbefore
  rw [hdata hfree]
  refine ⟨text, made, hops, ?_, ?_, hcout⟩
  · rw [hlog]
    exact htext
  · rw [hread, List.map_map]
    rfl

def sameMoment : Ptime × Surroundings :=
  (.halfPastNine Logging.newYear, Logging.onDay Logging.newYear)

/-- Two threads of `main`; the second one wants to log while the first one does. -/
def twoThreads : List (Monitor.Action (Nat × LogCall) (Ptime × Surroundings) Empty) :=
  [.call 0 (0, ⟨.err, str "123456", false⟩), .lock 0, .exec 0 sameMoment,
      .call 1 (1, ⟨.err, str "12345", false⟩)] ++
    List.replicate 8 (.exec 0 sameMoment) ++ [.unlock 0, .lock 1] ++
    List.replicate 9 (.exec 1 sameMoment) ++ [.unlock 1]

theorem readLog_of_twoThreads :
    ∃ (t : _) (text : Bytes) (made : List MadeCall),
      Run (loggerThreads fun _ => []).step (fun _ _ => True)
        (.create (.create (initLogger (str "example.log") (fun _ => none) sameMoment.2)))
        twoThreads t ∧
      made.length = 2 ∧ t.data.log.2 (str "example.log") = some text ∧
      readLog text = some (.init :: made.map fun x => x.entry.line) := by
  have hrun : ∃ t, Run (loggerThreads fun _ => []).step (fun _ _ => True)
      (.create (.create (initLogger (str "example.log") (fun _ => none) sameMoment.2)))
      twoThreads t ∧ t.owner = none ∧ t.returned =
        [(0, ⟨.err, str "123456", false⟩), (1, ⟨.err, str "12345", false⟩)] :=
    exists_run_of_exec (by decide +kernel)
  obtain ⟨t, h, hfree, hreturned⟩ := hrun
  have hmessages : ∀ op ∈ t.returned, '\n'.toUInt8 ∉ op.2.message := by
    rw [hreturned]
    decide +kernel
  have hbefore : readLog ((none : Option Bytes).getD []) = some [] := rfl
  obtain ⟨text, made, hmade, htext, hread, -⟩ := readLog_of_threads
    (by decide +kernel) (by decide +kernel) rfl hbefore h hfree hmessages
  refine ⟨t, text, made, h, ?_, htext, hread⟩
  rw [← List.length_map (f := Prod.fst), hmade, hreturned]
  rfl

end BtcServer.AvRouter
