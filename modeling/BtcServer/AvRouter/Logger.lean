import BtcServer.AvRouter.AutoLoggerFile
import BtcServer.Lib.Lines

/-!
# The log

What `logging.hpp` writes for a message, and a reader of log files.  A message without a newline is
one line of the file, and every line says when, at which level and what was logged: a log that was
written through `logger_writer` is read back as it was written (`readLog_logAll`), whatever brackets
and colons the messages have.
-/

namespace BtcServer.AvRouter

open Boost Lib
open HttpmessageServer (Bytes str)

/-- `posix_time::ptime` with microseconds. -/
structure Ptime where
  date : Date
  hours : Fin 24
  minutes : Fin 60
  seconds : Fin 60
  microseconds : Fin 1000000
  deriving DecidableEq, Repr

def Ptime.halfPastNine (date : Date) : Ptime := ⟨date, 9, 30, 0, 250000⟩

def decimal (width n : Nat) : Bytes := fixedWidth Date.digit 10 width n

/-- `time_now_string`: the format is `%Y-%m-%d %H:%M:%S.%f`, and the microseconds are cut off. -/
def timeNowString (now : Ptime) : Bytes :=
  let s := decimal 4 now.date.year ++ str "-" ++ decimal 2 now.date.month ++ str "-" ++
    decimal 2 now.date.day ++ str " " ++ decimal 2 now.hours ++ str ":" ++ decimal 2 now.minutes ++
    str ":" ++ decimal 2 now.seconds ++ str "." ++ decimal 6 now.microseconds
  (if s.length > 3 then s.take (s.length - 3) else s) ++ str " "

inductive Level
  | debug
  | info
  | warn
  | err
  | file
  deriving DecidableEq, Repr

/-- `LOGGER_DEBUG_STR` and the others. -/
def Level.text : Level → Bytes
  | .debug => str "DEBUG"
  | .info => str "INFO"
  | .warn => str "WARNING"
  | .err => str "ERROR"
  | .file => str "FILE"

def levels : List Level := [.debug, .info, .warn, .err, .file]

/-- A call of `logger_writer`, with what it reads from the clock. -/
structure Entry where
  time : Ptime
  level : Level
  message : Bytes
  deriving DecidableEq, Repr

/-- `whole` in `logger_writer` -/
def Entry.whole (e : Entry) : Bytes :=
  timeNowString e.time ++ str "[" ++ e.level.text ++ str "]: " ++ (e.message ++ str "\n")

def AutoLoggerFile.isOpen (file : AutoLoggerFile) : Bool := file.mAutoMode || file.mFile.isSome

/-- `logger_writer`; what it prints on the console is left out. -/
def loggerWriter (log : AutoLoggerFile × Disk) (w : Surroundings × Entry) : AutoLoggerFile × Disk :=
  if log.1.isOpen then log.1.write log.2 w.1 w.2.whole else log

/-- `INIT_LOGGER`, for a logger that has not been used before. -/
def initLogger (logfile : Bytes) (disk : Disk) (sur : Surroundings) : AutoLoggerFile × Disk :=
  if logfile = [] then (.create, disk) else AutoLoggerFile.create.openFile disk sur logfile

def logAll (log : AutoLoggerFile × Disk) (ws : List (Surroundings × Entry)) :
    AutoLoggerFile × Disk :=
  ws.foldl loggerWriter log

/-! ## Reading a log -/

inductive Line
  | init
  | entry (stamp : Bytes) (level : Level) (message : Bytes)
  deriving DecidableEq, Repr

def initLine : Bytes := str "---------------Init---------------"

def Level.ofText (s : Bytes) : Option Level := levels.find? fun level => level.text = s

def readLine (l : Bytes) : Option Line :=
  if l = initLine then some .init
  else
    let level := (l.drop 25).takeWhile (· ≠ ']'.toUInt8)
    if (l.drop 24).head? = some '['.toUInt8 ∧ str "]: " <+: l.drop (25 + level.length) then
      (Level.ofText level).map fun lv => .entry (l.take 24) lv (l.drop (25 + level.length + 3))
    else none

def readLog (s : Bytes) : Option (List Line) :=
  (lines '\n'.toUInt8 s).bind fun ls => ls.mapM readLine

def Entry.line (e : Entry) : Line := .entry (timeNowString e.time) e.level e.message

/-- `whole` without its newline. -/
def Entry.text (e : Entry) : Bytes :=
  timeNowString e.time ++ '['.toUInt8 :: (e.level.text ++ str "]: " ++ e.message)

theorem isDecimalDigit_digit : ∀ n < 10, 48 ≤ Date.digit n ∧ Date.digit n ≤ 57 := by decide

theorem mem_decimal {width n : Nat} {b : UInt8} (h : b ∈ decimal width n) : 48 ≤ b ∧ b ≤ 57 := by
  unfold decimal at h
  induction width generalizing n with
  | zero => exact absurd h List.not_mem_nil
  | succ width ih =>
      rw [fixedWidth, List.mem_append, List.mem_singleton] at h
      rcases h with hmem | rfl
      · exact ih hmem
      · exact isDecimalDigit_digit _ (Nat.mod_lt n (by decide))

theorem timeNowString_eq (now : Ptime) : ∃ s, timeNowString now = s ++ str " " ∧ s.length = 23 ∧
    s <+: decimal 4 now.date.year ++ str "-" ++ decimal 2 now.date.month ++ str "-" ++
      decimal 2 now.date.day ++ str " " ++ decimal 2 now.hours ++ str ":" ++
      decimal 2 now.minutes ++ str ":" ++ decimal 2 now.seconds ++ str "." ++
      decimal 6 now.microseconds := by
  have hlength : (decimal 4 now.date.year ++ str "-" ++ decimal 2 now.date.month ++ str "-" ++
      decimal 2 now.date.day ++ str " " ++ decimal 2 now.hours ++ str ":" ++
      decimal 2 now.minutes ++ str ":" ++ decimal 2 now.seconds ++ str "." ++
      decimal 6 now.microseconds).length = 26 := by
    simp [decimal, str]
  unfold timeNowString
  dsimp only
  rw [hlength, if_pos (by decide)]
  refine ⟨_, rfl, ?_, List.take_prefix _ _⟩
  rw [List.length_take, hlength]
  rfl

@[simp] theorem length_timeNowString (now : Ptime) : (timeNowString now).length = 24 := by
  obtain ⟨s, heq, hlength, -⟩ := timeNowString_eq now
  rw [heq, List.length_append, hlength]
  rfl

theorem newline_not_mem_timeNowString (now : Ptime) : '\n'.toUInt8 ∉ timeNowString now := by
  obtain ⟨s, heq, -, hle⟩ := timeNowString_eq now
  rw [heq, List.mem_append]
  rintro (hmem | hmem)
  · have hall := hle.subset hmem
    simp only [List.mem_append] at hall
    have hdecimal {width n : Nat} : '\n'.toUInt8 ∉ decimal width n := fun h =>
      absurd (mem_decimal h).1 (by decide)
    have hstr : '\n'.toUInt8 ∉ str "-" ∧ '\n'.toUInt8 ∉ str " " ∧ '\n'.toUInt8 ∉ str ":" ∧
        '\n'.toUInt8 ∉ str "." := by decide
    simp only [hdecimal, hstr, or_self] at hall
  · exact absurd hmem (by decide)

/-- A time begins with a digit. -/
theorem text_ne_initLine (e : Entry) : e.text ≠ initLine := by
  intro heq
  have hlength := length_timeNowString e.time
  obtain ⟨s, htime, hs, hle⟩ := timeNowString_eq e.time
  have hhead : initLine.head? = some '-'.toUInt8 := by decide
  cases s with
  | nil => cases hs
  | cons b s =>
      have hb : b ∈ decimal 4 e.time.date.year := by
        have hfour : (decimal 4 e.time.date.year).length = 4 := by simp [decimal]
        cases hyear : decimal 4 e.time.date.year with
        | nil => rw [hyear] at hfour; cases hfour
        | cons c cs =>
            rw [hyear] at hle
            obtain ⟨rfl, -⟩ := List.cons_prefix_cons.mp hle
            exact List.mem_cons_self
      rw [← heq] at hhead
      unfold Entry.text at hhead
      rw [htime] at hhead
      obtain rfl := Option.some.inj hhead
      exact absurd (mem_decimal hb).1 (by decide)

theorem bracket_not_mem_text : ∀ level : Level, ']'.toUInt8 ∉ level.text := by
  intro level
  cases level <;> decide

theorem ofText_text (level : Level) : Level.ofText level.text = some level := by
  cases level <;> decide

theorem newline_not_mem_text {e : Entry} (h : '\n'.toUInt8 ∉ e.message) :
    '\n'.toUInt8 ∉ e.text := by
  have hlevel : '\n'.toUInt8 ∉ e.level.text := by cases e.level <;> decide
  have hstr : '\n'.toUInt8 ∉ str "]: " := by decide
  have hbracket : '\n'.toUInt8 ≠ '['.toUInt8 := by decide
  unfold Entry.text
  simp only [List.mem_append, List.mem_cons, newline_not_mem_timeNowString, hlevel, hstr, h,
    hbracket, or_self, not_false_iff]

/-- A line says what was logged, whatever the message. -/
theorem readLine_text (e : Entry) : readLine e.text = some e.line := by
  have htime := length_timeNowString e.time
  have hdrop : e.text.drop 24 = '['.toUInt8 :: (e.level.text ++ str "]: " ++ e.message) :=
    List.drop_left' htime
  have hrest : e.text.drop 25 = e.level.text ++ str "]: " ++ e.message := by
    rw [← List.drop_drop (i := 1) (j := 24), hdrop]
    rfl
  have hlevel : (e.text.drop 25).takeWhile (· ≠ ']'.toUInt8) = e.level.text := by
    have hstr : str "]: " = [']'.toUInt8, ':'.toUInt8, ' '.toUInt8] := rfl
    rw [hrest, List.append_assoc, hstr, List.takeWhile_append_of_pos]
    · simp
    · intro b hb
      exact decide_eq_true fun h => bracket_not_mem_text e.level (h ▸ hb)
  have hafter : e.text.drop (25 + e.level.text.length) = str "]: " ++ e.message := by
    rw [← List.drop_drop, hrest, List.append_assoc, List.drop_left]
  have hmessage : e.text.drop (25 + e.level.text.length + 3) = e.message := by
    rw [← List.drop_drop, hafter]
    rfl
  unfold readLine
  dsimp only
  rw [if_neg (text_ne_initLine e), hlevel, if_pos, ofText_text, hmessage]
  · have htake : e.text.take 24 = timeNowString e.time := List.take_left' htime
    rw [htake]
    rfl
  · rw [hdrop, hafter]
    exact ⟨rfl, List.prefix_append _ _⟩

theorem readLog_append {s t : Bytes} {ls ms : List Line} (hs : readLog s = some ls)
    (ht : readLog t = some ms) : readLog (s ++ t) = some (ls ++ ms) := by
  obtain ⟨sls, hsls, hs⟩ := Option.bind_eq_some_iff.mp hs
  obtain ⟨tls, htls, ht⟩ := Option.bind_eq_some_iff.mp ht
  unfold readLog
  rw [lines_append hsls htls, Option.bind_some, List.mapM_append, hs, ht]
  rfl

theorem readLog_initString : readLog AutoLoggerFile.initString = some [.init] := by decide +kernel

theorem readLog_whole {e : Entry} (h : '\n'.toUInt8 ∉ e.message) :
    readLog e.whole = some [e.line] := by
  have hwhole : e.whole = unlines '\n'.toUInt8 [e.text] := by
    have hnewline : str "\n" = ['\n'.toUInt8] := rfl
    have hopen : str "[" = ['['.toUInt8] := rfl
    unfold Entry.whole Entry.text unlines
    rw [hnewline, hopen]
    simp
  unfold readLog
  rw [hwhole, lines_unlines (List.forall_mem_singleton.mpr (newline_not_mem_text h))]
  rw [Option.bind_some, List.mapM_cons, readLine_text]
  rfl

/-! ## Writing a log -/

theorem loggerWriter_of_open {file : AutoLoggerFile} {name : Bytes} (hauto : file.mAutoMode = false)
    (hfile : file.mFile = some name) (disk : Disk) (w : Surroundings × Entry) :
    loggerWriter (file, disk) w = (file, disk.append name w.2.whole) := by
  unfold loggerWriter AutoLoggerFile.isOpen AutoLoggerFile.write
  simp [hauto, hfile]

theorem readLog_logAll {file : AutoLoggerFile} {name text : Bytes} {before : List Line}
    (hauto : file.mAutoMode = false) (hfile : file.mFile = some name)
    {ws : List (Surroundings × Entry)} (hws : ∀ w ∈ ws, '\n'.toUInt8 ∉ w.2.message) {disk : Disk}
    (htext : disk name = some text) (hbefore : readLog text = some before) :
    ∃ text', (logAll (file, disk) ws).2 name = some text' ∧
      readLog text' = some (before ++ ws.map fun w => w.2.line) := by
  induction ws generalizing disk text before with
  | nil =>
      refine ⟨text, htext, ?_⟩
      rw [hbefore]
      simp
  | cons w ws ih =>
      have hnow : readLog (text ++ w.2.whole) = some (before ++ [w.2.line]) :=
        readLog_append hbefore (readLog_whole (hws w List.mem_cons_self))
      have hdisk : (disk.append name w.2.whole) name = some (text ++ w.2.whole) := by
        unfold Disk.append
        rw [Function.update_self, htext]
        rfl
      obtain ⟨text', htext', hread⟩ :=
        ih (fun v hv => hws v (List.mem_cons_of_mem _ hv)) hdisk hnow
      refine ⟨text', ?_, ?_⟩
      · unfold logAll at htext' ⊢
        rw [List.foldl_cons, loggerWriter_of_open hauto hfile]
        exact htext'
      · rw [hread, List.append_assoc]
        rfl

theorem readLog_initLogger {logfile : Bytes} (hname : logfile ≠ []) (hstar : '*'.toUInt8 ∉ logfile)
    {sur : Surroundings} (hopens : sur.opens = true) {ws : List (Surroundings × Entry)}
    (hws : ∀ w ∈ ws, '\n'.toUInt8 ∉ w.2.message) {disk : Disk} {before : List Line}
    (hbefore : readLog ((disk logfile).getD []) = some before) :
    ∃ text, (logAll (initLogger logfile disk sur) ws).2 logfile = some text ∧
      readLog text = some (before ++ .init :: ws.map fun w => w.2.line) := by
  have hinit : initLogger logfile disk sur =
      ({ AutoLoggerFile.create with mFile := some logfile },
        (disk.open logfile).append logfile AutoLoggerFile.initString) := by
    unfold initLogger AutoLoggerFile.openFile
    rw [if_neg hname, if_neg hstar, if_pos hopens]
    rfl
  have hdisk : ((disk.open logfile).append logfile AutoLoggerFile.initString) logfile =
      some ((disk logfile).getD [] ++ AutoLoggerFile.initString) := by
    unfold Disk.append Disk.open
    rw [Function.update_self, Function.update_self]
    rfl
  rw [hinit]
  have hauto : { AutoLoggerFile.create with mFile := some logfile }.mAutoMode = false := rfl
  obtain ⟨text, htext, hread⟩ :=
    readLog_logAll hauto rfl hws hdisk (readLog_append hbefore readLog_initString)
  refine ⟨text, htext, ?_⟩
  rw [hread, List.append_assoc]
  rfl

end BtcServer.AvRouter
