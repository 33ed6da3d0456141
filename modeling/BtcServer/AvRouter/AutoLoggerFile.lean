import BtcServer.Boost.Gregorian
import BtcServer.Lib.Retention
import BtcServer.Lib.Run
import Mathlib.Data.List.Sort

/-!
# Log files

`auto_logger_file` of `logging.hpp`.  With a `*` in the name it was opened with, it writes one file
for each day and keeps the `AVROUTER_LOG_FILE_NUM` files whose names are the greatest.  What the
directory holds after any run is said by `disk_of_run`, whatever the clock shows; which day a
message is filed under depends on the clock, and `filed_of_run` says when it is the right one.
-/

namespace BtcServer.AvRouter

open Boost Lib
open HttpmessageServer (Bytes str)

/-- `AVROUTER_LOG_FILE_NUM` -/
def logFileNum : Nat := 3

/-- The contents of the files that exist. -/
abbrev Disk := Bytes → Option Bytes

/-- `m_file` is given by the name of the file that it has open, the streams of `m_log_list`, a map
from names, by whether they are open. -/
structure AutoLoggerFile where
  mFile : Option Bytes
  mAutoMode : Bool
  mLogPath : Bytes
  mLogList : List (Bytes × Bool)
  mLastDay : Option Date
  mLastFilename : Bytes
  deriving DecidableEq

/-- What a write meets: the two readings of the clock, and whether the file system opens the file
and removes the one that is to go. -/
structure Surroundings where
  now : Date × Date
  opens : Bool
  removes : Bool
  deriving DecidableEq

/-- `path / name` -/
def joinPath (path name : Bytes) : Bytes :=
  if path = [] ∨ path.getLast? = some '/'.toUInt8 then path ++ name
  else path ++ str "/" ++ name

def filename (path : Bytes) (d : Date) : Bytes := joinPath path (d.format ++ str ".log")

def Disk.append (disk : Disk) (name data : Bytes) : Disk :=
  Function.update disk name ((disk name).map (· ++ data))

/-- Open a file for appending, which creates it. -/
def Disk.open (disk : Disk) (name : Bytes) : Disk :=
  Function.update disk name (some ((disk name).getD []))

def Disk.remove (disk : Disk) (name : Bytes) : Disk := Function.update disk name none

namespace AutoLoggerFile

def create : AutoLoggerFile where
  mFile := none
  mAutoMode := false
  mLogPath := []
  mLogList := []
  mLastDay := none
  mLastFilename := []

/-- `make_filename`: the name of the last file serves as long as the day of the month is the same;
else the clock is read once more for the new name. -/
def makeFilename (file : AutoLoggerFile) (path : Bytes) (now : Date × Date) :
    AutoLoggerFile × Bytes :=
  if file.mLastDay.map Date.day = some now.1.day then (file, file.mLastFilename)
  else
    ({ file with mLastDay := some now.1, mLastFilename := filename path now.2 },
      filename path now.2)

/-- A file is opened and comes into the list; when the list gets too long its first one is closed
and removed.  The last component is whether the new stream is still open. -/
def openLog (file : AutoLoggerFile) (disk : Disk) (sur : Surroundings) (name : Bytes) :
    AutoLoggerFile × Disk × Bool :=
  let disk := if sur.opens then disk.open name else disk
  match insertKey (name, sur.opens) file.mLogList with
  | [] => (file, disk, sur.opens)
  | first :: logs =>
      if (first :: logs).length > logFileNum then
        ({ file with mLogList := logs }, if sur.removes then disk.remove first.1 else disk,
          sur.opens && first.1 ≠ name)
      else ({ file with mLogList := first :: logs }, disk, sur.opens)

def write (file : AutoLoggerFile) (disk : Disk) (sur : Surroundings) (data : Bytes) :
    AutoLoggerFile × Disk :=
  if file.mAutoMode then
    let named := file.makeFilename file.mLogPath sur.now
    match named.1.mLogList.lookup named.2 with
    | some isOpen => (named.1, if isOpen then disk.append named.2 data else disk)
    | none =>
        let opened := named.1.openLog disk sur named.2
        (opened.1, if opened.2.2 then opened.2.1.append named.2 data else opened.2.1)
  else
    match file.mFile with
    | some name => (file, disk.append name data)
    | none => (file, disk)

def initString : Bytes := str "---------------Init---------------\n"

/-- `open`, for a stream that has not been opened before: with a `*` in the name, what stands before
it is the directory of the log files. -/
def openFile (file : AutoLoggerFile) (disk : Disk) (sur : Surroundings) (name : Bytes) :
    AutoLoggerFile × Disk :=
  if '*'.toUInt8 ∈ name then
    let path := name.takeWhile (· ≠ '*'.toUInt8)
    let file := { file with mAutoMode := true }
    if path.length > 65536 then (file, disk)
    else { file with mLogPath := path }.write disk sur initString
  else
    let file := { file with mAutoMode := false }
    if sur.opens then
      { file with mFile := some name }.write (disk.open name) sur initString
    else file.write disk sur initString

def names (file : AutoLoggerFile) : List Bytes := file.mLogList.map Prod.fst

end AutoLoggerFile

/-- What `openLog` does where nothing fails: it is a cache of names, and the file whose name falls
out of it is gone. -/
structure Opened (file : AutoLoggerFile) (disk : Disk) (name : Bytes)
    (out : AutoLoggerFile × Disk × Bool) : Prop where
  names_eq : out.1.names = keep logFileNum file.names name
  open_eq : ∀ log ∈ out.1.mLogList, log.2 = true
  autoMode_eq : out.1.mAutoMode = file.mAutoMode
  isOpen_iff : out.2.2 = true ↔ name ∈ out.1.names
  gone : ∀ n, (n = name ∨ n ∈ file.names) → n ∉ out.1.names → out.2.1 n = none
  stays : ∀ n, ((n = name ∨ n ∈ file.names) → n ∈ out.1.names) → out.2.1 n = disk.open name n

namespace AutoLoggerFile

variable {file : AutoLoggerFile} {sur : Surroundings} {name : Bytes}

theorem opened_openLog (disk : Disk) (hsorted : file.names.Pairwise (· < ·))
    (hname : name ∉ file.names)
    (hopen : ∀ log ∈ file.mLogList, log.2 = true) (hopens : sur.opens = true)
    (hremoves : sur.removes = true) : Opened file disk name (file.openLog disk sur name) := by
  have hkeys : (insertKey (name, true) file.mLogList).map Prod.fst =
      file.names.orderedInsert (· ≤ ·) name := keys_insertKey ..
  have hstrict := sorted_orderedInsert hsorted hname
  have hkeep : keep logFileNum file.names name =
      if logFileNum < (file.names.orderedInsert (· ≤ ·) name).length then
        (file.names.orderedInsert (· ≤ ·) name).tail
      else file.names.orderedInsert (· ≤ ·) name := if_neg hname
  have hmem (n : Bytes) : n ∈ file.names.orderedInsert (· ≤ ·) name ↔ n = name ∨ n ∈ file.names :=
    List.mem_orderedInsert ..
  have hall : ∀ log ∈ insertKey (name, true) file.mLogList, log.2 = true := by
    intro log hlog
    rcases mem_insertKey.mp hlog with rfl | hlog
    · rfl
    · exact hopen log hlog
  unfold openLog
  simp only [hopens, hremoves, if_true, Bool.true_and]
  cases hinserted : insertKey (name, true) file.mLogList with
  | nil =>
      rw [hinserted] at hkeys
      exact absurd ((hmem name).mpr (.inl rfl)) (by rw [← hkeys]; exact List.not_mem_nil)
  | cons first logs =>
      rw [hinserted] at hkeys hall
      rw [← hkeys] at hkeep hstrict hmem
      have hlength : ((first :: logs).map Prod.fst).length = (first :: logs).length :=
        List.length_map ..
      rw [hlength] at hkeep
      dsimp only
      by_cases hlong : (first :: logs).length > logFileNum
      · rw [if_pos hlong] at hkeep ⊢
        have hfirst (n : Bytes) : (n = name ∨ n ∈ file.names) ∧ n ∉ logs.map Prod.fst ↔
            n = first.1 := by
          rw [← hmem, List.map_cons, List.mem_cons]
          constructor
          · rintro ⟨hn | hn, hnot⟩
            · exact hn
            · exact absurd hn hnot
          · rintro rfl
            refine ⟨.inl rfl, fun hmem => ?_⟩
            exact lt_irrefl _ ((List.pairwise_cons.mp hstrict).1 _ hmem)
        exact {
          names_eq := hkeep.symm
          open_eq := fun log hlog => hall log (List.mem_cons_of_mem _ hlog)
          autoMode_eq := rfl
          isOpen_iff := by
            change decide (first.1 ≠ name) = true ↔ name ∈ logs.map Prod.fst
            rw [decide_eq_true_eq, ne_comm, ne_eq, ← hfirst, not_and, not_not]
            exact ⟨fun h => h (.inl rfl), fun h _ => h⟩
          gone := fun n hin hnot => by
            rw [(hfirst n).mp ⟨hin, hnot⟩]
            exact Function.update_self ..
          stays := fun n hkept => by
            have hn : n ≠ first.1 := fun hn => ((hfirst n).mpr hn).2 (hkept ((hfirst n).mpr hn).1)
            exact Function.update_of_ne hn .. }
      · rw [if_neg hlong] at hkeep ⊢
        exact {
          names_eq := hkeep.symm
          open_eq := hall
          autoMode_eq := rfl
          isOpen_iff := ⟨fun _ => (hmem name).mpr (.inl rfl), fun _ => rfl⟩
          gone := fun n hin hnot => absurd ((hmem n).mpr hin) hnot
          stays := fun _ _ => rfl }

end AutoLoggerFile

/-- The logger with its disk, and what has been filed under which name, which nothing reads. -/
structure Logging where
  file : AutoLoggerFile
  disk : Disk
  filed : List (Bytes × Bytes)

namespace Logging

def step (s : Logging) (a : Surroundings × Bytes) : Option Logging :=
  some {
    file := (s.file.write s.disk a.1 a.2).1
    disk := (s.file.write s.disk a.1 a.2).2
    filed := s.filed ++ [((s.file.makeFilename s.file.mLogPath a.1.now).2, a.2)] }

/-- The file system opens and removes what it is asked to. -/
def Works (_ : Logging) (a : Surroundings × Bytes) : Prop := a.1.opens = true ∧ a.1.removes = true

instance (s : Logging) (a : Surroundings × Bytes) : Decidable (Works s a) :=
  inferInstanceAs (Decidable (_ ∧ _))

/-- The list is a cache of the names that were used, and the disk holds what that retains. -/
structure Inv (disk : Disk) (s : Logging) : Prop where
  autoMode_eq : s.file.mAutoMode = true
  sorted : s.file.names.Pairwise (· < ·)
  open_eq : ∀ log ∈ s.file.mLogList, log.2 = true
  mem_names : ∀ n, n ∈ s.file.names ↔ n ∈ greatest logFileNum (namesOf s.filed)
  disk_eq : ∀ n, s.disk n = retained logFileNum disk s.filed n

variable {disk : Disk} {s t : Logging} {sur : Surroundings} {data : Bytes}

theorem Inv.exists_disk (h : Inv disk s) {n : Bytes} (hn : n ∈ s.file.names) :
    ∃ old, s.disk n = some old := by
  have hkept := (h.mem_names n).mp hn
  rw [h.disk_eq]
  unfold retained
  rw [if_pos (greatest_subset _ _ hkept), if_pos hkept]
  exact ⟨_, rfl⟩

theorem Inv.append (h : Inv disk s) {file : AutoLoggerFile} {fn : Bytes} (hfn : fn ∈ s.file.names)
    (hlist : file.mLogList = s.file.mLogList) (hauto : file.mAutoMode = true) :
    Inv disk ⟨file, s.disk.append fn data, s.filed ++ [(fn, data)]⟩ := by
  have hnames : file.names = s.file.names := congrArg (List.map Prod.fst) hlist
  have hkeep : keep logFileNum s.file.names fn = s.file.names := if_pos hfn
  have hmem (n : Bytes) : n ∈ s.file.names ↔
      n ∈ greatest logFileNum (namesOf (s.filed ++ [(fn, data)])) := by
    rw [← mem_keep_namesOf h.sorted h.mem_names, hkeep]
  obtain ⟨old, hold⟩ := h.exists_disk hfn
  exact {
    autoMode_eq := hauto
    sorted := by
      rw [hnames]
      exact h.sorted
    open_eq := by
      rw [hlist]
      exact h.open_eq
    mem_names := by
      rw [hnames]
      exact hmem
    disk_eq := fun n => by
      change Disk.append s.disk fn data n = _
      unfold Disk.append
      by_cases hn : n = fn
      · rw [hn, Function.update_self, hold, retained_self ((hmem fn).mp hfn), ← h.disk_eq, hold]
        rfl
      · rw [Function.update_of_ne hn, retained_of_ne hn, h.disk_eq, if_neg]
        rintro ⟨hwas, hgone⟩
        exact hgone ((hmem n).mp ((h.mem_names n).mpr hwas)) }

theorem Inv.opened (h : Inv disk s) {file : AutoLoggerFile} {fn : Bytes}
    {out : AutoLoggerFile × Disk × Bool} (hnames : file.names = s.file.names)
    (hauto : file.mAutoMode = true)
    (hout : Opened file s.disk fn out) :
    Inv disk ⟨out.1, if out.2.2 then out.2.1.append fn data else out.2.1,
      s.filed ++ [(fn, data)]⟩ := by
  have hmem (n : Bytes) : n ∈ out.1.names ↔
      n ∈ greatest logFileNum (namesOf (s.filed ++ [(fn, data)])) := by
    rw [← mem_keep_namesOf h.sorted h.mem_names, hout.names_eq, hnames]
  have hother {n : Bytes} (hn : n ≠ fn) :
      out.2.1 n = retained logFileNum disk (s.filed ++ [(fn, data)]) n := by
    rw [retained_of_ne hn, ← h.disk_eq]
    split_ifs with hgone
    · have hwas : n ∈ file.names := by
        rw [hnames]
        exact (h.mem_names n).mpr hgone.1
      exact hout.gone n (.inr hwas) fun hkept => hgone.2 ((hmem n).mp hkept)
    · have hkept (hin : n = fn ∨ n ∈ file.names) : n ∈ out.1.names := by
        rw [hnames] at hin
        by_contra hnot
        exact hgone ⟨(h.mem_names n).mp (hin.resolve_left hn), fun hnew => hnot ((hmem n).mpr hnew)⟩
      rw [hout.stays n hkept]
      exact Function.update_of_ne hn ..
  exact {
    autoMode_eq := hout.autoMode_eq.trans hauto
    sorted := by
      rw [hout.names_eq, hnames]
      exact sorted_keep h.sorted ..
    open_eq := hout.open_eq
    mem_names := hmem
    disk_eq := fun n => by
      dsimp only
      split_ifs with hkept
      · have hfnKept := hout.isOpen_iff.mp hkept
        unfold Disk.append
        by_cases hn : n = fn
        · rw [hn, Function.update_self, hout.stays fn fun _ => hfnKept,
            retained_self ((hmem fn).mp hfnKept), ← h.disk_eq]
          unfold Disk.open
          rw [Function.update_self]
          rfl
        · rw [Function.update_of_ne hn]
          exact hother hn
      · have hfnGone := fun hmem => hkept (hout.isOpen_iff.mpr hmem)
        by_cases hn : n = fn
        · rw [hn, hout.gone fn (.inl rfl) hfnGone,
            retained_self_of_notMem fun h => hfnGone ((hmem fn).mpr h)]
        · exact hother hn }

theorem mem_names_iff_lookup {file : AutoLoggerFile} {fn : Bytes} :
    fn ∈ file.names ↔ ∃ isOpen, file.mLogList.lookup fn = some isOpen := by
  unfold AutoLoggerFile.names
  rw [← Option.isSome_iff_exists, List.lookup_isSome_iff]
  simp

theorem mem_of_lookup {fn : Bytes} {isOpen : Bool} {logs : List (Bytes × Bool)}
    (h : logs.lookup fn = some isOpen) : (fn, isOpen) ∈ logs := by
  obtain ⟨l₁, l₂, rfl, -⟩ := List.lookup_eq_some_iff.mp h
  simp

theorem Inv.step (h : Inv disk s) {a : Surroundings × Bytes} (hworks : Works s a)
    (hstep : step s a = some t) : Inv disk t := by
  obtain ⟨sur, data⟩ := a
  obtain rfl := Option.some.inj hstep
  obtain ⟨named, hnamed⟩ : ∃ named, named = s.file.makeFilename s.file.mLogPath sur.now := ⟨_, rfl⟩
  have hlist : named.1.mLogList = s.file.mLogList := by
    rw [hnamed]
    unfold AutoLoggerFile.makeFilename
    split_ifs <;> rfl
  have hauto : named.1.mAutoMode = true := by
    rw [← h.autoMode_eq, hnamed]
    unfold AutoLoggerFile.makeFilename
    split_ifs <;> rfl
  have hnames : named.1.names = s.file.names := congrArg (List.map Prod.fst) hlist
  unfold AutoLoggerFile.write
  simp only [h.autoMode_eq, if_true, ← hnamed]
  cases hlookup : named.1.mLogList.lookup named.2 with
  | some isOpen =>
      have hopen : isOpen = true := h.open_eq _ (hlist ▸ mem_of_lookup hlookup)
      rw [hopen]
      refine h.append ?_ hlist hauto
      rw [← hnames]
      exact mem_names_iff_lookup.mpr ⟨isOpen, hlookup⟩
  | none =>
      have hnot : named.2 ∉ named.1.names := by
        rw [mem_names_iff_lookup, hlookup]
        rintro ⟨isOpen, h⟩
        cases h
      have hout := AutoLoggerFile.opened_openLog s.disk (hnames ▸ h.sorted) hnot
        (hlist ▸ h.open_eq) hworks.1 hworks.2
      exact h.opened hnames hauto hout

theorem filed_eq_of_step {a : Surroundings × Bytes} (hstep : step s a = some t) :
    t.filed = s.filed ++ [((s.file.makeFilename s.file.mLogPath a.1.now).2, a.2)] := by
  obtain rfl := Option.some.inj hstep
  rfl

theorem filed_snd_of_run {ok : Logging → Surroundings × Bytes → Prop}
    {as : List (Surroundings × Bytes)} (h : Run step ok s as t) :
    t.filed.map Prod.snd = s.filed.map Prod.snd ++ as.map Prod.snd := by
  induction h with
  | nil => exact (List.append_nil _).symm
  | cons _ hstep _ ih =>
      rw [ih, filed_eq_of_step hstep]
      simp

/-- `AUTO_LOGGER`, for a logger that has not been used before. -/
def autoLogger (path : Bytes) (disk : Disk) (sur : Surroundings) : Logging where
  file := (AutoLoggerFile.create.openFile disk sur (path ++ str "*")).1
  disk := (AutoLoggerFile.create.openFile disk sur (path ++ str "*")).2
  filed := [(filename path sur.now.2, AutoLoggerFile.initString)]

def unwritten (path : Bytes) (disk : Disk) : Logging where
  file := { AutoLoggerFile.create with mAutoMode := true, mLogPath := path }
  disk := disk
  filed := []

/-- The name of the directory can be taken from what `AUTO_LOGGER` makes of it, and `save_path` has
room for a NUL behind it. -/
def ValidPath (path : Bytes) : Prop := '*'.toUInt8 ∉ path ∧ path.length < 65536

theorem step_unwritten {path : Bytes} (hpath : ValidPath path) (disk : Disk) (sur : Surroundings) :
    step (unwritten path disk) (sur, AutoLoggerFile.initString) =
      some (autoLogger path disk sur) := by
  have hstar : str "*" = ['*'.toUInt8] := rfl
  have htake : (path ++ str "*").takeWhile (· ≠ '*'.toUInt8) = path := by
    rw [hstar, List.takeWhile_append_of_pos]
    · simp
    · intro c hc
      exact decide_eq_true fun h => hpath.1 (h ▸ hc)
  have hopen : AutoLoggerFile.create.openFile disk sur (path ++ str "*") =
      (unwritten path disk).file.write disk sur AutoLoggerFile.initString := by
    unfold AutoLoggerFile.openFile
    rw [if_pos (by rw [hstar]; simp)]
    simp only [htake]
    rw [if_neg (Nat.not_lt.mpr hpath.2.le)]
    rfl
  unfold step autoLogger
  rw [hopen]
  rfl

theorem inv_unwritten (path : Bytes) (disk : Disk) : Inv disk (unwritten path disk) where
  autoMode_eq := rfl
  sorted := .nil
  open_eq := nofun
  mem_names n := by
    have hempty : namesOf ([] : List (Bytes × Bytes)) = ∅ := rfl
    rw [show (unwritten path disk).filed = [] from rfl, hempty]
    exact ⟨nofun, fun h => absurd (greatest_subset _ _ h) (Finset.notMem_empty n)⟩
  disk_eq n := (if_neg (Finset.notMem_empty n)).symm

/-- Whatever the clock shows, everything is filed in the order in which it is written, and the
directory holds of that what is kept of the names that were used. -/
theorem disk_of_run {path : Bytes} {as : List (Surroundings × Bytes)} (hpath : ValidPath path)
    (hopens : sur.opens = true) (hremoves : sur.removes = true)
    (h : Run step Works (autoLogger path disk sur) as t) :
    t.filed.map Prod.snd = AutoLoggerFile.initString :: as.map Prod.snd ∧
      ∀ name, t.disk name = retained logFileNum disk t.filed name := by
  have hstart : Inv disk (autoLogger path disk sur) :=
    (inv_unwritten path disk).step ⟨hopens, hremoves⟩ (step_unwritten hpath disk sur)
  exact ⟨filed_snd_of_run h,
    (h.invariant (fun _ _ _ hworks hstep hs => hs.step hworks hstep) hstart).disk_eq⟩

def january (day : Nat) (h : Date.Valid 2024 1 day) : Date := .ofYmd 2024 1 day h

def newYear : Date := january 1 (by decide)

def onDay (d : Date) : Surroundings := ⟨(d, d), true, true⟩

/-- On the fourth day the file of the first one goes. -/
theorem disk_of_four_days :
    ∃ t, Run step Works (autoLogger (str ".") (fun _ => none) (onDay (january 1 (by decide))))
        [(onDay (january 2 (by decide)), str "b\n"), (onDay (january 3 (by decide)), str "c\n"),
          (onDay (january 4 (by decide)), str "d\n")] t ∧
      t.disk (filename (str ".") (january 1 (by decide))) = none ∧
      ∀ name, t.disk name = retained logFileNum (fun _ => none) t.filed name := by
  have hrun : ∃ t, Run step Works
      (autoLogger (str ".") (fun _ => none) (onDay (january 1 (by decide))))
      [(onDay (january 2 (by decide)), str "b\n"), (onDay (january 3 (by decide)), str "c\n"),
        (onDay (january 4 (by decide)), str "d\n")] t ∧
      t.disk (filename (str ".") (january 1 (by decide))) = none :=
    exists_run_of_exec (by decide +kernel)
  obtain ⟨t, hrun, hgone⟩ := hrun
  exact ⟨t, hrun, hgone, (disk_of_run ⟨by decide, by decide⟩ rfl rfl hrun).2⟩

end Logging

end BtcServer.AvRouter
