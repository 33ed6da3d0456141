import BtcServer.AvRouter.AutoLoggerFile

/-!
# One file for each day

`make_filename` takes the name of the last file as long as the day of the month is the same.  While
the logger is used at least every 27 days this files every message under its day, and since the names
stand in the order of the days, the directory holds the last `AVROUTER_LOG_FILE_NUM` days.
-/

namespace BtcServer.AvRouter

open Boost Lib
open HttpmessageServer (Bytes str)

theorem joinPath_lt_iff {path n m : Bytes} : joinPath path n < joinPath path m ↔ n < m := by
  unfold joinPath
  split_ifs
  · rw [append_lt_append_iff rfl]
    simp
  · rw [append_lt_append_iff rfl]
    simp

theorem strictMono_filename (path : Bytes) : StrictMono (filename path) := by
  intro d e hde
  unfold filename
  rw [joinPath_lt_iff, append_lt_append_iff (by rw [Date.length_format, Date.length_format])]
  exact .inl (Date.format_lt_iff.mpr hde)

/-- The clock never goes back, and the first readings of two successive writes are less than 28 days
apart; the last write before the list read `d` and `e`. -/
def Steady : Date → Date → List (Surroundings × Bytes) → Prop
  | _, _, [] => True
  | d, e, a :: as =>
      (∃ k < 28, Date.DaysLater k d a.1.now.1) ∧ e ≤ a.1.now.1 ∧ a.1.now.1 ≤ a.1.now.2 ∧
        Steady a.1.now.1 a.1.now.2 as

/-- A message and the day it is filed under, which lies between the readings of the clock. -/
def FiledOn (a : Surroundings × Bytes) (entry : Date × Bytes) : Prop :=
  a.1.now.1 ≤ entry.1 ∧ entry.1 ≤ a.1.now.2 ∧ entry.2 = a.2

/-- The last file is the one of the day, or of the next one when the day changed between the two
readings. -/
structure Logging.Current (path : Bytes) (d e : Date) (s : Logging) : Prop where
  path_eq : s.file.mLogPath = path
  lastDay_eq : s.file.mLastDay = some d
  lastFilename_eq : ∃ f, s.file.mLastFilename = filename path f ∧ d ≤ f ∧ f ≤ e

namespace Logging

variable {path : Bytes} {d e : Date} {s t : Logging} {a : Surroundings × Bytes}

theorem write_remembers {file : AutoLoggerFile} (hauto : file.mAutoMode = true) (disk : Disk)
    (sur : Surroundings) (data : Bytes) :
    (file.write disk sur data).1.mAutoMode = true ∧
      (file.write disk sur data).1.mLogPath = file.mLogPath ∧
      (file.write disk sur data).1.mLastDay =
        (file.makeFilename file.mLogPath sur.now).1.mLastDay ∧
      (file.write disk sur data).1.mLastFilename =
        (file.makeFilename file.mLogPath sur.now).1.mLastFilename := by
  have hnamed : (file.makeFilename file.mLogPath sur.now).1.mAutoMode = true ∧
      (file.makeFilename file.mLogPath sur.now).1.mLogPath = file.mLogPath := by
    unfold AutoLoggerFile.makeFilename
    split_ifs <;> exact ⟨hauto, rfl⟩
  have hopenLog (f : AutoLoggerFile) (name : Bytes) :
      (f.openLog disk sur name).1.mAutoMode = f.mAutoMode ∧
        (f.openLog disk sur name).1.mLogPath = f.mLogPath ∧
        (f.openLog disk sur name).1.mLastDay = f.mLastDay ∧
        (f.openLog disk sur name).1.mLastFilename = f.mLastFilename := by
    unfold AutoLoggerFile.openLog
    dsimp only
    split
    · exact ⟨rfl, rfl, rfl, rfl⟩
    · split_ifs <;> exact ⟨rfl, rfl, rfl, rfl⟩
  unfold AutoLoggerFile.write
  simp only [hauto, if_true]
  split
  · exact ⟨hnamed.1, hnamed.2, rfl, rfl⟩
  · obtain ⟨hmode, hlog, hday, hname⟩ := hopenLog (file.makeFilename file.mLogPath sur.now).1
      (file.makeFilename file.mLogPath sur.now).2
    exact ⟨hmode.trans hnamed.1, hlog.trans hnamed.2, hday, hname⟩

theorem current_of_changed (hauto : s.file.mAutoMode = true) (hpath : s.file.mLogPath = path)
    (hchanged : s.file.mLastDay.map Date.day ≠ some a.1.now.1.day) (hle : a.1.now.1 ≤ a.1.now.2)
    (hstep : step s a = some t) :
    Current path a.1.now.1 a.1.now.2 t ∧
      t.filed = s.filed ++ [(filename path a.1.now.2, a.2)] := by
  have hfiled := filed_eq_of_step hstep
  have hname : s.file.makeFilename s.file.mLogPath a.1.now =
      ({ s.file with mLastDay := some a.1.now.1, mLastFilename := filename path a.1.now.2 },
        filename path a.1.now.2) := by
    rw [hpath]
    exact if_neg hchanged
  obtain ⟨-, hlog, hday, hlast⟩ := write_remembers hauto s.disk a.1 a.2
  rw [hname] at hday hlast hfiled
  obtain rfl := Option.some.inj hstep
  exact ⟨⟨hlog.trans hpath, hday, a.1.now.2, hlast, hle, le_refl _⟩, hfiled⟩

/-- Every write of a steady clock is filed under its day. -/
theorem Current.step (h : Current path d e s) (hauto : s.file.mAutoMode = true)
    (hgap : ∃ k < 28, Date.DaysLater k d a.1.now.1) (hback : e ≤ a.1.now.1)
    (hle : a.1.now.1 ≤ a.1.now.2) (hstep : Logging.step s a = some t) :
    Current path a.1.now.1 a.1.now.2 t ∧
      ∃ entry, FiledOn a entry ∧ t.filed = s.filed ++ [Prod.map (filename path) id entry] := by
  by_cases hsame : s.file.mLastDay.map Date.day = some a.1.now.1.day
  · obtain ⟨k, hk, hlater⟩ := hgap
    have hday : a.1.now.1 = d := by
      rw [h.lastDay_eq] at hsame
      exact hlater.eq_of_day_eq hk (Option.some.inj hsame).symm
    obtain ⟨f, hf, hdf, hfe⟩ := h.lastFilename_eq
    have hfd : f = d := le_antisymm (hfe.trans (hday ▸ hback)) hdf
    have hname : s.file.makeFilename s.file.mLogPath a.1.now = (s.file, filename path d) := by
      rw [← hfd, ← hf]
      exact if_pos hsame
    have hfiled := filed_eq_of_step hstep
    obtain ⟨-, hlog, hlastDay, hlast⟩ := write_remembers hauto s.disk a.1 a.2
    rw [hname] at hlastDay hlast hfiled
    obtain rfl := Option.some.inj hstep
    refine ⟨⟨hlog.trans h.path_eq, ?_, f, hlast.trans hf, ?_, ?_⟩, (d, a.2), ?_, hfiled⟩
    · rw [hday]
      exact hlastDay.trans h.lastDay_eq
    · rw [hday]
      exact hdf
    · exact (hfd.trans hday.symm).le.trans hle
    · exact ⟨hday.le, hday.ge.trans hle, rfl⟩
  · obtain ⟨hcurrent, hfiled⟩ := current_of_changed hauto h.path_eq hsame hle hstep
    exact ⟨hcurrent, (a.1.now.2, a.2), ⟨hle, le_refl _, rfl⟩, hfiled⟩

theorem mAutoMode_of_step (hauto : s.file.mAutoMode = true) (hstep : Logging.step s a = some t) :
    t.file.mAutoMode = true := by
  obtain rfl := Option.some.inj hstep
  exact (write_remembers hauto s.disk a.1 a.2).1

theorem filed_of_run {as : List (Surroundings × Bytes)} {ok : Logging → Surroundings × Bytes → Prop}
    (h : Current path d e s) (hauto : s.file.mAutoMode = true) (hsteady : Steady d e as)
    (hrun : Run Logging.step ok s as t) :
    ∃ entries, List.Forall₂ FiledOn as entries ∧
      t.filed = s.filed ++ entries.map (Prod.map (filename path) id) := by
  induction hrun generalizing d e with
  | nil => exact ⟨[], .nil, (List.append_nil _).symm⟩
  | cons _ hstep _ ih =>
      obtain ⟨hgap, hback, hle, hrest⟩ := hsteady
      obtain ⟨hcurrent, entry, hentry, hfiled⟩ := h.step hauto hgap hback hle hstep
      obtain ⟨entries, hentries, hfiled'⟩ := ih hcurrent (mAutoMode_of_step hauto hstep) hrest
      refine ⟨entry :: entries, .cons hentry hentries, ?_⟩
      rw [hfiled', hfiled, List.append_assoc]
      rfl

/-- With a steady clock every message is filed under its day, and the directory, seen by days, keeps
the messages of the last days. -/
theorem days_of_run {disk : Disk} {sur : Surroundings} {as : List (Surroundings × Bytes)}
    (hpath : ValidPath path) (hopens : sur.opens = true) (hremoves : sur.removes = true)
    (hle : sur.now.1 ≤ sur.now.2) (hsteady : Steady sur.now.1 sur.now.2 as)
    (h : Run Logging.step Works (autoLogger path disk sur) as t) :
    ∃ entries, List.Forall₂ FiledOn ((sur, AutoLoggerFile.initString) :: as) entries ∧
      ∀ day, t.disk (filename path day) =
        retained logFileNum (fun day => disk (filename path day)) entries day := by
  have hstep := step_unwritten hpath disk sur
  have hauto : (unwritten path disk).file.mAutoMode = true := rfl
  have hlog : (unwritten path disk).file.mLogPath = path := rfl
  have hchanged : (unwritten path disk).file.mLastDay.map Date.day ≠ some sur.now.1.day :=
    fun h => by cases h
  obtain ⟨hcurrent, hfiled⟩ :=
    current_of_changed (a := (sur, AutoLoggerFile.initString)) hauto hlog hchanged hle hstep
  obtain ⟨entries, hentries, hfiled'⟩ :=
    filed_of_run hcurrent (mAutoMode_of_step hauto hstep) hsteady h
  refine ⟨(sur.now.2, AutoLoggerFile.initString) :: entries,
    .cons ⟨hle, le_refl _, rfl⟩ hentries, fun day => ?_⟩
  rw [(disk_of_run hpath hopens hremoves h).2, ← retained_map (strictMono_filename path)]
  rw [hfiled', hfiled]
  rfl

/-- A message on each of two days. -/
theorem days_of_two_days :
    ∃ t entries,
      Run Logging.step Works (autoLogger (str ".") (fun _ => none) (onDay (january 1 (by decide))))
        [(onDay (january 2 (by decide)), str "b\n")] t ∧
      ∀ day, t.disk (filename (str ".") day) =
        retained logFileNum (fun _ => none) entries day := by
  have hrun : ∃ t, Run Logging.step Works
      (autoLogger (str ".") (fun _ => none) (onDay (january 1 (by decide))))
      [(onDay (january 2 (by decide)), str "b\n")] t ∧ True :=
    exists_run_of_exec (by decide +kernel)
  obtain ⟨t, hrun, -⟩ := hrun
  have hnext : Date.DaysLater 1 (january 1 (by decide)) (january 2 (by decide)) :=
    .next (.refl _) (by decide)
  have hsteady : Steady (january 1 (by decide)) (january 1 (by decide))
      [(onDay (january 2 (by decide)), str "b\n")] :=
    ⟨⟨1, by decide, hnext⟩, hnext.le, le_refl _, trivial⟩
  obtain ⟨entries, -, hdisk⟩ :=
    days_of_run ⟨by decide, by decide⟩ rfl rfl (le_refl _) hsteady hrun
  exact ⟨t, entries, hrun, hdisk⟩

end Logging

end BtcServer.AvRouter
