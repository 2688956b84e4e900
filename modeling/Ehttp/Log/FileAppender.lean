import Ehttp.Lib.Calendar
import Ehttp.Lib.Directory
import Ehttp.Lib.Printf
import Ehttp.Response

/-!
# `FileAppender` of `simple_log.cpp`

`get_localtime` reads the zone of the process, minutes west of UTC as in
`tz_minuteswest`.  The directory `_log_dir` is part of the state; `mkdir`,
`open` and `rename` do not fail in it.  A line carries the second of its call.
What `sprintf` writes past the buffers of the names is not modelled: `NewFileFits`
and `OldFileFits` say when it does not.

* `shiftFile_shift`, `shiftFile_stay`: the rotated file is named after the day
  before the call, and kept when it is there;
* `find_deleteOldLog`: the day number less one names the day before only
  within a month.
-/

namespace Ehttp

open Lib

def MAX_SINGLE_LOG_SIZE : Nat := 2048
def ONE_DAY_SECONDS : Int := 86400

/-- The local day, counted from 1970-01-01. -/
def dayOf (zone sec : Int) : Int := (sec - zone * 60) / ONE_DAY_SECONDS

/-- The members of `struct tm` that are read. -/
structure Tm where
  tmYear : Int
  tmMon : Int
  tmMday : Int
  deriving DecidableEq, Repr

/-- `localtime_r` fails when the year does not fit an `int`. -/
def getLocaltime (zone input : Int) : Option Tm :=
  let date := dateOf (dayOf zone input)
  let tmYear := date.year - 1900
  if -2 ^ 31 ≤ tmYear ∧ tmYear < 2 ^ 31 then
    some { tmYear, tmMon := date.month - 1, tmMday := date.day }
  else none

/-- A call of the logger: its second, and the text `format` and `ap` make. -/
structure LogCall where
  sec : Int
  text : Bytes
  deriving DecidableEq, Repr

/-- What `vsnprintf` leaves of the text in `log`, and `<<` prints. -/
def LogCall.line (c : LogCall) : LogCall :=
  { c with text := cStr (c.text.take (MAX_SINGLE_LOG_SIZE - 2)) }

structure FileAppender where
  logFile : Bytes := []
  dir : Directory Bytes LogCall := Directory.empty
  isOpen : Bool := false
  lastSec : Int := 0
  isInited : Bool := false
  retainDay : Int := -1

namespace FileAppender

/-- `_log_file_path` in the directory. -/
abbrev logFilePath (a : FileAppender) : Bytes := cStr a.logFile

def init (logFile : Bytes) (a : FileAppender) : Int × FileAppender :=
  (0, { a with logFile, dir := a.dir.openAppend (cStr logFile), isOpen := true, isInited := true })

def setRetainDay (rd : Int) (a : FileAppender) : FileAppender := { a with retainDay := rd }

def writeLog (log : LogCall) (a : FileAppender) : Int × FileAppender :=
  if a.isOpen then (0, { a with dir := a.dir.append a.logFilePath log.line }) else (0, a)

def shiftFile (zone tvSec : Int) (a : FileAppender) : Int × FileAppender :=
  let ySec := tvSec - ONE_DAY_SECONDS
  match getLocaltime zone ySec with -- yesterday
  | none => (-1, a)
  | some tm =>
    let newFile := datedName (cStr a.logFile) (tm.tmYear + 1900) (tm.tmMon + 1) tm.tmMday
    if a.dir.access newFile = false then
      -- reopen new log file
      (1, { a with
        dir := (a.dir.rename a.logFilePath newFile).openAppend a.logFilePath, isOpen := true })
    else (0, a)

/-- `char new_file[100]` holds the name that `shift_file` prints, and its 0. -/
def NewFileFits (zone : Int) (logFile : Bytes) (tvSec : Int) : Prop :=
  ∀ tm ∈ getLocaltime zone (tvSec - ONE_DAY_SECONDS),
    (datedName (cStr logFile) (tm.tmYear + 1900) (tm.tmMon + 1) tm.tmMday).length < 100

instance (zone : Int) (logFile : Bytes) (tvSec : Int) : Decidable (NewFileFits zone logFile tvSec) :=
  inferInstanceAs (Decidable (∀ tm ∈ getLocaltime zone (tvSec - ONE_DAY_SECONDS), _ < 100))

/-- `_retain_day * 3600 * 24` is an `int` product. -/
def deleteOldLog (zone tvSec : Int) (a : FileAppender) : Int × FileAppender :=
  if a.retainDay ≤ 0 then (0, a)
  else
    let oldSec := tvSec - toInt32 (toInt32 (a.retainDay * 3600) * 24)
    match getLocaltime zone oldSec with
    | none => (-1, a)
    | some tm =>
      let oldFile := datedName (cStr a.logFile) (tm.tmYear + 1900) (tm.tmMon + 1) (tm.tmMday - 1)
      (if a.dir.access oldFile then 0 else -1, { a with dir := a.dir.remove oldFile })

/-- `char old_file[100]` holds the name that `delete_old_log` prints, and its 0. -/
def OldFileFits (zone retainDay : Int) (logFile : Bytes) (tvSec : Int) : Prop :=
  ∀ tm ∈ getLocaltime zone (tvSec - toInt32 (toInt32 (retainDay * 3600) * 24)),
    (datedName (cStr logFile) (tm.tmYear + 1900) (tm.tmMon + 1) (tm.tmMday - 1)).length < 100

instance (zone retainDay : Int) (logFile : Bytes) (tvSec : Int) :
    Decidable (OldFileFits zone retainDay logFile tvSec) :=
  inferInstanceAs (Decidable (∀ tm ∈ getLocaltime zone (tvSec - _), _ < 100))

/-- The condition of `shift_file_if_need`; C division rounds to zero. -/
def needsShift (tzMinuteswest lastSec tvSec : Int) : Prop :=
  let fixNowSec := tvSec - tzMinuteswest * 60
  let fixLastSec := lastSec - tzMinuteswest * 60
  fixNowSec.tdiv ONE_DAY_SECONDS - fixLastSec.tdiv ONE_DAY_SECONDS ≠ 0

instance (tzMinuteswest lastSec tvSec : Int) : Decidable (needsShift tzMinuteswest lastSec tvSec) :=
  inferInstanceAs (Decidable (_ ≠ _))

def shiftFileIfNeed (zone tvSec tzMinuteswest : Int) (a : FileAppender) : Int × FileAppender :=
  if a.lastSec = 0 then (0, { a with lastSec := tvSec })
  else if needsShift tzMinuteswest a.lastSec tvSec then
    let (ret, a) := a.shiftFile zone tvSec
    let (_, a) := a.deleteOldLog zone tvSec
    (ret, { a with lastSec := tvSec })
  else (0, { a with lastSec := tvSec })

/-- One call of the logger. -/
def log (zone tzMinuteswest : Int) (a : FileAppender) (c : LogCall) : FileAppender :=
  ((a.shiftFileIfNeed zone c.sec tzMinuteswest).2.writeLog c).2

/-- One call after the other. -/
def logAll (zone tzMinuteswest : Int) (a : FileAppender) (calls : List LogCall) : FileAppender :=
  calls.foldl (log zone tzMinuteswest) a

theorem logAll_snoc (zone tz : Int) (a : FileAppender) (calls : List LogCall) (c : LogCall) :
    a.logAll zone tz (calls ++ [c]) = (a.logAll zone tz calls).log zone tz c := by
  simp [logAll]

end FileAppender

/-! ## Days and their files -/

theorem dayOf_sub (zone sec n : Int) : dayOf zone (sec - n * ONE_DAY_SECONDS) = dayOf zone sec - n := by
  unfold dayOf ONE_DAY_SECONDS
  omega

theorem dayOf_mono (zone : Int) {s t : Int} (h : s ≤ t) : dayOf zone s ≤ dayOf zone t := by
  unfold dayOf ONE_DAY_SECONDS
  omega

/-- The file named after a day. -/
def dayFile (base : Bytes) (day : Int) : Bytes :=
  datedName base (dateOf day).year (dateOf day).month (dateOf day).day

theorem date_fields (d : Date) :
    (0 ≤ (d.month : Int) ∧ (d.month : Int) < 100) ∧ 0 ≤ (d.day : Int) ∧ (d.day : Int) < 100 := by
  have hmonth := d.month_le
  have hday := Nat.le_trans d.day_le (daysIn_bounds _ _).2
  omega

theorem dayFile_injective (base : Bytes) (c d : Int) (h : dayFile base c = dayFile base d) :
    c = d := by
  have hc := date_fields (dateOf c)
  have hd := date_fields (dateOf d)
  obtain ⟨hyear, hmonth, hday⟩ :=
    datedName_injective base _ _ _ _ _ _ hc.1 hc.2 hd.1 hd.2 h
  exact dateOf_injective (Date.ext hyear (Int.ofNat.inj hmonth) (Int.ofNat.inj hday))

theorem datedName_ne (base : Bytes) (year month day : Int) : datedName base year month day ≠ base := by
  intro h
  have hlen := length_datedName base year month day
  rw [h] at hlen
  exact Nat.lt_irrefl _ hlen

theorem dayFile_ne (base : Bytes) (day : Int) : dayFile base day ≠ base := datedName_ne base _ _ _

/-- The file `shift_file` names. -/
theorem datedName_tm (base : Bytes) (zone sec : Int) (tm : Tm) (h : getLocaltime zone sec = some tm) :
    datedName base (tm.tmYear + 1900) (tm.tmMon + 1) tm.tmMday = dayFile base (dayOf zone sec) := by
  simp only [getLocaltime] at h
  split at h
  · cases h
    simp only [dayFile, Int.sub_add_cancel]
  · cases h

/-- The file `delete_old_log` names: on the first of a month it is no day's. -/
theorem datedName_tm_pred (base : Bytes) (zone sec : Int) (tm : Tm)
    (h : getLocaltime zone sec = some tm) (d : Int) :
    datedName base (tm.tmYear + 1900) (tm.tmMon + 1) (tm.tmMday - 1) = dayFile base d ↔
      (dateOf (dayOf zone sec)).day ≠ 1 ∧ d = dayOf zone sec - 1 := by
  have hfields := date_fields (dateOf (dayOf zone sec))
  have hpos := (dateOf (dayOf zone sec)).day_pos
  have hd := date_fields (dateOf d)
  have hdpos := (dateOf d).day_pos
  simp only [getLocaltime] at h
  split at h
  · cases h
    simp only [Int.sub_add_cancel]
    constructor
    · intro hname
      obtain ⟨-, -, hday⟩ :=
        datedName_injective base _ _ _ _ _ _ hfields.1 (by omega) hd.1 hd.2 hname
      have hne : (dateOf (dayOf zone sec)).day ≠ 1 := by omega
      obtain ⟨hy, hm, hdd⟩ := dateOf_pred (dayOf zone sec) hne
      refine ⟨hne, dayFile_injective base _ _ (hname.symm.trans ?_)⟩
      rw [dayFile, hy, hm, hdd, Nat.cast_sub hpos]
      rfl
    · rintro ⟨hne, rfl⟩
      obtain ⟨hy, hm, hdd⟩ := dateOf_pred (dayOf zone sec) hne
      rw [dayFile, hy, hm, hdd, Nat.cast_sub hpos]
      rfl
  · cases h

/-! ## What a call does to the files -/

namespace FileAppender

variable (zone sec : Int) (a : FileAppender)

/-- The file of yesterday can be named and is not there. -/
def CanShift : Prop :=
  (getLocaltime zone (sec - ONE_DAY_SECONDS)).isSome = true ∧
    a.dir.find (dayFile a.logFilePath (dayOf zone sec - 1)) = none

theorem dayOf_yesterday : dayOf zone (sec - ONE_DAY_SECONDS) = dayOf zone sec - 1 := by
  have h := dayOf_sub zone sec 1
  rwa [Int.one_mul] at h

theorem shiftFile_shift (h : a.CanShift zone sec) :
    (a.shiftFile zone sec).2 = { a with
      dir := (a.dir.rename a.logFilePath
        (dayFile a.logFilePath (dayOf zone sec - 1))).openAppend a.logFilePath
      isOpen := true } := by
  obtain ⟨hfits, hfree⟩ := h
  obtain ⟨tm, htm⟩ := Option.isSome_iff_exists.mp hfits
  have hname := datedName_tm a.logFilePath zone _ tm htm
  rw [dayOf_yesterday] at hname
  have haccess : a.dir.access (dayFile a.logFilePath (dayOf zone sec - 1)) = false := by
    rw [Directory.access, hfree]
    rfl
  simp only [shiftFile, htm, hname, haccess, ↓reduceIte]

theorem shiftFile_stay (h : ¬ a.CanShift zone sec) : (a.shiftFile zone sec).2 = a := by
  cases htm : getLocaltime zone (sec - ONE_DAY_SECONDS) with
  | none => simp only [shiftFile, htm]
  | some tm =>
    have hname := datedName_tm a.logFilePath zone _ tm htm
    rw [dayOf_yesterday] at hname
    have haccess : a.dir.access (dayFile a.logFilePath (dayOf zone sec - 1)) = true := by
      refine (Bool.not_eq_false _).mp fun hfree => h ⟨by rw [htm]; rfl, ?_⟩
      simpa [Directory.access] using hfree
    simp only [shiftFile, htm, hname, haccess, Bool.true_eq_false, ↓reduceIte]

/-- What `delete_old_log` removes: the file of one day, within a month. -/
def Removes (d : Int) : Prop :=
  (getLocaltime zone (sec - a.retainDay * ONE_DAY_SECONDS)).isSome = true ∧
    (dateOf (dayOf zone sec - a.retainDay)).day ≠ 1 ∧ d = dayOf zone sec - a.retainDay - 1

theorem deleteOldLog_none (h : a.retainDay ≤ 0) : (a.deleteOldLog zone sec).2 = a := by
  rw [deleteOldLog, if_pos h]

/-- Only the directory changes, by the removal of one name at most. -/
theorem deleteOldLog_eq : (a.deleteOldLog zone sec).2 = a ∨
    ∃ n, n ≠ a.logFilePath ∧ (a.deleteOldLog zone sec).2 = { a with dir := a.dir.remove n } := by
  unfold deleteOldLog
  split
  · exact Or.inl rfl
  · simp only
    split
    · exact Or.inl rfl
    · exact Or.inr ⟨_, datedName_ne _ _ _ _, rfl⟩

theorem deleteOldLog_frame :
    (a.deleteOldLog zone sec).2 = { a with dir := (a.deleteOldLog zone sec).2.dir } := by
  rcases a.deleteOldLog_eq zone sec with h | ⟨n, -, h⟩
  · rw [h]
  · rw [h]

/-- The current file stays, and no file appears. -/
theorem find_deleteOldLog_current :
    (a.deleteOldLog zone sec).2.dir.find a.logFilePath = a.dir.find a.logFilePath := by
  rcases a.deleteOldLog_eq zone sec with h | ⟨n, hn, h⟩
  · rw [h]
  · rw [h, Directory.find_remove, if_neg hn.symm]

theorem access_deleteOldLog (n : Bytes) (h : (a.deleteOldLog zone sec).2.dir.access n = true) :
    a.dir.access n = true := by
  rcases a.deleteOldLog_eq zone sec with heq | ⟨m, -, heq⟩
  · rwa [heq] at h
  · rw [heq, Directory.access, Directory.find_remove] at h
    split at h
    · cases h
    · exact h

/-- **The retention step**, while `_retain_day * 3600 * 24` fits an `int`. -/
theorem find_deleteOldLog (hpos : 0 < a.retainDay) (hint : a.retainDay * ONE_DAY_SECONDS < 2 ^ 31)
    (d : Int) :
    (a.Removes zone sec d → (a.deleteOldLog zone sec).2.dir.find (dayFile a.logFilePath d) = none) ∧
      (¬ a.Removes zone sec d → (a.deleteOldLog zone sec).2.dir.find (dayFile a.logFilePath d) =
        a.dir.find (dayFile a.logFilePath d)) := by
  have hmul : toInt32 (toInt32 (a.retainDay * 3600) * 24) = a.retainDay * ONE_DAY_SECONDS := by
    unfold ONE_DAY_SECONDS at hint ⊢
    rw [Response.toInt32_of_lt (a.retainDay * 3600) (by omega) (by omega),
      Response.toInt32_of_lt _ (by omega) (by omega)]
    omega
  have hpos' : ¬ a.retainDay ≤ 0 := by omega
  cases htm : getLocaltime zone (sec - a.retainDay * ONE_DAY_SECONDS) with
  | none => simp [deleteOldLog, Removes, hpos', hmul, htm]
  | some tm =>
    have hname := datedName_tm_pred a.logFilePath zone _ tm htm d
    rw [dayOf_sub] at hname
    simp only [deleteOldLog, Removes, hpos', hmul, htm, ↓reduceIte, Option.isSome_some, true_and,
      Directory.find_remove]
    constructor
    · intro h
      exact if_pos (hname.mpr h).symm
    · intro h
      exact if_neg fun e => h (hname.mp e.symm)

/-- `shift_file_if_need`, by its condition. -/
theorem shiftFileIfNeed_stay (tz : Int) (h : a.lastSec = 0 ∨ ¬ needsShift tz a.lastSec sec) :
    (a.shiftFileIfNeed zone sec tz).2 = { a with lastSec := sec } := by
  unfold shiftFileIfNeed
  split
  · rfl
  · rename_i hne
    rw [if_neg (h.resolve_left hne)]

theorem shiftFileIfNeed_shift (tz : Int) (h0 : a.lastSec ≠ 0) (h : needsShift tz a.lastSec sec) :
    (a.shiftFileIfNeed zone sec tz).2 =
      { ((a.shiftFile zone sec).2.deleteOldLog zone sec).2 with lastSec := sec } := by
  rw [shiftFileIfNeed, if_neg h0, if_pos h]

/-- Apart from the directory, a call changes the last second. -/
theorem shiftFileIfNeed_frame (tz : Int) (h : a.isOpen = true) :
    (a.shiftFileIfNeed zone sec tz).2 =
      { a with dir := (a.shiftFileIfNeed zone sec tz).2.dir, lastSec := sec } := by
  by_cases hneed : a.lastSec = 0 ∨ ¬ needsShift tz a.lastSec sec
  · rw [shiftFileIfNeed_stay zone sec a tz hneed]
  · rw [not_or, not_not] at hneed
    rw [shiftFileIfNeed_shift zone sec a tz hneed.1 hneed.2, deleteOldLog_frame]
    by_cases hcan : a.CanShift zone sec
    · rw [shiftFile_shift zone sec a hcan, h]
    · rw [shiftFile_stay zone sec a hcan]

theorem log_eq (tz : Int) (c : LogCall) (h : a.isOpen = true) :
    a.log zone tz c = { a with
      dir := (a.shiftFileIfNeed zone c.sec tz).2.dir.append a.logFilePath c.line
      lastSec := c.sec } := by
  rw [log, shiftFileIfNeed_frame zone c.sec a tz h, writeLog, if_pos h]

end FileAppender

end Ehttp
