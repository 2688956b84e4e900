import Ehttp.Log.FileAppender
import Ehttp.Lib.History

/-!
# Whose lines a log file holds

* `lines_logAll`: without retention no line is lost or written twice;
* `Filed`: the directory when every file holds its own day, and what a write,
  a rotation and the retention step make of it;
* `Rotated.step`: one call of the logger keeps that, if the day moves as the
  rotation assumes;
* `own_days_iff`: the files hold their own days exactly in the runs whose calls
  all do.
-/

namespace Ehttp

open Lib

/-! ## The lines of a day -/

def HasCall (zone day : Int) (calls : List LogCall) : Prop := ∃ c ∈ calls, dayOf zone c.sec = day

instance (zone day : Int) (calls : List LogCall) : Decidable (HasCall zone day calls) :=
  inferInstanceAs (Decidable (∃ c ∈ calls, dayOf zone c.sec = day))

def onDay (zone day : Int) (calls : List LogCall) : List LogCall :=
  (calls.filter fun c => dayOf zone c.sec = day).map LogCall.line

section OnDay

variable (zone day : Int) (calls : List LogCall) (c : LogCall)

theorem onDay_snoc_same (h : dayOf zone c.sec = day) :
    onDay zone day (calls ++ [c]) = onDay zone day calls ++ [c.line] := by
  simp [onDay, List.filter_append, h]

theorem onDay_snoc_other (h : dayOf zone c.sec ≠ day) :
    onDay zone day (calls ++ [c]) = onDay zone day calls := by
  simp [onDay, List.filter_append, h]

theorem onDay_eq_nil (h : ¬ HasCall zone day calls) : onDay zone day calls = [] := by
  rw [onDay, List.map_eq_nil_iff, List.filter_eq_nil_iff]
  intro c hc hday
  exact h ⟨c, hc, of_decide_eq_true hday⟩

theorem dayOf_of_mem_onDay (h : c ∈ onDay zone day calls) : dayOf zone c.sec = day := by
  obtain ⟨c, hc, rfl⟩ := List.mem_map.mp h
  exact of_decide_eq_true (List.mem_filter.mp hc).2

theorem line_mem_onDay (h : c ∈ calls) : c.line ∈ onDay zone (dayOf zone c.sec) calls :=
  List.mem_map_of_mem (List.mem_filter.mpr ⟨h, decide_eq_true rfl⟩)

theorem hasCall_snoc_other (h : dayOf zone c.sec ≠ day) :
    HasCall zone day (calls ++ [c]) ↔ HasCall zone day calls := by
  simp [HasCall, or_and_right, exists_or, h]

end OnDay

/-! ## No line is lost -/

/-- An appender that is open on its current file. -/
structure FileAppender.Ready (a : FileAppender) : Prop where
  isOpen : a.isOpen = true
  there : (a.dir.find a.logFilePath).isSome = true
  retainDay : a.retainDay ≤ 0

namespace FileAppender

variable {a : FileAppender} (zone : Int)

theorem Ready.shiftFileIfNeed (h : a.Ready) (sec tz : Int) :
    ((a.shiftFileIfNeed zone sec tz).2.dir.find a.logFilePath).isSome = true ∧
      (a.shiftFileIfNeed zone sec tz).2.dir.lines = a.dir.lines := by
  by_cases hneed : a.lastSec = 0 ∨ ¬ needsShift tz a.lastSec sec
  · rw [shiftFileIfNeed_stay zone sec a tz hneed]
    exact ⟨h.there, rfl⟩
  · rw [not_or, not_not] at hneed
    rw [shiftFileIfNeed_shift zone sec a tz hneed.1 hneed.2]
    by_cases hcan : a.CanShift zone sec
    · have hretain : (a.shiftFile zone sec).2.retainDay ≤ 0 := by
        rw [shiftFile_shift zone sec a hcan]
        exact h.retainDay
      rw [deleteOldLog_none zone sec _ hretain, shiftFile_shift zone sec a hcan]
      refine ⟨?_, ?_⟩
      · rw [Directory.find_openAppend, if_pos rfl]
        rfl
      · rw [Directory.lines_openAppend, Directory.lines_rename _ _ _ hcan.2]
    · rw [shiftFile_stay zone sec a hcan, deleteOldLog_none zone sec a h.retainDay]
      exact ⟨h.there, rfl⟩

theorem Ready.log (h : a.Ready) (tz : Int) (c : LogCall) :
    (a.log zone tz c).Ready ∧ (a.log zone tz c).dir.lines.Perm (c.line :: a.dir.lines) := by
  obtain ⟨hthere, hlines⟩ := h.shiftFileIfNeed zone c.sec tz
  rw [log_eq zone a tz c h.isOpen]
  refine ⟨⟨h.isOpen, ?_, h.retainDay⟩, ?_⟩
  · rw [Directory.find_append, if_pos rfl, Option.isSome_map]
    exact hthere
  · rw [← hlines]
    exact Directory.lines_append _ _ _ hthere

end FileAppender

/-- **Every line is in exactly one file**, whatever the clock does. -/
theorem lines_logAll (zone tz : Int) (a : FileAppender) (h : a.Ready) (calls : List LogCall) :
    (a.logAll zone tz calls).Ready ∧
      (a.logAll zone tz calls).dir.lines.Perm (calls.map LogCall.line ++ a.dir.lines) := by
  induction calls using List.reverseRecOn with
  | nil => exact ⟨h, List.Perm.refl _⟩
  | append_singleton calls c ih =>
    obtain ⟨hready, hlines⟩ := ih
    rw [FileAppender.logAll_snoc]
    refine ⟨(hready.log zone tz c).1, (hready.log zone tz c).2.trans ?_⟩
    rw [List.map_append, List.append_assoc]
    exact (hlines.cons c.line).trans List.perm_middle.symm

/-! ## Every file its own day -/

/-- The current file holds the lines of `today`, the rotated files hold those of
the days before that `keep` keeps, and there is no other file. -/
structure Filed (zone : Int) (base : Bytes) (calls : List LogCall) (today : Int) (keep : Int → Prop)
    (dir : Directory Bytes LogCall) : Prop where
  current : dir.find base = some (onDay zone today calls)
  kept : ∀ d, d < today → HasCall zone d calls → keep d →
    dir.find (dayFile base d) = some (onDay zone d calls)
  gone : ∀ d, ¬ (d < today ∧ HasCall zone d calls ∧ keep d) → dir.find (dayFile base d) = none
  names : ∀ n, dir.access n = true → n = base ∨ ∃ d, n = dayFile base d

namespace Filed

variable {zone : Int} {base : Bytes} {calls : List LogCall} {today : Int} {keep : Int → Prop}
  {dir : Directory Bytes LogCall}

theorem write (h : Filed zone base calls today keep dir) (c : LogCall)
    (hc : dayOf zone c.sec = today) :
    Filed zone base (calls ++ [c]) today keep (dir.append base c.line) := by
  have hday : ∀ d, (dir.append base c.line).find (dayFile base d) = dir.find (dayFile base d) := by
    intro d
    rw [Directory.find_append, if_neg (dayFile_ne base d)]
  refine ⟨?_, ?_, ?_, ?_⟩
  · rw [Directory.find_append, if_pos rfl, h.current, onDay_snoc_same zone today calls c hc]
    rfl
  · intro d hd hcall hkeep
    have hne : dayOf zone c.sec ≠ d := by omega
    rw [hday, onDay_snoc_other zone d calls c hne]
    exact h.kept d hd ((hasCall_snoc_other zone d calls c hne).mp hcall) hkeep
  · intro d hnot
    rw [hday]
    refine h.gone d fun ⟨hd, hcall, hkeep⟩ => hnot ⟨hd, ?_, hkeep⟩
    exact (hasCall_snoc_other zone d calls c (by omega)).mpr hcall
  · intro n hn
    by_cases hbase : n = base
    · exact Or.inl hbase
    · rw [Directory.access, Directory.find_append, if_neg hbase] at hn
      exact h.names n hn

/-- Midnight: the current file takes the name of its day. -/
theorem rotate (h : Filed zone base calls today keep dir) (hcall : HasCall zone today calls)
    (hkeep : keep today) (hpast : ∀ c ∈ calls, dayOf zone c.sec ≤ today) :
    Filed zone base calls (today + 1) keep
      ((dir.rename base (dayFile base today)).openAppend base) := by
  have hne := dayFile_ne base today
  have hfind : ∀ n, n ≠ base → ((dir.rename base (dayFile base today)).openAppend base).find n =
      if n = dayFile base today then some (onDay zone today calls) else dir.find n := by
    intro n hn
    rw [Directory.find_openAppend, if_neg hn, Directory.find_rename _ _ _ _ _ hne.symm h.current,
      if_neg hn]
  have hday : ∀ d, d ≠ today → ((dir.rename base (dayFile base today)).openAppend base).find
      (dayFile base d) = dir.find (dayFile base d) := by
    intro d hd
    rw [hfind _ (dayFile_ne base d), if_neg fun e => hd (dayFile_injective base d today e)]
  refine ⟨?_, ?_, ?_, ?_⟩
  · have hnone : ¬ HasCall zone (today + 1) calls := by
      rintro ⟨c, hc, hday⟩
      have := hpast c hc
      omega
    rw [Directory.find_openAppend, if_pos rfl, Directory.find_rename _ _ _ _ _ hne.symm h.current,
      if_neg hne.symm, if_pos rfl, onDay_eq_nil zone _ calls hnone]
    rfl
  · intro d hd hcall hkeep
    by_cases hlast : d = today
    · rw [hlast, hfind _ hne, if_pos rfl]
    · rw [hday d hlast]
      exact h.kept d (by omega) hcall hkeep
  · intro d hnot
    have hlast : d ≠ today := by
      rintro rfl
      exact hnot ⟨by omega, hcall, hkeep⟩
    rw [hday d hlast]
    exact h.gone d fun ⟨hd, hrest⟩ => hnot ⟨by omega, hrest⟩
  · intro n hn
    by_cases hbase : n = base
    · exact Or.inl hbase
    · rw [Directory.access, hfind n hbase] at hn
      by_cases hfile : n = dayFile base today
      · exact Or.inr ⟨today, hfile⟩
      · rw [if_neg hfile] at hn
        exact h.names n hn

/-- The days a log keeps: all of them, or those of the last `R`. -/
def Recent (R today d : Int) : Prop := 0 < R → today - R ≤ d

/-- The retention step, when what it should remove can be named. -/
theorem deleteOldLog {a : FileAppender} {R sec : Int} (h : Filed zone base calls today keep a.dir)
    (hpath : a.logFilePath = base) (hR : a.retainDay = R) (hint : 0 < R → R * ONE_DAY_SECONDS < 2 ^ 31)
    (hday : dayOf zone sec = today) (hkeep : ∀ d, Recent R today d → keep d)
    (hold : ∀ d, HasCall zone d calls → d < today → keep d → ¬ Recent R today d → a.Removes zone sec d) :
    Filed zone base calls today (Recent R today) (a.deleteOldLog zone sec).2.dir := by
  subst hpath hR hday
  rcases Int.lt_or_le 0 a.retainDay with hpos | hnone
  · have hfind := a.find_deleteOldLog zone sec hpos (hint hpos)
    refine ⟨(a.find_deleteOldLog_current zone sec).trans h.current, ?_, ?_,
      fun n hn => h.names n (a.access_deleteOldLog zone sec n hn)⟩
    · intro d hd hcall hrecent
      -- a removed day is too old to be kept
      have hstays : ¬ a.Removes zone sec d := by
        rintro ⟨-, -, hold⟩
        have := hrecent hpos
        omega
      rw [(hfind d).2 hstays]
      exact h.kept d hd hcall (hkeep d hrecent)
    · intro d hnot
      by_cases hr : a.Removes zone sec d
      · exact (hfind d).1 hr
      · rw [(hfind d).2 hr]
        exact h.gone d fun ⟨hd, hcall, hk⟩ =>
          hr (hold d hcall hd hk fun hrecent => hnot ⟨hd, hcall, hrecent⟩)
  · have hrecent : ∀ d, Recent a.retainDay (dayOf zone sec) d := fun d hpos => by omega
    rw [a.deleteOldLog_none zone sec hnone]
    refine ⟨h.current, fun d hd hcall hr => h.kept d hd hcall (hkeep d hr), ?_, h.names⟩
    exact fun d hnot => h.gone d fun ⟨hd, hcall, _⟩ => hnot ⟨hd, hcall, hrecent d⟩

end Filed

/-! ## One call -/

/-- The rotation of `shift_file` at a call: midnight is seen, and the file of
the day before the call can be named and is not there. -/
def Shifts (zone : Int) (before : List LogCall) (last now : LogCall) : Prop :=
  last.sec ≠ 0 ∧ FileAppender.needsShift zone last.sec now.sec ∧
    (getLocaltime zone (now.sec - ONE_DAY_SECONDS)).isSome = true ∧
    ¬ (dayOf zone now.sec = dayOf zone last.sec ∧ HasCall zone (dayOf zone now.sec - 1) before)

instance (zone : Int) (before : List LogCall) (last now : LogCall) :
    Decidable (Shifts zone before last now) :=
  inferInstanceAs (Decidable (_ ∧ _))

/-- The day moves as the rotation assumes: by one when it is made, else not. -/
def DayMoves (zone : Int) (before : List LogCall) (last now : LogCall) : Prop :=
  dayOf zone now.sec = dayOf zone last.sec + if Shifts zone before last now then 1 else 0

theorem dayMoves_of_shifts {zone : Int} {before : List LogCall} {last now : LogCall}
    (h : Shifts zone before last now) :
    DayMoves zone before last now ↔ dayOf zone now.sec = dayOf zone last.sec + 1 := by
  rw [DayMoves, if_pos h]

theorem dayMoves_of_stays {zone : Int} {before : List LogCall} {last now : LogCall}
    (h : ¬ Shifts zone before last now) :
    DayMoves zone before last now ↔ dayOf zone now.sec = dayOf zone last.sec := by
  rw [DayMoves, if_neg h, Int.add_zero]

/-- The file of the day that leaves the retention can be named. -/
def OldNamed (zone R : Int) (before : List LogCall) (now : LogCall) : Prop :=
  HasCall zone (dayOf zone now.sec - R - 1) before →
    (getLocaltime zone (now.sec - R * ONE_DAY_SECONDS)).isSome = true ∧
      (dateOf (dayOf zone now.sec - R)).day ≠ 1

/-- The appender behind the calls of a run, the last of them `last`. -/
structure Rotated (zone R : Int) (base : Bytes) (calls : List LogCall) (last : LogCall)
    (a : FileAppender) : Prop where
  path : a.logFilePath = base
  isOpen : a.isOpen = true
  retainDay : a.retainDay = R
  lastSec : a.lastSec = last.sec
  mem : last ∈ calls
  past : ∀ c ∈ calls, c.sec ≤ last.sec
  filed : Filed zone base calls (dayOf zone last.sec) (Filed.Recent R (dayOf zone last.sec)) a.dir

namespace Rotated

variable {zone R : Int} {base : Bytes} {calls : List LogCall} {last : LogCall} {a : FileAppender}

/-- Whether `shift_file` rotates, read off the calls before. -/
theorem canShift_iff (h : Rotated zone R base calls last a) (now : LogCall)
    (hle : last.sec ≤ now.sec) :
    a.CanShift zone now.sec ↔ (getLocaltime zone (now.sec - ONE_DAY_SECONDS)).isSome = true ∧
      ¬ (dayOf zone now.sec = dayOf zone last.sec ∧ HasCall zone (dayOf zone now.sec - 1) calls) := by
  have hmono := dayOf_mono zone hle
  rw [FileAppender.CanShift, h.path]
  refine and_congr_right fun _ => ?_
  constructor
  · rintro hnone ⟨hsame, hcall⟩
    have hkept := h.filed.kept (dayOf zone now.sec - 1) (by omega) hcall (fun hpos => by omega)
    rw [hnone] at hkept
    cases hkept
  · intro hnot
    exact h.filed.gone _ fun ⟨hd, hcall, _⟩ => hnot ⟨by omega, hcall⟩

/-- The condition of the rotation, as the appender sees it. -/
theorem shifts_iff (h : Rotated zone R base calls last a) (now : LogCall)
    (hle : last.sec ≤ now.sec) :
    Shifts zone calls last now ↔ (a.lastSec ≠ 0 ∧ FileAppender.needsShift zone a.lastSec now.sec) ∧
      a.CanShift zone now.sec := by
  rw [h.canShift_iff now hle, h.lastSec, Shifts, and_assoc]

/-- The directory behind a call, by whether it rotates. -/
theorem dir_log (h : Rotated zone R base calls last a) (now : LogCall) (hle : last.sec ≤ now.sec) :
    (Shifts zone calls last now → ∃ s : FileAppender, s.logFilePath = base ∧ s.retainDay = R ∧
        s.dir = (a.dir.rename base (dayFile base (dayOf zone now.sec - 1))).openAppend base ∧
        (a.log zone zone now).dir = (s.deleteOldLog zone now.sec).2.dir.append base now.line) ∧
      (¬ Shifts zone calls last now → (a.log zone zone now).dir = a.dir.append base now.line ∨
        (a.log zone zone now).dir = (a.deleteOldLog zone now.sec).2.dir.append base now.line) := by
  have hshifts := h.shifts_iff now hle
  rw [FileAppender.log_eq zone a zone now h.isOpen, h.path]
  constructor
  · intro hs
    obtain ⟨hneed, hcan⟩ := hshifts.mp hs
    have hshift := FileAppender.shiftFile_shift zone now.sec a hcan
    refine ⟨(a.shiftFile zone now.sec).2, by rw [hshift]; exact h.path,
      by rw [hshift]; exact h.retainDay, by rw [hshift, h.path], ?_⟩
    rw [FileAppender.shiftFileIfNeed_shift zone now.sec a zone hneed.1 hneed.2]
  · intro hs
    by_cases hneed : a.lastSec ≠ 0 ∧ FileAppender.needsShift zone a.lastSec now.sec
    · have hcan : ¬ a.CanShift zone now.sec := fun hcan => hs (hshifts.mpr ⟨hneed, hcan⟩)
      rw [FileAppender.shiftFileIfNeed_shift zone now.sec a zone hneed.1 hneed.2,
        FileAppender.shiftFile_stay zone now.sec a hcan]
      exact Or.inr rfl
    · rw [not_and_or, not_not] at hneed
      rw [FileAppender.shiftFileIfNeed_stay zone now.sec a zone hneed]
      exact Or.inl rfl

/-- **One call** keeps every file its own day. -/
theorem step (h : Rotated zone R base calls last a) (now : LogCall) (hle : last.sec ≤ now.sec)
    (hmoves : DayMoves zone calls last now) (hint : 0 < R → R * ONE_DAY_SECONDS < 2 ^ 31)
    (hold : 0 < R → Shifts zone calls last now → OldNamed zone R calls now) :
    Rotated zone R base (calls ++ [now]) now (a.log zone zone now) := by
  obtain ⟨hshift, hstay⟩ := h.dir_log now hle
  have hfiled : Filed zone base (calls ++ [now]) (dayOf zone now.sec)
      (Filed.Recent R (dayOf zone now.sec)) (a.log zone zone now).dir := by
    by_cases hs : Shifts zone calls last now
    · obtain ⟨s, hpath, hretain, hdir, hlog⟩ := hshift hs
      rw [dayMoves_of_shifts hs] at hmoves
      have hfile : dayOf zone now.sec - 1 = dayOf zone last.sec := by omega
      have hrotated := h.filed.rotate ⟨last, h.mem, rfl⟩ (fun hpos => by omega)
        (fun c hc => dayOf_mono zone (h.past c hc))
      rw [← hfile, ← hdir, Int.sub_add_cancel] at hrotated
      rw [hlog]
      refine Filed.write (hrotated.deleteOldLog hpath hretain hint rfl ?_ ?_) now rfl
      · intro d hrecent hpos
        have := hrecent hpos
        omega
      · -- only the day that leaves the retention is removed
        intro d hcall hd hkeep hnot
        have hpos : 0 < R := Classical.byContradiction fun hneg => hnot fun hpos => absurd hpos hneg
        have hge := hkeep hpos
        have hlt : ¬ dayOf zone now.sec - R ≤ d := fun hle => hnot fun _ => hle
        have hd : d = dayOf zone now.sec - R - 1 := by omega
        obtain ⟨hfits, hfirst⟩ := hold hpos hs (hd ▸ hcall)
        rw [FileAppender.Removes, hretain]
        exact ⟨hfits, hfirst, hd⟩
    · rw [dayMoves_of_stays hs] at hmoves
      rcases hstay hs with hlog | hlog
      · rw [hlog, hmoves]
        exact h.filed.write now hmoves
      · rw [hlog, hmoves]
        refine Filed.write (h.filed.deleteOldLog h.path h.retainDay hint hmoves ?_ ?_) now hmoves
        · exact fun d hrecent => hrecent
        · exact fun d _ _ hkeep hnot => absurd hkeep hnot
  rw [FileAppender.log_eq zone a zone now h.isOpen] at hfiled ⊢
  exact
    { path := h.path
      isOpen := h.isOpen
      retainDay := h.retainDay
      lastSec := rfl
      mem := List.mem_append_right _ (List.mem_singleton_self now)
      past := by
        intro c hc
        rcases List.mem_append.mp hc with hc | hc
        · exact Int.le_trans (h.past c hc) hle
        · rw [List.mem_singleton.mp hc]
      filed := hfiled }

end Rotated

/-! ## A run -/

/-- A fresh appender on an empty directory. -/
def FileAppender.opened (logFile : Bytes) (R : Int) : FileAppender :=
  ((FileAppender.init logFile {}).2).setRetainDay R

section Run

variable (zone R : Int) (logFile : Bytes)

theorem find_opened (n : Bytes) :
    (FileAppender.opened logFile R).dir.find n = if n = cStr logFile then some [] else none := by
  show (Directory.empty.openAppend (cStr logFile)).find n = _
  rw [Directory.find_openAppend]
  rfl

theorem filed_opened (today : Int) (keep : Int → Prop) :
    Filed zone (cStr logFile) [] today keep (FileAppender.opened logFile R).dir where
  current := by rw [find_opened, if_pos rfl]; rfl
  kept := by
    rintro d - ⟨c, hc, -⟩
    cases hc
  gone := by
    intro d _
    rw [find_opened, if_neg (dayFile_ne _ d)]
  names := by
    intro n hn
    rw [Directory.access, find_opened] at hn
    split at hn
    · rename_i hbase
      exact Or.inl hbase
    · cases hn

theorem rotated_first (c : LogCall) :
    Rotated zone R (cStr logFile) [c] c ((FileAppender.opened logFile R).logAll zone zone [c]) := by
  have hfiled := (filed_opened zone R logFile (dayOf zone c.sec)
    (Filed.Recent R (dayOf zone c.sec))).write c rfl
  exact
    { path := rfl
      isOpen := rfl
      retainDay := rfl
      lastSec := rfl
      mem := List.mem_singleton_self c
      past := by
        intro c' hc
        rw [List.mem_singleton.mp hc]
      filed := hfiled }

theorem append_pair {α : Type} (front : List α) (last now : α) :
    front ++ [last] ++ [now] = front ++ [last, now] := by
  rw [List.append_assoc, List.singleton_append]

theorem sec_le {calls front : List LogCall} {last now : LogCall}
    (hsorted : calls.Pairwise fun c d => c.sec ≤ d.sec) (hpre : front ++ [last, now] <+: calls) :
    last.sec ≤ now.sec := by
  have hpair := (List.pairwise_append.mp (hsorted.sublist hpre.sublist)).2.1
  exact (List.pairwise_cons.mp hpair).1 now (List.mem_singleton_self now)

/-- **The step of a run**: `Rotated.step` between the calls of a list. -/
theorem rotated_step (calls : List LogCall) (hsorted : calls.Pairwise fun c d => c.sec ≤ d.sec)
    (hint : 0 < R → R * ONE_DAY_SECONDS < 2 ^ 31) (front : List LogCall) (last now : LogCall)
    (hpre : front ++ [last, now] <+: calls)
    (h : Rotated zone R (cStr logFile) (front ++ [last]) last
      ((FileAppender.opened logFile R).logAll zone zone (front ++ [last])))
    (hmoves : DayMoves zone (front ++ [last]) last now)
    (hold : 0 < R → Shifts zone (front ++ [last]) last now → OldNamed zone R (front ++ [last]) now) :
    Rotated zone R (cStr logFile) (front ++ [last, now]) now
      ((FileAppender.opened logFile R).logAll zone zone (front ++ [last, now])) := by
  rw [← append_pair, FileAppender.logAll_snoc]
  exact h.step now (sec_le hsorted hpre) hmoves hint hold

end Run

/-- What is wanted of the log directory behind a run that ends with `last`. -/
structure OwnDays (zone : Int) (base : Bytes) (calls : List LogCall) (last : LogCall)
    (dir : Directory Bytes LogCall) : Prop where
  once : dir.lines.Perm (calls.map LogCall.line)
  rotated : ∀ day lines, dir.find (dayFile base day) = some lines → lines = onDay zone day calls
  current : ∀ lines, dir.find base = some lines → ∀ l ∈ lines, dayOf zone l.sec = dayOf zone last.sec

theorem Filed.ownDays {zone : Int} {base : Bytes} {calls : List LogCall} {last : LogCall}
    {keep : Int → Prop} {dir : Directory Bytes LogCall}
    (h : Filed zone base calls (dayOf zone last.sec) keep dir)
    (honce : dir.lines.Perm (calls.map LogCall.line)) : OwnDays zone base calls last dir where
  once := honce
  rotated := by
    intro day lines hlines
    by_cases hkept : day < dayOf zone last.sec ∧ HasCall zone day calls ∧ keep day
    · rw [h.kept day hkept.1 hkept.2.1 hkept.2.2, Option.some.injEq] at hlines
      exact hlines.symm
    · rw [h.gone day hkept] at hlines
      cases hlines
  current := by
    intro lines hlines l hl
    rw [h.current, Option.some.injEq] at hlines
    rw [← hlines] at hl
    exact dayOf_of_mem_onDay zone _ calls l hl

/-- Only a call that moves the day as the rotation assumes keeps the files in
order. -/
theorem Rotated.dayMoves {zone R : Int} {base : Bytes} {calls : List LogCall} {last now : LogCall}
    {a : FileAppender} (h : Rotated zone R base calls last a) (hR : R ≤ 0)
    (hle : last.sec ≤ now.sec)
    (hown : OwnDays zone base (calls ++ [now]) now (a.log zone zone now).dir) :
    DayMoves zone calls last now := by
  have hline := line_mem_onDay zone calls last h.mem
  have hdir := h.dir_log now hle
  by_cases hs : Shifts zone calls last now
  · -- the lines of the last day went to the file of yesterday
    obtain ⟨s, -, hretain, hshift, hlog⟩ := hdir.1 hs
    rw [s.deleteOldLog_none zone now.sec (hretain ▸ hR), hshift] at hlog
    have hne := dayFile_ne base (dayOf zone now.sec - 1)
    have hfile : (a.log zone zone now).dir.find (dayFile base (dayOf zone now.sec - 1)) =
        some (onDay zone (dayOf zone last.sec) calls) := by
      rw [hlog, Directory.find_append, if_neg hne, Directory.find_openAppend, if_neg hne,
        Directory.find_rename _ _ _ _ _ hne.symm h.filed.current, if_pos rfl]
    have hday := hown.rotated _ _ hfile
    rw [hday] at hline
    have heq := dayOf_of_mem_onDay zone _ _ _ hline
    have hline : dayOf zone last.line.sec = dayOf zone last.sec := rfl
    rw [dayMoves_of_shifts hs]
    omega
  · -- the lines of the last day are still in the current file
    have hlog : (a.log zone zone now).dir = a.dir.append base now.line := by
      rcases hdir.2 hs with hlog | hlog
      · exact hlog
      · rwa [a.deleteOldLog_none zone now.sec (h.retainDay ▸ hR)] at hlog
    have hfile : (a.log zone zone now).dir.find base =
        some (onDay zone (dayOf zone last.sec) calls ++ [now.line]) := by
      rw [hlog, Directory.find_append, if_pos rfl, h.filed.current]
      rfl
    have heq := hown.current _ hfile last.line (List.mem_append_left _ hline)
    rw [dayMoves_of_stays hs]
    exact heq.symm

/-- **A rotated log file holds its own day** behind every call of a run exactly
when every call of the run moves the day as the rotation assumes.  The names fit
their buffer. -/
theorem own_days_iff (zone : Int) (logFile : Bytes) (calls : List LogCall)
    (hsorted : calls.Pairwise fun c d => c.sec ≤ d.sec)
    (_hfits : ∀ c ∈ calls, FileAppender.NewFileFits zone logFile c.sec) :
    (∀ front last, front ++ [last] <+: calls →
      OwnDays zone (cStr logFile) (front ++ [last]) last
        (((FileAppender.init logFile {}).2.logAll zone zone (front ++ [last])).dir)) ↔
      Steps (DayMoves zone) calls := by
  have hready : (FileAppender.opened logFile (-1)).Ready :=
    { isOpen := rfl
      there := by
        have hfind := find_opened (-1) logFile (cStr logFile)
        rw [if_pos rfl] at hfind
        exact Option.isSome_iff_exists.mpr ⟨_, hfind⟩
      retainDay := show (-1 : Int) ≤ 0 by decide }
  have honce : ∀ part : List LogCall,
      ((FileAppender.opened logFile (-1)).logAll zone zone part).dir.lines.Perm
        (part.map LogCall.line) := by
    intro part
    have hlines := (lines_logAll zone zone _ hready part).2
    have hempty : (FileAppender.opened logFile (-1)).dir.lines = [] := Directory.lines_openAppend _ _
    rwa [hempty, List.append_nil] at hlines
  refine steps_iff
    (fun part last => Rotated zone (-1) (cStr logFile) part last
      ((FileAppender.opened logFile (-1)).logAll zone zone part))
    (DayMoves zone)
    (fun part last => OwnDays zone (cStr logFile) part last
      ((FileAppender.opened logFile (-1)).logAll zone zone part).dir)
    calls (rotated_first zone (-1) logFile) ?_ ?_ ?_
  · intro front last now hpre h hmoves
    exact rotated_step zone (-1) logFile calls hsorted (by decide) front last now hpre h hmoves
      (fun hpos => absurd hpos (by decide))
  · intro front last _ h
    exact h.filed.ownDays (honce _)
  · intro front last now hpre h hown
    have hle := sec_le hsorted hpre
    rw [← append_pair, FileAppender.logAll_snoc] at hown
    exact h.dayMoves (by decide) hle hown

/-- For a clock past the epoch: no day may be left out. -/
theorem dayMoves_iff (zone : Int) (before : List LogCall) (last now : LogCall) (h0 : 0 < last.sec)
    (hepoch : 0 ≤ last.sec - zone * 60) (hle : last.sec ≤ now.sec)
    (hfits : (getLocaltime zone (now.sec - ONE_DAY_SECONDS)).isSome = true) :
    DayMoves zone before last now ↔ dayOf zone now.sec ≤ dayOf zone last.sec + 1 := by
  have hmono := dayOf_mono zone hle
  have hneed : FileAppender.needsShift zone last.sec now.sec ↔
      dayOf zone now.sec ≠ dayOf zone last.sec := by
    have hnow : 0 ≤ now.sec - zone * 60 := by omega
    simp only [FileAppender.needsShift, dayOf, Int.tdiv_eq_ediv_of_nonneg hnow,
      Int.tdiv_eq_ediv_of_nonneg hepoch]
    omega
  by_cases hsame : dayOf zone now.sec = dayOf zone last.sec
  · rw [dayMoves_of_stays fun hs => hneed.mp hs.2.1 hsame]
    omega
  · have hs : Shifts zone before last now :=
      ⟨by omega, hneed.mpr hsame, hfits, fun h => hsame h.1⟩
    rw [dayMoves_of_shifts hs]
    omega

/-- Three calls on a Friday and the Saturday behind it. -/
def weekend : List LogCall :=
  [⟨86400, bytes "a"⟩, ⟨172799, bytes "b"⟩, ⟨172800, bytes "c"⟩]

theorem own_days_iff_weekend :
    OwnDays 0 (bytes "log") weekend ⟨172800, bytes "c"⟩
      ((FileAppender.init (bytes "log") {}).2.logAll 0 0 weekend).dir := by
  have hsteps : Steps (DayMoves 0) weekend := by
    refine Steps.of_isChain (fun last now => 0 < last.sec ∧ last.sec ≤ now.sec ∧
      dayOf 0 now.sec ≤ dayOf 0 last.sec + 1 ∧
      (getLocaltime 0 (now.sec - ONE_DAY_SECONDS)).isSome = true) ?_ (by decide)
    rintro before last now ⟨h0, hle, hday, hfits⟩
    exact (dayMoves_iff 0 before last now h0 (by omega) hle hfits).mpr hday
  exact (own_days_iff 0 (bytes "log") weekend (by decide) (by decide +kernel)).mpr hsteps
    [⟨86400, bytes "a"⟩, ⟨172799, bytes "b"⟩] ⟨172800, bytes "c"⟩ (List.prefix_refl _)

/-- A line on Friday, the next on Monday: the file of Sunday holds the line of
Friday. -/
theorem idle_days_misnamed :
    ¬ OwnDays 0 (bytes "log") [⟨86400, bytes "a"⟩, ⟨345600, bytes "b"⟩] ⟨345600, bytes "b"⟩
      ((FileAppender.init (bytes "log") {}).2.logAll 0 0
        [⟨86400, bytes "a"⟩, ⟨345600, bytes "b"⟩]).dir := by
  intro h
  have hfile := h.rotated 3 [⟨86400, bytes "a"⟩] (by decide +kernel)
  exact absurd hfile (by decide +kernel)

end Ehttp
