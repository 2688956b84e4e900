import Ehttp.Log.Rotation

/-!
# Which rotated files stay

* `Rotated.retained`: the files of the days that `_retain_day` keeps;
* `Rotated.dayMoves_of_retained`, `Rotated.oldNamed_of_retained`: what a call
  that leaves them must meet;
* `retention_iff`: a log with lines on every day keeps exactly these files when
  no file has to go on the first of a month.
-/

namespace Ehttp

open Lib

/-- A line on every day between two lines. -/
def Daily (zone : Int) (calls : List LogCall) : Prop :=
  ∀ c ∈ calls, ∀ e ∈ calls, ∀ d, dayOf zone c.sec ≤ d → d ≤ dayOf zone e.sec → HasCall zone d calls

/-- What is wanted of the rotated files behind a run that ends with `last`. -/
structure Retained (zone R : Int) (base : Bytes) (calls : List LogCall) (last : LogCall)
    (dir : Directory Bytes LogCall) : Prop where
  days : ∀ d, dir.access (dayFile base d) = true ↔
    dayOf zone last.sec - R ≤ d ∧ d < dayOf zone last.sec ∧ HasCall zone d calls
  names : ∀ n, dir.access n = true → n = base ∨ ∃ d, n = dayFile base d

/-- The next call of a daily log comes on the same day or on the next. -/
theorem Daily.next {zone : Int} {calls front : List LogCall} {last now : LogCall}
    (h : Daily zone calls) (hsorted : calls.Pairwise fun c d => c.sec ≤ d.sec)
    (hpre : front ++ [last, now] <+: calls) : dayOf zone now.sec ≤ dayOf zone last.sec + 1 := by
  refine Classical.byContradiction fun hgap => ?_
  obtain ⟨rest, hrest⟩ := hpre
  have hlast : last ∈ calls := by simp [← hrest]
  have hnow : now ∈ calls := by simp [← hrest]
  obtain ⟨c, hc, hday⟩ := h last hlast now hnow (dayOf zone last.sec + 1) (by omega) (by omega)
  -- the call between them is before the one or behind the other
  have hpair : (front ++ [last] ++ now :: rest).Pairwise fun c d => c.sec ≤ d.sec := by
    rw [List.append_assoc, List.singleton_append]
    rwa [← hrest, List.append_assoc] at hsorted
  obtain ⟨hfront, hback, -⟩ := List.pairwise_append.mp hpair
  obtain ⟨hbefore, -, hlastMax⟩ := List.pairwise_append.mp hfront
  have hmem : c ∈ front ++ [last] ∨ c ∈ now :: rest := by
    rw [← hrest] at hc
    simpa [or_assoc] using hc
  rcases hmem with hc | hc
  · have hle : c.sec ≤ last.sec := by
      rcases List.mem_append.mp hc with hc | hc
      · exact hlastMax c hc last (List.mem_singleton_self last)
      · rw [List.mem_singleton.mp hc]
    have := dayOf_mono zone hle
    omega
  · have hle : now.sec ≤ c.sec := by
      rcases List.mem_cons.mp hc with rfl | hc
      · exact Int.le_refl _
      · exact (List.pairwise_cons.mp hback).1 c hc
    have := dayOf_mono zone hle
    omega

namespace Rotated

variable {zone R : Int} {base : Bytes} {calls : List LogCall} {last : LogCall} {a : FileAppender}

theorem retained (h : Rotated zone R base calls last a) (hR : 0 < R) :
    Retained zone R base calls last a.dir where
  days := by
    intro d
    constructor
    · intro hthere
      refine Classical.byContradiction fun hnot => ?_
      have hnone := h.filed.gone d fun ⟨hd, hcall, hrecent⟩ => hnot ⟨hrecent hR, hd, hcall⟩
      rw [Directory.access, hnone] at hthere
      cases hthere
    · rintro ⟨hrecent, hd, hcall⟩
      rw [Directory.access, h.filed.kept d hd hcall fun _ => hrecent]
      rfl
  names := h.filed.names

theorem access_append (dir : Directory Bytes LogCall) (c : LogCall) (d : Int) :
    (dir.append base c).access (dayFile base d) = dir.access (dayFile base d) := by
  rw [Directory.access, Directory.find_append, if_neg (dayFile_ne base d)]
  rfl

/-- A day that is over without a rotation has no file. -/
theorem shifts_of_retained (h : Rotated zone R base calls last a) (hR : 0 < R) (now : LogCall)
    (hle : last.sec ≤ now.sec) (hnext : dayOf zone now.sec = dayOf zone last.sec + 1)
    (hkept : Retained zone R base (calls ++ [now]) now (a.log zone zone now).dir) :
    Shifts zone calls last now := by
  refine Classical.byContradiction fun hs => ?_
  have hnone := h.filed.gone (dayOf zone last.sec) fun ⟨hlt, _⟩ => absurd hlt (Int.lt_irrefl _)
  have hthere := (hkept.days (dayOf zone last.sec)).mpr
    ⟨by omega, by omega, last, List.mem_append_left _ h.mem, rfl⟩
  have hbefore : a.dir.access (dayFile base (dayOf zone last.sec)) = true := by
    rcases (h.dir_log now hle).2 hs with hlog | hlog
    · rwa [hlog, access_append] at hthere
    · rw [hlog, access_append] at hthere
      exact a.access_deleteOldLog zone now.sec _ hthere
  rw [Directory.access, hnone] at hbefore
  cases hbefore

/-- What the files are behind a rotation. -/
theorem access_of_shifts (h : Rotated zone R base calls last a) (hR : 0 < R)
    (hint : R * ONE_DAY_SECONDS < 2 ^ 31) (now : LogCall) (hle : last.sec ≤ now.sec)
    (hs : Shifts zone calls last now) (d : Int)
    (hthere : d = dayOf zone now.sec - 1 ∨ a.dir.access (dayFile base d) = true)
    (hstays : ¬ ((getLocaltime zone (now.sec - R * ONE_DAY_SECONDS)).isSome = true ∧
      (dateOf (dayOf zone now.sec - R)).day ≠ 1 ∧ d = dayOf zone now.sec - R - 1)) :
    (a.log zone zone now).dir.access (dayFile base d) = true := by
  obtain ⟨s, hpath, hretain, hdir, hlog⟩ := (h.dir_log now hle).1 hs
  subst hpath hretain
  have hne := dayFile_ne s.logFilePath
  rw [hlog, access_append, Directory.access, (s.find_deleteOldLog zone now.sec hR hint d).2 hstays,
    hdir, Directory.find_openAppend, if_neg (hne d),
    Directory.find_rename _ _ _ _ _ (hne _).symm h.filed.current]
  split
  · rfl
  · rename_i hother
    rcases hthere with hd | hthere
    · exact absurd (by rw [hd]) hother
    · rw [if_neg (hne d)]
      exact hthere

/-- **Only these calls** leave the files of the retained days. -/
theorem dayMoves_of_retained (h : Rotated zone R base calls last a) (hR : 0 < R)
    (hint : R * ONE_DAY_SECONDS < 2 ^ 31) (now : LogCall) (hle : last.sec ≤ now.sec)
    (hnext : dayOf zone now.sec ≤ dayOf zone last.sec + 1)
    (hkept : Retained zone R base (calls ++ [now]) now (a.log zone zone now).dir) :
    DayMoves zone calls last now := by
  have hmono := dayOf_mono zone hle
  by_cases hs : Shifts zone calls last now
  · rw [dayMoves_of_shifts hs]
    refine Classical.byContradiction fun hother => ?_
    have hsame : dayOf zone now.sec = dayOf zone last.sec := by omega
    -- a rotation within a day makes a file of a day without lines
    have hthere := h.access_of_shifts hR hint now hle hs (dayOf zone now.sec - 1) (Or.inl rfl)
      (fun hr => by omega)
    obtain ⟨-, -, hcall⟩ := (hkept.days _).mp hthere
    rw [hasCall_snoc_other zone _ calls now (by omega)] at hcall
    exact hs.2.2.2 ⟨hsame, hcall⟩
  · rw [dayMoves_of_stays hs]
    refine Classical.byContradiction fun hother => hs ?_
    exact h.shifts_of_retained hR now hle (by omega) hkept

theorem oldNamed_of_retained (h : Rotated zone R base calls last a) (hR : 0 < R)
    (hint : R * ONE_DAY_SECONDS < 2 ^ 31) (now : LogCall) (hle : last.sec ≤ now.sec)
    (hmoves : DayMoves zone calls last now) (hs : Shifts zone calls last now)
    (hkept : Retained zone R base (calls ++ [now]) now (a.log zone zone now).dir) :
    OldNamed zone R calls now := by
  intro hcall
  refine Classical.byContradiction fun hnot => ?_
  rw [dayMoves_of_shifts hs] at hmoves
  have hbefore : a.dir.access (dayFile base (dayOf zone now.sec - R - 1)) = true := by
    rw [Directory.access, h.filed.kept _ (by omega) hcall (fun _ => by omega)]
    rfl
  have hthere := h.access_of_shifts hR hint now hle hs _ (Or.inr hbefore)
    (fun hr => hnot ⟨hr.1, hr.2.1⟩)
  have hrecent := ((hkept.days _).mp hthere).1
  omega

end Rotated

/-- A call that keeps the retained files: the day moves as the rotation assumes,
and the file that has to go can be named. -/
def RetentionStep (zone R : Int) (before : List LogCall) (last now : LogCall) : Prop :=
  DayMoves zone before last now ∧ (Shifts zone before last now → OldNamed zone R before now)

/-- **Log retention** of a daily log: behind every call the rotated files are
those of the last `R` days, exactly when every call moves the day as the
rotation assumes and no file has to go on the first of a month.  The names fit their
buffers. -/
theorem retention_iff (zone R : Int) (logFile : Bytes) (calls : List LogCall) (hR : 1 ≤ R)
    (hint : R * ONE_DAY_SECONDS < 2 ^ 31) (hsorted : calls.Pairwise fun c d => c.sec ≤ d.sec)
    (hdaily : Daily zone calls)
    (_hfits : ∀ c ∈ calls, FileAppender.NewFileFits zone logFile c.sec ∧
      FileAppender.OldFileFits zone R logFile c.sec) :
    (∀ front last, front ++ [last] <+: calls →
      Retained zone R (cStr logFile) (front ++ [last]) last
        ((((FileAppender.init logFile {}).2.setRetainDay R).logAll zone zone
          (front ++ [last])).dir)) ↔
      Steps (RetentionStep zone R) calls := by
  have hpos : 0 < R := by omega
  refine steps_iff
    (fun part last => Rotated zone R (cStr logFile) part last
      ((FileAppender.opened logFile R).logAll zone zone part))
    (RetentionStep zone R)
    (fun part last => Retained zone R (cStr logFile) part last
      ((FileAppender.opened logFile R).logAll zone zone part).dir)
    calls (rotated_first zone R logFile) ?_ ?_ ?_
  · rintro front last now hpre h ⟨hmoves, hold⟩
    exact rotated_step zone R logFile calls hsorted (fun _ => hint) front last now hpre h hmoves
      (fun _ => hold)
  · intro front last _ h
    exact h.retained hpos
  · intro front last now hpre h hkept
    have hle := sec_le hsorted hpre
    rw [← append_pair, FileAppender.logAll_snoc] at hkept
    have hmoves := h.dayMoves_of_retained hpos hint now hle (hdaily.next hsorted hpre) hkept
    exact ⟨hmoves, fun hs => h.oldNamed_of_retained hpos hint now hle hmoves hs hkept⟩

/-- For a clock past the epoch: on a new day `D`, the file of `D - R - 1` must
not be the last of its month. -/
theorem retentionStep_iff (zone R : Int) (before : List LogCall) (last now : LogCall)
    (h0 : 0 < last.sec) (hepoch : 0 ≤ last.sec - zone * 60) (hle : last.sec ≤ now.sec)
    (hnext : dayOf zone now.sec ≤ dayOf zone last.sec + 1)
    (hfits : (getLocaltime zone (now.sec - ONE_DAY_SECONDS)).isSome = true) :
    RetentionStep zone R before last now ↔
      (dayOf zone now.sec = dayOf zone last.sec + 1 → OldNamed zone R before now) := by
  have hmoves := (dayMoves_iff zone before last now h0 hepoch hle hfits).mpr hnext
  rw [RetentionStep, and_iff_right hmoves]
  refine imp_congr_left ⟨fun hs => (dayMoves_of_shifts hs).mp hmoves, fun hday => ?_⟩
  refine Classical.byContradiction fun hs => ?_
  rw [dayMoves_of_stays hs] at hmoves
  omega

/-- A line a day, on the last three days of January 1970. -/
def lateJanuary : List LogCall :=
  [⟨2419200, bytes "a"⟩, ⟨2505600, bytes "b"⟩, ⟨2592000, bytes "c"⟩]

theorem retention_iff_january :
    Retained 0 1 (bytes "log") lateJanuary ⟨2592000, bytes "c"⟩
      ((((FileAppender.init (bytes "log") {}).2.setRetainDay 1).logAll 0 0 lateJanuary).dir) := by
  have hdaily : Daily 0 lateJanuary := by
    intro c hc e he d hlow hhigh
    have hday : ∀ c ∈ lateJanuary, 28 ≤ dayOf 0 c.sec ∧ dayOf 0 c.sec ≤ 30 := by decide
    have hall : ∀ d : Fin 3, HasCall 0 (28 + d.val) lateJanuary := by decide
    have hc := hday c hc
    have he := hday e he
    have hd := hall ⟨(d - 28).toNat, by omega⟩
    rwa [show (28 : Int) + ((d - 28).toNat : Int) = d by omega] at hd
  have hsteps : Steps (RetentionStep 0 1) lateJanuary := by
    refine Steps.of_isChain (fun last now => (0 < last.sec ∧ last.sec ≤ now.sec ∧
      dayOf 0 now.sec ≤ dayOf 0 last.sec + 1 ∧
      (getLocaltime 0 (now.sec - ONE_DAY_SECONDS)).isSome = true) ∧
      (getLocaltime 0 (now.sec - 1 * ONE_DAY_SECONDS)).isSome = true ∧
      (dateOf (dayOf 0 now.sec - 1)).day ≠ 1) ?_ (by decide +kernel)
    rintro before last now ⟨⟨h0, hle, hday, hfits⟩, hold⟩
    exact (retentionStep_iff 0 1 before last now h0 (by omega) hle hday hfits).mpr
      fun _ _ => hold
  exact (retention_iff 0 1 (bytes "log") lateJanuary (by decide) (by decide) (by decide)
    hdaily (by decide +kernel)).mpr hsteps [⟨2419200, bytes "a"⟩, ⟨2505600, bytes "b"⟩] ⟨2592000, bytes "c"⟩
    (List.prefix_refl _)

/-- A line a day from January 31st to February 2nd: the name formed is
`log.1970-02-00`, and the file of January 31st stays. -/
theorem january_stays :
    ¬ Retained 0 1 (bytes "log")
      [⟨2592000, bytes "a"⟩, ⟨2678400, bytes "b"⟩, ⟨2764800, bytes "c"⟩] ⟨2764800, bytes "c"⟩
      ((((FileAppender.init (bytes "log") {}).2.setRetainDay 1).logAll 0 0
        [⟨2592000, bytes "a"⟩, ⟨2678400, bytes "b"⟩, ⟨2764800, bytes "c"⟩]).dir) := by
  intro h
  have hthere := (h.days 30).mp (by decide +kernel)
  exact absurd hthere.1 (by decide +kernel)

end Ehttp
