import Mathlib.Data.Char
import Mathlib.Data.List.Lex
import Mathlib.Data.List.Nodup
import Mathlib.Data.Prod.Lex
import TinyUtils.Lib.Radix
import TinyUtils.Lib.Retention
/-!
# `log_rotate_example.sh` (`shell_utils/log_rotate_example.sh`)

Each time it is started the script runs the loader with its output appended to the log. Before that, a log that has got
too large is renamed to one with the time in its name, and if the directory lists too many files the oldest one is
removed. `ls -l` prints a line for the total before the files, so ten files are too many for a limit of ten.

| here | there |
| --- | --- |
| `Limits`             | `max_log_file_size`, `max_log_file_num` (`:5-6`) |
| `logfile`, `archive` | `$log_path/$logfilename.log`, `$log_path/$logfilename.$datestr.log` (`:27`) |
| `lsLines`            | `ls -l $log_path/ \| wc -l` (`:19`) |
| `oldest`             | `ls -lt ../log/ \| awk '{print $9}' \| tail -n1` (`:22`): by time, newest first, files of one time by name |
| `rm`, `mv`, `append` | `rm`, `mv`, `>>` of the loader |
| `Start`              | a start: `date +%s`, what the loader writes and when it has |
| `script`             | the script, in a shell that knows `[[` |

The directory has plain files only, none of them hidden and none with a blank in its name.
-/

namespace TinyUtils.LogRotate

open Radix Retention

abbrev Name := List Char

structure File where
  name : Name
  mtime : Nat
  bytes : List UInt8
deriving DecidableEq

abbrev Dir := List File

structure Limits where
  maxLogFileSize : Nat := 209715200
  maxLogFileNum : Nat := 10

/-- `edu_user_contact_loader` -/
def logfilename : Name := "edu_user_contact_loader".toList

def logfile : Name := logfilename ++ ".log".toList

def archive (datestr : Nat) : Name := logfilename ++ '.' :: digits false 10 datestr ++ ".log".toList

def lsLines (d : Dir) : Nat := d.length + 1

/-- The order of `ls -t`. -/
def File.key (f : File) : Natᵒᵈ ×ₗ Name := toLex (OrderDual.toDual f.mtime, f.name)

def lsTime (d : Dir) : Dir := d.mergeSort fun a b => decide (a.key ≤ b.key)

def oldest (d : Dir) : Option Name := (lsTime d).getLast?.map File.name

def find (d : Dir) (name : Name) : Option File := d.find? fun f => f.name = name

def rm (d : Dir) (name : Name) : Dir := d.filter fun f => f.name ≠ name

/-- A file that has the new name already is replaced; without a file of the old one nothing is renamed. -/
def mv (d : Dir) (src dst : Name) : Dir :=
  match find d src with
  | none => d
  | some _ => (rm d dst).map fun f => if f.name = src then { f with name := dst } else f

/-- The file is made if there is none; it is not touched if nothing is written. -/
def append (d : Dir) (name : Name) (out : List UInt8) (time : Nat) : Dir :=
  match find d name with
  | none => d ++ [⟨name, time, out⟩]
  | some _ =>
    d.map fun f =>
      if f.name = name then { f with bytes := f.bytes ++ out, mtime := if out = [] then f.mtime else time } else f

structure Start where
  date : Nat
  out : List UInt8
  wrote : Nat

def script (lim : Limits) (d : Dir) (s : Start) : Dir :=
  match find d logfile with
  | none => append d logfile s.out s.wrote
  | some f =>
    if f.bytes.length ≥ lim.maxLogFileSize then
      let d := if lsLines d > lim.maxLogFileNum then
          match oldest d with
          | some delfile => rm d delfile
          | none => d
        else d
      append (mv d logfile (archive s.date)) logfile s.out s.wrote
    else append d logfile s.out s.wrote

/-- Each start is later than the end of the one before. -/
def Later : Nat → List Start → Prop
  | _, [] => True
  | t, s :: starts => t < s.date ∧ s.date ≤ s.wrote ∧ Later s.wrote starts

/-! ## Names -/

theorem archive_ne_logfile (datestr : Nat) : archive datestr ≠ logfile := by
  intro h
  have hlen := congrArg List.length h
  simp [archive, logfile] at hlen

theorem archive_injective {m n : Nat} (h : archive m = archive n) : m = n := by
  have hdigits : digits false 10 m = digits false 10 n := by
    simpa [archive] using h
  have hm : parse 10 (digits false 10 m) 0 = some m := parse_digits (by decide) (by decide) m
  rw [hdigits, parse_digits (by decide) (by decide)] at hm
  exact (Option.some.inj hm).symm

/-! ## The commands -/

theorem find_eq_none {d : Dir} {name : Name} : find d name = none ↔ ∀ f ∈ d, f.name ≠ name := by
  simp [find]

theorem find_append_singleton {d : Dir} {f : File} (h : ∀ g ∈ d, g.name ≠ f.name) : find (d ++ [f]) f.name = some f := by
  have hnone := find_eq_none.2 h
  unfold find at hnone ⊢
  simp [List.find?_append, hnone]

theorem rm_of_ne {d : Dir} {name : Name} (h : ∀ f ∈ d, f.name ≠ name) : rm d name = d := by
  simpa [rm] using h

/-- The oldest file comes last. -/
theorem oldest_cons {f : File} {d : Dir} (h : ∀ g ∈ d, f.mtime < g.mtime) : oldest (f :: d) = some f.name := by
  have hperm : (lsTime (f :: d)).Perm (f :: d) := List.mergeSort_perm _ _
  have hsorted : (lsTime (f :: d)).Pairwise fun a b => a.key ≤ b.key := by
    have hle : (lsTime (f :: d)).Pairwise fun a b => decide (a.key ≤ b.key) = true := by
      apply List.pairwise_mergeSort
      · intro a b c hab hbc
        exact decide_eq_true ((of_decide_eq_true hab).trans (of_decide_eq_true hbc))
      · intro a b
        simpa using le_total a.key b.key
    exact hle.imp of_decide_eq_true
  cases hlast : (lsTime (f :: d)).getLast? with
  | none =>
    rw [List.getLast?_eq_none_iff.1 hlast] at hperm
    exact absurd hperm.symm.eq_nil (List.cons_ne_nil f d)
  | some g =>
    obtain ⟨front, hfront⟩ := List.getLast?_eq_some_iff.1 hlast
    rw [hfront] at hperm hsorted
    have hmem : g ∈ f :: d := hperm.subset (by simp)
    have hkey : f.key ≤ g.key := by
      rcases List.mem_append.1 (hperm.symm.subset List.mem_cons_self) with hf | hf
      · exact (List.pairwise_append.1 hsorted).2.2 f hf g List.mem_cons_self
      · rw [List.mem_singleton.1 hf]
    have hmtime : g.mtime ≤ f.mtime := OrderDual.toDual_le_toDual.1 (Prod.Lex.monotone_fst _ _ hkey)
    rcases List.mem_cons.1 hmem with rfl | hg
    · simp [oldest, hlast]
    · have hlt := h g hg
      omega

theorem map_of_ne {d : Dir} {name : Name} (g : File → File) (h : ∀ f ∈ d, f.name ≠ name) :
    d.map (fun f => if f.name = name then g f else f) = d := by
  induction d with
  | nil => rfl
  | cons f d ih =>
    obtain ⟨hf, hd⟩ := List.forall_mem_cons.1 h
    rw [List.map_cons, if_neg hf, ih hd]

theorem mv_last {d : Dir} {f : File} {dst : Name} (h : ∀ g ∈ d, g.name ≠ f.name) (hdst : ∀ g ∈ d ++ [f], g.name ≠ dst) :
    mv (d ++ [f]) f.name dst = d ++ [{ f with name := dst }] := by
  rw [mv, find_append_singleton h, rm_of_ne hdst, List.map_append, map_of_ne _ h]
  simp

theorem append_last {d : Dir} {f : File} (h : ∀ g ∈ d, g.name ≠ f.name) (out : List UInt8) (time : Nat) :
    append (d ++ [f]) f.name out time =
      d ++ [{ f with bytes := f.bytes ++ out, mtime := if out = [] then f.mtime else time }] := by
  rw [append, find_append_singleton h, List.map_append, map_of_ne _ h]
  simp

theorem append_new {d : Dir} {name : Name} (h : ∀ g ∈ d, g.name ≠ name) (out : List UInt8) (time : Nat) :
    append d name out time = d ++ [⟨name, time, out⟩] := by
  rw [append, find_eq_none.2 h]

/-! ## The directory -/

/-- The archives from the oldest to the newest, and the log; nothing in it is later than `t`. -/
structure Tidy (t : Nat) (archives : Dir) (log : File) : Prop where
  log_name : log.name = logfile
  log_time : log.mtime ≤ t
  dated : ∀ f ∈ archives, ∃ n ≤ t, f.name = archive n
  apart : (archives.map File.name).Nodup
  ages : (archives ++ [log]).Pairwise fun f g => f.mtime < g.mtime

/-- The bytes of the files, as segments of what the loader has written. -/
def segments (archives : Dir) (log : File) : Segments UInt8 := ⟨archives.map File.bytes, log.bytes⟩

section
variable {t : Nat} {archives : Dir} {log : File}

theorem Tidy.name_ne (h : Tidy t archives log) : ∀ f ∈ archives, f.name ≠ log.name := by
  intro f hf
  obtain ⟨n, _, hn⟩ := h.dated f hf
  rw [hn, h.log_name]
  exact archive_ne_logfile n

/-- A new name is not there. -/
theorem Tidy.name_ne_archive (h : Tidy t archives log) {date : Nat} (hdate : t < date) :
    ∀ f ∈ archives ++ [log], f.name ≠ archive date := by
  intro f hf heq
  rcases List.mem_append.1 hf with hf | hf
  · obtain ⟨n, hn, hname⟩ := h.dated f hf
    have hsame := archive_injective (hname.symm.trans heq)
    omega
  · rw [List.mem_singleton.1 hf, h.log_name] at heq
    exact archive_ne_logfile date heq.symm

/-- The log is written to. -/
theorem Tidy.append (h : Tidy t archives log) {s : Start} (hdate : t < s.date) (hwrote : s.date ≤ s.wrote) :
    ∃ log', append (archives ++ [log]) logfile s.out s.wrote = archives ++ [log'] ∧ Tidy s.wrote archives log' ∧
      segments archives log' = (segments archives log).write s.out := by
  rw [← h.log_name]
  refine ⟨_, append_last h.name_ne s.out s.wrote, ⟨h.log_name, ?_, ?_, h.apart, ?_⟩, rfl⟩
  · have hold := h.log_time
    simp only
    split <;> omega
  · intro f hf
    obtain ⟨n, hn, hname⟩ := h.dated f hf
    exact ⟨n, by omega, hname⟩
  · have hages := List.pairwise_append.1 h.ages
    refine List.pairwise_append.2 ⟨hages.1, List.pairwise_singleton _ _, fun f hf g hg => ?_⟩
    have hlt := hages.2.2 f hf log List.mem_cons_self
    have hold := h.log_time
    rw [List.mem_singleton.1 hg]
    simp only
    split <;> omega

/-- The log is closed and a new one begins. -/
theorem Tidy.renew (h : Tidy t archives log) {s : Start} (hdate : t < s.date) (hwrote : s.date ≤ s.wrote) :
    LogRotate.append (mv (archives ++ [log]) logfile (archive s.date)) logfile s.out s.wrote =
        archives ++ [{ log with name := archive s.date }] ++ [⟨logfile, s.wrote, s.out⟩] ∧
      Tidy s.wrote (archives ++ [{ log with name := archive s.date }]) ⟨logfile, s.wrote, s.out⟩ := by
  have hfresh := h.name_ne_archive hdate
  have hold := h.log_time
  have hnames : ∀ f ∈ archives ++ [{ log with name := archive s.date }], f.name ≠ logfile := by
    intro f hf
    rcases List.mem_append.1 hf with hf | hf
    · rw [← h.log_name]
      exact h.name_ne f hf
    · rw [List.mem_singleton.1 hf]
      exact archive_ne_logfile s.date
  refine ⟨?_, rfl, Nat.le_refl _, ?_, ?_, ?_⟩
  · rw [← append_new hnames, ← h.log_name, mv_last h.name_ne hfresh]
  · intro f hf
    rcases List.mem_append.1 hf with hf | hf
    · obtain ⟨n, hn, hname⟩ := h.dated f hf
      exact ⟨n, by omega, hname⟩
    · rw [List.mem_singleton.1 hf]
      exact ⟨s.date, hwrote, rfl⟩
  · rw [List.map_append, List.nodup_append]
    refine ⟨h.apart, List.nodup_singleton _, ?_⟩
    rintro x hx y hy rfl
    obtain ⟨f, hf, rfl⟩ := List.mem_map.1 hx
    exact hfresh f (List.mem_append_left _ hf) (List.mem_singleton.1 hy)
  · have hages := List.pairwise_append.1 h.ages
    refine List.pairwise_append.2 ⟨List.pairwise_append.2 ⟨hages.1, List.pairwise_singleton _ _, ?_⟩,
      List.pairwise_singleton _ _, ?_⟩
    · intro f hf g hg
      rw [List.mem_singleton.1 hg]
      exact hages.2.2 f hf log List.mem_cons_self
    · intro f hf g hg
      rw [List.mem_singleton.1 hg]
      rcases List.mem_append.1 hf with hf | hf
      · have hlt := hages.2.2 f hf log List.mem_cons_self
        simp only
        omega
      · rw [List.mem_singleton.1 hf]
        simp only
        omega

/-- The oldest file goes. -/
theorem Tidy.drop {f : File} (h : Tidy t (f :: archives) log) :
    oldest (f :: archives ++ [log]) = some f.name ∧ rm (f :: archives ++ [log]) f.name = archives ++ [log] ∧
      Tidy t archives log := by
  obtain ⟨hfirst, hages⟩ := List.pairwise_cons.1 h.ages
  obtain ⟨hnew, hapart⟩ := List.nodup_cons.1 h.apart
  refine ⟨oldest_cons hfirst, ?_, h.log_name, h.log_time, ?_, hapart, hages⟩
  · have hothers : ∀ g ∈ archives ++ [log], g.name ≠ f.name := by
      intro g hg
      rcases List.mem_append.1 hg with hg | hg
      · intro heq
        exact hnew (heq ▸ List.mem_map_of_mem hg)
      · rw [List.mem_singleton.1 hg]
        exact (h.name_ne f List.mem_cons_self).symm
    have hrest := rm_of_ne hothers
    unfold rm at hrest ⊢
    simp only [List.cons_append, List.filter_cons, ne_eq, not_true_eq_false, decide_false, Bool.false_eq_true, if_false]
    exact hrest
  · intro g hg
    exact h.dated g (List.mem_cons_of_mem f hg)

/-- **A start of the script** does to the files what `put` does to the segments. -/
theorem script_put {lim : Limits} (hnum : 2 ≤ lim.maxLogFileNum) (h : Tidy t archives log) {s : Start} (hdate : t < s.date)
    (hwrote : s.date ≤ s.wrote) :
    ∃ archives' log', script lim (archives ++ [log]) s = archives' ++ [log'] ∧ Tidy s.wrote archives' log' ∧
      segments archives' log' =
        (segments archives log).put lim.maxLogFileSize lim.maxLogFileNum s.out := by
  have hfind : find (archives ++ [log]) logfile = some log := by
    rw [← h.log_name]
    exact find_append_singleton h.name_ne
  simp only [script, hfind]
  by_cases hlarge : log.bytes.length ≥ lim.maxLogFileSize
  · rw [if_pos hlarge]
    have hfull : lim.maxLogFileSize ≤ (segments archives log).current.length := hlarge
    have hcount : lsLines (archives ++ [log]) = (segments archives log).count + 1 := by
      simp [lsLines, Segments.count, segments]
    rw [Segments.put_of_le hfull]
    by_cases hmany : lsLines (archives ++ [log]) > lim.maxLogFileNum
    · rw [if_pos hmany, Segments.rotate_of_le (by omega)]
      cases archives with
      | nil =>
        simp [lsLines] at hmany
        omega
      | cons f archives =>
        obtain ⟨holdest, hrm, htidy⟩ := h.drop
        obtain ⟨hscript, htidy'⟩ := htidy.renew hdate hwrote
        refine ⟨_, _, ?_, htidy', ?_⟩
        · simp only [holdest, hrm]
          exact hscript
        · simp [segments, Segments.write]
    · rw [if_neg hmany, Segments.rotate_of_lt (by omega)]
      obtain ⟨hscript, htidy'⟩ := h.renew hdate hwrote
      exact ⟨_, _, hscript, htidy', by simp [segments, Segments.write]⟩
  · rw [if_neg hlarge]
    have hroom : (segments archives log).current.length < lim.maxLogFileSize := Nat.lt_of_not_ge hlarge
    rw [Segments.put_of_lt hroom]
    obtain ⟨log', happend, htidy, hsegments⟩ := h.append hdate hwrote
    exact ⟨archives, log', happend, htidy, hsegments⟩

/-! ## Runs -/

theorem starts_put {lim : Limits} (hnum : 2 ≤ lim.maxLogFileNum) (h : Tidy t archives log) {starts : List Start}
    (hl : Later t starts) :
    ∃ archives' log' t', starts.foldl (script lim) (archives ++ [log]) = archives' ++ [log'] ∧ Tidy t' archives' log' ∧
      segments archives' log' = (starts.map Start.out).foldl (Segments.put lim.maxLogFileSize lim.maxLogFileNum)
        (segments archives log) := by
  induction starts generalizing t archives log with
  | nil => exact ⟨archives, log, t, rfl, h, rfl⟩
  | cons s starts ih =>
    obtain ⟨hdate, hwrote, hl⟩ := hl
    obtain ⟨archives', log', hscript, htidy, hsegments⟩ := script_put hnum h hdate hwrote
    rw [List.foldl_cons, hscript, List.map_cons, List.foldl_cons, ← hsegments]
    exact ih htidy hl

end

theorem kept_segments (archives : Dir) (log : File) :
    (segments archives log).kept = (archives ++ [log]).flatMap File.bytes := by
  simp [Segments.kept, segments, List.flatMap]

/-- **What is kept of the log**: from an empty directory on, if the clock goes on from start to start, there are at most
as many files as the limit. Read from the oldest to the newest they are an end of all that the loader has written: all of
it, or at least the limit of files, less one, times the limit of their size. -/
theorem starts_kept {lim : Limits} (hsize : 0 < lim.maxLogFileSize) (hnum : 2 ≤ lim.maxLogFileNum) {t : Nat}
    {starts : List Start} (hl : Later t starts) :
    (starts.foldl (script lim) []).length ≤ lim.maxLogFileNum ∧
      (starts.foldl (script lim) []).Pairwise (fun f g => f.mtime < g.mtime) ∧
      (starts.foldl (script lim) []).flatMap File.bytes <:+ starts.flatMap Start.out ∧
      ((starts.foldl (script lim) []).flatMap File.bytes = starts.flatMap Start.out ∨
        (lim.maxLogFileNum - 1) * lim.maxLogFileSize ≤ ((starts.foldl (script lim) []).flatMap File.bytes).length) := by
  cases starts with
  | nil => simp
  | cons s starts =>
    obtain ⟨hdate, hwrote, hl⟩ := hl
    have hfirst : script lim [] s = [] ++ [⟨logfile, s.wrote, s.out⟩] := rfl
    have htidy : Tidy s.wrote [] ⟨logfile, s.wrote, s.out⟩ :=
      ⟨rfl, Nat.le_refl _, List.forall_mem_nil _, List.nodup_nil, List.pairwise_singleton _ _⟩
    have hput : segments [] ⟨logfile, s.wrote, s.out⟩ =
        Segments.put lim.maxLogFileSize lim.maxLogFileNum {} s.out := by
      rw [Segments.put_of_lt hsize]
      rfl
    obtain ⟨archives, log, t', hrun, htidy', hsegments⟩ := starts_put hnum htidy hl
    have hkeeps : Segments.Keeps lim.maxLogFileSize lim.maxLogFileNum ((s :: starts).map Start.out).flatten _ :=
      Segments.kept_suffix hnum _
    rw [hput, ← List.foldl_cons, ← List.map_cons] at hsegments
    rw [← hsegments, ← List.flatMap_def] at hkeeps
    have hlength := hkeeps.length_kept
    have hfew := hkeeps.few
    have hsuffix := hkeeps.suffix
    rw [kept_segments] at hlength hsuffix
    rw [List.foldl_cons, hfirst, hrun]
    refine ⟨?_, htidy'.ages, hsuffix, hlength⟩
    simpa [Segments.count, segments] using hfew

/-- Three starts, and at most two files of two bytes. -/
theorem starts_kept_small :
    ([⟨1, [65, 66], 2⟩, ⟨3, [67, 68], 4⟩, ⟨5, [69], 6⟩].foldl (script ⟨2, 2⟩) []).length ≤ 2 ∧
      ([⟨1, [65, 66], 2⟩, ⟨3, [67, 68], 4⟩, ⟨5, [69], 6⟩].foldl (script ⟨2, 2⟩) []).Pairwise
        (fun f g => f.mtime < g.mtime) ∧
      ([⟨1, [65, 66], 2⟩, ⟨3, [67, 68], 4⟩, ⟨5, [69], 6⟩].foldl (script ⟨2, 2⟩) []).flatMap File.bytes <:+
        ([⟨1, [65, 66], 2⟩, ⟨3, [67, 68], 4⟩, ⟨5, [69], 6⟩] : List Start).flatMap Start.out ∧
      (([⟨1, [65, 66], 2⟩, ⟨3, [67, 68], 4⟩, ⟨5, [69], 6⟩].foldl (script ⟨2, 2⟩) []).flatMap File.bytes =
          ([⟨1, [65, 66], 2⟩, ⟨3, [67, 68], 4⟩, ⟨5, [69], 6⟩] : List Start).flatMap Start.out ∨
        (2 - 1) * 2 ≤ (([⟨1, [65, 66], 2⟩, ⟨3, [67, 68], 4⟩, ⟨5, [69], 6⟩].foldl (script ⟨2, 2⟩) []).flatMap
          File.bytes).length) :=
  @starts_kept ⟨2, 2⟩ (by decide) (by decide) 0 _ (by simp [Later])

end TinyUtils.LogRotate
