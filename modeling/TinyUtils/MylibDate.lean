import TinyUtils.Lib.Radix
import TinyUtils.Lib.Tally
/-!
# `MylibDate` (`python_utils/mylib_date.py`)

A working day is a day from Monday to Friday that is no holiday, or a day of a weekend that is shifted and no holiday.
Holidays and shifted days are given by tables: a key for a year and a month, such as "2016-2", and the days of that
month. The two loops go from day to day, forwards and backwards, and count the working days.

Days are the days of the Gregorian calendar without a first or a last year, where `datetime` has the years 1 to 9999 and
raises `OverflowError` at a day beyond.

| here | there |
| --- | --- |
| `DateTime`, `ymd`, `isoweekday` | `datetime`, from the standard library |
| `Table`, `hasDay`        | `dict.has_key(strKey) and (day in dict[strKey])` |
| `init`                   | `Init` (`:13`), at a given time |
| `isWorkingDay`           | `IsWorkingDay` (`:19`) |
| `numTurn`                | the body of both loops (`:39`, `:49`) |
| `nextNumWorkingDay`      | `NextNumWorkingDay` (`:37`) |
| `preNumWorkingDayNoToday` | `PreNumWorkingDayNoToday` (`:47`) |
| `getLastWorkingDay`, `getNextWorkingDay` | `:56`, `:59` |
-/

namespace TinyUtils.Date

open Loops Radix Tally

/-- The number of the day, which is 1 on 1 January of the year 1, and the microseconds of the day. -/
@[ext]
structure DateTime where
  date : Int
  time : Nat

/-- `+ datetime.timedelta(days)` -/
def DateTime.addDays (d : DateTime) (days : Int) : DateTime := { d with date := d.date + days }

/-- The month and its day, for the `n`-th day from the first of the month on. -/
def monthDay : List Int → Int → Int → Int × Int
  | [], month, n => (month, n + 1)
  | length :: lengths, month, n => if n < length then (month, n + 1) else monthDay lengths (month + 1) (n - length)

/-- The year, the month and the day. A cycle of 400 years has 146097 days, one of 100 years 36524 or one more at its
end, one of 4 years 1461. -/
def ymd (date : Int) : Int × Int × Int :=
  let n400 := (date - 1) / 146097
  let r400 := (date - 1) % 146097
  let n100 := r400 / 36524
  let r100 := r400 % 36524
  let n4 := r100 / 1461
  let r4 := r100 % 1461
  let n1 := r4 / 365
  let r1 := r4 % 365
  let year := n400 * 400 + 1 + n100 * 100 + n4 * 4 + n1
  if n1 = 4 ∨ n100 = 4 then (year - 1, 12, 31)
  else
    let february := if n1 = 3 ∧ (n4 ≠ 24 ∨ n100 = 3) then 29 else 28
    (year, monthDay [31, february, 31, 30, 31, 30, 31, 31, 30, 31, 30, 31] 1 r1)

example : ymd 735999 = (2016, 2, 5) := by decide

/-- 1 is Monday and 7 is Sunday. -/
def isoweekday (date : Int) : Int := if date % 7 = 0 then 7 else date % 7

/-- `FRIDAY` -/
def friday : Int := 5

abbrev Table := List (List Char × List Int)

/-- `"%d-%d" % (year, month)` -/
def strKey (year month : Int) : List Char :=
  signed year (digits false 10 year.natAbs) ++ '-' :: signed month (digits false 10 month.natAbs)

def hasDay (table : Table) (key : List Char) (day : Int) : Bool :=
  match table.lookup key with
  | some days => days.contains day
  | none => false

structure MylibDate where
  holidaysDict : Table
  workdaysDict : Table
  nowDateTime : DateTime

/-- `holiday_config` -/
def holidayConfig : Table :=
  [("2016-1".toList, [1, 2, 3]), ("2016-2".toList, [7, 8, 9, 10, 11, 12, 13]), ("2016-4".toList, [3, 4, 5]),
    ("2016-5".toList, [1, 2, 3]), ("2016-6".toList, [9, 10, 11]), ("2016-9".toList, [15, 16, 17]),
    ("2016-10".toList, [1, 2, 3, 4, 5, 6, 7])]

/-- `workday_config` -/
def workdayConfig : Table := []

namespace MylibDate

def init (now : DateTime) : MylibDate := ⟨holidayConfig, workdayConfig, now⟩

variable (c : MylibDate)

def isWorkingDay (someDateTime : DateTime) : Bool :=
  let (year, month, day) := ymd someDateTime.date
  let key := strKey year month
  if hasDay c.holidaysDict key day then false
  else if isoweekday someDateTime.date > friday then
    if hasDay c.workdaysDict key day then true else false
  else true

/-- `while num > 0` -/
def numTurn (days : Int) : DateTime × Int → Except Empty ((DateTime × Int) ⊕ DateTime)
  | (tmpDateTime, num) =>
    if num > 0 then
      let num := if c.isWorkingDay tmpDateTime then num - 1 else num
      .ok (.inl (if num ≠ 0 then tmpDateTime.addDays days else tmpDateTime, num))
    else .ok (.inr tmpDateTime)

def nextNumWorkingDay (someDateTime : DateTime) (num : Int) : Fuelled Empty DateTime :=
  loop (c.numTurn 1) (someDateTime, num)

def preNumWorkingDayNoToday (someDateTime : DateTime) (num : Int) : Fuelled Empty DateTime :=
  loop (c.numTurn (-1)) (someDateTime.addDays (-1), num)

def getLastWorkingDay : Fuelled Empty DateTime := c.preNumWorkingDayNoToday c.nowDateTime 1

def getNextWorkingDay : Fuelled Empty DateTime :=
  if c.isWorkingDay c.nowDateTime then c.nextNumWorkingDay c.nowDateTime 2 else c.nextNumWorkingDay c.nowDateTime 1

end MylibDate

/-! ## Days outside of the tables -/

theorem exists_length_le (table : Table) : ∃ bound, ∀ entry ∈ table, entry.1.length ≤ bound := by
  induction table with
  | nil => exact ⟨0, fun entry h => absurd h List.not_mem_nil⟩
  | cons entry table ih =>
    obtain ⟨bound, hbound⟩ := ih
    refine ⟨max entry.1.length bound, ?_⟩
    intro entry' h
    rcases List.mem_cons.1 h with rfl | h
    · exact Nat.le_max_left _ _
    · exact Nat.le_trans (hbound entry' h) (Nat.le_max_right _ _)

theorem natAbs_lt_pow_strKey (year month : Int) : year.natAbs < 10 ^ (strKey year month).length := by
  have hdigits : year.natAbs < 10 ^ (digits false 10 year.natAbs).length := lt_pow_length_digits (by decide)
  have hlen : (digits false 10 year.natAbs).length ≤ (strKey year month).length := by
    rw [strKey, List.length_append]
    exact Nat.le_trans (length_le_signed _ _) (Nat.le_add_right _ _)
  exact Nat.lt_of_lt_of_le hdigits (Nat.pow_le_pow_right (by decide) hlen)

/-- A table has no key for a year of so many digits. -/
theorem hasDay_eq_false {table : Table} {bound : Nat} (h : ∀ entry ∈ table, entry.1.length ≤ bound) {year : Int}
    (hyear : 10 ^ bound ≤ year.natAbs) (month day : Int) : hasDay table (strKey year month) day = false := by
  have hlong : bound < (strKey year month).length := by
    have hpow := Nat.lt_of_le_of_lt hyear (natAbs_lt_pow_strKey year month)
    exact (Nat.pow_lt_pow_iff_right (by decide)).1 hpow
  have hnone : table.lookup (strKey year month) = none := by
    rw [List.lookup_eq_none_iff]
    intro entry hentry
    have hle := h entry hentry
    simp only [bne_iff_ne, ne_eq]
    rintro heq
    rw [heq] at hlong
    omega
  rw [hasDay, hnone]

/-- The first day of a cycle of 400 years is a Monday. -/
theorem isoweekday_cycle (m : Int) : isoweekday (146097 * m + 1) = 1 := by
  unfold isoweekday
  split <;> omega

theorem ymd_cycle (m : Int) : ymd (146097 * m + 1) = (400 * m + 1, 1, 1) := by
  have hdiv : (146097 * m + 1 - 1) / 146097 = m := by omega
  have hmod : (146097 * m + 1 - 1) % 146097 = 0 := by omega
  have hyear : m * 400 + 1 + 0 * 100 + 0 * 4 + 0 = 400 * m + 1 := by omega
  have hday : ∀ february, monthDay [31, february, 31, 30, 31, 30, 31, 31, 30, 31, 30, 31] 1 0 = (1, 1) := fun _ => rfl
  simp only [ymd, hdiv, hmod, Int.zero_ediv, Int.zero_emod, hyear, hday]
  rfl

namespace MylibDate

variable (c : MylibDate)

/-- The working days, by their numbers. -/
abbrev Works (date : Int) : Prop := c.isWorkingDay ⟨date, 0⟩ = true

variable {c}

theorem isWorkingDay_iff {d : DateTime} : c.isWorkingDay d = true ↔ c.Works d.date := Iff.rfl

/-- Nearly all first days of a cycle are working days. -/
theorem exists_works_cycle (c : MylibDate) : ∃ bound : Nat, 1 ≤ bound ∧
    ∀ m : Int, bound ≤ (400 * m + 1).natAbs → c.Works (146097 * m + 1) := by
  obtain ⟨holidays, hholidays⟩ := exists_length_le c.holidaysDict
  refine ⟨10 ^ holidays, Nat.pow_pos (by decide), fun m hm => ?_⟩
  have hfree : hasDay c.holidaysDict (strKey (400 * m + 1) 1) 1 = false := hasDay_eq_false hholidays hm 1 1
  have hweekday : ¬isoweekday (146097 * m + 1) > friday := by
    rw [isoweekday_cycle]
    decide
  simp only [Works, isWorkingDay, ymd_cycle, hfree, if_neg hweekday, Bool.false_eq_true, if_false]

theorem exists_works_ge (x : Int) : ∃ y, x ≤ y ∧ c.Works y := by
  obtain ⟨bound, _, hworks⟩ := exists_works_cycle c
  exact ⟨146097 * (bound + x.natAbs : Nat) + 1, by omega, hworks _ (by omega)⟩

theorem exists_works_le (x : Int) : ∃ y, y ≤ x ∧ c.Works y := by
  obtain ⟨bound, hpos, hworks⟩ := exists_works_cycle c
  exact ⟨146097 * -(bound + x.natAbs + 1 : Nat) + 1, by omega, hworks _ (by omega)⟩

/-! ## The loops -/

theorem numTurn_done (days : Int) (d : DateTime) : c.numTurn days (d, 0) = .ok (.inr d) := by
  simp only [numTurn, gt_iff_lt, Int.lt_irrefl, if_false]

theorem numTurn_skip {days : Int} {d : DateTime} (hd : ¬c.isWorkingDay d = true) (left : Nat) :
    c.numTurn days (d, (left + 1 : Nat)) = .ok (.inl (d.addDays days, (left + 1 : Nat))) := by
  have hpos : ((left + 1 : Nat) : Int) > 0 := by omega
  have hne : ((left + 1 : Nat) : Int) ≠ 0 := by omega
  simp only [numTurn, if_pos hpos, if_neg hd, if_pos hne]

theorem numTurn_hit {days : Int} {d : DateTime} (hd : c.isWorkingDay d = true) (left : Nat) :
    c.numTurn days (d, (left + 1 : Nat)) =
      .ok (.inl (if left = 0 then d else d.addDays days, (left : Int))) := by
  have hpos : ((left + 1 : Nat) : Int) > 0 := by omega
  have hleft : ((left + 1 : Nat) : Int) - 1 = left := by omega
  simp only [numTurn, if_pos hpos, if_pos hd, hleft]
  by_cases hzero : left = 0
  · subst hzero
    rfl
  · have hne : (left : Int) ≠ 0 := by omega
    rw [if_pos hne, if_neg hzero]

/-- A loop that goes the given way over the days. -/
theorem returns_numTurn {days : Int} {n : Nat} (hn : 1 ≤ n) (pos : Nat → DateTime)
    (hpos : ∀ k, (pos k).addDays days = pos (k + 1))
    (hinf : (Set.ofPred fun k => c.isWorkingDay (pos k) = true).Infinite) :
    Returns (loop (c.numTurn days) (pos 0, (n : Int)))
      (pos (Nat.nth (fun k => c.isWorkingDay (pos k) = true) (n - 1))) := by
  refine returns_countdown pos hinf hn (fun k => numTurn_done days _) (fun k left hk => ?_) (fun k left hk => ?_)
  · rw [numTurn_skip hk, hpos]
  · rw [numTurn_hit hk, hpos]

/-- `NextNumWorkingDay` counts from the given day on. -/
theorem nextNumWorkingDay_returns (c : MylibDate) (d : DateTime) {n : Nat} (hn : 1 ≤ n) :
    ∃ e, Returns (c.nextNumWorkingDay d n) e ∧ e.time = d.time ∧ Forth c.Works d.date n e.date := by
  obtain ⟨date, time⟩ := d
  have hpos : ∀ k : Nat, (⟨date + k, time⟩ : DateTime).addDays 1 = ⟨date + (k + 1 : Nat), time⟩ := by
    intro k
    have hnext : date + (k : Int) + 1 = date + (k + 1 : Nat) := by omega
    rw [DateTime.addDays, hnext]
  have hinf : (Set.ofPred fun k : Nat => c.Works (date + k)).Infinite := infinite_add exists_works_ge
  have hret := returns_numTurn hn (fun k : Nat => (⟨date + k, time⟩ : DateTime)) hpos hinf
  have hstart : date + ((0 : Nat) : Int) = date := Int.add_zero date
  simp only [hstart] at hret
  exact ⟨_, hret, rfl, forth_nth hinf hn⟩

/-- `PreNumWorkingDayNoToday` counts from the day before downwards. -/
theorem preNumWorkingDayNoToday_returns (c : MylibDate) (d : DateTime) {n : Nat} (hn : 1 ≤ n) :
    ∃ e, Returns (c.preNumWorkingDayNoToday d n) e ∧ e.time = d.time ∧ Back c.Works (d.date - 1) n e.date := by
  obtain ⟨date, time⟩ := d
  have hpos : ∀ k : Nat, (⟨date - 1 - k, time⟩ : DateTime).addDays (-1) = ⟨date - 1 - (k + 1 : Nat), time⟩ := by
    intro k
    have hnext : date - 1 - (k : Int) + -1 = date - 1 - (k + 1 : Nat) := by omega
    rw [DateTime.addDays, hnext]
  have hinf : (Set.ofPred fun k : Nat => c.Works (date - 1 - k)).Infinite := infinite_sub exists_works_le
  have hret := returns_numTurn hn (fun k : Nat => (⟨date - 1 - k, time⟩ : DateTime)) hpos hinf
  have hstart : date - 1 - ((0 : Nat) : Int) = date - 1 := Int.sub_zero _
  simp only [hstart] at hret
  exact ⟨_, hret, rfl, back_nth hinf hn⟩

/-! ## What is counted -/

theorem getNextWorkingDay_returns (c : MylibDate) :
    ∃ e, Returns c.getNextWorkingDay e ∧ e.time = c.nowDateTime.time ∧
      IsLeast {o | c.nowDateTime.date + 1 ≤ o ∧ c.Works o} e.date := by
  unfold getNextWorkingDay
  by_cases hnow : c.Works c.nowDateTime.date
  · -- today is counted first
    obtain ⟨e, hret, htime, hforth⟩ := nextNumWorkingDay_returns c c.nowDateTime (n := 2) (by decide)
    refine ⟨e, ?_, htime, (hforth.next_of_mem hnow (Nat.le_refl 1)).isLeast⟩
    rw [if_pos (isWorkingDay_iff.2 hnow)]
    exact hret
  · obtain ⟨e, hret, htime, hforth⟩ := nextNumWorkingDay_returns c c.nowDateTime (n := 1) (by decide)
    refine ⟨e, ?_, htime, (hforth.next_of_not_mem hnow).isLeast⟩
    rw [if_neg (mt isWorkingDay_iff.1 hnow)]
    exact hret

theorem getLastWorkingDay_returns (c : MylibDate) :
    ∃ e, Returns c.getLastWorkingDay e ∧ e.time = c.nowDateTime.time ∧
      IsGreatest {o | o ≤ c.nowDateTime.date - 1 ∧ c.Works o} e.date := by
  obtain ⟨e, hret, htime, hback⟩ := preNumWorkingDayNoToday_returns c c.nowDateTime (n := 1) (by decide)
  exact ⟨e, hret, htime, hback.isGreatest⟩

/-- **The working days are counted exactly**: `NextNumWorkingDay` ends at the one working day, at the same time of the
day, such that `n` days are working days from the given one to it; so `GetNextWorkingDay` gives the first working day
after today. -/
theorem nextNumWorkingDay_exact (c : MylibDate) :
    (∀ (d : DateTime) (n : Nat), 1 ≤ n → ∃ e, Returns (c.nextNumWorkingDay d n) e ∧
      ∀ e' : DateTime, e' = e ↔ d.date ≤ e'.date ∧ e'.time = d.time ∧ c.isWorkingDay e' = true ∧
        ((Finset.Icc d.date e'.date).filter fun o => c.isWorkingDay ⟨o, d.time⟩ = true).card = n) ∧
    ∃ e, Returns c.getNextWorkingDay e ∧ e.time = c.nowDateTime.time ∧
      IsLeast {o | c.nowDateTime.date < o ∧ c.isWorkingDay ⟨o, c.nowDateTime.time⟩ = true} e.date := by
  constructor
  · intro d n hn
    obtain ⟨e, hret, htime, hforth⟩ := nextNumWorkingDay_returns c d hn
    refine ⟨e, hret, fun e' => ⟨?_, ?_⟩⟩
    · rintro rfl
      exact ⟨hforth.le, htime, hforth.mem, hforth.count⟩
    · rintro ⟨hle, htime', hworks, hcount⟩
      have hforth' : Forth c.Works d.date n e'.date := ⟨hle, hworks, hcount⟩
      exact DateTime.ext (hforth'.unique hforth) (htime'.trans htime.symm)
  · exact getNextWorkingDay_returns c

/-- From 5 February 2016 on, a Friday before a holiday. -/
theorem nextNumWorkingDay_exact_february :
    ∃ e, Returns ((init ⟨735999, 0⟩).nextNumWorkingDay ⟨735999, 0⟩ (2 : Nat)) e ∧
      ∀ e' : DateTime, e' = e ↔ 735999 ≤ e'.date ∧ e'.time = 0 ∧ (init ⟨735999, 0⟩).isWorkingDay e' = true ∧
        ((Finset.Icc 735999 e'.date).filter fun o => (init ⟨735999, 0⟩).isWorkingDay ⟨o, 0⟩ = true).card = 2 :=
  (nextNumWorkingDay_exact (init ⟨735999, 0⟩)).1 ⟨735999, 0⟩ 2 (by decide)

/-- **The steps forth and back undo each other** between working days. -/
theorem next_pre_inverse (c : MylibDate) {d : DateTime} {n : Nat} (hd : c.isWorkingDay d = true) (hn : 1 ≤ n) :
    Returns (c.nextNumWorkingDay d (n + 1 : Nat) >>= fun e => c.preNumWorkingDayNoToday e n) d ∧
      Returns (c.preNumWorkingDayNoToday d n >>= fun e => c.nextNumWorkingDay e (n + 1 : Nat)) d := by
  have hn' : 1 ≤ n + 1 := Nat.succ_pos n
  constructor
  · obtain ⟨e, hret, htime, hforth⟩ := nextNumWorkingDay_returns c d hn'
    obtain ⟨d', hret', htime', hback⟩ := preNumWorkingDayNoToday_returns c e hn
    have hdate : d'.date = d.date := hback.unique ((forth_iff_back hd hforth.mem hn).1 hforth)
    rw [DateTime.ext hdate (htime'.trans htime)] at hret'
    exact hret.bind hret'
  · obtain ⟨e, hret, htime, hback⟩ := preNumWorkingDayNoToday_returns c d hn
    obtain ⟨d', hret', htime', hforth⟩ := nextNumWorkingDay_returns c e hn'
    have hdate : d'.date = d.date := hforth.unique ((forth_iff_back hback.mem hd hn).2 hback)
    rw [DateTime.ext hdate (htime'.trans htime)] at hret'
    exact hret.bind hret'

theorem next_pre_inverse_february :
    Returns ((init ⟨735999, 0⟩).nextNumWorkingDay ⟨735999, 0⟩ (1 + 1 : Nat) >>= fun e =>
        (init ⟨735999, 0⟩).preNumWorkingDayNoToday e (1 : Nat)) ⟨735999, 0⟩ ∧
      Returns ((init ⟨735999, 0⟩).preNumWorkingDayNoToday ⟨735999, 0⟩ (1 : Nat) >>= fun e =>
        (init ⟨735999, 0⟩).nextNumWorkingDay e (1 + 1 : Nat)) ⟨735999, 0⟩ :=
  next_pre_inverse (init ⟨735999, 0⟩) (by decide +kernel) (by decide)

end MylibDate

end TinyUtils.Date
