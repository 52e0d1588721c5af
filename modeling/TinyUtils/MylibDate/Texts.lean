import TinyUtils.Lib.FixedWidth
import TinyUtils.MylibDate
/-!
# The texts of days (`python_utils/mylib_date.py:65-70`)

A text such as "2016-02-05 15:00:00" is compared with others as a text, and that is right: in the years that `datetime` has
the texts of days are ordered as the days are (`pmStr_strictMono`). So the text for the last working day is the last one
of a working day before the text for today (`getLastWorkingDay15PmStr_isGreatest`).

| here | there |
| --- | --- |
| `maxDate`    | `datetime.date.max`, 31 December 9999 |
| `isoformat`  | `date.isoformat()`, which is `"%04d-%02d-%02d"` |
| `pmStr`      | `.date().isoformat() + " 15:00:00"` (`:67`, `:70`) |
| `getLastWorkingDay15PmStr`, `getToday15PmStr` | `:65`, `:69`, with the time of `datetime.now()` |
-/

namespace TinyUtils.Date

open FixedWidth Loops

def maxDate : Int := 3652059

def isoformat (date : Int) : List Char :=
  let (year, month, day) := ymd date
  padded 4 year.toNat ++ '-' :: (padded 2 month.toNat ++ '-' :: padded 2 day.toNat)

example : isoformat 735999 = "2016-02-05".toList := by decide

def pmStr (date : Int) : List Char := isoformat date ++ " 15:00:00".toList

namespace MylibDate

def getLastWorkingDay15PmStr (c : MylibDate) : Fuelled Empty (List Char) := do
  let lastWorkingDay ← c.getLastWorkingDay
  pure (pmStr lastWorkingDay.date)

def getToday15PmStr (now : DateTime) : List Char := pmStr now.date

end MylibDate

/-! ## The order of days -/

/-- The first of the year. -/
def newYear (year : Int) : Int := 365 * (year - 1) + (year - 1) / 4 - (year - 1) / 100 + (year - 1) / 400 + 1

/-- The lengths of the months. -/
def lengths (february : Int) : List Int := [31, february, 31, 30, 31, 30, 31, 31, 30, 31, 30, 31]

def february (year : Int) : Int := newYear (year + 1) - newYear year - 337

/-- Year, month and day are compared from left to right. -/
def Before (a b : Int × Int × Int) : Prop := a.1 < b.1 ∨ a.1 = b.1 ∧ (a.2.1 < b.2.1 ∨ a.2.1 = b.2.1 ∧ a.2.2 < b.2.2)

theorem newYear_mono {x y : Int} (h : x ≤ y) : newYear x ≤ newYear y := by
  unfold newYear
  omega

theorem february_eq (year : Int) : february year = 28 ∨ february year = 29 := by
  unfold february newYear
  omega

theorem newYear_succ (year : Int) : newYear (year + 1) = newYear year + 337 + february year := by
  unfold february
  omega

section
variable (n400 : Int) {n100 n4 n1 : Int}

/-- The days of the cycles and years before a year. -/
theorem newYear_cycles (h100 : 0 ≤ n100 ∧ n100 ≤ 3) (h4 : 0 ≤ n4 ∧ n4 ≤ 24) (h1 : 0 ≤ n1 ∧ n1 ≤ 3) :
    newYear (n400 * 400 + 1 + n100 * 100 + n4 * 4 + n1) =
      146097 * n400 + 36524 * n100 + 1461 * n4 + 365 * n1 + 1 := by
  unfold newYear
  omega

theorem february_cycles (h100 : 0 ≤ n100 ∧ n100 ≤ 3) (h4 : 0 ≤ n4 ∧ n4 ≤ 24) (h1 : 0 ≤ n1 ∧ n1 ≤ 3) :
    february (n400 * 400 + 1 + n100 * 100 + n4 * 4 + n1) = if n1 = 3 ∧ (n4 ≠ 24 ∨ n100 = 3) then 29 else 28 := by
  unfold february newYear
  split <;> omega

end

/-- **The day of the year**: what is left of the date, by months. -/
theorem ymd_eq (date : Int) : ∃ year, newYear year ≤ date ∧ date < newYear (year + 1) ∧
    ymd date = (year, monthDay (lengths (february year)) 1 (date - newYear year)) := by
  simp only [ymd]
  generalize h400 : (date - 1) / 146097 = n400
  generalize hr400 : (date - 1) % 146097 = r400
  generalize h100 : r400 / 36524 = n100
  generalize hr100 : r400 % 36524 = r100
  generalize h4 : r100 / 1461 = n4
  generalize hr4 : r100 % 1461 = r4
  generalize h1 : r4 / 365 = n1
  generalize hr1 : r4 % 365 = r1
  split
  next hlast =>
    -- the last day of a leap year, which is one of the first cycle of the two that it is between
    have hleap : ∃ m100 m4 : Int, (0 ≤ m100 ∧ m100 ≤ 3) ∧ (0 ≤ m4 ∧ m4 ≤ 24) ∧ (m4 ≠ 24 ∨ m100 = 3) ∧
        n400 * 400 + 1 + n100 * 100 + n4 * 4 + n1 - 1 = n400 * 400 + 1 + m100 * 100 + m4 * 4 + 3 ∧
        date = 146097 * n400 + 36524 * m100 + 1461 * m4 + 365 * 3 + 1 + 365 := by
      by_cases hcentury : n100 = 4
      · exact ⟨3, 24, by omega, by omega, by omega, by omega, by omega⟩
      · exact ⟨n100, n4, by omega, by omega, by omega, by omega, by omega⟩
    obtain ⟨m100, m4, hm100, hm4, hleap, hyear, hdate⟩ := hleap
    have hfirst := newYear_cycles n400 hm100 hm4 (show (0 : Int) ≤ 3 ∧ (3 : Int) ≤ 3 by omega)
    have hfebruary := february_cycles n400 hm100 hm4 (show (0 : Int) ≤ 3 ∧ (3 : Int) ≤ 3 by omega)
    rw [if_pos ⟨rfl, hleap⟩] at hfebruary
    rw [hyear]
    refine ⟨n400 * 400 + 1 + m100 * 100 + m4 * 4 + 3, by omega, by rw [newYear_succ]; omega, ?_⟩
    have hday : date - newYear (n400 * 400 + 1 + m100 * 100 + m4 * 4 + 3) = 365 := by omega
    rw [hfebruary, hday]
    rfl
  next hwithin =>
    have hn100 : 0 ≤ n100 ∧ n100 ≤ 3 := by omega
    have hn4 : 0 ≤ n4 ∧ n4 ≤ 24 := by omega
    have hn1 : 0 ≤ n1 ∧ n1 ≤ 3 := by omega
    have hfirst := newYear_cycles n400 hn100 hn4 hn1
    have hday : date - newYear (n400 * 400 + 1 + n100 * 100 + n4 * 4 + n1) = r1 := by omega
    have hfebruary := february_eq (n400 * 400 + 1 + n100 * 100 + n4 * 4 + n1)
    refine ⟨n400 * 400 + 1 + n100 * 100 + n4 * 4 + n1, by omega, by rw [newYear_succ]; omega, ?_⟩
    rw [hday, february_cycles n400 hn100 hn4 hn1]
    rfl

theorem le_monthDay (lengths : List Int) (month n : Int) : month ≤ (monthDay lengths month n).1 := by
  induction lengths generalizing month n with
  | nil => exact Int.le_refl month
  | cons length lengths ih =>
    unfold monthDay
    split
    · exact Int.le_refl month
    · have hrest := ih (month + 1) (n - length)
      omega

theorem monthDay_lt {lengths : List Int} {month m n : Int} (h : m < n) :
    (monthDay lengths month m).1 < (monthDay lengths month n).1 ∨
      (monthDay lengths month m).1 = (monthDay lengths month n).1 ∧
        (monthDay lengths month m).2 < (monthDay lengths month n).2 := by
  induction lengths generalizing month m n with
  | nil => exact Or.inr ⟨rfl, Int.add_lt_add_right h 1⟩
  | cons length lengths ih =>
    by_cases hn : n < length
    · have hm : m < length := h.trans hn
      simpa [monthDay, hm, hn] using h
    · by_cases hm : m < length
      · -- the later one is in a later month
        have hnext : month + 1 ≤ (monthDay lengths (month + 1) (n - length)).1 := le_monthDay _ _ _
        simp only [monthDay, if_pos hm, if_neg hn]
        omega
      · simp only [monthDay, if_neg hm, if_neg hn]
        exact ih (by omega)

/-- Within the months there are no other days than theirs. -/
theorem monthDay_bounds {lengths : List Int} (month : Int) {n : Int} (h0 : 0 ≤ n) (hsum : n < lengths.sum)
    (hlong : ∀ length ∈ lengths, length ≤ 31) :
    (monthDay lengths month n).1 < month + lengths.length ∧ 1 ≤ (monthDay lengths month n).2 ∧
      (monthDay lengths month n).2 ≤ 31 := by
  induction lengths generalizing month n with
  | nil =>
    rw [List.sum_nil] at hsum
    omega
  | cons length lengths ih =>
    obtain ⟨hfirst, hrest⟩ := List.forall_mem_cons.1 hlong
    rw [List.sum_cons] at hsum
    by_cases hn : n < length
    · simp only [monthDay, if_pos hn, List.length_cons]
      omega
    · have hnext := ih (month + 1) (show 0 ≤ n - length by omega) (by omega) hrest
      simp only [monthDay, if_neg hn, List.length_cons]
      omega

/-- **Days are ordered by year, month and day.** -/
theorem ymd_before {a b : Int} (h : a < b) : Before (ymd a) (ymd b) := by
  obtain ⟨x, hax, hxa, ha⟩ := ymd_eq a
  obtain ⟨y, hby, hyb, hb⟩ := ymd_eq b
  rw [ha, hb]
  rcases lt_trichotomy x y with hlt | rfl | hgt
  · exact Or.inl hlt
  · exact Or.inr ⟨rfl, monthDay_lt (by omega)⟩
  · have hle := newYear_mono (show y + 1 ≤ x by omega)
    omega

/-- The parts of a date have the widths of `isoformat`. -/
theorem ymd_bounds {date : Int} (h1 : 1 ≤ date) (hmax : date ≤ maxDate) :
    1 ≤ (ymd date).1 ∧ (ymd date).1 ≤ 9999 ∧ 1 ≤ (ymd date).2.1 ∧ (ymd date).2.1 ≤ 12 ∧ 1 ≤ (ymd date).2.2 ∧
      (ymd date).2.2 ≤ 31 := by
  obtain ⟨year, hfirst, hlast, hymd⟩ := ymd_eq date
  rw [hymd]
  have hyear : 1 ≤ year ∧ year ≤ 9999 := by
    constructor
    · by_contra hlow
      have hle := newYear_mono (show year + 1 ≤ 1 by omega)
      have hone : newYear 1 = 1 := rfl
      omega
    · by_contra hhigh
      have hle := newYear_mono (show 10000 ≤ year by omega)
      have hend : newYear 10000 = maxDate + 1 := rfl
      omega
  have hfebruary := february_eq year
  have hsum : (lengths (february year)).sum = newYear (year + 1) - newYear year := by
    simp [lengths, february]
    omega
  have hlong : ∀ length ∈ lengths (february year), length ≤ 31 := by
    simp [lengths]
    omega
  have hmonth : 1 ≤ (monthDay (lengths (february year)) 1 (date - newYear year)).1 := le_monthDay _ _ _
  have hbounds := monthDay_bounds 1 (show 0 ≤ date - newYear year by omega) (by omega) hlong
  have hlength : (lengths (february year)).length = 12 := rfl
  rw [hlength] at hbounds
  refine ⟨hyear.1, hyear.2, hmonth, ?_, hbounds.2.1, hbounds.2.2⟩
  have hlt := hbounds.1
  simp only at hlt ⊢
  omega

/-! ## The order of texts -/

theorem length_isoformat {date : Int} (h1 : 1 ≤ date) (hmax : date ≤ maxDate) : (isoformat date).length = 10 := by
  obtain ⟨_, hyear, _, hmonth, _, hday⟩ := ymd_bounds h1 hmax
  have h4 : (padded 4 (ymd date).1.toNat).length = 4 := length_padded (by omega)
  have h2 : (padded 2 (ymd date).2.1.toNat).length = 2 := length_padded (by omega)
  have h2' : (padded 2 (ymd date).2.2.toNat).length = 2 := length_padded (by omega)
  simp [isoformat, h4, h2, h2']

theorem isoformat_lt {a b : Int} (h1 : 1 ≤ a) (h : a < b) (hmax : b ≤ maxDate) : isoformat a < isoformat b := by
  obtain ⟨hy, hya, hm, hma, hd, hda⟩ := ymd_bounds h1 (by omega)
  obtain ⟨_, hyb, _, hmb, _, hdb⟩ := ymd_bounds (show 1 ≤ b by omega) hmax
  have hlength4 : (padded 4 (ymd a).1.toNat).length = (padded 4 (ymd b).1.toNat).length :=
    (length_padded (by omega)).trans (length_padded (by omega)).symm
  have hlength2 : (padded 2 (ymd a).2.1.toNat).length = (padded 2 (ymd b).2.1.toNat).length :=
    (length_padded (by omega)).trans (length_padded (by omega)).symm
  simp only [isoformat]
  rcases ymd_before h with hyear | ⟨hyear, hmonth | ⟨hmonth, hday⟩⟩
  · exact append_lt_append hlength4 (padded_lt (by omega) (by omega)) _ _
  · rw [hyear]
    apply List.append_left_lt
    rw [List.cons_lt_cons_iff]
    exact Or.inr ⟨rfl, append_lt_append hlength2 (padded_lt (by omega) (by omega)) _ _⟩
  · have hlast : padded 2 (ymd a).2.2.toNat < padded 2 (ymd b).2.2.toNat := padded_lt (by omega) (by omega)
    rw [hyear, hmonth]
    apply List.append_left_lt
    rw [List.cons_lt_cons_iff]
    refine Or.inr ⟨rfl, List.append_left_lt ?_⟩
    rw [List.cons_lt_cons_iff]
    exact Or.inr ⟨rfl, hlast⟩

/-- **Texts are ordered as days.** -/
theorem pmStr_strictMono : StrictMonoOn pmStr (Set.Icc 1 maxDate) := by
  intro a ha b hb h
  have hlength : (isoformat a).length = (isoformat b).length :=
    (length_isoformat ha.1 ha.2).trans (length_isoformat hb.1 hb.2).symm
  exact append_lt_append hlength (isoformat_lt ha.1 h hb.2) _ _

namespace MylibDate

/-- **The text for the last working day** is the last one of a working day before the text for today, if there is such a
day in the years that `datetime` has. -/
theorem getLastWorkingDay15PmStr_isGreatest (c : MylibDate) {now : DateTime} (htoday : now.date = c.nowDateTime.date)
    (hmax : now.date ≤ maxDate) (hex : ∃ d : DateTime, 1 ≤ d.date ∧ d.date < now.date ∧ c.isWorkingDay d = true) :
    ∃ text, Returns c.getLastWorkingDay15PmStr text ∧
      IsGreatest {t | ∃ d : DateTime, 1 ≤ d.date ∧ d.date ≤ maxDate ∧ c.isWorkingDay d = true ∧ t = pmStr d.date ∧
        t < getToday15PmStr now} text := by
  obtain ⟨e, hret, _, hworks, hgreatest⟩ := getLastWorkingDay_returns c
  obtain ⟨d, hd, hdnow, hdworks⟩ := hex
  have hde : d.date ≤ e.date := hgreatest ⟨by omega, hdworks⟩
  have hle : e.date ≤ c.nowDateTime.date - 1 := hworks.1
  have henow : e.date < now.date := by omega
  have hnow : now.date ∈ Set.Icc 1 maxDate := ⟨by omega, hmax⟩
  have hemem : e.date ∈ Set.Icc 1 maxDate := ⟨by omega, by omega⟩
  refine ⟨pmStr e.date, hret.bind (.pure _), ⟨e, hemem.1, hemem.2, hworks.2, rfl, ?_⟩, ?_⟩
  · exact pmStr_strictMono hemem hnow henow
  · rintro t ⟨f, hf, hfmax, hfworks, rfl, hlt⟩
    have hfnow : f.date < now.date := (pmStr_strictMono.lt_iff_lt ⟨hf, hfmax⟩ hnow).1 hlt
    have hfe : f.date ≤ e.date := hgreatest ⟨by omega, hfworks⟩
    exact (pmStr_strictMono.le_iff_le ⟨hf, hfmax⟩ hemem).2 hfe

/-- On 5 February 2016, with the tables of `Init`. -/
theorem getLastWorkingDay15PmStr_february : ∃ text, Returns (init ⟨735999, 0⟩).getLastWorkingDay15PmStr text ∧
    IsGreatest {t | ∃ d : DateTime, 1 ≤ d.date ∧ d.date ≤ maxDate ∧ (init ⟨735999, 0⟩).isWorkingDay d = true ∧
      t = pmStr d.date ∧ t < getToday15PmStr ⟨735999, 3600⟩} text :=
  getLastWorkingDay15PmStr_isGreatest (init ⟨735999, 0⟩) rfl (by decide)
    ⟨⟨735998, 0⟩, by decide, by decide, by decide⟩

end MylibDate

end TinyUtils.Date
