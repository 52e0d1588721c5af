import TinyUtils.Cstr.Basic
/-!
# The growth policy (`c_utils/cstr.c:695-758`)

`cal_fit_cap` gives the size of the block for a content that needs `total_used` bytes, header and
terminator included: the next power of two below 1 MiB, 1 MiB more than needed from there on. It is below
`total_cap` when the block has become too large; only a block of at most 256 bytes is kept as it is.

| here | there |
| --- | --- |
| `roundUpPower2` | `round_up_power_2` (`:700`); the loop gets 32 tries and needs 31 |
| `calFitCap`     | `cal_fit_cap` (`:729`) |
| `roundUpLoopChecked` .. `calFitCapChecked` | the same, without a result where a `uint32_t` wraps around |
-/

namespace TinyUtils.Cstr

/-- `while(power_value < size) power_value = power_value << 1;` -/
def roundUpLoop : Nat → Nat → Nat → Nat
  | 0, powerValue, _ => powerValue
  | tries + 1, powerValue, size =>
    if powerValue < size then roundUpLoop tries (u32 (powerValue * 2)) size else powerValue

def roundUpPower2 (size : Nat) : Nat := if size > 2 ^ 31 then 0 else roundUpLoop 32 1 size

/-- `_CSTR_MIDIUM_MAX_SIZE` -/
def mediumMaxSize : Nat := 1024 * 1024

/-- `_CSTR_TINY_MAX_SIZE` -/
def tinyMaxSize : Nat := 256

/-- `_CSTR_INCR_MAX` -/
def incrMax : Nat := 1024 * 1024

/-- `new_cap` before it is compared with `total_cap`. -/
def growCap (totalUsed : Nat) : Nat :=
  if totalUsed ≥ mediumMaxSize then
    let newCap := u32 (totalUsed + incrMax)
    if newCap > maxSize then maxSize else newCap
  else if totalUsed < minSize then minSize
  else roundUpPower2 totalUsed

def calFitCap (totalCap totalUsed : Nat) : Nat :=
  if totalUsed > maxSize ∨ totalCap > maxSize then 0
  else if totalUsed = maxSize then maxSize
  else
    let newCap := growCap totalUsed
    if newCap < totalCap ∧ totalCap ≤ tinyMaxSize then totalCap else newCap

/-- The loop stops at the first power of two that is large enough. -/
theorem roundUpLoop_spec {size : Nat} (hsize : size ≤ 2 ^ 31) :
    ∀ {tries j : Nat}, j + tries = 32 → (j = 0 ∨ 2 ^ (j - 1) < size) →
      ∃ k, k ≤ 31 ∧ roundUpLoop tries (2 ^ j) size = 2 ^ k ∧ size ≤ 2 ^ k ∧ (k = 0 ∨ 2 ^ (k - 1) < size) := by
  intro tries
  induction tries with
  | zero =>
    intro j hj hlow
    obtain rfl : j = 32 := by omega
    rcases hlow with h | h
    · cases h
    · exact absurd h (by omega)
  | succ tries ih =>
    intro j hj hlow
    rw [roundUpLoop]
    by_cases hlt : 2 ^ j < size
    · have hj31 : j < 31 := (Nat.pow_lt_pow_iff_right (by decide)).1 (Nat.lt_of_lt_of_le hlt hsize)
      have hdouble : u32 (2 ^ j * 2) = 2 ^ (j + 1) := by
        rw [← Nat.pow_succ]
        exact u32_eq (Nat.pow_lt_pow_right (by decide) (by omega))
      rw [if_pos hlt, hdouble]
      exact ih (by omega) (Or.inr hlt)
    · rw [if_neg hlt]
      have hj31 : j ≤ 31 := by
        rcases hlow with h | h
        · omega
        · have := (Nat.pow_lt_pow_iff_right (by decide)).1 (Nat.lt_of_lt_of_le h hsize)
          omega
      exact ⟨j, hj31, rfl, by omega, hlow⟩

theorem roundUpPower2_spec {size : Nat} (h : size ≤ 2 ^ 31) :
    ∃ k, k ≤ 31 ∧ roundUpPower2 size = 2 ^ k ∧ size ≤ 2 ^ k ∧ (k = 0 ∨ 2 ^ (k - 1) < size) := by
  rw [roundUpPower2, if_neg (by omega)]
  exact roundUpLoop_spec h (j := 0) rfl (Or.inl rfl)

theorem le_roundUpPower2 {size : Nat} (h : size ≤ 2 ^ 31) : size ≤ roundUpPower2 size := by
  obtain ⟨k, _, hk, hle, _⟩ := roundUpPower2_spec h
  rw [hk]
  exact hle

theorem roundUpPower2_le {size j : Nat} (h : size ≤ 2 ^ j) (hj : j ≤ 31) : roundUpPower2 size ≤ 2 ^ j := by
  have hsize : size ≤ 2 ^ 31 := Nat.le_trans h (Nat.pow_le_pow_right (by decide) hj)
  obtain ⟨k, _, hk, _, hlow⟩ := roundUpPower2_spec hsize
  rw [hk]
  apply Nat.pow_le_pow_right (by decide)
  rcases hlow with rfl | hlow
  · exact Nat.zero_le j
  · have := (Nat.pow_lt_pow_iff_right (by decide)).1 (Nat.lt_of_lt_of_le hlow h)
    omega

theorem calFitCap_eq_zero {totalCap totalUsed : Nat} (h : maxSize < totalUsed) : calFitCap totalCap totalUsed = 0 :=
  if_pos (Or.inl h)

theorem add_incrMax_lt {totalUsed : Nat} (h : totalUsed ≤ maxSize) : totalUsed + incrMax < 2 ^ 32 := by
  simp only [maxSize, incrMax] at *
  omega

theorem growCap_spec {totalUsed : Nat} (h : totalUsed ≤ maxSize) :
    minSize ≤ growCap totalUsed ∧ totalUsed ≤ growCap totalUsed ∧ growCap totalUsed ≤ maxSize := by
  unfold growCap
  by_cases hmedium : totalUsed ≥ mediumMaxSize
  · rw [if_pos hmedium]
    simp only [u32_eq (add_incrMax_lt h)]
    by_cases hover : totalUsed + incrMax > maxSize
    · rw [if_pos hover]
      exact ⟨by decide, h, Nat.le_refl _⟩
    · rw [if_neg hover]
      simp only [mediumMaxSize, minSize, maxSize, incrMax] at *
      omega
  · rw [if_neg hmedium]
    by_cases hmin : totalUsed < minSize
    · rw [if_pos hmin]
      exact ⟨Nat.le_refl _, Nat.le_of_lt hmin, by decide⟩
    · rw [if_neg hmin]
      simp only [mediumMaxSize, minSize, maxSize] at *
      have hle : totalUsed ≤ roundUpPower2 totalUsed := le_roundUpPower2 (by omega)
      have hround : roundUpPower2 totalUsed ≤ 2 ^ 20 := roundUpPower2_le (by omega) (by decide)
      omega

/-- **The new size holds what is needed and is within the limits**; a block of at most 256 bytes does not
shrink. -/
theorem calFitCap_spec {totalCap totalUsed : Nat} (hc : totalCap ≤ maxSize) (hu : totalUsed ≤ maxSize) :
    minSize ≤ calFitCap totalCap totalUsed ∧ totalUsed ≤ calFitCap totalCap totalUsed ∧
      calFitCap totalCap totalUsed ≤ maxSize ∧ (totalCap ≤ tinyMaxSize → totalCap ≤ calFitCap totalCap totalUsed) := by
  unfold calFitCap
  rw [if_neg (by omega)]
  by_cases hmax : totalUsed = maxSize
  · rw [if_pos hmax]
    exact ⟨by decide, hu, Nat.le_refl _, fun _ => hc⟩
  · rw [if_neg hmax]
    obtain ⟨h1, h2, h3⟩ := growCap_spec hu
    by_cases hkeep : growCap totalUsed < totalCap ∧ totalCap ≤ tinyMaxSize
    · simp only [if_pos hkeep]
      exact ⟨by omega, by omega, hc, fun _ => Nat.le_refl _⟩
    · simp only [if_neg hkeep]
      exact ⟨h1, h2, h3, fun h => by omega⟩

/-- A large block shrinks to the least size when little is needed. -/
theorem calFitCap_small {totalCap totalUsed : Nat} (htiny : tinyMaxSize < totalCap) (hc : totalCap ≤ maxSize)
    (hu : totalUsed < minSize) : calFitCap totalCap totalUsed = minSize := by
  have hgrow : growCap totalUsed = minSize := by
    rw [growCap, if_neg (by simp only [minSize, mediumMaxSize] at *; omega), if_pos hu]
  simp only [minSize, tinyMaxSize, maxSize] at *
  unfold calFitCap
  simp only [hgrow, maxSize, tinyMaxSize]
  rw [if_neg (by omega), if_neg (by omega), if_neg (by omega)]

/-! ## The policy without its loop -/

/-- The block for `totalUsed` bytes has at least `size`: from 1 MiB on 1 MiB is added, and below that there is
no power of two in between. -/
def Covers (totalUsed size : Nat) : Prop :=
  size ≤ minSize ∨
    if mediumMaxSize ≤ totalUsed then size ≤ totalUsed + incrMax else ∀ j, totalUsed ≤ 2 ^ j → size ≤ 2 ^ j

/-- The block for `totalUsed` bytes has not one more. -/
def Fills (totalUsed : Nat) : Prop :=
  totalUsed = maxSize ∨ (minSize ≤ totalUsed ∧ totalUsed < mediumMaxSize ∧ ∃ j, totalUsed = 2 ^ j)

theorem le_roundUpPower2_iff {size x : Nat} (h : size ≤ 2 ^ 31) :
    x ≤ roundUpPower2 size ↔ ∀ j, size ≤ 2 ^ j → x ≤ 2 ^ j := by
  obtain ⟨k, _, hk, hle, hlow⟩ := roundUpPower2_spec h
  rw [hk]
  constructor
  · intro hx j hj
    have hkj : k ≤ j := by
      rcases hlow with rfl | hlow
      · exact Nat.zero_le j
      · have := (Nat.pow_lt_pow_iff_right (by decide)).1 (Nat.lt_of_lt_of_le hlow hj)
        omega
    exact Nat.le_trans hx (Nat.pow_le_pow_right (by decide) hkj)
  · intro hx
    exact hx k hle

theorem le_growCap_iff {totalUsed size : Nat} (hu : totalUsed ≤ maxSize) (hs : size ≤ maxSize) :
    size ≤ growCap totalUsed ↔ Covers totalUsed size := by
  unfold growCap Covers
  by_cases hmedium : mediumMaxSize ≤ totalUsed
  · rw [if_pos hmedium, if_pos hmedium]
    simp only [u32_eq (add_incrMax_lt hu)]
    by_cases hover : totalUsed + incrMax > maxSize
    · rw [if_pos hover]
      omega
    · rw [if_neg hover]
      simp only [mediumMaxSize, minSize] at *
      omega
  · rw [if_neg hmedium, if_neg hmedium]
    simp only [mediumMaxSize, maxSize] at *
    by_cases hmin : totalUsed < minSize
    · rw [if_pos hmin]
      constructor
      · exact Or.inl
      · rintro (h | h)
        · exact h
        · exact h 5 (Nat.le_of_lt hmin)
    · rw [if_neg hmin, le_roundUpPower2_iff (by omega)]
      constructor
      · exact Or.inr
      · rintro (h | h)
        · intro j hj
          omega
        · exact h

/-- A size up to the one of the block is still there after a reallocation. -/
theorem le_calFitCap_iff {totalCap totalUsed size : Nat} (hc : totalCap ≤ maxSize) (hu : totalUsed ≤ maxSize)
    (hs : size ≤ totalCap) : size ≤ calFitCap totalCap totalUsed ↔ totalCap ≤ tinyMaxSize ∨ Covers totalUsed size := by
  have hgrow := le_growCap_iff hu (Nat.le_trans hs hc)
  unfold calFitCap
  rw [if_neg (by omega)]
  by_cases hmax : totalUsed = maxSize
  · rw [if_pos hmax]
    refine ⟨fun _ => Or.inr (Or.inr ?_), fun _ => Nat.le_trans hs hc⟩
    rw [if_pos (by rw [hmax]; decide)]
    omega
  · rw [if_neg hmax, ← hgrow]
    by_cases hkeep : growCap totalUsed < totalCap ∧ totalCap ≤ tinyMaxSize
    · simp only [if_pos hkeep]
      exact ⟨fun _ => Or.inl hkeep.2, fun _ => hs⟩
    · simp only [if_neg hkeep]
      refine ⟨Or.inr, ?_⟩
      rintro (h | h)
      · omega
      · exact h

theorem lt_growCap {totalUsed : Nat} (hu : totalUsed ≤ maxSize) (h : ¬ Fills totalUsed) : totalUsed < growCap totalUsed := by
  obtain ⟨hmin, hle, _⟩ := growCap_spec hu
  rcases Nat.lt_or_eq_of_le hle with hlt | heq
  · exact hlt
  · exfalso
    apply h
    unfold growCap at heq
    by_cases hmedium : totalUsed ≥ mediumMaxSize
    · rw [if_pos hmedium] at heq
      simp only [u32_eq (add_incrMax_lt hu)] at heq
      left
      by_cases hover : totalUsed + incrMax > maxSize
      · rw [if_pos hover] at heq
        exact heq
      · rw [if_neg hover] at heq
        simp only [incrMax] at heq
        omega
    · rw [if_neg hmedium] at heq
      right
      refine ⟨?_, Nat.lt_of_not_le hmedium, ?_⟩
      · split at heq <;> omega
      · split at heq
        · exact ⟨5, heq⟩
        · simp only [mediumMaxSize] at hmedium
          obtain ⟨k, _, hk, _⟩ := roundUpPower2_spec (show totalUsed ≤ 2 ^ 31 by omega)
          exact ⟨k, heq.trans hk⟩

theorem growCap_le_calFitCap {totalCap totalUsed : Nat} (hc : totalCap ≤ maxSize) (hu : totalUsed ≤ maxSize) :
    growCap totalUsed ≤ calFitCap totalCap totalUsed := by
  obtain ⟨_, _, hmax⟩ := growCap_spec hu
  unfold calFitCap
  rw [if_neg (by omega)]
  by_cases hfull : totalUsed = maxSize
  · rw [if_pos hfull]
    exact hmax
  · rw [if_neg hfull]
    by_cases hkeep : growCap totalUsed < totalCap ∧ totalCap ≤ tinyMaxSize
    · simp only [if_pos hkeep]
      omega
    · simp only [if_neg hkeep]
      exact Nat.le_refl _

theorem lt_calFitCap {totalCap totalUsed : Nat} (hc : totalCap ≤ maxSize) (hu : totalUsed ≤ maxSize)
    (h : ¬ Fills totalUsed ∨ (totalUsed < totalCap ∧ totalCap ≤ tinyMaxSize)) : totalUsed < calFitCap totalCap totalUsed := by
  rcases h with h | ⟨hlt, htiny⟩
  · exact Nat.lt_of_lt_of_le (lt_growCap hu h) (growCap_le_calFitCap hc hu)
  · exact Nat.lt_of_lt_of_le hlt ((calFitCap_spec hc hu).2.2.2 htiny)

/-! ## Monotony -/

theorem Covers.mono {u v size : Nat} (h : Covers u size) (huv : u ≤ v) : Covers v size := by
  unfold Covers at *
  rcases h with hmin | h
  · exact Or.inl hmin
  · right
    by_cases hv : mediumMaxSize ≤ v
    · rw [if_pos hv]
      by_cases hu : mediumMaxSize ≤ u
      · rw [if_pos hu] at h
        omega
      · rw [if_neg hu] at h
        have hle := h 20 (by simp only [mediumMaxSize] at hu; omega)
        simp only [mediumMaxSize] at hv
        omega
    · have hu : ¬mediumMaxSize ≤ u := by omega
      rw [if_neg hu] at h
      rw [if_neg hv]
      intro j hj
      exact h j (Nat.le_trans huv hj)

theorem growCap_mono {u v : Nat} (huv : u ≤ v) (hv : v ≤ maxSize) : growCap u ≤ growCap v := by
  have hu : u ≤ maxSize := Nat.le_trans huv hv
  obtain ⟨_, _, hmax⟩ := growCap_spec hu
  rw [le_growCap_iff hv hmax]
  have hcovers : Covers u (growCap u) := (le_growCap_iff hu hmax).1 (Nat.le_refl _)
  exact hcovers.mono huv

theorem calFitCap_mono {totalCap u v : Nat} (hc : totalCap ≤ maxSize) (huv : u ≤ v) (hv : v ≤ maxSize) :
    calFitCap totalCap u ≤ calFitCap totalCap v := by
  have hu : u ≤ maxSize := Nat.le_trans huv hv
  by_cases hfull : u = maxSize
  · have hsame : u = v := by omega
    subst hsame
    exact Nat.le_refl _
  · have hgrow : growCap u ≤ calFitCap totalCap v := Nat.le_trans (growCap_mono huv hv) (growCap_le_calFitCap hc hv)
    unfold calFitCap
    rw [if_neg (by omega), if_neg hfull]
    by_cases hkeep : growCap u < totalCap ∧ totalCap ≤ tinyMaxSize
    -- the block stays as it is, and for more bytes too
    · simp only [if_pos hkeep]
      exact (calFitCap_spec hc hv).2.2.2 hkeep.2
    · simp only [if_neg hkeep]
      exact hgrow

/-! ## No wrap-around -/

/-- A value for a `uint32_t`. -/
def fit32 (x : Nat) : Option Nat := if x < 2 ^ 32 then some x else none

theorem fit32_eq {x : Nat} (h : x < 2 ^ 32) : fit32 x = some x := if_pos h

def roundUpLoopChecked : Nat → Nat → Nat → Option Nat
  | 0, powerValue, _ => some powerValue
  | tries + 1, powerValue, size =>
    if powerValue < size then do
      let powerValue ← fit32 (powerValue * 2)
      roundUpLoopChecked tries powerValue size
    else some powerValue

def roundUpPower2Checked (size : Nat) : Option Nat := if size > 2 ^ 31 then some 0 else roundUpLoopChecked 32 1 size

def growCapChecked (totalUsed : Nat) : Option Nat :=
  if totalUsed ≥ mediumMaxSize then do
    let newCap ← fit32 (totalUsed + incrMax)
    some (if newCap > maxSize then maxSize else newCap)
  else if totalUsed < minSize then some minSize
  else roundUpPower2Checked totalUsed

def calFitCapChecked (totalCap totalUsed : Nat) : Option Nat :=
  if totalUsed > maxSize ∨ totalCap > maxSize then some 0
  else if totalUsed = maxSize then some maxSize
  else do
    let newCap ← growCapChecked totalUsed
    some (if newCap < totalCap ∧ totalCap ≤ tinyMaxSize then totalCap else newCap)

theorem roundUpLoop_checked {size : Nat} (hsize : size ≤ 2 ^ 31) :
    ∀ {tries powerValue : Nat}, roundUpLoopChecked tries powerValue size = some (roundUpLoop tries powerValue size) := by
  intro tries
  induction tries with
  | zero =>
    intro powerValue
    rfl
  | succ tries ih =>
    intro powerValue
    unfold roundUpLoopChecked roundUpLoop
    by_cases hlt : powerValue < size
    · have hdouble : powerValue * 2 < 2 ^ 32 := by omega
      rw [if_pos hlt, if_pos hlt, fit32_eq hdouble, u32_eq hdouble]
      exact ih
    · rw [if_neg hlt, if_neg hlt]

theorem growCap_checked {totalUsed : Nat} (hu : totalUsed ≤ maxSize) :
    growCapChecked totalUsed = some (growCap totalUsed) := by
  unfold growCapChecked growCap
  by_cases hmedium : totalUsed ≥ mediumMaxSize
  · have hadd : totalUsed + incrMax < 2 ^ 32 := add_incrMax_lt hu
    rw [if_pos hmedium, if_pos hmedium, fit32_eq hadd, u32_eq hadd]
    rfl
  · rw [if_neg hmedium, if_neg hmedium]
    by_cases hmin : totalUsed < minSize
    · rw [if_pos hmin, if_pos hmin]
    · have hsize : totalUsed ≤ 2 ^ 31 := Nat.le_trans hu (by decide)
      rw [if_neg hmin, if_neg hmin]
      unfold roundUpPower2Checked roundUpPower2
      rw [if_neg (by omega), if_neg (by omega), roundUpLoop_checked hsize]

theorem calFitCap_checked (totalCap totalUsed : Nat) :
    calFitCapChecked totalCap totalUsed = some (calFitCap totalCap totalUsed) := by
  unfold calFitCapChecked calFitCap
  by_cases hover : totalUsed > maxSize ∨ totalCap > maxSize
  · rw [if_pos hover, if_pos hover]
  · rw [if_neg hover, if_neg hover]
    by_cases hfull : totalUsed = maxSize
    · rw [if_pos hfull, if_pos hfull]
    · rw [if_neg hfull, if_neg hfull, growCap_checked (by omega)]
      rfl

/-! ## The policy -/

theorem calFitCap_eq_zero_iff (totalCap totalUsed : Nat) :
    calFitCap totalCap totalUsed = 0 ↔ maxSize < totalUsed ∨ maxSize < totalCap := by
  constructor
  · intro hzero
    apply Decidable.byContradiction
    intro hover
    have hc : totalCap ≤ maxSize := by omega
    have hu : totalUsed ≤ maxSize := by omega
    obtain ⟨hmin, _⟩ := calFitCap_spec hc hu
    rw [hzero] at hmin
    exact absurd hmin (by decide)
  · intro hover
    exact if_pos hover

/-- **The growth policy is sound and monotone**, no step of it wraps around, and it returns 0 only as its error. -/
theorem calFitCap_policy (totalCap : Nat) :
    (totalCap ≤ maxSize → ∀ totalUsed ≤ maxSize,
      max minSize totalUsed ≤ calFitCap totalCap totalUsed ∧ calFitCap totalCap totalUsed ≤ maxSize ∧
        (totalCap ≤ 256 → totalCap ≤ calFitCap totalCap totalUsed) ∧
        (∀ less ≤ totalUsed, calFitCap totalCap less ≤ calFitCap totalCap totalUsed) ∧
        calFitCapChecked totalCap totalUsed = some (calFitCap totalCap totalUsed)) ∧
    ∀ totalUsed, calFitCap totalCap totalUsed = 0 ↔ maxSize < totalUsed ∨ maxSize < totalCap := by
  refine ⟨fun hc totalUsed hu => ?_, calFitCap_eq_zero_iff totalCap⟩
  obtain ⟨hmin, hle, hmax, htiny⟩ := calFitCap_spec hc hu
  have hmono : ∀ less ≤ totalUsed, calFitCap totalCap less ≤ calFitCap totalCap totalUsed :=
    fun less hless => calFitCap_mono hc hless hu
  exact ⟨Nat.max_le.2 ⟨hmin, hle⟩, hmax, htiny, hmono, calFitCap_checked totalCap totalUsed⟩

/-- A block of 64 bytes, and 100 are needed. -/
theorem calFitCap_policy_hundred :
    max minSize 100 ≤ calFitCap 64 100 ∧ calFitCap 64 100 ≤ maxSize ∧ (64 ≤ 256 → 64 ≤ calFitCap 64 100) ∧
      (∀ less ≤ 100, calFitCap 64 less ≤ calFitCap 64 100) ∧ calFitCapChecked 64 100 = some (calFitCap 64 100) :=
  (calFitCap_policy 64).1 (by decide) 100 (by decide)

end TinyUtils.Cstr
