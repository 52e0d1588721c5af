import TinyUtils.Cstr.Concat
import TinyUtils.Lib.Run
/-!
# Runs of appends, and the capacity they leave

An append stores what `cal_fit_cap` computes for the new content in `cap`, also where it does not
reallocate, so a block of more than 256 bytes that is mostly empty loses what was reserved. From 1 MiB on
it asks for 1 MiB more than needed, and may reallocate a block that has room.

* `Kept`: the block for the new content has at least the size of the block there is
* `Grows`: it has more
-/

namespace TinyUtils.Cstr

open Runs

/-- `cstr_unused_size` (`cstr.c:473`) -/
def unusedSize (s : Cstr) : Nat := sub32 s.cap s.used

/-- What is appended. -/
inductive Piece
  | cstr (src : Cstr)
  | str (src : CString)

namespace Piece

def append (mem : Mem) (dst : Cstr) : Piece → M (Option Cstr)
  | cstr src => Cstr.append mem dst src
  | str src => appendStr mem dst (some src)

/-- Its bytes, from the pointer on. -/
def memory : Piece → List Byte
  | cstr src => src.data
  | str src => src.memory

def length : Piece → Nat
  | cstr src => src.used
  | str src => src.strlen

def Valid : Piece → Prop
  | cstr src => src.Valid
  | str _ => True

theorem append_eq {mem : Mem} {dst : Cstr} {p : Piece} : p.append mem dst = appendFrom mem dst p.memory p.length := by
  cases p with
  | cstr src => rfl
  | str src => rfl

theorem Valid.length_le {p : Piece} (h : p.Valid) : p.length ≤ p.memory.length := by
  cases p with
  | cstr src => exact Nat.le_of_lt (Cstr.Valid.used_lt h)
  | str src => exact src.strlen_le

end Piece

/-- An append that succeeds, with the outcome of its allocation. -/
def Appends (s : Cstr) (a : Mem × Piece) (s' : Cstr) : Prop := a.2.Valid ∧ a.2.append a.1 s = .ok (some s')

/-- The size that the content needs with `n` more bytes. -/
def needs (s : Cstr) (n : Nat) : Nat := s.used + hdrSize + 1 + n

/-- The lengths can be counted in 32 bits. -/
def Counted (s : Cstr) (a : Mem × Piece) : Prop := needs s a.2.length < 2 ^ 32

/-- The block for the new content has at least the size of the one there is. -/
def Kept (s : Cstr) (a : Mem × Piece) : Prop :=
  Counted s a ∧ (a.2.length = 0 ∨ s.totalSize ≤ tinyMaxSize ∨ Covers (needs s a.2.length) s.totalSize)

/-- It has more. -/
def Grows (s : Cstr) (a : Mem × Piece) : Prop :=
  a.2.length ≠ 0 ∧ s.totalSize < maxSize ∧ Covers (needs s a.2.length) (s.totalSize + 1)

/-- The append gives up no capacity, and takes at most its own bytes from what is unused. -/
def Reserves (s : Cstr) (a : Mem × Piece) (s' : Cstr) : Prop :=
  s.cap ≤ s'.cap ∧ s.unusedSize ≤ s'.unusedSize + a.2.length

/-- The append does not reallocate: it does the same where that would fail. -/
def InBlock (s : Cstr) (a : Mem × Piece) (s' : Cstr) : Prop := a.2.append none s = .ok (some s')

/-! ## One append -/

section
variable {mem : Mem} {s s' : Cstr} {a : Mem × Piece} {src : List Byte} {n : Nat}

/-- The object that an append leaves. -/
theorem appendFrom_step (hv : s.Valid) (hn : n ≤ src.length) (h32 : needs s n < 2 ^ 32) (h0 : n ≠ 0)
    (h : appendFrom mem s src n = .ok (some s')) :
    s'.Valid ∧ s'.used = s.used + n ∧ s'.totalSize = calFitCap s.totalSize (needs s n) ∧ needs s n ≤ maxSize := by
  have hvalid := (appendFrom_spec hv hn h32).of_eq h
  rcases appendFrom_cases mem hv hn h32 h0 rfl with ⟨hnone, _⟩ | ⟨hok, data, heq, hle, hmin, hmax, _⟩
  · rw [hnone] at h
    cases h
  · rw [heq] at h
    cases h
    refine ⟨hvalid.1, rfl, ?_, ?_⟩
    · simp only [totalSize, needs] at *
      simp only [minSize, hdrSize] at *
      omega
    · exact Nat.le_of_not_lt fun hbig => hok (Or.inr (Or.inl hbig))

theorem Appends.spec (h : Appends s a s') (hv : s.Valid) (hc : Counted s a) :
    s'.Valid ∧ s'.used = s.used + a.2.length ∧
      (a.2.length ≠ 0 → s'.totalSize = calFitCap s.totalSize (needs s a.2.length) ∧ needs s a.2.length ≤ maxSize) ∧
      (a.2.length = 0 → s' = s) := by
  obtain ⟨hp, heq⟩ := h
  rw [Piece.append_eq] at heq
  by_cases h0 : a.2.length = 0
  · rw [appendFrom, if_pos h0] at heq
    cases heq
    exact ⟨hv, by omega, fun hne => absurd h0 hne, fun _ => rfl⟩
  · obtain ⟨hvalid, hused, htotal, hle⟩ := appendFrom_step hv hp.length_le hc h0 heq
    exact ⟨hvalid, hused, fun _ => ⟨htotal, hle⟩, fun h => absurd h h0⟩

theorem Valid.unusedSize_eq (hv : s.Valid) : s.unusedSize = s.cap - s.used := sub32_eq hv.used_le

/-- An append reserves what was reserved if the block for the new content has that size. -/
theorem reserves_iff (h : Appends s a s') (hv : s.Valid) (hc : Counted s a) : Reserves s a s' ↔ Kept s a := by
  obtain ⟨hv', hused, hgrow, hsame⟩ := h.spec hv hc
  have hle := hv.used_le
  have hle' := hv'.used_le
  rw [Reserves, hv.unusedSize_eq, hv'.unusedSize_eq, Kept, and_iff_right hc]
  by_cases h0 : a.2.length = 0
  · obtain rfl := hsame h0
    exact iff_of_true ⟨Nat.le_refl _, Nat.le_add_right _ _⟩ (Or.inl h0)
  · obtain ⟨htotal, hmax⟩ := hgrow h0
    rw [or_iff_right h0, ← le_calFitCap_iff hv.le_max hmax (Nat.le_refl _), ← htotal]
    simp only [totalSize]
    omega

/-- The block for the new content is larger. -/
theorem lt_calFitCap_iff {totalCap totalUsed : Nat} (hu : totalUsed ≤ maxSize) (hc : totalCap < maxSize) :
    totalCap < calFitCap totalCap totalUsed ↔ Covers totalUsed (totalCap + 1) := by
  have hgrow := le_growCap_iff hu (show totalCap + 1 ≤ maxSize from hc)
  unfold calFitCap
  rw [if_neg (by omega)]
  by_cases hmax : totalUsed = maxSize
  · rw [if_pos hmax]
    refine iff_of_true hc (Or.inr ?_)
    rw [if_pos (by rw [hmax]; decide)]
    omega
  · rw [if_neg hmax, ← hgrow]
    by_cases hkeep : growCap totalUsed < totalCap ∧ totalCap ≤ tinyMaxSize
    · simp only [if_pos hkeep]
      omega
    · simp only [if_neg hkeep]
      omega

/-- Where the block is not reallocated, the outcome of a reallocation makes no difference. -/
theorem appendFrom_inBlock (hv : s.Valid) (h32 : needs s n < 2 ^ 32)
    (hle : ¬ s.totalSize < calFitCap s.totalSize (needs s n)) : appendFrom mem s src n = appendFrom none s src n := by
  have hblock : ∀ m, appendBlock m s (calFitCap s.totalSize (needs s n)) = some s := by
    intro m
    rw [appendBlock, if_neg (by simp only [totalSize] at hle ⊢; omega)]
  unfold needs at hblock h32
  simp only [appendFrom, hv.u32_totalSize, u32_eq h32, hblock]

/-- An append reallocates if the block for the new content is larger than the one there is. -/
theorem inBlock_iff (h : Appends s a s') (hv : s.Valid) (hc : Counted s a) : InBlock s a s' ↔ ¬ Grows s a := by
  obtain ⟨_, _, hgrow, hsame⟩ := h.spec hv hc
  have hn := h.1.length_le
  rw [InBlock, Grows, Piece.append_eq]
  by_cases h0 : a.2.length = 0
  · obtain rfl := hsame h0
    exact iff_of_true (by rw [appendFrom, if_pos h0]) fun hg => hg.1 h0
  · obtain ⟨htotal, hmax⟩ := hgrow h0
    have heq := h.2
    rw [Piece.append_eq] at heq
    have hlt : s.totalSize < calFitCap s.totalSize (needs s a.2.length) ↔
        s.totalSize < maxSize ∧ Covers (needs s a.2.length) (s.totalSize + 1) := by
      by_cases hfull : s.totalSize < maxSize
      · rw [lt_calFitCap_iff hmax hfull, and_iff_right hfull]
      · have hle := (calFitCap_spec hv.le_max hmax).2.2.1
        omega
    rw [and_iff_right h0, ← hlt]
    by_cases hg : s.totalSize < calFitCap s.totalSize (needs s a.2.length)
    · refine iff_of_false ?_ fun h => h hg
      rw [(appendFrom_eq_none_iff hv hn hc h0).2 (Or.inr (Or.inr ⟨rfl, hg⟩))]
      intro h
      cases h
    · rw [← appendFrom_inBlock hv hc hg]
      exact iff_of_true heq hg

end

/-! ## Runs of appends -/

/-- The number of bytes that a run appends. -/
def appended (tr : List ((Mem × Piece) × Cstr)) : Nat := (tr.map fun x => x.1.2.length).sum

/-- Where the lengths can be counted, an append is in `R` exactly under `P`; so are those of a run. -/
theorem appends_iff {R : Cstr → Mem × Piece → Cstr → Prop} {P : Cstr → Mem × Piece → Prop}
    (hiff : ∀ s a s', Appends s a s' → s.Valid → Counted s a → (R s a s' ↔ P s a)) {s : Cstr}
    {tr : List ((Mem × Piece) × Cstr)} (hv : s.Valid) (hr : IsRun Appends s tr) :
    StepsMeet Counted s tr ∧ IsRun R s tr ↔ StepsMeet (fun s a => Counted s a ∧ P s a) s tr := by
  have hstep : ∀ s a s', Cstr.Valid s → Appends s a s' → Counted s a ∧ P s a → Cstr.Valid s' :=
    fun s a s' hv hs hP => (hs.spec hv hP.1).1
  have hcounted : ∀ s a s', Cstr.Valid s → Appends s a s' → (Counted s a ∧ R s a s' ↔ Counted s a ∧ P s a) :=
    fun s a s' hv hs => and_congr_right (hiff s a s' hs hv)
  rw [← isRun_and_iff]
  exact isRun_iff hstep hcounted hv hr

/-- **Appends give up no capacity exactly if the block for each new content has at least the size of the one there is;
and they stay within what `cstr_new_size` reserved exactly if it never has more** (as long as the lengths can be
counted). -/
theorem run_reserve_iff {s : Cstr} {tr : List ((Mem × Piece) × Cstr)} (hv : s.Valid) (hr : IsRun Appends s tr) :
    (StepsMeet Counted s tr ∧ IsRun Reserves s tr ↔ StepsMeet Kept s tr) ∧
    ∀ (mem : Mem) (cap : Nat), newSize mem cap = .ok (some s) → appended tr ≤ cap →
      (StepsMeet Counted s tr ∧ IsRun InBlock s tr ↔ StepsMeet (fun s a => Counted s a ∧ ¬ Grows s a) s tr) := by
  constructor
  · have hkept : ∀ s a s', Appends s a s' → s.Valid → Counted s a → (Reserves s a s' ↔ a.2.length = 0 ∨
        s.totalSize ≤ tinyMaxSize ∨ Covers (needs s a.2.length) s.totalSize) := by
      intro s a s' hs hv hc
      rw [reserves_iff hs hv hc]
      exact and_iff_right hc
    exact appends_iff hkept hv hr
  · intro _ _ _ _
    have hstays : ∀ s a s', Appends s a s' → s.Valid → Counted s a → (InBlock s a s' ↔ ¬ Grows s a) :=
      fun _ _ _ => inBlock_iff
    exact appends_iff hstays hv hr

/-! ## Two runs -/

theorem nul_not_mem_abc : (0 : Byte) ∉ ([97, 98, 99] : List Byte) := by decide

def abc : CString := ⟨[97, 98, 99], nul_not_mem_abc⟩

/-- Each new byte is `0xAA`. -/
def dirty : Mem := some fun _ => 170

/-- `"abc"` and then `"de"` in an object for 20 bytes. -/
def smallAppends : List ((Mem × Piece) × Cstr) :=
  [((none, .str abc), ⟨23, 3, [97, 98, 99] ++ List.replicate 20 0 ++ [170]⟩),
    ((none, .cstr (small [100, 101])), ⟨23, 5, [97, 98, 99, 100, 101] ++ List.replicate 18 0 ++ [170]⟩)]

theorem smallAppends_isRun : IsRun Appends ⟨23, 0, 0 :: List.replicate 23 170⟩ smallAppends :=
  ⟨⟨trivial, by decide +kernel⟩, ⟨small_valid (by decide), by decide +kernel⟩, trivial⟩

/-- In a block of 32 bytes an append to the first 14 bytes of the content is counted, and 32 bytes are enough for it. -/
theorem small_stays (used : Nat) (data : List Byte) {a : Mem × Piece} (hn : used + a.2.length ≤ 14) :
    Counted ⟨23, used, data⟩ a ∧ ¬ Grows ⟨23, used, data⟩ a := by
  have hneeds : needs ⟨23, used, data⟩ a.2.length ≤ 23 := by
    simp only [needs, hdrSize]
    omega
  refine ⟨Nat.lt_of_le_of_lt hneeds (by decide), ?_⟩
  rintro ⟨_, _, h⟩
  have hcap : totalSize ⟨23, used, data⟩ + 1 = 33 := rfl
  have hmedium : ¬ mediumMaxSize ≤ needs ⟨23, used, data⟩ a.2.length :=
    Nat.not_le.2 (Nat.lt_of_le_of_lt hneeds (by decide))
  rw [hcap, Covers, if_neg hmedium] at h
  rcases h with h | h
  · exact absurd h (by decide)
  · exact absurd (h 5 (by omega)) (by decide)

theorem reserve_small :
    IsRun Reserves ⟨23, 0, 0 :: List.replicate 23 170⟩ smallAppends ∧
      IsRun InBlock ⟨23, 0, 0 :: List.replicate 23 170⟩ smallAppends := by
  have hnew : newSize dirty 20 = .ok (some ⟨23, 0, 0 :: List.replicate 23 170⟩) := by decide +kernel
  have hv : Cstr.Valid ⟨23, 0, 0 :: List.replicate 23 170⟩ := ⟨by decide, by decide, by decide, by decide⟩
  have habc : (Piece.str abc).length = 3 := by decide +kernel
  have hde : (Piece.cstr (small [100, 101])).length = 2 := rfl
  obtain ⟨hkept, hstays⟩ := run_reserve_iff hv smallAppends_isRun
  have hfirst := small_stays 0 (0 :: List.replicate 23 170) (a := (none, .str abc)) (by rw [habc]; decide)
  have hnext := small_stays 3 ([97, 98, 99] ++ List.replicate 20 0 ++ [170])
    (a := (none, .cstr (small [100, 101]))) (by rw [hde]; decide)
  constructor
  · exact (hkept.2 ⟨⟨hfirst.1, Or.inr (Or.inl (by decide))⟩, ⟨hnext.1, Or.inr (Or.inl (by decide))⟩, trivial⟩).2
  · exact ((hstays _ _ hnew (by decide +kernel)).2 ⟨hfirst, hnext, trivial⟩).2

/-- `"abc"` in an object for 300 bytes, which then has room for 20 more. -/
def largeAppend : List ((Mem × Piece) × Cstr) :=
  [((none, .str abc), ⟨23, 3, [97, 98, 99] ++ List.replicate 20 0 ++ List.replicate 481 170⟩)]

theorem not_reserve_large :
    newSize dirty 300 = .ok (some ⟨503, 0, 0 :: List.replicate 503 170⟩) ∧
      IsRun Appends ⟨503, 0, 0 :: List.replicate 503 170⟩ largeAppend ∧ appended largeAppend ≤ 300 ∧
      ¬ IsRun Reserves ⟨503, 0, 0 :: List.replicate 503 170⟩ largeAppend := by
  refine ⟨by decide +kernel, ⟨⟨trivial, by decide +kernel⟩, trivial⟩, by decide +kernel, ?_⟩
  rintro ⟨⟨hcap, _⟩, _⟩
  exact absurd hcap (by decide)

end TinyUtils.Cstr
