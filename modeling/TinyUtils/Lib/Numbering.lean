import Mathlib.Order.SuccPred.LinearLocallyFinite
import TinyUtils.Lib.Tally
/-!
# Numbers for integers

The integers with `p`, if there are some beyond every bound on both sides, have all integers as their numbers, in
their order (`numbering`). Between two places the numbers say how many there are (`tally_eq`), so the `n`-th one from a
place on has the number of the last one before it and `n` more (`Gap.forth`), and downwards `n` less (`Gap.back`).
-/

namespace Tally

variable {p : ℤ → Prop} [DecidablePred p]

/-- There are some beyond every bound. -/
structure Unbounded (p : ℤ → Prop) : Prop where
  above : ∀ x, ∃ y, x ≤ y ∧ p y
  below : ∀ x, ∃ y, y ≤ x ∧ p y

namespace Unbounded

omit [DecidablePred p] in
theorem exists_gt (h : Unbounded p) (x : {x // p x}) : ∃ y : {x // p x}, x < y := by
  obtain ⟨y, hle, hy⟩ := h.above (x + 1)
  exact ⟨⟨y, hy⟩, Int.lt_of_add_one_le hle⟩

omit [DecidablePred p] in
theorem exists_lt (h : Unbounded p) (x : {x // p x}) : ∃ y : {x // p x}, y < x := by
  obtain ⟨y, hle, hy⟩ := h.below (x - 1)
  exact ⟨⟨y, hy⟩, Int.lt_of_le_sub_one hle⟩

/-- The integers with `p` in their order. -/
noncomputable def numbering (h : Unbounded p) : ℤ ≃o {x // p x} :=
  have : NoMaxOrder {x // p x} := ⟨h.exists_gt⟩
  have : NoMinOrder {x // p x} := ⟨h.exists_lt⟩
  have : Nonempty {x // p x} := (h.above 0).elim fun y hy => ⟨⟨y, hy.2⟩⟩
  letI := LinearLocallyFiniteOrder.succOrder {x // p x}
  letI := LinearLocallyFiniteOrder.predOrder {x // p x}
  orderIsoIntOfLinearSuccPredArch.symm

variable (h : Unbounded p)

/-- The integer with the number `k`. -/
noncomputable def item (k : ℤ) : ℤ := h.numbering k

theorem item_mem (k : ℤ) : p (h.item k) := (h.numbering k).2

@[simp] theorem item_le_item {k m : ℤ} : h.item k ≤ h.item m ↔ k ≤ m := h.numbering.le_iff_le

@[simp] theorem item_lt_item {k m : ℤ} : h.item k < h.item m ↔ k < m := h.numbering.lt_iff_lt

theorem exists_item {x : ℤ} (hx : p x) : ∃ k, h.item k = x :=
  ⟨h.numbering.symm ⟨x, hx⟩, congrArg Subtype.val (h.numbering.apply_symm_apply ⟨x, hx⟩)⟩

/-- The place is behind the one with the number `k` and not behind the next one. -/
structure Gap (x k : ℤ) : Prop where
  lt : h.item k < x
  le : x ≤ h.item (k + 1)

theorem gap_item (k : ℤ) : h.Gap (h.item (k + 1)) k := ⟨h.item_lt_item.2 (Int.lt_succ k), le_rfl⟩

theorem exists_gap (x : ℤ) : ∃ k, h.Gap x k := by
  obtain ⟨low, hlow, hplow⟩ := h.below (x - 1)
  obtain ⟨high, hhigh, hphigh⟩ := h.above x
  obtain ⟨k, rfl⟩ := h.exists_item hplow
  obtain ⟨m, rfl⟩ := h.exists_item hphigh
  have hbound : ∀ j, h.item j < x → j ≤ m := by
    intro j hj
    exact h.item_le_item.1 (hj.le.trans hhigh)
  obtain ⟨j, hj, hmost⟩ := Int.exists_greatest_of_bdd ⟨m, hbound⟩ ⟨k, by omega⟩
  refine ⟨j, hj, not_lt.1 fun hlt => ?_⟩
  have hle := hmost _ hlt
  omega

variable {h}

/-- **How many there are between two places.** -/
theorem tally_eq {x y k m : ℤ} (hx : h.Gap x k) (hy : h.Gap (y + 1) m) : tally p x y = (m - k).toNat := by
  have hcard : (Finset.Icc (k + 1) m).card = (m - k).toNat := by
    rw [Int.card_Icc]
    omega
  rw [tally, ← hcard]
  symm
  apply Finset.card_nbij h.item
  · intro j hj
    obtain ⟨hkj, hjm⟩ := Finset.mem_Icc.1 hj
    have hlow : x ≤ h.item j := hx.le.trans (h.item_le_item.2 hkj)
    have hhigh : h.item j ≤ h.item m := h.item_le_item.2 hjm
    have hlt := hy.lt
    exact Finset.mem_filter.2 ⟨Finset.mem_Icc.2 ⟨hlow, by omega⟩, h.item_mem j⟩
  · intro i _ j _ heq
    apply le_antisymm
    · exact h.item_le_item.1 heq.le
    · exact h.item_le_item.1 heq.ge
  · intro z hz
    obtain ⟨hbetween, hpz⟩ := Finset.mem_filter.1 hz
    obtain ⟨hlow, hhigh⟩ := Finset.mem_Icc.1 hbetween
    obtain ⟨j, rfl⟩ := h.exists_item hpz
    have hkj : k < j := h.item_lt_item.1 (hx.lt.trans_le hlow)
    have hjm : j < m + 1 := h.item_lt_item.1 (lt_of_lt_of_le (Int.lt_add_one_of_le hhigh) hy.le)
    exact ⟨j, Finset.mem_Icc.2 ⟨hkj, Int.le_of_lt_add_one hjm⟩, rfl⟩

theorem gap_succ_item (m : ℤ) : h.Gap (h.item m + 1) m :=
  ⟨Int.lt_succ _, Int.add_one_le_of_lt (h.item_lt_item.2 (Int.lt_succ m))⟩

/-- From the place on. -/
theorem Gap.forth {x k : ℤ} (hx : h.Gap x k) {n : ℕ} (hn : 1 ≤ n) : Forth p x n (h.item (k + n)) := by
  refine ⟨hx.le.trans (h.item_le_item.2 (by omega)), h.item_mem _, ?_⟩
  rw [tally_eq hx (gap_succ_item _)]
  omega

/-- From the place before it downwards. -/
theorem Gap.back {x k : ℤ} (hx : h.Gap x k) {n : ℕ} (hn : 1 ≤ n) : Back p (x - 1) n (h.item (k + 1 - n)) := by
  have hle : h.item (k + 1 - n) ≤ h.item k := h.item_le_item.2 (by omega)
  have hlt := hx.lt
  have hfirst : h.Gap (h.item (k + 1 - n)) (k - n) := by
    have hgap := h.gap_item (k - n)
    rwa [show k - n + 1 = k + 1 - n by omega] at hgap
  have hlast : h.Gap (x - 1 + 1) k := by rwa [Int.sub_add_cancel]
  refine ⟨by omega, h.item_mem _, ?_⟩
  rw [tally_eq hfirst hlast]
  omega

end Unbounded

end Tally
