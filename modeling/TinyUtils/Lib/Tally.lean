import Mathlib.Algebra.Order.Interval.Finset.SuccPred
import Mathlib.Data.Int.ConditionallyCompleteOrder
import Mathlib.Data.Int.Interval
import Mathlib.Data.Int.SuccPred
import Mathlib.Data.Nat.Nth
import TinyUtils.Lib.Loop
/-!
# Counting along the integers

`Forth p d n e` says that `e` is the `n`-th integer with `p` from `d` on, `Back p d n e` that it is the `n`-th one
from `d` downwards. There is at most one such integer, and between two integers with `p` the two say the same
(`forth_iff_back`). If the integers with `p` have no bound on that side, there is one, and it is `Nat.nth` steps away
(`forth_nth`, `back_nth`): that is where a loop ends that goes on step by step and counts down where `p` holds
(`returns_countdown`).
-/

namespace Tally

open Loops

variable {p : ℤ → Prop} [DecidablePred p] {d e e' : ℤ} {n k : ℕ}

/-- How many integers from `d` to `e` have `p`. -/
noncomputable def tally (p : ℤ → Prop) [DecidablePred p] (d e : ℤ) : ℕ := ((Finset.Icc d e).filter p).card

theorem tally_left (h : d ≤ e) : tally p d e = tally p (d + 1) e + if p d then 1 else 0 := by
  have hnot : d ∉ (Finset.Icc (d + 1) e).filter p := by
    rw [Finset.mem_filter, Finset.mem_Icc]
    omega
  rw [tally, ← Finset.insert_Icc_add_one_left_eq_Icc h, Finset.filter_insert]
  split
  · rw [Finset.card_insert_of_notMem hnot, tally]
  · rw [tally, Nat.add_zero]

theorem tally_right (h : d ≤ e) : tally p d e = tally p d (e - 1) + if p e then 1 else 0 := by
  have hnot : e ∉ (Finset.Icc d (e - 1)).filter p := by
    rw [Finset.mem_filter, Finset.mem_Icc]
    omega
  rw [tally, ← Finset.insert_Icc_sub_one_right_eq_Icc h, Finset.filter_insert]
  split
  · rw [Finset.card_insert_of_notMem hnot, tally]
  · rw [tally, Nat.add_zero]

theorem tally_of_lt (h : e < d) : tally p d e = 0 := by
  rw [tally, Finset.Icc_eq_empty_of_lt h, Finset.filter_empty, Finset.card_empty]

theorem tally_add : tally p d (d + k) = Nat.count (fun i : ℕ => p (d + i)) (k + 1) := by
  induction k with
  | zero =>
    rw [tally_right (by omega), tally_of_lt (by omega), Nat.count_succ, Nat.count_zero]
  | succ k ih =>
    have hprev : d + ((k + 1 : ℕ) : ℤ) - 1 = d + (k : ℤ) := by omega
    rw [tally_right (by omega), hprev, ih, ← Nat.count_succ]

theorem tally_sub : tally p (d - k) d = Nat.count (fun i : ℕ => p (d - i)) (k + 1) := by
  induction k with
  | zero =>
    rw [tally_left (by omega), tally_of_lt (by omega), Nat.count_succ, Nat.count_zero]
  | succ k ih =>
    have hnext : d - ((k + 1 : ℕ) : ℤ) + 1 = d - (k : ℤ) := by omega
    rw [tally_left (by omega), hnext, ih, ← Nat.count_succ]

/-- `e` is the `n`-th integer with `p` from `d` on. -/
structure Forth (p : ℤ → Prop) [DecidablePred p] (d : ℤ) (n : ℕ) (e : ℤ) : Prop where
  le : d ≤ e
  mem : p e
  count : tally p d e = n

/-- `e` is the `n`-th integer with `p` from `d` downwards. -/
structure Back (p : ℤ → Prop) [DecidablePred p] (d : ℤ) (n : ℕ) (e : ℤ) : Prop where
  le : e ≤ d
  mem : p e
  count : tally p e d = n

/-- A later one is counted too. -/
theorem Forth.count_lt (h : Forth p d n e) (hlt : e < e') (he' : p e') : n < tally p d e' := by
  have hle := h.le
  have hmono : tally p d e ≤ tally p d (e' - 1) :=
    Finset.card_le_card (Finset.filter_subset_filter p (Finset.Icc_subset_Icc_right (by omega)))
  rw [h.count] at hmono
  rw [tally_right (by omega), if_pos he']
  omega

/-- An earlier one is counted too. -/
theorem Back.count_lt (h : Back p d n e) (hlt : e' < e) (he' : p e') : n < tally p e' d := by
  have hle := h.le
  have hmono : tally p e d ≤ tally p (e' + 1) d :=
    Finset.card_le_card (Finset.filter_subset_filter p (Finset.Icc_subset_Icc_left (by omega)))
  rw [h.count] at hmono
  rw [tally_left (by omega), if_pos he']
  omega

theorem Forth.not_lt (h : Forth p d n e) (h' : Forth p d n e') : ¬e < e' := by
  intro hlt
  have hcount := h.count_lt hlt h'.mem
  rw [h'.count] at hcount
  omega

theorem Forth.unique (h : Forth p d n e) (h' : Forth p d n e') : e = e' := by
  apply le_antisymm
  · exact Int.not_lt.1 (h'.not_lt h)
  · exact Int.not_lt.1 (h.not_lt h')

theorem Back.not_lt (h : Back p d n e) (h' : Back p d n e') : ¬e' < e := by
  intro hlt
  have hcount := h.count_lt hlt h'.mem
  rw [h'.count] at hcount
  omega

theorem Back.unique (h : Back p d n e) (h' : Back p d n e') : e = e' := by
  apply le_antisymm
  · exact Int.not_lt.1 (h.not_lt h')
  · exact Int.not_lt.1 (h'.not_lt h)

/-- **The same count from both ends**: what is the last one for the one is the first one for the other. -/
theorem forth_iff_back (hd : p d) (he : p e) (hn : 1 ≤ n) : Forth p d (n + 1) e ↔ Back p (e - 1) n d := by
  constructor
  · rintro ⟨hle, _, hcount⟩
    rw [tally_right hle, if_pos he] at hcount
    refine ⟨?_, hd, by omega⟩
    by_contra hlt
    rw [tally_of_lt (by omega)] at hcount
    omega
  · rintro ⟨hle, _, hcount⟩
    refine ⟨by omega, he, ?_⟩
    rw [tally_right (by omega), if_pos he, hcount]

/-- From the next integer on there is one less, if this one was counted. -/
theorem Forth.next_of_mem (h : Forth p d (n + 1) e) (hd : p d) (hn : 1 ≤ n) : Forth p (d + 1) n e := by
  obtain ⟨hle, hmem, hcount⟩ := h
  rw [tally_left hle, if_pos hd] at hcount
  refine ⟨?_, hmem, by omega⟩
  by_contra hlt
  rw [tally_of_lt (by omega)] at hcount
  omega

theorem Forth.next_of_not_mem (h : Forth p d n e) (hd : ¬p d) : Forth p (d + 1) n e := by
  obtain ⟨hle, hmem, hcount⟩ := h
  rw [tally_left hle, if_neg hd, Nat.add_zero] at hcount
  have hne : d ≠ e := by
    rintro rfl
    exact hd hmem
  exact ⟨by omega, hmem, hcount⟩

/-- The first one is the least. -/
theorem Forth.isLeast (h : Forth p d 1 e) : IsLeast {x | d ≤ x ∧ p x} e := by
  refine ⟨⟨h.le, h.mem⟩, ?_⟩
  rintro x ⟨hdx, hx⟩
  by_contra hlt
  have hone : Forth p d (tally p d x) x := ⟨hdx, hx, rfl⟩
  have hcount := hone.count_lt (by omega) h.mem
  rw [h.count, tally_right hdx, if_pos hx] at hcount
  omega

theorem Back.isGreatest (h : Back p d 1 e) : IsGreatest {x | x ≤ d ∧ p x} e := by
  refine ⟨⟨h.le, h.mem⟩, ?_⟩
  rintro x ⟨hxd, hx⟩
  by_contra hlt
  have hone : Back p d (tally p x d) x := ⟨hxd, hx, rfl⟩
  have hcount := hone.count_lt (by omega) h.mem
  rw [h.count, tally_left hxd, if_pos hx] at hcount
  omega

/-! ## Step by step -/

omit [DecidablePred p] in
theorem infinite_add (h : ∀ x, ∃ y, x ≤ y ∧ p y) : (Set.ofPred fun i : ℕ => p (d + i)).Infinite := by
  apply Set.infinite_of_forall_exists_gt
  intro i
  obtain ⟨y, hy, hpy⟩ := h (d + i + 1)
  have hindex : d + ((y - d).toNat : ℤ) = y := by omega
  refine ⟨(y - d).toNat, ?_, by omega⟩
  change p (d + ((y - d).toNat : ℤ))
  rwa [hindex]

omit [DecidablePred p] in
theorem infinite_sub (h : ∀ x, ∃ y, y ≤ x ∧ p y) : (Set.ofPred fun i : ℕ => p (d - i)).Infinite := by
  apply Set.infinite_of_forall_exists_gt
  intro i
  obtain ⟨y, hy, hpy⟩ := h (d - i - 1)
  have hindex : d - ((d - y).toNat : ℤ) = y := by omega
  refine ⟨(d - y).toNat, ?_, by omega⟩
  change p (d - ((d - y).toNat : ℤ))
  rwa [hindex]

theorem count_nth_add_one {q : ℕ → Prop} [DecidablePred q] (hinf : (Set.ofPred q).Infinite) (hn : 1 ≤ n) :
    Nat.count q (Nat.nth q (n - 1) + 1) = n := by
  rw [Nat.count_succ, Nat.count_nth_of_infinite hinf, if_pos (Nat.nth_mem_of_infinite hinf _)]
  omega

theorem forth_nth (hinf : (Set.ofPred fun i : ℕ => p (d + i)).Infinite) (hn : 1 ≤ n) :
    Forth p d n (d + (Nat.nth (fun i : ℕ => p (d + i)) (n - 1) : ℕ)) := by
  refine ⟨by omega, Nat.nth_mem_of_infinite hinf (n - 1), ?_⟩
  rw [tally_add, count_nth_add_one hinf hn]

theorem back_nth (hinf : (Set.ofPred fun i : ℕ => p (d - i)).Infinite) (hn : 1 ≤ n) :
    Back p d n (d - (Nat.nth (fun i : ℕ => p (d - i)) (n - 1) : ℕ)) := by
  refine ⟨by omega, Nat.nth_mem_of_infinite hinf (n - 1), ?_⟩
  rw [tally_sub, count_nth_add_one hinf hn]

section
variable {ε σ : Type} {body : σ × ℤ → Except ε ((σ × ℤ) ⊕ σ)} {pos : ℕ → σ} {q : ℕ → Prop} [DecidablePred q]
  {left : ℕ}

/-- The loop is at its `k`-th place, and `left` are still to be found: it has not gone past the last one of them. -/
structure Counting (pos : ℕ → σ) (q : ℕ → Prop) [DecidablePred q] (n : ℕ) (st : σ × ℤ) (k left : ℕ) : Prop where
  eq : st = (pos k, (left : ℤ))
  sum : 0 < left → Nat.count q k + left = n ∧ k ≤ Nat.nth q (n - 1)
  done : left = 0 → k = Nat.nth q (n - 1)

/-- One is found, and it is not the last one. -/
theorem Counting.hit (h : Counting pos q n (pos k, (left + 1 : ℕ)) k (left + 1)) (hinf : (Set.ofPred q).Infinite)
    (hk : q k) (hne : left ≠ 0) : Counting pos q n (pos (k + 1), (left : ℤ)) (k + 1) left ∧ k < Nat.nth q (n - 1) := by
  have hcount : Nat.count q (Nat.nth q (n - 1)) = n - 1 := Nat.count_nth_of_infinite hinf (n - 1)
  have hnext : Nat.count q (k + 1) = Nat.count q k + 1 := by rw [Nat.count_succ, if_pos hk]
  obtain ⟨hsum, hle⟩ := h.sum (Nat.succ_pos left)
  have hlast : k ≠ Nat.nth q (n - 1) := by
    intro heq
    rw [← heq] at hcount
    omega
  refine ⟨⟨rfl, fun _ => ?_, fun hzero => absurd hzero hne⟩, by omega⟩
  omega

/-- The last one is found. -/
theorem Counting.hit_last (h : Counting pos q n (pos k, (1 : ℕ)) k 1) (hinf : (Set.ofPred q).Infinite) (hk : q k) :
    Counting pos q n (pos k, (0 : ℕ)) k 0 := by
  have hmem : q (Nat.nth q (n - 1)) := Nat.nth_mem_of_infinite hinf (n - 1)
  have hcount : Nat.count q (Nat.nth q (n - 1)) = n - 1 := Nat.count_nth_of_infinite hinf (n - 1)
  obtain ⟨hsum, _⟩ := h.sum Nat.one_pos
  refine ⟨rfl, fun hpos => absurd hpos (Nat.lt_irrefl 0), fun _ => ?_⟩
  exact Nat.count_injective hk hmem (by omega)

theorem Counting.skip (h : Counting pos q n (pos k, (left + 1 : ℕ)) k (left + 1)) (hinf : (Set.ofPred q).Infinite)
    (hk : ¬q k) :
    Counting pos q n (pos (k + 1), (left + 1 : ℕ)) (k + 1) (left + 1) ∧ k < Nat.nth q (n - 1) := by
  have hmem : q (Nat.nth q (n - 1)) := Nat.nth_mem_of_infinite hinf (n - 1)
  have hnext : Nat.count q (k + 1) = Nat.count q k := by rw [Nat.count_succ, if_neg hk, Nat.add_zero]
  obtain ⟨hsum, hle⟩ := h.sum (Nat.succ_pos left)
  have hlast : k ≠ Nat.nth q (n - 1) := by
    intro heq
    exact hk (heq ▸ hmem)
  refine ⟨⟨rfl, fun _ => ?_, fun hzero => absurd hzero (Nat.succ_ne_zero left)⟩, by omega⟩
  omega

/-- **The rule for a loop that counts down**: where `q` holds one less is left, and the place moves on unless none is. -/
theorem returns_countdown (pos : ℕ → σ) (hinf : (Set.ofPred q).Infinite) (hn : 1 ≤ n)
    (hlast : ∀ k, body (pos k, 0) = .ok (.inr (pos k)))
    (hskip : ∀ k (left : ℕ), ¬q k → body (pos k, (left + 1 : ℕ)) = .ok (.inl (pos (k + 1), (left + 1 : ℕ))))
    (hhit : ∀ k (left : ℕ), q k →
      body (pos k, (left + 1 : ℕ)) = .ok (.inl (if left = 0 then pos k else pos (k + 1), (left : ℤ)))) :
    Returns (loop body (pos 0, (n : ℤ))) (pos (Nat.nth q (n - 1))) := by
  have hturn : ∀ st (g : ℕ × ℕ), Counting pos q n st g.1 g.2 →
      (∃ st', ∃ g' : ℕ × ℕ, body st = .ok (.inl st') ∧ Counting pos q n st' g'.1 g'.2 ∧
        Nat.nth q (n - 1) - g'.1 + g'.2 < Nat.nth q (n - 1) - g.1 + g.2) ∨
        ∃ x, body st = .ok (.inr x) ∧ x = pos (Nat.nth q (n - 1)) := by
    rintro st ⟨k, left⟩ h
    obtain rfl := h.eq
    cases left with
    | zero =>
      right
      exact ⟨pos k, hlast k, congrArg pos (h.done rfl)⟩
    | succ left =>
      left
      by_cases hk : q k
      · have hstep := hhit k left hk
        by_cases hzero : left = 0
        · subst hzero
          rw [if_pos rfl] at hstep
          exact ⟨_, (k, 0), hstep, h.hit_last hinf hk, by omega⟩
        · rw [if_neg hzero] at hstep
          obtain ⟨hnext, hlt⟩ := h.hit hinf hk hzero
          exact ⟨_, (k + 1, left), hstep, hnext, by omega⟩
      · obtain ⟨hnext, hlt⟩ := h.skip hinf hk
        exact ⟨_, (k + 1, left + 1), hskip k left hk, hnext, by omega⟩
  have hinit : Counting pos q n (pos 0, (n : ℤ)) 0 n := by
    refine ⟨rfl, fun _ => ⟨?_, Nat.zero_le _⟩, fun h => by omega⟩
    rw [Nat.count_zero, Nat.zero_add]
  obtain ⟨x, hret, rfl⟩ :=
    returns_loop (g := (0, n)) (fun g : ℕ × ℕ => Nat.nth q (n - 1) - g.1 + g.2) hturn hinit
  exact hret

end

end Tally
