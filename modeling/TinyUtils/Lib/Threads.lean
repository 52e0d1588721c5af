import Mathlib.Data.Fintype.BigOperators
import Mathlib.Algebra.Order.BigOperators.Group.Finset
/-!
# Counting over the threads of a system

The local states of the threads of a system are a function `ts : Tid → β`, any finite number of
threads; a step of thread `t` is `Function.update ts t b`. `total f ts` adds up `f` over all threads
(a hold count, or `0`/`1` for "is at this point"). The one law needed is `total_update`: a step of
`t` changes the total by what it changes at `t`, written without subtraction.
-/

namespace Threads

open Function

variable {Tid β : Type} [Fintype Tid]

/-- The sum of `f` over all threads. -/
def total (f : β → Nat) (ts : Tid → β) : Nat := ∑ t, f (ts t)

/-- The number of threads whose local state satisfies `p`. -/
def count (p : β → Bool) (ts : Tid → β) : Nat := total (fun b => if p b then 1 else 0) ts

theorem total_update [DecidableEq Tid] (f : β → Nat) (ts : Tid → β) (t : Tid) (b : β) :
    total f (update ts t b) + f (ts t) = total f ts + f b := by
  unfold total
  rw [← Finset.add_sum_erase _ (fun u => f (update ts t b u)) (Finset.mem_univ t),
    ← Finset.add_sum_erase _ (fun u => f (ts u)) (Finset.mem_univ t)]
  have hrest : ∑ u ∈ Finset.univ.erase t, f (update ts t b u) = ∑ u ∈ Finset.univ.erase t, f (ts u) := by
    apply Finset.sum_congr rfl
    intro u hu
    rw [update_of_ne (Finset.ne_of_mem_erase hu)]
  rw [hrest, update_self]
  omega

theorem le_total (f : β → Nat) (ts : Tid → β) (t : Tid) : f (ts t) ≤ total f ts :=
  Finset.single_le_sum (f := fun u => f (ts u)) (fun _ _ => Nat.zero_le _) (Finset.mem_univ t)

theorem add_le_total (f : β → Nat) (ts : Tid → β) {t u : Tid} (h : t ≠ u) :
    f (ts t) + f (ts u) ≤ total f ts := by
  classical
  unfold total
  rw [← Finset.add_sum_erase _ (fun v => f (ts v)) (Finset.mem_univ t)]
  have := Finset.single_le_sum (f := fun v => f (ts v)) (fun _ _ => Nat.zero_le _)
    (Finset.mem_erase.2 ⟨h.symm, Finset.mem_univ u⟩)
  omega

/-- What every thread has `b` of. -/
theorem total_eq_mul {f : β → Nat} {ts : Tid → β} {b : Nat} (h : ∀ t, f (ts t) = b) :
    total f ts = b * Fintype.card Tid := by
  simp [total, h, Nat.mul_comm]

/-- What no thread has more than `b` of. -/
theorem total_le_mul {f : β → Nat} {ts : Tid → β} {b : Nat} (h : ∀ t, f (ts t) ≤ b) :
    total f ts ≤ b * Fintype.card Tid := by
  have hsum : total f ts ≤ total (fun _ : β => b) ts := Finset.sum_le_sum fun t _ => h t
  exact hsum.trans_eq (total_eq_mul fun _ => rfl)

/-- What no thread has more than `b` of, and one has less. -/
theorem total_lt_mul {f : β → Nat} {ts : Tid → β} {b : Nat} (h : ∀ t, f (ts t) ≤ b) {t : Tid} (ht : f (ts t) < b) :
    total f ts < b * Fintype.card Tid := by
  have hsum : total f ts < total (fun _ : β => b) ts :=
    Finset.sum_lt_sum (fun t _ => h t) ⟨t, Finset.mem_univ t, ht⟩
  exact hsum.trans_eq (total_eq_mul fun _ => rfl)

theorem total_eq_zero {f : β → Nat} {ts : Tid → β} : total f ts = 0 ↔ ∀ t, f (ts t) = 0 := by
  simp [total]

/-- A total of one sits at a single thread. -/
theorem exists_of_total_eq_one {f : β → Nat} {ts : Tid → β} (h : total f ts = 1) :
    ∃ t, f (ts t) = 1 ∧ ∀ u, u ≠ t → f (ts u) = 0 := by
  have hne : ¬ ∀ t, f (ts t) = 0 := fun h0 => by rw [total_eq_zero.2 h0] at h; omega
  obtain ⟨t, ht⟩ := not_forall.1 hne
  have h1 := le_total f ts t
  refine ⟨t, by omega, fun u hu => ?_⟩
  have := add_le_total f ts hu
  omega

theorem count_update [DecidableEq Tid] (p : β → Bool) (ts : Tid → β) (t : Tid) (b : β) :
    count p (update ts t b) + (if p (ts t) then 1 else 0) = count p ts + (if p b then 1 else 0) :=
  total_update _ ts t b

theorem count_eq_zero {p : β → Bool} {ts : Tid → β} : count p ts = 0 ↔ ∀ t, p (ts t) = false := by
  simp [count, total_eq_zero]

end Threads
