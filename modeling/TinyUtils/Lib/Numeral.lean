import Mathlib.Data.Nat.Digits.Defs
import Mathlib.Tactic.Ring
/-!
# Numerals

A list of digits in a base, the lowest first, stands for the number `Nat.ofDigits` of it. `Sums` is what a loop that
adds two such numbers digit by digit keeps: the digits so far, with the carry above them, are the sum of the digits
read so far.
-/

namespace Numeral

open Nat (ofDigits ofDigits_append ofDigits_cons ofDigits_nil ofDigits_singleton)

variable {b c d n x y : Nat} {ds xs ys : List Nat}

theorem ofDigits_push (b : Nat) (ds : List Nat) (d : Nat) :
    ofDigits b (ds ++ [d]) = ofDigits b ds + b ^ ds.length * d := by
  rw [ofDigits_append, ofDigits_singleton]

theorem ofDigits_split (b n : Nat) (ds : List Nat) :
    ofDigits b ds = ofDigits b (ds.take n) + b ^ (ds.take n).length * ofDigits b (ds.drop n) := by
  rw [← ofDigits_append, List.take_append_drop]

theorem ofDigits_take_le (b n : Nat) (ds : List Nat) : ofDigits b (ds.take n) ≤ ofDigits b ds := by
  rw [ofDigits_split b n ds]
  exact Nat.le_add_right _ _

theorem ofDigits_eq_zero_iff (hb : 0 < b) : ofDigits b ds = 0 ↔ ∀ d ∈ ds, d = 0 := by
  induction ds with
  | nil => simp
  | cons d ds ih =>
    rw [ofDigits_cons, List.forall_mem_cons, ← ih, Nat.add_eq_zero_iff, Nat.mul_eq_zero]
    simp only [Nat.ne_of_gt hb, false_or]

/-- The digits that are cut off are zeros. -/
theorem ofDigits_take_eq_iff (hb : 0 < b) : ofDigits b (ds.take n) = ofDigits b ds ↔ ∀ d ∈ ds.drop n, d = 0 := by
  rw [← ofDigits_eq_zero_iff hb, ofDigits_split b n ds]
  have hpow : 0 < b ^ (ds.take n).length := Nat.pow_pos hb
  constructor
  · intro h
    have hmul : b ^ (ds.take n).length * ofDigits b (ds.drop n) = 0 := by omega
    exact (Nat.mul_eq_zero.1 hmul).resolve_left (Nat.ne_of_gt hpow)
  · intro h
    rw [h, Nat.mul_zero, Nat.add_zero]

/-- The digits with the carry above them are the sum. -/
def Sums (b : Nat) (ds : List Nat) (c : Nat) (xs ys : List Nat) : Prop :=
  ofDigits b ds + b ^ ds.length * c = ofDigits b xs + ofDigits b ys

theorem Sums.nil (b : Nat) : Sums b [] 0 [] [] := by
  simp [Sums]

theorem Sums.comm (h : Sums b ds c xs ys) : Sums b ds c ys xs := by
  unfold Sums at *
  rw [h, Nat.add_comm]

/-- One digit of both numbers. -/
theorem Sums.push {c' : Nat} (h : Sums b ds c xs ys) (hx : xs.length = ds.length) (hy : ys.length = ds.length)
    (hd : d + b * c' = x + y + c) : Sums b (ds ++ [d]) c' (xs ++ [x]) (ys ++ [y]) := by
  unfold Sums at *
  rw [ofDigits_push, ofDigits_push, ofDigits_push, hx, hy, List.length_append, List.length_singleton]
  calc ofDigits b ds + b ^ ds.length * d + b ^ (ds.length + 1) * c'
      = ofDigits b ds + b ^ ds.length * (d + b * c') := by ring
    _ = ofDigits b ds + b ^ ds.length * (x + y + c) := by rw [hd]
    _ = ofDigits b ds + b ^ ds.length * c + b ^ ds.length * x + b ^ ds.length * y := by ring
    _ = ofDigits b xs + b ^ ds.length * x + (ofDigits b ys + b ^ ds.length * y) := by rw [h]; ring

/-- The other number has no more digits. -/
theorem Sums.push_right {c' : Nat} (h : Sums b ds c xs ys) (hy : ys.length = ds.length) (hd : d + b * c' = y + c) :
    Sums b (ds ++ [d]) c' xs (ys ++ [y]) := by
  unfold Sums at *
  rw [ofDigits_push, ofDigits_push, hy, List.length_append, List.length_singleton]
  calc ofDigits b ds + b ^ ds.length * d + b ^ (ds.length + 1) * c'
      = ofDigits b ds + b ^ ds.length * (d + b * c') := by ring
    _ = ofDigits b ds + b ^ ds.length * (y + c) := by rw [hd]
    _ = ofDigits b ds + b ^ ds.length * c + b ^ ds.length * y := by ring
    _ = ofDigits b xs + (ofDigits b ys + b ^ ds.length * y) := by rw [h]; ring

/-- The carry is the last digit. -/
theorem Sums.close (h : Sums b ds c xs ys) : ofDigits b (ds ++ [c]) = ofDigits b xs + ofDigits b ys := by
  rw [ofDigits_push]
  exact h

theorem Sums.close_zero (h : Sums b ds 0 xs ys) : ofDigits b ds = ofDigits b xs + ofDigits b ys := by
  unfold Sums at h
  rwa [Nat.mul_zero, Nat.add_zero] at h

end Numeral
