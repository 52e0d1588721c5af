import Mathlib.Data.Char
import Mathlib.Data.List.Lex
import TinyUtils.Lib.Radix
/-!
# Numbers in a fixed width

A number that is written with zeros before it, so that it has a given width (`padded`), has one digit for each place
(`places`). Texts of one width that are written so are ordered as their numbers are (`padded_lt`), and so are texts made of
several of them, from left to right (`append_lt_append`).
-/

namespace FixedWidth

open Radix

/-- The first part decides, where both are of one length. -/
theorem append_lt_append {α : Type} [LT α] {a b : List α} (h : a.length = b.length) (hlt : a < b) (c d : List α) : a ++ c < b ++ d := by
  induction a generalizing b with
  | nil =>
    cases b with
    | nil => exact absurd hlt (List.not_lt_nil _)
    | cons y b => cases h
  | cons x a ih =>
    cases b with
    | nil => cases h
    | cons y b =>
      rw [List.cons_append, List.cons_append, List.cons_lt_cons_iff]
      rcases List.cons_lt_cons_iff.1 hlt with hxy | ⟨rfl, hab⟩
      · exact Or.inl hxy
      · exact Or.inr ⟨rfl, ih (Nat.succ.inj h) hab⟩

/-- `n` with zeros before it, as `"%0wd"` writes it. -/
def padded (w n : Nat) : List Char :=
  List.replicate (w - (digits false 10 n).length) '0' ++ digits false 10 n

/-- One digit for each of `w` places. -/
def places : Nat → Nat → List Char
  | 0, _ => []
  | w + 1, n => places w (n / 10) ++ [digit false (n % 10)]

@[simp] theorem length_places (w n : Nat) : (places w n).length = w := by
  induction w generalizing n with
  | zero => rfl
  | succ w ih => simp [places, ih]

theorem places_zero (w : Nat) : places w 0 = List.replicate w '0' := by
  induction w with
  | zero => rfl
  | succ w ih =>
    simp only [places, Nat.zero_div, ih, List.replicate_succ']
    rfl

theorem padded_eq {w n : Nat} (hn : n < 10 ^ (w + 1)) : padded (w + 1) n = places (w + 1) n := by
  induction w generalizing n with
  | zero =>
    have hlt : n < 10 := by omega
    simp [padded, places, digits_of_lt hlt, Nat.mod_eq_of_lt hlt]
  | succ w ih =>
    rcases Nat.lt_or_ge n 10 with hlt | hge
    · have hdiv : n / 10 = 0 := Nat.div_eq_of_lt hlt
      rw [padded, digits_of_lt hlt, places, hdiv, places_zero, Nat.mod_eq_of_lt hlt]
      rfl
    · have hdiv : n / 10 < 10 ^ (w + 1) := by
        rw [Nat.pow_succ] at hn
        omega
      have hrest := ih hdiv
      rw [padded] at hrest
      rw [padded, digits_of_le (by decide) hge, places, ← hrest, List.length_append, List.length_singleton,
        Nat.add_sub_add_right, List.append_assoc]

theorem places_lt {w m n : Nat} (hn : n < 10 ^ w) (h : m < n) : places w m < places w n := by
  induction w generalizing m n with
  | zero => omega
  | succ w ih =>
    have hdigit : ∀ d < 10, ∀ d' < d, digit false d' < digit false d := by decide
    have hdiv : n / 10 < 10 ^ w := by
      rw [Nat.pow_succ] at hn
      omega
    rcases Nat.lt_or_ge (m / 10) (n / 10) with hlt | hge
    · exact append_lt_append (by simp) (ih hdiv hlt) _ _
    · have heq : m / 10 = n / 10 := by omega
      rw [places, places, heq]
      apply List.append_left_lt
      rw [List.cons_lt_cons_iff]
      exact Or.inl (hdigit (n % 10) (Nat.mod_lt n (by decide)) (m % 10) (by omega))

theorem length_padded {w n : Nat} (hn : n < 10 ^ (w + 1)) : (padded (w + 1) n).length = w + 1 := by
  rw [padded_eq hn, length_places]

/-- **Texts of one width are ordered as their numbers are.** -/
theorem padded_lt {w m n : Nat} (hn : n < 10 ^ (w + 1)) (h : m < n) : padded (w + 1) m < padded (w + 1) n := by
  rw [padded_eq hn, padded_eq (h.trans hn)]
  exact places_lt hn h

end FixedWidth
