import Mathlib.Algebra.Group.Nat.Defs
/-!
# Numerals

A number is written in a base of 2 to 16 with the letters of its digits in one of two cases (`digits`), and read
digit by digit (`parse`). What is written is read back (`parse_digits`), whatever is around it stays apart from it
because it has digits only (`mem_digits`), and it has one digit exactly below the base (`length_digits_eq_one_iff`).
A number below zero has a sign before it (`signed`).
-/

namespace Radix

variable {upper : Bool} {b n d : Nat}

def digit (upper : Bool) (d : Nat) : Char := if upper then d.digitChar.toUpper else d.digitChar

def digits (upper : Bool) (b n : Nat) : List Char :=
  (Nat.toDigits b n).map fun c => if upper then c.toUpper else c

/-- `cs` with the sign of `x`. -/
def signed (x : Int) (cs : List Char) : List Char := (if x < 0 then ['-'] else []) ++ cs

/-- The value of a digit or letter, for any base up to 36. -/
def digitVal (c : Char) : Option Nat :=
  if '0' ≤ c ∧ c ≤ '9' then some (c.toNat - '0'.toNat)
  else if 'a' ≤ c ∧ c ≤ 'z' then some (c.toNat - 'a'.toNat + 10)
  else if 'A' ≤ c ∧ c ≤ 'Z' then some (c.toNat - 'A'.toNat + 10)
  else none

/-- The number `n` goes on with the digits. -/
def parse (b : Nat) : List Char → Nat → Option Nat
  | [], n => some n
  | c :: cs, n =>
    match digitVal c with
    | some d => if d < b then parse b cs (n * b + d) else none
    | none => none

/-! ## Digits -/

theorem digitVal_digit (h : d < 16) : digitVal (digit upper d) = some d := by
  have hall : ∀ d < 16, digitVal (digit false d) = some d ∧ digitVal (digit true d) = some d := by decide
  cases upper with
  | false => exact (hall d h).1
  | true => exact (hall d h).2

/-- A property of the digits, to be checked for all of them. -/
theorem digit_forall {P : Char → Prop} (h : ∀ d < 16, P (digit false d) ∧ P (digit true d)) (hd : d < 16) :
    P (digit upper d) := by
  cases upper with
  | false => exact (h d hd).1
  | true => exact (h d hd).2

/-! ## What is written -/

theorem digits_of_lt (h : n < b) : digits upper b n = [digit upper n] := by
  rw [digits, Nat.toDigits_of_lt_base h]
  rfl

theorem digits_of_le (hb : 1 < b) (h : b ≤ n) : digits upper b n = digits upper b (n / b) ++ [digit upper (n % b)] := by
  rw [digits, Nat.toDigits_of_base_le hb h, List.map_append]
  rfl

/-- **The rule for what is written**: one digit, or one more digit behind what is written for the quotient. -/
theorem digits_induction {P : Nat → List Char → Prop} (hb : 1 < b) (hlt : ∀ n < b, P n [digit upper n])
    (hle : ∀ n, b ≤ n → P (n / b) (digits upper b (n / b)) → P n (digits upper b (n / b) ++ [digit upper (n % b)]))
    (n : Nat) : P n (digits upper b n) := by
  induction n using Nat.strongRecOn with
  | ind n ih =>
    rcases Nat.lt_or_ge n b with h | h
    · rw [digits_of_lt h]
      exact hlt n h
    · rw [digits_of_le hb h]
      exact hle n h (ih (n / b) (Nat.div_lt_self (by omega) hb))

theorem mem_digits (hb : 1 < b) {c : Char} : c ∈ digits upper b n → ∃ d < b, c = digit upper d := by
  apply digits_induction (P := fun _ cs => c ∈ cs → ∃ d < b, c = digit upper d) hb
  · intro n hn hc
    exact ⟨n, hn, List.mem_singleton.1 hc⟩
  · intro n _ ih hc
    rcases List.mem_append.1 hc with hc | hc
    · exact ih hc
    · exact ⟨n % b, Nat.mod_lt n (by omega), List.mem_singleton.1 hc⟩

theorem length_digits_eq_one_iff (hb : 1 < b) : (digits upper b n).length = 1 ↔ n < b := by
  have hpos : 0 < (Nat.toDigits b n).length := Nat.length_toDigits_pos
  have hle := Nat.length_toDigits_le_iff (n := n) hb Nat.one_pos
  rw [Nat.pow_one] at hle
  rw [digits, List.length_map, ← hle]
  omega

/-- A number of so many digits is below the power of the base. -/
theorem lt_pow_length_digits (hb : 1 < b) : n < b ^ (digits upper b n).length := by
  have hpos : 0 < (Nat.toDigits b n).length := Nat.length_toDigits_pos
  rw [digits, List.length_map]
  exact (Nat.length_toDigits_le_iff hb hpos).1 (Nat.le_refl _)

theorem length_le_signed (x : Int) (cs : List Char) : cs.length ≤ (signed x cs).length := by
  rw [signed, List.length_append]
  exact Nat.le_add_left _ _

theorem digits_ne_nil : digits upper b n ≠ [] := by
  have hpos : 0 < (Nat.toDigits b n).length := Nat.length_toDigits_pos
  intro hnil
  rw [← List.length_map (f := fun c : Char => if upper then c.toUpper else c), ← digits, hnil] at hpos
  exact absurd hpos (Nat.lt_irrefl 0)

/-! ## What is read -/

theorem parse_append {cs cs' : List Char} : parse b (cs ++ cs') n = (parse b cs n).bind (parse b cs') := by
  induction cs generalizing n with
  | nil => rfl
  | cons c cs ih =>
    simp only [List.cons_append, parse]
    cases digitVal c with
    | none => rfl
    | some d =>
      by_cases hd : d < b
      · simp only [if_pos hd]
        exact ih
      · simp only [if_neg hd]
        rfl

theorem parse_digit (hb : b ≤ 16) (h : d < b) : parse b [digit upper d] n = some (n * b + d) := by
  have hval : digitVal (digit upper d) = some d := digitVal_digit (by omega)
  simp only [parse, hval, if_pos h]

/-- **What is written is read back.** -/
theorem parse_digits (hb1 : 1 < b) (hb : b ≤ 16) (n : Nat) : parse b (digits upper b n) 0 = some n := by
  apply digits_induction (P := fun n cs => parse b cs 0 = some n) hb1
  · intro n hn
    rw [parse_digit hb hn, Nat.zero_mul, Nat.zero_add]
  · intro n _ ih
    rw [parse_append, ih, Option.bind_some, parse_digit hb (Nat.mod_lt n (by omega)), Nat.div_add_mod']

end Radix
