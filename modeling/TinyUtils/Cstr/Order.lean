import Mathlib.Data.List.Lex
import Mathlib.Data.Int.Order.Basic
import TinyUtils.Cstr.Compare
/-!
# The order of `cstr_compare` (`c_utils/cstr.c:81-103`)

By the values of its bytes a content is a list of integers, and these lists have a linear order, the
lexicographic one. `compare` decides it (`compare_order`), so that what makes it a total order on contents is
what Mathlib knows of a linear order (`compare_total`).
-/

namespace TinyUtils.Cstr

/-- A content by the values of its bytes. -/
def values (c : List Byte) : List Int := c.map schar

theorem schar_injective : Function.Injective schar := by
  intro x y h
  by_contra hne
  have hu := uchar_ne hne
  have hx := uchar_range x
  have hy := uchar_range y
  rcases schar_cases x with ⟨_, _, hx'⟩ | ⟨_, _, hx'⟩ <;> rcases schar_cases y with ⟨_, _, hy'⟩ | ⟨_, _, hy'⟩ <;> omega

theorem values_cons_lt {x y : Byte} {a b : List Byte} :
    values (x :: a) < values (y :: b) ↔ schar x < schar y ∨ schar x = schar y ∧ values a < values b :=
  List.cons_lt_cons_iff

/-- The sign says which of the two comes first. -/
theorem lexSign_order (a b : List Byte) :
    (lexSign schar a b = -1 ∧ values a < values b) ∨ (lexSign schar a b = 0 ∧ a = b) ∨
      (lexSign schar a b = 1 ∧ values b < values a) := by
  induction a generalizing b with
  | nil =>
    cases b with
    | nil => exact Or.inr (Or.inl ⟨rfl, rfl⟩)
    | cons y b => exact Or.inl ⟨rfl, List.nil_lt_cons _ _⟩
  | cons x a ih =>
    cases b with
    | nil => exact Or.inr (Or.inr ⟨rfl, List.nil_lt_cons _ _⟩)
    | cons y b =>
      rw [values_cons_lt, values_cons_lt]
      by_cases hne : x ≠ y
      · rw [lexSign, if_pos hne]
        have hval := schar_injective.ne hne
        rcases Int.lt_or_gt_of_ne hval with hlt | hgt
        · exact Or.inl ⟨Int.sign_eq_neg_one_of_neg (by omega), Or.inl hlt⟩
        · exact Or.inr (Or.inr ⟨Int.sign_eq_one_of_pos (by omega), Or.inl hgt⟩)
      · obtain rfl : x = y := not_ne_iff.1 hne
        rw [lexSign, if_neg hne]
        rcases ih b with ⟨hs, hlt⟩ | ⟨hs, rfl⟩ | ⟨hs, hgt⟩
        · exact Or.inl ⟨hs, Or.inr ⟨rfl, hlt⟩⟩
        · exact Or.inr (Or.inl ⟨hs, rfl⟩)
        · exact Or.inr (Or.inr ⟨hs, Or.inr ⟨rfl, hgt⟩⟩)

/-- `compare` decides the order of the values. -/
theorem compare_order {a b : Cstr} (ha : a.Valid) (hb : b.Valid) :
    ∃ v, compare a b = .ok v ∧ (v < 0 ↔ values a.content < values b.content) ∧ (v = 0 ↔ a.content = b.content) ∧
      (0 < v ↔ values b.content < values a.content) := by
  obtain ⟨v, hv, hsign⟩ := compare_sign ha hb
  refine ⟨v, hv, ?_⟩
  rcases lexSign_order a.content b.content with ⟨hs, hlt⟩ | ⟨hs, heq⟩ | ⟨hs, hgt⟩ <;> rw [hs] at hsign
  · have hneg := Int.sign_eq_neg_one_iff_neg.1 hsign
    refine ⟨iff_of_true hneg hlt, iff_of_false (by omega) ?_, iff_of_false (by omega) (lt_asymm hlt)⟩
    rintro heq
    rw [heq] at hlt
    exact lt_irrefl _ hlt
  · have hzero := Int.sign_eq_zero_iff_zero.1 hsign
    rw [heq]
    exact ⟨iff_of_false (by omega) (lt_irrefl _), iff_of_true hzero rfl, iff_of_false (by omega) (lt_irrefl _)⟩
  · have hpos := Int.sign_eq_one_iff_pos.1 hsign
    refine ⟨iff_of_false (by omega) (lt_asymm hgt), iff_of_false (by omega) ?_, iff_of_true hpos hgt⟩
    rintro heq
    rw [heq] at hgt
    exact lt_irrefl _ hgt

theorem values_lt_append {a b : List Byte} (h : a <+: b) (hne : a ≠ b) : values a < values b := by
  obtain ⟨rest, rfl⟩ := h
  cases rest with
  | nil => exact absurd (List.append_nil a).symm hne
  | cons x rest =>
    have happend : List.Lex (· < ·) (values a ++ []) (values a ++ values (x :: rest)) :=
      List.Lex.append_left _ List.Lex.nil _
    rw [List.append_nil, values, values, ← List.map_append] at happend
    exact happend

theorem content_eq_iff {a b : Cstr} (ha : a.Valid) (hb : b.Valid) :
    a.content = b.content ↔ a.used = b.used ∧ a.content = b.content := by
  rw [← ha.length_content, ← hb.length_content]
  exact ⟨fun h => ⟨congrArg List.length h, h⟩, And.right⟩

/-- **`compare` is a total order on contents**, in which a proper prefix is smaller. -/
theorem compare_total {a b c : Cstr} (ha : a.Valid) (hb : b.Valid) (hc : c.Valid) :
    ∃ ab ba bc ac, compare a b = .ok ab ∧ compare b a = .ok ba ∧ compare b c = .ok bc ∧ compare a c = .ok ac ∧
      (ab = 0 ↔ a.used = b.used ∧ a.content = b.content) ∧ ab.sign = -ba.sign ∧ (ab ≤ 0 → bc ≤ 0 → ac ≤ 0) ∧
      (a.content <+: b.content → a.content ≠ b.content → ab < 0) := by
  obtain ⟨ab, hab, hab1, hab0, hab2⟩ := compare_order ha hb
  obtain ⟨ba, hba, hba1, hba0, hba2⟩ := compare_order hb ha
  obtain ⟨bc, hbc, _, _, hbc2⟩ := compare_order hb hc
  obtain ⟨ac, hac, _, _, hac2⟩ := compare_order ha hc
  refine ⟨ab, ba, bc, ac, hab, hba, hbc, hac, ?_, ?_, ?_, ?_⟩
  · rw [← content_eq_iff ha hb]
    exact hab0
  · rcases lt_trichotomy ab 0 with h | h | h
    · rw [Int.sign_eq_neg_one_of_neg h, Int.sign_eq_one_of_pos (hba2.2 (hab1.1 h))]
    · rw [h, hba0.2 (hab0.1 h).symm]
      rfl
    · rw [Int.sign_eq_one_of_pos h, Int.sign_eq_neg_one_of_neg (hba1.2 (hab2.1 h))]
      rfl
  · intro h1 h2
    rw [← not_lt, hab2, not_lt] at h1
    rw [← not_lt, hbc2, not_lt] at h2
    rw [← not_lt, hac2, not_lt]
    exact le_trans h1 h2
  · intro hpre hne
    exact hab1.2 (values_lt_append hpre hne)

/-- "", NUL and "é" in UTF-8. -/
theorem compare_total_small :
    ∃ ab ba bc ac, compare (small []) (small [0]) = .ok ab ∧ compare (small [0]) (small []) = .ok ba ∧
      compare (small [0]) (small [195, 169]) = .ok bc ∧ compare (small []) (small [195, 169]) = .ok ac ∧
      (ab = 0 ↔ (small []).used = (small [0]).used ∧ (small []).content = (small [0]).content) ∧ ab.sign = -ba.sign ∧
      (ab ≤ 0 → bc ≤ 0 → ac ≤ 0) ∧
      ((small []).content <+: (small [0]).content → (small []).content ≠ (small [0]).content → ab < 0) :=
  compare_total (small_valid (by decide)) (small_valid (by decide)) (small_valid (by decide))

end TinyUtils.Cstr
