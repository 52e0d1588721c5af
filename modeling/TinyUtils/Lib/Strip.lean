import Mathlib.Data.List.DropRight
/-!
# Both ends of a list

`strip p l` is `l` without its longest prefix and its longest suffix of elements with `p`. It
neither begins nor ends with such an element (`bare_strip`), has only such elements around it in `l`
(`exists_eq_strip`), and does not depend on which end goes first (`dropWhile_rdropWhile`).
-/

namespace Strip

variable {α : Type} {p : α → Bool}

def strip (p : α → Bool) (l : List α) : List α := (l.dropWhile p).rdropWhile p

/-- The list neither begins nor ends with an element with `p`. -/
structure Bare (p : α → Bool) (l : List α) : Prop where
  front : l.dropWhile p = l
  back : l.rdropWhile p = l

theorem rdropWhile_append {l post : List α} (h : ∀ x ∈ post, p x = true) :
    (l ++ post).rdropWhile p = l.rdropWhile p := by
  have hrev : ∀ x ∈ post.reverse, p x = true := by
    intro x hx
    exact h x (List.mem_reverse.1 hx)
  rw [List.rdropWhile, List.reverse_append, List.dropWhile_append_of_pos hrev]
  rfl

theorem bare_of_forall {l : List α} (h : ∀ x ∈ l, ¬p x = true) : Bare p l := by
  refine ⟨List.dropWhile_eq_self_iff.2 fun hl => ?_, List.rdropWhile_eq_self_iff.2 fun hl => ?_⟩
  · exact h _ (List.getElem_mem hl)
  · exact h _ (List.getLast_mem hl)

theorem bare_strip (l : List α) : Bare p (strip p l) := by
  refine ⟨?_, List.rdropWhile_idempotent _ _⟩
  rw [List.dropWhile_eq_self_iff]
  intro hpos
  -- the first element is still the one of `l.dropWhile p`
  have hpre : strip p l <+: l.dropWhile p := List.rdropWhile_prefix _ _
  have hlen : 0 < (l.dropWhile p).length := Nat.lt_of_lt_of_le hpos hpre.length_le
  have hfirst : (strip p l)[0] = (l.dropWhile p)[0] := hpre.getElem hpos
  rw [hfirst]
  exact List.dropWhile_get_zero_not p l hlen

/-- What is cut off. -/
theorem exists_eq_strip (p : α → Bool) (l : List α) :
    ∃ pre post, l = pre ++ strip p l ++ post ∧ (∀ x ∈ pre, p x = true) ∧ ∀ x ∈ post, p x = true := by
  refine ⟨l.takeWhile p, (l.dropWhile p).rtakeWhile p, ?_, ?_, ?_⟩
  · rw [List.append_assoc, strip, List.rdropWhile_append_rtakeWhile, List.takeWhile_append_dropWhile]
  · intro x
    exact List.mem_takeWhile_imp
  · intro x
    exact List.mem_rtakeWhile_imp

/-- The back end first. -/
theorem dropWhile_rdropWhile (l : List α) : (l.rdropWhile p).dropWhile p = strip p l := by
  obtain ⟨pre, post, hl, hpre, hpost⟩ := exists_eq_strip p l
  have hbare := bare_strip (p := p) l
  generalize strip p l = mid at *
  subst hl
  rw [rdropWhile_append hpost]
  by_cases hne : mid = []
  · subst hne
    rw [List.append_nil, List.rdropWhile_eq_nil_iff.2 hpre]
    rfl
  · have hback : (pre ++ mid).rdropWhile p = pre ++ mid := by
      rw [List.rdropWhile_eq_self_iff]
      intro h
      rw [List.getLast_append_of_ne_nil h hne]
      exact List.rdropWhile_eq_self_iff.1 hbare.back hne
    rw [hback, List.dropWhile_append_of_pos hpre, hbare.front]

theorem strip_eq_self {l : List α} (h : Bare p l) : strip p l = l := by
  rw [strip, h.front, h.back]

theorem strip_strip (l : List α) : strip p (strip p l) = strip p l := strip_eq_self (bare_strip l)

/-- Only elements with `p` are cut off. -/
theorem countP_strip (l : List α) : (strip p l).countP (fun x => !p x) = l.countP fun x => !p x := by
  obtain ⟨pre, post, hl, hpre, hpost⟩ := exists_eq_strip p l
  have hzero {ends : List α} (h : ∀ x ∈ ends, p x = true) : ends.countP (fun x => !p x) = 0 := by
    rw [List.countP_eq_zero]
    intro x hx
    simp [h x hx]
  generalize strip p l = mid at *
  subst hl
  rw [List.countP_append, List.countP_append, hzero hpre, hzero hpost]
  omega

/-- Two ends without `p` are two elements, unless they are the same one. -/
theorem Bare.length_eq_one_iff {l : List α} (h : Bare p l) : l.length = 1 ↔ l.countP (fun x => !p x) = 1 := by
  cases l with
  | nil => simp
  | cons x l =>
    have hx : ¬p x = true := List.dropWhile_eq_self_iff.1 h.front (Nat.succ_pos _)
    rw [List.countP_cons_of_pos (by simpa using hx)]
    by_cases hne : l = []
    · subst hne
      rfl
    · have hlast : ¬p ((x :: l).getLast (List.cons_ne_nil x l)) = true :=
        List.rdropWhile_eq_self_iff.1 h.back (List.cons_ne_nil x l)
      rw [List.getLast_cons hne] at hlast
      have hcount : 0 < l.countP fun x => !p x := by
        rw [List.countP_pos_iff]
        exact ⟨l.getLast hne, List.getLast_mem hne, by simpa using hlast⟩
      have hlen : l.length ≠ 0 := mt List.length_eq_zero_iff.1 hne
      rw [List.length_cons]
      omega

theorem length_strip_eq_one_iff (l : List α) : (strip p l).length = 1 ↔ l.countP (fun x => !p x) = 1 := by
  rw [(bare_strip l).length_eq_one_iff, countP_strip]

end Strip
