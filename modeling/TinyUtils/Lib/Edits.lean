import Mathlib.Data.List.Basic
/-!
# Strings by handle

What a program with several strings sees of them: by handle a list over any alphabet, or nothing where the string is
gone. An `Edit` makes a string, drops one, or gives one string a new value from its own and at most one other.

The values that edits are made of are `piece`, `overlay`, `splice` and `extract`, with what they do one after the other.
-/

namespace Edits

variable {α : Type}

/-- The strings by handle, `none` for one that is gone. -/
abbrev Strings (α : Type) := List (Option (List α))

def stringAt (ss : Strings α) (i : Nat) : Option (List α) := ss[i]?.join

inductive Edit (α : Type)
  | add (s : List α)
  | double (i : Nat)
  | drop (i : Nat)
  | change (i : Nat) (f : List α → List α)
  | combine (dst src : Nat) (f : List α → List α → List α)

/-- The strings after an edit. An edit of a string that is not there does nothing. -/
def Edit.apply (ss : Strings α) : Edit α → Strings α
  | .add s => ss ++ [some s]
  | .double i =>
    match stringAt ss i with
    | some s => ss ++ [some s]
    | none => ss
  | .drop i => ss.set i none
  | .change i f =>
    match stringAt ss i with
    | some s => ss.set i (some (f s))
    | none => ss
  | .combine dst src f =>
    match stringAt ss dst, stringAt ss src with
    | some d, some s => ss.set dst (some (f d s))
    | _, _ => ss

section
variable {ss : Strings α} {i j : Nat} {s d : List α}

theorem lt_of_stringAt (h : stringAt ss i = some s) : i < ss.length := by
  obtain ⟨hi, _⟩ := List.getElem?_eq_some_iff.1 (Option.join_eq_some_iff.1 h)
  exact hi

theorem stringAt_set_self (h : stringAt ss i = some d) (x : Option (List α)) : stringAt (ss.set i x) i = x := by
  simp [stringAt, List.getElem?_set_self (lt_of_stringAt h)]

theorem set_stringAt (h : stringAt ss i = some s) : ss.set i (some s) = ss := by
  obtain ⟨hi, hs⟩ := List.getElem?_eq_some_iff.1 (Option.join_eq_some_iff.1 h)
  rw [← hs, List.set_getElem_self]

theorem stringAt_set_of_ne (hne : i ≠ j) (x : Option (List α)) : stringAt (ss.set i x) j = stringAt ss j := by
  simp [stringAt, List.getElem?_set_ne hne]

theorem apply_change (h : stringAt ss i = some d) (f : List α → List α) :
    (Edit.change i f).apply ss = ss.set i (some (f d)) := by
  simp only [Edit.apply, h]

theorem apply_combine (hd : stringAt ss i = some d) (hs : stringAt ss j = some s) (f : List α → List α → List α) :
    (Edit.combine i j f).apply ss = ss.set i (some (f d s)) := by
  simp only [Edit.apply, hd, hs]

end

/-! ## Values -/

/-- `len` elements from `begin` on, as far as there are any. For `0` it is all of them. -/
def piece (s : List α) (begin len : Nat) : List α := (s.drop begin).take (if len = 0 then s.length else len)

/-- `s` over the first elements of `d`. -/
def overlay (d s : List α) : List α := s ++ d.drop s.length

/-- `s` in between the elements of `d`. -/
def splice (d : List α) (pos : Nat) (s : List α) : List α := d.take pos ++ s ++ d.drop pos

/-- The elements of `s` from `begin` on, at most `len`; where that is not part of `s` it is `d`. -/
def extract (d s : List α) (begin len : Nat) : List α :=
  if s.length ≤ begin ∨ len = 0 ∨ s.length < len then d else (s.drop begin).take len

theorem splice_nil (d : List α) (pos : Nat) : splice d pos [] = d := by simp [splice]

theorem length_extract_le (s : List α) (begin len : Nat) : (extract [] s begin len).length ≤ s.length := by
  unfold extract
  split
  · exact Nat.zero_le _
  · simp only [List.length_take, List.length_drop]
    omega

theorem overlay_nil (d : List α) : overlay d [] = d := by simp [overlay]

end Edits
