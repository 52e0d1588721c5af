/-!
# Lists in pieces

Where the first element of a piece says how long the piece is, a list falls into pieces from its front on (`split`).
Only the last one can be cut off; the list is `Whole` if it is not.
-/

namespace Pieces

variable {α : Type} {len : α → Nat}

/-- The pieces of a list. A piece has its first element at least. -/
def split (len : α → Nat) : List α → List (List α)
  | [] => []
  | x :: l => (x :: l.take (len x - 1)) :: split len (l.drop (len x - 1))
termination_by l => l.length
decreasing_by
  simp only [List.length_drop, List.length_cons]
  omega

/-- No piece is cut off. -/
inductive Whole (len : α → Nat) : List α → Prop
  | nil : Whole len []
  | cons {x : α} {l : List α} : len x ≤ l.length + 1 → Whole len (l.drop (len x - 1)) → Whole len (x :: l)

theorem split_nil : split len [] = [] := by
  rw [split]

theorem split_cons (x : α) (l : List α) :
    split len (x :: l) = (x :: l.take (len x - 1)) :: split len (l.drop (len x - 1)) := by
  rw [split]

theorem flatten_split (len : α → Nat) (l : List α) : (split len l).flatten = l := by
  induction l using split.induct len with
  | case1 => rw [split_nil, List.flatten_nil]
  | case2 x l ih => rw [split_cons, List.flatten_cons, ih, List.cons_append, List.take_append_drop]

/-- A piece in front. -/
theorem Whole.append {x : α} {tail rest : List α} (htail : tail.length + 1 = len x) (hrest : Whole len rest) :
    Whole len (x :: (tail ++ rest)) := by
  have hlen : len x - 1 = tail.length := by omega
  apply Whole.cons
  · rw [List.length_append]
    omega
  · rw [hlen, List.drop_left]
    exact hrest

theorem length_split_cons (x : α) (l : List α) :
    (split len (x :: l)).length = (split len (l.drop (len x - 1))).length + 1 := by
  rw [split_cons, List.length_cons]

theorem whole_cons_iff {x : α} {l : List α} :
    Whole len (x :: l) ↔ len x ≤ l.length + 1 ∧ Whole len (l.drop (len x - 1)) := by
  constructor
  · intro h
    cases h with
    | cons hlen hrest => exact ⟨hlen, hrest⟩
  · rintro ⟨hlen, hrest⟩
    exact Whole.cons hlen hrest

/-- A piece that is not cut off. -/
structure Piece (len : α → Nat) (p : List α) : Prop where
  ne_nil : p ≠ []
  length : p.length = len (p.head ne_nil)

theorem Whole.pieces {l : List α} (h : Whole len l) (hpos : ∀ x, 0 < len x) : ∀ p ∈ split len l, Piece len p := by
  induction h with
  | nil =>
    rw [split_nil]
    exact List.forall_mem_nil _
  | @cons x l hlen _ ih =>
    rw [split_cons]
    refine List.forall_mem_cons.2 ⟨⟨List.cons_ne_nil _ _, ?_⟩, ih⟩
    have hx := hpos x
    simp only [List.length_cons, List.length_take, List.head_cons]
    omega

/-- **Pieces that are put together fall into these pieces again.** -/
theorem split_flatten {ps : List (List α)} (h : ∀ p ∈ ps, Piece len p) :
    split len ps.flatten = ps ∧ Whole len ps.flatten := by
  induction ps with
  | nil => exact ⟨split_nil, .nil⟩
  | cons p ps ih =>
    obtain ⟨hp, hps⟩ := List.forall_mem_cons.1 h
    obtain ⟨hsplit, hwhole⟩ := ih hps
    cases p with
    | nil => exact absurd rfl hp.ne_nil
    | cons x tail =>
      have hlen : tail.length + 1 = len x := hp.length
      have htail : len x - 1 = tail.length := by omega
      refine ⟨?_, Whole.append hlen hwhole⟩
      rw [List.flatten_cons, List.cons_append, split_cons, htail, List.take_left, List.drop_left, hsplit]

/-- Who takes `n` pieces does not get past the end: the pieces are there, or the last one is not cut off. -/
def Covers (len : α → Nat) (n : Nat) (l : List α) : Prop := Whole len l ∨ n ≤ (split len l).length

theorem covers_nil (n : Nat) : Covers len n [] := Or.inl Whole.nil

theorem covers_one (x : α) (l : List α) : Covers len 1 (x :: l) := by
  right
  rw [length_split_cons]
  exact Nat.succ_le_succ (Nat.zero_le _)

/-- Where a second piece is to be taken, the first one must not be cut off. -/
theorem covers_cons_iff {x : α} {l : List α} {n : Nat} (hn : 0 < n) :
    Covers len (n + 1) (x :: l) ↔ len x ≤ l.length + 1 ∧ Covers len n (l.drop (len x - 1)) := by
  unfold Covers
  rw [whole_cons_iff, length_split_cons]
  constructor
  · rintro (⟨hlen, hrest⟩ | hcount)
    · exact ⟨hlen, Or.inl hrest⟩
    · refine ⟨?_, Or.inr (by omega)⟩
      -- nothing is behind a piece that is cut off
      apply Nat.le_of_not_lt
      intro hcut
      rw [List.drop_eq_nil_of_le (by omega), split_nil, List.length_nil] at hcount
      omega
  · rintro ⟨hlen, hrest | hcount⟩
    · exact Or.inl ⟨hlen, hrest⟩
    · exact Or.inr (by omega)

/-! ## A position in a list -/

/-- `rest` is what there is from index `i` on. -/
structure From (l : List α) (i : Nat) (rest : List α) : Prop where
  le : i ≤ l.length
  rest : l.drop i = rest

section
variable {l rest : List α} {i : Nat} {x : α}

theorem From.start (l : List α) : From l 0 l := ⟨Nat.zero_le _, List.drop_zero⟩

theorem From.nil_iff (h : From l i rest) : i = l.length ↔ rest = [] := by
  have hle := h.le
  rw [← h.rest, List.drop_eq_nil_iff]
  omega

theorem From.length (h : From l i rest) : rest.length = l.length - i := by
  rw [← h.rest, List.length_drop]

theorem From.head (h : From l i (x :: rest)) : l[i]? = some x := by
  have hget := congrArg (fun m => m[0]?) h.rest
  simpa only [List.getElem?_drop, Nat.add_zero, List.getElem?_cons_zero] using hget

theorem From.take (h : From l i (x :: rest)) (hpos : 0 < len x) :
    (l.drop i).take (len x) = x :: rest.take (len x - 1) := by
  obtain ⟨n, hn⟩ : ∃ n, len x = n + 1 := ⟨len x - 1, by omega⟩
  rw [h.rest, hn, List.take_succ_cons, Nat.add_sub_cancel]

/-- Behind the next piece. -/
theorem From.next (h : From l i (x :: rest)) (hpos : 0 < len x) (hle : i + len x ≤ l.length) :
    From l (i + len x) (rest.drop (len x - 1)) := by
  obtain ⟨n, hn⟩ : ∃ n, len x = n + 1 := ⟨len x - 1, by omega⟩
  refine ⟨hle, ?_⟩
  rw [← List.drop_drop, h.rest, hn, List.drop_succ_cons, Nat.add_sub_cancel]

theorem From.fits_iff (h : From l i (x :: rest)) : len x ≤ rest.length + 1 ↔ i + len x ≤ l.length := by
  have hlen := h.length
  have hle := h.le
  rw [List.length_cons] at hlen
  omega

/-- Past the end, or where what there is does not meet `P`. -/
def Off (P : List α → Prop) (l : List α) (i : Nat) : Prop := l.length < i ∨ ∃ rest, From l i rest ∧ ¬P rest

/-- A piece that is cut off leads past the end. -/
theorem From.off_next {P : List α → Prop} (h : From l i (x :: rest)) (hpos : 0 < len x)
    (hP : ¬(len x ≤ rest.length + 1 ∧ P (rest.drop (len x - 1)))) : Off P l (i + len x) := by
  by_cases hle : i + len x ≤ l.length
  · exact Or.inr ⟨_, h.next hpos hle, fun hrest => hP ⟨h.fits_iff.2 hle, hrest⟩⟩
  · exact Or.inl (by omega)

end

end Pieces
