import Mathlib.Algebra.Group.Nat.Defs
import Mathlib.Tactic.Common
/-!
# Keeping the end of a stream

A stream is kept in segments: one is open and is written to, the others are full. When the open one has got to `size`
and there is more to write, it is closed, and if there are `num` segments by then the oldest one is dropped (`put`).
What is kept is always an end of the stream, all of it or at least `(num - 1) * size` elements (`kept_suffix`).
-/

namespace Retention

variable {α : Type*} {size num : ℕ}

structure Segments (α : Type*) where
  full : List (List α) := []
  current : List α := []

namespace Segments

def kept (s : Segments α) : List α := s.full.flatten ++ s.current

/-- The number of segments. -/
def count (s : Segments α) : ℕ := s.full.length + 1

/-- The open segment is closed, and the oldest one makes room for a new one. -/
def rotate (num : ℕ) (s : Segments α) : Segments α :=
  ⟨(if num ≤ s.count then s.full.tail else s.full) ++ [s.current], []⟩

def write (s : Segments α) (xs : List α) : Segments α := { s with current := s.current ++ xs }

def put (size num : ℕ) (s : Segments α) (xs : List α) : Segments α :=
  (if size ≤ s.current.length then s.rotate num else s).write xs

theorem rotate_of_le {s : Segments α} (h : num ≤ s.count) : s.rotate num = ⟨s.full.tail ++ [s.current], []⟩ := by
  rw [rotate, if_pos h]

theorem rotate_of_lt {s : Segments α} (h : s.count < num) : s.rotate num = ⟨s.full ++ [s.current], []⟩ := by
  rw [rotate, if_neg (Nat.not_le.2 h)]

theorem put_of_le {s : Segments α} (h : size ≤ s.current.length) (xs : List α) :
    s.put size num xs = (s.rotate num).write xs := by
  rw [put, if_pos h]

theorem put_of_lt {s : Segments α} (h : s.current.length < size) (xs : List α) : s.put size num xs = s.write xs := by
  rw [put, if_neg (Nat.not_le.2 h)]

/-- What is kept of the stream. -/
structure Keeps (size num : ℕ) (stream : List α) (s : Segments α) : Prop where
  suffix : s.kept <:+ stream
  all : s.kept = stream ∨ s.count = num
  few : s.count ≤ num
  large : ∀ xs ∈ s.full, size ≤ xs.length

theorem Keeps.write {stream : List α} {s : Segments α} (h : Keeps size num stream s) (xs : List α) :
    Keeps size num (stream ++ xs) (s.write xs) := by
  have hkept : (s.write xs).kept = s.kept ++ xs := (List.append_assoc _ _ _).symm
  refine ⟨?_, ?_, h.few, h.large⟩
  · obtain ⟨lost, hlost⟩ := h.suffix
    exact ⟨lost, by rw [hkept, ← List.append_assoc, hlost]⟩
  · rw [hkept]
    exact h.all.imp_left fun heq => by rw [heq]

theorem Keeps.rotate {stream : List α} {s : Segments α} (h : Keeps size num stream s) (hnum : 2 ≤ num)
    (hfull : size ≤ s.current.length) : Keeps size num stream (s.rotate num) := by
  have hlarge : ∀ xs ∈ (s.rotate num).full, size ≤ xs.length := by
    intro xs hxs
    rcases List.mem_append.1 hxs with hxs | hxs
    · split at hxs
      · exact h.large xs (List.mem_of_mem_tail hxs)
      · exact h.large xs hxs
    · rw [List.mem_singleton.1 hxs]
      exact hfull
  have hfew := h.few
  rcases Nat.lt_or_ge s.count num with hroom | hmany
  · rw [rotate_of_lt hroom] at hlarge ⊢
    have hold : kept ⟨s.full ++ [s.current], []⟩ = s.kept := by simp [kept]
    have hcount : count ⟨s.full ++ [s.current], []⟩ = s.count + 1 := by simp [count]
    refine ⟨hold ▸ h.suffix, Or.inl ?_, by omega, hlarge⟩
    rw [hold]
    exact h.all.resolve_right (by omega)
  · -- the oldest one is dropped
    rw [rotate_of_le hmany] at hlarge ⊢
    cases hs : s.full with
    | nil =>
      simp [count, hs] at hmany
      omega
    | cons x rest =>
      have hold : s.kept = x ++ kept ⟨rest ++ [s.current], []⟩ := by simp [kept, hs]
      have hcount : count ⟨rest ++ [s.current], []⟩ = s.count := by simp [count, hs]
      rw [hs, List.tail_cons] at hlarge
      rw [List.tail_cons]
      refine ⟨?_, Or.inr (by omega), by omega, hlarge⟩
      exact (hold ▸ List.suffix_append x _).trans h.suffix

theorem Keeps.put {stream : List α} {s : Segments α} (h : Keeps size num stream s) (hnum : 2 ≤ num) (xs : List α) :
    Keeps size num (stream ++ xs) (s.put size num xs) := by
  unfold Segments.put
  split
  next hfull => exact (h.rotate hnum hfull).write xs
  next => exact h.write xs

/-- **What is kept is an end of the stream**, all of it or a good part. -/
theorem kept_suffix (hnum : 2 ≤ num) (puts : List (List α)) :
    Keeps size num puts.flatten (puts.foldl (put size num) {}) := by
  have hrun : ∀ {stream : List α} {s : Segments α}, Keeps size num stream s →
      Keeps size num (stream ++ puts.flatten) (puts.foldl (put size num) s) := by
    induction puts with
    | nil =>
      intro stream s h
      simpa using h
    | cons xs puts ih =>
      intro stream s h
      have hrest := ih (h.put hnum xs)
      simpa using hrest
  have hnone : Keeps size num ([] : List α) {} := by
    refine ⟨List.suffix_rfl, Or.inl rfl, ?_, ?_⟩
    · simp [count]
      omega
    · simp
  simpa using hrun hnone

theorem length_flatten_ge {xss : List (List α)} (h : ∀ xs ∈ xss, size ≤ xs.length) :
    xss.length * size ≤ xss.flatten.length := by
  induction xss with
  | nil => simp
  | cons xs xss ih =>
    have hxs := h xs List.mem_cons_self
    have hrest := ih fun ys hys => h ys (List.mem_cons_of_mem xs hys)
    simp only [List.length_cons, List.flatten_cons, List.length_append, Nat.succ_mul]
    omega

/-- Where the beginning is lost, this much is kept. -/
theorem Keeps.length_kept {stream : List α} {s : Segments α} (h : Keeps size num stream s) :
    s.kept = stream ∨ (num - 1) * size ≤ s.kept.length := by
  refine h.all.imp_right fun hcount => ?_
  have hlength := length_flatten_ge h.large
  have hfull : s.full.length = num - 1 := by
    rw [← hcount]
    rfl
  rw [hfull] at hlength
  rw [kept, List.length_append]
  omega

end Segments

end Retention
