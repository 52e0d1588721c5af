import TinyUtils.Cstr.Refit
/-!
# `cstr_new_size` and `cstr_new_str` (`c_utils/cstr.c:9-50`)

The size of the block is computed in `size_t` and then stored to a `uint32_t`: a request from `2 ^ 32 - 9` on
wraps around to a few bytes and gets the smallest block, with less capacity than requested
(`newSize_honours_iff`). `newStr` uses what `newSize` returns without a look at it, where its own branch for
`NULL` checks the result of its `malloc`; so it fails cleanly only if there is nothing to fail
(`newStr_clean_iff`).
-/

namespace TinyUtils.Cstr

open Block Checked

/-! ## An empty object of a size -/

/-- An empty object for `n` bytes. -/
structure Honours (n : Nat) (s : Cstr) : Prop where
  empty : s.used = 0
  ended : s.Terminated
  le_cap : n ≤ s.cap
  block : s.block = s.totalSize
  power : ∃ k, s.block = 2 ^ k
  min_le : minSize ≤ s.block
  le_max : s.block ≤ maxSize

theorem newSize_honours {mem : Mem} {n : Nat} (h32 : n + hdrSize + 1 < 2 ^ 32) :
    Yields (newSize mem n) (Honours n) := by
  by_cases hbig : maxSize < u32 (n + hdrSize + 1)
  · exact Or.inl (newSize_refuses hbig)
  · rcases newSize_cases mem (Nat.le_of_not_lt hbig) with ⟨hn, _⟩ | ⟨_, s, hs, hv, ht, hu, hlen, hfit, hpow, _⟩
    · exact Or.inl hn
    · have hblock : s.block = s.totalSize := by
        simp only [block, totalSize]
        omega
      refine Or.inr ⟨s, hs, hu, ht, ?_, hblock, ?_, ?_, ?_⟩
      · rw [u32_eq h32, totalSize] at hfit
        omega
      · rw [hblock]
        exact hpow
      · rw [hblock]
        exact hv.min_le
      · rw [hblock]
        exact hv.le_max

/-- A request near 4 GiB gets 32 bytes. -/
theorem newSize_wraps {m : Nat → Byte} {n : Nat} (hn : n < 2 ^ 32) (h : 2 ^ 32 ≤ n + hdrSize + 1) :
    ∃ s, newSize (some m) n = .ok (some s) ∧ s.Valid ∧ s.totalSize = minSize := by
  have hhdr : hdrSize = 8 := rfl
  have hu : u32 (n + hdrSize + 1) ≤ minSize := by
    rw [u32_eq_sub h (by omega)]
    simp only [minSize]
    omega
  rcases newSize_cases (some m) (Nat.le_trans hu (by decide)) with ⟨_, hnone⟩ | ⟨_, s, hs, hv, _, _, _, _, _, hmin⟩
  · exact absurd hnone (Option.some_ne_none m)
  · exact ⟨s, hs, hv, hmin hu⟩

/-- `malloc` fails, or the size is refused before it is called. -/
theorem newSize_none (n : Nat) : newSize none n = .ok none := by
  by_cases hbig : maxSize < u32 (n + hdrSize + 1)
  · exact newSize_refuses hbig
  · rcases newSize_cases none (Nat.le_of_not_lt hbig) with ⟨hn, _⟩ | ⟨hne, _⟩
    · exact hn
    · exact absurd rfl hne

/-- **`newSize` honours the requested capacity** exactly if the size does not wrap around, or there is no block. -/
theorem newSize_honours_iff (mem : Mem) {n : Nat} (hn : n < 2 ^ 32) :
    (Yields (newSize mem n) (Honours n) ∧ (maxSize < n + hdrSize + 1 → newSize mem n = .ok none)) ↔
      n + hdrSize + 1 < 2 ^ 32 ∨ mem = none := by
  constructor
  · rintro ⟨_, hnull⟩
    by_cases h32 : n + hdrSize + 1 < 2 ^ 32
    · exact Or.inl h32
    · right
      have hwrap : 2 ^ 32 ≤ n + hdrSize + 1 := Nat.le_of_not_lt h32
      cases mem with
      | none => rfl
      | some m =>
        obtain ⟨s, hs, _⟩ := newSize_wraps (m := m) hn hwrap
        rw [hnull (Nat.lt_of_lt_of_le (by decide) hwrap)] at hs
        cases hs
  · rintro (h32 | rfl)
    · refine ⟨newSize_honours h32, fun hbig => newSize_refuses ?_⟩
      rw [u32_eq h32]
      exact hbig
    · exact ⟨Or.inl (newSize_none n), fun _ => newSize_none n⟩

theorem newSize_honours_hundred :
    (Yields (newSize (some fun _ => 7) 100) (Honours 100) ∧
      (maxSize < 100 + hdrSize + 1 → newSize (some fun _ => 7) 100 = .ok none)) ↔
      100 + hdrSize + 1 < 2 ^ 32 ∨ (some fun _ => 7 : Mem) = none :=
  newSize_honours_iff (some fun _ => 7) (by decide)

/-- The largest request gets a capacity of 23. -/
theorem not_newSize_honours_max :
    ¬(Yields (newSize (some fun _ => 7) (2 ^ 32 - 1)) (Honours (2 ^ 32 - 1)) ∧
      (maxSize < 2 ^ 32 - 1 + hdrSize + 1 → newSize (some fun _ => 7) (2 ^ 32 - 1) = .ok none)) := by
  rintro ⟨_, hnull⟩
  obtain ⟨s, hs, _⟩ := newSize_wraps (m := fun _ => 7) (n := 2 ^ 32 - 1) (by decide) (by decide)
  rw [hnull (by decide)] at hs
  cases hs

/-! ## An object for a C string -/

/-- The bytes of a `const char *`; `NULL` has none. -/
def stringBytes : Option CString → List Byte
  | none => []
  | some str => str.bytes

/-- The object holds the bytes, in a block for its capacity. -/
structure Made (bs : List Byte) (s : Cstr) : Prop where
  used : s.used = bs.length
  content : s.content = bs
  block : s.block = s.totalSize
  ended : s.Terminated

theorem newStr_null_made (mem : Mem) : Yields (newStr mem none) (Made []) := by
  refine newStr_null_spec.mono fun s hs => ?_
  obtain ⟨_, ht, hu, hlen⟩ := hs
  refine ⟨hu, content_of_used_eq_zero hu, ?_, ht⟩
  simp only [block, totalSize]
  omega

theorem newStr_made {m : Nat → Byte} {str : CString} (hmax : str.bytes.length + hdrSize + 1 ≤ maxSize) :
    ∃ s, newStr (some m) (some str) = .ok (some s) ∧ Made str.bytes s := by
  have h32 : str.bytes.length + hdrSize + 1 < 2 ^ 32 := Nat.lt_of_le_of_lt hmax (by decide)
  have hlen : str.strlen = str.bytes.length := CString.strlen_eq (by omega)
  have hle : u32 (str.strlen + hdrSize + 1) ≤ maxSize := by
    rw [hlen, u32_eq h32]
    exact hmax
  rcases newSize_cases (some m) hle with ⟨_, hnone⟩ | ⟨_, ⟨cap, used, data⟩, hs, hv, _, _, hdata, hfit, _⟩
  · exact absurd hnone (Option.some_ne_none m)
  · rw [hlen, u32_eq h32] at hfit
    simp only [totalSize] at hfit hdata
    obtain ⟨s, hnew, hv', ht, hc, hcap, hl⟩ := newStr_fits hs hv (show str.strlen ≤ cap by omega)
    have hbytes : s.content = str.bytes := by
      rw [hc, slice, List.drop_zero, CString.memory, hlen, List.take_left]
    refine ⟨s, hnew, ?_, hbytes, ?_, ht⟩
    · rw [← hbytes]
      exact hv'.length_content.symm
    · simp only [block, totalSize]
      omega

theorem newStr_ne_none (mem : Mem) (str : CString) : newStr mem (some str) ≠ .ok none := by
  unfold newStr
  apply bind_ne_ok
  intro block
  cases block with
  | none =>
    intro h
    cases h
  | some d =>
    apply bind_ne_ok
    intro bytes
    apply bind_ne_ok
    intro d₁
    apply bind_ne_ok
    intro d₂ h
    cases h

/-- **`newStr` fails cleanly** exactly if there is no string, or nothing fails. -/
theorem newStr_clean_iff (mem : Mem) {str : Option CString} (hlen : ∀ s ∈ str, s.bytes.length < 2 ^ 32) :
    (newStr mem str ≠ .error .null ∧ Yields (newStr mem str) (Made (stringBytes str))) ↔
      ∀ s ∈ str, mem ≠ none ∧ s.bytes.length + hdrSize + 1 ≤ maxSize := by
  cases str with
  | none =>
    have hmade := newStr_null_made mem
    refine iff_of_true ⟨?_, hmade⟩ fun s hs => nomatch hs
    rcases hmade with h | ⟨s, h, _⟩ <;> rw [h] <;> exact fun h => nomatch h
  | some str =>
    constructor
    · rintro ⟨hnull, hmade⟩ s hs
      obtain rfl : str = s := Option.some_inj.1 hs
      rcases hmade with h | ⟨s, hs, hmade⟩
      · exact absurd h (newStr_ne_none mem str)
      · refine ⟨?_, ?_⟩
        · rintro rfl
          apply hnull
          simp only [newStr, newSize_none, ok_bind]
        -- the content of an object is within the limits
        · have hbound := (newStr_ok hs).1.used_add_le
          rw [hmade.used] at hbound
          exact hbound
    · intro h
      obtain ⟨hmem, hmax⟩ := h str rfl
      obtain ⟨m, rfl⟩ := Option.ne_none_iff_exists'.1 hmem
      obtain ⟨s, hs, hmade⟩ := newStr_made (m := m) hmax
      refine ⟨?_, Or.inr ⟨s, hs, hmade⟩⟩
      rw [hs]
      exact fun h => nomatch h

/-- "abc" -/
theorem newStr_clean_abc :
    (newStr (some fun _ => 7) (some ⟨[97, 98, 99], by decide⟩) ≠ .error .null ∧
      Yields (newStr (some fun _ => 7) (some ⟨[97, 98, 99], by decide⟩))
        (Made (stringBytes (some ⟨[97, 98, 99], by decide⟩)))) ↔
      ∀ s ∈ (some ⟨[97, 98, 99], by decide⟩ : Option CString),
        (some fun _ => 7 : Mem) ≠ none ∧ s.bytes.length + hdrSize + 1 ≤ maxSize := by
  apply newStr_clean_iff
  intro s hs
  cases hs
  decide

/-- "abc", and `malloc` fails. -/
theorem not_newStr_clean_abc :
    ¬(newStr none (some ⟨[97, 98, 99], by decide⟩) ≠ .error .null ∧
      Yields (newStr none (some ⟨[97, 98, 99], by decide⟩)) (Made (stringBytes (some ⟨[97, 98, 99], by decide⟩)))) := by
  rintro ⟨hnull, _⟩
  apply hnull
  simp only [newStr, newSize_none, ok_bind]

end TinyUtils.Cstr
