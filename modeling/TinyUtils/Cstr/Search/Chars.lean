import TinyUtils.Cstr.Search.Count
/-!
# Looking for one byte (`cstr_find_char`, `cstr_count_char`, `c_utils/cstr.c:377-415`)

Both take a range, and 0 as its end for that of the content. `cstr_find_char` takes it in `int`s, `cstr_count_char` in
`uint32_t`s. Given the same 32 bits they look at the same indices, unless the end is a negative `int`: the one returns the
first of those where the byte is, the other how many there are (`find_count`). A negative begin is past the content for
both, since `cstr_find_char` compares it with `used` as a `uint32_t`; a negative end is below each index for the one and
past the content for the other.

| here | there |
| --- | --- |
| `findChar`, `findCharTurn` | `cstr_find_char` (`:405`) and its loop |
| `countChar`                | `cstr_count_char` (`:377`) |
-/

namespace TinyUtils.Cstr

open Int32Bit Loops Matching Checked

/-- `for(int i = begin; (uint32_t)i < cstr->used && i < end; ++i)` -/
def findCharTurn (s : Cstr) (c : Byte) («end» i : Int) : M (Int ⊕ Int) :=
  if unsigned i < s.used ∧ i < «end» then do
    let d ← s.charAt i
    if d == c then .ok (.inr i) else .ok (.inl (i + 1))
  else .ok (.inr (-1))

def findChar (s : Cstr) (c : Byte) (begin «end» : Int) : Search Int :=
  let e := if «end» = 0 then i32 s.used else «end»
  loop (findCharTurn s c e) begin

/-- Where the range ends. -/
def stopAt (s : Cstr) («end» : Nat) : Nat := min (if «end» = 0 then s.used else «end») s.used

/-- The indices of the range where the byte is, in their order. -/
def indices (s : Cstr) (c : Byte) (begin stop : Nat) : List Nat :=
  (List.range' begin (stop - begin)).filter fun i => s.data[i]? == some c

/-- The first one, or -1. -/
def firstIndex : List Nat → Int
  | [] => -1
  | i :: _ => i

section
variable {s : Cstr} {c : Byte} {begin stop : Nat}

theorem indices_of_le (h : stop ≤ begin) : s.indices c begin stop = [] := by
  rw [indices, Nat.sub_eq_zero_of_le h]
  rfl

theorem indices_of_lt (h : begin < stop) : s.indices c begin stop =
    if s.data[begin]? = some c then begin :: s.indices c (begin + 1) stop else s.indices c (begin + 1) stop := by
  have hturns : stop - begin = stop - (begin + 1) + 1 := by omega
  rw [indices, hturns, List.range'_succ, List.filter_cons]
  simp [indices]

theorem mem_indices {i : Nat} : i ∈ s.indices c begin stop ↔ begin ≤ i ∧ i < stop ∧ s.data[i]? = some c := by
  simp only [indices, List.mem_filter, List.mem_range'_1, beq_iff_eq]
  constructor
  · rintro ⟨hrange, hget⟩
    exact ⟨hrange.1, by omega, hget⟩
  · rintro ⟨hlow, hhigh, hget⟩
    exact ⟨by omega, hget⟩

/-! ## The two loops -/

/-- `cstr_find_char` from `i` on, where its two tests together are that the index is below `stop`. -/
theorem findCharLoop_returns (hv : s.Valid) {i e : Int} (hi : unsigned i < s.used → i = unsigned i)
    (hstop : ∀ k : Nat, k < s.used ∧ (k : Int) < e ↔ k < stop) :
    Returns (loop (findCharTurn s c e) i) (firstIndex (s.indices c (unsigned i) stop)) := by
  have hused := hv.used_add_le
  have hlt := hv.used_lt
  -- the loop has come to `k`, and what it looks for is still ahead
  have hturn : ∀ (j : Int) (k : Nat),
      unsigned j = k ∧ (k < s.used → j = k) ∧
          firstIndex (s.indices c k stop) = firstIndex (s.indices c (unsigned i) stop) →
      (∃ j' k', findCharTurn s c e j = .ok (.inl j') ∧
          (unsigned j' = k' ∧ (k' < s.used → j' = (k' : Nat)) ∧
            firstIndex (s.indices c k' stop) = firstIndex (s.indices c (unsigned i) stop)) ∧
          stop - k' < stop - k) ∨
        ∃ r, findCharTurn s c e j = .ok (.inr r) ∧ r = firstIndex (s.indices c (unsigned i) stop) := by
    rintro j k ⟨hk, hj, hahead⟩
    by_cases hin : k < stop
    · obtain ⟨hcontent, hbelow⟩ := (hstop k).2 hin
      obtain rfl : j = k := hj hcontent
      have hget : s.data[k]? = some s.data[k] := List.getElem?_eq_getElem (by omega)
      have hread : s.charAt (k : Int) = .ok s.data[k] := byteAt_eq hget
      rw [findCharTurn, hk, if_pos ⟨hcontent, hbelow⟩, hread, ok_bind]
      rw [indices_of_lt hin, hget] at hahead
      by_cases heq : s.data[k] = c
      · right
        rw [if_pos (congrArg some heq)] at hahead
        exact ⟨k, by rw [if_pos (beq_iff_eq.2 heq)], hahead⟩
      · left
        rw [if_neg fun h => heq (Option.some.inj h)] at hahead
        have hnext : unsigned ((k + 1 : Nat) : Int) = k + 1 := unsigned_natCast (by omega)
        refine ⟨k + 1, k + 1, ?_, ⟨hnext, fun _ => Int.natCast_succ k, hahead⟩, by omega⟩
        rw [if_neg fun h => heq (beq_iff_eq.1 h)]
    · right
      have hpast : ¬ (k < s.used ∧ j < e) := by
        rintro ⟨hcontent, hbelow⟩
        rw [hj hcontent] at hbelow
        exact hin ((hstop k).1 ⟨hcontent, hbelow⟩)
      rw [indices_of_le (Nat.le_of_not_lt hin)] at hahead
      exact ⟨-1, by rw [findCharTurn, hk, if_neg hpast], hahead⟩
  obtain ⟨r, hr, rfl⟩ := returns_loop (fun k : Nat => stop - k) hturn ⟨rfl, hi, rfl⟩
  exact hr

/-- An `int` at the begin of a range, as the loop compares it with `used`. -/
theorem begin_eq (hv : s.Valid) (z : Int) : unsigned (i32 z) < s.used → i32 z = unsigned (i32 z) := by
  have hused := hv.used_add_le
  have hrange := i32_range z
  intro hlt
  unfold unsigned at hlt ⊢
  omega

theorem findChar_returns (hv : s.Valid) (begin : Int) {«end» : Int} (hend : 0 ≤ i32 «end») :
    Returns (findChar s c (i32 begin) (i32 «end»))
      (firstIndex (s.indices c (unsigned begin) (s.stopAt (unsigned «end»)))) := by
  have hused := hv.used_add_le
  have hrange := i32_range «end»
  have hint : i32 s.used = s.used := i32_eq (by omega) (by omega)
  have hsame : (unsigned «end» : Int) = i32 «end» := by
    rw [← unsigned_i32, unsigned_eq hend (by omega)]
    exact Int.toNat_of_nonneg hend
  rw [← unsigned_i32 begin]
  unfold findChar stopAt
  apply findCharLoop_returns hv (begin_eq hv begin)
  intro k
  by_cases hzero : i32 «end» = 0
  · rw [if_pos hzero, if_pos (by omega), hint]
    omega
  · rw [if_neg hzero, if_neg (by omega)]
    omega

/-- No index is below a negative end. -/
theorem findChar_negative (hv : s.Valid) (begin : Int) {«end» : Int} (hend : i32 «end» < 0) :
    Returns (findChar s c (i32 begin) (i32 «end»)) (-1) := by
  unfold findChar
  rw [if_neg hend.ne]
  have hnone : ∀ k : Nat, k < s.used ∧ (k : Int) < i32 «end» ↔ k < 0 := fun k => by omega
  have hr := findCharLoop_returns (c := c) hv (begin_eq hv begin) hnone
  rw [indices_of_le (Nat.zero_le _)] at hr
  exact hr

/-- A negative end is past the content as a `uint32_t`. -/
theorem stopAt_negative (hv : s.Valid) {«end» : Int} (hend : i32 «end» < 0) : s.stopAt (unsigned «end») = s.used := by
  have hused := hv.used_add_le
  have hrange := i32_range «end»
  have hpast : 2 ^ 31 ≤ unsigned «end» := by
    rw [← unsigned_i32, unsigned]
    omega
  rw [stopAt, if_neg (by omega)]
  omega

theorem countChar_eq (hv : s.Valid) («end» : Nat) :
    countChar s c begin «end» = .ok (s.indices c begin (s.stopAt «end»)).length := by
  have hused := hv.used_add_le
  have hlt := hv.used_lt
  have hstop : s.stopAt «end» ≤ s.used := Nat.min_le_right _ _
  have hstep : ∀ i count, i < s.stopAt «end» →
      count + (s.indices c i (s.stopAt «end»)).length = (s.indices c begin (s.stopAt «end»)).length ∧ count ≤ i →
      ∃ count', countEntry s c i count = .ok count' ∧
        count' + (s.indices c (i + 1) (s.stopAt «end»)).length = (s.indices c begin (s.stopAt «end»)).length ∧
          count' ≤ i + 1 := by
    rintro i count hi ⟨hcount, hle⟩
    have hget : s.data[i]? = some s.data[i] := List.getElem?_eq_getElem (by omega)
    rw [indices_of_lt hi, hget] at hcount
    rw [countEntry, byteAt_eq hget, ok_bind]
    by_cases heq : s.data[i] = c
    · rw [if_pos (congrArg some heq), List.length_cons] at hcount
      refine ⟨count + 1, ?_, by omega, Nat.succ_le_succ hle⟩
      rw [if_pos (beq_iff_eq.2 heq), u32_eq (by omega)]
    · rw [if_neg fun h => heq (Option.some.inj h)] at hcount
      refine ⟨count, ?_, hcount, Nat.le_succ_of_le hle⟩
      rw [if_neg fun h => heq (beq_iff_eq.1 h)]
  change forUp (countEntry s c) (s.stopAt «end» - begin) begin 0 = _
  by_cases hempty : s.stopAt «end» ≤ begin
  · rw [Nat.sub_eq_zero_of_le hempty, indices_of_le hempty]
    rfl
  · have hturns : begin + (s.stopAt «end» - begin) = s.stopAt «end» := by omega
    obtain ⟨count, hcount, htotal, _⟩ := forUp_spec hstep hturns ⟨Nat.zero_add _, Nat.zero_le _⟩
    rw [indices_of_le (Nat.le_refl _)] at htotal
    rw [hcount, ← htotal]
    rfl

/-- The first index is the first occurrence of the string of this byte. -/
theorem firstMatch_firstIndex (hv : s.Valid) {str : CString} (hstr : str.bytes = [c]) :
    FirstMatch s.content str.bytes begin (firstIndex (s.indices c begin s.used)) := by
  have hlt := hv.used_lt
  have hplace : ∀ i, begin ≤ i → (Places s str i ↔ i ∈ s.indices c begin s.used) := by
    intro i hi
    rw [mem_indices]
    by_cases hin : i < s.used
    · have hget : s.data[i]? = some s.data[i] := List.getElem?_eq_getElem (by omega)
      rw [places_one_iff hv hstr hin hget, hget]
      simp [hi, hin]
    · constructor
      · intro h
        have hle := h.add_le hv
        rw [hstr, List.length_singleton] at hle
        omega
      · intro h
        exact absurd h.2.1 hin
  have hsorted : (s.indices c begin s.used).Pairwise (· < ·) := by
    apply List.Pairwise.filter
    exact List.pairwise_lt_range'
  cases hindices : s.indices c begin s.used with
  | nil =>
    refine Or.inr ⟨rfl, fun i hi hocc => ?_⟩
    have hmem := (hplace i hi).1 hocc
    rw [hindices] at hmem
    exact absurd hmem List.not_mem_nil
  | cons i l =>
    have hmem : i ∈ s.indices c begin s.used := hindices ▸ List.mem_cons_self
    have hbegin := (mem_indices.1 hmem).1
    refine Or.inl ⟨i, rfl, ⟨hbegin, (hplace i hbegin).2 hmem⟩, ?_⟩
    rintro j ⟨hj, hocc⟩
    have hjmem := (hplace j hj).1 hocc
    rw [hindices] at hjmem hsorted
    rcases List.mem_cons.1 hjmem with rfl | hjmem
    · exact Nat.le_refl j
    · exact Nat.le_of_lt ((List.pairwise_cons.1 hsorted).1 j hjmem)

end

/-- **Finding and counting agree**, for each begin and end of 32 bits: unless the end is a negative `int`, the one returns
the first index of the range where the byte is, or -1, and the other the number of these indices; with a negative end the one
returns -1 and the other goes on to the end of the content. Up to there the search for the string of this byte finds the same
index. -/
theorem find_count {s : Cstr} (hv : s.Valid) (c : Byte) (begin «end» : Int) :
    (0 ≤ i32 «end» → Returns (findChar s c (i32 begin) (i32 «end»))
        (firstIndex (s.indices c (unsigned begin) (s.stopAt (unsigned «end»))))) ∧
      (i32 «end» < 0 → Returns (findChar s c (i32 begin) (i32 «end»)) (-1) ∧ s.stopAt (unsigned «end») = s.used) ∧
      countChar s c (unsigned begin) (unsigned «end») =
        .ok (s.indices c (unsigned begin) (s.stopAt (unsigned «end»))).length ∧
      ∀ str : CString, str.bytes = [c] →
        Returns (findFirst uchar s str (i32 begin)) (firstIndex (s.indices c (unsigned begin) s.used)) := by
  refine ⟨findChar_returns hv begin, fun hend => ⟨findChar_negative hv begin hend, stopAt_negative hv hend⟩,
    countChar_eq hv _, fun str hstr => ?_⟩
  have hone : str.bytes.length = 1 := by rw [hstr, List.length_singleton]
  have hmax : str.bytes.length < searchMaxLen := by
    rw [hone]
    decide
  have hstart : findFirst uchar s str (i32 begin) = findFirst uchar s str (unsigned begin : Nat) := by
    rw [findFirst, findFirst, unsigned_i32, unsigned_natCast (unsigned_lt begin)]
  obtain ⟨r, hr, hfirst⟩ := findFirst_returns hv.text (unsigned_lt begin) (Nat.le_of_eq hone.symm) hmax
  have heq : r = firstIndex (s.indices c (unsigned begin) s.used) := by
    have hindex : FirstMatch s.content str.bytes (unsigned begin) (firstIndex (s.indices c (unsigned begin) s.used)) :=
      firstMatch_firstIndex hv hstr
    rcases hfirst with ⟨i, rfl, hleast⟩ | ⟨rfl, hnone⟩
    · rcases hindex with ⟨j, hj, hleast'⟩ | ⟨_, hnone⟩
      · rw [hj, hleast.unique hleast']
      · exact absurd hleast.1.2 (hnone i hleast.1.1)
    · rcases hindex with ⟨j, _, hleast⟩ | ⟨hj, _⟩
      · exact absurd hleast.1.2 (hnone j hleast.1.1)
      · exact hj.symm
  rw [hstart]
  exact heq ▸ hr

/-- "a" in "banana", from the second one on: the first is at 3, and there are two; and none below a negative end. -/
theorem find_count_banana :
    Returns (findChar (small [98, 97, 110, 97, 110, 97]) 97 2 0) 3 ∧
      countChar (small [98, 97, 110, 97, 110, 97]) 97 2 0 = .ok 2 ∧
      Returns (findChar (small [98, 97, 110, 97, 110, 97]) 97 2 (-1)) (-1) := by
  have hv : (small [98, 97, 110, 97, 110, 97]).Valid := small_valid (by decide)
  have hall := find_count hv 97 2 0
  have hnegative := find_count hv 97 2 (-1)
  exact ⟨hall.1 (by decide), hall.2.2.1, (hnegative.2.1 (by decide)).1⟩

end TinyUtils.Cstr
