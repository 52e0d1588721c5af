import TinyUtils.Cstr.InPlace
import TinyUtils.Cstr.Search.Sunday
import TinyUtils.Lib.Greedy
/-!
# `cstr_count_char` and `cstr_count_str` (`c_utils/cstr.c:377-403`)

`cstr_count_str` goes on one byte behind the byte that follows a match, so what it counts is a greedy
selection of occurrences with a byte between any two. It is the number of occurrences that do not overlap
exactly if some largest set of these is like that (`count_iff`).

| here | there |
| --- | --- |
| `countChar` | `cstr_count_char` (`:377`) |
| `countStr`, `countTurn` | `cstr_count_str` (`:390`) and its loop |
-/

namespace TinyUtils.Cstr

open Int32Bit Loops Matching Greedy Checked

/-- `if(cstr->data[i] == c) ++count;` -/
def countEntry (s : Cstr) (c : Byte) (i count : Nat) : M Nat := do
  let d ← s.byteAt i
  .ok (if d == c then u32 (count + 1) else count)

def countChar (s : Cstr) (c : Byte) (begin «end» : Nat) : M Nat :=
  let e := if «end» = 0 then s.used else «end»
  forUp (countEntry s c) (min e s.used - begin) begin 0

section
variable (chr : Byte → Int)

/-- `while(begin < cstr->used && -1 != (begin = cstr_find_first(cstr,str,begin)))`, on `begin` and `count`. -/
def countTurn (s : Cstr) (str : CString) (len : Nat) : Nat × Nat → Search ((Nat × Nat) ⊕ Nat)
  | (begin, count) =>
    if begin < s.used then do
      let r ← findFirst chr s str (i32 begin)
      let begin := unsigned r
      if unsigned (-1) ≠ begin then pure (.inl (u32 (begin + len + 1), u32 (count + 1))) else pure (.inr count)
    else pure (.inr count)

def countStr (s : Cstr) (str : CString) (begin : Nat) : Search Nat :=
  let len := str.strlen
  if len > sub32 s.used begin ∨ len = 0 then pure 0 else loopTurns (countTurn chr s str len) (begin, 0)

end

/-! ## What is counted -/

section
variable {s : Cstr} {str : CString} {begin : Nat}

/-- The places where the string is. -/
def Places (s : Cstr) (str : CString) (i : Nat) : Prop := OccursAt s.content str.bytes i

theorem Places.add_le {i : Nat} (h : Places s str i) (hv : s.Valid) : i + str.bytes.length ≤ s.used := by
  have hle := h.1
  rwa [hv.length_content] at hle

theorem exists_places (hv : s.Valid) (hm1 : 1 ≤ str.bytes.length) {d : Nat} (hd : 0 < d) (begin : Nat) :
    ∃ l, Takes (Places s str) d begin l := by
  have hbound : ∀ i, Places s str i → i < s.used := by
    intro i hi
    have hle := hi.add_le hv
    omega
  exact exists_takes hd hbound begin

/-- Before a turn, the places still to be taken and those counted are `total` together. -/
structure Counting (s : Cstr) (str : CString) (total : Nat) (st : Nat × Nat) (l : List Nat) : Prop where
  takes : Takes (Places s str) (str.bytes.length + 1) st.1 l
  count : st.2 + l.length = total
  count_le : st.2 ≤ st.1
  small : st.1 < 2 ^ 30

theorem Counting.turn (hv : s.Valid) (hm1 : 1 ≤ str.bytes.length) (hmax : str.bytes.length < searchMaxLen) {total : Nat}
    {st : Nat × Nat} {l : List Nat} (h : Counting s str total st l) :
    (∃ st' l', Returns (countTurn uchar s str str.bytes.length st) (.inl st') ∧ Counting s str total st' l' ∧
        l'.length < l.length) ∨
      ∃ r, Returns (countTurn uchar s str str.bytes.length st) (.inr r) ∧ r = total := by
  obtain ⟨begin, count⟩ := st
  obtain ⟨htakes, hcount, hle, hsmall⟩ := h
  simp only at htakes hcount hle hsmall
  have hused := hv.used_add_le
  have hlast : l = [] → count = total := by
    rintro rfl
    exact hcount
  by_cases hin : begin < s.used
  · have hint : i32 begin = begin := i32_eq (by omega) (by omega)
    have hfind : ∃ r, Returns (findFirst uchar s str begin) r ∧ FirstMatch s.content str.bytes begin r :=
      findFirst_returns hv.text (by omega) hm1 hmax
    obtain ⟨r, hr, hfirst⟩ := hfind
    simp only [countTurn, if_pos hin, hint]
    rcases hfirst with ⟨i, rfl, hleast⟩ | ⟨rfl, hnone⟩
    · left
      have hplace : Places s str i := hleast.1.2
      have hend := hplace.add_le hv
      have hi : unsigned (i : Int) = i := unsigned_natCast (by omega)
      have hne : unsigned (-1) ≠ i := by
        rw [show unsigned (-1) = 2 ^ 32 - 1 by decide +kernel]
        omega
      obtain ⟨l', rfl, htail⟩ := htakes.of_isLeast hleast
      have hbegin := hleast.1.1
      have hnext : u32 (i + str.bytes.length + 1) = i + str.bytes.length + 1 := u32_eq (by omega)
      have hcount' : u32 (count + 1) = count + 1 := u32_eq (by omega)
      refine ⟨(i + str.bytes.length + 1, count + 1), l', hr.bind ?_, ⟨htail, ?_, ?_, ?_⟩, Nat.lt_succ_self _⟩
      · simp only [hi, if_pos hne, hnext, hcount']
        exact Returns.pure _
      · simp only [List.length_cons] at hcount ⊢
        omega
      · simp only
        omega
      · simp only
        omega
    · right
      refine ⟨count, hr.bind ?_, hlast (htakes.eq_nil hnone)⟩
      simp only [ne_eq, not_true_eq_false, if_false]
      exact Returns.pure _
  · right
    simp only [countTurn, if_neg hin]
    refine ⟨count, Returns.pure _, hlast (htakes.eq_nil fun i hi hplace => ?_)⟩
    have hend := hplace.add_le hv
    omega

/-- **`countStr` counts occurrences that have a byte between any two.** -/
theorem countStr_returns (hv : s.Valid) (hm1 : 1 ≤ str.bytes.length) (hmax : str.bytes.length < searchMaxLen)
    (hbegin : begin ≤ s.used) : ∃ l, Takes (Places s str) (str.bytes.length + 1) begin l ∧
      Returns (countStr uchar s str begin) l.length := by
  have hused := hv.used_add_le
  have hlen : str.strlen = str.bytes.length := CString.strlen_eq (Nat.lt_trans hmax (by decide))
  obtain ⟨l, hl⟩ := exists_places hv hm1 (Nat.succ_pos str.bytes.length) begin
  refine ⟨l, hl, ?_⟩
  simp only [countStr, hlen, sub32_eq hbegin]
  by_cases hshort : str.bytes.length > s.used - begin
  · have hnone : l = [] := hl.eq_nil fun i hi hplace => by
      have hend := hplace.add_le hv
      omega
    rw [if_pos (Or.inl hshort), hnone]
    exact Returns.pure _
  · rw [if_neg (by omega)]
    have hstart : Counting s str l.length (begin, 0) l := ⟨hl, Nat.zero_add _, Nat.zero_le _, by simp only; omega⟩
    obtain ⟨r, hr, rfl⟩ := returns_loopTurns List.length (fun st l h => Counting.turn hv hm1 hmax h) hstart
    exact hr

/-- Where the string is one byte. -/
theorem places_one_iff (hv : s.Valid) {c d : Byte} (hstr : str.bytes = [c]) {i : Nat} (hi : i < s.used)
    (hd : s.data[i]? = some d) : Places s str i ↔ d = c := by
  have hget : s.content[i]? = some d := by rw [content, List.getElem?_take_of_lt hi, hd]
  rw [Places, hstr]
  constructor
  · rintro ⟨_, hat⟩
    have hsym : s.content[i + 0]? = some c := hat 0 Nat.one_pos
    rw [Nat.add_zero, hget] at hsym
    exact Option.some.inj hsym
  · rintro rfl
    refine ⟨by rw [hv.length_content]; exact hi, fun k hk => ?_⟩
    obtain rfl : k = 0 := Nat.lt_one_iff.1 hk
    exact hget

/-- `countChar` counts all places of the byte. -/
theorem countChar_spec (hv : s.Valid) {c : Byte} (hstr : str.bytes = [c]) (hbegin : begin ≤ s.used) {l : List Nat}
    (hl : Takes (Places s str) 1 begin l) : countChar s c begin 0 = .ok l.length := by
  have hused := hv.used_add_le
  have hlt := hv.used_lt
  have hone : str.bytes.length = 1 := by rw [hstr, List.length_singleton]
  have hstep : ∀ i count, i < s.used →
      (∃ l', Takes (Places s str) 1 i l' ∧ count + l'.length = l.length ∧ count ≤ i) →
      ∃ count', countEntry s c i count = .ok count' ∧
        ∃ l', Takes (Places s str) 1 (i + 1) l' ∧ count' + l'.length = l.length ∧ count' ≤ i + 1 := by
    rintro i count hi ⟨l', hl', hcount, hle⟩
    have hget : s.data[i]? = some s.data[i] := List.getElem?_eq_getElem (by omega)
    have hiff := places_one_iff hv hstr hi hget
    rw [countEntry, byteAt_eq hget, ok_bind]
    by_cases heq : s.data[i] = c
    · obtain ⟨l'', rfl, htail⟩ := hl'.of_here (hiff.2 heq)
      refine ⟨count + 1, ?_, l'', htail, ?_, Nat.succ_le_succ hle⟩
      · rw [if_pos (beq_iff_eq.2 heq), u32_eq (by omega)]
      · simp only [List.length_cons] at hcount
        omega
    · refine ⟨count, ?_, l', hl'.of_not_here fun h => heq (hiff.1 h), hcount, Nat.le_succ_of_le hle⟩
      rw [if_neg fun h => heq (beq_iff_eq.1 h)]
  have hturns : begin + (min s.used s.used - begin) = s.used := by omega
  obtain ⟨count, hcount, l', hl', htotal, _⟩ := forUp_spec hstep hturns ⟨l, hl, Nat.zero_add _, Nat.zero_le _⟩
  have hnone : l' = [] := hl'.eq_nil fun i hi hplace => by
    have hend := hplace.add_le hv
    omega
  rw [hnone] at htotal
  rw [countChar, if_pos rfl, hcount, ← htotal]
  rfl

/-- What is asked of the count: it is that of a greedy scan, the largest number of occurrences that do not overlap; and
for one byte it is what `countChar` counts. -/
structure CountRight (s : Cstr) (str : CString) (begin : Nat) : Prop where
  greedy : ∃ l, Takes (Places s str) str.bytes.length begin l ∧ Returns (countStr uchar s str begin) l.length ∧
    IsGreatest {n | ∃ l, Spaced (Places s str) str.bytes.length begin l ∧ l.length = n} l.length
  char : ∀ c, str.bytes = [c] → begin < s.used →
    ∃ n, countChar s c begin 0 = .ok n ∧ Returns (countStr uchar s str begin) n

/-- Some largest set of occurrences that do not overlap has a byte between any two. -/
def Apart (s : Cstr) (str : CString) (begin : Nat) : Prop :=
  ∃ l, Spaced (Places s str) (str.bytes.length + 1) begin l ∧
    ∀ l', Spaced (Places s str) str.bytes.length begin l' → l'.length ≤ l.length

theorem CountRight.apart (h : CountRight s str begin) (hv : s.Valid) (hm1 : 1 ≤ str.bytes.length)
    (hmax : str.bytes.length < searchMaxLen) (hbegin : begin ≤ s.used) : Apart s str begin := by
  obtain ⟨l', hl', hr', _⟩ := h.greedy
  obtain ⟨l, hl, hr⟩ := countStr_returns hv hm1 hmax hbegin
  exact (hl.length_eq_iff hl' (Nat.le_succ _)).1 (hr.unique hr')

theorem Apart.countRight (h : Apart s str begin) (hv : s.Valid) (hm1 : 1 ≤ str.bytes.length)
    (hmax : str.bytes.length < searchMaxLen) (hbegin : begin ≤ s.used) : CountRight s str begin := by
  obtain ⟨l, hl, hr⟩ := countStr_returns hv hm1 hmax hbegin
  obtain ⟨l', hl'⟩ := exists_places hv hm1 hm1 begin
  rw [(hl.length_eq_iff hl' (Nat.le_succ _)).2 h] at hr
  refine ⟨⟨l', hl', hr, hl'.isGreatest⟩, fun c hstr _ => ⟨l'.length, ?_, hr⟩⟩
  rw [hstr, List.length_singleton] at hl'
  exact countChar_spec hv hstr hbegin hl'

end

/-- **`cstr_count_str` counts the occurrences that do not overlap exactly if some largest set of them has a byte between
any two.** -/
theorem count_iff {s : Cstr} (hv : s.Valid) (str : CString) (hm1 : 1 ≤ str.bytes.length) (hmax : str.bytes.length < 256)
    {begin : Nat} (hbegin : begin ≤ s.used) : CountRight s str begin ↔ Apart s str begin :=
  ⟨fun h => h.apart hv hm1 hmax hbegin, fun h => h.countRight hv hm1 hmax hbegin⟩

/-- "ab" in "ab-ab". -/
theorem count_right_ab : CountRight (small [97, 98, 45, 97, 98]) ⟨[97, 98], by decide⟩ 0 := by
  have hv : (small [97, 98, 45, 97, 98]).Valid := small_valid (by decide)
  have hplaces : ∀ i ∈ [0, 3], Places (small [97, 98, 45, 97, 98]) ⟨[97, 98], by decide⟩ i := by
    unfold Places OccursAt Matching.Occurs At
    decide
  refine (count_iff hv ⟨[97, 98], by decide⟩ (by decide) (by decide) (Nat.zero_le _)).2 ⟨[0, 3], ?_, fun l' hl' => ?_⟩
  · exact ⟨Nat.le_refl 0, hplaces 0 (by decide), by decide, hplaces 3 (by decide), trivial⟩
  · match l', hl' with
    | [], _ => exact Nat.zero_le 2
    | [_], _ => exact Nat.le_succ 1
    | [_, _], _ => exact Nat.le_refl 2
    | i :: j :: k :: _, ⟨_, _, hj, _, hk, hplace, _⟩ =>
      -- the third one would begin behind the text
      have hle : k + 2 ≤ 5 := hplace.add_le hv
      have hj' : i + 2 ≤ j := hj
      have hk' : j + 2 ≤ k := hk
      omega

/-- "a" in "aa": two occurrences, and the byte behind the first one is passed over. -/
theorem not_count_right_aa : ¬CountRight (small [97, 97]) ⟨[97], by decide⟩ 0 := by
  intro h
  have hv : (small [97, 97]).Valid := small_valid (by decide)
  obtain ⟨l, hl, hmost⟩ := h.apart hv (by decide) (by decide) (Nat.zero_le _)
  have hplace : ∀ i < 2, Places (small [97, 97]) ⟨[97], by decide⟩ i := by
    unfold Places OccursAt Matching.Occurs At
    decide
  have hboth : Spaced (Places (small [97, 97]) ⟨[97], by decide⟩) 1 0 [0, 1] :=
    ⟨Nat.le_refl 0, hplace 0 (by decide), Nat.le_refl 1, hplace 1 (by decide), trivial⟩
  have htwo : 2 ≤ l.length := hmost [0, 1] hboth
  match l, hl with
  | [], _ => exact absurd htwo (Nat.not_succ_le_zero 1)
  | [_], _ => exact absurd htwo (Nat.lt_irrefl 1)
  | i :: j :: _, ⟨_, _, hj, hplace, _⟩ =>
    have hle : j + 1 ≤ 2 := hplace.add_le hv
    have hj' : i + (1 + 1) ≤ j := hj
    omega

end TinyUtils.Cstr
