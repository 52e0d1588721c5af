import TinyUtils.Cstr.Search.Model
/-!
# `sunday_search_first` and `cstr_find_first`

The entry of `shift` for a byte is the distance from its last occurrence in the pattern to the end, or one more
than the length. So moving on by the entry of the byte behind the window skips no occurrence. The search is right
for every text and every pattern that `strlen` measures to the `int` it is stored to (`sunday_iff` says what else
is right): a pattern of 4 GiB and more is taken for a short one, or for one of negative length.
-/

namespace TinyUtils.Cstr

open Int32Bit Loops Matching IntArray Checked

section
variable {s : Cstr} {str : CString} {q : Nat}

/-! ## The table -/

theorem sundayShift_eq (chr : Byte → Int) (str : CString) (q : Nat) :
    sundayShift chr str q = placeTable chr str (fun k => q - k) q := by
  have hstart : (q : Int) + 1 = q - -1 := by omega
  rw [sundayShift, placeTable, hstart]
  rfl

/-- The entry of a byte is the distance from its last place to the end of the pattern. -/
abbrev Distances (str : CString) (q : Nat) : IntArray → Prop :=
  ByteTable fun c v => ∃ last, LastAt str.sym q (some c) last ∧ v = q - last

theorem sundayShift_spec (hq : q ≤ str.bytes.length) :
    ∃ shift, sundayShift uchar str q = .ok shift ∧ Distances str q shift := by
  rw [sundayShift_eq]
  exact placeTable_spec (fun k => q - k) hq

/-! ## The loop -/

/-- What a turn does before it looks into its table: it is the last one, or it has the byte to look up. -/
def sundayLook (s : Cstr) (str : CString) (patLen ti : Int) : M (Byte ⊕ Int) :=
  if unsigned ti ≤ unsigned (s.used - patLen) then do
    let pi ← scanUp (sameAt s str ti) patLen.toNat 0
    if (pi : Int) = patLen then .ok (.inr ti)
    else do
      let c ← s.charAt (ti + patLen)
      .ok (.inl c)
  else .ok (.inr (-1))

theorem sundayTurn_eq (chr : Byte → Int) (s : Cstr) (str : CString) (patLen : Int) (shift : IntArray) (ti : Int) :
    sundayTurn chr s str patLen shift ti = (do
      match ← sundayLook s str patLen ti with
      | .inl c => do
        let v ← shift.getAt (chr c)
        .ok (.inl (ti + v))
      | .inr r => .ok (.inr r)) := by
  rw [sundayTurn, sundayLook]
  split
  · rcases scanUp (sameAt s str ti) patLen.toNat 0 with _ | pi
    · rfl
    · simp only [ok_bind]
      split
      · rfl
      · rcases s.charAt (ti + patLen) with _ | c <;> rfl
  · rfl

/-- The byte that is looked up is that behind a window that is not the pattern. -/
def Behind (s : Cstr) (str : CString) (q i : Nat) (c : Byte) : Prop :=
  i + q ≤ s.used ∧ ¬Occurs s.sym s.used str.sym q i ∧ s.sym (i + q) = some c

theorem sundayLook_spec (hs : s.Text) (hq : q ≤ str.bytes.length) (hused : q ≤ s.used) {i : Nat} (hi : i ≤ s.used + 1) :
    (∃ c, sundayLook s str q i = .ok (.inl c) ∧ Behind s str q i c) ∨
      (sundayLook s str q i = .ok (.inr (i : Int)) ∧ Occurs s.sym s.used str.sym q i) ∨
      (sundayLook s str q i = .ok (.inr (-1)) ∧ s.used < i + q) := by
  have hcap := hs.used_le
  have hdata := hs.cap_lt
  have hcond : unsigned i ≤ unsigned (s.used - q : Int) ↔ i + q ≤ s.used := unsigned_window_iff hs hi hused
  simp only [sundayLook, hcond]
  by_cases hin : i + q ≤ s.used
  · obtain ⟨r, hr, hrq, hsame, hstop⟩ := scanUp_spec
      (fun k (hk : k < q) => sameAt_spec s str (i := i) (k := k) (by omega) (by omega)) (Nat.zero_add q)
    simp only [if_pos hin, Int.toNat_natCast, hr, ok_bind]
    by_cases hrm : r = q
    · right
      left
      rw [if_pos (Int.natCast_inj.2 hrm)]
      exact ⟨rfl, hin, fun k hk => hsame k (Nat.zero_le k) (by omega)⟩
    · left
      -- the byte behind the window is that of the content or the one behind the content
      obtain ⟨c, hc, hsym⟩ := charAt_of_lt s (i := i + q) (by omega)
      refine ⟨c, ?_, hin, fun hocc => hstop (by omega) (hocc.2 r (by omega)), hsym⟩
      rw [if_neg (by omega), ← Int.natCast_add, hc, ok_bind]
  · right
    right
    rw [if_neg hin]
    exact ⟨rfl, by omega⟩

/-- The turn where the byte is looked up, if it is the index that an `unsigned char` is. -/
theorem Behind.turn {chr : Byte → Int} {shift : IntArray} {i : Nat} {c : Byte} (h : Behind s str q i c)
    (hlook : sundayLook s str q i = .ok (.inl c)) (hshift : Distances str q shift) (hchr : chr c = uchar c) :
    ∃ i' : Nat, sundayTurn chr s str q shift i = .ok (.inl (i' : Int)) ∧ MovesBehind s.sym s.used str.sym q i i' := by
  obtain ⟨hin, hnot, hsym⟩ := h
  obtain ⟨_, hv, last, hlast, rfl⟩ := hshift.getAt c
  have hlt := hlast.lt
  have hmove : (i : Int) + (q - last) = (i + (q - last).toNat : Nat) := by omega
  rw [← hsym] at hlast
  refine ⟨i + (q - last).toNat, ?_, hin, hnot, last, hlast, hmove.symm⟩
  rw [sundayTurn_eq, hlook, ok_bind]
  simp only [hchr, hv, ok_bind, hmove]

theorem Window.sundayTurn (hs : s.Text) {start : Nat} {shift : IntArray} (hq : q ≤ str.bytes.length)
    (hused : q ≤ s.used) (hshift : Distances str q shift) {ti : Int} {i : Nat} (h : Window s str q start ti i) :
    (∃ i', Cstr.sundayTurn uchar s str q shift ti = .ok (.inl (i' : Nat)) ∧ Window s str q start i' i' ∧ i < i') ∨
      ∃ r, Cstr.sundayTurn uchar s str q shift ti = .ok (.inr r) ∧ FirstOccurs s.sym s.used str.sym q start r := by
  obtain rfl := h.eq
  rcases sundayLook_spec hs hq hused h.bound with ⟨c, hlook, hbehind⟩ | ⟨hlook, hocc⟩ | ⟨hlook, hend⟩
  · left
    obtain ⟨i', hturn, hmoves⟩ := hbehind.turn hlook hshift rfl
    obtain ⟨hlt, hbound⟩ := hmoves.bounds
    exact ⟨i', hturn, h.move hlt hbound hbehind.2.1 fun d hd1 hd => hmoves.skips hd1 hd, hlt⟩
  · right
    refine ⟨i, ?_, FirstOccurs.of_found h.le h.none_before hocc⟩
    rw [sundayTurn_eq, hlook, ok_bind]
  · right
    refine ⟨-1, ?_, FirstOccurs.of_end hend h.none_before⟩
    rw [sundayTurn_eq, hlook, ok_bind]

/-- A search for the first `q` bytes of the string. -/
theorem sundayLoop_returns (hs : s.Text) {start : Nat} (hq1 : 1 ≤ q) (hq : q ≤ str.bytes.length)
    (hstart : start + q ≤ s.used) :
    ∃ r, Returns (do let shift ← call (sundayShift uchar str q); loop (sundayTurn uchar s str q shift) start) r ∧
      FirstOccurs s.sym s.used str.sym q start r := by
  obtain ⟨shift, hshift, htable⟩ := sundayShift_spec hq
  obtain ⟨r, hr, hfirst⟩ := windowLoop_returns (fun ti i h => h.sundayTurn hs hq (by omega) htable)
    (show start ≤ s.used by omega)
  exact ⟨r, (Returns.call hshift).bind hr, hfirst⟩

/-- A pattern of negative length: the table sends the window back, and the reads in front of it leave `data`. -/
theorem sundayLoop_stuck (hs : s.Text) {start k : Nat} (hk1 : 1 ≤ k) (hk : k ≤ start) (hstart : start ≤ s.used) :
    Stuck (do let shift ← call (sundayShift uchar str (-k)); loop (sundayTurn uchar s str (-k) shift) start) := by
  have hlt := hs.used_lt
  have htable : sundayShift uchar str (-k) = .ok (List.replicate searchMaxLen (some (-k + 1 : Int))) := by
    have hturns : (-k : Int).toNat = 0 := by omega
    rw [sundayShift, hturns, forUp]
  refine Stuck.call_bind htable ?_
  have hturn : ∀ ti : Int, 1 ≤ ti ∧ ti ≤ s.used →
      (∃ ti', sundayTurn uchar s str (-k) (List.replicate searchMaxLen (some (-k + 1 : Int))) ti = .ok (.inl ti') ∧
        1 ≤ ti' ∧ ti' ≤ s.used) ∨
      ∃ e, sundayTurn uchar s str (-k) (List.replicate searchMaxLen (some (-k + 1 : Int))) ti = .error e := by
    rintro ti ⟨h1, h2⟩
    have hcond : unsigned ti ≤ unsigned (s.used - -k : Int) := by
      rw [unsigned_eq (by omega) (by omega), unsigned_eq (by omega) (by omega)]
      omega
    have hturns : (-k : Int).toNat = 0 := by omega
    have hne : ¬((0 : Nat) : Int) = -k := by omega
    simp only [sundayTurn, if_pos hcond, hturns, scanUp, ok_bind, if_neg hne]
    by_cases hfront : ti < k
    · right
      obtain ⟨x, hx⟩ : ∃ x : Nat, ti + -k = Int.negSucc x := ⟨(k - ti - 1).toNat, by omega⟩
      exact ⟨.read, by rw [hx]; rfl⟩
    · left
      obtain ⟨x, hx⟩ : ∃ x : Nat, ti + -k = (x : Int) := ⟨(ti - k).toNat, by omega⟩
      have hcap := hs.used_le
      have hdata := hs.cap_lt
      obtain ⟨c, hc, _⟩ := charAt_of_lt s (i := x) (by omega)
      have hget : IntArray.getAt (List.replicate searchMaxLen (some (-k + 1 : Int))) (uchar c) = .ok (-k + 1) :=
        (holds_replicate _ c.toNat_lt).getAt
      refine ⟨ti + (-k + 1), ?_, by omega, by omega⟩
      rw [hx, hc, ok_bind, hget, ok_bind]
  exact stuck_loop hturn ⟨by omega, by omega⟩

end

/-! ## The search -/

/-- What is asked of the result; an empty pattern and one of 256 bytes and more are refused. -/
def Sought (s : Cstr) (str : CString) (start : Nat) (r : Int) : Prop :=
  if 1 ≤ str.bytes.length ∧ str.bytes.length < searchMaxLen then FirstMatch s.content str.bytes start r else r = -1

/-- The length as an `int` is negative, and `begin` is so large that the sum of both is not. -/
def Negative (s : Cstr) (str : CString) (start : Nat) : Prop :=
  2 ^ 31 ≤ str.bytes.length % 2 ^ 32 ∧ start ≤ s.used ∧ 2 ^ 32 ≤ start + str.bytes.length % 2 ^ 32

/-- The pattern is so long that its length as an `int` is another one, and it makes a difference: the first bytes that
are left of it occur, or the length is negative and the window moves back. -/
def Narrowed (s : Cstr) (str : CString) (start : Nat) : Prop :=
  (2 ^ 32 ≤ str.bytes.length ∧ 1 ≤ str.bytes.length % 2 ^ 32 ∧ str.bytes.length % 2 ^ 32 < searchMaxLen ∧
      ∃ i, start ≤ i ∧ OccursAt s.content (str.bytes.take (str.bytes.length % 2 ^ 32)) i) ∨
    Negative s str start

theorem i32_natCast_low {n : Nat} (h : n % 2 ^ 32 < 2 ^ 31) : i32 n = (n % 2 ^ 32 : Nat) := by
  rw [i32_eq_emod (by omega)]
  rfl

theorem i32_natCast_high {n : Nat} (h : 2 ^ 31 ≤ n % 2 ^ 32) : i32 n = -((2 ^ 32 - n % 2 ^ 32 : Nat) : Int) := by
  have hrange := i32_range n
  have hemod := i32_emod n
  omega

section
variable {s : Cstr} {str : CString} {start : Nat}

theorem sunday_stuck (hs : s.Text) (h : Negative s str start) : Stuck (sundaySearchFirst uchar s str start) := by
  obtain ⟨hneg, hused, hbig⟩ := h
  have hlt := hs.used_lt
  have hmod : str.bytes.length % 2 ^ 32 < 2 ^ 32 := Nat.mod_lt _ (by decide)
  generalize hk : 2 ^ 32 - str.bytes.length % 2 ^ 32 = k
  have hsum : unsigned (start + -(k : Int)) = start - k := by
    rw [unsigned_eq (by omega) (by omega)]
    omega
  have hcheck : ¬(unsigned (start + -(k : Int)) > s.used ∨ -(k : Int) = 0) := by
    rw [hsum]
    omega
  have hshort : ¬(-(k : Int) ≥ searchMaxLen) := by
    simp only [searchMaxLen]
    omega
  have hstart : i32 start = start := i32_eq (by omega) (by omega)
  rw [sundaySearchFirst, i32_natCast_high hneg, hk]
  simp only [if_neg (show ¬start > s.used by omega), if_neg hcheck, if_neg hshort, hstart]
  exact sundayLoop_stuck hs (by omega) (by omega) hused

/-- What the search returns: it looks for as many bytes of the pattern as its length is as an `int`. -/
theorem sunday_returns (hs : s.Text) (h : ¬Negative s str start) :
    ∃ r, Returns (sundaySearchFirst uchar s str start) r ∧
      if 1 ≤ str.bytes.length % 2 ^ 32 ∧ str.bytes.length % 2 ^ 32 < searchMaxLen then
        FirstOccurs s.sym s.used str.sym (str.bytes.length % 2 ^ 32) start r else r = -1 := by
  have hlt := hs.used_lt
  have hle : str.bytes.length % 2 ^ 32 ≤ str.bytes.length := Nat.mod_le _ _
  have hmod : str.bytes.length % 2 ^ 32 < 2 ^ 32 := Nat.mod_lt _ (by decide)
  have hlow := i32_natCast_low (n := str.bytes.length)
  have hhigh := i32_natCast_high (n := str.bytes.length)
  rw [Negative] at h
  generalize str.bytes.length % 2 ^ 32 = q at h hle hmod hlow hhigh ⊢
  -- what is left when the search refuses
  have hrefuse : (1 ≤ q ∧ q < searchMaxLen → s.used < start + q) →
      if 1 ≤ q ∧ q < searchMaxLen then FirstOccurs s.sym s.used str.sym q start (-1) else (-1 : Int) = -1 := by
    intro hshort
    split
    next hq => exact FirstOccurs.of_short (hshort hq)
    next => rfl
  simp only [sundaySearchFirst]
  by_cases hused : start > s.used
  · rw [if_pos hused]
    exact ⟨-1, Returns.pure _, hrefuse fun hq => by omega⟩
  · rw [if_neg hused]
    by_cases hneg : 2 ^ 31 ≤ q
    · have hsum : unsigned (start + -((2 ^ 32 - q : Nat) : Int)) = start + q := by
        rw [unsigned]
        omega
      rw [hhigh hneg, if_pos (Or.inl (by rw [hsum]; omega))]
      exact ⟨-1, Returns.pure _, hrefuse fun hq => by omega⟩
    · have hsum : unsigned (start + (q : Int)) = start + q := unsigned_add (by omega)
      rw [hlow (by omega)]
      by_cases hcheck : unsigned (start + (q : Int)) > s.used ∨ (q : Int) = 0
      · rw [if_pos hcheck]
        rw [hsum] at hcheck
        exact ⟨-1, Returns.pure _, hrefuse fun hq => by omega⟩
      · rw [if_neg hcheck]
        rw [hsum] at hcheck
        by_cases hlong : (q : Int) ≥ searchMaxLen
        · rw [if_pos hlong]
          exact ⟨-1, Returns.pure _, hrefuse fun hq => by omega⟩
        · have hstart : i32 start = start := i32_eq (by omega) (by omega)
          obtain ⟨r, hr, hfirst⟩ := sundayLoop_returns hs (by omega) hle (show start + q ≤ s.used by omega)
          rw [if_neg hlong, hstart]
          exact ⟨r, hr, by rw [if_pos ⟨by omega, by omega⟩]; exact hfirst⟩

/-- `findFirst` of a pattern of 1 to 255 bytes. -/
theorem findFirst_returns (hs : s.Text) (hstart : start < 2 ^ 32)
    (hm1 : 1 ≤ str.bytes.length) (hmax : str.bytes.length < searchMaxLen) :
    ∃ r, Returns (findFirst uchar s str (start : Int)) r ∧ FirstMatch s.content str.bytes start r := by
  have hshort : str.bytes.length < 2 ^ 31 := Nat.lt_trans hmax (by decide)
  have hmod : str.bytes.length % 2 ^ 32 = str.bytes.length := Nat.mod_eq_of_lt (by omega)
  have hnot : ¬Negative s str start := by
    rintro ⟨hneg, _⟩
    omega
  obtain ⟨r, hr, hfirst⟩ := sunday_returns hs hnot
  rw [hmod, if_pos ⟨hm1, hmax⟩, ← firstMatch_iff hs] at hfirst
  rw [findFirst, unsigned_natCast hstart]
  exact ⟨r, hr, hfirst⟩

theorem sunday_sought_iff (hs : s.Text) :
    (∃ r, Returns (sundaySearchFirst uchar s str start) r ∧ Sought s str start r) ↔ ¬Narrowed s str start := by
  have hmod : str.bytes.length < 2 ^ 32 → str.bytes.length % 2 ^ 32 = str.bytes.length := Nat.mod_eq_of_lt
  by_cases hneg : Negative s str start
  · constructor
    · rintro ⟨r, hr, _⟩
      exact absurd hr ((sunday_stuck hs hneg).not_returns r)
    · intro h
      exact absurd (Or.inr hneg) h
  · obtain ⟨r, hr, hspec⟩ := sunday_returns hs hneg
    have hunique : (∃ r, Returns (sundaySearchFirst uchar s str start) r ∧ Sought s str start r) ↔
        Sought s str start r := by
      constructor
      · rintro ⟨r', hr', hsought⟩
        rwa [hr.unique hr']
      · intro hsought
        exact ⟨r, hr, hsought⟩
    rw [hunique, Sought, Narrowed, or_iff_left hneg]
    by_cases hq : 1 ≤ str.bytes.length % 2 ^ 32 ∧ str.bytes.length % 2 ^ 32 < searchMaxLen
    · rw [if_pos hq] at hspec
      by_cases hlong : 2 ^ 32 ≤ str.bytes.length
      · -- only the first bytes are looked for
        have htake := fun i => occursAt_take_iff hs (Nat.mod_le str.bytes.length (2 ^ 32)) i
        rw [if_neg (by simp only [searchMaxLen]; omega), hspec.eq_neg_one_iff]
        simp only [← htake]
        constructor
        · rintro hnone ⟨_, _, _, i, hi, hocc⟩
          exact hnone i hi hocc
        · intro h i hi hocc
          exact h ⟨hlong, hq.1, hq.2, i, hi, hocc⟩
      · have heq := hmod (by omega)
        rw [heq] at hspec hq
        rw [if_pos hq, firstMatch_iff hs]
        exact iff_of_true hspec fun h => hlong h.1
    · rw [if_neg hq] at hspec
      have hlen : ¬(1 ≤ str.bytes.length ∧ str.bytes.length < searchMaxLen) := by
        intro hlen
        rw [hmod (by simp only [searchMaxLen] at hlen; omega)] at hq
        exact hq hlen
      rw [if_neg hlen]
      exact iff_of_true hspec fun h => hq ⟨h.2.1, h.2.2.1⟩

end

/-- **The search is right**, and so is `cstr_find_first`, to which it is an `int` that `begin` comes as: it ends and
returns the first occurrence, exactly if the length of the pattern is not narrowed to another one with an effect. -/
theorem sunday_iff {s : Cstr} (hs : s.Text) (str : CString) {start : Nat} (hstart : start < 2 ^ 32) :
    ((∃ r, Returns (sundaySearchFirst uchar s str start) r ∧ Sought s str start r) ↔ ¬Narrowed s str start) ∧
      ((∃ r, Returns (findFirst uchar s str (i32 start)) r ∧ Sought s str start r) ↔ ¬Narrowed s str start) := by
  have hsame : unsigned (i32 start) = start := by
    rw [unsigned, i32_emod]
    exact unsigned_natCast hstart
  rw [findFirst, hsame]
  exact ⟨sunday_sought_iff hs, sunday_sought_iff hs⟩

/-- "bc" in "abc". -/
theorem sunday_right_abc :
    ((∃ r, Returns (sundaySearchFirst uchar (small [97, 98, 99]) ⟨[98, 99], by decide⟩ 0) r ∧
          Sought (small [97, 98, 99]) ⟨[98, 99], by decide⟩ 0 r) ↔
        ¬Narrowed (small [97, 98, 99]) ⟨[98, 99], by decide⟩ 0) ∧
      ((∃ r, Returns (findFirst uchar (small [97, 98, 99]) ⟨[98, 99], by decide⟩ (i32 (0 : Nat))) r ∧
          Sought (small [97, 98, 99]) ⟨[98, 99], by decide⟩ 0 r) ↔
        ¬Narrowed (small [97, 98, 99]) ⟨[98, 99], by decide⟩ 0) :=
  sunday_iff (small_valid (by decide)).text _ (by decide)

/-- "aaa..a" of 4 GiB and one byte. -/
def longPattern : CString where
  bytes := List.replicate (2 ^ 32 + 1) 97
  noNul := by
    intro h
    exact absurd (List.eq_of_mem_replicate h) (by decide)

/-- It is found in "a". -/
theorem not_sunday_right_long :
    ¬∃ r, Returns (sundaySearchFirst uchar (small [97]) longPattern 0) r ∧ Sought (small [97]) longPattern 0 r := by
  have hlen : longPattern.bytes.length = 2 ^ 32 + 1 := List.length_replicate
  have hmod : longPattern.bytes.length % 2 ^ 32 = 1 := by omega
  have hs : (small [97]).Text := (small_valid (by decide)).text
  rw [sunday_sought_iff hs, not_not]
  refine Or.inl ⟨by rw [hlen]; decide, by rw [hmod], by rw [hmod]; decide, 0, Nat.le_refl 0, ?_⟩
  have htake : longPattern.bytes.take 1 = [97] := List.take_replicate
  rw [hmod, htake]
  refine ⟨by decide, fun k hk => ?_⟩
  obtain rfl : k = 0 := Nat.lt_one_iff.1 hk
  rfl

end TinyUtils.Cstr
