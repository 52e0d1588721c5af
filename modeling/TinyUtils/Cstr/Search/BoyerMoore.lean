import TinyUtils.Cstr.Search.Model
/-!
# `boyer_moore_search_first`

The window is compared from its end. Where it stops, the window moves on by the larger of two shifts: the one that
aligns the symbol of the text with its last occurrence in the pattern, and the least one that is good for the matched
suffix. The first may be negative, the second is at least 1.

`bm_good_suffix_shift_table` gets the least good shifts in two passes over the lengths of the common suffixes: first
the shifts past the mismatch, which are the periods, then the others from the largest to the least, so that what is
written last is the least.

Before its loop the function calls `cstr_show`, which prints `data` as a C string. So an object without a NUL in its
block is read behind its end (`boyerMoore_iff`).
-/

namespace TinyUtils.Cstr

open Int32Bit Loops Matching IntArray Checked

section
variable {s : Cstr} {str : CString} {m : Nat}

/-! ## The last occurrences -/

theorem bmBadCharShiftTable_eq (chr : Byte → Int) (str : CString) (hmax : m < searchMaxLen) :
    bmBadCharShiftTable chr str m = placeTable chr str id m := by
  have hturns : unsigned m = m := unsigned_natCast (Nat.lt_trans hmax (by decide))
  rw [bmBadCharShiftTable, hturns]
  rfl

/-- The entry of a byte is its last place. -/
abbrev LastPlaces (str : CString) (m : Nat) : IntArray → Prop :=
  ByteTable fun c v => ∃ last, LastAt str.sym m (some c) last ∧ v = last

theorem bmBadCharShiftTable_spec (hm : m ≤ str.bytes.length) (hmax : m < searchMaxLen) :
    ∃ shiftTable, bmBadCharShiftTable uchar str m = .ok shiftTable ∧ LastPlaces str m shiftTable := by
  rw [bmBadCharShiftTable_eq uchar str hmax]
  exact placeTable_spec id hm

/-! ## The common suffixes -/

/-- The elements from `lo` on are the lengths of the common suffixes. -/
structure Suffixes (str : CString) (m lo : Nat) (suffix : IntArray) : Prop where
  length : suffix.length = m
  entry : ∀ i, lo ≤ i → i < m → ∃ r : Nat, suffix.Holds i r ∧ CommonSuffix str.sym m i r

theorem sameSuffix_spec {i j : Nat} (hm : m ≤ str.bytes.length) (hi : i < m) (hj : j ≤ i) :
    ∃ b, sameSuffix str m i j = .ok b ∧ (b = true ↔ str.sym (m - 1 - i + j) = str.sym j) := by
  obtain ⟨c, hc, hsym⟩ := str.charAt_of_lt (k := m - 1 - i + j) (by omega)
  obtain ⟨d, hd, hsym'⟩ := str.charAt_of_lt (k := j) (by omega)
  have hindex : (m : Int) - 1 - i + j = (m - 1 - i + j : Nat) := by omega
  refine ⟨c == d, ?_, ?_⟩
  · rw [sameSuffix, hindex, hc, ok_bind, hd, ok_bind]
  · rw [hsym, hsym', beq_iff_eq, Option.some_inj]

theorem Suffixes.step {i : Nat} {suffix : IntArray} (hm : m ≤ str.bytes.length) (hi : i < m - 1)
    (h : Suffixes str m (i + 1) suffix) :
    ∃ suffix', bmSuffixEntry str m i suffix = .ok suffix' ∧ Suffixes str m i suffix' := by
  obtain ⟨hlen, hentry⟩ := h
  obtain ⟨j, hj, hle, hsame, hstop⟩ := scanDown_spec fun j (hj : j < i + 1) =>
    sameSuffix_spec (m := m) (i := i) (j := j) hm (by omega) (by omega)
  have hvalue : (i : Int) - (j - 1) = (i + 1 - j : Nat) := by omega
  refine ⟨suffix.set i (some ((i + 1 - j : Nat) : Int)), ?_, by rw [List.length_set, hlen], fun k hk hkm => ?_⟩
  · rw [bmSuffixEntry, hj, ok_bind, hvalue]
    exact setAt_eq _ (by omega)
  · by_cases hki : k = i
    · subst hki
      refine ⟨k + 1 - j, holds_set_self _ (by omega), ⟨by omega, fun x hx => ?_, fun hr => ?_⟩⟩
      · have hsym := hsame (k - x) (by omega) (by omega)
        rw [show m - 1 - k + (k - x) = m - 1 - x by omega] at hsym
        exact hsym.symm
      · have hsym := hstop (by omega)
        rw [show m - 1 - k + (j - 1) = m - 1 - (k + 1 - j) by omega, show j - 1 = k - (k + 1 - j) by omega] at hsym
        exact fun heq => hsym heq.symm
    · obtain ⟨r, hr, hcommon⟩ := hentry k (by omega) hkm
      exact ⟨r, hr.set_ne hki, hcommon⟩

theorem bmSuffix_spec (hm1 : 1 ≤ m) (hm : m ≤ str.bytes.length) :
    ∃ suffix, bmSuffix str m = .ok suffix ∧ Suffixes str m 0 suffix := by
  have hlast : (m : Int) - 1 = (m - 1 : Nat) := by omega
  have hfresh : (fresh m).length = m := List.length_replicate
  have hstart : Suffixes str m (m - 1) ((fresh m).set (m - 1) (some (m : Int))) := by
    refine ⟨by rw [List.length_set, hfresh], fun i hi him => ?_⟩
    obtain rfl : i = m - 1 := by omega
    exact ⟨m, holds_set_self _ (by omega), ⟨by omega, fun x _ => rfl, fun h => by omega⟩⟩
  have hstep : ∀ i suffix, i < m - 1 → Suffixes str m (i + 1) suffix →
      ∃ suffix', bmSuffixEntry str m i suffix = .ok suffix' ∧ Suffixes str m i suffix' :=
    fun i suffix hi h => h.step hm hi
  obtain ⟨suffix, hsuffix, hspec⟩ := forDown_spec hstep hstart
  refine ⟨suffix, ?_, hspec⟩
  rw [bmSuffix, hlast, setAt_eq _ (by omega), ok_bind]
  exact hsuffix

/-! ## The good shifts -/

/-- With the common suffixes from `lo` on looked at, the elements below `j` are the least good shifts past the mismatch,
and the others are still the length; a period among the shifts looked at is at most `j`. -/
structure Prefixes (str : CString) (m lo : Nat) (st : Nat × IntArray) : Prop where
  length : st.2.length = m
  done : ∀ q, q < st.1 → q < m → ∃ v : Nat, st.2.Holds q v ∧ IsLeast {s | q < s ∧ s ≤ m ∧ Good str.sym m q s} v
  todo : ∀ q, st.1 ≤ q → q < m → st.2.Holds q m
  seen : ∀ s, 1 ≤ s → s + lo < m → Period str.sym m s → s ≤ st.1

/-- The inner loop writes the shift to the elements from `j` on. -/
theorem fill_spec {shift j : Nat} {shiftTable : IntArray} (hlen : shiftTable.length = m) (hshift : shift ≤ m)
    (htodo : ∀ q, j ≤ q → q < m → shiftTable.Holds q m) :
    ∃ shiftTable', forUp (fillEntry m shift) (shift - j) j shiftTable = .ok shiftTable' ∧ shiftTable'.length = m ∧
      (∀ q v, q < j → shiftTable.Holds q v → shiftTable'.Holds q v) ∧
      (∀ q, j ≤ q → q < shift → shiftTable'.Holds q shift) ∧ ∀ q, max j shift ≤ q → q < m → shiftTable'.Holds q m := by
  have hstep : ∀ i (a : IntArray), i < j + (shift - j) →
      (j ≤ i ∧ a.length = m ∧ (∀ q v, q < j → shiftTable.Holds q v → a.Holds q v) ∧
        (∀ q, j ≤ q → q < i → a.Holds q shift) ∧ ∀ q, i ≤ q → q < m → a.Holds q m) →
      ∃ a', fillEntry m shift i a = .ok a' ∧
        (j ≤ i + 1 ∧ a'.length = m ∧ (∀ q v, q < j → shiftTable.Holds q v → a'.Holds q v) ∧
          (∀ q, j ≤ q → q < i + 1 → a'.Holds q shift) ∧ ∀ q, i + 1 ≤ q → q < m → a'.Holds q m) := by
    rintro i a hi ⟨hji, ha, hold, hnew, hrest⟩
    have hlt : i < a.length := by omega
    refine ⟨a.set i (some (shift : Int)), ?_, by omega, by rw [List.length_set, ha], fun q v hq hv => ?_,
      fun q hq hqi => ?_, fun q hq hqm => ?_⟩
    · rw [fillEntry, (hrest i (Nat.le_refl i) (by omega)).getAt, ok_bind, if_pos rfl]
      exact setAt_eq _ hlt
    · exact (hold q v hq hv).set_ne (by omega)
    · by_cases hqi' : q = i
      · rw [hqi']
        exact holds_set_self _ hlt
      · exact (hnew q hq (by omega)).set_ne hqi'
    · exact (hrest q (by omega) hqm).set_ne (by omega)
  obtain ⟨a, ha, _, hlen', hold, hnew, hrest⟩ := forUp_spec hstep rfl
    ⟨Nat.le_refl j, hlen, fun q v _ hv => hv, fun q h1 h2 => by omega, htodo⟩
  exact ⟨a, ha, hlen', hold, fun q h1 h2 => hnew q h1 (by omega), fun q h1 h2 => hrest q (by omega) h2⟩

theorem Prefixes.step {i : Nat} {st : Nat × IntArray} {suffix : IntArray} (hsuffix : Suffixes str m 0 suffix)
    (hi : i < m) (h : Prefixes str m (i + 1) st) :
    ∃ st', bmPrefixEntry m suffix i st = .ok st' ∧ Prefixes str m i st' := by
  obtain ⟨j, shiftTable⟩ := st
  obtain ⟨hlen, hdone, htodo, hseen⟩ := h
  simp only at hlen hdone htodo hseen
  obtain ⟨r, hr, hcommon⟩ := hsuffix.entry i (Nat.zero_le i) hi
  simp only [bmPrefixEntry, hr.getAt, ok_bind]
  by_cases hall : r = i + 1
  · -- the first `i + 1` symbols are a suffix: their shift is the least period past the elements that it is written to
    have hperiod : Period str.sym m (m - 1 - i) := (hcommon.period_iff hi).1 hall
    obtain ⟨a, ha, hlen', hold, hnew, hrest⟩ := fill_spec hlen (show m - 1 - i ≤ m by omega) htodo
    refine ⟨(max j (m - 1 - i), a), ?_, hlen', fun q hq hqm => ?_, hrest, fun s _ hs _ => ?_⟩
    · rw [if_pos (by omega), ha, ok_bind]
    · by_cases hqj : q < j
      · obtain ⟨v, hv, hleast⟩ := hdone q hqj hqm
        exact ⟨v, hold q v hqj hv, hleast⟩
      · simp only at hq
        have hq' : q < m - 1 - i := by omega
        refine ⟨m - 1 - i, hnew q (by omega) hq', ⟨hq', by omega, (good_iff_period hq').2 hperiod⟩, ?_⟩
        rintro s ⟨hqs, _, hgood⟩
        by_contra hlt
        have hle := hseen s (by omega) (by omega) ((good_iff_period hqs).1 hgood)
        omega
    · simp only
      omega
  · refine ⟨(j, shiftTable), by rw [if_neg (by omega)], hlen, hdone, htodo, fun s hs1 hs hper => ?_⟩
    by_cases hsi : s = m - 1 - i
    · rw [hsi] at hper
      exact absurd ((hcommon.period_iff hi).2 hper) hall
    · exact hseen s hs1 (by omega) hper

/-- With the common suffixes below `i` looked at too, the elements are the least good shifts among those past the
mismatch and those looked at. -/
structure Middles (str : CString) (m i : Nat) (shiftTable : IntArray) : Prop where
  length : shiftTable.length = m
  entry : ∀ q, q < m → ∃ v : Nat, shiftTable.Holds q v ∧
    IsLeast {s | 1 ≤ s ∧ s ≤ m ∧ Good str.sym m q s ∧ (q < s ∨ m ≤ i + s)} v

theorem Prefixes.middles {st : Nat × IntArray} (h : Prefixes str m 0 st) : Middles str m 0 st.2 := by
  refine ⟨h.length, fun q hq => ?_⟩
  by_cases hqj : q < st.1
  · obtain ⟨v, hv, ⟨hqv, hvm, hgood⟩, hleast⟩ := h.done q hqj hq
    refine ⟨v, hv, ⟨by omega, hvm, hgood, Or.inl hqv⟩, ?_⟩
    rintro s ⟨_, hsm, hs, hpast⟩
    exact hleast ⟨by omega, hsm, hs⟩
  · refine ⟨m, h.todo q (by omega) hq, ⟨by omega, Nat.le_refl m, good_length hq, Or.inl hq⟩, ?_⟩
    rintro s ⟨hs1, hsm, hs, hpast⟩
    by_contra hlt
    have hqs : q < s := by omega
    have hle := h.seen s hs1 (by omega) ((good_iff_period hqs).1 hs)
    omega

theorem Middles.step {i : Nat} {shiftTable suffix : IntArray} (hsuffix : Suffixes str m 0 suffix) (hi : i < m - 1)
    (h : Middles str m i shiftTable) :
    ∃ shiftTable', bmMiddleEntry m suffix i shiftTable = .ok shiftTable' ∧ Middles str m (i + 1) shiftTable' := by
  obtain ⟨hlen, hentry⟩ := h
  obtain ⟨r, hr, hcommon⟩ := hsuffix.entry i (Nat.zero_le i) (by omega)
  have hle := hcommon.le
  have hindex : (m : Int) - 1 - r = (m - 1 - r : Nat) := by omega
  have hvalue : (m : Int) - 1 - i = (m - 1 - i : Nat) := by omega
  refine ⟨shiftTable.set (m - 1 - r) (some ((m - 1 - i : Nat) : Int)), ?_, by rw [List.length_set, hlen], ?_⟩
  · rw [bmMiddleEntry, hr.getAt, ok_bind, hindex, hvalue]
    exact setAt_eq _ (by omega)
  · intro q hq
    by_cases hqr : q = m - 1 - r
    · -- the shift is good here, and less than all that were looked at
      have hgood : Good str.sym m q (m - 1 - i) := by
        by_cases hpast : q < m - 1 - i
        · exact (good_iff_period hpast).2 ((hcommon.period_iff (by omega)).1 (by omega))
        · exact (hcommon.good_iff (by omega) hq (by omega)).2 (by omega)
      rw [← hqr]
      refine ⟨m - 1 - i, holds_set_self _ (by omega), ⟨by omega, by omega, hgood, Or.inr (by omega)⟩, ?_⟩
      rintro s ⟨hs1, hsm, hs, hpast⟩
      omega
    · -- the shift is not good here unless it is past `q`
      obtain ⟨v, hv, ⟨hv1, hvm, hvgood, hvpast⟩, hleast⟩ := hentry q hq
      refine ⟨v, hv.set_ne hqr, ⟨hv1, hvm, hvgood, by omega⟩, ?_⟩
      rintro s ⟨hs1, hsm, hs, hpast⟩
      refine hleast ⟨hs1, hsm, hs, ?_⟩
      by_contra hnew
      obtain rfl : s = m - 1 - i := by omega
      have hr' := (hcommon.good_iff (by omega) hq (by omega)).1 hs
      omega

/-- The entry of a place is the least good shift where the comparison stops there. -/
def GoodShifts (str : CString) (m : Nat) (bmGs : IntArray) : Prop :=
  ∀ q < m, ∃ v : Nat, bmGs.Holds q v ∧ IsLeast {s | 1 ≤ s ∧ s ≤ m ∧ Good str.sym m q s} v

/-- With all common suffixes looked at, no good shift is left out. -/
theorem Middles.goodShifts {shiftTable : IntArray} (h : Middles str m (m - 1) shiftTable) : GoodShifts str m shiftTable := by
  intro q hq
  obtain ⟨v, hv, ⟨hv1, hvm, hgood, _⟩, hleast⟩ := h.entry q hq
  refine ⟨v, hv, ⟨hv1, hvm, hgood⟩, ?_⟩
  rintro s ⟨hs1, hsm, hs⟩
  exact hleast ⟨hs1, hsm, hs, Or.inr (by omega)⟩

theorem bmGoodSuffixShiftTable_middles (hm1 : 1 ≤ m) (hm : m ≤ str.bytes.length) :
    ∃ shiftTable, bmGoodSuffixShiftTable str m = .ok shiftTable ∧ Middles str m (m - 1) shiftTable := by
  obtain ⟨suffix, hsuffix, hspec⟩ := bmSuffix_spec hm1 hm
  have hstart : Prefixes str m m (0, List.replicate m (some (m : Int))) :=
    ⟨List.length_replicate, fun q hq => by omega, fun q _ hq => holds_replicate _ hq, fun s h1 h2 => by omega⟩
  have hprefix : ∀ i st, i < m → Prefixes str m (i + 1) st →
      ∃ st', bmPrefixEntry m suffix i st = .ok st' ∧ Prefixes str m i st' := fun i st hi h => h.step hspec hi
  obtain ⟨st, hst, hprefixes⟩ := forDown_spec hprefix hstart
  have hmiddle : ∀ i a, i < m - 1 → Middles str m i a →
      ∃ a', bmMiddleEntry m suffix i a = .ok a' ∧ Middles str m (i + 1) a' := fun i a hi h => h.step hspec hi
  obtain ⟨shiftTable, htable, hmiddles⟩ := forUp_spec hmiddle (Nat.zero_add (m - 1)) hprefixes.middles
  refine ⟨shiftTable, ?_, hmiddles⟩
  rw [bmGoodSuffixShiftTable, hsuffix, ok_bind, hst, ok_bind]
  exact htable

/-- **The table has the least good shift for each place of the mismatch.** -/
theorem bmGoodSuffixShiftTable_spec (hm1 : 1 ≤ m) (hm : m ≤ str.bytes.length) :
    ∃ shiftTable, bmGoodSuffixShiftTable str m = .ok shiftTable ∧ GoodShifts str m shiftTable := by
  obtain ⟨shiftTable, htable, hmiddles⟩ := bmGoodSuffixShiftTable_middles hm1 hm
  exact ⟨shiftTable, htable, hmiddles.goodShifts⟩

/-- The bytes of the string that a good shift aligns. -/
theorem good_iff_bytes {q s : Nat} (hm : m ≤ str.bytes.length) (hq : q < m) :
    Good str.sym m q s ↔ (∀ k, q < k → k < m → s > k ∨ str.bytes[k - s]? = str.bytes[k]?) ∧
      (s > q ∨ str.bytes[q - s]? ≠ str.bytes[q]?) := by
  have hsym : ∀ k < m, str.sym k = str.bytes[k]? := fun k hk => str.sym_of_lt (by omega)
  have hshift : ∀ k < m, str.sym (k - s) = str.bytes[k - s]? := fun k hk => hsym (k - s) (by omega)
  rw [Good]
  apply and_congr
  · refine forall₃_congr fun k _ hk => ?_
    rw [hsym k hk, hshift k hk, ← Nat.not_lt, Classical.or_iff_not_imp_left]
  · rw [hsym q hq, hshift q hq, ← Nat.not_lt, Classical.or_iff_not_imp_left]

/-- **The table is exact**, and no access is outside of the `m` elements of the two arrays: the entry at `j` is the
least `s` of 1 to `m` that aligns the bytes behind `j` with equal ones and the byte at `j` with another one, as far
as they are aligned. -/
theorem bmGoodSuffixShiftTable_exact (hm1 : 1 ≤ m) (hm : m ≤ str.bytes.length) :
    ∃ shiftTable, bmGoodSuffixShiftTable str m = .ok shiftTable ∧ shiftTable.length = m ∧
      ∀ j < m, ∃ v : Nat, shiftTable.Holds j v ∧
        IsLeast {s | 1 ≤ s ∧ s ≤ m ∧ (∀ k, j < k → k < m → s > k ∨ str.bytes[k - s]? = str.bytes[k]?) ∧
          (s > j ∨ str.bytes[j - s]? ≠ str.bytes[j]?)} v := by
  obtain ⟨shiftTable, htable, hmiddles⟩ := bmGoodSuffixShiftTable_middles hm1 hm
  refine ⟨shiftTable, htable, hmiddles.length, fun j hj => ?_⟩
  obtain ⟨v, hv, hleast⟩ := hmiddles.goodShifts j hj
  simp only [good_iff_bytes hm hj] at hleast
  exact ⟨v, hv, hleast⟩

/-- "abab" -/
theorem bmGoodSuffixShiftTable_exact_abab :
    ∃ shiftTable, bmGoodSuffixShiftTable ⟨[97, 98, 97, 98], by decide⟩ 4 = .ok shiftTable ∧ shiftTable.length = 4 ∧
      ∀ j < 4, ∃ v : Nat, shiftTable.Holds j v ∧
        IsLeast {s | 1 ≤ s ∧ s ≤ 4 ∧
          (∀ k, j < k → k < 4 → s > k ∨ ([97, 98, 97, 98] : List Byte)[k - s]? = ([97, 98, 97, 98] : List Byte)[k]?) ∧
          (s > j ∨ ([97, 98, 97, 98] : List Byte)[j - s]? ≠ ([97, 98, 97, 98] : List Byte)[j]?)} v :=
  @bmGoodSuffixShiftTable_exact ⟨[97, 98, 97, 98], by decide⟩ 4 (by decide) (by decide)

/-! ## The loop -/

/-- What a turn does before it looks into its tables: it is the last one, or it has the place where the comparison
stops and the byte of the text there. -/
def bmLook (s : Cstr) (str : CString) (patLen ti : Int) : M ((Int × Byte) ⊕ Int) :=
  if unsigned ti ≤ unsigned (s.used - patLen) then do
    let pi ← scanDown (sameAt s str ti) patLen.toNat
    if pi = 0 then .ok (.inr ti)
    else do
      let c ← s.charAt (pi - 1 + ti)
      .ok (.inl (pi - 1, c))
  else .ok (.inr (-1))

theorem bmTurn_eq (chr : Byte → Int) (s : Cstr) (str : CString) (patLen : Int) (bmBc bmGs : IntArray) (ti : Int) :
    bmTurn chr s str patLen bmBc bmGs ti = (do
      match ← bmLook s str patLen ti with
      | .inl (pi, c) => do
        let bc ← bmBc.getAt (chr c)
        let gs ← bmGs.getAt pi
        .ok (.inl (ti + (if pi - bc > gs then pi - bc else gs)))
      | .inr r => .ok (.inr r)) := by
  rw [bmTurn, bmLook]
  split
  · rcases scanDown (sameAt s str ti) patLen.toNat with _ | pi
    · rfl
    · simp only [ok_bind]
      split
      · rfl
      · rcases s.charAt (pi - 1 + ti) with _ | c <;> rfl
  · rfl

/-- The byte that is looked up is that of the text where the comparison of a window stops. -/
def AtStop (s : Cstr) (str : CString) (m i j : Nat) (c : Byte) : Prop :=
  i + m ≤ s.used ∧ Stops s.sym str.sym m i j ∧ s.sym (i + j) = some c

theorem bmLook_spec (hs : s.Text) (hm : m ≤ str.bytes.length) (hused : m ≤ s.used) {i : Nat} (hi : i ≤ s.used + 1) :
    (∃ j c, bmLook s str m i = .ok (.inl ((j : Nat), c)) ∧ AtStop s str m i j c) ∨
      (bmLook s str m i = .ok (.inr (i : Int)) ∧ Occurs s.sym s.used str.sym m i) ∨
      (bmLook s str m i = .ok (.inr (-1)) ∧ s.used < i + m) := by
  have hcap := hs.used_le
  have hdata := hs.cap_lt
  have hcond : unsigned i ≤ unsigned (s.used - m : Int) ↔ i + m ≤ s.used := unsigned_window_iff hs hi hused
  simp only [bmLook, hcond]
  by_cases hin : i + m ≤ s.used
  · obtain ⟨r, hr, hrm, hsame, hstop⟩ := scanDown_spec fun k (hk : k < m) =>
      sameAt_spec s str (i := i) (k := k) (by omega) (by omega)
    simp only [if_pos hin, Int.toNat_natCast, hr, ok_bind]
    by_cases hr0 : r = 0
    · right
      left
      subst hr0
      rw [if_pos rfl]
      exact ⟨rfl, hin, fun k hk => hsame k (Nat.zero_le k) hk⟩
    · left
      obtain ⟨j, rfl⟩ : ∃ j, r = j + 1 := ⟨r - 1, by omega⟩
      have hj : ((j + 1 : Nat) : Int) - 1 = j := by omega
      have hindex : (j : Int) + i = (i + j : Nat) := by omega
      obtain ⟨c, hc, hsym⟩ := charAt_of_lt s (i := i + j) (by omega)
      refine ⟨j, c, ?_, hin, ⟨by omega, hstop (by omega), fun k hjk hk => hsame k (by omega) hk⟩, hsym⟩
      rw [if_neg hr0, hj, hindex, hc, ok_bind]
  · right
    right
    rw [if_neg hin]
    exact ⟨rfl, by omega⟩

/-- The turn where the byte is looked up, if it is the index that an `unsigned char` is. -/
theorem AtStop.turn {chr : Byte → Int} {bmBc bmGs : IntArray} {i j : Nat} {c : Byte} (h : AtStop s str m i j c)
    (hlook : bmLook s str m i = .ok (.inl (j, c))) (hbc : LastPlaces str m bmBc) (hgs : GoodShifts str m bmGs)
    (hchr : chr c = uchar c) :
    ∃ i' : Nat, bmTurn chr s str m bmBc bmGs i = .ok (.inl (i' : Int)) ∧ MovesAtStop s.sym s.used str.sym m i i' := by
  obtain ⟨hin, hstop, hsym⟩ := h
  obtain ⟨last, hbcv, _, hlast, rfl⟩ := hbc.getAt c
  obtain ⟨v, hgsv, hleast⟩ := hgs j hstop.1
  have hshift : (if (j : Int) - last > v then (j : Int) - last else v) = max (j - last) v := by
    split <;> omega
  have hmove : (i : Int) + max (j - last) (v : Int) = (i + (max ((j : Int) - last) v).toNat : Nat) := by omega
  rw [← hsym] at hlast
  refine ⟨i + (max ((j : Int) - last) v).toNat, ?_, hin, j, last, v, hstop, hlast, hleast, hmove.symm⟩
  rw [bmTurn_eq, hlook, ok_bind]
  simp only [hchr, hbcv, hgsv.getAt, ok_bind, hshift, hmove]

theorem Window.bmTurn (hs : s.Text) {start : Nat} {bmBc bmGs : IntArray} (hm : m ≤ str.bytes.length)
    (hused : m ≤ s.used) (hbc : LastPlaces str m bmBc) (hgs : GoodShifts str m bmGs) {ti : Int} {i : Nat}
    (h : Window s str m start ti i) :
    (∃ i', Cstr.bmTurn uchar s str m bmBc bmGs ti = .ok (.inl (i' : Nat)) ∧ Window s str m start i' i' ∧ i < i') ∨
      ∃ r, Cstr.bmTurn uchar s str m bmBc bmGs ti = .ok (.inr r) ∧ FirstOccurs s.sym s.used str.sym m start r := by
  obtain rfl := h.eq
  rcases bmLook_spec hs hm hused h.bound with ⟨j, c, hlook, hat⟩ | ⟨hlook, hocc⟩ | ⟨hlook, hend⟩
  · left
    obtain ⟨i', hturn, hmoves⟩ := hat.turn hlook hbc hgs rfl
    obtain ⟨hlt, hbound⟩ := hmoves.bounds
    exact ⟨i', hturn, h.move hlt (by omega) hmoves.not_occurs fun d hd1 hd => hmoves.skips hd1 hd, hlt⟩
  · right
    refine ⟨i, ?_, FirstOccurs.of_found h.le h.none_before hocc⟩
    rw [bmTurn_eq, hlook, ok_bind]
  · right
    refine ⟨-1, ?_, FirstOccurs.of_end hend h.none_before⟩
    rw [bmTurn_eq, hlook, ok_bind]

end

/-! ## The search -/

section
variable {s : Cstr} {str : CString} {start : Nat}

/-- The search of a pattern of 1 to 255 bytes that is not longer than what is left of the text. -/
theorem boyerMooreSearchFirst_eq (hs : s.Text) (hm1 : 1 ≤ str.bytes.length) (hmax : str.bytes.length < searchMaxLen)
    (hin : start + str.bytes.length ≤ s.used) :
    boyerMooreSearchFirst uchar s str start = (do
      let bmBc ← call (bmBadCharShiftTable uchar str str.bytes.length)
      let bmGs ← call (bmGoodSuffixShiftTable str str.bytes.length)
      call s.cstrShow
      loop (bmTurn uchar s str str.bytes.length bmBc bmGs) start) := by
  have hlt := hs.used_lt
  simp only [searchMaxLen] at hmax
  have hlen : i32 str.bytes.length = str.bytes.length := i32_eq (by omega) (by omega)
  have hsum : unsigned (start + (str.bytes.length : Int)) = start + str.bytes.length := unsigned_add (by omega)
  have hint : i32 start = start := i32_eq (by omega) (by omega)
  have hcheck : ¬(start + str.bytes.length > s.used ∨ (str.bytes.length : Int) = 0) := by omega
  have hshort : ¬(str.bytes.length : Int) ≥ searchMaxLen := by
    simp only [searchMaxLen]
    omega
  simp only [boyerMooreSearchFirst, hlen, hsum, if_neg (show ¬start > s.used by omega), if_neg hcheck, if_neg hshort,
    hint]

/-- A pattern that is longer than what is left is refused. -/
theorem boyerMooreSearchFirst_short (hs : s.Text) (hm1 : 1 ≤ str.bytes.length) (hmax : str.bytes.length < searchMaxLen)
    (hout : s.used < start + str.bytes.length) : boyerMooreSearchFirst uchar s str start = pure (-1) := by
  have hlt := hs.used_lt
  simp only [searchMaxLen] at hmax
  have hlen : i32 str.bytes.length = str.bytes.length := i32_eq (by omega) (by omega)
  simp only [boyerMooreSearchFirst, hlen]
  by_cases hused : start > s.used
  · rw [if_pos hused]
  · have hsum : unsigned (start + (str.bytes.length : Int)) = start + str.bytes.length := unsigned_add (by omega)
    rw [if_neg hused, hsum, if_pos (Or.inl hout)]

/-- Past what it prints, the search returns the first occurrence. -/
theorem boyerMoore_returns (hs : s.Text) (hm1 : 1 ≤ str.bytes.length) (hmax : str.bytes.length < searchMaxLen)
    (h : s.used < start + str.bytes.length ∨ (0 : Byte) ∈ s.data) :
    ∃ r, Returns (boyerMooreSearchFirst uchar s str start) r ∧ FirstMatch s.content str.bytes start r := by
  simp only [firstMatch_iff hs]
  by_cases hout : s.used < start + str.bytes.length
  · rw [boyerMooreSearchFirst_short hs hm1 hmax hout]
    exact ⟨-1, Returns.pure _, FirstOccurs.of_short hout⟩
  · have hnul : (0 : Byte) ∈ s.data := by
      rcases h with h | h
      · exact absurd h hout
      · exact h
    obtain ⟨bmBc, hbc, hplaces⟩ := bmBadCharShiftTable_spec (Nat.le_refl _) hmax
    obtain ⟨bmGs, hgs, hleast⟩ := bmGoodSuffixShiftTable_spec hm1 (Nat.le_refl _)
    have hshow : s.cstrShow = .ok () := if_pos hnul
    obtain ⟨r, hr, hfirst⟩ := windowLoop_returns (fun ti i hw => hw.bmTurn hs (Nat.le_refl _) (by omega) hplaces hleast)
      (show start ≤ s.used by omega)
    rw [boyerMooreSearchFirst_eq hs hm1 hmax (by omega)]
    exact ⟨r, (Returns.call hbc).bind ((Returns.call hgs).bind ((Returns.call hshow).bind hr)), hfirst⟩

/-- An object without a NUL is printed past its end. -/
theorem boyerMoore_stuck (hs : s.Text) (hm1 : 1 ≤ str.bytes.length) (hmax : str.bytes.length < searchMaxLen)
    (hin : start + str.bytes.length ≤ s.used) (hnul : (0 : Byte) ∉ s.data) :
    Stuck (boyerMooreSearchFirst uchar s str start) := by
  obtain ⟨bmBc, hbc, _⟩ := bmBadCharShiftTable_spec (Nat.le_refl _) hmax
  obtain ⟨bmGs, hgs, _⟩ := bmGoodSuffixShiftTable_spec hm1 (Nat.le_refl _)
  have hshow : s.cstrShow = .error .read := if_neg hnul
  rw [boyerMooreSearchFirst_eq hs hm1 hmax hin]
  refine Stuck.call_bind hbc (Stuck.call_bind hgs ?_)
  exact Stuck.call_error hshow

end

/-- **The search ends and returns the first occurrence**, for a pattern of 1 to 255 bytes, exactly if it returns before
it prints the text or the text has a NUL somewhere in its block. -/
theorem boyerMoore_iff {s : Cstr} (hs : s.Text) (str : CString) (hm1 : 1 ≤ str.bytes.length)
    (hmax : str.bytes.length < searchMaxLen) (start : Nat) :
    (∃ r, Returns (boyerMooreSearchFirst uchar s str start) r ∧ FirstMatch s.content str.bytes start r) ↔
      s.used < start + str.bytes.length ∨ (0 : Byte) ∈ s.data := by
  constructor
  · rintro ⟨r, hr, _⟩
    by_contra h
    rw [not_or] at h
    exact (boyerMoore_stuck hs hm1 hmax (by omega) h.2).not_returns r hr
  · exact boyerMoore_returns hs hm1 hmax

/-- "aba" in "abcaba". -/
theorem boyerMoore_right_abcaba :
    (∃ r, Returns (boyerMooreSearchFirst uchar (small [97, 98, 99, 97, 98, 97]) ⟨[97, 98, 97], by decide⟩ 0) r ∧
        FirstMatch (small [97, 98, 99, 97, 98, 97]).content [97, 98, 97] 0 r) ↔
      6 < 0 + 3 ∨ (0 : Byte) ∈ (small [97, 98, 99, 97, 98, 97]).data :=
  boyerMoore_iff (small_valid (by decide)).text ⟨[97, 98, 97], by decide⟩ (by decide) (by decide) 0

/-- A block of 32 bytes that is full, and the byte behind the content is not a NUL. -/
def full : Cstr := ⟨23, 23, List.replicate 24 97⟩

theorem full_valid : full.Valid := ⟨by decide, by decide, by decide, by decide⟩

/-- "a" in "aa..a" of 23 bytes, not ended: it is at index 0. -/
theorem not_boyerMoore_right_full :
    ¬∃ r, Returns (boyerMooreSearchFirst uchar full ⟨[97], by decide⟩ 0) r ∧ FirstMatch full.content [97] 0 r := by
  rintro ⟨r, hr, _⟩
  exact (boyerMoore_stuck full_valid.text (by decide) (by decide) (by decide) (by decide)).not_returns r hr

end TinyUtils.Cstr
