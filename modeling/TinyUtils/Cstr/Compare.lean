import Mathlib.Data.List.Basic
import TinyUtils.Cstr.Refit
/-!
# Comparison (`c_utils/cstr.c:81-116`)

`cstr_compare` goes over the two contents and subtracts the plain `char`s at the first difference, which
are signed on the target. `cstr_compare_str` is `strcmp`, which compares `unsigned char`s: the comment on
it says "binary compare just like strcmp". The two order two strings alike unless exactly one of the bytes
at the first difference is 128 or more (`compare_agree_iff`).

| here | there |
| --- | --- |
| `compareLoop`, `compareAt`, `compare` | `cstr_compare` (`:81`) |
| `strcmp`, `compareStr`     | `cstr_compare_str` (`:112`) |
-/

namespace TinyUtils.Cstr

open Block Checked

/-- `for(;i < cstr1->used && i < cstr2->used; ++i)`; a call makes at most `used` turns. -/
def compareLoop (a b : Cstr) : Nat → Nat → M Nat
  | 0, i => .ok i
  | turns + 1, i =>
    if i < a.used ∧ i < b.used then do
      let x ← a.byteAt i
      let y ← b.byteAt i
      if x ≠ y then .ok i else compareLoop a b turns (i + 1)
    else .ok i

/-- The result, with the loop left at `i`. -/
def compareAt (a b : Cstr) (i : Nat) : M Int :=
  if i = a.used ∧ i = b.used then .ok 0
  else if i = a.used then .ok (-1)
  else if i = b.used then .ok 1
  else do
    let x ← a.byteAt i
    let y ← b.byteAt i
    .ok (schar x - schar y)

def compare (a b : Cstr) : M Int := do
  let i ← compareLoop a b a.used 0
  compareAt a b i

/-- `strcmp` on what is there from the two pointers on. -/
def strcmp : List Byte → List Byte → M Int
  | x :: p, y :: q => if x ≠ y then .ok (uchar x - uchar y) else if x = 0 then .ok 0 else strcmp p q
  | _, _ => .error .read

def compareStr (a : Cstr) (str : CString) : M Int := strcmp a.data str.memory

/-! ## The order that a comparison decides -/

/-- The sign of the first difference of two strings, by the value of a byte; a proper prefix is smaller. -/
def lexSign (val : Byte → Int) : List Byte → List Byte → Int
  | [], [] => 0
  | [], _ :: _ => -1
  | _ :: _, [] => 1
  | x :: a, y :: b => if x ≠ y then (val x - val y).sign else lexSign val a b

/-- The first index at which the strings have different bytes, and the bytes. -/
def firstDiff : List Byte → List Byte → Option (Nat × Byte × Byte)
  | x :: a, y :: b => if x ≠ y then some (0, x, y) else (firstDiff a b).map fun d => (d.1 + 1, d.2)
  | _, _ => none

/-- What of `s` is compared with `a` by `compare`, its first `n` bytes, comes out as all of `s` does by `strcmp`:
at the first difference both bytes are plain ASCII or none is; if `n` cuts it off, the rest of `s` is
smaller anyway; and without a difference, nothing is cut off or `a` ends first. -/
def Alike (a s : List Byte) (n : Nat) : Prop :=
  match firstDiff a s with
  | some (i, x, y) => if i < n then (x < 128 ↔ y < 128) else y < x
  | none => n = s.length ∨ a.length < n

theorem uchar_range (c : Byte) : 0 ≤ uchar c ∧ uchar c < 256 := by
  have hlt : c.toNat < 256 := c.toNat_lt
  simp only [uchar]
  omega

theorem schar_cases (c : Byte) :
    (c < 128 ∧ uchar c < 128 ∧ schar c = uchar c) ∨ (¬c < 128 ∧ 128 ≤ uchar c ∧ schar c = uchar c - 256) := by
  have h128 : c < 128 ↔ c.toNat < 128 := UInt8.lt_iff_toNat_lt
  by_cases hlt : c < 128
  · have hnat := h128.1 hlt
    left
    refine ⟨hlt, ?_, if_pos hlt⟩
    simp only [uchar]
    omega
  · have hnat := mt h128.2 hlt
    right
    refine ⟨hlt, ?_, if_neg hlt⟩
    simp only [uchar]
    omega

theorem uchar_ne {x y : Byte} (hne : x ≠ y) : uchar x ≠ uchar y := by
  intro heq
  simp only [uchar] at heq
  exact hne (UInt8.toNat_inj.1 (by omega))

theorem sign_eq_iff {u v : Int} (hu : u ≠ 0) (hv : v ≠ 0) : u.sign = v.sign ↔ (u < 0 ↔ v < 0) := by
  rw [← Int.sign_eq_neg_one_iff_neg, ← Int.sign_eq_neg_one_iff_neg]
  rcases Int.lt_or_gt_of_ne hu with hu | hu <;> rcases Int.lt_or_gt_of_ne hv with hv | hv
  all_goals simp only [Int.sign_eq_neg_one_of_neg, Int.sign_eq_one_of_pos, hu, hv]
  all_goals decide

/-- The signs agree on two different bytes that are on the same side of 128, and on no others. -/
theorem sign_schar_iff {x y : Byte} (hne : x ≠ y) :
    (uchar x - uchar y).sign = (schar x - schar y).sign ↔ (x < 128 ↔ y < 128) := by
  have hu := uchar_ne hne
  have hx := uchar_range x
  have hy := uchar_range y
  rcases schar_cases x with ⟨hx1, hx2, hx3⟩ | ⟨hx1, hx2, hx3⟩ <;>
    rcases schar_cases y with ⟨hy1, hy2, hy3⟩ | ⟨hy1, hy2, hy3⟩ <;>
    rw [sign_eq_iff (by omega) (by omega), hx3, hy3] <;>
    simp only [hx1, hy1, iff_true, iff_false, not_true] <;> omega

theorem sign_uchar_eq_one (x y : Byte) : (uchar x - uchar y).sign = 1 ↔ y < x := by
  have hlt : y < x ↔ y.toNat < x.toNat := UInt8.lt_iff_toNat_lt
  rw [Int.sign_eq_one_iff_pos, hlt]
  simp only [uchar]
  omega

/-- `a` is greater than a longer string exactly if it is greater at the first difference. -/
theorem lexSign_eq_one {a s : List Byte} (hlt : a.length < s.length) :
    lexSign uchar a s = 1 ↔ Alike a s 0 := by
  induction a generalizing s with
  | nil =>
    cases s with
    | nil => simp at hlt
    | cons y s => simp [lexSign, Alike, firstDiff]
  | cons x a ih =>
    cases s with
    | nil => simp at hlt
    | cons y s =>
      by_cases hne : x ≠ y
      · simp only [lexSign, Alike, firstDiff, if_pos hne]
        exact sign_uchar_eq_one x y
      · have hlt' : a.length < s.length := by simpa using hlt
        have hs : 0 ≠ s.length := by omega
        simp only [lexSign, if_neg hne]
        rw [ih hlt']
        simp only [Alike, firstDiff, if_neg hne]
        cases firstDiff a s with
        | none => simp [hs]
        | some d => simp

theorem lexSign_take_iff {a s : List Byte} {n : Nat} (hn : n ≤ s.length) (hcut : n < s.length → a.length < s.length) :
    lexSign uchar a s = lexSign schar a (s.take n) ↔ Alike a s n := by
  induction a generalizing s n with
  | nil => cases s <;> cases n <;> simp_all [lexSign, Alike, firstDiff]
  | cons x a ih =>
    cases s with
    | nil => simp_all [lexSign, Alike, firstDiff]
    | cons y s =>
      cases n with
      | zero => exact lexSign_eq_one (hcut (Nat.succ_pos _))
      | succ n =>
        by_cases hne : x ≠ y
        · simp [lexSign, Alike, firstDiff, if_pos hne, sign_schar_iff hne]
        · simp only [List.take_succ_cons, lexSign, if_neg hne]
          rw [ih (by simpa using hn) (by simpa using hcut)]
          simp only [Alike, firstDiff, if_neg hne]
          cases firstDiff a s with
          | none => simp
          | some d => simp

/-! ## The functions decide it -/

/-- `strcmp` of two strings that are ended. -/
theorem strcmp_sign {a s p q : List Byte} (ha : (0 : Byte) ∉ a) (hs : (0 : Byte) ∉ s) :
    ∃ v, strcmp (a ++ 0 :: p) (s ++ 0 :: q) = .ok v ∧ v.sign = lexSign uchar a s := by
  induction a generalizing s with
  | nil =>
    cases s with
    | nil => exact ⟨0, by simp [strcmp], rfl⟩
    | cons y s =>
      have hy : (0 : Byte) ≠ y := fun h => hs (h ▸ List.mem_cons_self)
      refine ⟨uchar 0 - uchar y, by simp [strcmp, hy], ?_⟩
      have hrange := uchar_range y
      have hne := uchar_ne hy
      have h0 : uchar 0 = 0 := rfl
      exact Int.sign_eq_neg_one_of_neg (by omega)
  | cons x a ih =>
    have hx : x ≠ 0 := fun h => ha (h ▸ List.mem_cons_self)
    cases s with
    | nil =>
      refine ⟨uchar x - uchar 0, by simp [strcmp, hx], ?_⟩
      have hrange := uchar_range x
      have hne := uchar_ne hx
      have h0 : uchar 0 = 0 := rfl
      exact Int.sign_eq_one_of_pos (by omega)
    | cons y s =>
      by_cases hne : x ≠ y
      · exact ⟨uchar x - uchar y, by simp [strcmp, hne], by simp [lexSign, hne]⟩
      · obtain ⟨v, hv, hsign⟩ := ih (fun h => ha (List.mem_cons_of_mem _ h)) (fun h => hs (List.mem_cons_of_mem _ h))
        refine ⟨v, ?_, ?_⟩
        · simp only [List.cons_append, strcmp, if_neg hne, if_neg hx]
          exact hv
        · simp only [lexSign, if_neg hne]
          exact hsign

theorem Valid.byteAt_eq {s : Cstr} (hv : s.Valid) {i : Nat} (hi : i < s.used) :
    ∃ c, s.byteAt i = .ok c ∧ s.content.drop i = c :: s.content.drop (i + 1) := by
  obtain ⟨c, hc, hget⟩ := hv.byteAt_content hi
  obtain ⟨hlt, rfl⟩ := List.getElem?_eq_some_iff.1 hget
  exact ⟨_, hc, List.drop_eq_getElem_cons hlt⟩

theorem Valid.drop_content {s : Cstr} (hv : s.Valid) : s.content.drop s.used = [] :=
  List.drop_eq_nil_of_le (Nat.le_of_eq hv.length_content)

theorem compareLoop_sign {a b : Cstr} (ha : a.Valid) (hb : b.Valid) :
    ∀ {turns i : Nat}, a.used ≤ i + turns → i ≤ a.used → i ≤ b.used →
      ∃ v, (do let i ← compareLoop a b turns i; compareAt a b i) = .ok v ∧
        v.sign = lexSign schar (a.content.drop i) (b.content.drop i) := by
  -- one of the contents ends at `i`
  have hend {i : Nat} (hia : i ≤ a.used) (hib : i ≤ b.used) (hstop : ¬(i < a.used ∧ i < b.used)) :
      ∃ v, compareAt a b i = .ok v ∧ v.sign = lexSign schar (a.content.drop i) (b.content.drop i) := by
    by_cases hi : i = a.used
    · subst hi
      rw [ha.drop_content]
      by_cases hi' : a.used = b.used
      · rw [hi', hb.drop_content]
        exact ⟨0, by simp [compareAt, hi'], rfl⟩
      · obtain ⟨c, _, hc⟩ := hb.byteAt_eq (i := a.used) (by omega)
        rw [hc]
        exact ⟨-1, by simp [compareAt, hi'], rfl⟩
    · obtain rfl : i = b.used := by omega
      obtain ⟨c, _, hc⟩ := ha.byteAt_eq (i := b.used) (by omega)
      rw [hb.drop_content, hc]
      exact ⟨1, by simp [compareAt, hi], rfl⟩
  intro turns
  induction turns with
  | zero =>
    intro i hturns hia hib
    simp only [compareLoop, ok_bind]
    exact hend hia hib (by omega)
  | succ turns ih =>
    intro i hturns hia hib
    rw [compareLoop]
    by_cases hi : i < a.used ∧ i < b.used
    · obtain ⟨x, hx, hdropx⟩ := ha.byteAt_eq hi.1
      obtain ⟨y, hy, hdropy⟩ := hb.byteAt_eq hi.2
      simp only [if_pos hi, hx, hy, ok_bind, hdropx, hdropy, lexSign]
      by_cases hne : x ≠ y
      · simp only [if_pos hne, ok_bind]
        refine ⟨schar x - schar y, ?_, rfl⟩
        rw [compareAt, if_neg (by omega), if_neg (by omega), if_neg (by omega), hx, hy]
        rfl
      · simp only [if_neg hne]
        exact ih (by omega) (by omega) (by omega)
    · simp only [if_neg hi, ok_bind]
      exact hend hia hib hi

theorem compare_sign {a b : Cstr} (ha : a.Valid) (hb : b.Valid) :
    ∃ v, compare a b = .ok v ∧ v.sign = lexSign schar a.content b.content :=
  compareLoop_sign ha hb (Nat.le_of_eq (Nat.zero_add _).symm) (Nat.zero_le _) (Nat.zero_le _)

theorem compareStr_sign {a : Cstr} (ht : a.Terminated) (h0 : (0 : Byte) ∉ a.content) (str : CString) :
    ∃ v, compareStr a str = .ok v ∧ v.sign = lexSign uchar a.content str.bytes := by
  rw [compareStr, ht.data_eq]
  exact strcmp_sign h0 str.noNul

/-- **The two comparisons agree** on a string and the object made of it exactly if the strings are `Alike`. -/
theorem compare_agree_iff {a b : Cstr} {str : CString} {mem : Mem} (ha : a.Valid) (ht : a.Terminated)
    (h0 : (0 : Byte) ∉ a.content) (hb : newStr mem (some str) = .ok (some b)) :
    (∃ u v, compareStr a str = .ok u ∧ compare a b = .ok v ∧ u.sign = v.sign) ↔
      Alike a.content str.bytes str.strlen := by
  obtain ⟨hvb, hcontent⟩ := newStr_ok hb
  have hle : str.strlen ≤ str.bytes.length := u32_le _
  have hbytes : b.content = str.bytes.take str.strlen := by
    rw [hcontent, slice, List.drop_zero, CString.memory, List.take_append_of_le_length hle]
  -- a string that `strlen` cuts off is longer than any content
  have hcut : str.strlen < str.bytes.length → a.content.length < str.bytes.length := by
    intro hlt
    have hbig : ¬str.bytes.length < 2 ^ 32 := fun h => absurd (u32_eq h) (Nat.ne_of_lt hlt)
    have hused := ha.used_add_le
    rw [ha.length_content]
    omega
  obtain ⟨u, hu, hus⟩ := compareStr_sign ht h0 str
  obtain ⟨v, hv, hvs⟩ := compare_sign ha hvb
  rw [← lexSign_take_iff hle hcut, ← hbytes, ← hus, ← hvs]
  constructor
  · rintro ⟨u', v', hu', hv', hsign⟩
    rw [hu] at hu'
    rw [hv] at hv'
    cases hu'
    cases hv'
    exact hsign
  · intro hsign
    exact ⟨u, v, hu, hv, hsign⟩

/-- "ab" and "az". -/
theorem compare_agree_ascii :
    (∃ u v, compareStr (small [97, 98]) ⟨[97, 122], by decide⟩ = .ok u ∧
        compare (small [97, 98]) (small [97, 122]) = .ok v ∧ u.sign = v.sign) ↔
      Alike [97, 98] [97, 122] (CString.strlen ⟨[97, 122], by decide⟩) :=
  have hv : (small [97, 98]).Valid := small_valid (by decide)
  have hb : newStr (some fun _ => 0) (some ⟨[97, 122], by decide⟩) = .ok (some (small [97, 122])) := by decide +kernel
  compare_agree_iff hv (by decide) (by decide) hb

/-- "é" in UTF-8 is greater than "z" for `strcmp` and smaller for `compare`. -/
theorem not_compare_agree_utf8 :
    (small [195, 169]).Valid ∧ (small [195, 169]).Terminated ∧ (0 : Byte) ∉ (small [195, 169]).content ∧
      newStr (some fun _ => 0) (some ⟨[122], by decide⟩) = .ok (some (small [122])) ∧
      ¬∃ u v, compareStr (small [195, 169]) ⟨[122], by decide⟩ = .ok u ∧
        compare (small [195, 169]) (small [122]) = .ok v ∧ u.sign = v.sign := by
  refine ⟨small_valid (by decide), by decide, by decide, by decide +kernel, ?_⟩
  rintro ⟨u, v, hu, hv, hsign⟩
  have hu' : compareStr (small [195, 169]) ⟨[122], by decide⟩ = .ok 73 := by decide +kernel
  have hv' : compare (small [195, 169]) (small [122]) = .ok (-183) := by decide +kernel
  cases hu.symm.trans hu'
  cases hv.symm.trans hv'
  exact absurd hsign (by decide)

end TinyUtils.Cstr
