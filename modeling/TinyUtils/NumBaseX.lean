import TinyUtils.Lib.Checked
import TinyUtils.Lib.Int32
import TinyUtils.Lib.Loop
import TinyUtils.Lib.Numeral
/-!
# Addition in base 36 (`cpp_utils/num_base_x.cpp`)

`Add` turns its two strings around and adds them digit by digit over the digits of the first one, since the
second half of its loop condition, `vec_num2.size()`, has no `i <`. Of the three cases behind the loop the first
one, for numbers of one length, compares the index with the last position and not with the length, so it is never
taken, and the other two add one digit more at most. An index outside of a vector, which the source does not check, is
a fault, and so is `at` outside of a string.

`int i = num.length()-1` is what of a length fits an `int`, so a longer string is cut off at its end, or comes out
empty (`copied`). The digits of a sum are at most 71, so that a `uint32_t` is a `Nat` here.

| here | there |
| --- | --- |
| `ConvertMap`, `insert`, `find`      | `map<char,uint32_t>`; `operator[]` gives 0 for a key that is not there |
| `initNumConvertVec`, `initNumConvertMap` | `InitNumConvertVec` (`:12`), `InitNumConvertMap` (`:33`) |
| `Tables`                            | the two globals |
| `copyBack`                          | the loops that fill `vec_num1` and `vec_num2` |
| `add`                               | `Add` (`:49`) |
-/

namespace TinyUtils.NumBaseX

open Checked Int32Bit Loops Numeral

/-- What stops a call. -/
inductive Fault
  /-- `v[i]` outside of the vector -/
  | index
  /-- `at` throws -/
  | outOfRange
deriving DecidableEq, Repr

abbrev M := Except Fault

abbrev ConvertMap := UInt8 → Option Nat

def insert (m : ConvertMap) (key : UInt8) (value : Nat) : ConvertMap :=
  fun c => if c = key then (m c).or (some value) else m c

def find (m : ConvertMap) (c : UInt8) : Nat := (m c).getD 0

/-- `for(int i = begin; i <= end; ++i) v.push_back(i);` -/
def pushRange (v : List UInt8) (begin «end» : Nat) : List UInt8 :=
  v ++ (List.range' begin («end» + 1 - begin)).map UInt8.ofNat

/-- '0' to '9' and 'a' to 'z' -/
def initNumConvertVec (v : List UInt8) : List UInt8 := pushRange (pushRange v 48 57) 97 122

def initNumConvertMap (m : ConvertMap) : ConvertMap :=
  let m := (List.range' 0 10).foldl (fun m i => insert m (UInt8.ofNat (48 + i)) i) m
  (List.range' 10 26).foldl (fun m i => insert m (UInt8.ofNat (97 + i - 10)) i) m

structure Tables where
  vec : List UInt8
  map : ConvertMap

/-- After the two functions have run once. -/
def tables : Tables := ⟨initNumConvertVec [], initNumConvertMap fun _ => none⟩

/-- `v[i]` -/
def index (v : List UInt8) (i : Nat) : M UInt8 :=
  match v[i]? with
  | some c => .ok c
  | none => .error .index

/-- `num.at(i)` -/
def charAt (num : List UInt8) (i : Nat) : M UInt8 :=
  match num[i]? with
  | some c => .ok c
  | none => .error .outOfRange

/-- How many characters of a string of length `n` are copied, from index `(int)(n-1)` down. -/
def copied (n : Nat) : Nat := (i32 ((n : Int) - 1) + 1).toNat

/-- `vec_num.push_back(num.at(i));` -/
def copyTurn (num : List UInt8) (i : Nat) (v : List UInt8) : M (List UInt8) := do
  let c ← charAt num i
  .ok (v ++ [c])

def copyBack (num : List UInt8) : M (List UInt8) := forDown (copyTurn num) (copied num.length) []

/-- The digit of `tmp_num` at the end of `sum_num`, and the carry as `tmp_sum`. -/
def pushDigit (t : Tables) (tmpNum : Nat) (sumNum : List UInt8) : M (Nat × List UInt8) := do
  let c ← index t.vec (if tmpNum > 35 then tmpNum % 36 else tmpNum)
  .ok (if tmpNum > 35 then 1 else 0, sumNum ++ [c])

/-- `if(tmp_sum == 1) sum_num.push_back('1');` -/
def pushCarry (st : Nat × List UInt8) : List UInt8 := if st.1 = 1 then st.2 ++ [49] else st.2

def addTurn (t : Tables) (v1 v2 : List UInt8) (i : Nat) (st : Nat × List UInt8) : M (Nat × List UInt8) := do
  let a ← index v1 i
  let b ← index v2 i
  pushDigit t (find t.map a + find t.map b + st.1) st.2

/-- `v.size()-1` in `size_t` -/
def lastIndex (v : List UInt8) : Nat := (v.length + 2 ^ 64 - 1) % 2 ^ 64

/-- The three cases behind the loop. -/
def addTail (t : Tables) (v1 v2 : List UInt8) (i : Nat) (st : Nat × List UInt8) : M (List UInt8) :=
  if i = lastIndex v2 ∧ i = lastIndex v1 then .ok (pushCarry st)
  else if i = v1.length then do
    let b ← index v2 i
    let st ← pushDigit t (find t.map b + st.1) st.2
    .ok (pushCarry st)
  else do
    let a ← index v1 i
    let st ← pushDigit t (find t.map a + st.1) st.2
    .ok (pushCarry st)

/-- `for(; i < vec_num1.size() && vec_num2.size(); ++i)` makes a turn for each digit of the first number, or none. -/
def turns (v1 v2 : List UInt8) : Nat := if v2.length ≠ 0 then v1.length else 0

def add (t : Tables) (num1 num2 : List UInt8) : M (List UInt8) := do
  let v1 ← copyBack num1
  let v2 ← copyBack num2
  let st ← forUp (addTurn t v1 v2) (turns v1 v2) 0 (0, [])
  let sumNum ← addTail t v1 v2 (turns v1 v2) st
  .ok sumNum.reverse

/-! ## Numerals -/

def IsDigit (c : UInt8) : Prop := (48 ≤ c ∧ c ≤ 57) ∨ (97 ≤ c ∧ c ≤ 122)

instance (c : UInt8) : Decidable (IsDigit c) := inferInstanceAs (Decidable (_ ∨ _))

def digit (c : UInt8) : Nat := if c ≤ 57 then c.toNat - 48 else c.toNat - 87

structure IsNumeral (num : List UInt8) : Prop where
  nonempty : num ≠ []
  digits : ∀ c ∈ num, IsDigit c

def value (num : List UInt8) : Nat := Nat.ofDigits 36 (num.reverse.map digit)

theorem digit_spec {c : UInt8} (h : IsDigit c) :
    find tables.map c = digit c ∧ digit c < 36 ∧ (digit c = 0 ↔ c = 48) := by
  have hall : ∀ n < 256, IsDigit (UInt8.ofNat n) → find tables.map (UInt8.ofNat n) = digit (UInt8.ofNat n) ∧
      digit (UInt8.ofNat n) < 36 ∧ (digit (UInt8.ofNat n) = 0 ↔ UInt8.ofNat n = 48) := by
    decide +kernel
  have hc := hall c.toNat c.toNat_lt
  rw [UInt8.ofNat_toNat] at hc
  exact hc h

theorem index_digit {n : Nat} (h : n < 36) : ∃ c, index tables.vec n = .ok c ∧ IsDigit c ∧ digit c = n := by
  have hall : ∀ n < 36, tables.vec[n]? = some (tables.vec.getD n 0) ∧ IsDigit (tables.vec.getD n 0) ∧
      digit (tables.vec.getD n 0) = n := by
    decide +kernel
  obtain ⟨hget, hdigit⟩ := hall n h
  exact ⟨_, by rw [index, hget], hdigit⟩

/-! ## Strings from the back -/

theorem copied_le {n : Nat} (h : 0 < n) : copied n ≤ n := by
  have hle := i32_le (z := (n : Int) - 1) (by omega)
  unfold copied
  omega

theorem copied_le_pow (n : Nat) : copied n ≤ 2 ^ 31 := by
  have hrange := i32_range ((n : Int) - 1)
  unfold copied
  omega

theorem copied_eq {n : Nat} (h : n ≤ 2 ^ 31) : copied n = n := by
  rw [copied, i32_eq (by omega) (by omega)]
  omega

/-- The vector that `Add` makes of a string, the lowest digit first. -/
def back (num : List UInt8) : List UInt8 := (num.take (copied num.length)).reverse

theorem length_back {num : List UInt8} (h : num ≠ []) : (back num).length = copied num.length := by
  have hle := copied_le (List.length_pos_iff.2 h)
  rw [back, List.length_reverse, List.length_take_of_le hle]

/-- What is copied down to index `i`. -/
def Copied (num : List UInt8) (i : Nat) (v : List UInt8) : Prop := v = ((num.take (copied num.length)).drop i).reverse

theorem copyBack_eq {num : List UInt8} (h : num ≠ []) : copyBack num = .ok (back num) := by
  have hlen : (num.take (copied num.length)).length = copied num.length :=
    List.length_take_of_le (copied_le (List.length_pos_iff.2 h))
  have hstep : ∀ i v, i < copied num.length → Copied num (i + 1) v →
      ∃ v', copyTurn num i v = .ok v' ∧ Copied num i v' := by
    rintro i v hi rfl
    have hlt : i < (num.take (copied num.length)).length := by omega
    have hget : num[i]? = some (num.take (copied num.length))[i] := by
      rw [← List.getElem?_eq_getElem hlt, List.getElem?_take_of_lt hi]
    refine ⟨_, by rw [copyTurn, charAt, hget]; rfl, ?_⟩
    rw [Copied, List.drop_eq_getElem_cons hlt, List.reverse_cons]
  have hstart : Copied num (copied num.length) [] := by
    rw [Copied, List.drop_eq_nil_of_le (Nat.le_of_eq hlen), List.reverse_nil]
  obtain ⟨v, hv, hend⟩ := forDown_spec hstep hstart
  rw [copyBack, hv, hend, List.drop_zero, back]

theorem back_digits {num : List UInt8} (h : IsNumeral num) : ∀ c ∈ back num, IsDigit c := by
  intro c hc
  exact h.digits c (List.mem_of_mem_take (List.mem_reverse.1 hc))

/-! ## The sum -/

theorem pushDigit_spec {n : Nat} (h : n ≤ 71) (sumNum : List UInt8) :
    ∃ c carry, pushDigit tables n sumNum = .ok (carry, sumNum ++ [c]) ∧ IsDigit c ∧ digit c + 36 * carry = n ∧
      carry ≤ 1 := by
  by_cases hcarry : n > 35
  · obtain ⟨c, hc, hdigit, hval⟩ := index_digit (Nat.mod_lt n (show 0 < 36 by decide))
    refine ⟨c, 1, ?_, hdigit, by omega, Nat.le_refl 1⟩
    rw [pushDigit, if_pos hcarry, if_pos hcarry, hc]
    rfl
  · obtain ⟨c, hc, hdigit, hval⟩ := index_digit (show n < 36 by omega)
    refine ⟨c, 0, ?_, hdigit, by omega, Nat.zero_le 1⟩
    rw [pushDigit, if_neg hcarry, if_neg hcarry, hc]
    rfl

/-- After `i` turns. -/
structure Adding (v1 v2 : List UInt8) (i : Nat) (st : Nat × List UInt8) : Prop where
  carry : st.1 ≤ 1
  length : st.2.length = i
  digits : ∀ c ∈ st.2, IsDigit c
  sums : Sums 36 (st.2.map digit) st.1 ((v1.take i).map digit) ((v2.take i).map digit)

section
variable {v1 v2 : List UInt8} {i : Nat} {st : Nat × List UInt8}

theorem index_eq {v : List UInt8} (h : i < v.length) : index v i = .ok v[i] := by
  rw [index, List.getElem?_eq_getElem h]

theorem index_ne_ok {v : List UInt8} (h : v.length ≤ i) (c : UInt8) : index v i ≠ .ok c := by
  rw [index, List.getElem?_eq_none h]
  exact fun h => nomatch h

theorem map_take_succ {v : List UInt8} (h : i < v.length) :
    (v.take (i + 1)).map digit = (v.take i).map digit ++ [digit v[i]] := by
  rw [List.take_add_one, List.getElem?_eq_getElem h, List.map_append]
  rfl

theorem length_map_take {v : List UInt8} (h : i ≤ v.length) : ((v.take i).map digit).length = i := by
  rw [List.length_map, List.length_take_of_le h]

theorem Adding.turn (h : Adding v1 v2 i st) (hd1 : ∀ c ∈ v1, IsDigit c) (hd2 : ∀ c ∈ v2, IsDigit c)
    (h1 : i < v1.length) (h2 : i < v2.length) : ∃ st', addTurn tables v1 v2 i st = .ok st' ∧ Adding v1 v2 (i + 1) st' := by
  obtain ⟨hf1, hlt1, _⟩ := digit_spec (hd1 _ (List.getElem_mem h1))
  obtain ⟨hf2, hlt2, _⟩ := digit_spec (hd2 _ (List.getElem_mem h2))
  have hcarry := h.carry
  obtain ⟨c, carry, hpush, hc, hval, hle⟩ :=
    pushDigit_spec (show digit v1[i] + digit v2[i] + st.1 ≤ 71 by omega) st.2
  refine ⟨(carry, st.2 ++ [c]), ?_, hle, ?_, ?_, ?_⟩
  · rw [addTurn, index_eq h1, ok_bind, index_eq h2, ok_bind, hf1, hf2, hpush]
  · rw [List.length_append, List.length_singleton, h.length]
  · rw [List.forall_mem_append, List.forall_mem_singleton]
    exact ⟨h.digits, hc⟩
  · rw [map_take_succ h1, map_take_succ h2, List.map_append]
    have hlen : (st.2.map digit).length = i := by rw [List.length_map, h.length]
    apply h.sums.push
    · rw [hlen, length_map_take (Nat.le_of_lt h1)]
    · rw [hlen, length_map_take (Nat.le_of_lt h2)]
    · exact hval

theorem addLoop_adding (hd1 : ∀ c ∈ v1, IsDigit c) (hd2 : ∀ c ∈ v2, IsDigit c) {n : Nat} (h1 : n ≤ v1.length)
    (h2 : n ≤ v2.length) : ∃ st, forUp (addTurn tables v1 v2) n 0 (0, []) = .ok st ∧ Adding v1 v2 n st := by
  have hstep : ∀ i st, i < n → Adding v1 v2 i st →
      ∃ st', addTurn tables v1 v2 i st = .ok st' ∧ Adding v1 v2 (i + 1) st' :=
    fun i st hi h => h.turn hd1 hd2 (by omega) (by omega)
  have hstart : Adding v1 v2 0 (0, []) := ⟨Nat.zero_le 1, rfl, List.forall_mem_nil _, Sums.nil 36⟩
  exact forUp_spec hstep (Nat.zero_add n) hstart

/-- The carry that is left is the highest digit. -/
theorem pushCarry_spec {X Y : List Nat} (hcarry : st.1 ≤ 1) (hne : st.2 ≠ []) (hdigits : ∀ c ∈ st.2, IsDigit c)
    (hsums : Sums 36 (st.2.map digit) st.1 X Y) :
    IsNumeral (pushCarry st).reverse ∧ value (pushCarry st).reverse = Nat.ofDigits 36 X + Nat.ofDigits 36 Y := by
  have hone : IsDigit 49 ∧ digit 49 = 1 := by decide
  unfold pushCarry
  rw [value, List.reverse_reverse]
  by_cases h : st.1 = 1
  · rw [h] at hsums
    rw [if_pos h, List.map_append, List.map_singleton, hone.2]
    refine ⟨⟨?_, fun c hc => ?_⟩, hsums.close⟩
    · simp
    · rcases List.mem_append.1 (List.mem_reverse.1 hc) with hc | hc
      · exact hdigits c hc
      · rw [List.mem_singleton.1 hc]
        exact hone.1
  · have hzero : st.1 = 0 := by omega
    rw [hzero] at hsums
    rw [if_neg h]
    refine ⟨⟨?_, fun c hc => hdigits c (List.mem_reverse.1 hc)⟩, hsums.close_zero⟩
    rw [ne_eq, List.reverse_eq_nil_iff]
    exact hne

/-- A last digit of one of the numbers, and the carry. -/
theorem Adding.last (h : Adding v1 v2 i st) {d : UInt8} (hd : IsDigit d) {X Y : List Nat}
    (hpush : ∀ {c carry : Nat}, c + 36 * carry = digit d + st.1 →
      Sums 36 (st.2.map digit ++ [c]) carry X Y) :
    ∃ st', pushDigit tables (find tables.map d + st.1) st.2 = .ok st' ∧ IsNumeral (pushCarry st').reverse ∧
      value (pushCarry st').reverse = Nat.ofDigits 36 X + Nat.ofDigits 36 Y := by
  obtain ⟨hfind, hlt, _⟩ := digit_spec hd
  have hcarry := h.carry
  obtain ⟨c, carry, heq, hc, hval, hle⟩ := pushDigit_spec (show digit d + st.1 ≤ 71 by omega) st.2
  refine ⟨(carry, st.2 ++ [c]), by rw [hfind, heq], ?_⟩
  apply pushCarry_spec hle
  · simp
  · rw [List.forall_mem_append, List.forall_mem_singleton]
    exact ⟨h.digits, hc⟩
  · rw [List.map_append, List.map_singleton]
    exact hpush hval

theorem lastIndex_ne {v : List UInt8} (h : v.length ≤ 2 ^ 31) : lastIndex v ≠ v.length := by
  unfold lastIndex
  omega

end

/-- The number of the lowest `n` digits of what is copied. -/
def low (num : List UInt8) (n : Nat) : Nat := Nat.ofDigits 36 (((back num).take n).map digit)

section
variable {num1 num2 : List UInt8}

theorem add_eq (h1 : num1 ≠ []) (h2 : num2 ≠ []) : add tables num1 num2 = (do
    let st ← forUp (addTurn tables (back num1) (back num2)) (turns (back num1) (back num2)) 0 (0, [])
    let sumNum ← addTail tables (back num1) (back num2) (turns (back num1) (back num2)) st
    .ok sumNum.reverse : M (List UInt8)) := by
  rw [add, copyBack_eq h1, ok_bind, copyBack_eq h2, ok_bind]

/-- The second number has more digits than the first one; one more is added. -/
theorem add_longer (h1 : IsNumeral num1) (h2 : IsNumeral num2) (hlt : copied num1.length < copied num2.length) :
    ∃ r, add tables num1 num2 = .ok r ∧ IsNumeral r ∧
      value r = low num1 (copied num1.length) + low num2 (copied num1.length + 1) := by
  have hl1 := length_back h1.nonempty
  have hl2 := length_back h2.nonempty
  have hpow := copied_le_pow num1.length
  have hturns : turns (back num1) (back num2) = (back num1).length := if_pos (by omega)
  have hd2 := back_digits h2
  obtain ⟨st, hst, hadd⟩ := addLoop_adding (back_digits h1) hd2 (Nat.le_refl (back num1).length)
    (show (back num1).length ≤ (back num2).length by omega)
  have hlast : (back num1).length < (back num2).length := by omega
  obtain ⟨st', hpush, hnum, hval⟩ := hadd.last (hd2 _ (List.getElem_mem hlast))
    (X := ((back num1).take (back num1).length).map digit)
    (Y := ((back num2).take ((back num1).length + 1)).map digit) (by
      intro c carry hc
      rw [map_take_succ hlast]
      have hlen : (st.2.map digit).length = (back num1).length := by rw [List.length_map, hadd.length]
      apply hadd.sums.push_right _ hc
      rw [hlen, length_map_take (by omega)])
  refine ⟨(pushCarry st').reverse, ?_, hnum, ?_⟩
  · have hne := lastIndex_ne (v := back num1) (by omega)
    rw [add_eq h1.nonempty h2.nonempty, hturns, hst, ok_bind, addTail, if_neg (fun h => hne h.2.symm), if_pos rfl,
      index_eq hlast, ok_bind, hpush, ok_bind, ok_bind]
  · rw [hval, hl1]
    rfl

/-- Nothing of the second number is copied; the lowest digit of the first one is what is returned. -/
theorem add_first (h1 : IsNumeral num1) (h2 : IsNumeral num2) (hk1 : 0 < copied num1.length)
    (hk2 : copied num2.length = 0) :
    ∃ r, add tables num1 num2 = .ok r ∧ IsNumeral r ∧ value r = low num1 1 + low num2 0 := by
  have hl1 := length_back h1.nonempty
  have hl2 := length_back h2.nonempty
  have hturns : turns (back num1) (back num2) = 0 := if_neg (by omega)
  have hpos : 0 < (back num1).length := by omega
  have hstart : Adding (back num1) (back num2) 0 (0, []) :=
    ⟨Nat.zero_le 1, rfl, List.forall_mem_nil _, Sums.nil 36⟩
  obtain ⟨st', hpush, hnum, hval⟩ := hstart.last (back_digits h1 _ (List.getElem_mem hpos))
    (X := ((back num1).take 1).map digit) (Y := ((back num2).take 0).map digit) (by
      intro c carry hc
      rw [map_take_succ hpos]
      exact (hstart.sums.comm.push_right rfl hc).comm)
  refine ⟨(pushCarry st').reverse, ?_, hnum, hval⟩
  have hne : ¬(0 = lastIndex (back num2) ∧ 0 = lastIndex (back num1)) := by
    rw [lastIndex, hl2, hk2]
    omega
  rw [add_eq h1.nonempty h2.nonempty, hturns, forUp, ok_bind, addTail, if_neg hne, if_neg (by omega),
    index_eq hpos, ok_bind, hpush, ok_bind, ok_bind]

/-- In all other cases an index leaves its vector. -/
theorem add_ne_ok (h1 : IsNumeral num1) (h2 : IsNumeral num2) (hlonger : ¬copied num1.length < copied num2.length)
    (hfirst : ¬(0 < copied num1.length ∧ copied num2.length = 0)) (r : List UInt8) : add tables num1 num2 ≠ .ok r := by
  have hl1 := length_back h1.nonempty
  have hl2 := length_back h2.nonempty
  have hpow := copied_le_pow num1.length
  rw [add_eq h1.nonempty h2.nonempty]
  intro h
  obtain ⟨st, hloop, h⟩ := bind_eq_ok h
  obtain ⟨sumNum, htail, _⟩ := bind_eq_ok h
  -- the loop stays in bounds, so the lengths are the same, and the case behind it reads one digit more
  have hsame : (back num1).length = (back num2).length := by
    by_contra hne
    have hturns : turns (back num1) (back num2) = (back num1).length := if_pos (by omega)
    have hturn : ∀ st st', addTurn tables (back num1) (back num2) (back num2).length st ≠ .ok st' := by
      intro st st' hturn
      obtain ⟨_, _, hturn⟩ := bind_eq_ok hturn
      obtain ⟨c, hread, _⟩ := bind_eq_ok hturn
      exact index_ne_ok (Nat.le_refl _) c hread
    exact forUp_ne_ok hturn (Nat.zero_le _) (by omega) hloop
  have hturns : turns (back num1) (back num2) = (back num1).length := by
    unfold turns
    split <;> omega
  have hne := lastIndex_ne (v := back num1) (by omega)
  rw [hturns, addTail, if_neg (fun h => hne h.2.symm), if_pos rfl] at htail
  obtain ⟨c, hread, _⟩ := bind_eq_ok htail
  exact index_ne_ok (Nat.le_of_eq hsame.symm) c hread

end

/-! ## The digits that are read -/

/-- There are only zeros besides the lowest `n` digits; and if the string is cut off at its end, there are none but
zeros. -/
def Reads (num : List UInt8) (n : Nat) : Prop :=
  if copied num.length = num.length then ∀ c ∈ num.take (num.length - n), c = 48 else ∀ c ∈ num, c = 48

section
variable {num : List UInt8} {n : Nat}

theorem value_split (num : List UInt8) : value num =
    Nat.ofDigits 36 ((num.drop (copied num.length)).reverse.map digit) +
      36 ^ (num.length - copied num.length) * Nat.ofDigits 36 ((back num).map digit) := by
  have hrev : num.reverse = (num.drop (copied num.length)).reverse ++ back num := by
    rw [back, ← List.reverse_append, List.take_append_drop]
  rw [value, hrev, List.map_append, Nat.ofDigits_append, List.length_map, List.length_reverse, List.length_drop]

theorem low_le_back (num : List UInt8) (n : Nat) : low num n ≤ Nat.ofDigits 36 ((back num).map digit) := by
  rw [low, List.map_take]
  exact ofDigits_take_le _ _ _

theorem low_le (num : List UInt8) (n : Nat) : low num n ≤ value num := by
  rw [value_split]
  have hback := low_le_back num n
  have hpow : 1 * Nat.ofDigits 36 ((back num).map digit) ≤
      36 ^ (num.length - copied num.length) * Nat.ofDigits 36 ((back num).map digit) :=
    Nat.mul_le_mul_right _ (Nat.pow_pos (by decide))
  omega

theorem zeros_iff {l : List UInt8} (h : ∀ c ∈ l, IsDigit c) : (∀ d ∈ l.map digit, d = 0) ↔ ∀ c ∈ l, c = 48 := by
  rw [List.forall_mem_map]
  constructor
  · intro hz c hc
    exact (digit_spec (h c hc)).2.2.1 (hz c hc)
  · intro hz c hc
    exact (digit_spec (h c hc)).2.2.2 (hz c hc)

theorem value_eq_zero_iff (h : IsNumeral num) : value num = 0 ↔ ∀ c ∈ num, c = 48 := by
  rw [value, ofDigits_eq_zero_iff (by decide), zeros_iff (fun c hc => h.digits c (List.mem_reverse.1 hc))]
  simp only [List.mem_reverse]

/-- The lowest digits of what is copied are the number. -/
theorem reads_iff (h : IsNumeral num) : low num n = value num ↔ Reads num n := by
  have hle := copied_le (List.length_pos_iff.2 h.nonempty)
  unfold Reads
  by_cases hall : copied num.length = num.length
  · have hback : back num = num.reverse := by rw [back, hall, List.take_length]
    have hdigits : ∀ c ∈ (num.take (num.length - n)).reverse, IsDigit c := by
      intro c hc
      exact h.digits c (List.mem_of_mem_take (List.mem_reverse.1 hc))
    rw [if_pos hall, low, value, hback, List.map_take, ofDigits_take_eq_iff (by decide), ← List.map_drop,
      List.drop_reverse, zeros_iff hdigits]
    simp only [List.mem_reverse]
  · rw [if_neg hall, ← value_eq_zero_iff h]
    constructor
    -- what is cut off counts at least 36 times what is left
    · intro heq
      have hback := low_le_back num n
      have hsplit := value_split num
      have hpow : 36 * Nat.ofDigits 36 ((back num).map digit) ≤
          36 ^ (num.length - copied num.length) * Nat.ofDigits 36 ((back num).map digit) := by
        apply Nat.mul_le_mul_right
        exact Nat.le_pow (by omega)
      omega
    · intro hzero
      have := low_le num n
      omega

end

/-- The second number has more digits than the first one, and no other digits than its lowest ones up to one more
than those, but for zeros. (Or it only consists of zeros and is too long to be copied at all.) -/
def AddsRight (num1 num2 : List UInt8) : Prop :=
  (copied num1.length < copied num2.length ∧ Reads num1 (copied num1.length) ∧ Reads num2 (copied num1.length + 1)) ∨
    (0 < copied num1.length ∧ copied num2.length = 0 ∧ Reads num1 1 ∧ Reads num2 0)

section
variable {num1 num2 : List UInt8}

/-- For strings of ordinary lengths. -/
theorem addsRight_iff (h1 : num1.length ≤ 2 ^ 31) (h2 : num2.length ≤ 2 ^ 31) (hne : num2 ≠ []) :
    AddsRight num1 num2 ↔
      num1.length < num2.length ∧ ∀ c ∈ num2.take (num2.length - (num1.length + 1)), c = 48 := by
  have hpos := List.length_pos_iff.2 hne
  simp only [AddsRight, Reads, copied_eq h1, copied_eq h2, if_true, Nat.sub_self, List.take_zero]
  constructor
  · rintro (⟨hlt, _, hzeros⟩ | ⟨_, hzero, _⟩)
    · exact ⟨hlt, hzeros⟩
    · omega
  · rintro ⟨hlt, hzeros⟩
    exact Or.inl ⟨hlt, List.forall_mem_nil _, hzeros⟩

/-- **`Add` stays within its vectors and returns the sum** exactly if its numbers are `AddsRight`. -/
theorem add_iff (h1 : IsNumeral num1) (h2 : IsNumeral num2) :
    (∃ r, add tables num1 num2 = .ok r ∧ IsNumeral r ∧ value r = value num1 + value num2) ↔ AddsRight num1 num2 := by
  -- a sum is right if both of its parts are
  have hparts {n m : Nat} : low num1 n + low num2 m = value num1 + value num2 ↔ Reads num1 n ∧ Reads num2 m := by
    rw [← reads_iff h1, ← reads_iff h2]
    have hle1 := low_le num1 n
    have hle2 := low_le num2 m
    omega
  by_cases hlonger : copied num1.length < copied num2.length
  · obtain ⟨r, hr, hnum, hval⟩ := add_longer h1 h2 hlonger
    constructor
    · rintro ⟨r', hr', _, hsum⟩
      rw [hr] at hr'
      cases hr'
      exact Or.inl ⟨hlonger, hparts.1 (hval.symm.trans hsum)⟩
    · rintro (⟨_, hreads⟩ | ⟨_, hzero, _⟩)
      · exact ⟨r, hr, hnum, hval.trans (hparts.2 hreads)⟩
      · omega
  · by_cases hfirst : 0 < copied num1.length ∧ copied num2.length = 0
    · obtain ⟨r, hr, hnum, hval⟩ := add_first h1 h2 hfirst.1 hfirst.2
      constructor
      · rintro ⟨r', hr', _, hsum⟩
        rw [hr] at hr'
        cases hr'
        exact Or.inr ⟨hfirst.1, hfirst.2, hparts.1 (hval.symm.trans hsum)⟩
      · rintro (⟨hlt, _⟩ | ⟨_, _, hreads⟩)
        · exact absurd hlt hlonger
        · exact ⟨r, hr, hnum, hval.trans (hparts.2 hreads)⟩
    · constructor
      · rintro ⟨r, hr, _⟩
        exact absurd hr (add_ne_ok h1 h2 hlonger hfirst r)
      · rintro (⟨hlt, _⟩ | ⟨hpos, hzero, _⟩)
        · exact absurd hlt hlonger
        · exact absurd ⟨hpos, hzero⟩ hfirst

/-- "z" + "1z" = "2y" -/
theorem add_z_1z :
    (∃ r, add tables [122] [49, 122] = .ok r ∧ IsNumeral r ∧ value r = value [122] + value [49, 122]) ↔
      AddsRight [122] [49, 122] :=
  add_iff ⟨List.cons_ne_nil _ _, List.forall_mem_singleton.2 (by decide)⟩
    ⟨List.cons_ne_nil _ _, List.forall_mem_cons.2 ⟨by decide, List.forall_mem_singleton.2 (by decide)⟩⟩

/-- "1" + "1" -/
theorem not_add_1_1 :
    IsNumeral [49] ∧ ¬∃ r, add tables [49] [49] = .ok r ∧ IsNumeral r ∧ value r = value [49] + value [49] := by
  refine ⟨⟨List.cons_ne_nil _ _, List.forall_mem_singleton.2 (by decide)⟩, ?_⟩
  rintro ⟨r, hr, _⟩
  have hfault : add tables [49] [49] = .error .index := by decide +kernel
  cases hr.symm.trans hfault

end

end TinyUtils.NumBaseX
