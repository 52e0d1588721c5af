import TinyUtils.Cstr.Ops
import TinyUtils.Lib.Int32
import TinyUtils.Lib.Loop
import TinyUtils.Lib.Match
/-!
# The searches (`c_utils/cstr.c:104-107`, `:769-983`)

Each search first builds a table for the pattern and then moves over the text with a loop whose end is not in
its text, so it runs on fuel. An `int` is exact where it cannot leave its range, and what is stored to an `int`
from a wider type or compared with a `uint32_t` is converted (`i32`, `unsigned`). An array on the stack has no
values at first, and an access outside of it, or a read of what was never written, is a fault; so is a read
outside of `data` or behind the end of a C string.

Plain `char` is signed or not depending on the target, and it is an index of the tables here, so its value is an
argument (`chr`).

| here | there |
| --- | --- |
| `IntArray`, `getAt`, `setAt`           | `int a[n]` |
| `charAt`, `CString.charAt`             | `cstr->data[i]`, `str[i]` |
| `findFirst`, `sundaySearchFirst`       | `:104`, `:943` |
| `kmpNextTable`, `kmpSearchFirst`       | `:769`, `:806` |
| `bmBadCharShiftTable`, `bmSuffix`, `bmGoodSuffixShiftTable`, `boyerMooreSearchFirst` | `:852`, `:865`, `:879`, `:907` |
| `cstrShow`                             | `cstr_show` (`:689`), which prints `data` as a C string |
-/

namespace TinyUtils

open Checked Int32Bit Loops Matching

/-- An `int` array; an element that was not written has no value. -/
abbrev IntArray := List (Option Int)

namespace IntArray

/-- `int a[n];` -/
def fresh (n : Nat) : IntArray := List.replicate n none

def getAt (a : IntArray) (i : Int) : M Int :=
  match i with
  | .ofNat i =>
    match a[i]? with
    | some (some v) => .ok v
    | _ => .error .read
  | .negSucc _ => .error .read

def setAt (a : IntArray) (i v : Int) : M IntArray :=
  match i with
  | .ofNat i => if i < a.length then .ok (a.set i (some v)) else .error .write
  | .negSucc _ => .error .write

end IntArray

/-- `str[i]` -/
def CString.charAt (str : CString) (i : Int) : M Byte :=
  match i with
  | .ofNat i =>
    match str.memory[i]? with
    | some c => .ok c
    | none => .error .read
  | .negSucc _ => .error .read

/-- An `int` that meets a `uint32_t`. -/
def unsigned (z : Int) : Nat := (z % 2 ^ 32).toNat

namespace Cstr

/-- `_SEARCH_MAX_LEN` -/
def searchMaxLen : Nat := 256

/-- `s->data[i]` -/
def charAt (s : Cstr) (i : Int) : M Byte :=
  match i with
  | .ofNat i => s.byteAt i
  | .negSucc _ => .error .read

/-- A search, on fuel. -/
abbrev Search := Fuelled Fault

/-- `printf("..%s..", cstr->data)` reads up to a NUL. -/
def cstrShow (s : Cstr) : M Unit := if (0 : Byte) ∈ s.data then .ok () else .error .read

/-- `str[pi] == cstr->data[ti+pi]` -/
def sameAt (s : Cstr) (str : CString) (ti : Int) (pi : Nat) : M Bool := do
  let c ← str.charAt pi
  let d ← s.charAt (ti + pi)
  .ok (c == d)

section
variable (chr : Byte → Int)

/-! ## Sunday -/

/-- `shift[str[i]] = pat_len-i;` -/
def sundayEntry (str : CString) (patLen : Int) (i : Nat) (shift : IntArray) : M IntArray := do
  let c ← str.charAt i
  shift.setAt (chr c) (patLen - i)

/-- The two loops that fill `shift`. -/
def sundayShift (str : CString) (patLen : Int) : M IntArray :=
  forUp (sundayEntry chr str patLen) patLen.toNat 0 (List.replicate searchMaxLen (some (patLen + 1)))

/-- `while(ti <= cstr->used - pat_len)` -/
def sundayTurn (s : Cstr) (str : CString) (patLen : Int) (shift : IntArray) (ti : Int) : M (Int ⊕ Int) :=
  if unsigned ti ≤ unsigned (s.used - patLen) then do
    let pi ← scanUp (sameAt s str ti) patLen.toNat 0
    if (pi : Int) = patLen then .ok (.inr ti)
    else do
      let c ← s.charAt (ti + patLen)
      let v ← shift.getAt (chr c)
      .ok (.inl (ti + v))
  else .ok (.inr (-1))

def sundaySearchFirst (s : Cstr) (str : CString) (begin : Nat) : Search Int :=
  let patLen := i32 str.bytes.length
  if begin > s.used then pure (-1)
  else if unsigned (begin + patLen) > s.used ∨ patLen = 0 then pure (-1)
  else if patLen ≥ searchMaxLen then pure (-1)
  else do
    let shift ← call (sundayShift chr str patLen)
    loop (sundayTurn chr s str patLen shift) (i32 begin)

/-- `begin` is an `int` here and a `uint32_t` there. -/
def findFirst (s : Cstr) (str : CString) (begin : Int) : Search Int := sundaySearchFirst chr s str (unsigned begin)

/-! ## Boyer and Moore -/

/-- `shift_table[pattern[i]] = i;` -/
def bmBadCharEntry (pattern : CString) (i : Nat) (shiftTable : IntArray) : M IntArray := do
  let c ← pattern.charAt i
  shiftTable.setAt (chr c) i

def bmBadCharShiftTable (pattern : CString) (patLen : Int) : M IntArray :=
  forUp (bmBadCharEntry chr pattern) (unsigned patLen) 0 (List.replicate searchMaxLen (some (-1)))

end

/-- `pattern[pat_len-1-i+j] == pattern[j]` -/
def sameSuffix (pattern : CString) (patLen i j : Nat) : M Bool := do
  let c ← pattern.charAt (patLen - 1 - i + j)
  let d ← pattern.charAt j
  .ok (c == d)

/-- The body of the outer loop; `j` is one less than what the scan returns. -/
def bmSuffixEntry (pattern : CString) (patLen i : Nat) (suffix : IntArray) : M IntArray := do
  let j ← scanDown (sameSuffix pattern patLen i) (i + 1)
  suffix.setAt i (i - (j - 1))

def bmSuffix (pattern : CString) (patLen : Nat) : M IntArray := do
  let suffix ← (IntArray.fresh patLen).setAt (patLen - 1 : Int) patLen
  forDown (bmSuffixEntry pattern patLen) (patLen - 1) suffix

/-- `if(shift_table[j] == pat_len) shift_table[j] = s;` -/
def fillEntry (patLen s j : Nat) (shiftTable : IntArray) : M IntArray := do
  let v ← shiftTable.getAt j
  if v = patLen then shiftTable.setAt j s else .ok shiftTable

/-- The body of the first loop over the suffix lengths, on `j` and `shift_table`. -/
def bmPrefixEntry (patLen : Nat) (suffix : IntArray) (i : Nat) : Nat × IntArray → M (Nat × IntArray)
  | (j, shiftTable) => do
    let v ← suffix.getAt i
    if v = i + 1 then do
      let shiftTable ← forUp (fillEntry patLen (patLen - 1 - i)) (patLen - 1 - i - j) j shiftTable
      .ok (max j (patLen - 1 - i), shiftTable)
    else .ok (j, shiftTable)

/-- `shift_table[pat_len-1-suffix[i]] = pat_len - 1 - i;` -/
def bmMiddleEntry (patLen : Nat) (suffix : IntArray) (i : Nat) (shiftTable : IntArray) : M IntArray := do
  let v ← suffix.getAt i
  shiftTable.setAt (patLen - 1 - v) (patLen - 1 - i)

def bmGoodSuffixShiftTable (pattern : CString) (patLen : Nat) : M IntArray := do
  let suffix ← bmSuffix pattern patLen
  let (_, shiftTable) ← forDown (bmPrefixEntry patLen suffix) patLen (0, List.replicate patLen (some (patLen : Int)))
  forUp (bmMiddleEntry patLen suffix) (patLen - 1) 0 shiftTable

/-- `while(ti <= cstr->used - pat_len)`; `pi` is one less than what the scan returns. -/
def bmTurn (chr : Byte → Int) (s : Cstr) (str : CString) (patLen : Int) (bmBc bmGs : IntArray) (ti : Int) :
    M (Int ⊕ Int) :=
  if unsigned ti ≤ unsigned (s.used - patLen) then do
    let pi ← scanDown (sameAt s str ti) patLen.toNat
    if pi = 0 then .ok (.inr ti)
    else do
      let c ← s.charAt (pi - 1 + ti)
      let bc ← bmBc.getAt (chr c)
      let gs ← bmGs.getAt (pi - 1)
      .ok (.inl (ti + (if (pi - 1 : Int) - bc > gs then pi - 1 - bc else gs)))
  else .ok (.inr (-1))

def boyerMooreSearchFirst (chr : Byte → Int) (s : Cstr) (str : CString) (begin : Nat) : Search Int :=
  let patLen := i32 str.bytes.length
  if begin > s.used then pure (-1)
  else if unsigned (begin + patLen) > s.used ∨ patLen = 0 then pure (-1)
  else if patLen ≥ searchMaxLen then pure (-1)
  else do
    let bmBc ← call (bmBadCharShiftTable chr str patLen)
    let bmGs ← call (match patLen with
      | .ofNat patLen => bmGoodSuffixShiftTable str patLen
      | .negSucc _ => .error .write) -- an array of negative size
    call s.cstrShow
    loop (bmTurn chr s str patLen bmBc bmGs) (i32 begin)

/-! ## Knuth, Morris and Pratt -/

/-- `while(i < pat_len)`: a turn on `i`, `k` and `next_table`. -/
def kmpNextTurn (pattern : CString) (patLen : Int) : Int × Int × IntArray → M ((Int × Int × IntArray) ⊕ IntArray)
  | (i, k, nextTable) =>
    if i < patLen then do
      let c ← pattern.charAt i
      let d ← pattern.charAt k
      if c = d then do
        let nextTable ← nextTable.setAt i (k + 1)
        .ok (.inl (i + 1, k + 1, nextTable))
      else if k = 0 then do
        let nextTable ← nextTable.setAt i 0
        .ok (.inl (i + 1, k, nextTable))
      else do
        let k ← nextTable.getAt (k - 1)
        .ok (.inl (i, k, nextTable))
    else .ok (.inr nextTable)

/-- `printf("%d ", next_table[n]);` -/
def printEntry (nextTable : IntArray) (n : Nat) (_ : Unit) : M Unit := do
  let _ ← nextTable.getAt n
  .ok ()

def kmpNextTable (pattern : CString) (patLen : Int) (nextTable : IntArray) : Search IntArray := do
  let nextTable ← call (nextTable.setAt 0 0)
  let nextTable ← loop (kmpNextTurn pattern patLen) (1, 0, nextTable)
  call (forUp (printEntry nextTable) patLen.toNat 0 ())
  return nextTable

/-- `while(i < cstr->used && j < pat_len)`, where `pat_len` is a `uint32_t`: a turn on `i` and `j`. -/
def kmpTurn (s : Cstr) (pattern : CString) (patLen : Nat) (nextTable : IntArray) : Int × Int → M ((Int × Int) ⊕ Int)
  | (i, j) =>
    if unsigned i < s.used ∧ unsigned j < patLen then do
      let c ← s.charAt i
      let d ← pattern.charAt j
      if c = d then
        if unsigned j = patLen - 1 then .ok (.inr (i32 (i - (patLen - 1))))
        else .ok (.inl (i + 1, j + 1))
      else if j = 0 then .ok (.inl (i + 1, j))
      else do
        let j ← nextTable.getAt (j - 1)
        .ok (.inl (i, j))
    else .ok (.inr (-1))

/-- `memset(next_table,0,_SEARCH_MAX_LEN)` counts bytes, which are a quarter of the array. -/
def kmpArray : IntArray :=
  List.replicate (searchMaxLen / 4) (some 0) ++ IntArray.fresh (searchMaxLen - searchMaxLen / 4)

def kmpSearchFirst (s : Cstr) (pattern : Option CString) (begin : Nat) : Search Int :=
  match pattern with
  | none => pure (-1)
  | some pattern =>
    let patLen := pattern.strlen
    if begin > s.used then pure (-1)
    else if u32 (begin + patLen) > s.used ∨ patLen = 0 then pure (-1)
    else if patLen ≥ searchMaxLen then pure (-1)
    else do
      let nextTable ← kmpNextTable pattern patLen kmpArray
      loop (kmpTurn s pattern patLen nextTable) (i32 begin, 0)

end Cstr

/-! ## Arrays, text and pattern as what is read -/

namespace IntArray

variable {a : IntArray} {i j : Nat} {v w : Int}

/-- The element has the value. -/
def Holds (a : IntArray) (i : Nat) (v : Int) : Prop := a[i]? = some (some v)

theorem Holds.lt (h : Holds a i v) : i < a.length := (List.getElem?_eq_some_iff.1 h).1

theorem Holds.getAt (h : Holds a i v) : a.getAt i = .ok v := by
  rw [Holds] at h
  simp only [IntArray.getAt, h]

theorem setAt_eq (v : Int) (h : i < a.length) : a.setAt i v = .ok (a.set i (some v)) := if_pos h

theorem holds_set_self (v : Int) (h : i < a.length) : Holds (a.set i (some v)) i v := by
  rw [Holds, List.getElem?_set_self h]

theorem Holds.set_ne (h : Holds a j w) (hne : j ≠ i) : Holds (a.set i (some v)) j w := by
  rw [Holds, List.getElem?_set_ne hne.symm]
  exact h

theorem holds_replicate {n : Nat} (v : Int) (h : i < n) : Holds (List.replicate n (some v)) i v := by
  rw [Holds, List.getElem?_replicate_of_lt h]

end IntArray

namespace Cstr

/-- A table with an entry for each byte. -/
structure ByteTable (E : Byte → Int → Prop) (a : IntArray) : Prop where
  length : a.length = searchMaxLen
  entry : ∀ c : Byte, ∃ v, a.Holds c.toNat v ∧ E c v

namespace ByteTable

variable {E E' : Byte → Int → Prop} {a : IntArray} {c : Byte} {v : Int}

theorem replicate (h : ∀ c, E c v) : ByteTable E (List.replicate searchMaxLen (some v)) :=
  ⟨List.length_replicate, fun c => ⟨v, IntArray.holds_replicate v c.toNat_lt, h c⟩⟩

theorem getAt (h : ByteTable E a) (c : Byte) : ∃ v, a.getAt (uchar c) = .ok v ∧ E c v := by
  obtain ⟨v, hv, hentry⟩ := h.entry c
  exact ⟨v, hv.getAt, hentry⟩

/-- The entry of a byte is written, and the others say as much as they did. -/
theorem setAt (h : ByteTable E a) (hc : E' c v) (hother : ∀ d w, d ≠ c → E d w → E' d w) :
    ∃ a', a.setAt (uchar c) v = .ok a' ∧ ByteTable E' a' := by
  have hlt : c.toNat < a.length := by
    rw [h.length]
    exact c.toNat_lt
  refine ⟨a.set c.toNat (some v), IntArray.setAt_eq v hlt, ?_, ?_⟩
  · rw [List.length_set, h.length]
  · intro d
    by_cases hd : d = c
    · rw [hd]
      exact ⟨v, IntArray.holds_set_self v hlt, hc⟩
    · obtain ⟨w, hw, hentry⟩ := h.entry d
      exact ⟨w, hw.set_ne fun heq => hd (UInt8.toNat_inj.1 heq), hother d w hd hentry⟩

theorem mono (h : ByteTable E a) (himp : ∀ c v, E c v → E' c v) : ByteTable E' a := by
  refine ⟨h.length, fun c => ?_⟩
  obtain ⟨v, hv, hentry⟩ := h.entry c
  exact ⟨v, hv, himp c v hentry⟩

end ByteTable

/-- The text: what the searches ask of the object. -/
structure Text (s : Cstr) : Prop where
  used_le : s.used ≤ s.cap
  cap_lt : s.cap < s.data.length
  used_lt : s.used < 2 ^ 29

theorem Valid.text {s : Cstr} (h : s.Valid) : s.Text := by
  have hused := h.used_add_le
  exact ⟨h.used_le, h.cap_lt, by omega⟩

/-- The byte at the index, if there is one. -/
def sym (s : Cstr) (i : Nat) : Option Byte := s.data[i]?

end Cstr

def CString.sym (str : CString) (k : Nat) : Option Byte := str.memory[k]?

namespace Cstr

theorem charAt_of_lt (s : Cstr) {i : Nat} (h : i < s.data.length) : ∃ c, s.charAt i = .ok c ∧ s.sym i = some c := by
  have hget : s.data[i]? = some s.data[i] := List.getElem?_eq_getElem h
  exact ⟨s.data[i], by simp only [charAt, byteAt, hget], hget⟩

end Cstr

theorem CString.charAt_of_lt (str : CString) {k : Nat} (h : k < str.bytes.length) :
    ∃ c, str.charAt k = .ok c ∧ str.sym k = some c := by
  have hlt : k < str.memory.length := by simp only [CString.memory, List.length_append]; omega
  have hget : str.memory[k]? = some str.memory[k] := List.getElem?_eq_getElem hlt
  exact ⟨str.memory[k], by simp only [CString.charAt, hget], hget⟩

/-- A byte of the string. -/
theorem CString.sym_of_lt (str : CString) {k : Nat} (h : k < str.bytes.length) : str.sym k = str.bytes[k]? :=
  List.getElem?_append_left h

namespace Cstr

theorem sameAt_spec (s : Cstr) (str : CString) {i k : Nat} (hi : i + k < s.data.length) (hk : k < str.bytes.length) :
    ∃ b, sameAt s str i k = .ok b ∧ (b = true ↔ s.sym (i + k) = str.sym k) := by
  obtain ⟨c, hc, hsym⟩ := str.charAt_of_lt hk
  obtain ⟨d, hd, hsym'⟩ := charAt_of_lt s hi
  refine ⟨c == d, ?_, ?_⟩
  · rw [sameAt, hc, ok_bind, ← Int.natCast_add, hd, ok_bind]
  · rw [hsym, hsym', beq_iff_eq, Option.some_inj]
    exact eq_comm

/-- The first `q` bytes of the string occur in the content where they occur in what is read. -/
theorem occursAt_take_iff {s : Cstr} (hs : s.Text) {str : CString} {q : Nat} (hq : q ≤ str.bytes.length) (i : Nat) :
    OccursAt s.content (str.bytes.take q) i ↔ Occurs s.sym s.used str.sym q i := by
  have hcap := hs.used_le
  have hlen := hs.cap_lt
  have hcontent : s.content.length = s.used := List.length_take_of_le (by omega)
  have htake : (str.bytes.take q).length = q := List.length_take_of_le hq
  rw [OccursAt, Occurs, Occurs, hcontent, htake]
  refine and_congr_right fun hi => forall₂_congr fun k hk => ?_
  have htext : s.content[i + k]? = s.data[i + k]? := List.getElem?_take_of_lt (by omega)
  have hpat : (str.bytes.take q)[k]? = str.memory[k]? := by
    rw [List.getElem?_take_of_lt hk]
    exact (str.sym_of_lt (by omega)).symm
  simp only [htext, hpat]
  rfl

theorem firstMatch_iff {s : Cstr} (hs : s.Text) (str : CString) (start : Nat) (r : Int) :
    FirstMatch s.content str.bytes start r ↔ FirstOccurs s.sym s.used str.sym str.bytes.length start r := by
  have hocc : ∀ i, OccursAt s.content str.bytes i ↔ Occurs s.sym s.used str.sym str.bytes.length i := by
    intro i
    have htake := occursAt_take_iff hs (Nat.le_refl str.bytes.length) i
    rwa [List.take_length] at htake
  simp only [OccursAt] at hocc
  simp only [FirstMatch, FirstOccurs, hocc]

end Cstr

theorem unsigned_eq {z : Int} (h0 : 0 ≤ z) (h : z < 2 ^ 32) : unsigned z = z.toNat := by
  rw [unsigned, Int.emod_eq_of_lt h0 h]

theorem unsigned_natCast {n : Nat} (h : n < 2 ^ 32) : unsigned n = n := by
  rw [unsigned_eq (Int.natCast_nonneg n) (by omega)]
  rfl

theorem unsigned_lt (z : Int) : unsigned z < 2 ^ 32 := by
  unfold unsigned
  omega

/-- An `int` and what was stored to it are the same `uint32_t`. -/
theorem unsigned_i32 (z : Int) : unsigned (i32 z) = unsigned z := by rw [unsigned, i32_emod, unsigned]

/-- `begin + pat_len`, where the length is an `int`. -/
theorem unsigned_add {i m : Nat} (h : i + m < 2 ^ 32) : unsigned (i + (m : Int)) = i + m := by
  rw [← Int.natCast_add]
  exact unsigned_natCast h

/-! ## Tables of the last places

Both tables with an entry for each byte are filled by a loop over the pattern that writes something of the place to the
entry of the byte. The later of two places overwrites the earlier one, and what the table has at first is that of -1.
-/

namespace Cstr

section
variable {str : CString} {value : Int → Int} {n : Nat}

def placeTable (chr : Byte → Int) (str : CString) (value : Int → Int) (n : Nat) : M IntArray :=
  forUp (fun i table => do let c ← str.charAt i; table.setAt (chr c) (value i)) n 0
    (List.replicate searchMaxLen (some (value (-1))))

/-- The entry of a byte is what `value` is of its last place. -/
theorem placeTable_spec (value : Int → Int) (hn : n ≤ str.bytes.length) :
    ∃ table, placeTable uchar str value n = .ok table ∧
      ByteTable (fun c v => ∃ last, LastAt str.sym n (some c) last ∧ v = value last) table := by
  have hstep : ∀ i table, i < n → ByteTable (fun c v => ∃ last, LastAt str.sym i (some c) last ∧ v = value last) table →
      ∃ table', (do let c ← str.charAt i; table.setAt (uchar c) (value i)) = .ok table' ∧
        ByteTable (fun c v => ∃ last, LastAt str.sym (i + 1) (some c) last ∧ v = value last) table' := by
    intro i table hi htable
    obtain ⟨c, hc, hsym⟩ := str.charAt_of_lt (k := i) (by omega)
    rw [hc, ok_bind]
    apply htable.setAt
    · exact ⟨i, LastAt.here hsym, rfl⟩
    · rintro d w hd ⟨last, hlast, rfl⟩
      refine ⟨last, hlast.skip fun hdi => hd ?_, rfl⟩
      rw [hsym] at hdi
      exact (Option.some.inj hdi).symm
  have hstart : ByteTable (fun c v => ∃ last, LastAt str.sym 0 (some c) last ∧ v = value last)
      (List.replicate searchMaxLen (some (value (-1)))) := by
    apply ByteTable.replicate
    intro c
    exact ⟨-1, LastAt.zero, rfl⟩
  exact forUp_spec hstep (Nat.zero_add n) hstart

/-- The table is the same where the bytes of the pattern are the same indices. -/
theorem placeTable_congr {chr chr' : Byte → Int} (hn : n ≤ str.bytes.length)
    (hchr : ∀ k < n, ∀ c, str.sym k = some c → chr c = chr' c) :
    placeTable chr str value n = placeTable chr' str value n := by
  have hbody : ∀ i (table : IntArray), i < n → (do let c ← str.charAt i; table.setAt (chr c) (value i)) =
      (do let c ← str.charAt i; table.setAt (chr' c) (value i)) := by
    intro i table hi
    obtain ⟨c, hc, hsym⟩ := str.charAt_of_lt (k := i) (by omega)
    rw [hc, ok_bind, ok_bind, hchr i hi c hsym]
  exact forUp_congr hbody (Nat.zero_add n)

end

end Cstr

/-! ## A window that moves over the text -/

namespace Cstr

section
variable {s : Cstr} {str : CString} {m start : Nat}

/-- The window is at `i`, and nothing occurs before it from `start` on. -/
structure Window (s : Cstr) (str : CString) (m start : Nat) (ti : Int) (i : Nat) : Prop where
  eq : ti = i
  le : start ≤ i
  bound : i ≤ s.used + 1
  none_before : ∀ x, start ≤ x → x < i → ¬Occurs s.sym s.used str.sym m x

/-- `ti <= cstr->used - pat_len` -/
theorem unsigned_window_iff (hs : s.Text) {i : Nat} (hi : i ≤ s.used + 1) (hm : m ≤ s.used) :
    unsigned i ≤ unsigned (s.used - m : Int) ↔ i + m ≤ s.used := by
  have hlt := hs.used_lt
  rw [unsigned_natCast (by omega), unsigned_eq (by omega) (by omega)]
  omega

/-- The window moves on, past nothing that occurs. -/
theorem Window.move {i i' : Nat} (h : Window s str m start i i) (hlt : i < i') (hbound : i' ≤ s.used + 1)
    (hhere : ¬Occurs s.sym s.used str.sym m i)
    (hskip : ∀ d, 1 ≤ d → i + d < i' → ¬Occurs s.sym s.used str.sym m (i + d)) :
    Window s str m start i' i' := by
  have hle := h.le
  refine ⟨rfl, by omega, hbound, fun x hx hxi' => ?_⟩
  by_cases hxi : x < i
  · exact h.none_before x hx hxi
  · obtain ⟨d, rfl⟩ : ∃ d, x = i + d := ⟨x - i, by omega⟩
    by_cases hd : d = 0
    · subst hd
      exact hhere
    · exact hskip d (by omega) hxi'

/-- A loop whose turns move the window on, past nothing that occurs. -/
theorem windowLoop_returns {turn : Int → M (Int ⊕ Int)}
    (hturn : ∀ ti i, Window s str m start ti i →
      (∃ i', turn ti = .ok (.inl (i' : Nat)) ∧ Window s str m start i' i' ∧ i < i') ∨
        ∃ r, turn ti = .ok (.inr r) ∧ FirstOccurs s.sym s.used str.sym m start r) (hstart : start ≤ s.used) :
    ∃ r, Returns (loop turn start) r ∧ FirstOccurs s.sym s.used str.sym m start r := by
  have hstep : ∀ ti i, Window s str m start ti i →
      (∃ ti' i', turn ti = .ok (.inl ti') ∧ Window s str m start ti' i' ∧ s.used + 2 - i' < s.used + 2 - i) ∨
      ∃ r, turn ti = .ok (.inr r) ∧ FirstOccurs s.sym s.used str.sym m start r := by
    intro ti i hi
    rcases hturn ti i hi with ⟨i', hmove, hi', hlt⟩ | hlast
    · left
      have hbound := hi'.bound
      exact ⟨i', i', hmove, hi', by omega⟩
    · right
      exact hlast
  have hinit : Window s str m start start start := ⟨rfl, Nat.le_refl start, by omega, fun x h1 h2 => by omega⟩
  exact returns_loop (fun i => s.used + 2 - i) hstep hinit

end

end Cstr

end TinyUtils
