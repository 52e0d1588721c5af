import Mathlib.Algebra.Group.Nat.Defs
import TinyUtils.Lib.Block
import TinyUtils.Lib.Checked
/-!
# `Cstr` (`c_utils/cstr.h:25-37`): the object, its block and C strings

An object is one block: two `uint32_t` fields and the bytes behind them. What `malloc` and `realloc`
leave in new bytes is not known, so each call gets it as an argument (`Mem`), and so is whether it fails.
An access outside the block of an object or of a C string is a fault, and so is one through `NULL`.

| here | there |
| --- | --- |
| `Cstr`, `totalSize`              | `struct _cstr_`, `CSTR_TOTAL_SIZE` (cstr.h:25-35), computed in `size_t` |
| `schar`, `uchar`                 | a plain `char` of the target, which is signed, and an `unsigned char`, as an `int` |
| `u32`, `sub32`                   | what is stored to or computed in `uint32_t` |
| `load`, `store`, `setEnd`        | `memcpy` / `memmove` from and to `data`, `memset`, `CSTR_SET_END` (cstr.h:37) |
| `CString`, `strlen`              | a `const char *`; its length as stored to a `uint32_t` |
| `malloc`, `realloc`              | the block without its header |
-/

namespace TinyUtils

open Block Checked

abbrev Byte := UInt8

/-- A plain `char` of the target, as an `int`. -/
def schar (c : Byte) : Int := if c < 128 then c.toNat else c.toNat - 256

/-- An `unsigned char`, as an `int`. -/
def uchar (c : Byte) : Int := c.toNat

/-- What stops a call. -/
inductive Fault
  /-- an access through `NULL` -/
  | null
  | read
  | write
deriving DecidableEq, Repr

abbrev M := Except Fault

def u32 (n : Nat) : Nat := n % 2 ^ 32

/-- `a - b` in `uint32_t`. -/
def sub32 (a b : Nat) : Nat := if b ≤ a then a - b else a + 2 ^ 32 - b

theorem u32_eq {n : Nat} (h : n < 2 ^ 32) : u32 n = n := Nat.mod_eq_of_lt h

theorem u32_eq_sub {n : Nat} (h : 2 ^ 32 ≤ n) (h2 : n < 2 ^ 33) : u32 n = n - 2 ^ 32 := by
  rw [u32, Nat.mod_eq_sub_mod h, Nat.mod_eq_of_lt (by omega)]

theorem u32_le (n : Nat) : u32 n ≤ n := Nat.mod_le _ _

theorem u32_lt (n : Nat) : u32 n < 2 ^ 32 := Nat.mod_lt _ (by decide)

theorem sub32_eq {a b : Nat} (h : b ≤ a) : sub32 a b = a - b := if_pos h

-- so that no unification computes with `2 ^ 32`
attribute [irreducible] u32 sub32

/-- `sizeof(Cstr)` -/
def hdrSize : Nat := 8

/-- `_CSTR_MIN_SIZE` -/
def minSize : Nat := 32

/-- `_CSTR_MAX_SIZE` -/
def maxSize : Nat := 512 * 1024 * 1024

/-- The outcome of an allocation: it fails, or a new byte holds what the function says. -/
abbrev Mem := Option (Nat → Byte)

/-- A C string. -/
structure CString where
  bytes : List Byte
  noNul : (0 : Byte) ∉ bytes

def CString.strlen (s : CString) : Nat := u32 s.bytes.length

/-- The bytes from the pointer on. -/
def CString.memory (s : CString) : List Byte := s.bytes ++ [0]

theorem CString.strlen_lt (s : CString) : s.strlen < 2 ^ 32 := u32_lt _

theorem CString.strlen_eq {s : CString} (h : s.bytes.length < 2 ^ 32) : s.strlen = s.bytes.length := u32_eq h

theorem CString.strlen_le (s : CString) : s.strlen ≤ s.memory.length := by
  have hle : s.strlen ≤ s.bytes.length := u32_le _
  simp only [memory, List.length_append, List.length_singleton]
  omega

structure Cstr where
  cap : Nat
  used : Nat
  data : List Byte
deriving DecidableEq, Repr

namespace Cstr

def totalSize (s : Cstr) : Nat := s.cap + hdrSize + 1

/-- The number of bytes of the block. -/
def block (s : Cstr) : Nat := hdrSize + s.data.length

/-- The string that the object holds. -/
def content (s : Cstr) : List Byte := s.data.take s.used

/-- The block of a `malloc` of `size` bytes. -/
def malloc (mem : Mem) (size : Nat) : Option (List Byte) := mem.map fun m => resize m [] (size - hdrSize)

/-- `realloc` to `size` bytes. -/
def realloc (mem : Mem) (s : Cstr) (size : Nat) : Option Cstr :=
  mem.map fun m => { s with data := resize m s.data (size - hdrSize) }

/-- Read `n` bytes at `p + i`. -/
def load (p : List Byte) (i n : Nat) : M (List Byte) :=
  match read p i n with
  | some bs => .ok bs
  | none => .error .read

/-- The bytes that `load` reads. -/
def slice (p : List Byte) (i n : Nat) : List Byte := (p.drop i).take n

/-- Write `bs` to `s->data + i`. -/
def store (s : Cstr) (i : Nat) (bs : List Byte) : M Cstr :=
  match write s.data i bs with
  | some data => .ok { s with data := data }
  | none => .error .write

def setEnd (s : Cstr) : M Cstr := s.store s.used [0]

theorem load_eq {p : List Byte} {i n : Nat} (h : i + n ≤ p.length) : load p i n = .ok (slice p i n) := by
  rw [load, read_eq h]
  rfl

theorem load_fault {p : List Byte} {i n : Nat} (h : p.length < i + n) : load p i n = .error .read := by
  rw [load, read_eq_none h]

theorem length_slice {p : List Byte} {i n : Nat} (h : i + n ≤ p.length) : (slice p i n).length = n := by
  rw [slice, List.length_take, List.length_drop]
  omega

theorem store_eq {cap used i : Nat} {data bs : List Byte} (h : i + bs.length ≤ data.length) :
    store ⟨cap, used, data⟩ i bs = .ok ⟨cap, used, put data i bs⟩ := by
  rw [store, write_eq h]

theorem store_fault {cap used i : Nat} {data bs : List Byte} (h : data.length < i + bs.length) :
    store ⟨cap, used, data⟩ i bs = .error .write := by
  rw [store, write_eq_none h]

theorem setEnd_eq {cap used : Nat} {data : List Byte} (h : used < data.length) :
    setEnd ⟨cap, used, data⟩ = .ok ⟨cap, used, put data used [0]⟩ :=
  store_eq (by rw [List.length_singleton]; exact h)

theorem setEnd_fault {cap used : Nat} {data : List Byte} (h : data.length ≤ used) :
    setEnd ⟨cap, used, data⟩ = .error .write :=
  store_fault (by rw [List.length_singleton]; exact Nat.lt_succ_of_le h)

/-- The object is well formed: the content fits the capacity, and the capacity fits the block and the
limits. -/
structure Valid (s : Cstr) : Prop where
  used_le : s.used ≤ s.cap
  cap_lt : s.cap < s.data.length
  min_le : minSize ≤ s.totalSize
  le_max : s.totalSize ≤ maxSize

/-- The content is terminated. -/
def Terminated (s : Cstr) : Prop := s.data[s.used]? = some 0

instance (s : Cstr) : Decidable s.Terminated := inferInstanceAs (Decidable (s.data[s.used]? = some 0))

/-- What a reader of a C string sees at `s->data`. -/
def cRead (s : Cstr) : List Byte := s.data.takeWhile (· != 0)

theorem Terminated.data_eq {s : Cstr} (h : s.Terminated) : s.data = s.content ++ 0 :: s.data.drop (s.used + 1) := by
  obtain ⟨hlt, hget⟩ := List.getElem?_eq_some_iff.1 h
  rw [content, ← hget, ← List.drop_eq_getElem_cons hlt, List.take_append_drop]

/-- A reader of the C string sees the content, if that has no NUL. -/
theorem Terminated.cRead_eq {s : Cstr} (h : s.Terminated) (h0 : (0 : Byte) ∉ s.content) : s.cRead = s.content := by
  rw [cRead, h.data_eq, List.takeWhile_append_of_pos]
  · simp
  · intro b hb
    simp only [bne_iff_ne]
    rintro rfl
    exact h0 hb

theorem Valid.used_lt {s : Cstr} (h : s.Valid) : s.used < s.data.length := Nat.lt_of_le_of_lt h.used_le h.cap_lt

theorem length_content {s : Cstr} (h : s.used ≤ s.data.length) : s.content.length = s.used := List.length_take_of_le h

theorem Valid.length_content {s : Cstr} (h : s.Valid) : s.content.length = s.used :=
  Cstr.length_content (Nat.le_of_lt h.used_lt)

theorem content_of_used_eq_zero {s : Cstr} (h : s.used = 0) : s.content = [] := by
  rw [content, h, List.take_zero]

/-- A content is far from 4 GiB. -/
theorem Valid.used_add_le {s : Cstr} (h : s.Valid) : s.used + hdrSize + 1 ≤ 2 ^ 29 := by
  have hused := h.used_le
  have hmax : s.cap + hdrSize + 1 ≤ 2 ^ 29 := h.le_max
  omega

/-- A block of 32 bytes that begins with the bytes and is filled with zeros. -/
def small (bs : List Byte) : Cstr := ⟨23, bs.length, bs ++ List.replicate (24 - bs.length) 0⟩

theorem small_valid {bs : List Byte} (h : bs.length ≤ 23) : (small bs).Valid := by
  refine ⟨h, ?_, ?_, ?_⟩
  · simp only [small, List.length_append, List.length_replicate]
    omega
  · simp only [small, totalSize]
    decide
  · simp only [small, totalSize]
    decide

theorem terminated_put {data : List Byte} {cap used : Nat} (h : used < data.length) :
    Terminated ⟨cap, used, put data used [0]⟩ := getElem?_put_one h

end Cstr

end TinyUtils
