import TinyUtils.Cstr.Cap
/-!
# The operations that make and change a `Cstr` (`c_utils/cstr.c:9-678`)

Each function takes its objects and the outcome of its `malloc` or `realloc`, and returns the object it
leaves, `none` for `NULL`. The pointers to objects are not `NULL` (the `assert`s of the source); a
`const char *` may be. A function over a `Cstr` and its `_str` sibling differ in where the source bytes are
and how many there are, so they are one definition over `src`, the bytes from the pointer on, and `n`.

| here | there |
| --- | --- |
| `newStr`, `newSize`, `new`         | `:9`, `:33`, `:55` |
| `refit`                            | the block for `total` bytes, as `:136-146`, `:165-174`, `:187-196`, `:213-222`, `:238-247`, `:265-274` |
| `assign`, `copy`, `subCstr`        | `:133`, `:182`, `:228`, with `assignStr` `:158`, `copyStr` `:203`, `subStr` `:254` |
| `grow`, `insert`, `insertStr`      | `:294-306`, `:281`, `:314` |
| `append`, `appendStr`              | `:417`, `:441` |
| `reverse`, `clear`                 | `:352`, `:479` |
| `trim`, `trimHdr`, `trimTail`      | `:494`, `:535`, `:561` |
| `tolower`, `toupper`               | `:654`, `:667` |
-/

namespace TinyUtils.Cstr

/-! ## Construction -/

def newSize (mem : Mem) (cap : Nat) : M (Option Cstr) :=
  let cap := roundUpPower2 (u32 (cap + hdrSize + 1))
  if cap = 0 ∨ cap > maxSize then .ok none
  else
    let cap := if cap < minSize then minSize else cap
    match malloc mem cap with
    | none => .ok none
    | some data => do
      let s ← setEnd ⟨cap - (hdrSize + 1), 0, data⟩
      .ok (some s)

def newStr (mem : Mem) : Option CString → M (Option Cstr)
  | none =>
    match malloc mem minSize with
    | none => .ok none
    | some data => do
      let s ← store ⟨minSize - (hdrSize + 1), 0, data⟩ 0 [0]
      let s ← s.setEnd
      .ok (some s)
  | some str => do
    match ← newSize mem str.strlen with
    | none => .error .null -- `memcpy` to `cstr->data`, and `cstr` is not checked
    | some s => do
      let bytes ← load str.memory 0 str.strlen
      let s ← s.store 0 bytes
      let s ← setEnd { s with used := str.strlen }
      .ok (some s)

/-- `cstr_new`: the source may be `NULL`. -/
def new (mem : Mem) : Option Cstr → M (Option Cstr)
  | none =>
    match malloc mem minSize with
    | none => .ok none
    | some data => do
      let s ← store ⟨minSize - (hdrSize + 1), 0, data⟩ 0 (List.replicate (minSize - (hdrSize + 1) + 1) 0)
      .ok (some s)
  | some cstr =>
    match malloc mem (cstr.cap + hdrSize + 1) with
    | none => .ok none
    | some data => do
      let bytes ← load cstr.data 0 (cstr.cap + 1)
      let s ← store ⟨cstr.cap, cstr.used, data⟩ 0 bytes
      let s ← s.setEnd
      .ok (some s)

/-! ## Assignment, copy, substring -/

/-- The block of `dst` for `total` bytes, or `NULL`. -/
def refit (mem : Mem) (dst : Cstr) (total : Nat) : Option Cstr :=
  let newCap := calFitCap (u32 dst.totalSize) (u32 total)
  if newCap < minSize ∨ newCap > maxSize then none
  else
    let dst := if newCap ≠ dst.totalSize then realloc mem dst newCap else some dst
    dst.map fun dst => { dst with cap := newCap - (hdrSize + 1) }

def assignFrom (mem : Mem) (dst : Cstr) (src : List Byte) (n : Nat) : M (Option Cstr) :=
  match refit mem dst (n + hdrSize + 1) with
  | none => .ok none
  | some dst => do
    let bytes ← load src 0 n
    let dst ← store { dst with used := n } 0 bytes
    let dst ← dst.store dst.used (List.replicate (sub32 dst.cap dst.used) 0)
    let dst ← dst.setEnd
    .ok (some dst)

def assign (mem : Mem) (dst src : Cstr) : M (Option Cstr) := assignFrom mem dst src.data src.used

def assignStr (mem : Mem) (dst : Cstr) : Option CString → M (Option Cstr)
  | none => .ok none
  | some src => assignFrom mem dst src.memory src.strlen

/-- The length that `copy` and `copyStr` use. -/
def copyLen (n len : Nat) : Nat := if len = 0 ∨ len > n then n else len

def copyFrom (mem : Mem) (dst : Cstr) (src : List Byte) (begin len : Nat) : M (Option Cstr) :=
  match refit mem dst (len + hdrSize + 1) with
  | none => .ok none
  | some dst => do
    let bytes ← load src begin len
    let dst ← store { dst with used := if len > dst.used then len else dst.used } 0 bytes
    .ok (some dst)

def copy (mem : Mem) (dst src : Cstr) (begin len : Nat) : M (Option Cstr) := do
  match ← copyFrom mem dst src.data begin (copyLen src.used len) with
  | none => .ok none
  | some dst => do
    let dst ← dst.setEnd
    .ok (some dst)

def copyStr (mem : Mem) (dst : Cstr) (src : Option CString) (begin len : Nat) : M (Option Cstr) :=
  match src with
  | none => .ok (some dst)
  | some src =>
    if src.strlen = 0 then .ok (some dst)
    else copyFrom mem dst src.memory begin (copyLen src.strlen len)

/-- The length that `subCstr` and `subStr` use, unless they refuse. -/
def subLen (n begin len : Nat) : Option Nat :=
  if begin > sub32 n 1 ∨ len = 0 ∨ len > n then none
  else some (if u32 (len + begin) > n then sub32 n begin else len)

def subFrom (mem : Mem) (substr : Cstr) (src : List Byte) (n begin len : Nat) : M (Option Cstr) :=
  match subLen n begin len with
  | none => .ok none
  | some len =>
    match refit mem substr (len + hdrSize + 1) with
    | none => .ok none
    | some substr => do
      let bytes ← load src begin len
      let substr ← store { substr with used := len } 0 bytes
      let substr ← substr.setEnd
      .ok (some substr)

def subCstr (mem : Mem) (substr cstr : Cstr) (begin len : Nat) : M (Option Cstr) :=
  subFrom mem substr cstr.data cstr.used begin len

def subStr (mem : Mem) (substr : Cstr) (str : CString) (begin len : Nat) : M (Option Cstr) :=
  subFrom mem substr str.memory str.strlen begin len

/-! ## Insertion -/

/-- The length that `insert` and `insertStr` use, unless there is nothing to insert. -/
def insertLen (n begin len : Nat) : Option Nat :=
  if begin > sub32 n 1 then none
  else
    let len := if len = 0 then n else len
    some (if u32 (begin + len) > n then sub32 n begin else len)

/-- The block of `dst` for a content of `totalUsed` bytes, or `NULL`. It only grows. -/
def grow (mem : Mem) (dst : Cstr) (totalUsed : Nat) : Option Cstr :=
  if totalUsed > dst.cap then
    let newCap := calFitCap (u32 dst.totalSize) (u32 (totalUsed + hdrSize + 1))
    if newCap < minSize then none
    else
      let dst := if newCap ≠ dst.cap then realloc mem dst newCap else some dst
      dst.map fun dst => { dst with cap := newCap - (hdrSize + 1) }
  else some dst

def insertFrom (mem : Mem) (dst : Cstr) (pos : Nat) (src : List Byte) (n begin len : Nat) : M (Option Cstr) :=
  match insertLen n begin len with
  | none => .ok (some dst)
  | some len =>
    let totalUsed := u32 (dst.used + len)
    let oldUsed := dst.used
    match grow mem dst totalUsed with
    | none => .ok none
    | some dst => do
      let dst := { dst with used := totalUsed }
      let tail ← load dst.data pos (sub32 oldUsed pos)
      let dst ← dst.store (pos + len) tail
      let bytes ← load src begin len
      let dst ← dst.store pos bytes
      let dst ← dst.setEnd
      .ok (some dst)

def insert (mem : Mem) (dst : Cstr) (pos : Nat) (istr : Cstr) (begin len : Nat) : M (Option Cstr) :=
  insertFrom mem dst pos istr.data istr.used begin len

def insertStr (mem : Mem) (dst : Cstr) (pos : Nat) (str : Option CString) (begin len : Nat) : M (Option Cstr) :=
  match str with
  | none => .ok (some dst)
  | some str => insertFrom mem dst pos str.memory str.strlen begin len

/-! ## Appending -/

/-- The block of `dst` for a result of `newCap` bytes, or `NULL`. -/
def appendBlock (mem : Mem) (dst : Cstr) (newCap : Nat) : Option Cstr :=
  if newCap - (hdrSize + 1) > dst.cap then realloc mem dst newCap else some dst

def appendFrom (mem : Mem) (dst : Cstr) (src : List Byte) (n : Nat) : M (Option Cstr) :=
  if n = 0 then .ok (some dst)
  else
    let totalCap := u32 (dst.totalSize + n)
    if totalCap > maxSize then .ok none
    else
      let newCap := calFitCap (u32 dst.totalSize) (u32 (dst.used + hdrSize + 1 + n))
      if newCap < minSize then .ok none
      else
        match appendBlock mem dst newCap with
        | none => .ok none
        | some dst => do
          let bytes ← load src 0 n
          let dst ← dst.store dst.used bytes
          let dst := { dst with cap := newCap - (hdrSize + 1), used := u32 (dst.used + n) }
          let dst ← dst.store dst.used (List.replicate (sub32 dst.cap dst.used) 0)
          .ok (some dst)

def append (mem : Mem) (dst str : Cstr) : M (Option Cstr) := appendFrom mem dst str.data str.used

def appendStr (mem : Mem) (dst : Cstr) : Option CString → M (Option Cstr)
  | none => .ok none
  | some str => appendFrom mem dst str.memory str.strlen

/-! ## Changes in place -/

/-- Read `s->data[i]`. -/
def byteAt (s : Cstr) (i : Nat) : M Byte :=
  match s.data[i]? with
  | some c => .ok c
  | none => .error .read

theorem byteAt_eq {s : Cstr} {i : Nat} {c : Byte} (h : s.data[i]? = some c) : s.byteAt i = .ok c := by
  rw [byteAt, h]

theorem Valid.byteAt_content {s : Cstr} (hv : s.Valid) {i : Nat} (hi : i < s.used) :
    ∃ c, s.byteAt i = .ok c ∧ s.content[i]? = some c := by
  have hlt := hv.used_lt
  have hget : s.data[i]? = some s.data[i] := List.getElem?_eq_getElem (by omega)
  refine ⟨s.data[i], byteAt_eq hget, ?_⟩
  rw [content, List.getElem?_take_of_lt hi, hget]

/-- `while(beg < end-1)`; a call makes at most `used` turns. -/
def reverseLoop : Nat → Nat → Nat → Cstr → M Cstr
  | 0, _, _, s => .ok s
  | turns + 1, beg, «end», s =>
    if beg + 1 < «end» then do
      let tmp ← s.byteAt beg
      let last ← s.byteAt («end» - 1)
      let s ← s.store beg [last]
      let s ← s.store («end» - 1) [tmp]
      reverseLoop turns (beg + 1) («end» - 1) s
    else .ok s

def reverse (s : Cstr) : M Cstr :=
  if s.used = 1 then .ok s else reverseLoop s.used 0 s.used s

def clear (s : Cstr) : M Cstr := do
  let s ← s.store 0 (List.replicate s.cap 0)
  .ok { s with used := 0 }

def isBlank (c : Byte) : Bool := c == 9 || c == 32

/-- `for(; beg < cstr->used; ++beg)`, with `turns` to go. -/
def skipBlank (s : Cstr) : Nat → Nat → M Nat
  | 0, beg => .ok beg
  | turns + 1, beg => do
    let c ← s.byteAt beg
    if isBlank c then skipBlank s turns (beg + 1) else .ok beg

/-- `for(; end > beg; --end)`, where the byte looked at is `data[end-1]`. -/
def skipBlankBack (s : Cstr) (beg : Nat) : Nat → M Nat
  | 0 => .ok 0
  | e + 1 =>
    if e + 1 > beg then do
      let c ← s.byteAt e
      if isBlank c then skipBlankBack s beg e else .ok (e + 1)
    else .ok (e + 1)

/-- The content becomes the `k` bytes from index `beg`, and the bytes up to the old end become zero. -/
def keep (s : Cstr) (beg k : Nat) : M Cstr := do
  let bytes ← load s.data beg k
  let s' ← store { s with used := k } 0 bytes
  s'.store k (List.replicate (s.used - k) 0)

def trim (s : Cstr) : M Cstr :=
  if s.used = 0 then .ok s
  else do
    let beg ← skipBlank s s.used 0
    if beg = s.used then .ok { s with used := 0 } -- `memset` of `used` bytes, and `used` is 0 by now
    else
      let e ← skipBlankBack s beg s.used
      if beg = 0 ∧ e = s.used then .ok s
      else if beg = 0 ∧ e < s.used then store { s with used := e } e (List.replicate (s.used - e) 0)
      else keep s beg (e - beg)

def trimHdr (s : Cstr) : M Cstr :=
  if s.used = 0 then .ok s
  else do
    let beg ← skipBlank s s.used 0
    if beg = s.used then .ok { s with used := 0 }
    else keep s beg (s.used - beg)

/-- `end` of the source is an `int` and one less than `e`. -/
def trimTail (s : Cstr) : M Cstr :=
  if s.used = 0 then .ok s
  else do
    let e ← skipBlankBack s 0 s.used
    if e = 1 then .ok { s with used := 0 }
    else store { s with used := e } e (List.replicate (s.used - e) 0)

/-- `for(i = 0; i < cstr->used; ++i) if(p(data[i])) data[i] = f(data[i]);` from `i` on, with `turns` to go. -/
def mapLoop (p : Byte → Bool) (f : Byte → Byte) : Nat → Nat → Cstr → M Cstr
  | 0, _, s => .ok s
  | turns + 1, i, s => do
    let c ← s.byteAt i
    let s ← if p c then s.store i [f c] else .ok s
    mapLoop p f turns (i + 1) s

def tolower (s : Cstr) : M Cstr := mapLoop (fun c => 65 ≤ c && c ≤ 90) (fun c => c + 32) s.used 0 s

def toupper (s : Cstr) : M Cstr := mapLoop (fun c => 97 ≤ c && c ≤ 122) (fun c => c - 32) s.used 0 s

end TinyUtils.Cstr
