import TinyUtils.Cstr.Calls
import TinyUtils.Lib.Atomic
/-!
# The operations on the heap (`c_utils/cstr.c:133-465`)

Here the ten operations that may return `NULL` run statement by statement on the objects by address, so that
what a call has written before it returns can be seen. `realloc` may move the block, and then the old address
is dead. An operation that returns `NULL` has changed nothing (`null_atomic`).

| here | there |
| --- | --- |
| `deref`, `setCap`, `setUsed`     | a read through the pointer, a write to a field of the header |
| `storeAt`, `setEndAt`            | `memcpy` / `memmove` / `memset` to `data`, `CSTR_SET_END` |
| `reallocAt`                      | `dst = (Cstr *)realloc(dst,new_cap)` |
| `Source`                         | the source of the bytes: another object or a C string |
-/

namespace TinyUtils.Cstr.OnHeap

open Block Atomicity

/-- What `realloc` does: it fails, or it moves the block or not and a new byte holds what the function says. -/
abbrev Alloc := Option (Bool × (Nat → Byte))

def Alloc.mem (al : Alloc) : Mem := al.map Prod.snd

/-- A computation on the objects by address. -/
abbrev Prog := StateT Objects M

def deref (p : Nat) : Prog Cstr := fun h =>
  match fetch h p with
  | some s => .ok (s, h)
  | none => .error .read

def modify (p : Nat) (f : Cstr → M Cstr) : Prog Unit := fun h =>
  match fetch h p with
  | some s =>
    match f s with
    | .ok s => .ok ((), h.set p (some s))
    | .error e => .error e
  | none => .error .write

def setCap (p cap : Nat) : Prog Unit := modify p fun s => .ok { s with cap := cap }

def setUsed (p used : Nat) : Prog Unit := modify p fun s => .ok { s with used := used }

def storeAt (p i : Nat) (bs : List Byte) : Prog Unit := modify p fun s => s.store i bs

def setEndAt (p : Nat) : Prog Unit := modify p Cstr.setEnd

def reallocAt (al : Alloc) (p size : Nat) : Prog (Option Nat) := fun h =>
  match fetch h p, al with
  | none, _ => .error .write
  | some _, none => .ok (none, h)
  | some s, some (moves, fresh) =>
    let s := { s with data := resize fresh s.data (size - hdrSize) }
    if moves then .ok (some h.length, h.set p none ++ [some s]) else .ok (some p, h.set p (some s))

inductive Source
  | obj (p : Nat)
  | str (s : CString)

/-- `memcpy` from the source: its `n` bytes from index `i`. -/
def Source.load (src : Source) (i n : Nat) : Prog (List Byte) := fun h =>
  match src with
  | .str s =>
    match Cstr.load s.memory i n with
    | .ok bs => .ok (bs, h)
    | .error e => .error e
  | .obj p =>
    match fetch h p with
    | some s =>
      match Cstr.load s.data i n with
      | .ok bs => .ok (bs, h)
      | .error e => .error e
    | none => .error .read

/-! ## The operations -/

/-- `if(new_cap != old) dst = (Cstr *)realloc(dst,new_cap);` -/
def reallocUnless (al : Alloc) (dst old newCap : Nat) : Prog (Option Nat) :=
  if newCap ≠ old then reallocAt al dst newCap else return some dst

def refit (al : Alloc) (dst total : Nat) : Prog (Option Nat) := do
  let s ← deref dst
  let newCap := calFitCap (u32 s.totalSize) (u32 total)
  if newCap < minSize ∨ newCap > maxSize then return none
  else
    match ← reallocUnless al dst s.totalSize newCap with
    | none => return none
    | some dst => do
      setCap dst (newCap - (hdrSize + 1))
      return some dst

def assignFrom (al : Alloc) (dst : Nat) (src : Source) (n : Nat) : Prog (Option Nat) := do
  match ← refit al dst (n + hdrSize + 1) with
  | none => return none
  | some dst => do
    setUsed dst n
    let bytes ← src.load 0 n
    storeAt dst 0 bytes
    let s ← deref dst
    storeAt dst s.used (List.replicate (sub32 s.cap s.used) 0)
    setEndAt dst
    return some dst

def assign (al : Alloc) (dst src : Nat) : Prog (Option Nat) := do
  let s ← deref src
  assignFrom al dst (.obj src) s.used

def assignStr (al : Alloc) (dst : Nat) : Option CString → Prog (Option Nat)
  | none => return none
  | some src => assignFrom al dst (.str src) src.strlen

def copyFrom (al : Alloc) (dst : Nat) (src : Source) (begin len : Nat) : Prog (Option Nat) := do
  match ← refit al dst (len + hdrSize + 1) with
  | none => return none
  | some dst => do
    let s ← deref dst
    setUsed dst (if len > s.used then len else s.used)
    let bytes ← src.load begin len
    storeAt dst 0 bytes
    return some dst

def copy (al : Alloc) (dst src begin len : Nat) : Prog (Option Nat) := do
  let s ← deref src
  match ← copyFrom al dst (.obj src) begin (copyLen s.used len) with
  | none => return none
  | some dst => do
    setEndAt dst
    return some dst

def copyStr (al : Alloc) (dst : Nat) (src : Option CString) (begin len : Nat) : Prog (Option Nat) :=
  match src with
  | none => return some dst
  | some src =>
    if src.strlen = 0 then return some dst
    else copyFrom al dst (.str src) begin (copyLen src.strlen len)

def subFrom (al : Alloc) (substr : Nat) (src : Source) (n begin len : Nat) : Prog (Option Nat) :=
  match subLen n begin len with
  | none => return none
  | some len => do
    match ← refit al substr (len + hdrSize + 1) with
    | none => return none
    | some substr => do
      setUsed substr len
      let bytes ← src.load begin len
      storeAt substr 0 bytes
      setEndAt substr
      return some substr

def subCstr (al : Alloc) (substr cstr begin len : Nat) : Prog (Option Nat) := do
  let s ← deref cstr
  subFrom al substr (.obj cstr) s.used begin len

def subStr (al : Alloc) (substr : Nat) (str : CString) (begin len : Nat) : Prog (Option Nat) :=
  subFrom al substr (.str str) str.strlen begin len

def grow (al : Alloc) (dst totalUsed : Nat) : Prog (Option Nat) := do
  let s ← deref dst
  if totalUsed > s.cap then
    let newCap := calFitCap (u32 s.totalSize) (u32 (totalUsed + hdrSize + 1))
    if newCap < minSize then return none
    else
      match ← reallocUnless al dst s.cap newCap with
      | none => return none
      | some dst => do
        setCap dst (newCap - (hdrSize + 1))
        return some dst
  else return some dst

def insertFrom (al : Alloc) (dst pos : Nat) (src : Source) (n begin len : Nat) : Prog (Option Nat) :=
  match insertLen n begin len with
  | none => return some dst
  | some len => do
    let s ← deref dst
    let totalUsed := u32 (s.used + len)
    let oldUsed := s.used
    match ← grow al dst totalUsed with
    | none => return none
    | some dst => do
      setUsed dst totalUsed
      let tail ← (Source.obj dst).load pos (sub32 oldUsed pos)
      storeAt dst (pos + len) tail
      let bytes ← src.load begin len
      storeAt dst pos bytes
      setEndAt dst
      return some dst

def insert (al : Alloc) (dst pos istr begin len : Nat) : Prog (Option Nat) := do
  let s ← deref istr
  insertFrom al dst pos (.obj istr) s.used begin len

def insertStr (al : Alloc) (dst pos : Nat) (str : Option CString) (begin len : Nat) : Prog (Option Nat) :=
  match str with
  | none => return some dst
  | some str => insertFrom al dst pos (.str str) str.strlen begin len

def appendBlock (al : Alloc) (dst newCap : Nat) : Prog (Option Nat) := do
  let s ← deref dst
  if newCap - (hdrSize + 1) > s.cap then reallocAt al dst newCap else return some dst

def appendFrom (al : Alloc) (dst : Nat) (src : Source) (n : Nat) : Prog (Option Nat) :=
  if n = 0 then return some dst
  else do
    let s ← deref dst
    let totalCap := u32 (s.totalSize + n)
    if totalCap > maxSize then return none
    else
      let newCap := calFitCap (u32 s.totalSize) (u32 (s.used + hdrSize + 1 + n))
      if newCap < minSize then return none
      else
        match ← appendBlock al dst newCap with
        | none => return none
        | some dst => do
          let bytes ← src.load 0 n
          let s ← deref dst
          storeAt dst s.used bytes
          setCap dst (newCap - (hdrSize + 1))
          let s ← deref dst
          setUsed dst (u32 (s.used + n))
          let s ← deref dst
          storeAt dst s.used (List.replicate (sub32 s.cap s.used) 0)
          return some dst

def append (al : Alloc) (dst str : Nat) : Prog (Option Nat) := do
  let s ← deref str
  appendFrom al dst (.obj str) s.used

def appendStr (al : Alloc) (dst : Nat) : Option CString → Prog (Option Nat)
  | none => return none
  | some str => appendFrom al dst (.str str) str.strlen

/-- An operation with its arguments. -/
inductive Op
  | assign (src : Nat)
  | assignStr (src : Option CString)
  | copy (src begin len : Nat)
  | copyStr (src : Option CString) (begin len : Nat)
  | subCstr (cstr begin len : Nat)
  | subStr (str : CString) (begin len : Nat)
  | insert (pos istr begin len : Nat)
  | insertStr (pos : Nat) (str : Option CString) (begin len : Nat)
  | append (str : Nat)
  | appendStr (str : Option CString)

/-- The operation on the object at `dst`. -/
def Op.run (al : Alloc) (dst : Nat) : Op → Prog (Option Nat)
  | .assign src => OnHeap.assign al dst src
  | .assignStr src => OnHeap.assignStr al dst src
  | .copy src begin len => OnHeap.copy al dst src begin len
  | .copyStr src begin len => OnHeap.copyStr al dst src begin len
  | .subCstr cstr begin len => OnHeap.subCstr al dst cstr begin len
  | .subStr str begin len => OnHeap.subStr al dst str begin len
  | .insert pos istr begin len => OnHeap.insert al dst pos istr begin len
  | .insertStr pos str begin len => OnHeap.insertStr al dst pos str begin len
  | .append str => OnHeap.append al dst str
  | .appendStr str => OnHeap.appendStr al dst str

/-! ## A call that returns `NULL` -/

theorem reads_deref (p : Nat) : Reads (deref p) := by
  intro h s h' hs
  unfold deref at hs
  cases hf : fetch h p <;> rw [hf] at hs <;> cases hs
  rfl

/-- `realloc` that fails leaves the block alone. -/
theorem atomic_reallocAt (al : Alloc) (p size : Nat) : Atomic (reallocAt al p size) := by
  intro h h' hs
  unfold reallocAt at hs
  cases hf : fetch h p with
  | none =>
    rw [hf] at hs
    cases hs
  | some s =>
    rw [hf] at hs
    cases al with
    | none =>
      cases hs
      rfl
    | some al =>
      obtain ⟨moves, fresh⟩ := al
      cases moves <;> cases hs

theorem atomic_pure (r : Option Nat) : Atomic (pure r : Prog (Option Nat)) := (Reads.pure r).atomic

theorem atomic_reallocUnless (al : Alloc) (dst old newCap : Nat) : Atomic (reallocUnless al dst old newCap) :=
  Atomic.ite (atomic_reallocAt al dst newCap) (atomic_pure (some dst))

theorem atomic_refit (al : Alloc) (dst total : Nat) : Atomic (refit al dst total) := by
  refine Atomic.bind (reads_deref dst) fun s => Atomic.ite (atomic_pure none) ?_
  refine Atomic.bind_commits (atomic_reallocUnless al dst _ _) (atomic_pure none) fun dst => ?_
  exact Commits.bind fun _ => Commits.pure dst

theorem atomic_assignFrom (al : Alloc) (dst : Nat) (src : Source) (n : Nat) : Atomic (assignFrom al dst src n) := by
  refine Atomic.bind_commits (atomic_refit al dst _) (atomic_pure none) fun dst => ?_
  refine Commits.bind fun _ => Commits.bind fun _ => Commits.bind fun _ => Commits.bind fun _ => ?_
  exact Commits.bind fun _ => Commits.bind fun _ => Commits.pure dst

theorem atomic_copyFrom (al : Alloc) (dst : Nat) (src : Source) (begin len : Nat) :
    Atomic (copyFrom al dst src begin len) := by
  refine Atomic.bind_commits (atomic_refit al dst _) (atomic_pure none) fun dst => ?_
  refine Commits.bind fun _ => Commits.bind fun _ => Commits.bind fun _ => Commits.bind fun _ => ?_
  exact Commits.pure dst

theorem atomic_subFrom (al : Alloc) (substr : Nat) (src : Source) (n begin len : Nat) :
    Atomic (subFrom al substr src n begin len) := by
  unfold subFrom
  split
  · exact atomic_pure none
  · refine Atomic.bind_commits (atomic_refit al substr _) (atomic_pure none) fun substr => ?_
    refine Commits.bind fun _ => Commits.bind fun _ => Commits.bind fun _ => Commits.bind fun _ => ?_
    exact Commits.pure substr

theorem atomic_grow (al : Alloc) (dst totalUsed : Nat) : Atomic (grow al dst totalUsed) := by
  refine Atomic.bind (reads_deref dst) fun s => Atomic.ite ?_ (atomic_pure (some dst))
  refine Atomic.ite (atomic_pure none) ?_
  refine Atomic.bind_commits (atomic_reallocUnless al dst _ _) (atomic_pure none) fun dst => ?_
  exact Commits.bind fun _ => Commits.pure dst

theorem atomic_insertFrom (al : Alloc) (dst pos : Nat) (src : Source) (n begin len : Nat) :
    Atomic (insertFrom al dst pos src n begin len) := by
  unfold insertFrom
  split
  · exact atomic_pure (some dst)
  · refine Atomic.bind (reads_deref dst) fun s => ?_
    refine Atomic.bind_commits (atomic_grow al dst _) (atomic_pure none) fun dst => ?_
    refine Commits.bind fun _ => Commits.bind fun _ => Commits.bind fun _ => Commits.bind fun _ => ?_
    exact Commits.bind fun _ => Commits.bind fun _ => Commits.pure dst

theorem atomic_appendBlock (al : Alloc) (dst newCap : Nat) : Atomic (appendBlock al dst newCap) :=
  Atomic.bind (reads_deref dst) fun _ => Atomic.ite (atomic_reallocAt al dst newCap) (atomic_pure (some dst))

theorem atomic_appendFrom (al : Alloc) (dst : Nat) (src : Source) (n : Nat) : Atomic (appendFrom al dst src n) := by
  refine Atomic.ite (atomic_pure (some dst)) ?_
  refine Atomic.bind (reads_deref dst) fun s => Atomic.ite (atomic_pure none) (Atomic.ite (atomic_pure none) ?_)
  refine Atomic.bind_commits (atomic_appendBlock al dst _) (atomic_pure none) fun dst => ?_
  refine Commits.bind fun _ => Commits.bind fun _ => Commits.bind fun _ => Commits.bind fun _ => ?_
  refine Commits.bind fun _ => Commits.bind fun _ => Commits.bind fun _ => Commits.bind fun _ => ?_
  exact Commits.pure dst

theorem atomic_run (al : Alloc) (dst : Nat) (op : Op) : Atomic (op.run al dst) := by
  cases op with
  | assign src => exact Atomic.bind (reads_deref src) fun s => atomic_assignFrom al dst _ _
  | assignStr src =>
    cases src with
    | none => exact atomic_pure none
    | some src => exact atomic_assignFrom al dst _ _
  | copy src begin len =>
    refine Atomic.bind (reads_deref src) fun s => ?_
    refine Atomic.bind_commits (atomic_copyFrom al dst _ _ _) (atomic_pure none) fun dst => ?_
    exact Commits.bind fun _ => Commits.pure dst
  | copyStr src begin len =>
    cases src with
    | none => exact atomic_pure (some dst)
    | some src => exact Atomic.ite (atomic_pure (some dst)) (atomic_copyFrom al dst _ _ _)
  | subCstr cstr begin len => exact Atomic.bind (reads_deref cstr) fun s => atomic_subFrom al dst _ _ _ _
  | subStr str begin len => exact atomic_subFrom al dst _ _ _ _
  | insert pos istr begin len => exact Atomic.bind (reads_deref istr) fun s => atomic_insertFrom al dst pos _ _ _ _
  | insertStr pos str begin len =>
    cases str with
    | none => exact atomic_pure (some dst)
    | some str => exact atomic_insertFrom al dst pos _ _ _ _
  | append str => exact Atomic.bind (reads_deref str) fun s => atomic_appendFrom al dst _ _
  | appendStr str =>
    cases str with
    | none => exact atomic_pure none
    | some str => exact atomic_appendFrom al dst _ _

/-- **An operation that returns `NULL` has changed no object**: the block of `dst` is there with its size, its
fields and all its bytes, and so is the block of the source. -/
theorem null_atomic (al : Alloc) (dst : Nat) (op : Op) {h h' : Objects} (hnull : op.run al dst h = .ok (none, h')) :
    h' = h := atomic_run al dst op h h' hnull

/-- The block does not hold 30 bytes, and `realloc` fails. -/
theorem null_atomic_appendStr :
    (Op.run none 0 (.appendStr (some ⟨List.replicate 10 122, by decide⟩)) [some (small (List.replicate 20 97))] =
        .ok (none, [some (small (List.replicate 20 97))])) ∧
      ∀ h', Op.run none 0 (.appendStr (some ⟨List.replicate 10 122, by decide⟩)) [some (small (List.replicate 20 97))] =
        .ok (none, h') → h' = [some (small (List.replicate 20 97))] :=
  ⟨by decide +kernel, fun _ hnull => null_atomic none 0 _ hnull⟩

end TinyUtils.Cstr.OnHeap
