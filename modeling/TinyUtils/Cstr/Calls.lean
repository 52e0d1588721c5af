import TinyUtils.Cstr.InPlace
import TinyUtils.Cstr.Splice
/-!
# Calls on a set of objects

The objects of a program by handle, and what one call does to them. A call that returns `NULL` leaves all
objects as they are, and a fault stops the program (`Except.error`). Objects are distinct blocks, so a call
on two of them is made with two handles that differ. A `uint32_t` argument may be any number here.

* `InRange`: the handles are of live objects, and the arguments select bytes of the operands
* `Fits`: the block gets the size that the result needs
* `Ends`: the result is terminated
-/

namespace TinyUtils.Cstr

/-- The objects by handle, `none` for one that was freed. -/
abbrev Objects := List (Option Cstr)

/-- The calls that keep the block of their object. -/
inductive InPlace
  | clear
  | reverse
  | tolower
  | toupper
  | trim
  | trimHdr
  | trimTail
deriving DecidableEq, Repr

def InPlace.run : InPlace → Cstr → M Cstr
  | clear => Cstr.clear
  | reverse => Cstr.reverse
  | tolower => Cstr.tolower
  | toupper => Cstr.toupper
  | trim => Cstr.trim
  | trimHdr => Cstr.trimHdr
  | trimTail => Cstr.trimTail

/-- A call, with handles for objects. -/
inductive Call
  | newStr (mem : Mem) (str : Option CString)
  | newSize (mem : Mem) (cap : Nat)
  | new (mem : Mem) (src : Option Nat)
  | free (i : Nat)
  | inPlace (f : InPlace) (i : Nat)
  | assign (mem : Mem) (dst src : Nat)
  | assignStr (mem : Mem) (dst : Nat) (src : Option CString)
  | copy (mem : Mem) (dst src begin len : Nat)
  | copyStr (mem : Mem) (dst : Nat) (src : Option CString) (begin len : Nat)
  | subCstr (mem : Mem) (substr cstr begin len : Nat)
  | subStr (mem : Mem) (substr : Nat) (str : CString) (begin len : Nat)
  | insert (mem : Mem) (dst pos istr begin len : Nat)
  | insertStr (mem : Mem) (dst pos : Nat) (str : Option CString) (begin len : Nat)
  | append (mem : Mem) (dst str : Nat)
  | appendStr (mem : Mem) (dst : Nat) (str : Option CString)

def fetch (os : Objects) (i : Nat) : Option Cstr := os[i]?.join

/-- A call that makes an object. -/
def create (os : Objects) (r : M (Option Cstr)) : M Objects := do
  match ← r with
  | none => .ok os
  | some s => .ok (os ++ [some s])

/-- A call that changes object `i`. -/
def update (os : Objects) (i : Nat) (r : M (Option Cstr)) : M Objects := do
  match ← r with
  | none => .ok os
  | some s => .ok (os.set i (some s))

def onOne (os : Objects) (i : Nat) (f : Cstr → M Objects) : M Objects :=
  match fetch os i with
  | some s => f s
  | none => .ok os

def exec (os : Objects) : Call → M Objects
  | .newStr mem str => create os (newStr mem str)
  | .newSize mem cap => create os (newSize mem cap)
  | .new mem none => create os (new mem none)
  | .new mem (some i) => onOne os i fun s => create os (new mem (some s))
  | .free i => .ok (os.set i none)
  | .inPlace f i => onOne os i fun s => update os i (do let s ← f.run s; .ok (some s))
  | .assign mem dst src => onOne os dst fun d => onOne os src fun s => update os dst (assign mem d s)
  | .assignStr mem dst src => onOne os dst fun d => update os dst (assignStr mem d src)
  | .copy mem dst src begin len =>
    onOne os dst fun d => onOne os src fun s => update os dst (copy mem d s begin len)
  | .copyStr mem dst src begin len => onOne os dst fun d => update os dst (copyStr mem d src begin len)
  | .subCstr mem substr cstr begin len =>
    onOne os substr fun d => onOne os cstr fun s => update os substr (subCstr mem d s begin len)
  | .subStr mem substr str begin len => onOne os substr fun d => update os substr (subStr mem d str begin len)
  | .insert mem dst pos istr begin len =>
    onOne os dst fun d => onOne os istr fun s => update os dst (insert mem d pos s begin len)
  | .insertStr mem dst pos str begin len => onOne os dst fun d => update os dst (insertStr mem d pos str begin len)
  | .append mem dst str => onOne os dst fun d => onOne os str fun s => update os dst (append mem d s)
  | .appendStr mem dst str => onOne os dst fun d => update os dst (appendStr mem d str)

/-! ## Conditions on a call -/

/-- The object is live and meets `P`. -/
def One (os : Objects) (i : Nat) (P : Cstr → Prop) : Prop := ∃ s, fetch os i = some s ∧ P s

/-- The objects are live and distinct, and meet `P`. -/
def Two (os : Objects) (i j : Nat) (P : Cstr → Cstr → Prop) : Prop :=
  i ≠ j ∧ ∃ d s, fetch os i = some d ∧ fetch os j = some s ∧ P d s

/-- The bytes selected from `begin` on, if any, are among the first `n`. -/
def Selects (begin n : Nat) (len : Option Nat) : Prop := ∀ k, len = some k → begin + k ≤ n

def InRange (os : Objects) : Call → Prop
  | .newStr _ _ | .newSize _ _ | .new _ none => True
  | .new _ (some i) | .free i | .inPlace _ i => One os i fun _ => True
  | .assign _ dst src | .append _ dst src => Two os dst src fun _ _ => True
  | .assignStr _ dst _ | .appendStr _ dst _ => One os dst fun _ => True
  | .copy _ dst src begin len => Two os dst src fun _ s => begin + copyLen s.used len ≤ s.used
  | .copyStr _ dst src begin len =>
    One os dst fun _ => ∀ str, src = some str → begin + copyLen str.strlen len ≤ str.strlen
  | .subCstr _ substr cstr begin len => Two os substr cstr fun _ s => Selects begin s.used (subLen s.used begin len)
  | .subStr _ substr str begin len => One os substr fun _ => Selects begin str.strlen (subLen str.strlen begin len)
  | .insert _ dst pos istr begin len =>
    Two os dst istr fun d s => pos ≤ d.used ∧ Selects begin s.used (insertLen s.used begin len)
  | .insertStr _ dst pos src begin len => One os dst fun d => pos ≤ d.used ∧
      ∀ str, src = some str → Selects begin str.strlen (insertLen str.strlen begin len)

/-- The block of the result is sized for all of its bytes: those of the old content behind the ones copied too,
and the size does not wrap around. -/
def Fits (os : Objects) : Call → Prop
  | .newStr mem (some str) => mem = none ∨ str.strlen + hdrSize + 1 < 2 ^ 32
  | .assignStr mem dst (some str) => ∀ d, fetch os dst = some d → Sized mem d str.strlen
  | .copy mem dst src _ len =>
    ∀ d s, fetch os dst = some d → fetch os src = some s → CopyFits mem d (copyLen s.used len)
  | .copyStr mem dst (some str) _ len => ∀ d, fetch os dst = some d → str.strlen ≠ 0 →
      Sized mem d (copyLen str.strlen len) ∧ CopyFits mem d (copyLen str.strlen len)
  | .subStr mem substr str begin len =>
    ∀ d k, fetch os substr = some d → subLen str.strlen begin len = some k → Sized mem d k
  | .insertStr mem dst _ (some str) begin len =>
    ∀ d k, fetch os dst = some d → insertLen str.strlen begin len = some k → InsertSized mem d k
  | .appendStr mem dst (some str) => ∀ d, fetch os dst = some d → AppendSized mem d str.strlen
  | _ => True

/-- There is a terminator behind the bytes that are left. -/
def InPlace.Ends : InPlace → Cstr → Prop
  | trim, s | trimHdr, s => s.SomethingLeft
  | trimTail, s => s.NotOneLeft
  | _, _ => True

/-- There is a terminator behind the result: the call writes one, or it is there already. -/
def Ends (os : Objects) : Call → Prop
  | .copyStr mem dst (some str) _ len =>
    ∀ d, fetch os dst = some d → str.strlen ≠ 0 → CopyEnds mem d (copyLen str.strlen len)
  | .append mem dst src => ∀ d s, fetch os dst = some d → fetch os src = some s → AppendEnds mem d s.used
  | .appendStr mem dst (some str) => ∀ d, fetch os dst = some d → AppendEnds mem d str.strlen
  | .inPlace f i => ∀ s, fetch os i = some s → f.Ends s
  | _ => True

/-! ## One call -/

/-- Every object meets `P`, or the program went through `NULL` and stopped. -/
def Sound (P : Cstr → Prop) : M Objects → Prop
  | .ok os => ∀ s, some s ∈ os → P s
  | .error e => e = .null

theorem fetch_mem {os : Objects} {i : Nat} {s : Cstr} (h : fetch os i = some s) : some s ∈ os :=
  List.mem_of_getElem? (Option.join_eq_some_iff.1 h)

section
variable {P : Cstr → Prop} {os : Objects} {r : M (Option Cstr)}

theorem create_sound (h : ∀ s, some s ∈ os → P s) (hr : r = .error .null ∨ Yields r P) : Sound P (create os r) := by
  rcases hr with rfl | rfl | ⟨s, rfl, hs⟩
  · rfl
  · exact h
  · intro x hx
    rcases List.mem_append.1 hx with hx | hx
    · exact h x hx
    · cases List.mem_singleton.1 hx
      exact hs

theorem update_sound {i : Nat} (h : ∀ s, some s ∈ os → P s) (hr : Yields r P) : Sound P (update os i r) := by
  rcases hr with rfl | ⟨s, rfl, hs⟩
  · exact h
  · intro x hx
    rcases List.mem_or_eq_of_mem_set hx with hx | hx
    · exact h x hx
    · cases hx
      exact hs

end

theorem InPlace.run_spec (f : InPlace) {s : Cstr} (hv : s.Valid) :
    ∃ s', f.run s = .ok s' ∧ s'.Valid ∧ (s.Terminated → f.Ends s → s'.Terminated) := by
  cases f with
  | clear =>
    obtain ⟨s', hs, hv', ht, _⟩ := clear_spec hv
    exact ⟨s', hs, hv', fun _ _ => ht⟩
  | reverse =>
    obtain ⟨s', hs, hp⟩ := reverse_pointwise hv
    exact ⟨s', hs, hp.valid hv, fun ht _ => hp.terminated ht⟩
  | tolower =>
    obtain ⟨s', hs, hp⟩ := mapLoop_pointwise hv
    exact ⟨s', hs, hp.valid hv, fun ht _ => hp.terminated ht⟩
  | toupper =>
    obtain ⟨s', hs, hp⟩ := mapLoop_pointwise hv
    exact ⟨s', hs, hp.valid hv, fun ht _ => hp.terminated ht⟩
  | trim =>
    obtain ⟨s', hs, hv', _, ht⟩ := trim_spec hv
    exact ⟨s', hs, hv', ht⟩
  | trimHdr =>
    obtain ⟨s', hs, hv', _, ht⟩ := trimHdr_spec hv
    exact ⟨s', hs, hv', ht⟩
  | trimTail =>
    obtain ⟨s', hs, hv', _, ht⟩ := trimTail_spec hv
    exact ⟨s', hs, hv', ht⟩

end TinyUtils.Cstr
