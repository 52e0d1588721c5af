import TinyUtils.Cstr.Heap
/-!
# The heap operations do what the functions of `Ops` say

`realloc` may have moved the object by the time an operation goes on with it. `place` is the heap where it
is now: at its old address, or behind all others with the old address dead. An operation on a live object
`d`, whose source is a C string or another live object, ends there with what the function of `Ops` makes of
`d`, or with the heap untouched if that is `NULL` (`run_refines`).
-/

namespace TinyUtils.Cstr.OnHeap

open Block Atomicity Checked

/-- The heap with the object of `dst` at `p`, as `d`. -/
def place (h : Objects) (dst p : Nat) (d : Cstr) : Objects :=
  if p = dst then h.set dst (some d) else h.set dst none ++ [some d]

/-- Where `realloc` can have put the object: it is where it was, or behind all others. -/
def Spot (h : Objects) (dst p : Nat) : Prop := dst < h.length ∧ (p = dst ∨ p = h.length)

theorem lt_of_fetch {h : Objects} {i : Nat} {s : Cstr} (hf : fetch h i = some s) : i < h.length :=
  (List.getElem?_eq_some_iff.1 (Option.join_eq_some_iff.1 hf)).1

theorem Spot.stay {h : Objects} {dst : Nat} {d : Cstr} (hf : fetch h dst = some d) : Spot h dst dst :=
  ⟨lt_of_fetch hf, Or.inl rfl⟩

theorem place_self {h : Objects} {dst : Nat} {d : Cstr} (hf : fetch h dst = some d) : place h dst dst d = h := by
  have hget : h[dst]? = some (some d) := Option.join_eq_some_iff.1 hf
  obtain ⟨hlt, hget⟩ := List.getElem?_eq_some_iff.1 hget
  rw [place, if_pos rfl, ← hget]
  exact List.set_getElem_self hlt

section
variable {h : Objects} {dst p : Nat} {d : Cstr}

theorem fetch_place (hs : Spot h dst p) : fetch (place h dst p d) p = some d := by
  obtain ⟨hlt, rfl | rfl⟩ := hs
  · simp [fetch, place, hlt]
  · have hne : h.length ≠ dst := by omega
    simp [fetch, place, hne]

theorem fetch_place_of_ne {q : Nat} {s : Cstr} (hq : fetch h q = some s) (hne : q ≠ dst) :
    fetch (place h dst p d) q = some s := by
  have hlt : q < h.length := lt_of_fetch hq
  unfold place
  split
  · rw [fetch, List.getElem?_set_ne hne.symm]
    exact hq
  · rw [fetch, List.getElem?_append_left (by simpa using hlt), List.getElem?_set_ne hne.symm]
    exact hq

theorem set_place (hs : Spot h dst p) (d' : Cstr) : (place h dst p d).set p (some d') = place h dst p d' := by
  obtain ⟨hlt, rfl | rfl⟩ := hs
  · simp [place]
  · have hne : h.length ≠ dst := by omega
    simp [place, hne]

/-! ## The statements on the placed object -/

theorem pure_place (hp : Objects) (r : Option Nat) : (pure r : Prog (Option Nat)) hp = .ok (r, hp) := rfl

theorem deref_place {α : Type} (hs : Spot h dst p) (k : Cstr → Prog α) :
    (deref p >>= k) (place h dst p d) = k d (place h dst p d) := by
  rw [bind_eq, deref, fetch_place hs]

theorem modify_place {α : Type} (hs : Spot h dst p) (f : Cstr → M Cstr) (k : Unit → Prog α) :
    (modify p f >>= k) (place h dst p d) = f d >>= fun d => k () (place h dst p d) := by
  rw [bind_eq, modify, fetch_place hs]
  cases hf : f d with
  | error e =>
    simp only [hf]
    rfl
  | ok d' =>
    simp only [hf, set_place hs]
    rfl

/-- The bytes of the source, from the pointer on. -/
def Source.bytes (h : Objects) : Source → Option (List Byte)
  | .str s => some s.memory
  | .obj q => (fetch h q).map Cstr.data

/-- The source is a C string, or a live object other than `dst`. -/
def Source.Apart (dst : Nat) : Source → Prop
  | .str _ => True
  | .obj q => q ≠ dst

theorem load_place {α : Type} {src : Source} {bytes : List Byte} (hb : src.bytes h = some bytes)
    (ha : src.Apart dst) (i n : Nat) (k : List Byte → Prog α) :
    (src.load i n >>= k) (place h dst p d) = Cstr.load bytes i n >>= fun bs => k bs (place h dst p d) := by
  rw [bind_eq]
  cases src with
  | str s =>
    cases hb
    simp only [Source.load]
    cases Cstr.load s.memory i n <;> rfl
  | obj q =>
    obtain ⟨s, hq, rfl⟩ := Option.map_eq_some_iff.1 hb
    simp only [Source.load, fetch_place_of_ne hq ha]
    cases Cstr.load s.data i n <;> rfl

/-- The bytes of the placed object itself. -/
theorem loadSelf_place {α : Type} (hs : Spot h dst p) (i n : Nat) (k : List Byte → Prog α) :
    ((Source.obj p).load i n >>= k) (place h dst p d) =
      Cstr.load d.data i n >>= fun bs => k bs (place h dst p d) := by
  simp only [bind_eq, Source.load, fetch_place hs]
  cases Cstr.load d.data i n <;> rfl

end

/-! ## The operations -/

/-- What a function of `Ops` returns, on the heap: the object at `p`, or nothing changed. -/
def lift (h : Objects) (dst p : Nat) (r : M (Option Cstr)) : M (Option Nat × Objects) := do
  match ← r with
  | none => .ok (none, h)
  | some d => .ok (some p, place h dst p d)

/-- The program does on the heap what the function does. -/
def Refines (h : Objects) (dst : Nat) (x : Prog (Option Nat)) (r : M (Option Cstr)) : Prop :=
  ∃ p, Spot h dst p ∧ x h = lift h dst p r

section
variable {h : Objects} {dst : Nat}

theorem refines_deref {k : Cstr → Prog (Option Nat)} {r : M (Option Cstr)} {q : Nat} {s : Cstr}
    (hq : fetch h q = some s) (hk : Refines h dst (k s) r) : Refines h dst (deref q >>= k) r := by
  obtain ⟨p, hs, hr⟩ := hk
  refine ⟨p, hs, ?_⟩
  simp only [bind_eq, deref, hq]
  exact hr

/-- A program that goes on with the object it got, or returns `NULL`. -/
theorem refines_bind {x : Prog (Option Nat)} {r : Option Cstr} {k : Option Nat → Prog (Option Nat)}
    (f : Option Cstr → M (Option Cstr)) (hx : Refines h dst x (.ok r)) (hknone : k none = pure none)
    (hfnone : f none = .ok none)
    (hk : ∀ p d', Spot h dst p → k (some p) (place h dst p d') = lift h dst p (f (some d'))) :
    Refines h dst (x >>= k) (f r) := by
  obtain ⟨p, hs, hr⟩ := hx
  refine ⟨p, hs, ?_⟩
  rw [bind_eq, hr, lift, ok_bind]
  cases r with
  | none =>
    simp only [hknone, hfnone]
    rfl
  | some d' => exact hk p d' hs

theorem refines_step {x : Prog (Option Nat)} {r : Option Cstr} {k : Option Nat → Prog (Option Nat)}
    {g : Cstr → M (Option Cstr)} : Refines h dst x (.ok r) → k none = pure none →
    (∀ p d', Spot h dst p → k (some p) (place h dst p d') = lift h dst p (g d')) →
    Refines h dst (x >>= k) (match r with | none => .ok none | some d' => g d') :=
  fun hx hknone hk => refines_bind (fun r => match r with | none => .ok none | some d' => g d') hx hknone rfl hk

theorem setCap_place {p : Nat} {d : Cstr} (hs : Spot h dst p) (newCap : Nat) :
    (do setCap p newCap; return some p : Prog (Option Nat)) (place h dst p d) =
      lift h dst p (.ok (some { d with cap := newCap })) := by
  rw [setCap, modify_place hs, ok_bind]
  rfl

end

section
variable {h : Objects} {dst : Nat} {d : Cstr} (hd : fetch h dst = some d)
include hd

theorem refines_same : Refines h dst (pure (some dst)) (.ok (some d)) := by
  refine ⟨dst, Spot.stay hd, ?_⟩
  simp only [lift, ok_bind, place_self hd]
  rfl

theorem refines_null : Refines h dst (pure none) (.ok none) := ⟨dst, Spot.stay hd, rfl⟩

theorem refines_reallocAt (al : Alloc) (size : Nat) :
    Refines h dst (reallocAt al dst size) (.ok (realloc al.mem d size)) := by
  have hlt : dst < h.length := lt_of_fetch hd
  cases al with
  | none =>
    refine ⟨dst, Spot.stay hd, ?_⟩
    simp only [reallocAt, hd]
    rfl
  | some al =>
    obtain ⟨moves, fresh⟩ := al
    cases moves with
    | false =>
      refine ⟨dst, Spot.stay hd, ?_⟩
      simp only [reallocAt, hd, lift, ok_bind, Alloc.mem, realloc, Option.map_some, place, if_pos]
      rfl
    | true =>
      have hne : h.length ≠ dst := by omega
      refine ⟨h.length, ⟨hlt, Or.inr rfl⟩, ?_⟩
      simp only [reallocAt, hd, lift, ok_bind, Alloc.mem, realloc, Option.map_some, place, if_neg hne]
      rfl

theorem refines_reallocUnless (al : Alloc) (old newCap : Nat) :
    Refines h dst (reallocUnless al dst old newCap)
      (.ok (if newCap ≠ old then realloc al.mem d newCap else some d)) := by
  unfold reallocUnless
  by_cases hne : newCap ≠ old
  · rw [if_pos hne, if_pos hne]
    exact refines_reallocAt hd al newCap
  · rw [if_neg hne, if_neg hne]
    exact refines_same hd

theorem refines_refit (al : Alloc) (total : Nat) :
    Refines h dst (refit al dst total) (.ok (Cstr.refit al.mem d total)) := by
  refine refines_deref hd ?_
  unfold Cstr.refit
  by_cases hrefuse : calFitCap (u32 d.totalSize) (u32 total) < minSize ∨
      calFitCap (u32 d.totalSize) (u32 total) > maxSize
  · simp only [if_pos hrefuse]
    exact refines_null hd
  · simp only [if_neg hrefuse]
    exact refines_bind (fun r => .ok (r.map _)) (refines_reallocUnless hd al _ _) rfl rfl
      fun p d' hs => setCap_place hs _

theorem refines_grow (al : Alloc) (totalUsed : Nat) :
    Refines h dst (grow al dst totalUsed) (.ok (Cstr.grow al.mem d totalUsed)) := by
  refine refines_deref hd ?_
  unfold Cstr.grow
  by_cases hgrow : totalUsed > d.cap
  · simp only [if_pos hgrow]
    by_cases hrefuse : calFitCap (u32 d.totalSize) (u32 (totalUsed + hdrSize + 1)) < minSize
    · simp only [if_pos hrefuse]
      exact refines_null hd
    · simp only [if_neg hrefuse]
      exact refines_bind (fun r => .ok (r.map _)) (refines_reallocUnless hd al _ _) rfl rfl
        fun p d' hs => setCap_place hs _
  · simp only [if_neg hgrow]
    exact refines_same hd

theorem refines_appendBlock (al : Alloc) (newCap : Nat) :
    Refines h dst (appendBlock al dst newCap) (.ok (Cstr.appendBlock al.mem d newCap)) := by
  refine refines_deref hd ?_
  unfold Cstr.appendBlock
  by_cases hgrow : newCap - (hdrSize + 1) > d.cap
  · rw [if_pos hgrow, if_pos hgrow]
    exact refines_reallocAt hd al newCap
  · rw [if_neg hgrow, if_neg hgrow]
    exact refines_same hd

variable {src : Source} {bytes : List Byte} (hb : src.bytes h = some bytes) (ha : src.Apart dst)
include hb ha

theorem refines_assignFrom (al : Alloc) (n : Nat) :
    Refines h dst (assignFrom al dst src n) (Cstr.assignFrom al.mem d bytes n) := by
  refine refines_step (refines_refit hd al _) rfl fun p d' hs => ?_
  simp only [setUsed, storeAt, setEndAt, modify_place hs, deref_place hs, load_place hb ha, pure_place, ok_bind, lift,
    bind_assoc]

theorem refines_copyFrom (al : Alloc) (begin len : Nat) :
    Refines h dst (copyFrom al dst src begin len) (Cstr.copyFrom al.mem d bytes begin len) := by
  refine refines_step (refines_refit hd al _) rfl fun p d' hs => ?_
  simp only [setUsed, storeAt, modify_place hs, deref_place hs, load_place hb ha, pure_place, ok_bind, lift,
    bind_assoc]

theorem refines_subFrom (al : Alloc) (n begin len : Nat) :
    Refines h dst (subFrom al dst src n begin len) (Cstr.subFrom al.mem d bytes n begin len) := by
  unfold subFrom Cstr.subFrom
  cases subLen n begin len with
  | none => exact refines_null hd
  | some len =>
    refine refines_step (refines_refit hd al _) rfl fun p d' hs => ?_
    simp only [setUsed, storeAt, setEndAt, modify_place hs, load_place hb ha, pure_place, ok_bind, lift, bind_assoc]

theorem refines_insertFrom (al : Alloc) (pos n begin len : Nat) :
    Refines h dst (insertFrom al dst pos src n begin len) (Cstr.insertFrom al.mem d pos bytes n begin len) := by
  unfold insertFrom Cstr.insertFrom
  cases insertLen n begin len with
  | none => exact refines_same hd
  | some len =>
    refine refines_deref hd (refines_step (refines_grow hd al _) rfl fun p d' hs => ?_)
    simp only [setUsed, storeAt, setEndAt, modify_place hs, loadSelf_place hs, load_place hb ha, pure_place, ok_bind,
      lift, bind_assoc]

theorem refines_appendFrom (al : Alloc) (n : Nat) :
    Refines h dst (appendFrom al dst src n) (Cstr.appendFrom al.mem d bytes n) := by
  unfold appendFrom Cstr.appendFrom
  by_cases hn : n = 0
  · rw [if_pos hn, if_pos hn]
    exact refines_same hd
  · rw [if_neg hn, if_neg hn]
    refine refines_deref hd ?_
    by_cases hmax : u32 (d.totalSize + n) > maxSize
    · simp only [if_pos hmax]
      exact refines_null hd
    · simp only [if_neg hmax]
      by_cases hmin : calFitCap (u32 d.totalSize) (u32 (d.used + hdrSize + 1 + n)) < minSize
      · simp only [if_pos hmin]
        exact refines_null hd
      · simp only [if_neg hmin]
        refine refines_step (refines_appendBlock hd al _) rfl fun p d' hs => ?_
        simp only [setUsed, setCap, storeAt, modify_place hs, deref_place hs, load_place hb ha, pure_place, ok_bind,
          lift, bind_assoc]

end

/-- What the function of `Ops` makes of the object, with its sources from the heap. -/
def Op.spec (al : Alloc) (h : Objects) (d : Cstr) : Op → Option (M (Option Cstr))
  | .assign src => (fetch h src).map fun s => Cstr.assign al.mem d s
  | .assignStr src => some (Cstr.assignStr al.mem d src)
  | .copy src begin len => (fetch h src).map fun s => Cstr.copy al.mem d s begin len
  | .copyStr src begin len => some (Cstr.copyStr al.mem d src begin len)
  | .subCstr cstr begin len => (fetch h cstr).map fun s => Cstr.subCstr al.mem d s begin len
  | .subStr str begin len => some (Cstr.subStr al.mem d str begin len)
  | .insert pos istr begin len => (fetch h istr).map fun s => Cstr.insert al.mem d pos s begin len
  | .insertStr pos str begin len => some (Cstr.insertStr al.mem d pos str begin len)
  | .append str => (fetch h str).map fun s => Cstr.append al.mem d s
  | .appendStr str => some (Cstr.appendStr al.mem d str)

/-- The object that the operation reads, if any. -/
def Op.src : Op → Option Nat
  | .assign src | .copy src _ _ | .subCstr src _ _ | .insert _ src _ _ | .append src => some src
  | .assignStr _ | .copyStr _ _ _ | .subStr _ _ _ | .insertStr _ _ _ _ | .appendStr _ => none

/-- **An operation on a live object does on the heap what the function of `Ops` does**, with a source that is
live and not the object itself. -/
theorem run_refines (al : Alloc) {h : Objects} {dst : Nat} {d : Cstr} (hd : fetch h dst = some d) (op : Op)
    (ha : op.src ≠ some dst) {r : M (Option Cstr)} (hr : op.spec al h d = some r) : Refines h dst (op.run al dst) r := by
  have hstr (s : CString) : (Source.str s).bytes h = some s.memory := rfl
  have hobj {q : Nat} {s : Cstr} (hq : fetch h q = some s) : (Source.obj q).bytes h = some s.data := by
    rw [Source.bytes, hq]
    rfl
  cases op with
  | assign src =>
    obtain ⟨s, hq, rfl⟩ := Option.map_eq_some_iff.1 hr
    exact refines_deref hq (refines_assignFrom hd (hobj hq) (fun heq => ha (congrArg some heq)) al _)
  | assignStr src =>
    cases hr
    cases src with
    | none => exact refines_null hd
    | some src => exact refines_assignFrom hd (hstr src) trivial al _
  | copy src begin len =>
    obtain ⟨s, hq, rfl⟩ := Option.map_eq_some_iff.1 hr
    refine refines_deref hq ?_
    obtain ⟨p, hs, hx⟩ := refines_copyFrom hd (hobj hq) (fun heq => ha (congrArg some heq)) al begin (copyLen s.used len)
    refine ⟨p, hs, ?_⟩
    rw [bind_eq, hx, Cstr.copy]
    cases Cstr.copyFrom al.mem d s.data begin (copyLen s.used len) with
    | error e => rfl
    | ok r =>
      cases r with
      | none => rfl
      | some d' =>
        simp only [lift, ok_bind, setEndAt, modify_place hs, bind_assoc]
        rfl
  | copyStr src begin len =>
    cases hr
    cases src with
    | none => exact refines_same hd
    | some src =>
      by_cases h0 : src.strlen = 0
      · simp only [Op.run, OnHeap.copyStr, Cstr.copyStr, if_pos h0]
        exact refines_same hd
      · simp only [Op.run, OnHeap.copyStr, Cstr.copyStr, if_neg h0]
        exact refines_copyFrom hd (hstr src) trivial al begin _
  | subCstr cstr begin len =>
    obtain ⟨s, hq, rfl⟩ := Option.map_eq_some_iff.1 hr
    exact refines_deref hq (refines_subFrom hd (hobj hq) (fun heq => ha (congrArg some heq)) al _ begin len)
  | subStr str begin len =>
    cases hr
    exact refines_subFrom hd (hstr str) trivial al _ begin len
  | insert pos istr begin len =>
    obtain ⟨s, hq, rfl⟩ := Option.map_eq_some_iff.1 hr
    exact refines_deref hq (refines_insertFrom hd (hobj hq) (fun heq => ha (congrArg some heq)) al pos _ begin len)
  | insertStr pos str begin len =>
    cases hr
    cases str with
    | none => exact refines_same hd
    | some str => exact refines_insertFrom hd (hstr str) trivial al pos _ begin len
  | append str =>
    obtain ⟨s, hq, rfl⟩ := Option.map_eq_some_iff.1 hr
    exact refines_deref hq (refines_appendFrom hd (hobj hq) (fun heq => ha (congrArg some heq)) al _)
  | appendStr str =>
    cases hr
    cases str with
    | none => exact refines_null hd
    | some str => exact refines_appendFrom hd (hstr str) trivial al _

end TinyUtils.Cstr.OnHeap
