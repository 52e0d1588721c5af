import Mathlib.Data.List.Nodup
import TinyUtils.Lib.Run
/-!
# `ObjectPool`, C++11 variant (`cpp_utils/object_pool.cpp:16-87`)

A queue of objects. `take_one` hands out the first one as a pointer whose deleter puts the object back at the
end, so a caller that destroys its pointer returns the object. Each operation is one atomic step of the system:
the pool, and who holds which object.

`init` leaves `max_pool_size_` at its default of 10 whatever `max_pool_size` is, and the deleter does not look
at it.

| here | there |
| --- | --- |
| `ObjectPool`      | the fields (`:83-86`); the lock is the atomicity of a step |
| `init`            | `:23`; `made` is what the constructor calls give, and if they are fewer than needed the next one throws |
| `takeOne`, `giveBack`, `addOne` | `:41`, its deleter `:48`, `:57` |
| `Sys`, `Op`, `Step` | callers as `func` (`:182`) and `main`; an object made or added is none that is alive already |
-/

namespace TinyUtils

open Runs

structure ObjectPool (Obj : Type) where
  pool : List Obj := []
  maxPoolSize : Nat := 10
  inited : Bool := false
deriving DecidableEq

namespace ObjectPool

variable {Obj Caller : Type}

def size (p : ObjectPool Obj) : Nat := p.pool.length

/-- What it returns, `none` if a constructor throws. -/
def init (p : ObjectPool Obj) (initPoolSize _maxPoolSize : Nat) (made : List Obj) : Option Bool × ObjectPool Obj :=
  if p.inited then (some true, p)
  else if initPoolSize > p.maxPoolSize then (some false, p)
  else if made.length < initPoolSize then (none, { p with pool := p.pool ++ made })
  else (some true, { p with pool := p.pool ++ made.take initPoolSize, inited := true })

def takeOne (p : ObjectPool Obj) : Option Obj × ObjectPool Obj :=
  match p.pool with
  | [] => (none, p)
  | x :: rest => (some x, { p with pool := rest })

/-- The deleter. -/
def giveBack (p : ObjectPool Obj) (x : Obj) : ObjectPool Obj := { p with pool := p.pool ++ [x] }

def addOne (p : ObjectPool Obj) (x : Obj) : Bool × ObjectPool Obj :=
  if size p ≥ p.maxPoolSize then (false, p) else (true, { p with pool := p.pool ++ [x] })

/-- The pool and its callers. `owned`, `puts` and `takes` are there for what is said about them: the objects that
the pool has got, and those put into and taken out of it in this order. -/
structure Sys (Obj Caller : Type) where
  pool : ObjectPool Obj := {}
  held : List (Caller × Obj) := []
  owned : List Obj := []
  puts : List Obj := []
  takes : List Obj := []
deriving DecidableEq

inductive Op (Obj Caller : Type)
  | init (initPoolSize maxPoolSize : Nat) (made : List Obj)
  | addOne (x : Obj)
  | takeOne (c : Caller)
  /-- the caller destroys the pointer -/
  | destroy (c : Caller) (x : Obj)
deriving DecidableEq

/-- The objects that `init` makes and pushes. -/
def built (p : ObjectPool Obj) (initPoolSize : Nat) (made : List Obj) : List Obj :=
  if p.inited ∨ initPoolSize > p.maxPoolSize then [] else made.take initPoolSize

theorem init_pool (p : ObjectPool Obj) (n m : Nat) (made : List Obj) :
    (init p n m made).2.pool = p.pool ++ built p n made := by
  unfold init built
  by_cases hinit : p.inited
  · simp [hinit]
  · by_cases hn : n > p.maxPoolSize
    · simp [hinit, hn]
    · by_cases hmade : made.length < n
      · simp [hinit, hn, hmade, List.take_of_length_le (Nat.le_of_lt hmade)]
      · simp [hinit, hn, hmade]

theorem built_sublist (p : ObjectPool Obj) (n : Nat) (made : List Obj) : (built p n made).Sublist made := by
  unfold built
  split
  · exact List.nil_sublist made
  · exact List.take_sublist n made

variable [DecidableEq Obj] [DecidableEq Caller]

def next (s : Sys Obj Caller) : Op Obj Caller → Sys Obj Caller
  | .init n m made =>
    { s with
      pool := (init s.pool n m made).2
      owned := s.owned ++ built s.pool n made
      puts := s.puts ++ built s.pool n made }
  | .addOne x =>
    if (addOne s.pool x).1 then
      { s with pool := (addOne s.pool x).2, owned := s.owned ++ [x], puts := s.puts ++ [x] }
    else s
  | .takeOne c =>
    match takeOne s.pool with
    | (none, _) => s
    | (some x, pool) => { s with pool := pool, held := s.held ++ [(c, x)], takes := s.takes ++ [x] }
  | .destroy c x => { s with pool := giveBack s.pool x, held := s.held.erase (c, x), puts := s.puts ++ [x] }

/-- The caller has the pointer it destroys, and new objects are new. -/
def Allowed (s : Sys Obj Caller) : Op Obj Caller → Prop
  | .init _ _ made => made.Nodup ∧ ∀ x ∈ made, x ∉ s.owned
  | .addOne x => x ∉ s.owned
  | .takeOne _ => True
  | .destroy c x => (c, x) ∈ s.held

def Step (s : Sys Obj Caller) (op : Op Obj Caller) (s' : Sys Obj Caller) : Prop := Allowed s op ∧ s' = next s op

/-! ## Conservation -/

/-- Who holds the object. -/
def holders (held : List (Caller × Obj)) (x : Obj) : List Caller := (held.filter (·.2 = x)).map Prod.fst

/-- Every object that the pool has got is in it or held, once in all, and the pool is a first-in first-out queue. -/
structure Inv (s : Sys Obj Caller) : Prop where
  count : ∀ x, s.pool.pool.count x + (holders s.held x).length = s.owned.count x
  nodup : s.owned.Nodup
  fifo : s.puts = s.takes ++ s.pool.pool

omit [DecidableEq Caller] in
theorem length_holders_append (held : List (Caller × Obj)) (c : Caller) (x y : Obj) :
    (holders (held ++ [(c, x)]) y).length = (holders held y).length + [x].count y := by
  by_cases hxy : x = y
  · simp [holders, hxy]
  · simp [holders, hxy]

theorem length_holders_erase {held : List (Caller × Obj)} {c : Caller} {x : Obj} (h : (c, x) ∈ held) (y : Obj) :
    (holders held y).length = (holders (held.erase (c, x)) y).length + [x].count y := by
  have hperm := ((List.perm_cons_erase h).filter (·.2 = y)).length_eq
  by_cases hxy : x = y
  · simpa [holders, hxy] using hperm
  · simpa [holders, hxy] using hperm

omit [DecidableEq Caller] in
/-- What is put into the pool for the first time. -/
theorem Inv.put {s : Sys Obj Caller} (h : Inv s) {xs : List Obj} (hxs : xs.Nodup) (hnew : ∀ x ∈ xs, x ∉ s.owned)
    {pool : ObjectPool Obj} (hpool : pool.pool = s.pool.pool ++ xs) :
    Inv { s with pool := pool, owned := s.owned ++ xs, puts := s.puts ++ xs } := by
  refine ⟨?_, ?_, ?_⟩
  · intro x
    have hcount := h.count x
    simp only [hpool, List.count_append]
    omega
  · refine List.nodup_append.2 ⟨h.nodup, hxs, ?_⟩
    rintro x hx y hy rfl
    exact hnew x hy hx
  · simp only [hpool, h.fifo, List.append_assoc]

theorem Inv.step {s s' : Sys Obj Caller} {op : Op Obj Caller} (h : Inv s) (hs : Step s op s') : Inv s' := by
  obtain ⟨hallowed, rfl⟩ := hs
  cases op with
  | init n m made =>
    obtain ⟨hnodup, hnew⟩ := hallowed
    have hsub := built_sublist s.pool n made
    exact h.put (hnodup.sublist hsub) (fun x hx => hnew x (hsub.subset hx)) (init_pool s.pool n m made)
  | addOne x =>
    simp only [next]
    split
    next hadd =>
      refine h.put (List.nodup_singleton x) (fun y hy => ?_) ?_
      · rw [List.mem_singleton.1 hy]
        exact hallowed
      · unfold addOne at hadd ⊢
        split
        · simp_all
        · rfl
    next => exact h
  | takeOne c =>
    cases hpool : s.pool.pool with
    | nil => 
      have hnext : next s (.takeOne c) = s := by simp only [next, takeOne, hpool]
      rw [hnext]
      exact h
    | cons x rest =>
      have hnext : next s (.takeOne c) =
          { s with pool := { s.pool with pool := rest }, held := s.held ++ [(c, x)], takes := s.takes ++ [x] } := by
        simp only [next, takeOne, hpool]
      rw [hnext]
      refine ⟨?_, h.nodup, ?_⟩
      · intro y
        have hcount := h.count y
        rw [hpool, List.count_cons] at hcount
        simp only [length_holders_append, List.count_singleton]
        omega
      · simp only [h.fifo, hpool, List.append_assoc, List.singleton_append]
  | destroy c x =>
    refine ⟨?_, h.nodup, ?_⟩
    · intro y
      have hcount := h.count y
      rw [length_holders_erase hallowed] at hcount
      simp only [next, giveBack, List.count_append]
      omega
    · simp only [next, giveBack, h.fifo, List.append_assoc]

theorem reach_inv {s : Sys Obj Caller} (h : Reach Step {} s) : Inv s :=
  h.inv ⟨fun _ => rfl, List.nodup_nil, rfl⟩ fun _ _ _ hs hstep => hs.step hstep

/-- **Conservation**: in every reachable state each object that the pool has got is in the pool once and held by
nobody, or not in the pool and held by one caller, once; `take_one` returns null exactly if the pool is empty; and
the objects taken are, in order, the first of those put. -/
theorem reach_conserved {s : Sys Obj Caller} (h : Reach Step {} s) :
    (∀ x ∈ s.owned, (s.pool.pool.count x = 1 ∧ holders s.held x = []) ∨
        (x ∉ s.pool.pool ∧ ∃ c, holders s.held x = [c])) ∧
      ((takeOne s.pool).1 = none ↔ s.pool.pool = []) ∧ s.puts = s.takes ++ s.pool.pool := by
  have hinv := reach_inv h
  refine ⟨?_, ?_, hinv.fifo⟩
  · intro x hx
    have hcount := hinv.count x
    rw [List.count_eq_one_of_mem hinv.nodup hx] at hcount
    by_cases hpool : s.pool.pool.count x = 1
    · left
      exact ⟨hpool, List.eq_nil_of_length_eq_zero (by omega)⟩
    · right
      exact ⟨List.count_eq_zero.1 (by omega), List.length_eq_one_iff.1 (by omega)⟩
  · unfold takeOne
    cases s.pool.pool with
    | nil => simp
    | cons x rest => simp

/-- Two objects are made, and the first one is taken and returned. -/
def returned : Sys Nat Nat := next (next (next {} (.init 2 20 [7, 8])) (.takeOne 0)) (.destroy 0 7)

theorem reach_returned : Reach Step {} returned := by
  have hmade : Step ({} : Sys Nat Nat) (.init 2 20 [7, 8]) (next {} (.init 2 20 [7, 8])) :=
    ⟨⟨by decide, by decide⟩, rfl⟩
  have htaken : Step (next {} (.init 2 20 [7, 8])) (.takeOne 0) (next (next {} (.init 2 20 [7, 8])) (.takeOne 0)) :=
    ⟨trivial, rfl⟩
  have hback : Step (next (next {} (.init 2 20 [7, 8])) (.takeOne 0)) (.destroy 0 7) returned :=
    ⟨show ((0, 7) : Nat × Nat) ∈ _ by decide, rfl⟩
  exact ((Reach.refl.tail hmade).tail htaken).tail hback

theorem conserved_returned :
    (∀ x ∈ returned.owned, (returned.pool.pool.count x = 1 ∧ holders returned.held x = []) ∨
        (x ∉ returned.pool.pool ∧ ∃ c, holders returned.held x = [c])) ∧
      ((takeOne returned.pool).1 = none ↔ returned.pool.pool = []) ∧
      returned.puts = returned.takes ++ returned.pool.pool := reach_conserved reach_returned

/-! ## The limit -/

/-- An `add_one` below the limit is accepted. -/
def Accepts (m : Nat) (s : Sys Obj Caller) : Op Obj Caller → Prop
  | .addOne x => size s.pool < m → (addOne s.pool x).1 = true
  | _ => True

/-- The default limit is as good as the limit: it refuses the same objects, and a pointer is destroyed when the
pool is not full. -/
def InLimit (m : Nat) (s : Sys Obj Caller) : Op Obj Caller → Prop
  | .addOne _ => size s.pool < 10 ↔ size s.pool < m
  | .destroy _ _ => size s.pool < m
  | _ => True

/-- The part of `InLimit` that keeps the size within the limit. -/
def Room (m : Nat) (s : Sys Obj Caller) : Op Obj Caller → Prop
  | .addOne _ => size s.pool < 10 → size s.pool < m
  | .destroy _ _ => size s.pool < m
  | _ => True

omit [DecidableEq Obj] [DecidableEq Caller] in
theorem addOne_iff (p : ObjectPool Obj) (x : Obj) : (addOne p x).1 = true ↔ size p < p.maxPoolSize := by
  unfold addOne
  split
  · simp
    omega
  · simp
    omega

/-- The pool is one that `init` has filled. -/
def Inited (s : Sys Obj Caller) : Prop := s.pool.inited = true ∧ s.pool.maxPoolSize = 10

theorem Inited.step {s s' : Sys Obj Caller} {op : Op Obj Caller} (h : Inited s) (hs : Step s op s') : Inited s' := by
  obtain ⟨hinit, hmax⟩ := h
  obtain ⟨_, rfl⟩ := hs
  cases op with
  | init n m made => simp [Inited, next, init, hinit, hmax]
  | addOne x =>
    simp only [next, addOne]
    split <;> split <;> exact ⟨hinit, hmax⟩
  | takeOne c =>
    simp only [next, takeOne]
    cases s.pool.pool with
    | nil => exact ⟨hinit, hmax⟩
    | cons x rest => exact ⟨hinit, hmax⟩
  | destroy c x => exact ⟨hinit, hmax⟩

/-- The size stays within the limit at a step exactly if there is room. -/
theorem room_iff {m : Nat} {s s' : Sys Obj Caller} {op : Op Obj Caller} (h : Inited s) (hsize : size s.pool ≤ m)
    (hs : Step s op s') : size s'.pool ≤ m ↔ Room m s op := by
  obtain ⟨hinit, hmax⟩ := h
  obtain ⟨_, rfl⟩ := hs
  cases op with
  | init n k made => simp [next, init, hinit, hsize, Room]
  | addOne x =>
    have hadd := addOne_iff s.pool x
    rw [hmax] at hadd
    simp only [next, Room]
    by_cases hlt : size s.pool < 10
    · rw [if_pos (hadd.2 hlt)]
      have hnext : size (addOne s.pool x).2 = size s.pool + 1 := by
        rw [addOne, if_neg (by omega)]
        simp [size]
      simp only [hnext, hlt, true_implies]
      omega
    · rw [if_neg (mt hadd.1 hlt)]
      simp [hlt, hsize]
  | takeOne c =>
    have hle : size (next s (.takeOne c)).pool ≤ size s.pool := by
      simp only [next, takeOne, size]
      cases hpool : s.pool.pool with
      | nil => simp [hpool]
      | cons x rest => simp
    simp only [Room, iff_true]
    omega
  | destroy c x =>
    have hnext : size (next s (.destroy c x)).pool = size s.pool + 1 := by simp [next, giveBack, size]
    simp only [hnext, Room]
    omega

omit [DecidableEq Obj] [DecidableEq Caller] in
/-- A pool that is inited accepts what it should exactly if it has room for it by its own limit. -/
theorem accepts_room_iff (m : Nat) {s : Sys Obj Caller} (op : Op Obj Caller) (h : Inited s) :
    Accepts m s op ∧ Room m s op ↔ InLimit m s op := by
  cases op with
  | addOne x =>
    simp only [Accepts, Room, InLimit, addOne_iff, h.2]
    constructor
    · rintro ⟨haccept, hroom⟩
      exact ⟨hroom, haccept⟩
    · intro hlimit
      exact ⟨hlimit.2, hlimit.1⟩
  | init n k made => simp [Accepts, Room, InLimit]
  | takeOne c => simp [Accepts, Room, InLimit]
  | destroy c x => simp [Accepts, Room, InLimit]

/-- **The limit**: `init` succeeds, the size is within `max_pool_size` in every state after it and no `add_one` below
it is refused, exactly if at most 10 objects are made and every step finds the default limit as good. -/
theorem run_limit_iff {n m : Nat} (hnm : n ≤ m) {made : List Obj} (hmade : n ≤ made.length)
    {tr : List (Op Obj Caller × Sys Obj Caller)} (hr : IsRun Step (next {} (.init n m made)) tr) :
    (init {} n m made).1 = some true ∧ StatesMeet (fun s => size s.pool ≤ m) (next {} (.init n m made)) tr ∧
        StepsMeet (Accepts m) (next {} (.init n m made)) tr ↔
      n ≤ 10 ∧ StepsMeet (InLimit m) (next {} (.init n m made)) tr := by
  by_cases hn : n ≤ 10
  · have hinit : init ({} : ObjectPool Obj) n m made = (some true, ⟨made.take n, 10, true⟩) := by
      simp [init, Nat.not_lt.2 hn, Nat.not_lt.2 hmade]
    have h0 : Inited (next ({} : Sys Obj Caller) (.init n m made)) := by
      simp [Inited, next, hinit]
    have hsize : size (next ({} : Sys Obj Caller) (.init n m made)).pool ≤ m := by
      simp only [next, hinit, size, List.length_take]
      omega
    generalize next ({} : Sys Obj Caller) (.init n m made) = s at hr h0 hsize ⊢
    have hstep : ∀ (s : Sys Obj Caller) op s', Inited s ∧ size s.pool ≤ m → Step s op s' → Room m s op →
        Inited s' ∧ size s'.pool ≤ m :=
      fun s op s' h hs hroom => ⟨h.1.step hs, (room_iff h.1 h.2 hs).2 hroom⟩
    have hbad : ∀ (s : Sys Obj Caller) op s', Inited s ∧ size s.pool ≤ m → Step s op s' →
        size s'.pool ≤ m → Room m s op :=
      fun s op s' h hs hsize => (room_iff h.1 h.2 hs).1 hsize
    have hstates := run_exact (Q := fun s => size s.pool ≤ m) (fun s h => h.2) hstep hbad ⟨h0, hsize⟩ hr
    have hkeep : ∀ (s : Sys Obj Caller) op s', Inited s → Step s op s' → Inited s' :=
      fun s op s' h hs => h.step hs
    have hlimit := stepsMeet_congr hkeep (fun s op h => accepts_room_iff m op h) h0 hr
    rw [hstates, ← hlimit]
    simp only [hinit, hn, true_and]
    constructor
    · rintro ⟨hroom, haccept⟩
      exact haccept.and hroom
    · intro h
      exact ⟨h.imp fun _ _ => And.right, h.imp fun _ _ => And.left⟩
  · have hinit : (init ({} : ObjectPool Obj) n m made).1 ≠ some true := by
      simp [init, Nat.lt_of_not_le hn]
    simp [hinit, hn]

/-- The states that the operations lead to. -/
def trace (s : Sys Obj Caller) : List (Op Obj Caller) → List (Op Obj Caller × Sys Obj Caller)
  | [] => []
  | op :: ops => (op, next s op) :: trace (next s op) ops

/-- An object is taken and returned. -/
theorem limit_returned :
    (init {} 2 10 [7, 8]).1 = some true ∧
        StatesMeet (fun s => size s.pool ≤ 10) (next {} (.init 2 10 [7, 8]))
          (trace (next {} (.init 2 10 [7, 8])) [.takeOne 0, .destroy 0 7]) ∧
        StepsMeet (Accepts 10) (next {} (.init 2 10 [7, 8]))
          (trace (next {} (.init 2 10 [7, 8])) [.takeOne 0, .destroy 0 7]) ↔
      2 ≤ 10 ∧ StepsMeet (InLimit 10) (next {} (.init 2 10 [7, 8]))
        (trace (next ({} : Sys Nat Nat) (.init 2 10 [7, 8])) [.takeOne 0, .destroy 0 7]) :=
  run_limit_iff (by decide) (by decide) ⟨⟨trivial, rfl⟩, ⟨show ((0, 7) : Nat × Nat) ∈ _ by decide, rfl⟩, trivial⟩

/-- Ten objects are made; one is taken, another one is added in its place, and the first one is returned. -/
theorem not_limit_refilled :
    IsRun Step (next {} (.init 10 10 (List.range 10)))
        (trace (next {} (.init 10 10 (List.range 10))) [.takeOne 0, .addOne 10, .destroy 0 0]) ∧
      ¬((init {} 10 10 (List.range 10)).1 = some true ∧
        StatesMeet (fun s => size s.pool ≤ 10) (next {} (.init 10 10 (List.range 10)))
          (trace (next {} (.init 10 10 (List.range 10))) [.takeOne 0, .addOne 10, .destroy 0 0]) ∧
        StepsMeet (Accepts 10) (next {} (.init 10 10 (List.range 10)))
          (trace (next ({} : Sys Nat Nat) (.init 10 10 (List.range 10))) [.takeOne 0, .addOne 10, .destroy 0 0])) := by
  constructor
  · exact ⟨⟨trivial, rfl⟩, ⟨show (10 : Nat) ∉ _ by decide, rfl⟩, ⟨show ((0, 0) : Nat × Nat) ∈ _ by decide, rfl⟩, trivial⟩
  · rintro ⟨_, hstates, _⟩
    exact absurd hstates.last (by decide)

/-- The parameter does not raise the limit. -/
example : init ({} : ObjectPool Nat) 11 20 (List.range 11) = (some false, {}) := by decide

end ObjectPool

end TinyUtils
