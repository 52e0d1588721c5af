import TinyUtils.Lib.Threads
import TinyUtils.ObjectPool
/-!
# Callers of an `ObjectPool` (`cpp_utils/object_pool.cpp:182-206`)

The threads of `main` each run `func`: take two pointers, print through both, and destroy them in the reverse order at its
end. Nothing asks whether `take_one` has returned null, so it is the number of objects that keeps the threads from
printing through a null pointer: two for each thread are enough, and with fewer some interleaving does it
(`never_null_iff`). Whatever they do, the objects go back (`run_returned`).

Each call is one step here. For `take_one` its lock sees to that; the deleter takes no lock, so that it runs as one is an
assumption. What the threads do without it is the subject of `TinyUtils.ObjectPool.Race`.

| here | there |
| --- | --- |
| `Pc`, `exec` | `func` (`:182`), the destructors of `pt2` and `pt1` at its end |
| `print`      | `pt->print()` (`:176`), on a pointer that may be null |
| `drop`       | `~unique_ptr`, which calls the deleter (`:48`) unless the pointer is null |
| `Sys`, `Step`| the threads of `main` (`:190`), any number of them, on a pool that is filled |
-/

namespace TinyUtils.ObjectPool.Callers

open Function Runs Threads

inductive Fault
  | nullPointer
deriving DecidableEq

variable {Obj : Type}

/-- Where a thread is in `func`, with its pointers. -/
inductive Pc (Obj : Type)
  | take1
  | take2 (pt1 : Option Obj)
  | print1 (pt1 pt2 : Option Obj)
  | print2 (pt1 pt2 : Option Obj)
  | drop2 (pt1 pt2 : Option Obj)
  | drop1 (pt1 : Option Obj)
  | done
deriving DecidableEq

def print (pt : Option Obj) : Except Fault Unit :=
  match pt with
  | none => .error .nullPointer
  | some _ => .ok ()

def drop (p : ObjectPool Obj) (pt : Option Obj) : ObjectPool Obj :=
  match pt with
  | none => p
  | some x => giveBack p x

/-- The next step of a thread: where it is then, and the pool. -/
def exec : Pc Obj → ObjectPool Obj → Option (Except Fault (Pc Obj × ObjectPool Obj))
  | .take1, p => some (.ok (.take2 (takeOne p).1, (takeOne p).2))
  | .take2 pt1, p => some (.ok (.print1 pt1 (takeOne p).1, (takeOne p).2))
  | .print1 pt1 pt2, p => some ((print pt1).map fun _ => (.print2 pt1 pt2, p))
  | .print2 pt1 pt2, p => some ((print pt2).map fun _ => (.drop2 pt1 pt2, p))
  | .drop2 pt1 pt2, p => some (.ok (.drop1 pt1, drop p pt2))
  | .drop1 pt1, p => some (.ok (.done, drop p pt1))
  | .done, _ => none

structure Sys (Obj Tid : Type) where
  pool : ObjectPool Obj
  pc : Tid → Pc Obj

variable {Tid : Type} [DecidableEq Tid]

def start (p : ObjectPool Obj) : Sys Obj Tid := ⟨p, fun _ => .take1⟩

/-- A program that has gone through a null pointer makes no step. -/
inductive Step : Except Fault (Sys Obj Tid) → Tid → Except Fault (Sys Obj Tid) → Prop
  | exec {s : Sys Obj Tid} {t : Tid} {r : Except Fault (Pc Obj × ObjectPool Obj)} :
      exec (s.pc t) s.pool = some r → Step (.ok s) t (r.map fun x => ⟨x.2, update s.pc t x.1⟩)

/-! ## Where the objects are -/

/-- The objects that the thread has pointers to. -/
def Pc.held : Pc Obj → List Obj
  | .take1 | .done => []
  | .take2 pt1 | .drop1 pt1 => pt1.toList
  | .print1 pt1 pt2 | .print2 pt1 pt2 | .drop2 pt1 pt2 => pt1.toList ++ pt2.toList

/-- How many steps the thread has yet to take. -/
def Pc.left : Pc Obj → Nat
  | .take1 => 6
  | .take2 _ => 5
  | .print1 _ _ => 4
  | .print2 _ _ => 3
  | .drop2 _ _ => 2
  | .drop1 _ => 1
  | .done => 0

theorem Pc.length_held_le (p : Pc Obj) : p.held.length ≤ 2 := by
  have hle : ∀ pt : Option Obj, pt.toList.length ≤ 1 := by
    intro pt
    cases pt <;> simp
  cases p with
  | take1 | done => exact Nat.zero_le 2
  | take2 pt1 | drop1 pt1 => exact Nat.le_succ_of_le (hle pt1)
  | print1 pt1 pt2 | print2 pt1 pt2 | drop2 pt1 pt2 =>
    simp only [held, List.length_append]
    exact Nat.add_le_add (hle pt1) (hle pt2)

theorem takeOne_perm (p : ObjectPool Obj) : ((takeOne p).2.pool ++ (takeOne p).1.toList).Perm p.pool := by
  unfold takeOne
  cases hpool : p.pool with
  | nil => simp [hpool]
  | cons x rest => exact List.perm_append_singleton x rest

theorem drop_pool (p : ObjectPool Obj) (pt : Option Obj) : (drop p pt).pool = p.pool ++ pt.toList := by
  cases pt with
  | none => simp [drop]
  | some x => rfl

/-- **What a step does**: objects go from the pool to the thread or back, and the thread has one step less. -/
theorem exec_ok {p p' : Pc Obj} {pool pool' : ObjectPool Obj} (h : exec p pool = some (.ok (p', pool'))) :
    (pool'.pool ++ p'.held).Perm (pool.pool ++ p.held) ∧ p'.left + 1 = p.left := by
  cases p with
  | take1 =>
    cases h
    refine ⟨?_, rfl⟩
    simpa [Pc.held] using takeOne_perm pool
  | take2 pt1 =>
    cases h
    refine ⟨?_, rfl⟩
    have hmove : ((takeOne pool).2.pool ++ (pt1.toList ++ (takeOne pool).1.toList)).Perm
        ((takeOne pool).2.pool ++ (takeOne pool).1.toList ++ pt1.toList) := by
      rw [List.append_assoc]
      exact List.perm_append_comm.append_left _
    exact hmove.trans ((takeOne_perm pool).append_right _)
  | print1 pt1 pt2 =>
    cases pt1 with
    | none => cases h
    | some x =>
      cases h
      exact ⟨.refl _, rfl⟩
  | print2 pt1 pt2 =>
    cases pt2 with
    | none => cases h
    | some x =>
      cases h
      exact ⟨.refl _, rfl⟩
  | drop2 pt1 pt2 =>
    cases h
    refine ⟨?_, rfl⟩
    rw [drop_pool, List.append_assoc]
    exact List.perm_append_comm.append_left _
  | drop1 pt1 =>
    cases h
    refine ⟨?_, rfl⟩
    rw [drop_pool]
    simp [Pc.held]
  | done => cases h

variable [Fintype Tid] [DecidableEq Obj]

/-- The pool and the threads together have the objects that were in the pool at first, each as often. -/
structure Conserved (p : ObjectPool Obj) (s : Sys Obj Tid) : Prop where
  count : ∀ x, s.pool.pool.count x + total (fun pc : Pc Obj => pc.held.count x) s.pc = p.pool.count x
  length : size s.pool + total (fun pc : Pc Obj => pc.held.length) s.pc = size p

omit [DecidableEq Tid] in
theorem conserved_start (p : ObjectPool Obj) : Conserved p (start p : Sys Obj Tid) := by
  constructor
  · intro x
    have hnone : total (fun pc : Pc Obj => pc.held.count x) (fun _ : Tid => Pc.take1) = 0 :=
      total_eq_zero.2 fun _ => rfl
    simp [start, hnone]
  · have hnone : total (fun pc : Pc Obj => pc.held.length) (fun _ : Tid => Pc.take1) = 0 :=
      total_eq_zero.2 fun _ => rfl
    simp [start, hnone]

theorem Conserved.exec {p : ObjectPool Obj} {s : Sys Obj Tid} {t : Tid} {x : Pc Obj × ObjectPool Obj}
    (h : Conserved p s) (he : exec (s.pc t) s.pool = some (.ok x)) :
    Conserved p (⟨x.2, update s.pc t x.1⟩ : Sys Obj Tid) := by
  have hperm := (exec_ok he).1
  constructor
  · intro y
    have hold := h.count y
    have hmove := hperm.count_eq y
    have htotal := total_update (fun pc : Pc Obj => pc.held.count y) s.pc t x.1
    simp only [List.count_append] at hmove
    simp only
    omega
  · have hold := h.length
    have hmove := hperm.length_eq
    have htotal := total_update (fun pc : Pc Obj => pc.held.length) s.pc t x.1
    simp only [List.length_append] at hmove
    simp only [size] at hold ⊢
    omega

/-! ## Every run -/

/-- The steps taken and the steps left, unless the program has faulted. -/
theorem run_left {p : ObjectPool Obj} {s s' : Sys Obj Tid} {tr : List (Tid × Except Fault (Sys Obj Tid))}
    (hc : Conserved p s) (hr : IsRun Step (.ok s) tr) (hlast : last (.ok s) tr = .ok s') :
    Conserved p s' ∧ tr.length + total Pc.left s'.pc = total Pc.left s.pc := by
  induction tr generalizing s with
  | nil =>
    cases hlast
    exact ⟨hc, Nat.zero_add _⟩
  | cons x tr ih =>
    obtain ⟨t, st⟩ := x
    obtain ⟨hstep, hrest⟩ := hr
    cases hstep with
    | @exec _ _ r he =>
      cases r with
      | error e =>
        -- a program that has faulted makes no step
        cases tr with
        | nil => cases hlast
        | cons y tr => cases hrest.1
      | ok x =>
        have hleft := total_update Pc.left s.pc t x.1
        have hone := (exec_ok he).2
        obtain ⟨hc', hlen⟩ := ih (hc.exec he) hrest hlast
        refine ⟨hc', ?_⟩
        simp only [List.length_cons] at hlen ⊢
        omega

/-- **The objects go back.** A run has at most six steps for each thread. As long as it has not faulted the pool and the
threads have the objects together; where no thread can go on all are done, and the pool has what it had. -/
theorem run_returned {p : ObjectPool Obj} {tr : List (Tid × Except Fault (Sys Obj Tid))} {s : Sys Obj Tid}
    (hr : IsRun Step (.ok (start p)) tr) (hlast : last (.ok (start p)) tr = .ok s) :
    tr.length ≤ 6 * Fintype.card Tid ∧ Conserved p s ∧
      ((∀ t st, ¬ Step (.ok s) t st) → (∀ t, s.pc t = .done) ∧ s.pool.pool.Perm p.pool) := by
  obtain ⟨hc, hlen⟩ := run_left (conserved_start p) hr hlast
  have hall : total Pc.left (start p : Sys Obj Tid).pc = 6 * Fintype.card Tid := total_eq_mul fun _ => rfl
  refine ⟨by omega, hc, fun hstuck => ?_⟩
  have hdone : ∀ t, s.pc t = .done := by
    intro t
    cases he : exec (s.pc t) s.pool with
    | some r => exact absurd (.exec he) (hstuck t _)
    | none =>
      cases hpc : s.pc t with
      | done => rfl
      | take1 | take2 pt1 | print1 pt1 pt2 | print2 pt1 pt2 | drop2 pt1 pt2 | drop1 pt1 =>
        rw [hpc] at he
        cases he
  refine ⟨hdone, List.perm_iff_count.2 fun x => ?_⟩
  have hcount := hc.count x
  have hnone : total (fun pc : Pc Obj => pc.held.count x) s.pc = 0 := total_eq_zero.2 fun t => by
    rw [hdone t]
    rfl
  omega

/-- The run in which the threads come in this order, each with a step if it has one. -/
def trace : Except Fault (Sys Obj Tid) → List Tid → List (Tid × Except Fault (Sys Obj Tid))
  | _, [] => []
  | .error _, _ => []
  | .ok s, t :: ts =>
    match exec (s.pc t) s.pool with
    | some r => (t, r.map fun x => ⟨x.2, update s.pc t x.1⟩) :: trace (r.map fun x => ⟨x.2, update s.pc t x.1⟩) ts
    | none => trace (.ok s) ts

omit [Fintype Tid] [DecidableEq Obj] in
theorem isRun_trace (st : Except Fault (Sys Obj Tid)) (ts : List Tid) : IsRun Step st (trace st ts) := by
  induction ts generalizing st with
  | nil =>
    cases st <;> trivial
  | cons t ts ih =>
    cases st with
    | error e => trivial
    | ok s =>
      simp only [trace]
      split
      next r he => exact ⟨.exec he, ih _⟩
      next => exact ih _

/-- One thread takes two objects out of a pool of three. -/
def alone : List (Unit × Except Fault (Sys Nat Unit)) :=
  trace (.ok (start ⟨[7, 8, 9], 10, true⟩)) [(), (), (), (), (), ()]

theorem alone_isRun : IsRun Step (.ok (start ⟨[7, 8, 9], 10, true⟩)) alone := isRun_trace _ _

theorem returned_alone :
    alone.length ≤ 6 * Fintype.card Unit ∧ Conserved ⟨[7, 8, 9], 10, true⟩ ⟨⟨[9, 8, 7], 10, true⟩, fun _ : Unit => .done⟩ ∧
      ((∀ t st, ¬ Step (.ok ⟨⟨[9, 8, 7], 10, true⟩, fun _ : Unit => .done⟩) t st) →
        (∀ _ : Unit, (Pc.done : Pc Nat) = .done) ∧ [9, 8, 7].Perm [7, 8, 9]) :=
  run_returned alone_isRun rfl

/-! ## Null pointers -/

/-- What the thread prints through is not null. -/
def Pc.Safe : Pc Obj → Prop
  | .take2 pt1 => pt1 ≠ none
  | .print1 pt1 pt2 => pt1 ≠ none ∧ pt2 ≠ none
  | .print2 _ pt2 => pt2 ≠ none
  | _ => True

/-- The program has not faulted and will not at the next step. -/
def Safe (p : ObjectPool Obj) (st : Except Fault (Sys Obj Tid)) : Prop :=
  ∃ s, st = .ok s ∧ Conserved p s ∧ ∀ t, (s.pc t).Safe

omit [DecidableEq Obj] in
theorem takeOne_ne_none {p : ObjectPool Obj} (h : 0 < size p) : (takeOne p).1 ≠ none := by
  unfold takeOne
  cases hpool : p.pool with
  | nil => simp [size, hpool] at h
  | cons x rest => simp

omit [DecidableEq Tid] in
/-- A thread that has yet to take one finds one, if there are two for each thread. -/
theorem Conserved.size_pos {p : ObjectPool Obj} {s : Sys Obj Tid} {t : Tid} (h : Conserved p s)
    (hn : 2 * Fintype.card Tid ≤ size p) (ht : (s.pc t).held.length < 2) : 0 < size s.pool := by
  have hlt := total_lt_mul (f := fun pc : Pc Obj => pc.held.length) (fun u => (s.pc u).length_held_le) ht
  have hlength := h.length
  omega

omit [DecidableEq Obj] in
theorem Pc.length_held_take2 (pt1 : Option Obj) : (Pc.take2 pt1).held.length < 2 := by
  cases pt1 <;> simp [held]

theorem Step.safe {p : ObjectPool Obj} (hn : 2 * Fintype.card Tid ≤ size p) {st st' : Except Fault (Sys Obj Tid)} {t : Tid}
    (hs : Safe p st) (h : Step st t st') : Safe p st' := by
  obtain ⟨s, rfl, hc, hsafe⟩ := hs
  obtain ⟨he⟩ := h
  rename_i r
  have hnext : ∃ x, r = .ok x ∧ x.1.Safe := by
    have ht := hsafe t
    cases hpc : s.pc t with
    | take1 =>
      rw [hpc] at he
      cases he
      refine ⟨_, rfl, takeOne_ne_none (hc.size_pos (t := t) hn ?_)⟩
      rw [hpc]
      exact Nat.zero_lt_two
    | take2 pt1 =>
      rw [hpc] at he ht
      cases he
      refine ⟨_, rfl, ht, takeOne_ne_none (hc.size_pos (t := t) hn ?_)⟩
      rw [hpc]
      exact Pc.length_held_take2 pt1
    | print1 pt1 pt2 =>
      rw [hpc] at he ht
      cases pt1 with
      | none => exact absurd rfl ht.1
      | some x =>
        cases he
        exact ⟨_, rfl, ht.2⟩
    | print2 pt1 pt2 =>
      rw [hpc] at he ht
      cases pt2 with
      | none => exact absurd rfl ht
      | some x =>
        cases he
        exact ⟨_, rfl, trivial⟩
    | drop2 pt1 pt2 | drop1 pt1 =>
      rw [hpc] at he
      cases he
      exact ⟨_, rfl, trivial⟩
    | done =>
      rw [hpc] at he
      cases he
  obtain ⟨x, rfl, hx⟩ := hnext
  refine ⟨_, rfl, hc.exec he, fun u => ?_⟩
  by_cases hu : u = t
  · subst hu
    simpa using hx
  · simpa [hu] using hsafe u

/-- The thread has yet to take its pointers, or has just done so. -/
def Pc.Taking : Pc Obj → Prop
  | .take1 | .take2 _ | .print1 _ _ => True
  | _ => False

/-- The threads may all take before one prints. -/
theorem exists_all_taken {p : ObjectPool Obj} {s : Sys Obj Tid} (hc : Conserved p s) (htaking : ∀ t, (s.pc t).Taking)
    (hr : Reach Step (.ok (start p)) (.ok s)) :
    ∃ s' : Sys Obj Tid, Reach Step (.ok (start p)) (.ok s') ∧ Conserved p s' ∧ ∀ t, ∃ pt1 pt2, s'.pc t = .print1 pt1 pt2 := by
  induction hn : total Pc.left s.pc using Nat.strong_induction_on generalizing s with
  | h n ih =>
    by_cases hall : ∀ t, ∃ pt1 pt2, s.pc t = .print1 pt1 pt2
    · exact ⟨s, hr, hc, hall⟩
    · obtain ⟨t, ht⟩ := not_forall.1 hall
      have htake : ∃ x : Pc Obj × ObjectPool Obj, exec (s.pc t) s.pool = some (.ok x) ∧ x.1.Taking := by
        have htt := htaking t
        cases hpc : s.pc t with
        | take1 | take2 pt1 => exact ⟨_, rfl, trivial⟩
        | print1 pt1 pt2 => exact absurd ⟨pt1, pt2, hpc⟩ ht
        | print2 pt1 pt2 | drop2 pt1 pt2 | drop1 pt1 | done =>
          rw [hpc] at htt
          exact htt.elim
      obtain ⟨x, he, hx⟩ := htake
      have hleft := total_update Pc.left s.pc t x.1
      have hone := (exec_ok he).2
      refine ih _ ?_ (hc.exec he) (fun u => ?_) (hr.tail (.exec he)) rfl
      · simp only
        omega
      · by_cases hu : u = t
        · subst hu
          simpa using hx
        · simpa [hu] using htaking u

/-- **No interleaving of the calls prints through a null pointer exactly if the pool has two objects for each thread.** -/
theorem never_null_iff (p : ObjectPool Obj) :
    (∀ st : Except Fault (Sys Obj Tid), Reach Step (.ok (start p)) st → st ≠ .error .nullPointer) ↔
      2 * Fintype.card Tid ≤ size p := by
  constructor
  · intro hnever
    by_contra hfew
    obtain ⟨s, hr, hc, hall⟩ := exists_all_taken (conserved_start p) (fun _ : Tid => trivial) .refl
    have hshort : ∃ t, (s.pc t).held.length < 2 := by
      by_contra hfull
      have htwo : ∀ t, (s.pc t).held.length = 2 := by
        intro t
        have hle := (s.pc t).length_held_le
        have hge := not_exists.1 hfull t
        omega
      have htotal : total (fun pc : Pc Obj => pc.held.length) s.pc = 2 * Fintype.card Tid := total_eq_mul htwo
      have hlength := hc.length
      omega
    obtain ⟨t, ht⟩ := hshort
    obtain ⟨pt1, pt2, hpc⟩ := hall t
    rw [hpc] at ht
    cases pt1 with
    | none => exact hnever _ (hr.tail (.exec (t := t) (by rw [hpc]; rfl))) rfl
    | some x =>
      cases pt2 with
      | some y => simp [Pc.held] at ht
      | none =>
        have hfirst : exec (s.pc t) s.pool = some (.ok (.print2 (some x) none, s.pool)) := by
          rw [hpc]
          rfl
        have hsecond : exec (update s.pc t (.print2 (some x) none) t) s.pool = some (.error .nullPointer) := by
          rw [update_self]
          rfl
        exact hnever _ ((hr.tail (.exec hfirst)).tail (.exec hsecond)) rfl
  · intro hn st hr
    have hsafe : Safe p st :=
      hr.inv ⟨start p, rfl, conserved_start p, fun _ => trivial⟩ fun _ _ _ hs hstep => hstep.safe hn hs
    obtain ⟨s, rfl, _⟩ := hsafe
    simp

/-- The three threads of `main`, on the ten objects of its `init`. -/
example : 2 * Fintype.card (Fin 3) ≤ size (init {} 10 20 (List.range 10)).2 := by decide

end TinyUtils.ObjectPool.Callers
