import TinyUtils.Lib.Run
import Mathlib.Logic.Function.Basic
/-!
# `ZSpinLock`, C++11 variant (`cpp_utils/lock.cpp:15-43`)

One `atomic_flag`, taken by `lock` or `try_lock` and given back by `unlock`. Each `test_and_set` and
each `clear` is one atomic step. `lock` is written `while(lock_.test_and_set(..)) return true;`
(`lock.cpp:29-30`): a flag that is already set makes it return at once, and a clear flag ends the loop
and the function without a value. Either way the caller goes on into its critical section.

| here | there |
| --- | --- |
| `testAndSet`                  | `atomic_flag::test_and_set` |
| `lock`, `tryLock`, `unlock`   | `lock.cpp:27`, `:32`, `:43` (`ste::` read as `std::`, and `clear`, which has no value, as returning none) |
| `Pc`, `Step`                  | threads that run `lock(); ..; unlock();` as `test_spin` does (`lock.cpp:111`), or `if(try_lock()) { ..; unlock(); }` |
-/

namespace TinyUtils.SpinLock

open Function Runs

/-- The flag after `test_and_set`, and the value it returns. -/
def testAndSet (flag : Bool) : Bool × Bool := (true, flag)

/-- `lock`: the flag, and the value returned (`none`: the end of the function is reached). -/
def lock (flag : Bool) : Bool × Option Bool :=
  let (flag, old) := testAndSet flag
  if old then (flag, some true) else (flag, none)

/-- `try_lock` with `times` tries left: the flag, and the value returned or the tries that are left. -/
def tryLock : Nat → Bool → Bool × (Bool ⊕ Nat)
  | 0, flag => (flag, .inl false)
  | times + 1, flag =>
    let (flag, old) := testAndSet flag
    if old then (flag, .inr times) else (flag, .inl true)

/-- `unlock`: the flag after `clear`. -/
def unlock (_flag : Bool) : Bool := false

inductive Pc
  | outside
  | locking
  | trying (times : Nat)
  | critical
deriving DecidableEq, Repr

structure Sys (Tid : Type) where
  flag : Bool
  pc : Tid → Pc

inductive Act (Tid : Type)
  | callLock (t : Tid)
  | callTryLock (t : Tid)
  | exec (t : Tid)

/-- The next atomic step of a thread. -/
def exec : Pc → Bool → Option (Pc × Bool)
  | .outside, _ => none
  | .locking, flag => some (.critical, (lock flag).1)
  | .trying times, flag =>
    match tryLock times flag with
    | (flag, .inl true) => some (.critical, flag)
    | (flag, .inl false) => some (.outside, flag)
    | (flag, .inr times) => some (.trying times, flag)
  | .critical, flag => some (.outside, unlock flag)

variable {Tid : Type} [DecidableEq Tid]

/-- `ATOMIC_FLAG_INIT`, and no thread has called the lock. -/
def Sys.init : Sys Tid := ⟨false, fun _ => .outside⟩

inductive Step : Sys Tid → Act Tid → Sys Tid → Prop
  | callLock {s : Sys Tid} {t : Tid} : s.pc t = .outside →
      Step s (.callLock t) { s with pc := update s.pc t .locking }
  | callTryLock {s : Sys Tid} {t : Tid} : s.pc t = .outside →
      Step s (.callTryLock t) { s with pc := update s.pc t (.trying 100) }
  | exec {s : Sys Tid} {t : Tid} {p : Pc} {flag : Bool} : exec (s.pc t) s.flag = some (p, flag) →
      Step s (.exec t) ⟨flag, update s.pc t p⟩

/-- At most one thread is in its critical section. -/
def MutualExclusion (s : Sys Tid) : Prop :=
  ∀ t u, s.pc t = .critical → s.pc u = .critical → t = u

/-- If the step is the `test_and_set` of `lock`, it finds the flag clear. -/
def LockFindsClear (s : Sys Tid) (a : Act Tid) : Prop :=
  ∀ t, a = .exec t → s.pc t = .locking → s.flag = false

/-- The flag is set exactly while a thread is in its critical section. -/
structure Inv (s : Sys Tid) : Prop where
  owner : s.flag = true ↔ ∃ t, s.pc t = .critical
  excl : MutualExclusion s

omit [DecidableEq Tid] in
theorem inv_init : Inv (Sys.init : Sys Tid) :=
  ⟨⟨nofun, fun ⟨_, h⟩ => nomatch h⟩, fun _ _ h => nomatch h⟩

/-- A step of `t` that neither enters nor leaves the critical section. -/
theorem inv_outside {s : Sys Tid} {t : Tid} {p : Pc} (hi : Inv s) (h : s.pc t ≠ .critical) (hp : p ≠ .critical) :
    Inv ⟨s.flag, update s.pc t p⟩ := by
  have hpc : ∀ u, update s.pc t p u = .critical ↔ s.pc u = .critical := by
    intro u
    by_cases hu : u = t
    · subst hu; rw [update_self]; exact iff_of_false hp h
    · rw [update_of_ne hu]
  refine ⟨by simp only [hpc]; exact hi.owner, fun u v hu hv => ?_⟩
  exact hi.excl u v ((hpc u).1 hu) ((hpc v).1 hv)

/-- `t` takes a clear flag. -/
theorem inv_enter {s : Sys Tid} {t : Tid} (hi : Inv s) (hf : s.flag = false) :
    Inv ⟨true, update s.pc t .critical⟩ := by
  have hno : ∀ u, s.pc u ≠ .critical := fun u hu => by
    rw [hi.owner.2 ⟨u, hu⟩] at hf; cases hf
  have hpc : ∀ u, update s.pc t .critical u = .critical → u = t := by
    intro u hu
    by_contra hut
    rw [update_of_ne hut] at hu
    exact hno u hu
  exact ⟨⟨fun _ => ⟨t, update_self ..⟩, fun _ => rfl⟩, fun u v hu hv => (hpc u hu).trans (hpc v hv).symm⟩

/-- The owner clears the flag. -/
theorem inv_leave {s : Sys Tid} {t : Tid} (hi : Inv s) (ht : s.pc t = .critical) :
    Inv ⟨false, update s.pc t .outside⟩ := by
  have hno : ∀ u, update s.pc t .outside u ≠ .critical := by
    intro u hu
    by_cases hut : u = t
    · subst hut; rw [update_self] at hu; cases hu
    · rw [update_of_ne hut] at hu; exact hut (hi.excl u t hu ht)
  exact ⟨⟨nofun, fun ⟨u, hu⟩ => absurd hu (hno u)⟩, fun u _ hu => absurd hu (hno u)⟩

/-- What one atomic step of a thread does: enter by a clear flag, enter by `lock` through a set flag,
leave, or neither. -/
theorem exec_cases {p p' : Pc} {flag flag' : Bool} (h : exec p flag = some (p', flag')) :
    (p ≠ .critical ∧ p' = .critical ∧ flag = false ∧ flag' = true) ∨
    (p = .locking ∧ p' = .critical ∧ flag = true ∧ flag' = true) ∨
    (p = .critical ∧ p' = .outside ∧ flag' = false) ∨
    (p ≠ .critical ∧ p' ≠ .critical ∧ p ≠ .locking ∧ flag' = flag) := by
  cases p with
  | outside => cases h
  | locking => cases flag <;> cases h <;> simp [lock, testAndSet]
  | trying times =>
    cases times with
    | zero => cases h; simp
    | succ times => cases flag <;> cases h <;> simp
  | critical => cases h; simp [unlock]

theorem Step.inv {s s' : Sys Tid} {a : Act Tid} (hi : Inv s) (h : Step s a s') (hP : LockFindsClear s a) :
    Inv s' := by
  cases h with
  | callLock ht => exact inv_outside hi (by rw [ht]; simp) (by simp)
  | callTryLock ht => exact inv_outside hi (by rw [ht]; simp) (by simp)
  | @exec t p flag he =>
    rcases exec_cases he with ⟨_, rfl, hf, rfl⟩ | ⟨hl, _, hf, _⟩ | ⟨hc, rfl, rfl⟩ | ⟨hc, hp, _, rfl⟩
    · exact inv_enter hi hf
    · rw [hP t rfl hl] at hf; cases hf
    · exact inv_leave hi hc
    · exact inv_outside hi hc hp

/-- A `lock` that finds the flag set joins the owner in the critical section. -/
theorem Step.lock_clear {s s' : Sys Tid} {a : Act Tid} (hi : Inv s) (h : Step s a s') (hQ : MutualExclusion s') :
    LockFindsClear s a := by
  rintro t rfl hl
  cases h with
  | @exec _ p flag he =>
    rw [hl] at he
    cases he
    cases hf : s.flag with
    | false => rfl
    | true =>
      obtain ⟨u, hu⟩ := hi.owner.1 hf
      have hut : u ≠ t := by
        rintro rfl
        rw [hl] at hu
        cases hu
      refine absurd (hQ u t ?_ ?_) hut
      · simp only [update_of_ne hut]; exact hu
      · simp only [update_self]

/-- **Mutual exclusion**: a run has at most one thread in its critical section in every state if and
only if every `lock` in it finds the flag clear. -/
theorem run_mutualExclusion_iff {tr : List (Act Tid × Sys Tid)} (h : IsRun Step Sys.init tr) :
    StatesMeet MutualExclusion Sys.init tr ↔ StepsMeet LockFindsClear (Sys.init : Sys Tid) tr :=
  run_exact (fun _ hi => hi.excl) (fun _ _ _ hi hs hP => hs.inv hi hP)
    (fun _ _ _ hi hs hQ => hs.lock_clear hi hQ) inv_init h

/-- Thread `0` takes the lock by `lock`; thread `1` goes for it by `a` and takes one step. -/
def twoThreads (a : Act (Fin 2)) (p p' : Pc) : List (Act (Fin 2) × Sys (Fin 2)) :=
  let s1 : Sys (Fin 2) := ⟨false, update (fun _ => .outside) 0 .locking⟩
  let s2 : Sys (Fin 2) := ⟨true, update s1.pc 0 .critical⟩
  let s3 : Sys (Fin 2) := ⟨true, update s2.pc 1 p⟩
  [(.callLock 0, s1), (.exec 0, s2), (a, s3), (.exec 1, ⟨true, update s3.pc 1 p'⟩)]

/-- The second thread uses `try_lock` and is kept out. -/
theorem mutualExclusion_tryLock :
    StatesMeet MutualExclusion Sys.init (twoThreads (.callTryLock 1) (.trying 100) (.trying 99)) := by
  have hrun : IsRun Step Sys.init (twoThreads (.callTryLock 1) (.trying 100) (.trying 99)) :=
    ⟨.callLock rfl, .exec rfl, .callTryLock rfl, .exec rfl, trivial⟩
  refine (run_mutualExclusion_iff hrun).2 ⟨?_, ?_, ?_, ?_, trivial⟩ <;> rintro t ha hl <;> cases ha
  · rfl
  · cases hl

/-- The second thread uses `lock` and is let in. -/
theorem not_mutualExclusion_lock :
    ¬ ∀ tr : List (Act (Fin 2) × Sys (Fin 2)), IsRun Step Sys.init tr → StatesMeet MutualExclusion Sys.init tr := by
  intro hall
  have hrun : IsRun Step Sys.init (twoThreads (.callLock 1) .locking .critical) :=
    ⟨.callLock rfl, .exec rfl, .callLock rfl, .exec rfl, trivial⟩
  exact absurd ((hall _ hrun).2.2.2.2 0 1 rfl rfl) (by decide)

end TinyUtils.SpinLock
