import TinyUtils.RwLock.Invariants
/-!
# The life of a `ReadWriteLock`

`destroy` (`rwlock.cpp:54`) refuses while a hold or a waiter is counted, and marks the lock as no longer valid; the
acquisitions and `unlock` ask for that mark first. Here any thread that is not waiting may call it, as one step, and the
others go on calling the lock afterwards (`LifeStep`).

A thread that died in a timed wait stays counted (`DiesTimed`), and then the lock is refused for ever: `Wedged`.
-/

namespace TinyUtils.RwLock

open Function Threads Runs

variable {Tid : Type} [DecidableEq Tid]

/-- A step of the lock's use, or a call of `destroy`. -/
inductive LifeStep : Sys Tid → Option (Act Tid) → Sys Tid → Prop
  | use {s s' : Sys Tid} {a : Act Tid} : Step s a s' → LifeStep s (some a) s'
  | destroy {s : Sys Tid} {t : Tid} : (s.thr t).pc = .running →
      LifeStep s none { s with lock := (RwLock.destroy s.lock).1 }

/-- The thread has no hold and does not wait. -/
def Thread.Idle (th : Thread) : Prop := ∀ c, th.holds c = 0 ∧ th.waitsFor c = false

/-- `mutex_` is with a thread that died, which is still counted as a waiter. -/
def Wedged (s : Sys Tid) : Prop := s.mutex ≠ none ∧ ∃ c, s.lock.waitingNum c ≠ 0

variable [Fintype Tid]

/-- A lock in use, or one that was destroyed when nobody had any business with it. -/
def LifeInv (s : Sys Tid) : Prop :=
  (s.lock.valid = true ∧ HoldInv s ∧ (Accounted s ∨ Wedged s)) ∨
  (s.lock.valid = false ∧ s.mutex = none ∧ ∀ t, (s.thr t).Idle)

omit [DecidableEq Tid] in
theorem idle_iff {s : Sys Tid} : (∀ t, (s.thr t).Idle) ↔ ∀ c, s.held c = 0 ∧ s.waiters c = 0 := by
  have hheld : ∀ c, s.held c = 0 ↔ ∀ t, (s.thr t).holds c = 0 := fun c => total_eq_zero
  have hwaiters : ∀ c, s.waiters c = 0 ↔ ∀ t, (s.thr t).waitsFor c = false := fun c => count_eq_zero
  simp only [hheld, hwaiters, Thread.Idle]
  constructor
  · intro h c
    exact ⟨fun t => (h t c).1, fun t => (h t c).2⟩
  · intro h t c
    exact ⟨(h c).1 t, (h c).2 t⟩

theorem waitingNum_eq_zero {l : ReadWriteLock} :
    (∀ c, l.waitingNum c = 0) ↔ l.readerWaitingNum = 0 ∧ l.writerWaitingNum = 0 := by
  constructor
  · intro h
    exact ⟨h .reader, h .writer⟩
  · rintro ⟨hr, hw⟩ (_ | _)
    · exact hr
    · exact hw

/-- `destroy` of a lock that is valid. -/
theorem destroy_valid {l : ReadWriteLock} (hv : l.valid = true) :
    (l.refCount = 0 ∧ (∀ c, l.waitingNum c = 0) ∧ destroy l = ({ l with valid := false }, .ok)) ∨
    (¬ (l.refCount = 0 ∧ ∀ c, l.waitingNum c = 0) ∧ destroy l = (l, .lockUsing)) := by
  rw [waitingNum_eq_zero]
  simp only [destroy, hv, Bool.not_true, Bool.false_eq_true, ↓reduceIte]
  split
  · exact Or.inr ⟨by omega, rfl⟩
  · exact Or.inl ⟨by omega, by omega, rfl⟩

/-- `destroy` of a lock that is not. -/
theorem destroy_invalid {l : ReadWriteLock} (hv : l.valid = false) : destroy l = (l, .lockInvalid) := by
  simp [destroy, hv]

omit [DecidableEq Tid] in
/-- What the counters say of the threads. -/
theorem counters_iff {s : Sys Tid} (hi : HoldInv s) (hw : Accounted s ∨ Wedged s) :
    s.lock.refCount = 0 ∧ (∀ c, s.lock.waitingNum c = 0) ↔ s.mutex = none ∧ ∀ t, (s.thr t).Idle := by
  have hheld : s.lock.refCount = 0 ↔ ∀ c, s.held c = 0 := by
    constructor
    · rintro h (_ | _) <;> unfold HoldInv at hi <;> omega
    · intro h
      have hr := h .reader
      have hw := h .writer
      unfold HoldInv at hi
      omega
  rw [idle_iff, hheld]
  rcases hw with ⟨hm, hcount⟩ | ⟨hm, c, hc⟩
  · simp only [hm, hcount, true_and]
    exact ⟨fun h c => ⟨h.1 c, h.2 c⟩, fun h => ⟨fun c => (h c).1, fun c => (h c).2⟩⟩
  · exact iff_of_false (fun h => hc (h.2 c)) fun h => hm h.1

/-! ## Every state -/

omit [Fintype Tid] in
/-- Where `mutex_` is with a dead thread, only a condition variable can still let go of a thread. -/
theorem Step.wedged {s s' : Sys Tid} {a : Act Tid} (h : Step s a s') (hw : Wedged s) : Wedged s' := by
  cases h with
  | acquire _ hm | tryRead _ hm | tryWrite _ hm | unlock _ hm | resume _ _ hm | die _ hm => exact absurd hm hw.1
  | spurious | timeout | cancel => exact hw

/-- A thread that dies with `mutex_` was counted. -/
theorem Step.waits {s s' : Sys Tid} {a : Act Tid} (h : Step s a s') (hv : s.lock.valid = true)
    (hw : Accounted s ∨ Wedged s) : Accounted s' ∨ Wedged s' := by
  rcases hw with ha | hw
  · rcases h.accounts hv ha with ⟨ha', _⟩ | ⟨hm, t, w, rfl, hpc, ht⟩
    · exact Or.inl ha'
    · refine Or.inr ⟨hm, w.loop.side, ?_⟩
      have hcounted : 0 < s.waiters w.loop.side := by
        have hone := le_total (fun th => if Thread.waitsFor w.loop.side th then 1 else 0) s.thr t
        simp only [Thread.waitsFor, hpc, beq_self_eq_true, ↓reduceIte] at hone
        exact hone
      cases h with
      | resume hpc' hk =>
        rw [hpc] at hpc'
        cases hpc'
        rcases hk with h | h <;> cases h
      | @die _ w' hpc' _ =>
        rw [hpc] at hpc'
        cases hpc'
        rcases die_cases s t w with ⟨hf, _⟩ | ⟨_, hd⟩
        · rw [ht] at hf
          cases hf
        · rw [hd]
          exact (ha.2 _ ▸ hcounted).ne'
  · exact Or.inr (h.wedged hw)

omit [Fintype Tid] in
/-- After `destroy` no step changes anything. -/
theorem Step.idle {s s' : Sys Tid} {a : Act Tid} (h : Step s a s') (hv : s.lock.valid = false)
    (hidle : ∀ t, (s.thr t).Idle) : s' = s := by
  have hwaits : ∀ {t w k}, (s.thr t).pc ≠ .waiting w k := by
    intro t w k hpc
    have hno := (hidle t w.loop.side).2
    simp [Thread.waitsFor, hpc] at hno
  cases h with
  | @acquire t w hpc hm =>
    have hexit : (s.thr t).exit w (some .lockInvalid) = { s.thr t with pc := .running } := rfl
    have hthr : (s.thr t).exit w (some .lockInvalid) = s.thr t := by rw [hexit, ← hpc]
    simp [Sys.leave, Sys.put, WaitLoop.enter, hv, hthr]
  | tryRead hpc hm => simp [Sys.tried, Sys.put, tryReadLock, hv]
  | tryWrite hpc hm => simp [Sys.tried, Sys.put, tryWriteLock, hv]
  | @unlock t c thr' hpc hm hh hn => exact absurd (hidle t c).1 hh.ne'
  | spurious hpc | timeout hpc _ _ | cancel hpc _ => exact absurd hpc hwaits
  | resume hpc _ _ => exact absurd hpc hwaits
  | die hpc _ => exact absurd hpc hwaits

theorem LifeStep.inv {s s' : Sys Tid} {a : Option (Act Tid)} (hi : LifeInv s) (h : LifeStep s a s') : LifeInv s' := by
  rcases hi with ⟨hv, hhold, hwaits⟩ | ⟨hv, hm, hidle⟩
  · cases h with
    | use h => exact Or.inl ⟨h.valid hv, holdInv_effect hhold (h.effect hv), h.waits hv hwaits⟩
    | destroy hpc =>
      rcases destroy_valid hv with ⟨hr, hc, hd⟩ | ⟨_, hd⟩ <;> rw [hd]
      · obtain ⟨hm, hidle⟩ := (counters_iff hhold hwaits).1 ⟨hr, hc⟩
        exact Or.inr ⟨rfl, hm, hidle⟩
      · exact Or.inl ⟨hv, hhold, hwaits⟩
  · have hsame : s' = s := by
      cases h with
      | use h => exact h.idle hv hidle
      | destroy hpc => rw [destroy_invalid hv]
    rw [hsame]
    exact Or.inr ⟨hv, hm, hidle⟩

omit [DecidableEq Tid] in
theorem lifeInv_init : LifeInv (Sys.init : Sys Tid) := Or.inl ⟨rfl, holdInv_init, Or.inl accounted_init⟩

/-- A writer takes the lock and gives it back; then the lock is destroyed. -/
def usedOnce : Sys (Fin 2) :=
  let s1 := (Sys.init : Sys (Fin 2)).tried 0 .writer (tryWriteLock {})
  let s2 : Sys (Fin 2) := ⟨(unlock s1.lock).1, none, update s1.thr 0 ((s1.thr 0).drop .writer)⟩
  { s2 with lock := (destroy s2.lock).1 }

end TinyUtils.RwLock
