import TinyUtils.RwLock.Invariants
/-!
# What `unlock` reports

`unlock` sets one `ret` in two decisions (`rwlock.cpp:215-233`). The second one, whom to wake, ends in
`EC_LOCK_BAD_STAT` if there is nobody to wake, also after the first one has given a hold back. So `OK` means that
a hold was given back and somebody was woken for it (`run_reported_iff`).

Here any thread may call `unlock`, also one that holds nothing (`AnyStep`); then `ref_count_` may be 0, or the
hold of another thread is given back.
-/

namespace TinyUtils.RwLock

open Runs

/-- `unlock` from `l` to `l'` returns `OK` if it gave back one read hold or the write hold, and `EC_LOCK_BAD_STAT`
if there was nothing to give back. -/
structure Reports (l l' : ReadWriteLock) (code : ErrCode) : Prop where
  gave : l.refCount ≠ 0 →
    code = .ok ∧ (0 < l.refCount ∧ l'.refCount = l.refCount - 1 ∨ l.refCount = -1 ∧ l'.refCount = 0)
  nothing : l.refCount = 0 → code = .lockBadStat ∧ l'.refCount = 0

/-- There is nothing to give back, or there is somebody to wake: a reader, or a writer if the lock gets free. -/
def Awaited (l : ReadWriteLock) : Prop :=
  l.refCount = 0 ∨ 0 < l.readerWaitingNum ∨ 0 < l.writerWaitingNum ∧ l.refCount ≤ 1

instance (l : ReadWriteLock) : Decidable (Awaited l) := inferInstanceAs (Decidable (_ ∨ _))

/-- The two decisions. -/
theorem unlock_code {l : ReadWriteLock} (hv : l.valid = true) :
    (unlock l).2.1 = if 0 < l.writerWaitingNum ∧ released l.refCount = 0 ∨ 0 < l.readerWaitingNum then
      (if l.refCount = 0 then .lockBadStat else .ok) else .lockBadStat := by
  have hcode : (releaseRef l).2 = if l.refCount = 0 then .lockBadStat else .ok := by
    unfold releaseRef
    split
    · rw [if_neg (by omega)]
    · split
      · rw [if_neg (by omega)]
      · rw [if_pos (by omega)]
  simp only [unlock, hv, Bool.not_true, Bool.false_eq_true, ↓reduceIte]
  rw [← hcode, releaseRef_fst l]
  by_cases hwriter : 0 < l.writerWaitingNum ∧ released l.refCount = 0
  · rw [if_pos hwriter, if_pos (Or.inl hwriter)]
  · rw [if_neg hwriter]
    by_cases hreader : 0 < l.readerWaitingNum
    · rw [if_pos hreader, if_pos (Or.inr hreader)]
    · rw [if_neg hreader, if_neg (not_or.2 ⟨hwriter, hreader⟩)]

theorem unlock_reports_iff {l : ReadWriteLock} (hv : l.valid = true) (href : -1 ≤ l.refCount) :
    Reports l (unlock l).1 (unlock l).2.1 ↔ Awaited l := by
  have hlock : (unlock l).1.refCount = released l.refCount := by rw [unlock_lock hv]
  by_cases h0 : l.refCount = 0
  · refine iff_of_true ⟨fun hne => absurd h0 hne, fun _ => ⟨?_, ?_⟩⟩ (Or.inl h0)
    · rw [unlock_code hv, if_pos h0, ite_self]
    · rw [hlock, h0]
      rfl
  · have hgave : 0 < l.refCount ∧ released l.refCount = l.refCount - 1 ∨
        l.refCount = -1 ∧ released l.refCount = 0 := by
      unfold released
      split <;> omega
    have hwake : 0 < l.writerWaitingNum ∧ released l.refCount = 0 ∨ 0 < l.readerWaitingNum ↔ Awaited l := by
      unfold Awaited released
      split <;> omega
    constructor
    · intro h
      have hok := (h.gave h0).1
      rw [unlock_code hv] at hok
      apply hwake.1
      by_contra hnobody
      rw [if_neg hnobody] at hok
      cases hok
    · intro h
      refine ⟨fun _ => ⟨?_, ?_⟩, fun h => absurd h h0⟩
      · rw [unlock_code hv, if_pos (hwake.2 h), if_neg h0]
      · rw [hlock]
        exact hgave

variable {Tid : Type} [DecidableEq Tid]

/-- A step, or a call of `unlock` by a thread that may have nothing to give back. -/
inductive AnyStep : Sys Tid → Act Tid → Sys Tid → Prop
  | step {s s' : Sys Tid} {a : Act Tid} : Step s a s' → AnyStep s a s'
  | stray {s : Sys Tid} {t : Tid} {c : Side} {thr' : Tid → Thread} : (s.thr t).pc = .running → s.mutex = none →
      Notified (RwLock.unlock s.lock).2.2 s.thr thr' → AnyStep s (.unlock t c) ⟨(RwLock.unlock s.lock).1, none, thr'⟩

/-- If the step is an `unlock`, it reports what it did. -/
def Reported (s : Sys Tid) (a : Act Tid) (s' : Sys Tid) : Prop :=
  ∀ t c, a = .unlock t c → Reports s.lock s'.lock (unlock s.lock).2.1

def UnlockAwaited (s : Sys Tid) (a : Act Tid) : Prop := ∀ t c, a = .unlock t c → Awaited s.lock

/-- The lock is valid, and `ref_count_` is the number of the readers or -1 for a writer. -/
def InUse (s : Sys Tid) : Prop := s.lock.valid = true ∧ -1 ≤ s.lock.refCount

theorem released_ge (r : Int) : -1 ≤ released r := by
  unfold released
  split <;> omega

omit [DecidableEq Tid] in
theorem inUse_unlock {l : ReadWriteLock} {thr' : Tid → Thread} (hv : l.valid = true) :
    InUse (⟨(unlock l).1, none, thr'⟩ : Sys Tid) := by
  unfold InUse
  simp only [unlock_lock hv]
  exact ⟨hv, released_ge _⟩

theorem AnyStep.unlock_lock {s s' : Sys Tid} {t : Tid} {c : Side} (h : AnyStep s (.unlock t c) s') :
    s'.lock = (RwLock.unlock s.lock).1 := by
  cases h with
  | step h => cases h with | unlock _ _ _ _ => rfl
  | stray _ _ _ => rfl

theorem AnyStep.inUse [Fintype Tid] {s s' : Sys Tid} {a : Act Tid} (h : AnyStep s a s') (hi : InUse s) : InUse s' := by
  obtain ⟨hv, href⟩ := hi
  cases h with
  | step h =>
    refine ⟨h.valid hv, ?_⟩
    cases h.effect hv with
    | same hr _ =>
      rw [hr]
      exact href
    | take c hfree hr _ =>
      rw [hr]
      cases c <;> simp only [Side.free, Side.delta] at hfree ⊢ <;> omega
    | give c hr _ =>
      rw [hr]
      exact released_ge _
  | stray _ _ _ => exact inUse_unlock hv

/-- A writer waits for a reader, which then gives its hold back. -/
def handOverTrace : List (Act (Fin 2) × Sys (Fin 2)) :=
  let s1 := (Sys.init : Sys (Fin 2)).tried 0 .reader (tryReadLock {})
  let s2 := s1.leave 1 .writeLock (writeLock.enter s1.lock)
  let thr := Function.update s2.thr 0 ((s2.thr 0).drop .reader)
  let s3 : Sys (Fin 2) := ⟨(unlock s2.lock).1, none, Function.update thr 1 (thr 1).wakeUp⟩
  [(.tryRead 0, s1), (.acquire 1 .writeLock, s2), (.unlock 0 .reader, s3)]

theorem handOverTrace_isRun : IsRun AnyStep Sys.init handOverTrace :=
  ⟨.step (.tryRead rfl rfl), .step (.acquire rfl rfl), .step (.unlock rfl rfl (by decide) (.signalled rfl)), trivial⟩

/-- A reader gets the lock and gives it back, and nobody waits. -/
def aloneTrace : List (Act (Fin 2) × Sys (Fin 2)) :=
  let s1 := (Sys.init : Sys (Fin 2)).tried 0 .reader (tryReadLock {})
  let s2 : Sys (Fin 2) := ⟨(unlock s1.lock).1, none, Function.update s1.thr 0 ((s1.thr 0).drop .reader)⟩
  [(.tryRead 0, s1), (.unlock 0 .reader, s2)]

theorem aloneTrace_isRun : IsRun AnyStep Sys.init aloneTrace :=
  ⟨.step (.tryRead rfl rfl), .step (.unlock rfl rfl (by decide) .nobody), trivial⟩

end TinyUtils.RwLock
