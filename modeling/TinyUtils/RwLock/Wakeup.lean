import TinyUtils.RwLock.Invariants
/-!
# Lost wake-ups of `ReadWriteLock`

`unlock` signals a writer whenever `writer_waiting_num_ > 0` (`rwlock.cpp:222`). The counter still
counts a writer whose wait has timed out or was cancelled and that has not resumed. If only such
writers are left, nobody hears the signal and the readers are not woken. And a writer that did hear it
may time out or be cancelled before it resumes; then neither the end of `timed_write_wait` (`:193-199`)
nor `cancel_write_lock_wait` (`:246`) wakes anybody in its place.

`Heard` is the condition that neither happens; under it, whenever the lock is free and a thread is
blocked, some thread has been woken and will come to take the lock (`WakeInv`).
-/

namespace TinyUtils.RwLock

open Function Threads Runs

variable {Tid : Type}

/-- The lock is free and nobody is on the way to it, and yet a thread is blocked. -/
def Stranded (s : Sys Tid) : Prop :=
  s.lock.refCount = 0 ∧ (∀ t c, (s.thr t).holds c = 0) ∧ (∀ t, (s.thr t).pending = false) ∧
    ∃ t c, (s.thr t).blockedOn c = true

/-- If the step is an `unlock` that frees the lock and signals a writer while a reader is blocked, a
writer is blocked too, or some thread is already woken. If it ends the wait of a woken thread while the
lock is free and a thread is blocked, another thread is woken, such as one that the signal has passed to. -/
def Heard (s : Sys Tid) : Act Tid → Prop
  | .unlock _ _ => released s.lock.refCount = 0 → 0 < s.lock.writerWaitingNum →
      (∃ u, (s.thr u).blockedOn .reader = true) → ∃ u, (s.thr u).blockedOn .writer = true ∨ (s.thr u).woken = true
  | .timeout t | .cancel t => (s.thr t).woken = true → s.lock.refCount = 0 →
      (∃ u c, (s.thr u).blockedOn c = true) → ∃ u, u ≠ t ∧ (s.thr u).woken = true
  | _ => True

/-- When the lock is free and a thread is blocked, a thread is woken. -/
def WakeInv (s : Sys Tid) : Prop :=
  s.lock.refCount = 0 → (∃ t c, (s.thr t).blockedOn c = true) → ∃ t, (s.thr t).woken = true

theorem WakeInv.not_stranded {s : Sys Tid} (h : WakeInv s) : ¬ Stranded s := by
  rintro ⟨h0, _, hp, hb⟩
  obtain ⟨t, ht⟩ := h h0 hb
  have hpt := hp t
  unfold Thread.woken at ht
  unfold Thread.pending at hpt
  split at ht
  · rename_i hpc; simp [hpc] at hpt
  · cases ht

theorem blockedOn_waitsFor {th : Thread} {c : Side} (h : th.blockedOn c = true) : th.waitsFor c = true := by
  unfold Thread.blockedOn at h
  split at h
  · rename_i hpc; simpa [Thread.waitsFor, hpc] using h
  · cases h

theorem blockedOn_drop (th : Thread) (c d : Side) : (th.drop c).blockedOn d = th.blockedOn d := by
  simp [Thread.blockedOn]

theorem woken_drop (th : Thread) (c : Side) : (th.drop c).woken = th.woken := by
  simp [Thread.woken]

theorem woken_wakeUp {th : Thread} {c : Side} (h : th.blockedOn c = true) : th.wakeUp.woken = true := by
  unfold Thread.blockedOn at h
  split at h
  · rename_i hpc; simp [Thread.wakeUp, Thread.woken, hpc]
  · cases h

theorem blockedOn_wakeUp (th : Thread) (c : Side) : th.wakeUp.blockedOn c = false := by
  unfold Thread.wakeUp
  split
  · rfl
  · rename_i h
    unfold Thread.blockedOn
    split
    · rename_i w hpc; exact absurd hpc (h w)
    · rfl

variable [DecidableEq Tid]

/-- If a thread is blocked after a step of `t` that did not block `t`, one was blocked before. -/
theorem blocked_of_update {s : Sys Tid} {t : Tid} {th : Thread}
    (hb : ∀ c, th.blockedOn c = true → (s.thr t).blockedOn c = true)
    (hex : ∃ u c, (update s.thr t th u).blockedOn c = true) : ∃ u c, (s.thr u).blockedOn c = true := by
  obtain ⟨u, c, hu⟩ := hex
  by_cases hut : u = t
  · subst hut
    rw [update_self] at hu
    exact ⟨u, c, hb c hu⟩
  · rw [update_of_ne hut] at hu
    exact ⟨u, c, hu⟩

/-- A step of `t` that leaves `ref_count_` alone, blocks nobody and loses no wake-up. -/
theorem wakeInv_put {s : Sys Tid} {t : Tid} {l : ReadWriteLock} {m : Option Tid} {th : Thread} (hi : WakeInv s)
    (hl : l.refCount = s.lock.refCount) (hb : ∀ c, th.blockedOn c = true → (s.thr t).blockedOn c = true)
    (hw : (s.thr t).woken = true → th.woken = true) : WakeInv { s.put t l th with mutex := m } := by
  intro h0 hex
  have hbs : ∃ u c, (s.thr u).blockedOn c = true := blocked_of_update hb hex
  obtain ⟨u, hu⟩ := hi (hl ▸ h0) hbs
  refine ⟨u, ?_⟩
  simp only [Sys.put]
  by_cases hut : u = t
  · subst hut; rw [update_self]; exact hw hu
  · rw [update_of_ne hut]; exact hu

/-- The wait of `t` ends. If `t` was woken, another woken thread takes its place. -/
theorem wakeInv_offCond {s : Sys Tid} {t : Tid} {w : Waiter} {k : Wake} (hi : WakeInv s) (hk : k ≠ .blocked)
    (hother : (s.thr t).woken = true → s.lock.refCount = 0 → (∃ u c, (s.thr u).blockedOn c = true) →
      ∃ u, u ≠ t ∧ (s.thr u).woken = true) : WakeInv (s.offCond t w k) := by
  have hoff : ∀ c, ({ s.thr t with pc := .waiting w k } : Thread).blockedOn c = false := by
    intro c
    cases k <;> first | exact absurd rfl hk | rfl
  intro h0 hex
  have hblocked : ∃ u c, (s.thr u).blockedOn c = true :=
    blocked_of_update (fun c hc => absurd ((hoff c).symm.trans hc) (by decide)) hex
  have hwoken : ∃ u, u ≠ t ∧ (s.thr u).woken = true := by
    by_cases ht : (s.thr t).woken = true
    · exact hother ht h0 hblocked
    · obtain ⟨u, hu⟩ := hi h0 hblocked
      refine ⟨u, ?_, hu⟩
      rintro rfl
      exact ht hu
  obtain ⟨u, hut, hu⟩ := hwoken
  refine ⟨u, ?_⟩
  simp only [Sys.offCond, Sys.put]
  rw [update_of_ne hut]
  exact hu

/-- A region of a wait loop never leaves the lock free: it blocks on a lock that is taken, or takes it. -/
theorem wakeInv_loop {s : Sys Tid} {t : Tid} {w : Waiter} {l : ReadWriteLock} :
    WakeInv (s.leave t w (w.loop.loop l)) := by
  intro h0
  exfalso
  rcases loop_cases w l with ⟨he, _, hne⟩ | ⟨he, hf⟩
  · simp only [Sys.leave, Sys.put, he, refCount_incWaiting] at h0
    exact hne h0
  · simp only [Sys.leave, Sys.put, he] at h0
    generalize w.loop.side = d at h0 hf
    cases d <;> simp only [Side.free, Side.delta] at hf h0 <;> omega

theorem wakeInv_tried {s : Sys Tid} {t : Tid} {c : Side} {r : ReadWriteLock × ErrCode} (hi : WakeInv s)
    (hr : r = (s.lock, .lockBusy) ∨
      r = ({ s.lock with refCount := s.lock.refCount + c.delta }, .ok) ∧ c.free s.lock.refCount) :
    WakeInv (s.tried t c r) := by
  rcases hr with rfl | ⟨rfl, hf⟩
  · exact wakeInv_put hi rfl (fun _ h => h) (fun h => h)
  · intro h0
    exfalso
    simp only [Sys.tried, Sys.put] at h0
    cases c <;> simp only [Side.free, Side.delta] at hf h0 <;> omega

/-- Whom `unlock` notifies (`rwlock.cpp:222-233`). -/
theorem unlock_notify {l : ReadWriteLock} (hv : l.valid = true) :
    (unlock l).2.2 =
      if 0 < l.writerWaitingNum ∧ released l.refCount = 0 then .signalWriter
      else if 0 < l.readerWaitingNum then .broadcastReaders else .nobody := by
  simp only [unlock, hv, Bool.not_true, Bool.false_eq_true, ↓reduceIte]
  rw [releaseRef_fst l]
  split
  · rfl
  · split <;> rfl

variable [Fintype Tid]

omit [DecidableEq Tid] in
/-- A blocked thread is counted. -/
theorem waitingNum_pos {s : Sys Tid} {t : Tid} {c : Side} (ha : Accounted s)
    (h : (s.thr t).blockedOn c = true) : 0 < s.lock.waitingNum c := by
  have h1 : (if (s.thr t).waitsFor c then 1 else 0) ≤ s.waiters c :=
    le_total (fun th => if Thread.waitsFor c th then 1 else 0) s.thr t
  rw [blockedOn_waitsFor h] at h1
  rw [ha.2 c]
  exact h1

theorem wakeInv_unlock {s : Sys Tid} {t : Tid} {c : Side} {thr' : Tid → Thread} (hv : s.lock.valid = true)
    (ha : Accounted s) (hP : Heard s (.unlock t c))
    (hn : Notified (unlock s.lock).2.2 (update s.thr t ((s.thr t).drop c)) thr') :
    WakeInv (⟨(unlock s.lock).1, none, thr'⟩ : Sys Tid) := by
  intro h0 hex
  rw [unlock_lock hv] at h0
  have hbd : ∀ u d, (update s.thr t ((s.thr t).drop c) u).blockedOn d = (s.thr u).blockedOn d := fun u d => by
    by_cases hut : u = t
    · subst hut; rw [update_self, blockedOn_drop]
    · rw [update_of_ne hut]
  have hwd : ∀ u, (update s.thr t ((s.thr t).drop c) u).woken = (s.thr u).woken := fun u => by
    by_cases hut : u = t
    · subst hut; rw [update_self, woken_drop]
    · rw [update_of_ne hut]
  rw [unlock_notify hv] at hn
  by_cases hww : 0 < s.lock.writerWaitingNum
  · rw [if_pos ⟨hww, h0⟩] at hn
    cases hn with
    | @signalled _ u hu => exact ⟨u, by simp only [update_self]; exact woken_wakeUp hu⟩
    | unheard hno =>
      -- only readers are blocked, so the condition gives the thread that was woken before
      have hrd : ∃ u, (s.thr u).blockedOn .reader = true := by
        obtain ⟨u, d, hu⟩ := hex
        cases d with
        | reader => exact ⟨u, by rw [← hbd]; exact hu⟩
        | writer => rw [hno u] at hu; cases hu
      obtain ⟨u, hu | hu⟩ := hP h0 hww hrd
      · rw [← hbd, hno u] at hu; cases hu
      · exact ⟨u, by simp only [hwd]; exact hu⟩
  · -- no writer is counted, so none is blocked, and every blocked reader is woken
    rw [if_neg (fun h => hww h.1)] at hn
    exfalso
    have hw0 : ∀ u, (s.thr u).blockedOn .writer ≠ true := fun u hu => hww (waitingNum_pos ha hu)
    obtain ⟨u, d, hu⟩ := hex
    by_cases hrw : 0 < s.lock.readerWaitingNum
    · rw [if_pos hrw] at hn
      cases hn with
      | broadcast =>
        simp only [hbd] at hu
        by_cases hr : (s.thr u).blockedOn .reader = true
        · rw [if_pos hr, blockedOn_wakeUp] at hu; cases hu
        · rw [if_neg hr, hbd] at hu
          cases d with
          | reader => exact hr hu
          | writer => exact hw0 u hu
    · rw [if_neg hrw] at hn
      cases hn with
      | nobody =>
        simp only [hbd] at hu
        cases d with
        | reader => exact hrw (waitingNum_pos ha hu)
        | writer => exact hw0 u hu

theorem Step.wakeInv {s s' : Sys Tid} {a : Act Tid} (h : Step s a s') (hv : s.lock.valid = true)
    (ha : s.mutex = none → Accounted s) (hi : WakeInv s) (hP : Heard s a) : WakeInv s' := by
  cases h with
  | @acquire t w hpc hm =>
    have he : w.loop.enter s.lock = w.loop.loop s.lock := by simp [WaitLoop.enter, hv]
    rw [he]
    exact wakeInv_loop
  | tryRead hpc hm => exact wakeInv_tried hi (tryReadLock_cases hv)
  | tryWrite hpc hm => exact wakeInv_tried hi (tryWriteLock_cases hv)
  | unlock hpc hm hh hn => exact wakeInv_unlock hv (ha hm) hP hn
  | spurious hpc => exact wakeInv_offCond hi (by decide) fun hw => by simp [Thread.woken, hpc] at hw
  | timeout _ _ _ => exact wakeInv_offCond hi (by decide) hP
  | cancel _ _ => exact wakeInv_offCond hi (by decide) hP
  | @resume t w k hpc hk hm =>
    rcases hk with rfl | rfl
    · exact wakeInv_loop
    · refine wakeInv_put hi (refCount_decWaiting ..) (fun c hc => ?_) (fun hw => ?_)
      · cases hc
      · simp [Thread.woken, hpc] at hw
  | @die t w hpc hm =>
    have hw : (s.thr t).woken = true → ({ s.thr t with pc := .dead } : Thread).woken = true := fun hw => by
      simp [Thread.woken, hpc] at hw
    rcases die_cases s t w with ⟨_, hd⟩ | ⟨_, hd⟩ <;> rw [hd]
    · exact wakeInv_put hi (refCount_decWaiting ..) (fun c hc => by cases hc) hw
    · exact wakeInv_put hi rfl (fun c hc => by cases hc) hw

omit [Fintype Tid] in
/-- Without `mutex_` no region runs. -/
theorem Step.mutex {s s' : Sys Tid} {a : Act Tid} (h : Step s a s') (hm : s.mutex ≠ none) : s'.mutex ≠ none := by
  cases h <;> first | exact absurd ‹s.mutex = none› hm | exact hm

/-- **No lost wake-up**: in a run in which every signal of `unlock` that matters is heard and none is lost
on a thread that then times out or is cancelled, no state has a free lock that nobody is on the way to and
a blocked thread. -/
theorem run_not_stranded {tr : List (Act Tid × Sys Tid)} (h : IsRun Step Sys.init tr)
    (hP : StepsMeet Heard Sys.init tr) : StatesMeet (fun s => ¬ Stranded s) Sys.init tr := by
  refine run_inv (I := fun s => s.lock.valid = true ∧ (s.mutex = none → Accounted s) ∧ WakeInv s)
    (fun s hi => hi.2.2.not_stranded) ?_ ?_ h hP
  · rintro s a s' ⟨hv, ha, hi⟩ hs hP
    refine ⟨hs.valid hv, fun hm => ?_, hs.wakeInv hv ha hi hP⟩
    have hm0 : s.mutex = none := by
      by_contra hne
      exact hs.mutex hne hm
    rcases hs.accounts hv (ha hm0) with ⟨h, _⟩ | ⟨hne, _⟩
    · exact h
    · exact absurd hm hne
  · refine ⟨rfl, fun _ => accounted_init, ?_⟩
    rintro _ ⟨t, c, ht⟩
    cases ht

/-- A writer has the lock, two readers and another writer wait. The writer hears the signal of `unlock`
and is cancelled before it resumes, but one of the readers has woken by itself. -/
def wokenTrace : List (Act (Fin 4) × Sys (Fin 4)) :=
  let s1 := (Sys.init : Sys (Fin 4)).leave 0 .writeLock (writeLock.enter {})
  let s2 := s1.leave 1 .readLock (readLock.enter s1.lock)
  let s3 := s2.leave 2 .readLock (readLock.enter s2.lock)
  let s4 := s3.leave 3 .writeLock (writeLock.enter s3.lock)
  let thr := update s4.thr 0 ((s4.thr 0).drop .writer)
  let s5 : Sys (Fin 4) := ⟨(unlock s4.lock).1, none, update thr 3 (thr 3).wakeUp⟩
  let s6 := s5.offCond 1 .readLock .woken
  let s7 := s6.offCond 3 .writeLock .cancelled
  [(.acquire 0 .writeLock, s1), (.acquire 1 .readLock, s2), (.acquire 2 .readLock, s3), (.acquire 3 .writeLock, s4),
    (.unlock 0 .writer, s5), (.spurious 1, s6), (.cancel 3, s7)]

theorem not_stranded_woken : StatesMeet (fun s => ¬ Stranded s) Sys.init wokenTrace := by
  refine run_not_stranded ?_ ?_
  · exact ⟨.acquire rfl rfl, .acquire rfl rfl, .acquire rfl rfl, .acquire rfl rfl,
      .unlock rfl rfl (by decide) (.signalled rfl), .spurious rfl, .cancel rfl (by decide), trivial⟩
  · exact ⟨trivial, trivial, trivial, trivial, fun _ _ _ => ⟨3, Or.inl rfl⟩, trivial,
      fun _ _ _ => ⟨1, by decide, rfl⟩, trivial⟩

/-- A writer has the lock, a reader waits, and another writer's `timed_write_wait` times out just before
the lock is released: the signal goes to the writer that is gone. -/
def lostTrace : List (Act (Fin 3) × Sys (Fin 3)) :=
  let s1 := (Sys.init : Sys (Fin 3)).leave 0 .writeLock (writeLock.enter {})
  let s2 := s1.leave 1 .readLock (readLock.enter s1.lock)
  let s3 := s2.leave 2 .timedWriteWait (timedWriteWait.enter s2.lock)
  let s4 := s3.offCond 2 .timedWriteWait .timedOut
  let s5 : Sys (Fin 3) := ⟨(unlock s4.lock).1, none, update s4.thr 0 ((s4.thr 0).drop .writer)⟩
  let s6 := s5.leave 2 .timedWriteWait (timedWriteWait.resume true s5.lock)
  [(.acquire 0 .writeLock, s1), (.acquire 1 .readLock, s2), (.acquire 2 .timedWriteWait, s3), (.timeout 2, s4),
    (.unlock 0 .writer, s5), (.resume 2, s6)]

theorem lostTrace_isRun : IsRun Step Sys.init lostTrace :=
  ⟨.acquire rfl rfl, .acquire rfl rfl, .acquire rfl rfl, .timeout rfl (Or.inl rfl) rfl,
    .unlock rfl rfl (by decide) (.unheard (by decide)), .resume rfl (Or.inr rfl) rfl, trivial⟩

theorem stranded_after_timeout :
    ¬ ∀ tr : List (Act (Fin 3) × Sys (Fin 3)), IsRun Step Sys.init tr →
      StatesMeet (fun s => ¬ Stranded s) Sys.init tr := by
  intro hall
  have h := hall lostTrace lostTrace_isRun
  refine h.2.2.2.2.2.2 ⟨rfl, fun t c => ?_, by decide, 1, .reader, rfl⟩
  cases c
  · revert t; decide
  · revert t; decide

/-- The other way to strand the reader: the writer hears the signal and is cancelled before it resumes. -/
def cancelledTrace : List (Act (Fin 3) × Sys (Fin 3)) :=
  let s1 := (Sys.init : Sys (Fin 3)).leave 0 .writeLock (writeLock.enter {})
  let s2 := s1.leave 1 .readLock (readLock.enter s1.lock)
  let s3 := s2.leave 2 .writeLock (writeLock.enter s2.lock)
  let thr := update s3.thr 0 ((s3.thr 0).drop .writer)
  let s4 : Sys (Fin 3) := ⟨(unlock s3.lock).1, none, update thr 2 (thr 2).wakeUp⟩
  let s5 := s4.offCond 2 .writeLock .cancelled
  [(.acquire 0 .writeLock, s1), (.acquire 1 .readLock, s2), (.acquire 2 .writeLock, s3), (.unlock 0 .writer, s4),
    (.cancel 2, s5), (.resume 2, s5.die 2 .writeLock)]

example : IsRun Step Sys.init cancelledTrace ∧ Stranded (last Sys.init cancelledTrace) := by
  refine ⟨⟨.acquire rfl rfl, .acquire rfl rfl, .acquire rfl rfl, .unlock rfl rfl (by decide) (.signalled rfl),
    .cancel rfl (by decide), .die rfl rfl, trivial⟩, rfl, fun t c => ?_, by decide, 1, .reader, rfl⟩
  cases c
  · revert t; decide
  · revert t; decide

end TinyUtils.RwLock
