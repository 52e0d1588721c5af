import TinyUtils.RwLock.Model
/-!
# Holds and waiters of `ReadWriteLock`

What one step can do to the holds is `Effect`: nothing, one acquisition or one release
(`Step.effect`). Mutual exclusion is an invariant of the effects alone. What one step can do to the
waiting counters is `Step.accounts`: they go on counting the threads that wait, unless the step is
the death of a thread cancelled in a timed wait, where no handler was pushed (`rwlock.cpp:108`,
`:192`).
-/

namespace TinyUtils.RwLock

open Function Threads Runs

/-- What an acquisition adds to `ref_count_`. -/
def Side.delta : Side → Int
  | .reader => 1
  | .writer => -1

/-- An acquisition of this side succeeds at this `ref_count_`. -/
def Side.free : Side → Int → Prop
  | .reader, r => 0 ≤ r
  | .writer, r => r = 0

@[simp] theorem waitingNum_incWaiting (l : ReadWriteLock) (c d : Side) :
    (l.incWaiting c).waitingNum d = l.waitingNum d + if d = c then 1 else 0 := by
  cases c <;> cases d <;> rfl

@[simp] theorem waitingNum_decWaiting (l : ReadWriteLock) (c d : Side) :
    (l.decWaiting c).waitingNum d = l.waitingNum d - if d = c then 1 else 0 := by
  cases c <;> cases d <;> rfl

@[simp] theorem refCount_incWaiting (l : ReadWriteLock) (c : Side) : (l.incWaiting c).refCount = l.refCount := by
  cases c <;> rfl

@[simp] theorem refCount_decWaiting (l : ReadWriteLock) (c : Side) : (l.decWaiting c).refCount = l.refCount := by
  cases c <;> rfl

@[simp] theorem valid_incWaiting (l : ReadWriteLock) (c : Side) : (l.incWaiting c).valid = l.valid := by
  cases c <;> rfl

@[simp] theorem valid_decWaiting (l : ReadWriteLock) (c : Side) : (l.decWaiting c).valid = l.valid := by
  cases c <;> rfl

@[simp] theorem waitingNum_refCount (l : ReadWriteLock) (r : Int) (c : Side) :
    ({ l with refCount := r } : ReadWriteLock).waitingNum c = l.waitingNum c := by
  cases c <;> rfl

@[simp] theorem holds_gain (th : Thread) (c d : Side) :
    (th.gain c).holds d = th.holds d + if d = c then 1 else 0 := by
  cases c <;> cases d <;> rfl

@[simp] theorem holds_drop (th : Thread) (c d : Side) :
    (th.drop c).holds d = th.holds d - if d = c then 1 else 0 := by
  cases c <;> cases d <;> rfl

@[simp] theorem pc_gain (th : Thread) (c : Side) : (th.gain c).pc = th.pc := by
  cases c <;> rfl

@[simp] theorem pc_drop (th : Thread) (c : Side) : (th.drop c).pc = th.pc := by
  cases c <;> rfl

@[simp] theorem holds_pc (th : Thread) (pc : Pc) (c : Side) : ({ th with pc := pc } : Thread).holds c = th.holds c := by
  cases c <;> rfl

@[simp] theorem holds_wakeUp (th : Thread) (c : Side) : th.wakeUp.holds c = th.holds c := by
  unfold Thread.wakeUp; split <;> simp

/-! ## What the regions do -/

/-- From its test on, a wait loop blocks with one more waiter, or takes the lock. -/
theorem loop_cases (w : Waiter) (l : ReadWriteLock) :
    (w.loop.loop l = ⟨l.incWaiting w.loop.side, none⟩ ∧ ¬ w.loop.side.free l.refCount ∧ l.refCount ≠ 0) ∨
    (w.loop.loop l = ⟨{ l with refCount := l.refCount + w.loop.side.delta }, some .ok⟩ ∧
      w.loop.side.free l.refCount) := by
  cases w <;>
    simp only [Waiter.loop, WaitLoop.loop, readLock, timedReadLock, writeLock, timedWriteWait, Side.free,
      Side.delta, decide_eq_true_eq]
  all_goals split
  all_goals first
    | exact Or.inl ⟨rfl, by omega, by omega⟩
    | exact Or.inr ⟨rfl, by omega⟩

theorem tryReadLock_cases {l : ReadWriteLock} (hv : l.valid = true) :
    tryReadLock l = (l, .lockBusy) ∨
    (tryReadLock l = ({ l with refCount := l.refCount + Side.reader.delta }, .ok) ∧ Side.reader.free l.refCount) := by
  simp only [tryReadLock, hv, Bool.not_true, Bool.false_eq_true, ↓reduceIte, Side.free, Side.delta]
  split
  · exact Or.inl rfl
  · exact Or.inr ⟨rfl, by omega⟩

theorem tryWriteLock_cases {l : ReadWriteLock} (hv : l.valid = true) :
    tryWriteLock l = (l, .lockBusy) ∨
    (tryWriteLock l = ({ l with refCount := l.refCount + Side.writer.delta }, .ok) ∧ Side.writer.free l.refCount) := by
  simp only [tryWriteLock, hv, Bool.not_true, Bool.false_eq_true, ↓reduceIte, Side.free, Side.delta, ne_eq]
  split
  · exact Or.inl rfl
  · rename_i h
    have h0 : l.refCount = 0 := by omega
    exact Or.inr ⟨by rw [h0]; rfl, h0⟩

/-- `ref_count_` after `unlock`. -/
def released (r : Int) : Int := if 0 < r then r - 1 else 0

theorem releaseRef_fst (l : ReadWriteLock) : (releaseRef l).1 = { l with refCount := released l.refCount } := by
  unfold releaseRef released
  split
  · rfl
  · split
    · rfl
    · rename_i h1 h2
      have h0 : l.refCount = 0 := by omega
      rw [← h0]

/-- `unlock` changes `ref_count_` and nothing else. -/
theorem unlock_lock {l : ReadWriteLock} (hv : l.valid = true) :
    (unlock l).1 = { l with refCount := released l.refCount } := by
  rw [← releaseRef_fst l]
  simp only [unlock, hv, Bool.not_true, Bool.false_eq_true, ↓reduceIte]
  split
  · rfl
  · split <;> rfl

theorem loop_valid (w : Waiter) (l : ReadWriteLock) : (w.loop.loop l).lock.valid = l.valid := by
  rcases loop_cases w l with ⟨h, _⟩ | ⟨h, _⟩ <;> simp [h]

variable {Tid : Type} [DecidableEq Tid]

/-- The end of a cancelled thread: its handler takes it off the counter, or, in a timed wait, it keeps
both the count and `mutex_`. -/
theorem die_cases (s : Sys Tid) (t : Tid) (w : Waiter) :
    (w.loop.timed = false ∧ s.die t w = s.put t (s.lock.decWaiting w.loop.side) { s.thr t with pc := .dead }) ∨
    (w.loop.timed = true ∧ s.die t w = { s.put t s.lock { s.thr t with pc := .dead } with mutex := some t }) := by
  cases w
  · exact Or.inl ⟨rfl, rfl⟩
  · exact Or.inr ⟨rfl, rfl⟩
  · exact Or.inl ⟨rfl, rfl⟩
  · exact Or.inr ⟨rfl, rfl⟩

/-- A notification takes threads off a condition variable and does nothing else. -/
theorem Notified.thread {n : Notify} {thr thr' : Tid → Thread} (h : Notified n thr thr') (u : Tid) :
    thr' u = thr u ∨ thr' u = (thr u).wakeUp := by
  cases h with
  | nobody => exact Or.inl rfl
  | unheard => exact Or.inl rfl
  | @signalled _ v _ =>
    by_cases huv : u = v
    · subst huv; exact Or.inr (update_self ..)
    · exact Or.inl (update_of_ne huv ..)
  | broadcast =>
    by_cases hb : (thr u).blockedOn .reader = true
    · exact Or.inr (if_pos hb)
    · exact Or.inl (if_neg hb)

/-- No step destroys the lock. -/
theorem Step.valid {s s' : Sys Tid} {a : Act Tid} (h : Step s a s') (hv : s.lock.valid = true) :
    s'.lock.valid = true := by
  cases h with
  | @acquire t w hpc hm =>
    simp only [Sys.leave, Sys.put, WaitLoop.enter, hv, Bool.not_true, Bool.false_eq_true, ↓reduceIte, loop_valid]
  | tryRead hpc hm => rcases tryReadLock_cases hv with hl | ⟨hl, _⟩ <;> simp [Sys.tried, Sys.put, hl, hv]
  | tryWrite hpc hm => rcases tryWriteLock_cases hv with hl | ⟨hl, _⟩ <;> simp [Sys.tried, Sys.put, hl, hv]
  | unlock hpc hm hh hn => simp [unlock_lock hv, hv]
  | spurious hpc => exact hv
  | timeout hpc _ _ => exact hv
  | cancel hpc _ => exact hv
  | resume hpc hk hm =>
    rcases hk with rfl | rfl
    · exact (loop_valid ..).trans ((valid_decWaiting ..).trans hv)
    · exact (valid_decWaiting ..).trans hv
  | @die t w hpc hm =>
    rcases die_cases s t w with ⟨_, hd⟩ | ⟨_, hd⟩ <;> rw [hd]
    · exact (valid_decWaiting ..).trans hv
    · exact hv

variable [Fintype Tid]

/-- The outstanding acquisitions of a side. -/
def Sys.held (s : Sys Tid) (c : Side) : Nat := total (fun th => th.holds c) s.thr

/-- The live threads in a wait of a side. -/
def Sys.waiters (s : Sys Tid) (c : Side) : Nat := count (Thread.waitsFor c) s.thr

theorem held_put (s : Sys Tid) (t : Tid) (l : ReadWriteLock) (th : Thread) (c : Side) :
    (s.put t l th).held c + (s.thr t).holds c = s.held c + th.holds c :=
  total_update _ s.thr t th

theorem waiters_put (s : Sys Tid) (t : Tid) (l : ReadWriteLock) (th : Thread) (c : Side) :
    (s.put t l th).waiters c + (if (s.thr t).waitsFor c then 1 else 0) =
      s.waiters c + (if th.waitsFor c then 1 else 0) :=
  count_update _ s.thr t th

theorem waitsFor_wakeUp (th : Thread) (c : Side) : th.wakeUp.waitsFor c = th.waitsFor c := by
  unfold Thread.wakeUp
  split
  · rename_i h; simp [Thread.waitsFor, h]
  · rfl

theorem Notified.held {n : Notify} {thr thr' : Tid → Thread} (h : Notified n thr thr') (c : Side) :
    total (fun th => th.holds c) thr' = total (fun th => th.holds c) thr := by
  unfold total
  refine Finset.sum_congr rfl fun u _ => ?_
  rcases h.thread u with hu | hu <;> rw [hu]
  exact holds_wakeUp _ c

theorem Notified.waiters {n : Notify} {thr thr' : Tid → Thread} (h : Notified n thr thr') (c : Side) :
    count (Thread.waitsFor c) thr' = count (Thread.waitsFor c) thr := by
  unfold count total
  refine Finset.sum_congr rfl fun u _ => ?_
  rcases h.thread u with hu | hu <;> rw [hu]
  simp only [waitsFor_wakeUp]

/-! ## Holds -/

/-- What a step can do to `ref_count_` and the outstanding holds. -/
inductive Effect (s s' : Sys Tid) : Prop
  | same : s'.lock.refCount = s.lock.refCount → (∀ d, s'.held d = s.held d) → Effect s s'
  | take (c : Side) : c.free s.lock.refCount → s'.lock.refCount = s.lock.refCount + c.delta →
      (∀ d, s'.held d = s.held d + if d = c then 1 else 0) → Effect s s'
  | give (c : Side) : s'.lock.refCount = released s.lock.refCount →
      (∀ d, s.held d = s'.held d + if d = c then 1 else 0) → Effect s s'

theorem effect_same {s : Sys Tid} {t : Tid} {l : ReadWriteLock} {m : Option Tid} {th : Thread}
    (hl : l.refCount = s.lock.refCount) (hh : ∀ d, th.holds d = (s.thr t).holds d) :
    Effect s { s.put t l th with mutex := m } := by
  refine .same hl fun d => ?_
  change (s.put t l th).held d = s.held d
  have := held_put s t l th d
  rw [hh d] at this
  omega

theorem effect_take {s : Sys Tid} {t : Tid} {l : ReadWriteLock} {th : Thread} {c : Side}
    (hf : c.free s.lock.refCount) (hl : l.refCount = s.lock.refCount + c.delta)
    (hh : ∀ d, th.holds d = (s.thr t).holds d + if d = c then 1 else 0) : Effect s (s.put t l th) := by
  refine .take c hf hl fun d => ?_
  have := held_put s t l th d
  rw [hh d] at this
  omega

/-- A region of a wait loop, entered with the counters of `l`, takes the lock or leaves it. -/
theorem effect_loop {s : Sys Tid} {t : Tid} {w : Waiter} {l : ReadWriteLock}
    (hl : l.refCount = s.lock.refCount) : Effect s (s.leave t w (w.loop.loop l)) := by
  rcases loop_cases w l with ⟨he, _⟩ | ⟨he, hf⟩
  · rw [he]
    exact effect_same (by simp [hl]) (fun d => by simp [Thread.exit])
  · rw [he]
    exact effect_take (by rw [← hl]; exact hf) (by simp [hl]) (fun d => by simp [Thread.exit])

/-- **What one step does to the holds.** -/
theorem Step.effect {s s' : Sys Tid} {a : Act Tid} (h : Step s a s') (hv : s.lock.valid = true) :
    Effect s s' := by
  cases h with
  | @acquire t w hpc hm =>
    have he : w.loop.enter s.lock = w.loop.loop s.lock := by simp [WaitLoop.enter, hv]
    rw [he]
    exact effect_loop rfl
  | tryRead hpc hm =>
    rcases tryReadLock_cases hv with hl | ⟨hl, hf⟩
    · exact effect_same (by rw [hl]) (fun d => by simp [hl])
    · exact effect_take hf (by rw [hl]) (fun d => by simp [hl])
  | tryWrite hpc hm =>
    rcases tryWriteLock_cases hv with hl | ⟨hl, hf⟩
    · exact effect_same (by rw [hl]) (fun d => by simp [hl])
    · exact effect_take hf (by rw [hl]) (fun d => by simp [hl])
  | @unlock t c thr' hpc hm hh hn =>
    refine .give c (by rw [unlock_lock hv]) fun d => ?_
    have h1 := hn.held d
    have h2 := total_update (fun th => th.holds d) s.thr t ((s.thr t).drop c)
    simp only [holds_drop] at h2
    simp only [Sys.held, h1]
    by_cases hdc : d = c
    · subst hdc; simp only [↓reduceIte] at h2 ⊢; omega
    · simp only [hdc, ↓reduceIte] at h2 ⊢; omega
  | spurious hpc => exact effect_same rfl (fun d => holds_pc ..)
  | timeout hpc _ _ => exact effect_same rfl (fun d => holds_pc ..)
  | cancel hpc _ => exact effect_same rfl (fun d => holds_pc ..)
  | @resume t w k hpc hk hm =>
    rcases hk with rfl | rfl
    · exact effect_loop (refCount_decWaiting ..)
    · exact effect_same (refCount_decWaiting ..) (fun d => holds_pc ..)
  | @die t w hpc hm =>
    rcases die_cases s t w with ⟨_, hd⟩ | ⟨_, hd⟩ <;> rw [hd]
    · exact effect_same (refCount_decWaiting ..) (fun d => holds_pc ..)
    · exact effect_same rfl (fun d => holds_pc ..)

/-- The invariant behind mutual exclusion, on the totals. -/
def HoldInv (s : Sys Tid) : Prop :=
  (s.held .writer = 0 ∧ s.lock.refCount = s.held .reader) ∨
  (s.held .writer = 1 ∧ s.held .reader = 0 ∧ s.lock.refCount = -1)

omit [DecidableEq Tid] in
theorem holdInv_effect {s s' : Sys Tid} (hi : HoldInv s) (he : Effect s s') : HoldInv s' := by
  unfold HoldInv at *
  cases he with
  | same hr hh =>
    have h1 := hh .reader
    have h2 := hh .writer
    omega
  | take c hf hr hh =>
    have h1 := hh .reader
    have h2 := hh .writer
    cases c <;> simp only [Side.free, Side.delta, reduceCtorEq, ↓reduceIte] at hf hr h1 h2 <;> omega
  | give c hr hh =>
    have h1 := hh .reader
    have h2 := hh .writer
    simp only [released] at hr
    cases c <;> simp only [reduceCtorEq, ↓reduceIte] at h1 h2 <;> split at hr <;> omega

omit [DecidableEq Tid] in
theorem holdInv_init : HoldInv (Sys.init : Sys Tid) := by
  refine Or.inl ⟨total_eq_zero.2 fun _ => rfl, ?_⟩
  have h : (Sys.init : Sys Tid).held .reader = 0 := total_eq_zero.2 fun _ => rfl
  rw [h]
  rfl

theorem holdInv_reach {s : Sys Tid} (h : Reach Step Sys.init s) : s.lock.valid = true ∧ HoldInv s := by
  refine h.inv (I := fun s => s.lock.valid = true ∧ HoldInv s) ⟨rfl, holdInv_init⟩ ?_
  rintro s a s' ⟨hv, hi⟩ hs
  exact ⟨hs.valid hv, holdInv_effect hi (hs.effect hv)⟩

/-- Either nobody holds the write lock and `ref_count_` counts the read holds, or one thread holds it
alone and `ref_count_` is `-1`. -/
def MutualExclusion (s : Sys Tid) : Prop :=
  ((∀ t, (s.thr t).writes = 0) ∧ s.lock.refCount = ((∑ t, (s.thr t).reads : Nat) : Int)) ∨
  ((∃ t, (s.thr t).writes = 1 ∧ ∀ u, u ≠ t → (s.thr u).writes = 0) ∧ (∀ t, (s.thr t).reads = 0) ∧
    s.lock.refCount = -1)

/-- `mutex_` is free between regions and the counters count the threads that wait. -/
def Accounted (s : Sys Tid) : Prop :=
  s.mutex = none ∧ ∀ c, s.lock.waitingNum c = s.waiters c

/-- A region of `t` that starts with the counters of `l`, where `t` itself is not counted. -/
theorem accounted_put {s : Sys Tid} {t : Tid} {l l' : ReadWriteLock} {th : Thread} (hm : s.mutex = none)
    (hl : ∀ c, l.waitingNum c + (if (s.thr t).waitsFor c then 1 else 0) = s.waiters c)
    (hl' : ∀ c, l'.waitingNum c = l.waitingNum c + (if th.waitsFor c then 1 else 0)) :
    Accounted (s.put t l' th) := by
  refine ⟨hm, fun c => ?_⟩
  have h1 := waiters_put s t l' th c
  have h2 := hl c
  have h3 := hl' c
  simp only [Sys.put] at h1 ⊢
  omega

theorem accounted_loop {s : Sys Tid} {t : Tid} {w : Waiter} {l : ReadWriteLock} (hm : s.mutex = none)
    (hl : ∀ c, l.waitingNum c + (if (s.thr t).waitsFor c then 1 else 0) = s.waiters c) :
    Accounted (s.leave t w (w.loop.loop l)) := by
  rcases loop_cases w l with ⟨he, _⟩ | ⟨he, _⟩ <;> rw [he]
  · refine accounted_put hm hl fun c => ?_
    simp only [Thread.exit, Thread.waitsFor, waitingNum_incWaiting]
    refine congrArg (l.waitingNum c + ·) (if_congr ?_ rfl rfl)
    rw [beq_iff_eq]
    exact eq_comm
  · refine accounted_put hm hl fun c => ?_
    simp [Thread.exit, Thread.waitsFor]

omit [DecidableEq Tid] in
/-- A thread that waits is counted, so taking it off the counter leaves the others. -/
theorem decWaiting_waiters {s : Sys Tid} {t : Tid} {w : Waiter} {k : Wake} (ha : Accounted s)
    (hpc : (s.thr t).pc = .waiting w k) (c : Side) :
    (s.lock.decWaiting w.loop.side).waitingNum c + (if (s.thr t).waitsFor c then 1 else 0) = s.waiters c := by
  have h1 := ha.2 c
  have h2 : (if (s.thr t).waitsFor c then 1 else 0) ≤ s.waiters c :=
    le_total (fun th => if Thread.waitsFor c th then 1 else 0) s.thr t
  simp only [Thread.waitsFor, hpc, waitingNum_decWaiting] at h2 ⊢
  by_cases hc : c = w.loop.side
  · subst hc; simp only [beq_self_eq_true, ↓reduceIte] at h2 ⊢; omega
  · have hc' : (w.loop.side == c) = false := by simpa using fun h => hc h.symm
    simp only [hc, hc', ↓reduceIte, Bool.false_eq_true]; omega

/-- The step is the death of a thread cancelled in a timed wait. -/
def DiesTimed (s : Sys Tid) (a : Act Tid) : Prop :=
  ∃ t w, a = .resume t ∧ (s.thr t).pc = .waiting w .cancelled ∧ w.loop.timed = true

omit [DecidableEq Tid] [Fintype Tid] in
theorem waitsFor_running {s : Sys Tid} {t : Tid} (hpc : (s.thr t).pc = .running) (c : Side) :
    (s.thr t).waitsFor c = false := by
  simp [Thread.waitsFor, hpc]

/-- **What one step does to the counters**: they stay right, or `mutex_` stays with a thread that was
cancelled in a timed wait. -/
theorem Step.accounts {s s' : Sys Tid} {a : Act Tid} (h : Step s a s') (hv : s.lock.valid = true)
    (ha : Accounted s) : Accounted s' ∧ ¬ DiesTimed s a ∨ s'.mutex ≠ none ∧ DiesTimed s a := by
  have hother : ∀ b : Act Tid, (∀ t, b ≠ .resume t) → ¬ DiesTimed s b := fun b hb ⟨t, _, h, _⟩ => hb t h
  have hrun : ∀ t, (s.thr t).pc = .running → ∀ c,
      s.lock.waitingNum c + (if (s.thr t).waitsFor c then 1 else 0) = s.waiters c := fun t hpc c => by
    rw [waitsFor_running hpc, ha.2 c]; rfl
  have hoff : ∀ t w k k', (s.thr t).pc = .waiting w k → Accounted (s.offCond t w k') := fun t w k k' hpc => by
    refine accounted_put (l := s.lock.decWaiting w.loop.side) ha.1 (decWaiting_waiters ha hpc) fun c => ?_
    have := decWaiting_waiters ha hpc c
    rw [ha.2 c, ← this]
    simp [Thread.waitsFor, hpc]
  cases h with
  | @acquire t w hpc hm =>
    refine Or.inl ⟨?_, hother _ (by simp)⟩
    have he : w.loop.enter s.lock = w.loop.loop s.lock := by simp [WaitLoop.enter, hv]
    rw [he]
    exact accounted_loop hm (hrun t hpc)
  | @tryRead t hpc hm =>
    refine Or.inl ⟨?_, hother _ (by simp)⟩
    rcases tryReadLock_cases hv with hl | ⟨hl, _⟩
    · exact accounted_put hm (hrun t hpc) fun c => by simp [hl, waitsFor_running hpc]
    · exact accounted_put hm (hrun t hpc) fun c => by simp [hl, Thread.waitsFor, hpc]
  | @tryWrite t hpc hm =>
    refine Or.inl ⟨?_, hother _ (by simp)⟩
    rcases tryWriteLock_cases hv with hl | ⟨hl, _⟩
    · exact accounted_put hm (hrun t hpc) fun c => by simp [hl, waitsFor_running hpc]
    · exact accounted_put hm (hrun t hpc) fun c => by simp [hl, Thread.waitsFor, hpc]
  | @unlock t c thr' hpc hm hh hn =>
    refine Or.inl ⟨⟨rfl, fun d => ?_⟩, hother _ (by simp)⟩
    have h1 := hn.waiters d
    have h2 := waiters_put s t s.lock ((s.thr t).drop c) d
    simp only [Sys.waiters, Sys.put, Thread.waitsFor, pc_drop, hpc] at h1 h2 ⊢
    rw [unlock_lock hv, waitingNum_refCount, ha.2 d]
    unfold Sys.waiters
    omega
  | spurious hpc => exact Or.inl ⟨hoff _ _ _ _ hpc, hother _ (by simp)⟩
  | timeout hpc _ _ => exact Or.inl ⟨hoff _ _ _ _ hpc, hother _ (by simp)⟩
  | cancel hpc _ => exact Or.inl ⟨hoff _ _ _ _ hpc, hother _ (by simp)⟩
  | @resume t w k hpc hk hm =>
    refine Or.inl ⟨?_, ?_⟩
    · rcases hk with rfl | rfl
      · exact accounted_loop hm (decWaiting_waiters ha hpc)
      · exact accounted_put hm (decWaiting_waiters ha hpc) fun c => by
          simp [WaitLoop.resume, Thread.exit, Thread.waitsFor]
    · rintro ⟨u, v, hu, hpc', _⟩
      cases hu
      rw [hpc] at hpc'
      cases hpc'
      rcases hk with h | h <;> cases h
  | @die t w hpc hm =>
    rcases die_cases s t w with ⟨ht, hd⟩ | ⟨ht, hd⟩ <;> rw [hd]
    · refine Or.inl ⟨accounted_put hm (decWaiting_waiters ha hpc) fun c => by simp [Thread.waitsFor], ?_⟩
      rintro ⟨u, v, hu, hpc', ht'⟩
      cases hu
      rw [hpc] at hpc'
      cases hpc'
      rw [ht] at ht'
      cases ht'
    · exact Or.inr ⟨by simp, t, w, rfl, hpc, ht⟩

omit [DecidableEq Tid] in
theorem accounted_init : Accounted (Sys.init : Sys Tid) := by
  refine ⟨rfl, fun c => ?_⟩
  have h : (Sys.init : Sys Tid).waiters c = 0 := count_eq_zero.2 fun _ => rfl
  rw [h]
  cases c <;> rfl

/-- **Waiter accounting**: in every run, `mutex_` is free and the counters are right in every state if
and only if no step of the run is the death of a thread cancelled in `timed_read_lock` or
`timed_write_wait`. -/
theorem run_accounted_iff {tr : List (Act Tid × Sys Tid)} (h : IsRun Step Sys.init tr) :
    StatesMeet Accounted Sys.init tr ↔ StepsMeet (fun s a => ¬ DiesTimed s a) (Sys.init : Sys Tid) tr := by
  refine run_exact (I := fun s => s.lock.valid = true ∧ Accounted s) (fun s hi => hi.2) ?_ ?_
    ⟨rfl, accounted_init⟩ h
  · rintro s a s' ⟨hv, ha⟩ hs hP
    rcases hs.accounts hv ha with ⟨ha', _⟩ | ⟨_, hd⟩
    · exact ⟨hs.valid hv, ha'⟩
    · exact absurd hd hP
  · rintro s a s' ⟨hv, ha⟩ hs hQ
    rcases hs.accounts hv ha with ⟨_, hd⟩ | ⟨hm, _⟩
    · exact hd
    · exact absurd hQ.1 hm

/-- A writer has the lock, a reader comes to wait by the operation `w` and is cancelled there. -/
def cancelTrace (w : Waiter) : List (Act (Fin 2) × Sys (Fin 2)) :=
  let s1 := (Sys.init : Sys (Fin 2)).leave 0 .writeLock (writeLock.enter {})
  let s2 := s1.leave 1 w (w.loop.enter s1.lock)
  let s3 := s2.offCond 1 w .cancelled
  [(.acquire 0 .writeLock, s1), (.acquire 1 w, s2), (.cancel 1, s3), (.resume 1, s3.die 1 w)]

theorem cancelTrace_isRun {w : Waiter} (h : w.loop.side = .reader) : IsRun Step Sys.init (cancelTrace w) := by
  cases w <;> cases h
  · exact ⟨.acquire rfl rfl, .acquire rfl rfl, .cancel rfl (by decide), .die rfl rfl, trivial⟩
  · exact ⟨.acquire rfl rfl, .acquire rfl rfl, .cancel rfl (by decide), .die rfl rfl, trivial⟩

/-- A reader cancelled in `read_lock` leaves the lock in order. -/
theorem accounted_cancel_readLock : StatesMeet Accounted Sys.init (cancelTrace .readLock) := by
  refine (run_accounted_iff (cancelTrace_isRun rfl)).2 ?_
  refine ⟨?_, ?_, ?_, ?_, trivial⟩ <;> rintro ⟨t, w, ha, hpc, ht⟩ <;> cases ha
  cases hpc
  cases ht

/-- A reader cancelled in `timed_read_lock` takes `mutex_` with it. -/
theorem not_accounted_cancel_timedReadLock :
    ¬ ∀ tr : List (Act (Fin 2) × Sys (Fin 2)), IsRun Step Sys.init tr → StatesMeet Accounted Sys.init tr := by
  intro hall
  have h := hall (cancelTrace .timedReadLock) (cancelTrace_isRun rfl)
  cases h.2.2.2.2.1

end TinyUtils.RwLock
