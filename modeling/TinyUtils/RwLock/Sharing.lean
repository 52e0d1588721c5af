import TinyUtils.RwLock.Invariants
import TinyUtils.Lib.Sharing
import TinyUtils.Lib.Simulation
/-!
# `ReadWriteLock` is a lock that is held by many or by one

Seen through the holds of its threads, a run is one of the specification: a call that returns `OK` is granted its hold in
the region it returns from, and a call that goes to wait, or that returns `EC_LOCK_BUSY` without having waited, finds a hold
in its way. A timed call whose wait ends with `ETIMEDOUT` returns `EC_LOCK_BUSY` (`rwlock.cpp:112`, `:196`) without a look
at the lock.

| here | there |
| --- | --- |
| `Sys.holds`    | the acquisitions that the threads have not given back |
| `Act.op`       | what the region of this step did, by the code it returned |
-/

namespace TinyUtils.RwLock

open Function Threads Runs

def Side.mode : Side → Sharing.Mode
  | .reader => .shared
  | .writer => .exclusive

def Thread.modes (th : Thread) : Sharing.Mode → Nat
  | .shared => th.reads
  | .exclusive => th.writes

variable {Tid : Type} [DecidableEq Tid]

def Sys.holds (s : Sys Tid) : Sharing.Holds Tid := fun t => (s.thr t).modes

/-- A blocking acquisition that ends a region with this code. -/
def WaitLoop.op (w : WaitLoop) (t : Tid) : Option ErrCode → Option (Sharing.Op Tid)
  | none => some (.refuse t w.side.mode)
  | some .ok => some (.grant t w.side.mode)
  | some _ => none

/-- An acquisition that does not wait. -/
def tryOp (t : Tid) (c : Side) (code : ErrCode) : Option (Sharing.Op Tid) :=
  match code with
  | .ok => some (.grant t c.mode)
  | .lockBusy => some (.refuse t c.mode)
  | _ => none

/-- What the step is to the holds. -/
def Act.op (s : Sys Tid) : Act Tid → Option (Sharing.Op Tid)
  | .acquire t w => w.loop.op t (w.loop.enter s.lock).code
  | .tryRead t => tryOp t .reader (tryReadLock s.lock).2
  | .tryWrite t => tryOp t .writer (tryWriteLock s.lock).2
  | .unlock t c => some (.give t c.mode)
  | .resume t =>
    match (s.thr t).pc with
    | .waiting w .woken => w.loop.op t (w.loop.resume false s.lock).code
    | .waiting w .timedOut => w.loop.op t (w.loop.resume true s.lock).code
    | _ => none
  | .spurious _ | .timeout _ | .cancel _ => none

/-- The run as the specification sees it. -/
def asSharing (s : Sys Tid) (tr : List (Act Tid × Sys Tid)) : List (Option (Sharing.Op Tid) × Sharing.Holds Tid) :=
  image Sys.holds (fun s a _ => a.op s) s tr

@[simp] theorem modes_gain (th : Thread) (c : Side) :
    (th.gain c).modes = update th.modes c.mode (th.modes c.mode + 1) := by
  ext m
  cases c <;> cases m <;> simp [Thread.gain, Thread.modes, Side.mode]

theorem modes_drop {th : Thread} {c : Side} (h : 0 < th.holds c) :
    update (th.drop c).modes c.mode ((th.drop c).modes c.mode + 1) = th.modes := by
  ext m
  cases c <;> cases m <;> simp [Thread.drop, Thread.modes, Side.mode] <;> exact Nat.succ_pred_eq_of_pos h

@[simp] theorem modes_pc (th : Thread) (pc : Pc) : ({ th with pc := pc } : Thread).modes = th.modes := by
  ext m
  cases m <;> rfl

@[simp] theorem modes_wakeUp (th : Thread) : th.wakeUp.modes = th.modes := by
  unfold Thread.wakeUp
  split <;> simp

/-- A step of `t` that leaves its holds. -/
theorem holds_stay {s : Sys Tid} {t : Tid} {l : ReadWriteLock} {m : Option Tid} {th : Thread}
    (h : th.modes = (s.thr t).modes) : Sys.holds { s.put t l th with mutex := m } = s.holds := by
  funext u
  by_cases hu : u = t
  · subst hu
    simp [Sys.holds, Sys.put, h]
  · simp [Sys.holds, Sys.put, update_of_ne hu]

/-- A step of `t` that gains a hold. -/
theorem holds_gain_put {s : Sys Tid} {t : Tid} {l : ReadWriteLock} {th : Thread} {c : Side}
    (h : th.modes = ((s.thr t).gain c).modes) : Sys.holds (s.put t l th) = Sharing.gain s.holds t c.mode := by
  funext u
  by_cases hu : u = t
  · subst hu
    simp [Sys.holds, Sys.put, Sharing.gain, h]
  · simp [Sys.holds, Sys.put, Sharing.gain, update_of_ne hu]

variable [Fintype Tid]

omit [DecidableEq Tid] in
/-- `ref_count_` tells whether a hold is in the way. -/
theorem free_iff {s : Sys Tid} (hi : HoldInv s) (c : Side) : c.free s.lock.refCount ↔ Sharing.Free s.holds c.mode := by
  have hreads : s.held .reader = 0 ↔ ∀ t, (s.thr t).reads = 0 := total_eq_zero
  have hwrites : s.held .writer = 0 ↔ ∀ t, (s.thr t).writes = 0 := total_eq_zero
  cases c with
  | reader =>
    have hmode : Sharing.Free s.holds Side.reader.mode ↔ s.held .writer = 0 := hwrites.symm
    rw [hmode, Side.free]
    unfold HoldInv at hi
    omega
  | writer =>
    have hmode : Sharing.Free s.holds Side.writer.mode ↔ s.held .reader = 0 ∧ s.held .writer = 0 := by
      rw [hreads, hwrites]
      constructor
      · intro h
        exact ⟨fun t => h t .shared, fun t => h t .exclusive⟩
      · rintro ⟨hr, hw⟩ t (_ | _)
        · exact hr t
        · exact hw t
    rw [hmode, Side.free]
    unfold HoldInv at hi
    omega

theorem tryReadLock_busy {l : ReadWriteLock} (h : (tryReadLock l).2 = .lockBusy) : ¬ Side.reader.free l.refCount := by
  unfold tryReadLock at h
  split at h
  · cases h
  · split at h
    · simp only [Side.free]
      omega
    · cases h

theorem tryWriteLock_busy {l : ReadWriteLock} (h : (tryWriteLock l).2 = .lockBusy) : ¬ Side.writer.free l.refCount := by
  unfold tryWriteLock at h
  split at h
  · cases h
  · split at h
    · simpa only [Side.free] using ‹l.refCount ≠ 0›
    · cases h

/-- A region of a wait loop, entered with the counters of `l`. -/
theorem shares_loop {s : Sys Tid} {t : Tid} {w : Waiter} {l : ReadWriteLock} (hi : HoldInv s)
    (hl : l.refCount = s.lock.refCount) :
    Sharing.Step s.holds (w.loop.op t (w.loop.loop l).code) (s.leave t w (w.loop.loop l)).holds := by
  rcases loop_cases w l with ⟨he, hfree, _⟩ | ⟨he, hfree⟩ <;> rw [he] <;> rw [hl, free_iff hi] at hfree
  · have hsame : (s.leave t w ⟨l.incWaiting w.loop.side, none⟩).holds = s.holds :=
      holds_stay (m := s.mutex) (modes_pc ..)
    rw [hsame]
    exact .refuse hfree
  · have hgain : (s.leave t w ⟨{ l with refCount := l.refCount + w.loop.side.delta }, some .ok⟩).holds =
        Sharing.gain s.holds t w.loop.side.mode := by
      apply holds_gain_put
      simp [Thread.exit]
    rw [hgain]
    exact .grant hfree

/-- An acquisition that does not wait, with the code it returns. -/
theorem shares_tried {s : Sys Tid} {t : Tid} {c : Side} {r : ReadWriteLock × ErrCode} (hi : HoldInv s)
    (hr : r = (s.lock, .lockBusy) ∨
      r = ({ s.lock with refCount := s.lock.refCount + c.delta }, .ok) ∧ c.free s.lock.refCount)
    (hbusy : r.2 = .lockBusy → ¬ c.free s.lock.refCount) :
    Sharing.Step s.holds (tryOp t c r.2) (s.tried t c r).holds := by
  rw [free_iff hi] at hr hbusy
  rcases hr with rfl | ⟨rfl, hfree⟩
  · have hsame : (s.tried t c (s.lock, .lockBusy)).holds = s.holds := holds_stay (m := s.mutex) rfl
    rw [hsame]
    exact .refuse (hbusy rfl)
  · have hgain : (s.tried t c ({ s.lock with refCount := s.lock.refCount + c.delta }, .ok)).holds =
        Sharing.gain s.holds t c.mode := holds_gain_put rfl
    rw [hgain]
    exact .grant hfree

omit [Fintype Tid] in
/-- What `unlock` gives back. -/
theorem holds_unlock {s : Sys Tid} {t : Tid} {c : Side} {n : Notify} {l : ReadWriteLock} {m : Option Tid}
    {thr' : Tid → Thread} (hh : 0 < (s.thr t).holds c) (hn : Notified n (update s.thr t ((s.thr t).drop c)) thr') :
    s.holds = Sharing.gain (Sys.holds ⟨l, m, thr'⟩) t c.mode := by
  have hmodes : ∀ u, (thr' u).modes = (update s.thr t ((s.thr t).drop c) u).modes := by
    intro u
    rcases hn.thread u with hu | hu <;> simp [hu]
  funext u
  by_cases hu : u = t
  · subst hu
    simp only [Sharing.gain, Sys.holds, hmodes, update_self]
    exact (modes_drop hh).symm
  · simp [Sharing.gain, Sys.holds, hmodes, update_of_ne hu]

/-- **Each step is one of the specification.** -/
theorem Step.shares {s s' : Sys Tid} {a : Act Tid} (h : Step s a s') (hv : s.lock.valid = true) (hi : HoldInv s) :
    Sharing.Step s.holds (a.op s) s'.holds := by
  have hoff : ∀ t w k, Sharing.Step s.holds none (s.offCond t w k).holds := by
    intro t w k
    have hsame : (s.offCond t w k).holds = s.holds := holds_stay (m := s.mutex) (modes_pc ..)
    rw [hsame]
    exact .stay
  cases h with
  | @acquire t w hpc hm =>
    have he : w.loop.enter s.lock = w.loop.loop s.lock := by simp [WaitLoop.enter, hv]
    simp only [Act.op, he]
    exact shares_loop hi rfl
  | tryRead hpc hm => exact shares_tried hi ((tryReadLock_cases hv).imp_right id) tryReadLock_busy
  | tryWrite hpc hm => exact shares_tried hi ((tryWriteLock_cases hv).imp_right id) tryWriteLock_busy
  | @unlock t c thr' hpc hm hh hn =>
    rw [holds_unlock hh hn]
    exact .give
  | spurious hpc => exact hoff _ _ _
  | timeout hpc _ _ => exact hoff _ _ _
  | cancel hpc _ => exact hoff _ _ _
  | @resume t w k hpc hk hm =>
    rcases hk with rfl | rfl
    · simp only [Act.op, hpc]
      exact shares_loop hi (refCount_decWaiting ..)
    · simp only [Act.op, hpc]
      have hsame : (s.leave t w (w.loop.resume true s.lock)).holds = s.holds := holds_stay (m := s.mutex) (modes_pc ..)
      have hcode : w.loop.op t (w.loop.resume true s.lock).code = none := rfl
      rw [hcode]
      exact hsame ▸ .stay
  | @die t w hpc hm =>
    have hop : Act.op s (.resume t) = none := by simp only [Act.op, hpc]
    have hsame : (s.die t w).holds = s.holds := by
      rcases die_cases s t w with ⟨_, hd⟩ | ⟨_, hd⟩ <;> rw [hd]
      · exact holds_stay (m := s.mutex) (modes_pc ..)
      · exact holds_stay (modes_pc ..)
    rw [hop, hsame]
    exact .stay

end TinyUtils.RwLock
