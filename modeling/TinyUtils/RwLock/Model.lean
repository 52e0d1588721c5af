import TinyUtils.Lib.Run
import TinyUtils.Lib.Threads
/-!
# `ReadWriteLock` (`cpp_utils/rwlock.cpp`)

A region between taking and releasing `mutex_` runs alone, so it is one function on the fields of
the lock. A condition wait ends a region; the region that follows it starts when the thread is no
longer blocked and has `mutex_` again.

| here | there |
| --- | --- |
| `ErrCode`                  | `RWLock_ErrCode` (`rwlock.cpp:9-17`) |
| `ReadWriteLock`            | the counters and `valid_` (`rwlock.cpp:257-260`), as the constructor sets them (`:22-32`) |
| `WaitLoop`                 | the wait loop shared by the four blocking acquisitions |
| `readLock`, `timedReadLock`, `writeLock`, `timedWriteWait` | `rwlock.cpp:67`, `:96`, `:138`, `:181`, as the values their loops differ in |
| `tryReadLock`, `tryWriteLock`, `unlock`, `destroy` | `rwlock.cpp:122`, `:165`, `:206`, `:54` |
| `Step`                     | any number of threads calling these, with the waits of POSIX condition variables |

`int ref_count_` is an `Int` and the two `uint32_t` counters are `Nat`s: each is a number of holds or
of waiting threads, and leaves the range of its C type only past 2^31 outstanding holds or 2^32
waiting threads.
-/

namespace TinyUtils.RwLock

open Function Threads

inductive ErrCode
  | ok | lockInvalid | lockUsing | lockTimeout | lockBadStat | lockBusy
deriving DecidableEq, Repr

structure ReadWriteLock where
  refCount : Int := 0
  readerWaitingNum : Nat := 0
  writerWaitingNum : Nat := 0
  valid : Bool := true
deriving DecidableEq, Repr

/-- Readers and writers: which condition variable is waited on, which counter is kept and which kind
of hold is taken. -/
inductive Side
  | reader | writer
deriving DecidableEq, Repr

/-! ## The regions under `mutex_` -/

/-- `++reader_waiting_num_` or `++writer_waiting_num_`. -/
def ReadWriteLock.incWaiting (l : ReadWriteLock) : Side → ReadWriteLock
  | .reader => { l with readerWaitingNum := l.readerWaitingNum + 1 }
  | .writer => { l with writerWaitingNum := l.writerWaitingNum + 1 }

/-- `--reader_waiting_num_` or `--writer_waiting_num_`. -/
def ReadWriteLock.decWaiting (l : ReadWriteLock) : Side → ReadWriteLock
  | .reader => { l with readerWaitingNum := l.readerWaitingNum - 1 }
  | .writer => { l with writerWaitingNum := l.writerWaitingNum - 1 }

def ReadWriteLock.waitingNum (l : ReadWriteLock) : Side → Nat
  | .reader => l.readerWaitingNum
  | .writer => l.writerWaitingNum

/-- How a region of a blocking acquisition ends: with the code it returns, or (`none`) in the
condition wait. -/
structure Exit where
  lock : ReadWriteLock
  code : Option ErrCode

/-- `while(busy) { ++waiting; wait; --waiting; .. } take`. `cleanup` is what the handler given to
`pthread_cleanup_push` does before it unlocks `mutex_`, where the wait is under one. -/
structure WaitLoop where
  side : Side
  busy : ReadWriteLock → Bool
  take : ReadWriteLock → ReadWriteLock
  timed : Bool
  cleanup : Option (ReadWriteLock → ReadWriteLock)

/-- The loop from its test on. -/
def WaitLoop.loop (w : WaitLoop) (l : ReadWriteLock) : Exit :=
  if w.busy l then ⟨l.incWaiting w.side, none⟩ else ⟨w.take l, some .ok⟩

/-- The operation from its call to its first wait or its return. -/
def WaitLoop.enter (w : WaitLoop) (l : ReadWriteLock) : Exit :=
  if !l.valid then ⟨l, some .lockInvalid⟩ else w.loop l

/-- The operation from the return of a wait, which failed with `ETIMEDOUT` or succeeded. -/
def WaitLoop.resume (w : WaitLoop) (timedOut : Bool) (l : ReadWriteLock) : Exit :=
  if timedOut then ⟨l.decWaiting w.side, some .lockBusy⟩ else w.loop (l.decWaiting w.side)

/-- `cancel_read_lock_wait` (`rwlock.cpp:239`), up to its `pthread_mutex_unlock`. -/
def cancelReadLockWait (l : ReadWriteLock) : ReadWriteLock := l.decWaiting .reader

/-- `cancel_write_lock_wait` (`rwlock.cpp:246`), up to its `pthread_mutex_unlock`. -/
def cancelWriteLockWait (l : ReadWriteLock) : ReadWriteLock := l.decWaiting .writer

def readLock : WaitLoop where
  side := .reader
  busy l := decide (l.refCount < 0)
  take l := { l with refCount := l.refCount + 1 }
  timed := false
  cleanup := some cancelReadLockWait

def timedReadLock : WaitLoop where
  side := .reader
  busy l := decide (l.refCount < 0)
  take l := { l with refCount := l.refCount + 1 }
  timed := true
  cleanup := none

def writeLock : WaitLoop where
  side := .writer
  busy l := decide (l.refCount ≠ 0)
  take l := { l with refCount := l.refCount - 1 }
  timed := false
  cleanup := some cancelWriteLockWait

def timedWriteWait : WaitLoop where
  side := .writer
  busy l := decide (l.refCount ≠ 0)
  take l := { l with refCount := l.refCount - 1 }
  timed := true
  cleanup := none

def tryReadLock (l : ReadWriteLock) : ReadWriteLock × ErrCode :=
  if !l.valid then (l, .lockInvalid)
  else if l.refCount < 0 then (l, .lockBusy)
  else ({ l with refCount := l.refCount + 1 }, .ok)

def tryWriteLock (l : ReadWriteLock) : ReadWriteLock × ErrCode :=
  if !l.valid then (l, .lockInvalid)
  else if l.refCount ≠ 0 then (l, .lockBusy)
  else ({ l with refCount := -1 }, .ok)

/-- Whom `unlock` wakes. -/
inductive Notify
  | nobody | signalWriter | broadcastReaders
deriving DecidableEq, Repr

/-- `unlock` gives back one hold (`rwlock.cpp:215-220`). -/
def releaseRef (l : ReadWriteLock) : ReadWriteLock × ErrCode :=
  if 0 < l.refCount then ({ l with refCount := l.refCount - 1 }, .ok)
  else if l.refCount < 0 then ({ l with refCount := 0 }, .ok)
  else (l, .lockBadStat)

/-- `unlock` (`rwlock.cpp:206`), the pthread calls succeeding. -/
def unlock (l : ReadWriteLock) : ReadWriteLock × ErrCode × Notify :=
  if !l.valid then (l, .lockInvalid, .nobody)
  else
    let (l, ret) := releaseRef l
    if 0 < l.writerWaitingNum ∧ l.refCount = 0 then (l, ret, .signalWriter)
    else if 0 < l.readerWaitingNum then (l, ret, .broadcastReaders)
    else (l, .lockBadStat, .nobody)

def destroy (l : ReadWriteLock) : ReadWriteLock × ErrCode :=
  if !l.valid then (l, .lockInvalid)
  else if l.refCount ≠ 0 ∨ l.readerWaitingNum ≠ 0 ∨ l.writerWaitingNum ≠ 0 then (l, .lockUsing)
  else ({ l with valid := false }, .ok)

/-! ## Threads -/

/-- The four operations that can wait. -/
inductive Waiter
  | readLock | timedReadLock | writeLock | timedWriteWait
deriving DecidableEq, Repr

def Waiter.loop : Waiter → WaitLoop
  | .readLock => RwLock.readLock
  | .timedReadLock => RwLock.timedReadLock
  | .writeLock => RwLock.writeLock
  | .timedWriteWait => RwLock.timedWriteWait

/-- A thread in a condition wait: blocked on the condition variable, or taken off it (signalled or
woken spuriously, timed out, cancelled) and not yet back with `mutex_`. As long as it is not back, its
time-out or a cancellation may still end the wait of a thread that was woken, and the signal is lost on it. -/
inductive Wake
  | blocked | woken | timedOut | cancelled
deriving DecidableEq, Repr

inductive Pc
  | running
  | waiting (w : Waiter) (k : Wake)
  | dead
deriving DecidableEq, Repr

/-- A thread: where it is, and the acquisitions it has not given back. -/
structure Thread where
  pc : Pc := .running
  reads : Nat := 0
  writes : Nat := 0
deriving DecidableEq, Repr

def Thread.holds (th : Thread) : Side → Nat
  | .reader => th.reads
  | .writer => th.writes

def Thread.gain (th : Thread) : Side → Thread
  | .reader => { th with reads := th.reads + 1 }
  | .writer => { th with writes := th.writes + 1 }

def Thread.drop (th : Thread) : Side → Thread
  | .reader => { th with reads := th.reads - 1 }
  | .writer => { th with writes := th.writes - 1 }

/-- The thread after a region of a blocking acquisition. -/
def Thread.exit (th : Thread) (w : Waiter) : Option ErrCode → Thread
  | none => { th with pc := .waiting w .blocked }
  | some .ok => { th with pc := .running }.gain w.loop.side
  | some _ => { th with pc := .running }

/-- The thread is in a wait for `c`. -/
def Thread.waitsFor (c : Side) (th : Thread) : Bool :=
  match th.pc with
  | .waiting w _ => w.loop.side == c
  | _ => false

/-- The thread is blocked on the condition variable of `c`. -/
def Thread.blockedOn (c : Side) (th : Thread) : Bool :=
  match th.pc with
  | .waiting w .blocked => w.loop.side == c
  | _ => false

/-- The thread was woken from its wait and has not resumed. -/
def Thread.woken (th : Thread) : Bool :=
  match th.pc with
  | .waiting _ .woken => true
  | _ => false

/-- The thread has left the condition variable and has not resumed. -/
def Thread.pending (th : Thread) : Bool :=
  match th.pc with
  | .waiting _ .blocked => false
  | .waiting _ _ => true
  | _ => false

/-- Take the thread off the condition variable it is blocked on. -/
def Thread.wakeUp (th : Thread) : Thread :=
  match th.pc with
  | .waiting w .blocked => { th with pc := .waiting w .woken }
  | _ => th

/-! ## The system -/

/-- The lock and the threads. `mutex` is the owner of `mutex_` between two regions: nobody, or a
thread that died with it. -/
structure Sys (Tid : Type) where
  lock : ReadWriteLock
  mutex : Option Tid
  thr : Tid → Thread

inductive Act (Tid : Type)
  | acquire (t : Tid) (w : Waiter)
  | tryRead (t : Tid)
  | tryWrite (t : Tid)
  | unlock (t : Tid) (c : Side)
  | spurious (t : Tid)
  | timeout (t : Tid)
  | cancel (t : Tid)
  | resume (t : Tid)

variable {Tid : Type} [DecidableEq Tid]

/-- No thread has called the lock yet. -/
def Sys.init : Sys Tid := ⟨{}, none, fun _ => {}⟩

def Sys.put (s : Sys Tid) (t : Tid) (l : ReadWriteLock) (th : Thread) : Sys Tid :=
  { s with lock := l, thr := update s.thr t th }

/-- The end of a region of a blocking acquisition of `t`. -/
def Sys.leave (s : Sys Tid) (t : Tid) (w : Waiter) (e : Exit) : Sys Tid :=
  s.put t e.lock ((s.thr t).exit w e.code)

/-- The end of a non-blocking acquisition of `t`. -/
def Sys.tried (s : Sys Tid) (t : Tid) (c : Side) (r : ReadWriteLock × ErrCode) : Sys Tid :=
  s.put t r.1 (if r.2 = .ok then (s.thr t).gain c else s.thr t)

/-- `t` leaves the condition variable for the reason `k`. -/
def Sys.offCond (s : Sys Tid) (t : Tid) (w : Waiter) (k : Wake) : Sys Tid :=
  s.put t s.lock { s.thr t with pc := .waiting w k }

/-- A cancelled thread has `mutex_` again: its handler runs and unlocks it, or it dies as it is. -/
def Sys.die (s : Sys Tid) (t : Tid) (w : Waiter) : Sys Tid :=
  match w.loop.cleanup with
  | some f => s.put t (f s.lock) { s.thr t with pc := .dead }
  | none => { s.put t s.lock { s.thr t with pc := .dead } with mutex := some t }

/-- What the signal or broadcast of `unlock` does to the threads. A signal takes some thread off
`writer_cond_` if one is blocked on it; that more may be taken off is a spurious wake-up. -/
inductive Notified : Notify → (Tid → Thread) → (Tid → Thread) → Prop
  | nobody {thr : Tid → Thread} : Notified .nobody thr thr
  | signalled {thr : Tid → Thread} {u : Tid} : (thr u).blockedOn .writer = true →
      Notified .signalWriter thr (update thr u (thr u).wakeUp)
  | unheard {thr : Tid → Thread} : (∀ u, (thr u).blockedOn .writer = false) → Notified .signalWriter thr thr
  | broadcast {thr : Tid → Thread} :
      Notified .broadcastReaders thr (fun u => if (thr u).blockedOn .reader then (thr u).wakeUp else thr u)

/-- One step of one thread. A thread that is not waiting may call any operation, and `unlock` once
for each acquisition it still has; it needs `mutex_` for it. -/
inductive Step : Sys Tid → Act Tid → Sys Tid → Prop
  | acquire {s : Sys Tid} {t : Tid} {w : Waiter} : (s.thr t).pc = .running → s.mutex = none →
      Step s (.acquire t w) (s.leave t w (w.loop.enter s.lock))
  | tryRead {s : Sys Tid} {t : Tid} : (s.thr t).pc = .running → s.mutex = none →
      Step s (.tryRead t) (s.tried t .reader (tryReadLock s.lock))
  | tryWrite {s : Sys Tid} {t : Tid} : (s.thr t).pc = .running → s.mutex = none →
      Step s (.tryWrite t) (s.tried t .writer (tryWriteLock s.lock))
  | unlock {s : Sys Tid} {t : Tid} {c : Side} {thr' : Tid → Thread} :
      (s.thr t).pc = .running → s.mutex = none → 0 < (s.thr t).holds c →
      Notified (RwLock.unlock s.lock).2.2 (update s.thr t ((s.thr t).drop c)) thr' →
      Step s (.unlock t c) ⟨(RwLock.unlock s.lock).1, none, thr'⟩
  | spurious {s : Sys Tid} {t : Tid} {w : Waiter} : (s.thr t).pc = .waiting w .blocked →
      Step s (.spurious t) (s.offCond t w .woken)
  | timeout {s : Sys Tid} {t : Tid} {w : Waiter} {k : Wake} : (s.thr t).pc = .waiting w k →
      (k = .blocked ∨ k = .woken) → w.loop.timed = true → Step s (.timeout t) (s.offCond t w .timedOut)
  | cancel {s : Sys Tid} {t : Tid} {w : Waiter} {k : Wake} : (s.thr t).pc = .waiting w k → k ≠ .cancelled →
      Step s (.cancel t) (s.offCond t w .cancelled)
  | resume {s : Sys Tid} {t : Tid} {w : Waiter} {k : Wake} : (s.thr t).pc = .waiting w k →
      (k = .woken ∨ k = .timedOut) → s.mutex = none →
      Step s (.resume t) (s.leave t w (w.loop.resume (k == .timedOut) s.lock))
  | die {s : Sys Tid} {t : Tid} {w : Waiter} : (s.thr t).pc = .waiting w .cancelled → s.mutex = none →
      Step s (.resume t) (s.die t w)

end TinyUtils.RwLock
