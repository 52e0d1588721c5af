import TinyUtils.Lib.Int32
import TinyUtils.Lib.Run
/-!
# `TokenFrequencyCtrl` (`cpp_utils/token_frequency_control.cpp`)

A token bucket. `Grant` adds what the time since the last call is worth, at most up to the capacity, and
takes one token if there is one. The clock is what `gettimeofday` returns at each call, so a run is the
list of these readings. `int` has 32 bits and wraps around; the products and sums in 64 bits before the
narrowing do not show in the low 32 bits, so they are exact here.

| here | there |
| --- | --- |
| `Timeval`               | `struct timeval`: the microseconds are below a second |
| `Ctrl`, `new`           | the fields (`:40-43`), the constructor (`:7`) |
| `millis`, `timeElapse`  | `time_elapse` (`:17`) before and after it is stored to an `int` |
| `tmpTokens`             | `tmp_tokens` (`:19`) |
| `refill`, `grant`       | lines `:21-25`, `Grant` (`:12`) |
-/

namespace TinyUtils.TokenFrequency

open Int32Bit Runs

structure Timeval where
  sec : Int
  usec : Int
  usec_nonneg : 0 ≤ usec
  usec_lt : usec < 1000000
deriving DecidableEq

def Timeval.micros (tv : Timeval) : Int := 1000000 * tv.sec + tv.usec

/-- The reading `n` microseconds after the epoch. -/
def Timeval.ofMicros (n : Nat) : Timeval := ⟨n / 1000000, n % 1000000, by omega, by omega⟩

structure Ctrl where
  tokenNum : Int
  tokenRate : Int
  capacity : Int
  lastAccess : Timeval
deriving DecidableEq

/-- The constructor, with what it stores to `last_access_time_`. -/
def new (capacity tokenRate : Int) (tv : Timeval) : Ctrl := ⟨0, tokenRate, capacity, tv⟩

def millis (last tv : Timeval) : Int := 1000 * (tv.sec - last.sec) + (tv.usec - last.usec).tdiv 1000

def timeElapse (c : Ctrl) (tv : Timeval) : Int := i32 (millis c.lastAccess tv)

def tmpTokens (c : Ctrl) (tv : Timeval) : Int := i32 (c.tokenNum + i32 (c.tokenRate * timeElapse c tv))

def refill (c : Ctrl) (tv : Timeval) : Ctrl :=
  { c with tokenNum := if c.capacity > tmpTokens c tv then tmpTokens c tv else c.capacity, lastAccess := tv }

def grant (c : Ctrl) (tv : Timeval) : Bool × Ctrl :=
  let c := refill c tv
  if c.tokenNum < 1 then (false, c) else (true, { c with tokenNum := c.tokenNum - 1 })

/-- A call at a reading that is not before the last one. -/
def Step (c : Ctrl) (tv : Timeval) (c' : Ctrl) : Prop := c.lastAccess.micros ≤ tv.micros ∧ c' = (grant c tv).2

/-- The states that the calls lead to. -/
def trace : Ctrl → List Timeval → List (Timeval × Ctrl)
  | _, [] => []
  | c, tv :: ts => (tv, (grant c tv).2) :: trace (grant c tv).2 ts

/-- What the calls return. -/
def grants : Ctrl → List Timeval → List Bool
  | _, [] => []
  | c, tv :: ts => (grant c tv).1 :: grants (grant c tv).2 ts

/-- The state after the calls. -/
def after (c : Ctrl) (ts : List Timeval) : Ctrl := ts.foldl (fun c tv => (grant c tv).2) c

/-- The readings do not go back. -/
def Nondecreasing (ts : List Timeval) : Prop := (ts.map Timeval.micros).Pairwise (· ≤ ·)

instance (ts : List Timeval) : Decidable (Nondecreasing ts) :=
  inferInstanceAs (Decidable ((ts.map Timeval.micros).Pairwise (· ≤ ·)))

/-! ## One call -/

/-- The tokens that there would be without the capacity and without a wrap-around. -/
def accrued (c : Ctrl) (tv : Timeval) : Int := c.tokenNum + c.tokenRate * millis c.lastAccess tv

theorem tmpTokens_eq (c : Ctrl) (tv : Timeval) : tmpTokens c tv = i32 (accrued c tv) := by
  simp only [tmpTokens, timeElapse, i32_mul_i32, i32_add_i32, accrued]

section
variable (c : Ctrl) (tv : Timeval)

theorem refill_tokenNum : (refill c tv).tokenNum = min c.capacity (tmpTokens c tv) := by
  simp only [refill]
  split <;> omega

@[simp] theorem grant_tokenRate : (grant c tv).2.tokenRate = c.tokenRate := by
  simp only [grant]
  split <;> rfl

@[simp] theorem grant_capacity : (grant c tv).2.capacity = c.capacity := by
  simp only [grant]
  split <;> rfl

@[simp] theorem grant_lastAccess : (grant c tv).2.lastAccess = tv := by
  simp only [grant]
  split <;> rfl

/-- A call returns true exactly if there is a token after the refill. -/
theorem grant_iff : (grant c tv).1 = true ↔ 1 ≤ min c.capacity (tmpTokens c tv) := by
  rw [← refill_tokenNum]
  simp only [grant]
  split
  · simp
    omega
  · simp
    omega

/-- **What a call does to the tokens**: it takes the refill and the capacity, and one token if it is granted. -/
theorem grant_tokenNum :
    (grant c tv).2.tokenNum = min c.capacity (tmpTokens c tv) - (if (grant c tv).1 then 1 else 0) := by
  rw [← refill_tokenNum]
  simp only [grant]
  split
  · simp
  · simp

end

/-- The whole milliseconds that a call counts, against the microseconds that have passed: what is dropped is the
remainder of the difference of the microsecond fields, and that is negative when the difference is. -/
theorem millis_eq (last tv : Timeval) :
    1000 * millis last tv = tv.micros - last.micros - (tv.usec - last.usec).tmod 1000 := by
  have hdiv := Int.mul_tdiv_add_tmod (tv.usec - last.usec) 1000
  simp only [millis, Timeval.micros]
  omega

theorem millis_nonneg {last tv : Timeval} (h : last.micros ≤ tv.micros) : 0 ≤ millis last tv := by
  have hmillis := millis_eq last tv
  have hlt : (tv.usec - last.usec).tmod 1000 < 1000 := Int.tmod_lt_of_pos _ (by decide)
  omega

/-! ## Runs -/

theorem isRun_trace {c : Ctrl} {ts : List Timeval} (h : Nondecreasing (c.lastAccess :: ts)) :
    IsRun Step c (trace c ts) := by
  induction ts generalizing c with
  | nil => trivial
  | cons tv ts ih =>
    simp only [Nondecreasing, List.map_cons, List.pairwise_cons] at h
    refine ⟨⟨h.1 _ List.mem_cons_self, rfl⟩, ih ?_⟩
    rw [grant_lastAccess]
    exact List.pairwise_cons.2 h.2

end TinyUtils.TokenFrequency
