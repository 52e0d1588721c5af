import TinyUtils.Lib.Run
import TinyUtils.Lib.Threads
import TinyUtils.Lib.Int32
/-!
# A count under a lock (`cpp_utils/lock.cpp`)

The threads of `main` each run `test_mutex`: take the lock, add one to the `int` they share, give the lock back. The count
is no atomic object, so `++count` is a load and a store. `lock` of `ZMutexLock` waits until the mutex is free, in both
variants, and so does that of the `pthread` variant of `ZSpinLock`: a step that cannot be taken while it is held.

| here | there |
| --- | --- |
| `lock`, `unlock` | `ZMutexLock::lock`, `unlock` (`lock.cpp:72`, `:74`, `:93`, `:95`), `ZSpinLock::lock`, `unlock` of the `pthread` variant (`:54`, `:56`) |
| `Pc`, `exec`     | one turn of the loop of `test_mutex` and `test_spin` (`lock.cpp:121`, `:111`), `rounds` for its `1000000` |
| `Sys`, `Step`    | the threads of `main`, any number of them |
-/

namespace TinyUtils.Counter

open Function Runs Threads Int32Bit

/-- `lock`: the mutex once it is taken, none while it is held. -/
def lock (held : Bool) : Option Bool := if held then none else some true

/-- `unlock`: the mutex afterwards. -/
def unlock (_held : Bool) : Bool := false

/-- Where a thread is, with its `i` and, between the two halves of `++count`, the value that was read. -/
inductive Pc
  | loop (i : Nat)
  | locking (i : Nat)
  | load (i : Nat)
  | store (i : Nat) (value : Int)
  | unlocking (i : Nat)
  | done
deriving DecidableEq, Repr

/-- The next atomic step of a thread: where it is then, the mutex and the count. -/
def exec (rounds : Nat) : Pc → Bool → Int → Option (Pc × Bool × Int)
  | .loop i, held, count => some (if i < rounds then .locking i else .done, held, count)
  | .locking i, held, count => (lock held).map fun held => (.load i, held, count)
  | .load i, held, count => some (.store i count, held, count)
  | .store i value, held, _ => some (.unlocking i, held, i32 (value + 1))
  | .unlocking i, held, count => some (.loop (i + 1), unlock held, count)
  | .done, _, _ => none

structure Sys (Tid : Type) where
  held : Bool
  count : Int
  pc : Tid → Pc

variable {Tid : Type} [DecidableEq Tid]

/-- `static int count = 0`, a mutex nobody holds, and every thread before its loop. -/
def Sys.init : Sys Tid := ⟨false, 0, fun _ => .loop 0⟩

inductive Step (rounds : Nat) : Sys Tid → Tid → Sys Tid → Prop
  | exec {s : Sys Tid} {t : Tid} {p : Pc} {held : Bool} {count : Int} :
      exec rounds (s.pc t) s.held s.count = some (p, held, count) → Step rounds s t ⟨held, count, update s.pc t p⟩

/-- Whether the thread holds the lock. -/
def Pc.inside : Pc → Bool
  | .load _ | .store _ _ | .unlocking _ => true
  | _ => false

/-- How often the thread has added one. -/
def Pc.made (rounds : Nat) : Pc → Nat
  | .loop i | .locking i | .load i | .store i _ => i
  | .unlocking i => i + 1
  | .done => rounds

/-- How many steps the thread has yet to take. -/
def Pc.left (rounds : Nat) : Pc → Nat
  | .loop i => 5 * (rounds - i) + 1
  | .locking i => 5 * (rounds - i)
  | .load i => 5 * (rounds - (i + 1)) + 4
  | .store i _ => 5 * (rounds - (i + 1)) + 3
  | .unlocking i => 5 * (rounds - (i + 1)) + 2
  | .done => 0

/-- A thread that is in the body of the loop has rounds left. -/
def Pc.Ok (rounds : Nat) : Pc → Prop
  | .loop i => i ≤ rounds
  | .locking i | .load i | .store i _ | .unlocking i => i < rounds
  | .done => True

/-- A thread between the two halves of `++count` has read what the count is. -/
def Pc.Read (count : Int) : Pc → Prop
  | .store _ value => value = count
  | _ => True

theorem Pc.Ok.made_le {rounds : Nat} {p : Pc} (h : p.Ok rounds) : p.made rounds ≤ rounds := by
  cases p with
  | done => exact Nat.le_refl _
  | loop i => exact h
  | locking i | load i | store i value => exact Nat.le_of_lt h
  | unlocking i => exact h

/-- What one step of a thread does: it takes the lock, adds one while it has it, gives it back, or none of these. -/
theorem exec_cases {rounds : Nat} {p p' : Pc} {held held' : Bool} {count count' : Int} (hp : p.Ok rounds)
    (h : exec rounds p held count = some (p', held', count')) :
    (p.inside = true ∧ p'.inside = true ∧ held' = held ∧ p'.made rounds = p.made rounds + 1 ∧
      ∃ i value, p = .store i value ∧ count' = i32 (value + 1)) ∨
    (p'.made rounds = p.made rounds ∧ count' = count ∧
      ((p.inside = false ∧ p'.inside = true ∧ held = false ∧ held' = true) ∨
        (p.inside = true ∧ p'.inside = false ∧ held' = false) ∨ (p'.inside = p.inside ∧ held' = held))) := by
  cases p with
  | loop i =>
    have hi : i ≤ rounds := hp
    cases h
    by_cases hlt : i < rounds
    · simp [hlt, Pc.inside, Pc.made]
    · simp [hlt, Pc.inside, Pc.made]
      omega
  | locking i =>
    cases held with
    | true => cases h
    | false =>
      cases h
      simp [Pc.inside, Pc.made]
  | load i | store i value | unlocking i =>
    cases h
    simp [Pc.inside, Pc.made, unlock]
  | done => cases h

theorem exec_ok {rounds : Nat} {p p' : Pc} {held held' : Bool} {count count' : Int} (hp : p.Ok rounds)
    (h : exec rounds p held count = some (p', held', count')) :
    p'.Ok rounds ∧ p'.Read count' ∧ p'.left rounds + 1 = p.left rounds := by
  cases p with
  | loop i =>
    cases h
    by_cases hi : i < rounds
    · simp [hi, Pc.Ok, Pc.left, Pc.Read]
    · have heq : rounds - i = 0 := by omega
      simp [hi, Pc.Ok, Pc.left, Pc.Read, heq]
  | locking i =>
    have hi : i < rounds := hp
    cases held with
    | true => cases h
    | false =>
      cases h
      refine ⟨hi, trivial, ?_⟩
      simp only [Pc.left]
      omega
  | load i =>
    cases h
    exact ⟨hp, rfl, rfl⟩
  | store i value =>
    cases h
    exact ⟨hp, trivial, rfl⟩
  | unlocking i =>
    cases h
    exact ⟨hp, trivial, rfl⟩
  | done => cases h

/-! ## Every state -/

variable [Fintype Tid]

structure Inv (rounds : Nat) (s : Sys Tid) : Prop where
  ok : ∀ t, (s.pc t).Ok rounds
  read : ∀ t, (s.pc t).Read s.count
  owner : Threads.count Pc.inside s.pc = if s.held then 1 else 0
  made : s.count = total (Pc.made rounds) s.pc

omit [DecidableEq Tid] in
theorem inv_init {rounds : Nat} : Inv rounds (Sys.init : Sys Tid) := by
  refine ⟨fun _ => Nat.zero_le _, fun _ => trivial, count_eq_zero.2 fun _ => rfl, ?_⟩
  have hzero : total (Pc.made rounds) (fun _ : Tid => Pc.loop 0) = 0 := total_eq_zero.2 fun _ => rfl
  simp [Sys.init, hzero]

omit [DecidableEq Tid] in
/-- No other thread holds the lock. -/
theorem Inv.alone {rounds : Nat} {s : Sys Tid} {t u : Tid} (hi : Inv rounds s) (ht : (s.pc t).inside = true) (hu : u ≠ t) :
    (s.pc u).inside = false := by
  have htwo := add_le_total (fun p : Pc => if p.inside then 1 else 0) s.pc hu
  have howner := hi.owner
  unfold Threads.count at howner
  cases hin : (s.pc u).inside with
  | false => rfl
  | true =>
    simp only [hin, ht, if_true] at htwo
    split at howner <;> omega

/-- The threads that do not step have read what the count still is. -/
theorem read_update {rounds : Nat} {s : Sys Tid} {t : Tid} {p : Pc} {count : Int} (hi : Inv rounds s) (hp : p.Read count)
    (hcount : count = s.count ∨ (s.pc t).inside = true) (u : Tid) : (update s.pc t p u).Read count := by
  by_cases hu : u = t
  · subst hu
    rwa [update_self]
  · rw [update_of_ne hu]
    rcases hcount with rfl | ht
    · exact hi.read u
    · have hout := hi.alone ht hu
      cases hpc : s.pc u with
      | store i value =>
        rw [hpc] at hout
        cases hout
      | loop i | locking i | load i | unlocking i | done => trivial

theorem Step.inv {rounds : Nat} (hn : rounds * Fintype.card Tid < 2 ^ 31) {s s' : Sys Tid} {t : Tid} (hi : Inv rounds s)
    (h : Step rounds s t s') : Inv rounds s' := by
  obtain ⟨he⟩ := h
  rename_i p held count
  obtain ⟨hok, hread, _⟩ := exec_ok (hi.ok t) he
  have hall : ∀ u, (update s.pc t p u).Ok rounds := by
    intro u
    by_cases hu : u = t
    · subst hu
      rwa [update_self]
    · rw [update_of_ne hu]
      exact hi.ok u
  have hinside := count_update Pc.inside s.pc t p
  have htotal := total_update (Pc.made rounds) s.pc t p
  have howner := hi.owner
  have hmade := hi.made
  rcases exec_cases (hi.ok t) he with ⟨ht, hp, rfl, hone, i, value, hpc, rfl⟩ | ⟨hsame, rfl, hcases⟩
  · refine ⟨hall, read_update hi hread (.inr ht), ?_, ?_⟩
    · simp only [ht, hp] at hinside
      simp only
      omega
    · have hvalue := hi.read t
      rw [hpc] at hvalue
      have hle := total_le_mul (f := Pc.made rounds) fun u => (hall u).made_le
      change value = s.count at hvalue
      simp only
      rw [i32_eq (by omega) (by omega)]
      omega
  · refine ⟨hall, read_update hi hread (.inl rfl), ?_, ?_⟩
    · rcases hcases with ⟨ht, hp, hheld, rfl⟩ | ⟨ht, hp, rfl⟩ | ⟨hp, rfl⟩
      · simp only [ht, hp, hheld] at hinside howner ⊢
        simpa using hinside.trans (congrArg (· + 1) howner)
      · simp only [ht, hp, if_true] at hinside
        simp only [howner] at hinside
        cases hheld : s.held with
        | false => simp [hheld] at hinside
        | true => simpa [hheld] using hinside
      · rw [hp] at hinside
        simp only
        omega
    · simp only
      omega

/-- Each step is one of those that are left. -/
theorem Step.left {rounds : Nat} {s s' : Sys Tid} {t : Tid} (hi : Inv rounds s) (h : Step rounds s t s') :
    total (Pc.left rounds) s'.pc + 1 = total (Pc.left rounds) s.pc := by
  obtain ⟨he⟩ := h
  rename_i p held count
  obtain ⟨_, _, hleft⟩ := exec_ok (hi.ok t) he
  have htotal := total_update (Pc.left rounds) s.pc t p
  simp only
  omega

/-! ## Every run -/

/-- The steps taken and the steps left. -/
theorem run_inv_left {rounds : Nat} (hn : rounds * Fintype.card Tid < 2 ^ 31) {s : Sys Tid} {tr : List (Tid × Sys Tid)}
    (hi : Inv rounds s) (hr : IsRun (Step rounds) s tr) :
    Inv rounds (last s tr) ∧ tr.length + total (Pc.left rounds) (last s tr).pc = total (Pc.left rounds) s.pc := by
  induction tr generalizing s with
  | nil => exact ⟨hi, Nat.zero_add _⟩
  | cons x tr ih =>
    obtain ⟨t, s'⟩ := x
    obtain ⟨hinv, hlen⟩ := ih (hr.1.inv hn hi) hr.2
    have hleft := hr.1.left hi
    refine ⟨hinv, ?_⟩
    simp only [List.length_cons, last]
    omega

theorem exec_ne_none {rounds : Nat} {p : Pc} {held : Bool} (count : Int) (hp : p ≠ .done)
    (hheld : held = true → p.inside = true) : ∃ r, exec rounds p held count = some r := by
  cases p with
  | loop i | load i | store i value | unlocking i => exact ⟨_, rfl⟩
  | locking i =>
    cases held with
    | false => exact ⟨_, rfl⟩
    | true => cases hheld rfl
  | done => exact absurd rfl hp

/-- Where a thread is not done, some thread can take its next step: the one that holds the lock, if one does. -/
theorem Inv.goes_on {rounds : Nat} {s : Sys Tid} {t : Tid} (hi : Inv rounds s) (ht : s.pc t ≠ .done) :
    ∃ u s', Step rounds s u s' := by
  have hgo : ∃ u, s.pc u ≠ .done ∧ (s.held = true → (s.pc u).inside = true) := by
    cases hheld : s.held with
    | false => exact ⟨t, ht, nofun⟩
    | true =>
      have howner := hi.owner
      rw [hheld] at howner
      obtain ⟨u, hu, _⟩ := exists_of_total_eq_one howner
      have hin : (s.pc u).inside = true := by
        by_contra hout
        simp [hout] at hu
      refine ⟨u, ?_, fun _ => hin⟩
      intro hdone
      rw [hdone] at hin
      cases hin
  obtain ⟨u, hne, hin⟩ := hgo
  obtain ⟨⟨p, held, count⟩, he⟩ : ∃ r, exec rounds (s.pc u) s.held s.count = some r := exec_ne_none s.count hne hin
  exact ⟨u, _, .exec he⟩

/-- **No addition is lost and no thread waits for ever.** Every run is over after at most `5 * rounds + 1` steps for
each thread; where no thread can go on, all are done and the count is the number of all their rounds, which it never exceeds. -/
theorem run_count {rounds : Nat} (hn : rounds * Fintype.card Tid < 2 ^ 31) {tr : List (Tid × Sys Tid)}
    (hr : IsRun (Step rounds) Sys.init tr) :
    tr.length ≤ (5 * rounds + 1) * Fintype.card Tid ∧
      (last Sys.init tr).count ≤ rounds * Fintype.card Tid ∧
      ((∀ t s', ¬ Step rounds (last Sys.init tr) t s') →
        (∀ t, (last Sys.init tr).pc t = .done) ∧ (last Sys.init tr).count = rounds * Fintype.card Tid) := by
  obtain ⟨hi, hlen⟩ := run_inv_left hn inv_init hr
  have hinit : total (Pc.left rounds) (Sys.init : Sys Tid).pc = (5 * rounds + 1) * Fintype.card Tid :=
    total_eq_mul fun _ => by simp [Sys.init, Pc.left]
  have hle := total_le_mul (f := Pc.made rounds) fun t => (hi.ok t).made_le
  have hmade := hi.made
  refine ⟨by omega, by rw [hmade]; exact_mod_cast hle, fun hstuck => ?_⟩
  have hdone : ∀ t, (last Sys.init tr).pc t = .done := by
    intro t
    by_contra ht
    obtain ⟨u, s', hs⟩ := hi.goes_on ht
    exact hstuck u s' hs
  refine ⟨hdone, ?_⟩
  rw [hmade, total_eq_mul (b := rounds) fun t => by rw [hdone t]; rfl]
  exact Int.natCast_mul _ _

def Sys.next (rounds : Nat) (s : Sys Tid) (t : Tid) : Sys Tid :=
  match exec rounds (s.pc t) s.held s.count with
  | some (p, held, count) => ⟨held, count, update s.pc t p⟩
  | none => s

/-- The run in which the threads step in this order. -/
def trace (rounds : Nat) : Sys Tid → List Tid → List (Tid × Sys Tid)
  | _, [] => []
  | s, t :: ts => (t, s.next rounds t) :: trace rounds (s.next rounds t) ts

/-- Two threads of one round each; the second waits for the lock while the first adds. -/
def oneEach : List (Fin 2 × Sys (Fin 2)) := trace 1 Sys.init [0, 1, 0, 0, 0, 0, 1, 1, 1, 1, 0, 1]

theorem count_oneEach :
    oneEach.length ≤ (5 * 1 + 1) * Fintype.card (Fin 2) ∧
      (last Sys.init oneEach).count ≤ (1 : Nat) * Fintype.card (Fin 2) ∧
      ((∀ t s', ¬ Step 1 (last Sys.init oneEach) t s') →
        (∀ t, (last Sys.init oneEach).pc t = .done) ∧
          (last Sys.init oneEach).count = (1 : Nat) * Fintype.card (Fin 2)) := by
  have hrun : IsRun (Step 1) Sys.init oneEach :=
    ⟨.exec rfl, .exec rfl, .exec rfl, .exec rfl, .exec rfl, .exec rfl, .exec rfl, .exec rfl, .exec rfl, .exec rfl,
      .exec rfl, .exec rfl, trivial⟩
  exact run_count (by decide) hrun

end TinyUtils.Counter
