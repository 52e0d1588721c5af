import TinyUtils.Lib.Simulation
import TinyUtils.ObjectPool.Callers
/-!
# The lock of an `ObjectPool` (`cpp_utils/object_pool.cpp:23-77`)

`init`, `take_one`, `add_one`, `empty` and `size` are in `pool_` with the lock, the deleter of `take_one` is in it without.
Here the threads of `main` are in `pool_` from one step to another. Two of them are in it at the same time only if one is
in the deleter (`Guarded.deletes`), and that happens exactly if there are two threads and two objects (`race_iff`).

| here | there |
| --- | --- |
| `Sys`     | the pool with its `mutex_` (`:85`), and the threads that are in `pool_` |
| `Locks`   | `take_one` (`:41`), whose `lock_guard` is released when it returns |
| `Deletes` | the deleter (`:48`) of a pointer that is not null |
| `Step`    | a thread of `func` (`:182`) goes into `pool_` or out of it, or makes a step that is not in it |
-/

namespace TinyUtils.ObjectPool.Race

open Function Runs Threads Callers

variable {Obj Tid : Type}

/-- The next step is a `take_one`. -/
def Locks : Pc Obj → Bool
  | .take1 | .take2 _ => true
  | _ => false

/-- The next step calls the deleter. -/
def Deletes : Pc Obj → Bool
  | .drop2 _ pt2 => pt2.isSome
  | .drop1 pt1 => pt1.isSome
  | _ => false

structure Sys (Obj Tid : Type) where
  pool : ObjectPool Obj
  mutex : Option Tid
  pc : Tid → Pc Obj
  inside : Tid → Bool

def start (p : ObjectPool Obj) : Sys Obj Tid := ⟨p, none, fun _ => .take1, fun _ => false⟩

variable [DecidableEq Tid]

/-- What a thread has done in `pool_` is there when it goes out. A program that faults ends. -/
inductive Step : Sys Obj Tid → Tid → Sys Obj Tid → Prop
  | lock {s : Sys Obj Tid} {t : Tid} : Locks (s.pc t) → s.inside t = false → s.mutex = none →
      Step s t { s with mutex := some t, inside := update s.inside t true }
  | unlock {s : Sys Obj Tid} {t : Tid} {x : Pc Obj × ObjectPool Obj} : Locks (s.pc t) → s.inside t = true →
      exec (s.pc t) s.pool = some (.ok x) →
      Step s t ⟨x.2, none, update s.pc t x.1, update s.inside t false⟩
  | enter {s : Sys Obj Tid} {t : Tid} : Deletes (s.pc t) → s.inside t = false →
      Step s t { s with inside := update s.inside t true }
  | leave {s : Sys Obj Tid} {t : Tid} {x : Pc Obj × ObjectPool Obj} : Deletes (s.pc t) → s.inside t = true →
      exec (s.pc t) s.pool = some (.ok x) →
      Step s t { s with pool := x.2, pc := update s.pc t x.1, inside := update s.inside t false }
  | other {s : Sys Obj Tid} {t : Tid} {x : Pc Obj × ObjectPool Obj} : Locks (s.pc t) = false →
      Deletes (s.pc t) = false → exec (s.pc t) s.pool = some (.ok x) →
      Step s t { s with pool := x.2, pc := update s.pc t x.1 }

/-- Two threads are in `pool_`. -/
def Racing (s : Sys Obj Tid) : Prop := ∃ t u, t ≠ u ∧ s.inside t ∧ s.inside u

/-- Who is in `pool_`, and who has the lock. -/
structure Guarded (s : Sys Obj Tid) : Prop where
  inside : ∀ t, s.inside t → Locks (s.pc t) ∨ Deletes (s.pc t)
  mutex : ∀ t, s.mutex = some t ↔ s.inside t ∧ Locks (s.pc t)

omit [DecidableEq Tid] in
theorem guarded_start (p : ObjectPool Obj) : Guarded (start p : Sys Obj Tid) := by
  constructor
  · simp [start]
  · simp [start]

theorem not_locks_of_deletes {p : Pc Obj} (h : Deletes p) : Locks p = false := by
  cases p <;> simp_all [Deletes, Locks]

/-- A step changes the thread that makes it, and for the others at most who has the lock. -/
theorem Guarded.update {s : Sys Obj Tid} (h : Guarded s) {t : Tid} {p : ObjectPool Obj} {m : Option Tid} {q : Pc Obj}
    {b : Bool} (hinside : b → Locks q ∨ Deletes q) (hmutex : m = some t ↔ b ∧ Locks q)
    (hothers : ∀ u, u ≠ t → (m = some u ↔ s.mutex = some u)) :
    Guarded ⟨p, m, Function.update s.pc t q, Function.update s.inside t b⟩ := by
  constructor
  · intro u hu
    by_cases hut : u = t
    · subst hut
      simp only [update_self] at hu ⊢
      exact hinside hu
    · simp only [update_of_ne hut] at hu ⊢
      exact h.inside u hu
  · intro u
    by_cases hut : u = t
    · subst hut
      simpa only [update_self] using hmutex
    · simp only [update_of_ne hut]
      exact (hothers u hut).trans (h.mutex u)

theorem Guarded.step {s s' : Sys Obj Tid} {t : Tid} (h : Guarded s) (hstep : Step s t s') : Guarded s' := by
  cases hstep with
  | lock hlocks hout hfree =>
    have hnext := h.update (t := t) (p := s.pool) (m := some t) (b := true) (fun _ => Or.inl hlocks) (by simp [hlocks])
      fun u hut => by simp [hfree, Ne.symm hut]
    rwa [update_eq_self] at hnext
  | unlock hlocks hin he =>
    have hmine : s.mutex = some t := (h.mutex t).2 ⟨hin, hlocks⟩
    exact h.update (by simp) (by simp) fun u hut => by simp [hmine, Ne.symm hut]
  | enter hdeletes hout =>
    have hnext := h.update (t := t) (p := s.pool) (m := s.mutex) (b := true) (fun _ => Or.inr hdeletes)
      (by simp [h.mutex t, hout, not_locks_of_deletes hdeletes]) fun u _ => Iff.rfl
    rwa [update_eq_self] at hnext
  | leave hdeletes hin he =>
    exact h.update (by simp) (by simp [h.mutex t, not_locks_of_deletes hdeletes]) fun u _ => Iff.rfl
  | @other x hlocks hdeletes he =>
    have hout : s.inside t = false := by
      cases hin : s.inside t with
      | false => rfl
      | true => simpa [hlocks, hdeletes] using h.inside t hin
    have hnext := h.update (t := t) (p := x.2) (m := s.mutex) (q := x.1) (b := false) (by simp)
      (by simp [h.mutex t, hout]) fun u _ => Iff.rfl
    rwa [← hout, update_eq_self] at hnext

omit [DecidableEq Tid] in
/-- **One of two that are in `pool_` is in the deleter.** -/
theorem Guarded.deletes {s : Sys Obj Tid} (h : Guarded s) {t u : Tid} (hne : t ≠ u) (ht : s.inside t) (hu : s.inside u) :
    Deletes (s.pc t) ∨ Deletes (s.pc u) := by
  rcases h.inside t ht with htl | htd
  · rcases h.inside u hu with hul | hud
    · have htm := (h.mutex t).2 ⟨ht, htl⟩
      have hum := (h.mutex u).2 ⟨hu, hul⟩
      rw [htm] at hum
      exact absurd (Option.some.inj hum) hne
    · exact Or.inr hud
  · exact Or.inl htd

/-! ## The callers -/

/-- With atomic calls. -/
def Sys.callers (s : Sys Obj Tid) : Except Callers.Fault (Callers.Sys Obj Tid) := .ok ⟨s.pool, s.pc⟩

/-- Where a call ends it is done. -/
theorem Step.callers {s s' : Sys Obj Tid} {t : Tid} (h : Step s t s') :
    s'.callers = s.callers ∨ Callers.Step s.callers t s'.callers := by
  cases h with
  | lock | enter => exact Or.inl rfl
  | unlock hpc hin he | leave hpc hin he | other hl hd he => exact Or.inr (.exec (r := .ok _) he)

theorem reach_callers {p : ObjectPool Obj} {s : Sys Obj Tid} (h : Reach Step (start p) s) :
    Reach Callers.Step (.ok (Callers.start p)) s.callers :=
  reach_image (fun _ t _ (hstep : Step _ t _) => hstep.callers.imp_right fun hcall => ⟨t, hcall⟩) h

theorem reach_guarded {p : ObjectPool Obj} {s : Sys Obj Tid} (h : Reach Step (start p) s) : Guarded s :=
  h.inv (guarded_start p) fun _ _ _ hs hstep => hs.step hstep

/-- A thread that has not got two objects has not come to its end. -/
def Early : Pc Obj → Prop
  | .print2 pt1 _ => pt1 ≠ none
  | .drop2 _ _ | .drop1 _ => False
  | _ => True

theorem Early.not_deletes {p : Pc Obj} (h : Early p) : Deletes p = false := by
  cases p <;> simp_all [Early, Deletes]

theorem Early.exec {p : Pc Obj} {pool : ObjectPool Obj} {x : Pc Obj × ObjectPool Obj} (h : Early p)
    (hfew : p.held.length < 2) (he : exec p pool = some (.ok x)) : Early x.1 := by
  cases p with
  | take1 | take2 pt1 =>
    cases he
    trivial
  | print1 pt1 pt2 =>
    cases pt1 with
    | none => cases he
    | some y =>
      cases he
      simp [Early]
  | print2 pt1 pt2 =>
    cases pt1 with
    | none => exact absurd rfl h
    | some y =>
      cases pt2 with
      | none => cases he
      | some z => simp [Pc.held] at hfew
  | drop2 pt1 pt2 | drop1 pt1 => exact h.elim
  | done => cases he

section
variable [Fintype Tid] [DecidableEq Obj]

/-- With less than two objects no thread comes to its end. -/
theorem reach_early {p : ObjectPool Obj} (hfew : size p < 2) {st : Except Callers.Fault (Callers.Sys Obj Tid)}
    (h : Reach Callers.Step (.ok (Callers.start p)) st) :
    ∀ s, st = .ok s → Conserved p s ∧ ∀ t, Early (s.pc t) := by
  induction h with
  | refl =>
    rintro s hs
    cases hs
    exact ⟨conserved_start p, fun _ => trivial⟩
  | @tail _ _ t _ hstep ih =>
    rintro s' hs'
    cases hstep with
    | @exec s _ r he =>
      obtain ⟨hc, hearly⟩ := ih s rfl
      cases r with
      | error e => cases hs'
      | ok x =>
        cases hs'
        have hlength := hc.length
        have hheld := Threads.le_total (fun pc : Pc Obj => pc.held.length) s.pc t
        refine ⟨hc.exec he, fun u => ?_⟩
        by_cases hut : u = t
        · subst hut
          simpa using (hearly u).exec (by omega) he
        · simpa [hut] using hearly u

end

/-- No thread is in `pool_`. -/
def quiet (p : ObjectPool Obj) (pc : Tid → Pc Obj) : Sys Obj Tid := ⟨p, none, pc, fun _ => false⟩

/-- A thread makes a step while the others wait. -/
theorem reach_quiet {s₀ : Sys Obj Tid} {p : ObjectPool Obj} {pc : Tid → Pc Obj} {t : Tid} {x : Pc Obj × ObjectPool Obj}
    (h : Reach Step s₀ (quiet p pc)) (hdeletes : Deletes (pc t) = false) (he : exec (pc t) p = some (.ok x)) :
    Reach Step s₀ (quiet x.2 (update pc t x.1)) := by
  cases hlocks : Locks (pc t) with
  | false => exact h.tail (.other hlocks hdeletes he)
  | true =>
    have hin : Step (quiet p pc) t { quiet p pc with mutex := some t, inside := update (fun _ => false) t true } :=
      .lock hlocks rfl rfl
    have hcall := (h.tail hin).tail (.unlock hlocks (update_self t true fun _ => false) he)
    simpa [quiet, update_eq_self] using hcall

/-- One thread is in the deleter and another one in its first `take_one`. -/
theorem exists_racing {p : ObjectPool Obj} {t u : Tid} (hne : t ≠ u) (htwo : 2 ≤ size p) :
    ∃ s : Sys Obj Tid, Reach Step (start p) s ∧ Racing s := by
  obtain ⟨x, y, rest, hpool⟩ : ∃ x y rest, p.pool = x :: y :: rest := by
    match hp : p.pool with
    | [] => simp [size, hp] at htwo
    | [x] => simp [size, hp] at htwo
    | x :: y :: rest => exact ⟨x, y, rest, rfl⟩
  have hfirst : exec .take1 p = some (.ok (.take2 (some x), { p with pool := y :: rest })) := by
    simp [exec, takeOne, hpool]
  have hsecond : exec (.take2 (some x)) { p with pool := y :: rest } =
      some (.ok (.print1 (some x) (some y), { p with pool := rest })) := rfl
  -- the first thread runs up to the end of `func`
  have hstart : Reach Step (start p : Sys Obj Tid) (quiet p fun _ => .take1) := .refl
  have htake1 := reach_quiet (t := t) hstart rfl hfirst
  have htake2 := reach_quiet (t := t) htake1 (by simp [Deletes]) (by simpa using hsecond)
  have hprint1 := reach_quiet (t := t) htake2 (by simp [Deletes]) (by simp [exec, print]; rfl)
  have hprint2 := reach_quiet (t := t) hprint1 (by simp [Deletes]) (by simp [exec, print]; rfl)
  simp only [update_idem] at hprint2
  have hdeleter := hprint2.tail (.enter (t := t) (by simp [quiet, Deletes]) rfl)
  have htake := hdeleter.tail (.lock (t := u) (by simp [quiet, Locks, hne.symm]) (by simp [quiet, hne.symm]) rfl)
  refine ⟨_, htake, t, u, hne, ?_, ?_⟩
  · simp [hne]
  · simp

/-- **Two threads can be in `pool_` at the same time exactly if there are two, and two objects.** -/
theorem race_iff [Fintype Tid] [DecidableEq Obj] (p : ObjectPool Obj) :
    (∃ s : Sys Obj Tid, Reach Step (start p) s ∧ Racing s) ↔ 2 ≤ Fintype.card Tid ∧ 2 ≤ size p := by
  constructor
  · rintro ⟨s, hr, t, u, hne, ht, hu⟩
    refine ⟨Fintype.one_lt_card_iff.2 ⟨t, u, hne⟩, Nat.le_of_not_lt fun hfew => ?_⟩
    obtain ⟨_, hearly⟩ := reach_early hfew (reach_callers hr) _ rfl
    have hnone : ∀ v, Deletes (s.pc v) = false := fun v => (hearly v).not_deletes
    rcases (reach_guarded hr).deletes hne ht hu with hdeletes | hdeletes
    · simp [hnone] at hdeletes
    · simp [hnone] at hdeletes
  · rintro ⟨hthreads, htwo⟩
    obtain ⟨t, u, hne⟩ := Fintype.one_lt_card_iff.1 hthreads
    exact exists_racing hne htwo

end TinyUtils.ObjectPool.Race
