import Mathlib.Data.Finset.Basic
import TinyUtils.Lib.Loop
import TinyUtils.Lib.Run
/-!
# `BaseSubject` (`cpp_utils/observer.cpp`)

A subject keeps pointers to its observers in the order in which they were added, up to a limit. It updates all of
them, and its destructor deletes all of them, from the last one to the first. So a pointer that is in the list twice
is updated twice and deleted twice, and the second `delete` is undefined.

| here | there |
| --- | --- |
| `BaseSubject`            | `observers_`, `max_observer_size_` (`:79-80`) |
| `addObserver`            | `AddObserver` (`:37`), which does not look for the pointer |
| `removeObserverIfExists` | `RemoveObserverIfExists` (`:45`) |
| `removeObserver`         | `RemoveObserver` (`:55`) |
| `notifyOne`, `notifyAll` | `NotifyOne` (`:60`), `NotifyAll` (`:72`), on the list of the updates so far |
| `destroy`                | `~BaseSubject` (`:26`), on the list of the deletes so far |

A pointer is any value that can be compared; it is not null and points to an observer.
-/

namespace TinyUtils.Observer

open Checked Loops Runs

inductive Fault where
  | deletedTwice

structure BaseSubject (Ptr : Type) where
  observers : List Ptr := []
  maxObserverSize : Nat

variable {Ptr : Type} [DecidableEq Ptr]

namespace BaseSubject

def addObserver (s : BaseSubject Ptr) (p : Ptr) : BaseSubject Ptr × Bool :=
  if s.observers.length ≥ s.maxObserverSize then (s, false)
  else ({ s with observers := s.observers ++ [p] }, true)

/-- `list::remove` takes all elements away that are equal. -/
def removeObserver (s : BaseSubject Ptr) (p : Ptr) : BaseSubject Ptr :=
  { s with observers := s.observers.filter (fun q => q ≠ p) }

def removeObserverIfExists (s : BaseSubject Ptr) (p : Ptr) : BaseSubject Ptr × Bool :=
  if s.observers.length = 0 then (s, false)
  else if s.observers.find? (fun q => q = p) = none then (s, false)
  else (s.removeObserver p, true)

def notifyOne (s : BaseSubject Ptr) (p : Ptr) (updated : List Ptr) : List Ptr × Bool :=
  if s.observers.length = 0 then (updated, false)
  else
    match s.observers.find? (fun q => q = p) with
    | none => (updated, false)
    | some q => (updated ++ [q], true)

def notifyAll (s : BaseSubject Ptr) (updated : List Ptr) : List Ptr :=
  s.observers.foldl (fun updated p => updated ++ [p]) updated

/-- `delete p;` -/
def delete (p : Ptr) (deleted : List Ptr) : Except Fault (List Ptr) :=
  if p ∈ deleted then .error .deletedTwice else .ok (deleted ++ [p])

/-- `while(!observers_.empty())` -/
def destroyTurn : List Ptr × List Ptr → Except Fault ((List Ptr × List Ptr) ⊕ List Ptr)
  | (observers, deleted) =>
    match observers.getLast? with
    | none => .ok (.inr deleted)
    | some p => do
      let deleted ← delete p deleted
      .ok (.inl (observers.dropLast, deleted))

def destroy (s : BaseSubject Ptr) : Fuelled Fault (List Ptr) := loop destroyTurn (s.observers, [])

/-! ## What the calls do -/

omit [DecidableEq Ptr] in
theorem addObserver_full {s : BaseSubject Ptr} {p : Ptr} (h : s.maxObserverSize ≤ s.observers.length) :
    s.addObserver p = (s, false) := if_pos h

omit [DecidableEq Ptr] in
theorem addObserver_room {s : BaseSubject Ptr} {p : Ptr} (h : s.observers.length < s.maxObserverSize) :
    s.addObserver p = ({ s with observers := s.observers ++ [p] }, true) := if_neg (Nat.not_le_of_lt h)

theorem find?_eq_none {observers : List Ptr} {p : Ptr} : observers.find? (fun q => q = p) = none ↔ p ∉ observers := by
  simp only [List.find?_eq_none, decide_eq_true_eq]
  constructor
  · intro h hp
    exact h p hp rfl
  · rintro h q hq rfl
    exact h hq

theorem removeObserver_of_not_mem {s : BaseSubject Ptr} {p : Ptr} (h : p ∉ s.observers) : s.removeObserver p = s := by
  have hall : ∀ q ∈ s.observers, decide (q ≠ p) = true := by
    intro q hq
    apply decide_eq_true
    rintro rfl
    exact h hq
  rw [removeObserver, List.filter_eq_self.2 hall]

/-- Both ways to remove an observer do the same; the one tells whether there was something to remove. -/
theorem removeObserverIfExists_eq (s : BaseSubject Ptr) (p : Ptr) :
    s.removeObserverIfExists p = (s.removeObserver p, decide (p ∈ s.observers)) := by
  unfold removeObserverIfExists
  by_cases hempty : s.observers.length = 0
  · have hp : p ∉ s.observers := by
      rw [List.eq_nil_of_length_eq_zero hempty]
      exact List.not_mem_nil
    rw [if_pos hempty, removeObserver_of_not_mem hp, decide_eq_false hp]
  · rw [if_neg hempty]
    by_cases hp : p ∈ s.observers
    · rw [if_neg (fun hnone => find?_eq_none.1 hnone hp), decide_eq_true hp]
    · rw [if_pos (find?_eq_none.2 hp), removeObserver_of_not_mem hp, decide_eq_false hp]

omit [DecidableEq Ptr] in
theorem notifyAll_eq (s : BaseSubject Ptr) (updated : List Ptr) : s.notifyAll updated = updated ++ s.observers := by
  have hfold : ∀ (observers updated : List Ptr),
      observers.foldl (fun updated p => updated ++ [p]) updated = updated ++ observers := by
    intro observers
    induction observers with
    | nil =>
      intro updated
      exact (List.append_nil updated).symm
    | cons p observers ih =>
      intro updated
      rw [List.foldl_cons, ih, List.append_assoc]
      rfl
  exact hfold s.observers updated

/-- What is left of the list and what is deleted have no pointer twice, and the deletes are the ones of the list from
its end. -/
def Destroying (s : BaseSubject Ptr) (st : List Ptr × List Ptr) (left : Nat) : Prop :=
  st.1.length = left ∧ st.2 ++ st.1.reverse = s.observers.reverse

theorem destroy_returns {s : BaseSubject Ptr} (h : s.observers.Nodup) : Returns s.destroy s.observers.reverse := by
  have hturn : ∀ st left, Destroying s st left →
      (∃ st' left', destroyTurn st = .ok (.inl st') ∧ Destroying s st' left' ∧ left' < left) ∨
        ∃ deleted, destroyTurn st = .ok (.inr deleted) ∧ deleted = s.observers.reverse := by
    rintro ⟨observers, deleted⟩ left ⟨hlen, hall⟩
    simp only at hlen hall
    rcases List.eq_nil_or_concat' observers with rfl | ⟨rest, p, rfl⟩
    · right
      refine ⟨deleted, rfl, ?_⟩
      rw [← hall, List.reverse_nil, List.append_nil]
    · left
      rw [List.reverse_append, List.reverse_singleton] at hall
      have hnodup : (deleted ++ ([p] ++ rest.reverse)).Nodup := by
        rw [hall]
        exact List.nodup_reverse.2 h
      have hfresh : p ∉ deleted := fun hp => List.disjoint_of_nodup_append hnodup hp List.mem_cons_self
      refine ⟨(rest, deleted ++ [p]), rest.length, ?_, ⟨rfl, ?_⟩, ?_⟩
      · simp only [destroyTurn, List.getLast?_concat, delete, if_neg hfresh, ok_bind, List.dropLast_concat]
      · rw [← hall]
        exact List.append_assoc deleted [p] rest.reverse
      · rw [← hlen, List.length_append]
        exact Nat.lt_succ_self _
  have hinit : Destroying s (s.observers, []) s.observers.length := ⟨rfl, rfl⟩
  obtain ⟨deleted, hret, rfl⟩ := returns_loop (fun left : Nat => left) hturn hinit
  exact hret

end BaseSubject

/-! ## Runs -/

/-- The calls that change the list. -/
inductive Call (Ptr : Type) where
  | addObserver (p : Ptr)
  | removeObserver (p : Ptr)
  | removeObserverIfExists (p : Ptr)

/-- A subject, and the observers that are registered: those added with success and not removed since. -/
structure Sys (Ptr : Type) where
  subject : BaseSubject Ptr
  registered : Finset Ptr

def Sys.init (maxObserverSize : Nat) : Sys Ptr := ⟨{ maxObserverSize }, ∅⟩

def Sys.call (s : Sys Ptr) : Call Ptr → Sys Ptr
  | .addObserver p =>
    let r := s.subject.addObserver p
    ⟨r.1, if r.2 then insert p s.registered else s.registered⟩
  | .removeObserver p => ⟨s.subject.removeObserver p, s.registered.erase p⟩
  | .removeObserverIfExists p =>
    let r := s.subject.removeObserverIfExists p
    ⟨r.1, if r.2 then s.registered.erase p else s.registered⟩

def Step (s : Sys Ptr) (c : Call Ptr) (s' : Sys Ptr) : Prop := s' = s.call c

/-- Each registered observer and no other, and each once. -/
def OnceEach (registered : Finset Ptr) (l : List Ptr) : Prop := ∀ p, l.count p = if p ∈ registered then 1 else 0

/-- `NotifyAll` updates each registered observer once, and the destructor ends and deletes each of them once. -/
structure Sound (s : Sys Ptr) : Prop where
  updates : OnceEach s.registered (s.subject.notifyAll [])
  deletes : ∃ deleted, Returns s.subject.destroy deleted ∧ OnceEach s.registered deleted

/-- An observer that is added is not in the list, or the list is full. -/
def AddsNew (s : Sys Ptr) (c : Call Ptr) : Prop :=
  ∀ p, c = .addObserver p → p ∉ s.subject.observers ∨ s.subject.maxObserverSize ≤ s.subject.observers.length

/-- The list has the registered observers, and no pointer twice. -/
structure Tidy (s : Sys Ptr) : Prop where
  nodup : s.subject.observers.Nodup
  mem : ∀ p, p ∈ s.registered ↔ p ∈ s.subject.observers

theorem onceEach_iff {registered : Finset Ptr} {l : List Ptr} :
    OnceEach registered l ↔ l.Nodup ∧ ∀ p, p ∈ registered ↔ p ∈ l := by
  constructor
  · intro h
    refine ⟨List.nodup_iff_count_le_one.2 fun p => ?_, fun p => ?_⟩
    · rw [h p]
      split <;> decide
    · rw [← List.count_pos_iff, h p]
      split <;> simp_all
  · rintro ⟨hnodup, hmem⟩ p
    rw [hnodup.count]
    simp only [hmem]

theorem Tidy.sound {s : Sys Ptr} (h : Tidy s) : Sound s := by
  refine ⟨?_, s.subject.observers.reverse, BaseSubject.destroy_returns h.nodup, ?_⟩
  · rw [BaseSubject.notifyAll_eq, List.nil_append]
    exact onceEach_iff.2 ⟨h.nodup, h.mem⟩
  · simp only [onceEach_iff, List.nodup_reverse, List.mem_reverse]
    exact ⟨h.nodup, h.mem⟩

theorem Sound.nodup {s : Sys Ptr} (h : Sound s) : s.subject.observers.Nodup := by
  have hupdates := h.updates
  rw [BaseSubject.notifyAll_eq, List.nil_append] at hupdates
  exact (onceEach_iff.1 hupdates).1

theorem Tidy.remove {s : Sys Ptr} (h : Tidy s) (p : Ptr) : Tidy ⟨s.subject.removeObserver p, s.registered.erase p⟩ := by
  refine ⟨h.nodup.filter _, fun q => ?_⟩
  simp only [BaseSubject.removeObserver, Finset.mem_erase, List.mem_filter, decide_eq_true_eq, h.mem q]
  exact and_comm

/-- The one call that looks for the pointer removes it as the other one does. -/
theorem Tidy.call_removeObserverIfExists {s : Sys Ptr} (h : Tidy s) (p : Ptr) :
    s.call (.removeObserverIfExists p) = ⟨s.subject.removeObserver p, s.registered.erase p⟩ := by
  simp only [Sys.call, BaseSubject.removeObserverIfExists_eq]
  by_cases hp : p ∈ s.subject.observers
  · rw [if_pos (decide_eq_true hp)]
  · rw [if_neg (by simpa using hp), Finset.erase_eq_of_notMem (fun hreg => hp ((h.mem p).1 hreg))]

theorem Tidy.call {s : Sys Ptr} {c : Call Ptr} (h : Tidy s) (hnew : AddsNew s c) : Tidy (s.call c) := by
  cases c with
  | addObserver p =>
    simp only [Sys.call]
    rcases Nat.lt_or_ge s.subject.observers.length s.subject.maxObserverSize with hroom | hfull
    · have hp : p ∉ s.subject.observers := (hnew p rfl).resolve_right (Nat.not_le_of_lt hroom)
      rw [BaseSubject.addObserver_room hroom]
      refine ⟨List.nodup_append.2 ⟨h.nodup, List.nodup_singleton p, ?_⟩, fun q => ?_⟩
      · intro q hq r hr
        rw [List.mem_singleton.1 hr]
        rintro rfl
        exact hp hq
      · simp only [if_true, Finset.mem_insert, List.mem_append, List.mem_singleton, h.mem q]
        exact or_comm
    · rw [BaseSubject.addObserver_full hfull]
      exact h
  | removeObserver p => exact h.remove p
  | removeObserverIfExists p =>
    rw [h.call_removeObserverIfExists p]
    exact h.remove p

/-- A pointer that is added again is in the list twice. -/
theorem addsNew_of_sound {s : Sys Ptr} {c : Call Ptr} (h : Sound (s.call c)) : AddsNew s c := by
  rintro p rfl
  rcases Nat.lt_or_ge s.subject.observers.length s.subject.maxObserverSize with hroom | hfull
  · left
    have hnodup := h.nodup
    simp only [Sys.call, BaseSubject.addObserver_room hroom] at hnodup
    intro hp
    exact List.disjoint_of_nodup_append hnodup hp List.mem_cons_self
  · exact Or.inr hfull

/-- **Every observer is updated once and deleted once**, whenever `NotifyAll` or the destructor is called, exactly if
no call of `AddObserver` finds the pointer in a list that has room. -/
theorem run_sound_iff {maxObserverSize : Nat} {tr : List (Call Ptr × Sys Ptr)}
    (h : IsRun Step (Sys.init maxObserverSize) tr) :
    StatesMeet Sound (Sys.init maxObserverSize) tr ↔ StepsMeet AddsNew (Sys.init maxObserverSize) tr := by
  have hstep : ∀ (s : Sys Ptr) c s', Tidy s → Step s c s' → AddsNew s c → Tidy s' := by
    rintro s c _ hs rfl hnew
    exact hs.call hnew
  have hbad : ∀ (s : Sys Ptr) c s', Tidy s → Step s c s' → Sound s' → AddsNew s c := by
    rintro s c _ _ rfl hsound
    exact addsNew_of_sound hsound
  have hinit : Tidy (Sys.init maxObserverSize : Sys Ptr) := by
    refine ⟨List.nodup_nil, fun p => ?_⟩
    exact iff_of_false (Finset.notMem_empty p) List.not_mem_nil
  exact run_exact (fun _ hs => hs.sound) hstep hbad hinit h

/-- Two observers are added, and the first one is removed. -/
theorem run_sound_three :
    let s1 := (Sys.init 10).call (.addObserver 0)
    let s2 := s1.call (.addObserver 1)
    let s3 := s2.call (.removeObserver 0)
    let tr := [(.addObserver 0, s1), (.addObserver 1, s2), (.removeObserver 0, s3)]
    StatesMeet Sound (Sys.init 10 : Sys Nat) tr ↔ StepsMeet AddsNew (Sys.init 10 : Sys Nat) tr :=
  run_sound_iff ⟨rfl, rfl, rfl, trivial⟩

/-- An observer is added twice. -/
theorem not_run_sound_twice :
    ¬ ∀ (maxObserverSize : Nat) (tr : List (Call Nat × Sys Nat)), IsRun Step (Sys.init maxObserverSize) tr →
      StatesMeet Sound (Sys.init maxObserverSize) tr := by
  intro hall
  let s1 : Sys Nat := (Sys.init 10).call (.addObserver 0)
  have hstates := hall 10 [(.addObserver 0, s1), (.addObserver 0, s1.call (.addObserver 0))] ⟨rfl, rfl, trivial⟩
  have hnodup : [0, 0].Nodup := hstates.last.nodup
  exact absurd hnodup (by decide)

end TinyUtils.Observer
