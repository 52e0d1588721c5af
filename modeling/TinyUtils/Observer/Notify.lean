import TinyUtils.Lib.Cursor
import TinyUtils.Observer
/-!
# `NotifyAll` while the list changes (`cpp_utils/observer.cpp`)

`Update` is virtual, so an observer may add and remove observers of the subject that is just updating it. The list is a
linked one: the loop goes on from the node it is on, and is undefined if that one was erased.

| here | there |
| --- | --- |
| `Subject`              | `BaseSubject`, with the nodes of `observers_` (`:79-80`) |
| `Subject.call`         | `AddObserver`, `RemoveObserver`, `RemoveObserverIfExists` (`:37-58`) |
| `Subject.notifyAll`    | `NotifyAll` (`:72`) where its loop begins |
| `Notifying.update`     | `p_observer->Update()` and `++` of the iterator (`:74-75`) |

An update is the list of the calls that change the observers until it returns, also the ones that are made in other
updates it starts.
-/

namespace TinyUtils.Observer.Notify

open Cursor Runs

variable {Ptr : Type} [DecidableEq Ptr]

structure Subject (Ptr : Type) where
  list : Numbered Ptr := .empty
  maxObserverSize : Nat

namespace Subject

def observers (s : Subject Ptr) : List Ptr := s.list.values

def addObserver (s : Subject Ptr) (p : Ptr) : Subject Ptr :=
  if s.list.nodes.length ≥ s.maxObserverSize then s else { s with list := s.list.push p }

def removeObserver (s : Subject Ptr) (p : Ptr) : Subject Ptr := { s with list := s.list.keep fun q => q ≠ p }

def removeObserverIfExists (s : Subject Ptr) (p : Ptr) : Subject Ptr :=
  if s.list.nodes.length = 0 then s
  else if s.list.nodes.find? (fun n => n.1 = p) = none then s
  else s.removeObserver p

def call (s : Subject Ptr) : Call Ptr → Subject Ptr
  | .addObserver p => s.addObserver p
  | .removeObserver p => s.removeObserver p
  | .removeObserverIfExists p => s.removeObserverIfExists p

def calls (s : Subject Ptr) (cs : List (Call Ptr)) : Subject Ptr := cs.foldl call s

/-- The observers that were added between two states. -/
def added (s s' : Subject Ptr) : List Ptr := s.list.added s'.list

/-- Without the nodes. -/
def toBase (s : Subject Ptr) : BaseSubject Ptr := ⟨s.observers, s.maxObserverSize⟩

end Subject

structure Notifying (Ptr : Type) where
  subject : Subject Ptr
  iterator : Position Ptr
  updated : List (Ptr × Nat)

omit [DecidableEq Ptr] in
def Subject.notifyAll (s : Subject Ptr) : Notifying Ptr := ⟨s, first s.list.nodes, []⟩

namespace Notifying

/-- The observers that were updated, in their order. -/
def updates (w : Notifying Ptr) : List Ptr := w.updated.map Prod.fst

def update (w : Notifying Ptr) (n : Ptr × Nat) (cs : List (Call Ptr)) : Notifying Ptr :=
  ⟨w.subject.calls cs, follow (w.subject.calls cs).list.nodes n.2, w.updated ++ [n]⟩

def walk (w : Notifying Ptr) : Walk Ptr := ⟨w.subject.list, w.iterator, w.updated⟩

end Notifying

def Step (w : Notifying Ptr) (cs : List (Call Ptr)) (w' : Notifying Ptr) : Prop :=
  ∃ n, w.iterator = .on n ∧ w' = w.update n cs

/-- The calls take the observer away. -/
def Removes (cs : List (Call Ptr)) (p : Ptr) : Prop := .removeObserver p ∈ cs ∨ .removeObserverIfExists p ∈ cs

/-- The observer that is updated stays. -/
def KeepsCurrent (w : Notifying Ptr) (cs : List (Call Ptr)) : Prop := ∀ n, w.iterator = .on n → ¬ Removes cs n.1

/-- All calls are additions. -/
def OnlyAdds (cs : List (Call Ptr)) : Prop := ∀ c ∈ cs, ∃ p, c = .addObserver p

/-! ## The calls -/

section
variable {s : Subject Ptr}

/-- The nodes are the list of the subject without them. -/
theorem call_toBase (s : Subject Ptr) (registered : Finset Ptr) (c : Call Ptr) :
    ((⟨s.toBase, registered⟩ : Sys Ptr).call c).subject = (s.call c).toBase := by
  have hremove : ∀ p, (s.removeObserver p).toBase = s.toBase.removeObserver p := by
    intro p
    simp [Subject.toBase, Subject.removeObserver, Subject.observers, BaseSubject.removeObserver]
  cases c with
  | addObserver p =>
    simp only [Sys.call, Subject.call, Subject.addObserver, Numbered.length_nodes]
    by_cases hfull : s.maxObserverSize ≤ s.list.values.length
    · rw [if_pos hfull, BaseSubject.addObserver_full hfull]
    · rw [if_neg hfull, BaseSubject.addObserver_room (Nat.lt_of_not_le hfull)]
      simp [Subject.toBase, Subject.observers]
  | removeObserver p => exact (hremove p).symm
  | removeObserverIfExists p =>
    have hfind : s.list.nodes.find? (fun n => n.1 = p) = none ↔ p ∉ s.toBase.observers := by
      simp only [Subject.toBase, Subject.observers, Numbered.values, List.find?_eq_none, decide_eq_true_eq, List.mem_map,
        not_exists, not_and]
    simp only [Sys.call, Subject.call, Subject.removeObserverIfExists, BaseSubject.removeObserverIfExists_eq,
      Numbered.length_nodes, hfind]
    by_cases hp : p ∈ s.toBase.observers
    · have hlength : s.list.values.length ≠ 0 := List.length_pos_of_mem hp |>.ne'
      rw [if_neg hlength, if_neg (not_not_intro hp), hremove]
    · rw [if_pos hp, ite_self, BaseSubject.removeObserver_of_not_mem hp]

theorem removeObserverIfExists_eq (s : Subject Ptr) (p : Ptr) :
    s.removeObserverIfExists p = s ∨ s.removeObserverIfExists p = s.removeObserver p := by
  unfold Subject.removeObserverIfExists
  split
  · simp
  · split
    · simp
    · simp

theorem removeObserver_later (s : Subject Ptr) (p : Ptr) : s.list.Later (s.removeObserver p).list :=
  s.list.later_keep (fun q => q ≠ p)

theorem call_later (s : Subject Ptr) (c : Call Ptr) : s.list.Later (s.call c).list := by
  cases c with
  | addObserver p =>
    simp only [Subject.call, Subject.addObserver]
    split
    · exact .refl s.list
    · exact s.list.later_push p
  | removeObserver p => exact removeObserver_later s p
  | removeObserverIfExists p =>
    rcases removeObserverIfExists_eq s p with heq | heq
    · rw [Subject.call, heq]
      exact .refl s.list
    · rw [Subject.call, heq]
      exact removeObserver_later s p

theorem calls_later (s : Subject Ptr) (cs : List (Call Ptr)) : s.list.Later (s.calls cs).list := by
  induction cs generalizing s with
  | nil => exact .refl s.list
  | cons c cs ih => exact (call_later s c).trans (ih (s.call c))

theorem mem_removeObserver {p : Ptr} {n : Ptr × Nat} :
    n ∈ (s.removeObserver p).list.nodes ↔ n ∈ s.list.nodes ∧ n.1 ≠ p := by
  simp [Subject.removeObserver, Numbered.keep]

/-- A node is there after a call, if the call does not remove its observer. -/
theorem mem_call {n : Ptr × Nat} (hn : n ∈ s.list.nodes) (c : Call Ptr) :
    n ∈ (s.call c).list.nodes ↔ ¬ Removes [c] n.1 := by
  cases c with
  | addObserver p =>
    simp only [Subject.call, Subject.addObserver, Removes]
    split
    · simpa using hn
    · simp [Numbered.push, hn]
  | removeObserver p =>
    rw [Subject.call, mem_removeObserver]
    simp [Removes, hn]
  | removeObserverIfExists p =>
    by_cases hp : n.1 = p
    · have hsome : s.list.nodes.find? (fun m => m.1 = p) ≠ none := by
        simp only [ne_eq, List.find?_eq_none, decide_eq_true_eq]
        exact fun hall => hall n hn hp
      have hlength : s.list.nodes.length ≠ 0 := List.length_pos_of_mem hn |>.ne'
      rw [Subject.call, Subject.removeObserverIfExists, if_neg hlength, if_neg hsome, mem_removeObserver]
      simp [Removes, hp]
    · have hmem : n ∈ (s.removeObserverIfExists p).list.nodes := by
        rcases removeObserverIfExists_eq s p with heq | heq
        · rw [heq]
          exact hn
        · rw [heq, mem_removeObserver]
          exact ⟨hn, hp⟩
      simpa [Subject.call, Removes, hp] using hmem

theorem mem_calls {n : Ptr × Nat} (hn : n ∈ s.list.nodes) (cs : List (Call Ptr)) :
    n ∈ (s.calls cs).list.nodes ↔ ¬ Removes cs n.1 := by
  induction cs generalizing s with
  | nil => simpa [Subject.calls, Removes] using hn
  | cons c cs ih =>
    have hcons : Removes (c :: cs) n.1 ↔ Removes [c] n.1 ∨ Removes cs n.1 := by
      simp only [Removes, List.mem_cons, List.not_mem_nil, or_false]
      tauto
    rw [hcons, not_or, ← mem_call hn c]
    by_cases hc : n ∈ (s.call c).list.nodes
    · rw [and_iff_right hc]
      exact ih hc
    · -- a node that is erased does not come back
      have hlt := Nat.lt_of_lt_of_le (s.list.place_lt hn) (call_later s c).seen.length_le
      have hgone : n ∉ (s.calls (c :: cs)).list.nodes := fun hin => hc ((calls_later (s.call c) cs).old n hin hlt)
      simp [hc, hgone]

theorem calls_adds {cs : List (Call Ptr)} (h : OnlyAdds cs) :
    (s.calls cs).observers = s.observers ++ s.added (s.calls cs) ∧
      (s.calls cs).maxObserverSize = s.maxObserverSize ∧
      (s.calls cs).observers.length ≤ max s.maxObserverSize s.observers.length := by
  induction cs generalizing s with
  | nil => simp [Subject.calls, Subject.added, Numbered.added]
  | cons c cs ih =>
    obtain ⟨⟨p, rfl⟩, hcs⟩ := List.forall_mem_cons.1 h
    obtain ⟨hobservers, hmax, hlength⟩ := ih (s := s.addObserver p) hcs
    have hadded : s.added (s.calls (.addObserver p :: cs)) =
        s.added (s.addObserver p) ++ (s.addObserver p).added (s.calls (.addObserver p :: cs)) :=
      (call_later s (.addObserver p)).added_trans (calls_later (s.addObserver p) cs)
    have hone : (s.addObserver p).observers = s.observers ++ s.added (s.addObserver p) ∧
        (s.addObserver p).maxObserverSize = s.maxObserverSize ∧
        (s.addObserver p).observers.length ≤ max s.maxObserverSize s.observers.length := by
      unfold Subject.addObserver
      split
      next => simp [Subject.added, Numbered.added]
      next hroom =>
        simp [Subject.added, Numbered.added, Subject.observers] at hroom ⊢
        omega
    refine ⟨?_, hmax.trans hone.2.1, ?_⟩
    · rw [hadded, ← List.append_assoc, ← hone.1]
      exact hobservers
    · have hle := hone.2.2
      rw [hone.2.1] at hlength
      have hcalls : s.calls (.addObserver p :: cs) = (s.addObserver p).calls cs := rfl
      rw [hcalls]
      omega

end

/-! ## Runs -/

section
variable {s : Subject Ptr} {w w' : Notifying Ptr} {cs : List (Call Ptr)}

theorem step_walking (h : Walking s.list w.walk) (hstep : Step w cs w') : Walking s.list w'.walk := by
  obtain ⟨n, hn, rfl⟩ := hstep
  exact h.visit hn (calls_later w.subject cs)

theorem step_lost_iff (h : Walking s.list w.walk) (hstep : Step w cs w') :
    w'.iterator = .lost ↔ ¬ KeepsCurrent w cs := by
  obtain ⟨n, hn, rfl⟩ := hstep
  have hlost : (w.update n cs).iterator = .lost ↔ n ∉ (w.subject.calls cs).list.nodes :=
    h.lost_iff hn (calls_later w.subject cs)
  rw [hlost, mem_calls (h.on n hn).1]
  simp [KeepsCurrent, hn]

theorem step_adds (h : Walking s.list w.walk) (hstep : Step w cs w') (hadds : OnlyAdds cs) : w'.iterator ≠ .lost := by
  have hkeeps : KeepsCurrent w cs := by
    rintro n _ (hmem | hmem)
    · obtain ⟨p, hp⟩ := hadds _ hmem
      cases hp
    · obtain ⟨p, hp⟩ := hadds _ hmem
      cases hp
  exact fun hlost => (step_lost_iff h hstep).1 hlost hkeeps

/-- What is kept while observers are only added. -/
structure Adding (s : Subject Ptr) (w : Notifying Ptr) : Prop where
  walking : Walking s.list w.walk
  found : w.iterator ≠ .lost
  all : w.subject.observers = s.observers ++ s.added w.subject
  limit : w.subject.maxObserverSize = s.maxObserverSize
  few : w.subject.observers.length ≤ max s.maxObserverSize s.observers.length

theorem Adding.step (h : Adding s w) (hstep : Step w cs w') (hadds : OnlyAdds cs) : Adding s w' := by
  have hwalking := step_walking h.walking hstep
  have hfound := step_adds h.walking hstep hadds
  obtain ⟨n, hn, rfl⟩ := hstep
  obtain ⟨hall, hlimit, hfew⟩ := calls_adds (s := w.subject) hadds
  have hadded : s.added (w.subject.calls cs) = s.added w.subject ++ w.subject.added (w.subject.calls cs) :=
    h.walking.later.added_trans (calls_later w.subject cs)
  have hle := h.few
  rw [h.limit] at hfew
  refine ⟨hwalking, hfound, ?_, hlimit.trans h.limit, ?_⟩
  · simp only [Notifying.update, hall, hadded, h.all, List.append_assoc]
  · simp only [Notifying.update]
    omega

omit [DecidableEq Ptr] in
theorem Adding.notifyAll (s : Subject Ptr) : Adding s s.notifyAll := by
  refine ⟨.start s.list, first_ne_lost _, ?_, rfl, Nat.le_max_right _ _⟩
  simp [Subject.notifyAll, Subject.added, Numbered.added]

end

section
variable {s : Subject Ptr} {tr : List (List (Call Ptr) × Notifying Ptr)}

theorem run_walking (h : IsRun Step s.notifyAll tr) : Walking s.list (last s.notifyAll tr).walk :=
  (h.reach .refl).inv (Walking.start s.list) fun _ _ _ hw hstep => step_walking hw hstep

theorem length_updates_last {w : Notifying Ptr} (h : IsRun Step w tr) :
    (last w tr).updates.length = w.updates.length + tr.length := by
  induction tr generalizing w with
  | nil => simp [last]
  | cons x tr ih =>
    obtain ⟨⟨n, _, hx⟩, htr⟩ := h
    have hone : x.2.updates.length = w.updates.length + 1 := by
      simp [hx, Notifying.update, Notifying.updates]
    rw [last, ih htr, hone, List.length_cons]
    omega

/-- An observer is updated in each step. -/
theorem length_updates (h : IsRun Step s.notifyAll tr) : (last s.notifyAll tr).updates.length = tr.length := by
  rw [length_updates_last h]
  simp [Subject.notifyAll, Notifying.updates]

theorem run_adding (h : IsRun Step s.notifyAll tr) (hadds : StepsMeet (fun _ cs => OnlyAdds cs) s.notifyAll tr) :
    Adding s (last s.notifyAll tr) :=
  (run_inv (fun _ hw => hw) (fun _ _ _ hw hstep hcs => hw.step hstep hcs) (Adding.notifyAll s) h hadds).last

/-- **The loop of `NotifyAll` is defined** exactly as long as no update removes the observer that it updates. -/
theorem notify_safe_iff (h : IsRun Step s.notifyAll tr) :
    StatesMeet (fun w => w.iterator ≠ .lost) s.notifyAll tr ↔ StepsMeet KeepsCurrent s.notifyAll tr := by
  have hstep : ∀ (w : Notifying Ptr) cs w', Walking s.list w.walk ∧ w.iterator ≠ .lost → Step w cs w' →
      KeepsCurrent w cs → Walking s.list w'.walk ∧ w'.iterator ≠ .lost := by
    rintro w cs w' ⟨hw, _⟩ hstep hkeeps
    exact ⟨step_walking hw hstep, fun hlost => (step_lost_iff hw hstep).1 hlost hkeeps⟩
  have hbad : ∀ (w : Notifying Ptr) cs w', Walking s.list w.walk ∧ w.iterator ≠ .lost → Step w cs w' →
      w'.iterator ≠ .lost → KeepsCurrent w cs := by
    rintro w cs w' ⟨hw, _⟩ hstep hfound
    exact not_not.1 fun hnot => hfound ((step_lost_iff hw hstep).2 hnot)
  exact run_exact (fun _ hw => hw.2) hstep hbad ⟨.start s.list, first_ne_lost _⟩ h

/-- The first update removes the second observer. -/
theorem notify_safe_removed :
    let s : Subject Nat := Subject.calls { maxObserverSize := 10 } [.addObserver 0, .addObserver 1]
    let w := s.notifyAll.update (0, 0) [.removeObserver 1]
    let tr : List (List (Call Nat) × Notifying Nat) := [([.removeObserver 1], w)]
    StatesMeet (fun w => w.iterator ≠ .lost) s.notifyAll tr ↔ StepsMeet KeepsCurrent s.notifyAll tr :=
  notify_safe_iff ⟨⟨(0, 0), rfl, rfl⟩, trivial⟩

/-- **Who is updated**, whatever the updates do: only observers that were there at the start or were added since, each of
them at most once and in their order, so there are not more updates than these; and when `NotifyAll` returns, all that are
there then. -/
theorem notify_updates (h : IsRun Step s.notifyAll tr) :
    (last s.notifyAll tr).updates.Sublist (s.observers ++ s.added (last s.notifyAll tr).subject) ∧
      tr.length ≤ s.observers.length + (s.added (last s.notifyAll tr).subject).length ∧
      ((last s.notifyAll tr).iterator = .past →
        (last s.notifyAll tr).subject.observers.Sublist (last s.notifyAll tr).updates) := by
  have hwalking := run_walking h
  have hupdates : (last s.notifyAll tr).updates.Sublist (s.observers ++ s.added (last s.notifyAll tr).subject) :=
    hwalking.visited_sublist
  refine ⟨hupdates, ?_, hwalking.values_sublist⟩
  have hlength := hupdates.length_le
  rw [length_updates h, List.length_append] at hlength
  exact hlength

/-- The first update removes the second observer and adds a third one. -/
theorem notify_updates_replaced :
    let s : Subject Nat := Subject.calls { maxObserverSize := 10 } [.addObserver 0, .addObserver 1]
    let w := s.notifyAll.update (0, 0) [.removeObserver 1, .addObserver 2]
    let w' := w.update (2, 2) []
    let tr : List (List (Call Nat) × Notifying Nat) := [([.removeObserver 1, .addObserver 2], w), ([], w')]
    (last s.notifyAll tr).updates.Sublist (s.observers ++ s.added (last s.notifyAll tr).subject) ∧
      tr.length ≤ s.observers.length + (s.added (last s.notifyAll tr).subject).length ∧
      ((last s.notifyAll tr).iterator = .past →
        (last s.notifyAll tr).subject.observers.Sublist (last s.notifyAll tr).updates) :=
  notify_updates ⟨⟨(0, 0), rfl, rfl⟩, ⟨(2, 2), rfl, rfl⟩, trivial⟩

/-- **Updates that only add observers**: `NotifyAll` returns after not more updates than the limit, or than there were
observers if they were more, and has updated all that are there then, in their order. -/
theorem notify_adds (h : IsRun Step s.notifyAll tr) (hadds : StepsMeet (fun _ cs => OnlyAdds cs) s.notifyAll tr) :
    tr.length ≤ max s.maxObserverSize s.observers.length ∧
      ((∃ n, (last s.notifyAll tr).iterator = .on n) ∨
        (last s.notifyAll tr).iterator = .past ∧
          (last s.notifyAll tr).updates = (last s.notifyAll tr).subject.observers) := by
  have hlast := run_adding h hadds
  constructor
  · have hlength := hlast.walking.visited_sublist.length_le
    have hall : (last s.notifyAll tr).subject.observers.length =
        (s.observers ++ s.added (last s.notifyAll tr).subject).length := congrArg List.length hlast.all
    have hupdates : (last s.notifyAll tr).walk.values.length = tr.length := length_updates h
    have hfew := hlast.few
    rw [hall] at hfew
    rw [← hupdates]
    exact hlength.trans hfew
  · cases hpos : (last s.notifyAll tr).iterator with
    | on n => exact Or.inl ⟨n, rfl⟩
    | past => exact Or.inr ⟨rfl, hlast.walking.values_eq hpos hlast.all⟩
    | lost => exact absurd hpos hlast.found

/-- The first update adds an observer. -/
theorem notify_adds_one :
    let s : Subject Nat := Subject.calls { maxObserverSize := 2 } [.addObserver 0]
    let w := s.notifyAll.update (0, 0) [.addObserver 1]
    let tr : List (List (Call Nat) × Notifying Nat) := [([.addObserver 1], w), ([], w.update (1, 1) [])]
    tr.length ≤ max s.maxObserverSize s.observers.length ∧
      ((∃ n, (last s.notifyAll tr).iterator = .on n) ∨
        (last s.notifyAll tr).iterator = .past ∧
          (last s.notifyAll tr).updates = (last s.notifyAll tr).subject.observers) :=
  notify_adds ⟨⟨(0, 0), rfl, rfl⟩, ⟨(1, 1), rfl, rfl⟩, trivial⟩
    ⟨by simp [OnlyAdds], by simp [OnlyAdds], trivial⟩

/-- Updates that leave the list alone are the ones of `BaseSubject.notifyAll`. -/
theorem notify_quiet (h : IsRun Step s.notifyAll tr) (hquiet : StepsMeet (fun _ cs => cs = []) s.notifyAll tr)
    (hpast : (last s.notifyAll tr).iterator = .past) : (last s.notifyAll tr).updates = s.toBase.notifyAll [] := by
  have hsame : StatesMeet (fun w => w.subject = s) s.notifyAll tr := by
    refine run_inv (fun _ hw => hw) ?_ rfl h hquiet
    rintro w cs _ hw ⟨n, _, rfl⟩ rfl
    exact hw
  have hadds : StepsMeet (fun _ cs => OnlyAdds cs) s.notifyAll tr := by
    refine hquiet.imp fun _ cs hcs => ?_
    simp [OnlyAdds, hcs]
  have hlast := run_adding h hadds
  have hupdates : (last s.notifyAll tr).updates = (last s.notifyAll tr).subject.observers :=
    hlast.walking.values_eq hpast hlast.all
  rw [hupdates, hsame.last, BaseSubject.notifyAll_eq]
  rfl

end

end TinyUtils.Observer.Notify
