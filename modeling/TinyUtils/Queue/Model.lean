import Mathlib.Logic.Function.Basic
/-!
# `LockFreeQueue` (`cpp_utils/lockfree_queue.cpp:13-84`)

A linked list with a dummy node at `head`, the published nodes after it up to `publisher`, and one
spare node at `tail`. One thread runs `Enqueue`, one runs `Dequeue`. Every read or write of a pointer
that both threads use, every access to a node, every allocation and every deletion is one atomic step.
A dereference of an address that is not allocated, or of an unset `next`, is a fault (`none`).

| here | there |
| --- | --- |
| `QueueNode`                 | `:72` (`new QueueNode()` has no `next` and the default value) |
| `Sys.init`                  | the constructor (`:17-24`) |
| `ProducerPc`, `produce`     | the statements of `Enqueue` (`:36-43`) |
| `ConsumerPc`, `consume`     | the statements of `Dequeue` (`:45-55`) |
| `queueSize`, `Sys.empty`    | `:57`, `:62` |
| `Sys.value`                 | the variable of the caller that `Dequeue` writes |
| `enqueued`, `published`, `results` | history: the values of the calls of `Enqueue`, of its `publisher = tail`, and what `Dequeue` returned |
-/

namespace TinyUtils.Queue

open Function

abbrev Ptr := Nat

structure QueueNode (T : Type) where
  value : T
  next : Option Ptr
deriving Repr

/-- What is allocated at each address. -/
abbrev Heap (T : Type) := Ptr → Option (QueueNode T)

/-- The next statement of `Enqueue`. -/
inductive ProducerPc (T : Type)
  | idle
  /-- `tail->value = value` -/
  | setValue (value : T)
  /-- `new QueueNode()`, then `tail->next =` it -/
  | new (value : T)
  | setNext (value : T) (n : Ptr)
  /-- read `tail->next`, then `tail =` it -/
  | readNext (value : T)
  | setTail (value : T) (n : Ptr)
  /-- `publisher = tail` -/
  | publish (value : T)
  /-- `++size` -/
  | count

/-- The next statement of `Dequeue`. -/
inductive ConsumerPc
  | idle
  /-- read `head->next`, then compare it with `publisher` -/
  | readNext
  | compare (p : Ptr)
  /-- `tmp = head->next` -/
  | setTmp
  /-- read `head->next`, then `value =` its value -/
  | readNode (tmp : Ptr)
  | setValue (tmp p : Ptr)
  /-- read `head->next`, read its `next`, then `head->next =` that -/
  | readUnlinked (tmp : Ptr)
  | readRest (tmp p : Ptr)
  | unlink (tmp q : Ptr)
  /-- `delete tmp` -/
  | delete (tmp : Ptr)
  /-- `--size`, `return true` -/
  | count
deriving DecidableEq

structure Sys (T : Type) where
  heap : Heap T
  head : Ptr
  tail : Ptr
  publisher : Ptr
  size : BitVec 32
  producer : ProducerPc T
  consumer : ConsumerPc
  value : T
  enqueued : List T
  published : List T
  results : List (Option T)

variable {T : Type} [Inhabited T]

/-- `new QueueNode()`. -/
def QueueNode.fresh : QueueNode T := ⟨default, none⟩

/-- The queue just constructed, with its first two nodes at `h` and `t`. -/
def Sys.init (h t : Ptr) (value : T) : Sys T where
  heap := update (update (fun _ => none) h (some ⟨default, some t⟩)) t (some .fresh)
  head := h
  tail := t
  publisher := t
  size := 0
  producer := .idle
  consumer := .idle
  value := value
  enqueued := []
  published := []
  results := []

/-- One step of `Enqueue`; `n` is the address that `new` returns. -/
def produce (n : Ptr) (s : Sys T) : Option (Sys T) :=
  match s.producer with
  | .idle => some s
  | .setValue v => do
    let node ← s.heap s.tail
    some { s with heap := update s.heap s.tail (some { node with value := v }), producer := .new v }
  | .new v => some { s with heap := update s.heap n (some .fresh), producer := .setNext v n }
  | .setNext v p => do
    let node ← s.heap s.tail
    some { s with heap := update s.heap s.tail (some { node with next := some p }), producer := .readNext v }
  | .readNext v => do
    let node ← s.heap s.tail
    let p ← node.next
    some { s with producer := .setTail v p }
  | .setTail v p => some { s with tail := p, producer := .publish v }
  | .publish v => some { s with publisher := s.tail, producer := .count, published := s.published ++ [v] }
  | .count => some { s with size := s.size + 1, producer := .idle }

omit [Inhabited T] in
/-- Read `head->next`. -/
def headNext (s : Sys T) : Option Ptr := do
  let node ← s.heap s.head
  node.next

/-- One step of `Dequeue`. -/
def consume (s : Sys T) : Option (Sys T) :=
  match s.consumer with
  | .idle => some s
  | .readNext => do
    let p ← headNext s
    some { s with consumer := .compare p }
  | .compare p =>
    if p = s.publisher then some { s with consumer := .idle, results := s.results ++ [none] }
    else some { s with consumer := .setTmp }
  | .setTmp => do
    let p ← headNext s
    some { s with consumer := .readNode p }
  | .readNode tmp => do
    let p ← headNext s
    some { s with consumer := .setValue tmp p }
  | .setValue tmp p => do
    let node ← s.heap p
    some { s with value := node.value, consumer := .readUnlinked tmp }
  | .readUnlinked tmp => do
    let p ← headNext s
    some { s with consumer := .readRest tmp p }
  | .readRest tmp p => do
    let node ← s.heap p
    let q ← node.next
    some { s with consumer := .unlink tmp q }
  | .unlink tmp q => do
    let node ← s.heap s.head
    some { s with heap := update s.heap s.head (some { node with next := some q }), consumer := .delete tmp }
  | .delete tmp => do
    let _ ← s.heap tmp
    some { s with heap := update s.heap tmp none, consumer := .count }
  | .count => some { s with size := s.size - 1, consumer := .idle, results := s.results ++ [some s.value] }

/-- `queue_size`: the `int` counter as a `uint32_t`. -/
def Sys.queueSize (s : Sys T) : Nat := s.size.toNat

def Sys.empty (s : Sys T) : Bool := s.size == 0

/-- The values of the calls of `Dequeue` that returned true. -/
def Sys.delivered (s : Sys T) : List T := s.results.filterMap id

inductive Act (T : Type)
  | enqueue (value : T)
  | produce (n : Ptr)
  | dequeue
  | consume

/-- One step of the producer, who gets an address that is not in use from `new`, or of the consumer. -/
inductive Step : Sys T → Act T → Sys T → Prop
  | enqueue {s : Sys T} {v : T} : s.producer = .idle →
      Step s (.enqueue v) { s with producer := .setValue v, enqueued := s.enqueued ++ [v] }
  | produce {s s' : Sys T} {n : Ptr} : s.producer ≠ .idle → s.heap n = none → produce n s = some s' →
      Step s (.produce n) s'
  | dequeue {s : Sys T} : s.consumer = .idle → Step s .dequeue { s with consumer := .readNext }
  | consume {s s' : Sys T} : s.consumer ≠ .idle → consume s = some s' → Step s .consume s'

/-- Some thread's next statement dereferences what is not a node. -/
def Faults (s : Sys T) : Prop := (∃ n, s.heap n = none ∧ produce n s = none) ∨ consume s = none

/-- The state after an action that `Step` allows. -/
def Sys.next (s : Sys T) : Act T → Sys T
  | .enqueue v => { s with producer := .setValue v, enqueued := s.enqueued ++ [v] }
  | .produce n => (produce n s).getD s
  | .dequeue => { s with consumer := .readNext }
  | .consume => (consume s).getD s

/-- The run of a list of actions. -/
def trace : Sys T → List (Act T) → List (Act T × Sys T)
  | _, [] => []
  | s, a :: as => (a, s.next a) :: trace (s.next a) as

/-! ## What a step does to the counter and to the history -/

/-- A step of the producer publishes, counts, or neither. -/
theorem produce_cases {s s' : Sys T} {n : Ptr} (h : produce n s = some s') :
    s'.consumer = s.consumer ∧ s'.results = s.results ∧ s'.enqueued = s.enqueued ∧
      ((∃ v, s.producer = .publish v ∧ s'.producer = .count ∧ s'.size = s.size ∧ s'.published = s.published ++ [v]) ∨
        (s.producer = .count ∧ s'.producer = .idle ∧ s'.size = s.size + 1 ∧ s'.published = s.published) ∨
        ((∀ v, s.producer ≠ .publish v) ∧ s.producer ≠ .count ∧ s'.producer ≠ .count ∧ s'.size = s.size ∧
          s'.published = s.published)) := by
  unfold produce at h
  cases hpc : s.producer with
  | idle =>
    rw [hpc] at h
    cases h
    exact ⟨rfl, rfl, rfl, Or.inr (Or.inr ⟨nofun, nofun, by rw [hpc]; nofun, rfl, rfl⟩)⟩
  | publish v =>
    rw [hpc] at h
    cases h
    exact ⟨rfl, rfl, rfl, Or.inl ⟨v, rfl, rfl, rfl, rfl⟩⟩
  | count =>
    rw [hpc] at h
    cases h
    exact ⟨rfl, rfl, rfl, Or.inr (Or.inl ⟨rfl, rfl, rfl, rfl⟩)⟩
  | readNext v =>
    simp only [hpc, Option.bind_eq_bind, Option.bind_eq_some_iff] at h
    obtain ⟨_, _, _, _, h⟩ := h
    cases h
    exact ⟨rfl, rfl, rfl, Or.inr (Or.inr ⟨nofun, nofun, nofun, rfl, rfl⟩)⟩
  | setValue v | setNext v =>
    simp only [hpc, Option.bind_eq_bind, Option.bind_eq_some_iff] at h
    obtain ⟨_, _, h⟩ := h
    cases h
    exact ⟨rfl, rfl, rfl, Or.inr (Or.inr ⟨nofun, nofun, nofun, rfl, rfl⟩)⟩
  | new v | setTail v =>
    rw [hpc] at h
    cases h
    exact ⟨rfl, rfl, rfl, Or.inr (Or.inr ⟨nofun, nofun, nofun, rfl, rfl⟩)⟩

omit [Inhabited T] in
/-- A step of the consumer returns true, returns false, or does not return. -/
theorem consume_cases {s s' : Sys T} (hne : s.consumer ≠ .idle) (h : consume s = some s') :
    s'.producer = s.producer ∧ s'.published = s.published ∧ s'.enqueued = s.enqueued ∧
      ((s.consumer = .count ∧ s'.consumer = .idle ∧ s'.size = s.size - 1 ∧ s'.results = s.results ++ [some s.value]) ∨
        (s.consumer = .compare s.publisher ∧ s'.consumer = .idle ∧ s'.size = s.size ∧
          s'.results = s.results ++ [none]) ∨
        (s.consumer ≠ .count ∧ s'.consumer ≠ .idle ∧ s'.size = s.size ∧ s'.results = s.results)) := by
  unfold consume at h
  cases hpc : s.consumer with
  | idle => exact absurd hpc hne
  | compare p =>
    simp only [hpc] at h
    split at h
    · rename_i hp
      cases h
      exact ⟨rfl, rfl, rfl, Or.inr (Or.inl ⟨by rw [hp], rfl, rfl, rfl⟩)⟩
    · cases h
      exact ⟨rfl, rfl, rfl, Or.inr (Or.inr ⟨nofun, nofun, rfl, rfl⟩)⟩
  | count =>
    rw [hpc] at h
    cases h
    exact ⟨rfl, rfl, rfl, Or.inl ⟨rfl, rfl, rfl, rfl⟩⟩
  | readRest tmp p =>
    simp only [hpc, Option.bind_eq_bind, Option.bind_eq_some_iff] at h
    obtain ⟨_, _, _, _, h⟩ := h
    cases h
    exact ⟨rfl, rfl, rfl, Or.inr (Or.inr ⟨nofun, nofun, rfl, rfl⟩)⟩
  | readNext | setTmp | readNode tmp | setValue tmp p | readUnlinked tmp | unlink tmp q | delete tmp =>
    simp only [hpc, Option.bind_eq_bind, Option.bind_eq_some_iff] at h
    obtain ⟨_, _, h⟩ := h
    cases h
    exact ⟨rfl, rfl, rfl, Or.inr (Or.inr ⟨nofun, nofun, rfl, rfl⟩)⟩

end TinyUtils.Queue
