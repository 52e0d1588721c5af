import TinyUtils.Lib.Loop
import TinyUtils.Queue.Fifo
import Mathlib.Data.List.Perm.Subperm
/-!
# The nodes of `LockFreeQueue`, from `new` to `delete`

The nodes that are allocated are counted by the history: two of the constructor, one for each value that was published and
not delivered, and the one that a call of `Enqueue` has made (`reach_accounted`). So nothing leaks while the threads run,
and once both are done the destructor deletes each node that is left, once, and ends at the `next` of the spare node, which
was never set (`reach_destroyed`).

| here | there |
| --- | --- |
| `destroyTurn`, `destroy` | `~LockFreeQueue` (`lockfree_queue.cpp:26-34`) |
| `hasUnpublished`         | `HasUnpublished` (`:67`) |
-/

namespace TinyUtils.Queue

open Function Loops Runs Segment

variable {T : Type}

inductive Fault
  /-- a node that is not allocated -/
  | dangling
deriving DecidableEq, Repr

/-- A turn of `while(head != nullptr)`. -/
def destroyTurn : Heap T × Option Ptr → Except Fault ((Heap T × Option Ptr) ⊕ Heap T)
  | (heap, none) => .ok (.inr heap)
  | (heap, some tmp) =>
    match heap tmp with
    | none => .error .dangling
    | some node => .ok (.inl (update heap tmp none, node.next))

def destroy (s : Sys T) : Fuelled Fault (Heap T) := loop destroyTurn (s.heap, some s.head)

def hasUnpublished (s : Sys T) : Bool := s.publisher ≠ s.tail

/-! ## A list that ends -/

/-- From `p` the pointers lead through the nodes, and the last of them has no `next`. -/
def Chain (heap : Heap T) : Option Ptr → List Ptr → Prop
  | p, [] => p = none
  | p, a :: l => p = some a ∧ ∃ node, heap a = some node ∧ Chain heap node.next l

theorem Chain.frame {heap heap' : Heap T} {l : List Ptr} (hf : ∀ a ∈ l, heap' a = heap a) {p : Option Ptr}
    (h : Chain heap p l) : Chain heap' p l := by
  induction l generalizing p with
  | nil => exact h
  | cons a l ih =>
    obtain ⟨hp, node, ha, hl⟩ := h
    exact ⟨hp, node, (hf a List.mem_cons_self).trans ha, ih (fun b hb => hf b (List.mem_cons_of_mem a hb)) hl⟩

theorem Chain.of_seg {heap : Heap T} {q : Ptr} {v : T} (hq : heap q = some ⟨v, none⟩) {ns : List (Ptr × T)} {p : Ptr}
    (h : Seg (link heap) p ns q) : Chain heap (some p) (ns.map Prod.fst ++ [q]) := by
  induction ns generalizing p with
  | nil =>
    cases h
    exact ⟨rfl, _, hq, rfl⟩
  | cons n ns ih =>
    obtain ⟨rfl, b, hl, hs⟩ := h
    exact ⟨rfl, _, hl, ih hs⟩

/-- The nodes that the destructor has not deleted. -/
structure Left (st : Heap T × Option Ptr) (l : List Ptr) : Prop where
  chain : Chain st.1 st.2 l
  nodup : l.Nodup
  all : ∀ a, (st.1 a).isSome = true → a ∈ l

/-- **The destructor deletes all nodes of a list that ends**, each once, if there are no others. -/
theorem destroy_returns {heap : Heap T} {p : Option Ptr} {l : List Ptr} (h : Left (heap, p) l) :
    Returns (loop destroyTurn (heap, p)) (fun _ => none) := by
  obtain ⟨r, hr, hnone⟩ : ∃ r, Returns (loop destroyTurn (heap, p)) r ∧ ∀ a, r a = none := by
    refine returns_loop List.length (fun st l hst => ?_) h
    obtain ⟨heap, p⟩ := st
    obtain ⟨hchain, hnodup, hall⟩ := hst
    cases l with
    | nil =>
      cases hchain
      refine Or.inr ⟨heap, rfl, fun a => ?_⟩
      cases ha : heap a with
      | none => rfl
      | some node => exact absurd (hall a (by simp [ha])) List.not_mem_nil
    | cons a l =>
      obtain ⟨rfl, node, ha, hl⟩ := hchain
      obtain ⟨hal, hnodup⟩ := List.nodup_cons.1 hnodup
      have hturn : destroyTurn (heap, some a) = .ok (.inl (update heap a none, node.next)) := by
        simp only [destroyTurn, show heap a = some node from ha]
      refine Or.inl ⟨(update heap a none, node.next), l, hturn, ⟨?_, hnodup, ?_⟩, by simp⟩
      · exact hl.frame (update_mem hal)
      · intro b hb
        have hne : b ≠ a := by
          rintro rfl
          simp at hb
        simp only [update_of_ne hne] at hb
        exact (List.mem_cons.1 (hall b hb)).resolve_left hne
  have heq : r = fun _ => none := funext hnone
  rwa [heq] at hr

/-! ## The nodes that are allocated -/

/-- The nodes that a call of `Enqueue` has made and not published. -/
def ProducerPc.owned : ProducerPc T → Nat
  | .setNext _ _ | .readNext _ | .setTail _ _ | .publish _ => 1
  | _ => 0

/-- The values of nodes that a call of `Dequeue` has deleted without returning. -/
def ConsumerPc.deleted : ConsumerPc → Nat
  | .count => 1
  | _ => 0

/-- These are the nodes that are allocated. -/
structure Allocated (s : Sys T) (l : List Ptr) : Prop where
  nodup : l.Nodup
  mem : ∀ a, (s.heap a).isSome = true ↔ a ∈ l
  count : l.length + s.delivered.length + s.consumer.deleted = 2 + s.published.length + s.producer.owned

theorem isSome_write {heap : Heap T} {a : Ptr} {node node' : QueueNode T} (h : heap a = some node) (b : Ptr) :
    (update heap a (some node') b).isSome = (heap b).isSome := by
  by_cases hb : b = a
  · subst hb
    simp [h]
  · rw [update_of_ne hb]

section
variable {s s' : Sys T} {n : Ptr} {l : List Ptr}

/-- A step that neither allocates nor deletes. -/
theorem Allocated.stay (hl : Allocated s l) (hheap : ∀ a, (s'.heap a).isSome = (s.heap a).isSome)
    (hcount : s'.delivered.length + s'.consumer.deleted + (s.published.length + s.producer.owned) =
      s.delivered.length + s.consumer.deleted + (s'.published.length + s'.producer.owned)) : Allocated s' l := by
  refine ⟨hl.nodup, fun a => ?_, ?_⟩
  · rw [hheap, hl.mem]
  · have := hl.count
    omega

theorem Allocated.produce [Inhabited T] (hl : Allocated s l) (hn : s.heap n = none) (hs : produce n s = some s') :
    ∃ l', Allocated s' l' := by
  unfold Queue.produce at hs
  cases hpc : s.producer with
  | idle =>
    rw [hpc] at hs
    cases hs
    exact ⟨l, hl⟩
  | setValue v | setNext v =>
    simp only [hpc, Option.bind_eq_bind, Option.bind_eq_some_iff] at hs
    obtain ⟨node, hnode, hs⟩ := hs
    cases hs
    exact ⟨l, hl.stay (isSome_write hnode) (by simp [hpc, ProducerPc.owned, Sys.delivered])⟩
  | new v =>
    rw [hpc] at hs
    cases hs
    have hnl : n ∉ l := by
      intro h
      have := (hl.mem n).2 h
      simp [hn] at this
    refine ⟨n :: l, List.nodup_cons.2 ⟨hnl, hl.nodup⟩, fun a => ?_, ?_⟩
    · by_cases ha : a = n
      · subst ha
        simp
      · simp only [update_of_ne ha, List.mem_cons, ha, false_or]
        exact hl.mem a
    · have hcount := hl.count
      simp only [hpc, ProducerPc.owned, List.length_cons, Sys.delivered] at hcount ⊢
      omega
  | readNext v =>
    simp only [hpc, Option.bind_eq_bind, Option.bind_eq_some_iff] at hs
    obtain ⟨_, _, _, _, hs⟩ := hs
    cases hs
    exact ⟨l, hl.stay (fun _ => rfl) (by simp [hpc, ProducerPc.owned, Sys.delivered])⟩
  | setTail v | count =>
    rw [hpc] at hs
    cases hs
    exact ⟨l, hl.stay (fun _ => rfl) (by simp [hpc, ProducerPc.owned, Sys.delivered])⟩
  | publish v =>
    rw [hpc] at hs
    cases hs
    exact ⟨l, hl.stay (fun _ => rfl) (by simp [hpc, ProducerPc.owned, Sys.delivered])⟩

theorem Allocated.consume (hl : Allocated s l) (hs : consume s = some s') : ∃ l', Allocated s' l' := by
  unfold Queue.consume at hs
  cases hpc : s.consumer with
  | idle =>
    rw [hpc] at hs
    cases hs
    exact ⟨l, hl⟩
  | compare p =>
    simp only [hpc] at hs
    split at hs <;> cases hs <;>
      exact ⟨l, hl.stay (fun _ => rfl) (by simp [hpc, ConsumerPc.deleted, Sys.delivered])⟩
  | readRest tmp p =>
    simp only [hpc, Option.bind_eq_bind, Option.bind_eq_some_iff] at hs
    obtain ⟨_, _, _, _, hs⟩ := hs
    cases hs
    exact ⟨l, hl.stay (fun _ => rfl) (by simp [hpc, ConsumerPc.deleted, Sys.delivered])⟩
  | readNext | setTmp | readNode tmp | setValue tmp p | readUnlinked tmp =>
    simp only [hpc, Option.bind_eq_bind, Option.bind_eq_some_iff] at hs
    obtain ⟨_, _, hs⟩ := hs
    cases hs
    exact ⟨l, hl.stay (fun _ => rfl) (by simp [hpc, ConsumerPc.deleted, Sys.delivered])⟩
  | unlink tmp q =>
    simp only [hpc, Option.bind_eq_bind, Option.bind_eq_some_iff] at hs
    obtain ⟨node, hnode, hs⟩ := hs
    cases hs
    exact ⟨l, hl.stay (isSome_write hnode) (by simp [hpc, ConsumerPc.deleted, Sys.delivered])⟩
  | delete tmp =>
    simp only [hpc, Option.bind_eq_bind, Option.bind_eq_some_iff] at hs
    obtain ⟨node, hnode, hs⟩ := hs
    cases hs
    have htmp : tmp ∈ l := (hl.mem tmp).1 (by simp [hnode])
    refine ⟨l.erase tmp, hl.nodup.erase tmp, fun a => ?_, ?_⟩
    · rw [hl.nodup.mem_erase_iff, ← hl.mem a]
      by_cases ha : a = tmp
      · subst ha
        simp
      · simp [ha]
    · have hlen := List.length_erase_add_one htmp
      have hcount := hl.count
      simp only [hpc, ConsumerPc.deleted, Sys.delivered] at hcount ⊢
      omega
  | count =>
    rw [hpc] at hs
    cases hs
    refine ⟨l, hl.stay (fun _ => rfl) ?_⟩
    simp only [hpc, ConsumerPc.deleted, Sys.delivered, List.filterMap_append, List.length_append]
    rfl

theorem Step.allocated [Inhabited T] {a : Act T} (h : Step s a s') (hl : ∃ l, Allocated s l) : ∃ l, Allocated s' l := by
  obtain ⟨l, hl⟩ := hl
  cases h with
  | enqueue hpc => exact ⟨l, hl.stay (fun _ => rfl) (by simp [hpc, ProducerPc.owned, Sys.delivered])⟩
  | produce _ hn hs => exact hl.produce hn hs
  | dequeue hpc => exact ⟨l, hl.stay (fun _ => rfl) (by simp [hpc, ConsumerPc.deleted, Sys.delivered])⟩
  | consume _ hs => exact hl.consume hs

theorem ProducerInv.length_own {heap : Heap T} {tail publisher : Ptr} {own : List Ptr} {pc : ProducerPc T}
    (h : ProducerInv heap tail publisher own pc) : own.length = pc.owned := by
  cases pc with
  | readNext v =>
    obtain ⟨n, rfl, _⟩ := h
    rfl
  | _ =>
    obtain ⟨rfl, _⟩ := h
    rfl

theorem ConsumerPc.length_hand (pc : ConsumerPc) (value : T) :
    (pc.hand value).length = pc.gone.length + pc.deleted := by cases pc <;> rfl

/-- The nodes in use are the nodes that are allocated. -/
theorem Allocated.perm {v₀ : T} {ns : List (Ptr × T)} {own : List Ptr} (hl : Allocated s l) (hi : Inv s v₀ ns own) :
    (nodes s ns own).Perm l := by
  have hsub : (nodes s ns own).Subperm l := hi.nodup.subperm fun a ha => (hl.mem a).1 (hi.alloc a ha)
  apply hsub.perm_of_length_le
  have hcount := hl.count
  have hown := hi.producer.length_own
  have hhand := s.consumer.length_hand s.value
  have hvalues := congrArg List.length hi.values
  simp only [List.length_append, List.length_map] at hvalues
  simp only [nodes, List.length_append, List.length_cons, List.length_map]
  omega

end

/-! ## The end of the list -/

/-- The last node of the list. -/
def lastNode (s : Sys T) : Option Ptr :=
  match s.producer with
  | .setNext _ n | .setTail _ n => some n
  | .readNext _ => (s.heap s.tail).bind QueueNode.next
  | _ => some s.tail

/-- The last node has no `next`. -/
def Ended (s : Sys T) : Prop := ∃ p v, lastNode s = some p ∧ s.heap p = some ⟨v, none⟩

section
variable {s s' : Sys T} {n p : Ptr} {v₀ : T} {ns : List (Ptr × T)} {own : List Ptr}

theorem Inv.lastNode_mem (hi : Inv s v₀ ns own) (h : lastNode s = some p) : p ∈ s.publisher :: own := by
  have hp := hi.producer
  unfold lastNode at h
  cases hpc : s.producer with
  | idle | setValue v | count =>
    simp only [hpc, ProducerInv, Option.some.injEq] at hp h
    simp [← h, hp]
  | new v =>
    simp only [hpc, ProducerInv, Option.some.injEq] at hp h
    simp [← h, hp]
  | setNext v m =>
    simp only [hpc, ProducerInv, Option.some.injEq] at hp h
    simp [← h, hp]
  | readNext v =>
    rw [hpc] at hp
    obtain ⟨m, rfl, ht, hl⟩ := hp
    simp only [hpc, ht, show s.heap s.publisher = some ⟨v, some m⟩ from hl, Option.bind_some, Option.some.injEq] at h
    simp [h]
  | setTail v m =>
    simp only [hpc, ProducerInv, Option.some.injEq] at hp h
    simp [← h, hp]
  | publish v =>
    simp only [hpc, ProducerInv, Option.some.injEq] at hp h
    simp [← h, hp]

/-- The consumer does not write to what the producer uses. -/
theorem consume_frame (hi : Inv s v₀ ns own) (hs : consume s = some s') :
    s'.producer = s.producer ∧ s'.tail = s.tail ∧ ∀ a ∈ s.publisher :: own, s'.heap a = s.heap a := by
  have hdisj := (List.nodup_append.1 (show (nodes s ns own).Nodup from hi.nodup)).2
  unfold consume at hs
  cases hpc : s.consumer with
  | idle =>
    rw [hpc] at hs
    cases hs
    exact ⟨rfl, rfl, fun _ _ => rfl⟩
  | compare p =>
    simp only [hpc] at hs
    split at hs <;> cases hs <;> exact ⟨rfl, rfl, fun _ _ => rfl⟩
  | count =>
    rw [hpc] at hs
    cases hs
    exact ⟨rfl, rfl, fun _ _ => rfl⟩
  | readRest tmp p =>
    simp only [hpc, Option.bind_eq_bind, Option.bind_eq_some_iff] at hs
    obtain ⟨_, _, _, _, hs⟩ := hs
    cases hs
    exact ⟨rfl, rfl, fun _ _ => rfl⟩
  | readNext | setTmp | readNode tmp | setValue tmp p | readUnlinked tmp =>
    simp only [hpc, Option.bind_eq_bind, Option.bind_eq_some_iff] at hs
    obtain ⟨_, _, hs⟩ := hs
    cases hs
    exact ⟨rfl, rfl, fun _ _ => rfl⟩
  | unlink tmp q =>
    simp only [hpc, Option.bind_eq_bind, Option.bind_eq_some_iff] at hs
    obtain ⟨_, _, hs⟩ := hs
    cases hs
    refine ⟨rfl, rfl, fun a ha => update_of_ne ?_ ..⟩
    rintro rfl
    exact hdisj.2 _ List.mem_cons_self _ (List.mem_append_right _ ha) rfl
  | delete tmp =>
    simp only [hpc, Option.bind_eq_bind, Option.bind_eq_some_iff] at hs
    obtain ⟨_, _, hs⟩ := hs
    cases hs
    refine ⟨rfl, rfl, fun a ha => update_of_ne ?_ ..⟩
    rintro rfl
    have hgone := (List.nodup_append.1 hdisj.1).2.2
    exact hgone a (by simp [hpc, ConsumerPc.gone]) a ha rfl

theorem Ended.consume (he : Ended s) (hi : Inv s v₀ ns own) (hs : consume s = some s') : Ended s' := by
  obtain ⟨p, v, hlast, hp⟩ := he
  obtain ⟨hpc, htail, hheap⟩ := consume_frame hi hs
  refine ⟨p, v, ?_, (hheap p (hi.lastNode_mem hlast)).trans hp⟩
  rw [← hlast]
  unfold lastNode
  rw [hpc, htail]
  cases hpc' : s.producer with
  | readNext w =>
    have hprod := hi.producer
    rw [hpc'] at hprod
    obtain ⟨m, _, ht, _⟩ := hprod
    simp only [hheap s.tail (by simp [ht])]
  | _ => rfl

theorem Ended.produce [Inhabited T] (he : Ended s) (hi : Inv s v₀ ns own) (hs : produce n s = some s') : Ended s' := by
  obtain ⟨p, w, hlast, hp⟩ := he
  have hprod := hi.producer
  unfold Queue.produce at hs
  cases hpc : s.producer with
  | idle =>
    rw [hpc] at hs
    cases hs
    exact ⟨p, w, hlast, hp⟩
  | setValue v =>
    simp only [lastNode, hpc, Option.some.injEq] at hlast
    subst hlast
    simp only [hpc, Option.bind_eq_bind, Option.bind_eq_some_iff] at hs
    obtain ⟨node, hnode, hs⟩ := hs
    cases hnode.symm.trans hp
    cases hs
    exact ⟨s.tail, v, rfl, update_self ..⟩
  | new v =>
    rw [hpc] at hs
    cases hs
    exact ⟨n, default, rfl, update_self ..⟩
  | setNext v m =>
    simp only [lastNode, hpc, Option.some.injEq] at hlast
    subst hlast
    rw [hpc] at hprod
    obtain ⟨rfl, ht, _⟩ := hprod
    simp only [hpc, Option.bind_eq_bind, Option.bind_eq_some_iff] at hs
    obtain ⟨node, hnode, hs⟩ := hs
    cases hs
    have hne : m ≠ s.tail := by
      rintro rfl
      have hnodup := (List.nodup_append.1 (List.nodup_append.1 hi.nodup).2.1).2.1
      simp [ht] at hnodup
    refine ⟨m, w, ?_, (update_of_ne hne ..).trans hp⟩
    simp [lastNode]
  | readNext v =>
    simp only [lastNode, hpc] at hlast
    simp only [hpc, Option.bind_eq_bind, Option.bind_eq_some_iff] at hs hlast
    obtain ⟨node, hnode, m, hm, hs⟩ := hs
    obtain ⟨node', hnode', hm'⟩ := hlast
    cases hnode.symm.trans hnode'
    cases hm.symm.trans hm'
    cases hs
    exact ⟨_, w, rfl, hp⟩
  | setTail v m =>
    simp only [lastNode, hpc, Option.some.injEq] at hlast
    subst hlast
    rw [hpc] at hs
    cases hs
    exact ⟨m, w, rfl, hp⟩
  | publish v | count =>
    simp only [lastNode, hpc, Option.some.injEq] at hlast
    subst hlast
    rw [hpc] at hs
    cases hs
    exact ⟨s.tail, w, rfl, hp⟩

end

/-! ## Runs -/

/-- The invariant of both threads and of their nodes. -/
structure Whole (s : Sys T) (v₀ : T) : Prop where
  inv : ∃ ns own, Inv s v₀ ns own
  allocated : ∃ l, Allocated s l
  ended : Ended s

variable [Inhabited T]

theorem Step.whole {s s' : Sys T} {a : Act T} {v₀ : T} (h : Step s a s') (hw : Whole s v₀) : Whole s' v₀ := by
  refine ⟨h.inv hw.inv, h.allocated hw.allocated, ?_⟩
  obtain ⟨ns, own, hi⟩ := hw.inv
  have he := hw.ended
  cases h with
  | enqueue hpc =>
    obtain ⟨p, v, hlast, hp⟩ := he
    refine ⟨p, v, ?_, hp⟩
    simpa only [lastNode, hpc] using hlast
  | produce _ _ hs => exact he.produce hi hs
  | dequeue hpc => exact he
  | consume _ hs => exact he.consume hi hs

theorem whole_init {h t : Ptr} {value : T} (hne : h ≠ t) : Whole (Sys.init h t value) default := by
  refine ⟨⟨[], [], inv_init hne⟩, ⟨[h, t], by simp [hne], fun a => ?_, rfl⟩, ⟨t, default, rfl, by simp [Sys.init, QueueNode.fresh]⟩⟩
  by_cases ht : a = t
  · simp [Sys.init, ht]
  · by_cases hh : a = h
    · simp [Sys.init, hh, hne]
    · simp [Sys.init, ht, hh]

theorem whole_reach {h t : Ptr} {value : T} {s : Sys T} (hne : h ≠ t) (hr : Reach Step (Sys.init h t value) s) :
    Whole s default :=
  hr.inv (I := fun s => Whole s default) (whole_init hne) fun _ _ _ hw hs => hs.whole hw

/-- **No node leaks while the threads run**: those allocated are counted by the history. `HasUnpublished` answers true
exactly while `Enqueue` has the node linked and has yet to publish it. -/
theorem reach_accounted {h t : Ptr} {value : T} {s : Sys T} (hne : h ≠ t) (hr : Reach Step (Sys.init h t value) s) :
    (∃ l, Allocated s l) ∧ (hasUnpublished s = true ↔ ∃ v, s.producer = .publish v) := by
  have hw := whole_reach hne hr
  refine ⟨hw.allocated, ?_⟩
  obtain ⟨ns, own, hi⟩ := hw.inv
  have hprod := hi.producer
  have hnodup := (List.nodup_append.1 (List.nodup_append.1 hi.nodup).2.1).2.1
  simp only [hasUnpublished, decide_eq_true_eq]
  cases hpc : s.producer with
  | publish v =>
    rw [hpc] at hprod
    obtain ⟨rfl, _⟩ := hprod
    simp only [List.nodup_cons, List.mem_singleton] at hnodup
    exact iff_of_true hnodup.1 ⟨v, rfl⟩
  | idle | setValue v | new v | setNext v | count | setTail v =>
    rw [hpc] at hprod
    exact iff_of_false (not_not_intro (by simp only [ProducerInv] at hprod; simp [hprod])) (by simp)
  | readNext v =>
    rw [hpc] at hprod
    obtain ⟨_, _, ht, _⟩ := hprod
    exact iff_of_false (not_not_intro ht.symm) (by simp)

/-- **The destructor deletes what is left, each node once**, when no call is in progress. -/
theorem reach_destroyed {h t : Ptr} {value : T} {s : Sys T} (hne : h ≠ t) (hr : Reach Step (Sys.init h t value) s)
    (hp : s.producer = .idle) (hc : s.consumer = .idle) : Returns (destroy s) (fun _ => none) := by
  have hw := whole_reach hne hr
  obtain ⟨ns, own, hi⟩ := hw.inv
  obtain ⟨l, hl⟩ := hw.allocated
  obtain ⟨p, v, hlast, hend⟩ := hw.ended
  have hprod := hi.producer
  rw [hp] at hprod
  obtain ⟨rfl, ht⟩ := hprod
  simp only [lastNode, hp, Option.some.injEq] at hlast
  rw [← hlast, ht] at hend
  have hnodes : nodes s ns [] = (((s.head, default) :: ns).map Prod.fst) ++ [s.publisher] := by
    simp [nodes, hc, ConsumerPc.gone]
  have hperm := hl.perm hi
  rw [hnodes] at hperm
  refine destroy_returns ⟨Chain.of_seg hend hi.chain, hperm.nodup_iff.2 hl.nodup, fun a ha => ?_⟩
  exact hperm.mem_iff.2 ((hl.mem a).1 ha)

/-- Both calls have returned. -/
def bothReturned : Sys Nat := last (Sys.init 0 1 0) (trace (Sys.init 0 1 0) oneValue)

theorem accounted_oneValue :
    (∃ l, Allocated bothReturned l) ∧ (hasUnpublished bothReturned = true ↔ ∃ v, bothReturned.producer = .publish v) :=
  reach_accounted (by decide) (oneValue_isRun.reach .refl)

theorem destroyed_oneValue : Returns (destroy bothReturned) (fun _ => none) :=
  reach_destroyed (by decide) (oneValue_isRun.reach .refl) rfl rfl

end TinyUtils.Queue
