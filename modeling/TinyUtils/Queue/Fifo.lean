import TinyUtils.Lib.Run
import TinyUtils.Lib.Segment
import TinyUtils.Queue.Model
import Mathlib.Data.List.Basic
/-!
# `LockFreeQueue` is a FIFO queue

At every step of both threads the nodes in use are: the dummy at `head`, the published nodes `ns` in a
chain from it to `publisher`, a node the consumer has unlinked and not deleted (`gone`), `publisher`
itself, and a node the producer has and has not published (`own`). The producer writes only to the last
two, the consumer only to the first and to `gone`, so neither disturbs what the other has read.
-/

namespace TinyUtils.Queue

open Function Segment Runs

variable {T : Type}

/-- The node at `a` holds `v` and points to `b`. -/
def link (heap : Heap T) (a : Ptr) (v : T) (b : Ptr) : Prop := heap a = some ⟨v, some b⟩

/-- The value of a call of `Enqueue` that has not published it. -/
def ProducerPc.pending : ProducerPc T → List T
  | .idle | .count => []
  | .setValue v | .new v | .setNext v _ | .readNext v | .setTail v _ | .publish v => [v]

/-- The unlinked node. -/
def ConsumerPc.gone : ConsumerPc → List Ptr
  | .delete tmp => [tmp]
  | _ => []

/-- The value of an unlinked node that is not delivered yet. -/
def ConsumerPc.hand (value : T) : ConsumerPc → List T
  | .delete _ | .count => [value]
  | _ => []

/-- What the producer knows about `publisher`, `tail` and its own node. -/
def ProducerInv (heap : Heap T) (tail publisher : Ptr) (own : List Ptr) : ProducerPc T → Prop
  | .idle | .setValue _ | .count => own = [] ∧ tail = publisher
  | .new v => own = [] ∧ tail = publisher ∧ ∃ b, heap publisher = some ⟨v, b⟩
  | .setNext v n => own = [n] ∧ tail = publisher ∧ ∃ b, heap publisher = some ⟨v, b⟩
  | .readNext v => ∃ n, own = [n] ∧ tail = publisher ∧ link heap publisher v n
  | .setTail v n => own = [n] ∧ tail = publisher ∧ link heap publisher v n
  | .publish v => own = [tail] ∧ link heap publisher v tail

/-- What the consumer knows about the first published node. -/
def ConsumerInv (heap : Heap T) (head : Ptr) (v₀ : T) (value : T) (ns : List (Ptr × T)) : ConsumerPc → Prop
  | .idle | .readNext | .delete _ | .count => True
  | .compare p => link heap head v₀ p
  | .setTmp => ns ≠ []
  | .readNode tmp => ∃ v rest, ns = (tmp, v) :: rest
  | .setValue tmp p => p = tmp ∧ ∃ v rest, ns = (tmp, v) :: rest
  | .readUnlinked tmp => ∃ rest, ns = (tmp, value) :: rest
  | .readRest tmp p => p = tmp ∧ ∃ rest, ns = (tmp, value) :: rest
  | .unlink tmp q => (∃ rest, ns = (tmp, value) :: rest) ∧ link heap tmp value q

/-- The addresses in use. -/
def nodes (s : Sys T) (ns : List (Ptr × T)) (own : List Ptr) : List Ptr :=
  (s.head :: ns.map Prod.fst) ++ (s.consumer.gone ++ s.publisher :: own)

structure Inv (s : Sys T) (v₀ : T) (ns : List (Ptr × T)) (own : List Ptr) : Prop where
  chain : Seg (link s.heap) s.head ((s.head, v₀) :: ns) s.publisher
  producer : ProducerInv s.heap s.tail s.publisher own s.producer
  consumer : ConsumerInv s.heap s.head v₀ s.value ns s.consumer
  nodup : (nodes s ns own).Nodup
  alloc : ∀ a ∈ nodes s ns own, (s.heap a).isSome = true
  values : s.published = s.delivered ++ s.consumer.hand s.value ++ ns.map Prod.snd
  started : s.enqueued = s.published ++ s.producer.pending

/-! ## Frames -/

theorem link_congr {heap heap' : Heap T} {a b : Ptr} {v : T} (h : heap' a = heap a) (hl : link heap a v b) :
    link heap' a v b := h.trans hl

theorem chain_frame {heap heap' : Heap T} {p q : Ptr} {ns : List (Ptr × T)}
    (h : ∀ a ∈ ns.map Prod.fst, heap' a = heap a) (hs : Seg (link heap) p ns q) : Seg (link heap') p ns q :=
  hs.frame fun a ha _ _ => link_congr (h a ha)

theorem ProducerInv.frame {heap heap' : Heap T} {tail publisher : Ptr} {own : List Ptr} {pc : ProducerPc T}
    (h : heap' publisher = heap publisher) (hp : ProducerInv heap tail publisher own pc) :
    ProducerInv heap' tail publisher own pc := by
  cases pc <;> simpa only [ProducerInv, link, h] using hp

theorem ConsumerInv.frame {heap heap' : Heap T} {head : Ptr} {v₀ value : T} {ns : List (Ptr × T)} {pc : ConsumerPc}
    (h : ∀ a ∈ head :: ns.map Prod.fst, heap' a = heap a) (hc : ConsumerInv heap head v₀ value ns pc) :
    ConsumerInv heap' head v₀ value ns pc := by
  cases pc with
  | compare p => exact link_congr (h head List.mem_cons_self) hc
  | unlink tmp q =>
    obtain ⟨⟨rest, rfl⟩, hl⟩ := hc
    exact ⟨⟨rest, rfl⟩, link_congr (h tmp (by simp)) hl⟩
  | _ => exact hc

/-- Publishing a node leaves the first one where it is. -/
theorem ConsumerInv.snoc {heap : Heap T} {head : Ptr} {v₀ value : T} {ns : List (Ptr × T)} {pc : ConsumerPc}
    (x : Ptr × T) (hc : ConsumerInv heap head v₀ value ns pc) : ConsumerInv heap head v₀ value (ns ++ [x]) pc := by
  cases pc with
  | setTmp => simp [ConsumerInv]
  | readNode tmp => obtain ⟨v, rest, rfl⟩ := hc; exact ⟨v, rest ++ [x], rfl⟩
  | setValue tmp p => obtain ⟨hp, v, rest, rfl⟩ := hc; exact ⟨hp, v, rest ++ [x], rfl⟩
  | readUnlinked tmp => obtain ⟨rest, rfl⟩ := hc; exact ⟨rest ++ [x], rfl⟩
  | readRest tmp p => obtain ⟨hp, rest, rfl⟩ := hc; exact ⟨hp, rest ++ [x], rfl⟩
  | unlink tmp q => obtain ⟨⟨rest, rfl⟩, hl⟩ := hc; exact ⟨⟨rest ++ [x], rfl⟩, hl⟩
  | _ => exact hc

theorem isSome_update {heap : Heap T} {a b : Ptr} {n : QueueNode T} (h : (heap b).isSome = true) :
    (update heap a (some n) b).isSome = true := by
  by_cases hb : b = a
  · subst hb; rw [update_self]; rfl
  · rw [update_of_ne hb]; exact h

theorem update_mem {heap : Heap T} {a : Ptr} {x : Option (QueueNode T)} {l : List Ptr} (ha : a ∉ l) :
    ∀ b ∈ l, update heap a x b = heap b := by
  intro b hb
  apply update_of_ne
  rintro rfl
  exact ha hb

section
variable {s : Sys T} {v₀ : T} {ns : List (Ptr × T)} {own : List Ptr}

theorem Inv.publisher_mem : s.publisher ∈ nodes s ns own := by simp [nodes]

theorem Inv.publisher_notMem (hi : Inv s v₀ ns own) : s.publisher ∉ s.head :: ns.map Prod.fst := by
  intro h
  exact (List.nodup_append.1 hi.nodup).2.2 _ h s.publisher (by simp) rfl

/-- The producer writes to a node that is not in the chain. -/
theorem Inv.write {a : Ptr} {n : QueueNode T} {pc : ProducerPc T} {own' : List Ptr} (hi : Inv s v₀ ns own)
    (ha : a ∉ s.head :: ns.map Prod.fst)
    (hp : ProducerInv (update s.heap a (some n)) s.tail s.publisher own' pc) (hpend : pc.pending = s.producer.pending)
    (hnodup : (nodes s ns own').Nodup) (halloc : ∀ b ∈ nodes s ns own', b = a ∨ b ∈ nodes s ns own) :
    Inv { s with heap := update s.heap a (some n), producer := pc } v₀ ns own' := by
  refine ⟨chain_frame (update_mem ha) hi.chain, hp, hi.consumer.frame (update_mem ha), hnodup, ?_, hi.values, ?_⟩
  · intro b hb
    rcases halloc b hb with rfl | hb
    · simp
    · exact isSome_update (hi.alloc b hb)
  · rw [hi.started, hpend]

/-- A step of the producer that writes to no node. -/
theorem Inv.move {pc : ProducerPc T} {tail : Ptr} (hi : Inv s v₀ ns own)
    (hp : ProducerInv s.heap tail s.publisher own pc) (hpend : pc.pending = s.producer.pending) :
    Inv { s with tail := tail, producer := pc } v₀ ns own :=
  ⟨hi.chain, hp, hi.consumer, hi.nodup, hi.alloc, hi.values, hi.started.trans (by rw [hpend])⟩

/-- `publisher = tail`: the node at `publisher` joins the chain. -/
theorem Inv.publish {v : T} (hi : Inv s v₀ ns own) (hpc : s.producer = .publish v) :
    Inv { s with publisher := s.tail, producer := .count, published := s.published ++ [v] } v₀
      (ns ++ [(s.publisher, v)]) [] := by
  have hp := hi.producer
  rw [hpc] at hp
  obtain ⟨rfl, hl⟩ := hp
  have hperm : (nodes s ns [s.tail]).Perm
      (nodes { s with publisher := s.tail, producer := .count, published := s.published ++ [v] }
        (ns ++ [(s.publisher, v)]) []) := by
    simp only [nodes, List.map_append, List.map_cons, List.map_nil, List.cons_append, List.append_assoc,
      List.nil_append]
    refine (List.Perm.append_left _ ?_).cons _
    exact List.perm_middle
  refine ⟨hi.chain.snoc hl, ⟨rfl, rfl⟩, hi.consumer.snoc _, hperm.nodup_iff.1 hi.nodup, ?_, ?_, ?_⟩
  · exact fun a ha => hi.alloc a (hperm.mem_iff.2 ha)
  · have := hi.values
    simp only [List.map_append, List.map_cons, List.map_nil, ← List.append_assoc]
    rw [this]
    rfl
  · rw [hi.started, hpc]
    simp [ProducerPc.pending]

/-- **No step of the producer faults, and each keeps the invariant.** -/
theorem produce_spec [Inhabited T] {n : Ptr} (hi : Inv s v₀ ns own) (hn : s.heap n = none) :
    ∃ s', produce n s = some s' ∧ ∃ ns' own', Inv s' v₀ ns' own' := by
  have hp := hi.producer
  obtain ⟨node, hnode⟩ := Option.isSome_iff_exists.1 (hi.alloc _ Inv.publisher_mem)
  unfold produce
  cases hpc : s.producer with
  | idle => exact ⟨s, rfl, ns, own, hi⟩
  | setValue v =>
    rw [hpc] at hp
    obtain ⟨rfl, ht⟩ := hp
    have hnode' : s.heap s.tail = some node := by rw [ht]; exact hnode
    have hp' : ProducerInv (update s.heap s.tail (some { node with value := v })) s.tail s.publisher [] (.new v) :=
      ⟨rfl, ht, node.next, by rw [ht, update_self]⟩
    simp only [hnode']
    exact ⟨_, rfl, ns, [], hi.write (ht ▸ hi.publisher_notMem) hp' (by rw [hpc]; rfl) hi.nodup fun _ => Or.inr⟩
  | new v =>
    rw [hpc] at hp
    obtain ⟨rfl, ht, b, hb⟩ := hp
    have hfresh : n ∉ nodes s ns [] := fun h => by
      have := hi.alloc n h
      rw [hn] at this
      cases this
    have happ : nodes s ns [n] = nodes s ns [] ++ [n] := by simp [nodes]
    have hne : s.publisher ≠ n := by
      rintro rfl
      exact hfresh Inv.publisher_mem
    have hp' : ProducerInv (update s.heap n (some .fresh)) s.tail s.publisher [n] (.setNext v n) :=
      ⟨rfl, ht, b, by rw [update_of_ne hne, hb]⟩
    refine ⟨_, rfl, ns, [n], hi.write (fun h => hfresh (List.mem_append_left _ h)) hp' (by rw [hpc]; rfl) ?_ ?_⟩
    · rw [happ, List.nodup_append]
      refine ⟨hi.nodup, by simp, fun a ha b hb hab => hfresh ?_⟩
      rw [List.mem_singleton] at hb
      rw [← hb, ← hab]
      exact ha
    · intro b hb
      rw [happ, List.mem_append, List.mem_singleton] at hb
      exact hb.symm
  | setNext v p =>
    rw [hpc] at hp
    obtain ⟨rfl, ht, b, hb⟩ := hp
    have hb' : s.heap s.tail = some ⟨v, b⟩ := by rw [ht]; exact hb
    have hp' : ProducerInv (update s.heap s.tail (some ⟨v, some p⟩)) s.tail s.publisher [p] (.readNext v) :=
      ⟨p, rfl, ht, by simp only [link, ht, update_self]⟩
    simp only [hb']
    exact ⟨_, rfl, ns, [p], hi.write (ht ▸ hi.publisher_notMem) hp' (by rw [hpc]; rfl) hi.nodup fun _ => Or.inr⟩
  | readNext v =>
    rw [hpc] at hp
    obtain ⟨p, rfl, ht, hl⟩ := hp
    simp only [ht, show s.heap s.publisher = some ⟨v, some p⟩ from hl]
    exact ⟨_, rfl, ns, [p], hi.move ⟨rfl, rfl, hl⟩ (by rw [hpc]; rfl)⟩
  | setTail v p =>
    rw [hpc] at hp
    obtain ⟨rfl, ht, hl⟩ := hp
    exact ⟨_, rfl, ns, [p], hi.move ⟨rfl, hl⟩ (by rw [hpc]; rfl)⟩
  | publish v => exact ⟨_, rfl, _, _, hi.publish hpc⟩
  | count =>
    rw [hpc] at hp
    obtain ⟨rfl, ht⟩ := hp
    exact ⟨_, rfl, ns, [], hi.chain, ⟨rfl, ht⟩, hi.consumer, hi.nodup, hi.alloc, hi.values, by rw [hi.started, hpc]; rfl⟩

/-- `head->next` is set, to the first published node or to `publisher`. -/
theorem Inv.headNext (hi : Inv s v₀ ns own) :
    ∃ p, headNext s = some p ∧ link s.heap s.head v₀ p ∧ Seg (link s.heap) p ns s.publisher := by
  obtain ⟨_, p, hl, hs⟩ := hi.chain
  refine ⟨p, ?_, hl, hs⟩
  simp only [Queue.headNext, show s.heap s.head = some ⟨v₀, some p⟩ from hl]
  rfl

theorem link_unique {heap : Heap T} {a b c : Ptr} {v w : T} (h : link heap a v b) (h' : link heap a w c) :
    v = w ∧ b = c := by
  have := h.symm.trans h'
  cases this
  exact ⟨rfl, rfl⟩

/-- A step of the consumer that writes to no node and delivers nothing. -/
theorem Inv.look {pc : ConsumerPc} {value : T} {results : List (Option T)} (hi : Inv s v₀ ns own)
    (hc : ConsumerInv s.heap s.head v₀ value ns pc) (hgone : pc.gone = s.consumer.gone)
    (hhand : results.filterMap id ++ pc.hand value = s.delivered ++ s.consumer.hand s.value) :
    Inv { s with value := value, consumer := pc, results := results } v₀ ns own := by
  have hnodes : nodes { s with value := value, consumer := pc, results := results } ns own = nodes s ns own := by
    simp only [nodes, hgone]
  refine ⟨hi.chain, hi.producer, hc, ?_, ?_, ?_, hi.started⟩
  · rw [hnodes]; exact hi.nodup
  · rw [hnodes]; exact hi.alloc
  · exact hi.values.trans (by rw [← hhand]; rfl)

/-- `head->next = head->next->next`: the first node leaves the chain. -/
theorem Inv.unlink {tmp q : Ptr} (hi : Inv s v₀ ns own) (hpc : s.consumer = .unlink tmp q) :
    ∃ ns', Inv { s with heap := update s.heap s.head (some ⟨v₀, some q⟩), consumer := .delete tmp } v₀ ns' own := by
  have hc := hi.consumer
  rw [hpc] at hc
  obtain ⟨⟨rest, rfl⟩, hl⟩ := hc
  have hperm : (nodes s ((tmp, s.value) :: rest) own).Perm
      (nodes { s with heap := update s.heap s.head (some ⟨v₀, some q⟩), consumer := .delete tmp } rest own) := by
    simp only [nodes, hpc, ConsumerPc.gone, List.map_cons, List.cons_append, List.nil_append]
    exact (List.perm_middle.symm).cons _
  have hnodup := hi.nodup
  simp only [nodes, List.cons_append, List.nodup_cons, List.mem_append, not_or] at hnodup
  obtain ⟨⟨hhead, hheadr⟩, _⟩ := hnodup
  have hs : Seg (link s.heap) q rest s.publisher := by
    obtain ⟨p, _, _, hs⟩ := hi.headNext
    exact hs.tail (fun c h h' => (link_unique h h').2) hl
  have hne : s.publisher ≠ s.head := fun h => hheadr.2 (by simp [h])
  refine ⟨rest, ?_, hi.producer.frame (update_of_ne hne ..), trivial, hperm.nodup_iff.1 hi.nodup, ?_, ?_, hi.started⟩
  · refine Seg.cons (b := q) (by simp [link]) (chain_frame (update_mem fun h => hhead ?_) hs)
    exact List.mem_cons_of_mem _ h
  · exact fun a ha => isSome_update (hi.alloc a (hperm.mem_iff.2 ha))
  · have := hi.values
    simp only [hpc, ConsumerPc.hand, List.append_nil, List.map_cons] at this
    rw [this]
    simp only [ConsumerPc.hand, List.append_assoc, List.singleton_append]
    rfl

/-- `delete tmp`: nobody has a use for the node. -/
theorem Inv.delete {tmp : Ptr} (hi : Inv s v₀ ns own) (hpc : s.consumer = .delete tmp) :
    Inv { s with heap := update s.heap tmp none, consumer := .count } v₀ ns own := by
  have hsub : nodes s ns own = (s.head :: ns.map Prod.fst) ++ tmp :: (s.publisher :: own) := by
    simp only [nodes, hpc, ConsumerPc.gone, List.cons_append, List.nil_append]
  have hnew : nodes { s with heap := update s.heap tmp none, consumer := .count } ns own =
      (s.head :: ns.map Prod.fst) ++ (s.publisher :: own) := rfl
  have hnodup := hi.nodup
  rw [hsub] at hnodup
  obtain ⟨htmp, hnodup⟩ := List.nodup_cons.1 (List.perm_middle.nodup_iff.1 hnodup)
  have htc : tmp ∉ s.head :: ns.map Prod.fst := fun h => htmp (List.mem_append_left _ h)
  have hpub : s.publisher ≠ tmp := fun h => htmp (by simp [h])
  refine ⟨chain_frame (update_mem htc) hi.chain, hi.producer.frame (update_of_ne hpub ..), trivial, ?_, ?_, ?_, hi.started⟩
  · rw [hnew]; exact hnodup
  · rw [hnew]
    intro a ha
    simp only [update_mem htmp a ha]
    refine hi.alloc a ?_
    rw [hsub]
    exact List.mem_append.2 ((List.mem_append.1 ha).imp_right (List.mem_cons_of_mem _))
  · have := hi.values
    rw [hpc] at this
    exact this

/-- **No step of the consumer faults, and each keeps the invariant.** -/
theorem consume_spec (hi : Inv s v₀ ns own) : ∃ s', consume s = some s' ∧ ∃ ns', Inv s' v₀ ns' own := by
  obtain ⟨p, hp, hl, hs⟩ := hi.headNext
  have hc := hi.consumer
  have hpub : s.publisher ∉ ns.map Prod.fst := fun h => hi.publisher_notMem (List.mem_cons_of_mem _ h)
  have hnil := hs.eq_nil_iff hpub
  unfold consume
  cases hpc : s.consumer with
  | idle => exact ⟨s, rfl, ns, hi⟩
  | readNext =>
    simp only [hp]
    exact ⟨_, rfl, ns, hi.look hl (by rw [hpc]; rfl) (by rw [hpc]; rfl)⟩
  | compare p' =>
    rw [hpc] at hc
    by_cases hpp : p' = s.publisher
    · simp only [if_pos hpp]
      refine ⟨_, rfl, ns, hi.look trivial (by rw [hpc]; rfl) ?_⟩
      rw [hpc, List.filterMap_append]
      simp [Sys.delivered, ConsumerPc.hand]
    · simp only [if_neg hpp]
      refine ⟨_, rfl, ns, hi.look ?_ (by rw [hpc]; rfl) (by rw [hpc]; rfl)⟩
      intro h
      rw [(link_unique hc hl).2] at hpp
      exact hpp (hnil.1 h)
  | setTmp =>
    rw [hpc] at hc
    simp only [hp]
    refine ⟨_, rfl, ns, hi.look ?_ (by rw [hpc]; rfl) (by rw [hpc]; rfl)⟩
    cases ns with
    | nil => exact absurd rfl hc
    | cons n rest => exact ⟨n.2, rest, by rw [← hs.head]⟩
  | readNode tmp =>
    rw [hpc] at hc
    obtain ⟨v, rest, rfl⟩ := hc
    simp only [hp]
    exact ⟨_, rfl, _, hi.look ⟨hs.head.symm, v, rest, rfl⟩ (by rw [hpc]; rfl) (by rw [hpc]; rfl)⟩
  | setValue tmp p' =>
    rw [hpc] at hc
    obtain ⟨rfl, v, rest, rfl⟩ := hc
    obtain ⟨rfl, b, hb, _⟩ := hs
    simp only [show s.heap p = some ⟨v, some b⟩ from hb]
    exact ⟨_, rfl, _, hi.look ⟨rest, rfl⟩ (by rw [hpc]; rfl) (by rw [hpc]; rfl)⟩
  | readUnlinked tmp =>
    rw [hpc] at hc
    obtain ⟨rest, rfl⟩ := hc
    simp only [hp]
    exact ⟨_, rfl, _, hi.look ⟨hs.head.symm, rest, rfl⟩ (by rw [hpc]; rfl) (by rw [hpc]; rfl)⟩
  | readRest tmp p' =>
    rw [hpc] at hc
    obtain ⟨rfl, rest, rfl⟩ := hc
    obtain ⟨rfl, b, hb, _⟩ := hs
    simp only [show s.heap p = some ⟨s.value, some b⟩ from hb]
    exact ⟨_, rfl, _, hi.look ⟨⟨rest, rfl⟩, hb⟩ (by rw [hpc]; rfl) (by rw [hpc]; rfl)⟩
  | unlink tmp q =>
    simp only [show s.heap s.head = some ⟨v₀, some p⟩ from hl]
    exact ⟨_, rfl, hi.unlink hpc⟩
  | delete tmp =>
    obtain ⟨node, hnode⟩ := Option.isSome_iff_exists.1 (hi.alloc tmp (by simp [nodes, hpc, ConsumerPc.gone]))
    simp only [hnode]
    exact ⟨_, rfl, ns, hi.delete hpc⟩
  | count =>
    refine ⟨_, rfl, ns, hi.chain, hi.producer, trivial, ?_, ?_, ?_, hi.started⟩
    · have := hi.nodup
      simp only [nodes, hpc] at this
      exact this
    · have := hi.alloc
      simp only [nodes, hpc] at this
      exact this
    · have := hi.values
      simp only [hpc, ConsumerPc.hand, Sys.delivered] at this
      simp only [Sys.delivered, ConsumerPc.hand, List.filterMap_append, List.append_nil]
      exact this

end

/-! ## Runs -/

variable [Inhabited T]

theorem inv_init {h t : Ptr} {value : T} (hne : h ≠ t) : Inv (Sys.init h t value) default [] [] := by
  refine ⟨⟨rfl, t, ?_, rfl⟩, ⟨rfl, rfl⟩, trivial, ?_, ?_, rfl, rfl⟩
  · simp [link, Sys.init, update_of_ne hne]
  · simp [nodes, Sys.init, ConsumerPc.gone, hne]
  · intro a ha
    simp only [nodes, Sys.init, ConsumerPc.gone, List.map_nil, List.nil_append, List.mem_append, List.mem_singleton] at ha
    rcases ha with rfl | rfl
    · simp [Sys.init, update_of_ne hne]
    · simp [Sys.init]

theorem Step.inv {s s' : Sys T} {a : Act T} {v₀ : T} (h : Step s a s') (hi : ∃ ns own, Inv s v₀ ns own) :
    ∃ ns own, Inv s' v₀ ns own := by
  obtain ⟨ns, own, hi⟩ := hi
  cases h with
  | @enqueue v hpc =>
    have hp := hi.producer
    have hs := hi.started
    rw [hpc] at hp hs
    refine ⟨ns, own, hi.chain, hp, hi.consumer, hi.nodup, hi.alloc, hi.values, ?_⟩
    simp only [hs, ProducerPc.pending, List.append_nil]
  | produce _ hn hs =>
    obtain ⟨_, hs', hi'⟩ := produce_spec hi hn
    cases hs.symm.trans hs'
    exact hi'
  | dequeue hpc => exact ⟨ns, own, hi.look trivial (by rw [hpc]; rfl) (by rw [hpc]; rfl)⟩
  | consume _ hs =>
    obtain ⟨_, hs', ns', hi'⟩ := consume_spec hi
    cases hs.symm.trans hs'
    exact ⟨ns', own, hi'⟩

theorem inv_reach {h t : Ptr} {value : T} {s : Sys T} (hne : h ≠ t) (hr : Reach Step (Sys.init h t value) s) :
    ∃ ns own, Inv s default ns own :=
  hr.inv (I := fun s => ∃ ns own, Inv s default ns own) ⟨[], [], inv_init hne⟩ fun _ _ _ hi hs => hs.inv hi

omit [Inhabited T] in
/-- At a comparison that finds `publisher` nothing is left. -/
theorem Inv.compare_publisher {s : Sys T} {v₀ : T} {ns : List (Ptr × T)} {own : List Ptr} (hi : Inv s v₀ ns own)
    (hpc : s.consumer = .compare s.publisher) : s.published = s.delivered := by
  obtain ⟨p, _, hl, hs⟩ := hi.headNext
  have hc := hi.consumer
  rw [hpc] at hc
  have hpub : s.publisher ∉ ns.map Prod.fst := fun h => hi.publisher_notMem (List.mem_cons_of_mem _ h)
  have hns : ns = [] := (hs.eq_nil_iff hpub).2 (link_unique hl hc).2
  have hv := hi.values
  rw [hns, hpc] at hv
  simpa [ConsumerPc.hand] using hv

/-- **The queue is first in, first out, and safe**: in every reachable state what has been delivered is a
prefix of what has been enqueued, a call of `Dequeue` that returns false at its next step has nothing
published left to deliver, and neither thread is about to follow a bad pointer. -/
theorem reach_fifo {h t : Ptr} {value : T} {s : Sys T} (hne : h ≠ t) (hr : Reach Step (Sys.init h t value) s) :
    s.delivered <+: s.enqueued ∧
      (∀ s', Step s .consume s' → s'.results = s.results ++ [none] → s.delivered = s.published) ∧ ¬ Faults s := by
  obtain ⟨ns, own, hi⟩ := inv_reach hne hr
  refine ⟨?_, fun s' hs hres => ?_, ?_⟩
  · rw [hi.started, hi.values, List.append_assoc, List.append_assoc]
    exact List.prefix_append _ _
  · cases hs with
    | consume hidle hs =>
      obtain ⟨_, _, _, ⟨_, _, _, h⟩ | ⟨hpc, _⟩ | ⟨_, _, _, h⟩⟩ := consume_cases hidle hs
      · rw [h] at hres
        cases List.append_cancel_left hres
      · exact (hi.compare_publisher hpc).symm
      · rw [h] at hres
        simp at hres
  · rintro (⟨n, hn, hf⟩ | hf)
    · obtain ⟨_, hs, _⟩ := produce_spec hi hn
      rw [hs] at hf
      cases hf
    · obtain ⟨_, hs, _⟩ := consume_spec hi
      rw [hs] at hf
      cases hf

/-- One value goes through the queue. -/
def oneValue : List (Act Nat) :=
  [.dequeue, .enqueue 5, .produce 2, .produce 2, .produce 3, .produce 3, .produce 3, .produce 3, .produce 3,
    .consume, .consume, .consume, .consume, .consume, .consume, .consume, .consume, .consume, .consume]

theorem oneValue_isRun : IsRun Step (Sys.init 0 1 0) (trace (Sys.init 0 1 0) oneValue) :=
  ⟨.dequeue rfl, .enqueue rfl, .produce nofun rfl rfl, .produce nofun rfl rfl, .produce nofun rfl rfl,
    .produce nofun rfl rfl, .produce nofun rfl rfl, .produce nofun rfl rfl, .produce nofun rfl rfl,
    .consume nofun rfl, .consume nofun rfl, .consume nofun rfl, .consume nofun rfl, .consume nofun rfl,
    .consume nofun rfl, .consume nofun rfl, .consume nofun rfl, .consume nofun rfl, .consume nofun rfl, trivial⟩

theorem fifo_oneValue :
    ∃ s : Sys Nat, s.results = [some 5] ∧ s.delivered <+: s.enqueued ∧
      (∀ s', Step s .consume s' → s'.results = s.results ++ [none] → s.delivered = s.published) ∧ ¬ Faults s :=
  ⟨_, rfl, reach_fifo (by decide) (oneValue_isRun.reach .refl)⟩

end TinyUtils.Queue
