/-!
# Linked segments

`link a v b` says that the node at address `a` holds the value `v` and points to `b`; how the nodes
are stored is left open. `Seg link p ns q`: from `p` the pointers lead through the nodes `ns`, each
with its address and its value, and from the last of them to `q`. The operations of a linked list are
`Seg.cons` and `Seg.snoc` (link a node at one end), `Seg.tail` (unlink the first) and `Seg.frame` (a
change of the store away from the nodes).
-/

namespace Segment

variable {Ptr V : Type} {link link' : Ptr → V → Ptr → Prop}

def Seg (link : Ptr → V → Ptr → Prop) : Ptr → List (Ptr × V) → Ptr → Prop
  | p, [], q => p = q
  | p, (a, v) :: ns, q => p = a ∧ ∃ b, link a v b ∧ Seg link b ns q

theorem Seg.cons {p b q : Ptr} {v : V} {ns : List (Ptr × V)} (h : link p v b) (hs : Seg link b ns q) :
    Seg link p ((p, v) :: ns) q :=
  ⟨rfl, b, h, hs⟩

theorem Seg.snoc {q r : Ptr} {v : V} : ∀ {p : Ptr} {ns : List (Ptr × V)}, Seg link p ns q → link q v r →
    Seg link p (ns ++ [(q, v)]) r
  | _, [], hs, h => ⟨hs, r, h, rfl⟩
  | _, _ :: _, ⟨hp, b, hl, hs⟩, h => ⟨hp, b, hl, hs.snoc h⟩

theorem Seg.head {p a q : Ptr} {v : V} {ns : List (Ptr × V)} (h : Seg link p ((a, v) :: ns) q) : a = p :=
  h.1.symm

/-- Only one segment starts with a node: the rest of it is what the node points to. -/
theorem Seg.tail {p a b q : Ptr} {v w : V} {ns : List (Ptr × V)} (hdet : ∀ c, link a v c → link a w b → c = b)
    (h : Seg link p ((a, v) :: ns) q) (hl : link a w b) : Seg link b ns q := by
  obtain ⟨_, c, hc, hs⟩ := h
  rw [hdet c hc hl] at hs
  exact hs

/-- A change of the store away from the nodes of the segment. -/
theorem Seg.frame : ∀ {p q : Ptr} {ns : List (Ptr × V)}, (∀ a ∈ ns.map Prod.fst, ∀ v b, link a v b → link' a v b) →
    Seg link p ns q → Seg link' p ns q
  | _, _, [], _, hs => hs
  | _, _, (a, v) :: _, hf, ⟨hp, b, hl, hs⟩ =>
    ⟨hp, b, hf a List.mem_cons_self v b hl, hs.frame fun a ha => hf a (List.mem_cons_of_mem _ ha)⟩

/-- A segment from a pointer to itself that does not pass through it is empty, and only such a one is. -/
theorem Seg.eq_nil_iff {p q : Ptr} {ns : List (Ptr × V)} (hs : Seg link p ns q) (hq : q ∉ ns.map Prod.fst) :
    ns = [] ↔ p = q := by
  cases ns with
  | nil => exact iff_of_true rfl hs
  | cons n ns =>
    refine iff_of_false (List.cons_ne_nil _ _) fun hpq => hq ?_
    rw [← hpq, hs.1]
    exact List.mem_cons_self

end Segment
