import Mathlib.Data.List.Enum
import Mathlib.Data.List.Sort
/-!
# Walking over a list that changes

Elements are put at the end of a linked list and taken away anywhere, while someone walks over it from node to node.
A node has its place among all elements that were ever put in (`Numbered`). The walk is lost exactly if the node it is on
is taken away (`Walking.lost_iff`). A walk that comes to the end has visited the elements that are in the list then, and
only elements that were in it at the start or were put in since, each at most once and in their order
(`Walking.values_sublist`, `Walking.visited_sublist`).
-/

namespace Cursor

variable {α : Type}

/-- A list, with all elements that were ever in it. -/
structure Numbered (α : Type) where
  seen : List α := []
  /-- Each element with its place in `seen`. -/
  nodes : List (α × ℕ) := []
  ordered : nodes.Pairwise fun m n => m.2 < n.2
  placed : nodes ⊆ seen.zipIdx

namespace Numbered

def empty : Numbered α where
  ordered := List.Pairwise.nil
  placed := List.nil_subset _

def values (l : Numbered α) : List α := l.nodes.map Prod.fst

theorem place_lt (l : Numbered α) {n : α × ℕ} (hn : n ∈ l.nodes) : n.2 < l.seen.length := by
  simpa using List.snd_lt_add_of_mem_zipIdx (l.placed hn)

def push (l : Numbered α) (a : α) : Numbered α where
  seen := l.seen ++ [a]
  nodes := l.nodes ++ [(a, l.seen.length)]
  ordered := by
    refine List.pairwise_append.2 ⟨l.ordered, List.pairwise_singleton _ _, fun m hm n hn => ?_⟩
    rw [List.mem_singleton.1 hn]
    exact l.place_lt hm
  placed := by
    rw [List.zipIdx_append]
    apply List.append_subset.2
    constructor
    · exact List.subset_append_of_subset_left _ l.placed
    · simp

/-- Elements are taken away. -/
def keep (p : α → Bool) (l : Numbered α) : Numbered α where
  seen := l.seen
  nodes := l.nodes.filter fun n => p n.1
  ordered := l.ordered.filter _
  placed := List.Subset.trans (List.filter_subset_self _) l.placed

@[simp] theorem seen_push (l : Numbered α) (a : α) : (l.push a).seen = l.seen ++ [a] := rfl

@[simp] theorem seen_keep (p : α → Bool) (l : Numbered α) : (l.keep p).seen = l.seen := rfl

@[simp] theorem values_push (l : Numbered α) (a : α) : (l.push a).values = l.values ++ [a] := by
  simp [values, push]

@[simp] theorem values_keep (p : α → Bool) (l : Numbered α) : (l.keep p).values = l.values.filter p := by
  simp [values, keep, List.filter_map, Function.comp_def]

@[simp] theorem length_nodes (l : Numbered α) : l.nodes.length = l.values.length := by
  simp [values]

/-- Two nodes of one place are the same. -/
theorem node_eq (l : Numbered α) {m n : α × ℕ} (hm : m ∈ l.nodes) (hn : n ∈ l.nodes) (h : m.2 = n.2) : m = n := by
  have hm' := List.mem_zipIdx_iff_getElem?.1 (l.placed hm)
  have hn' := List.mem_zipIdx_iff_getElem?.1 (l.placed hn)
  rw [h, hn'] at hm'
  exact Prod.ext (Option.some.inj hm').symm h

/-- The second list is what has become of the first one. -/
structure Later (l l' : Numbered α) : Prop where
  seen : l.seen <+: l'.seen
  old : ∀ n ∈ l'.nodes, n.2 < l.seen.length → n ∈ l.nodes

theorem Later.refl (l : Numbered α) : Later l l := ⟨List.prefix_rfl, fun _ hn _ => hn⟩

theorem Later.trans {l l' l'' : Numbered α} (h : Later l l') (h' : Later l' l'') : Later l l'' := by
  refine ⟨h.seen.trans h'.seen, fun n hn hlt => ?_⟩
  have hlength := h.seen.length_le
  exact h.old n (h'.old n hn (by omega)) hlt

theorem later_push (l : Numbered α) (a : α) : Later l (l.push a) := by
  refine ⟨List.prefix_append _ _, fun n hn hlt => ?_⟩
  rcases List.mem_append.1 hn with hn | hn
  · exact hn
  · rw [List.mem_singleton.1 hn] at hlt
    exact absurd hlt (Nat.lt_irrefl _)

theorem later_keep (l : Numbered α) (p : α → Bool) : Later l (l.keep p) :=
  ⟨List.prefix_rfl, fun _ hn _ => List.mem_of_mem_filter hn⟩

/-- What was put in since. -/
def added (l l' : Numbered α) : List α := l'.seen.drop l.seen.length

theorem Later.seen_eq {l l' : Numbered α} (h : Later l l') : l'.seen = l.seen ++ l.added l' := by
  obtain ⟨rest, hrest⟩ := h.seen
  rw [added, ← hrest, List.drop_left]

theorem Later.added_trans {l l' l'' : Numbered α} (h : Later l l') (h' : Later l' l'') :
    l.added l'' = l.added l' ++ l'.added l'' := by
  have hseen := h'.seen_eq
  rw [h.seen_eq, List.append_assoc] at hseen
  rw [added, hseen, List.drop_left]

end Numbered

open Numbered

/-- Where a walk is. -/
inductive Position (α : Type) where
  | on (n : α × ℕ)
  | past
  | lost
deriving DecidableEq

def first : List (α × ℕ) → Position α
  | [] => .past
  | n :: _ => .on n

/-- The node after the one at the place, if that one is there. -/
def follow : List (α × ℕ) → ℕ → Position α
  | [], _ => .lost
  | n :: nodes, i => if n.2 = i then first nodes else follow nodes i

theorem first_on {nodes : List (α × ℕ)} {n : α × ℕ} (h : nodes.Pairwise fun m n => m.2 < n.2)
    (hfirst : first nodes = .on n) : n ∈ nodes ∧ ∀ m ∈ nodes, n.2 ≤ m.2 := by
  cases nodes with
  | nil => cases hfirst
  | cons m nodes =>
    cases hfirst
    refine ⟨List.mem_cons_self, fun m hm => ?_⟩
    rcases List.mem_cons.1 hm with rfl | hm
    · exact Nat.le_refl _
    · exact Nat.le_of_lt ((List.pairwise_cons.1 h).1 m hm)

theorem first_past {nodes : List (α × ℕ)} : first nodes = .past ↔ nodes = [] := by
  cases nodes <;> simp [first]

theorem first_ne_lost (nodes : List (α × ℕ)) : first nodes ≠ .lost := by
  cases nodes <;> simp [first]

theorem follow_lost {nodes : List (α × ℕ)} {i : ℕ} : follow nodes i = .lost ↔ ∀ n ∈ nodes, n.2 ≠ i := by
  induction nodes with
  | nil => simp [follow]
  | cons n nodes ih =>
    by_cases h : n.2 = i
    · simp [follow, h, first_ne_lost]
    · simp [follow, h, ih]

theorem follow_on {nodes : List (α × ℕ)} {i : ℕ} {n : α × ℕ} (h : nodes.Pairwise fun m n => m.2 < n.2)
    (hfollow : follow nodes i = .on n) : n ∈ nodes ∧ i < n.2 ∧ ∀ m ∈ nodes, m.2 < n.2 → m.2 ≤ i := by
  induction nodes with
  | nil => cases hfollow
  | cons k nodes ih =>
    obtain ⟨hk, hnodes⟩ := List.pairwise_cons.1 h
    unfold follow at hfollow
    split at hfollow
    next heq =>
      obtain ⟨hn, hleast⟩ := first_on hnodes hfollow
      refine ⟨List.mem_cons_of_mem k hn, heq ▸ hk n hn, fun m hm hlt => ?_⟩
      rcases List.mem_cons.1 hm with rfl | hm
      · exact Nat.le_of_eq heq
      · have hle := hleast m hm
        omega
    next hne =>
      obtain ⟨hn, hlt, hbefore⟩ := ih hnodes hfollow
      refine ⟨List.mem_cons_of_mem k hn, hlt, fun m hm hmn => ?_⟩
      rcases List.mem_cons.1 hm with rfl | hm
      · -- the place is found in the rest, so what comes before it is smaller
        have hfound : ¬ ∀ j ∈ nodes, j.2 ≠ i := by
          rw [← follow_lost, hfollow]
          intro heq
          cases heq
        obtain ⟨j, hj, hji⟩ : ∃ j ∈ nodes, j.2 = i := by simpa using hfound
        have hmj := hk j hj
        omega
      · exact hbefore m hm hmn

theorem follow_past {nodes : List (α × ℕ)} {i : ℕ} (h : nodes.Pairwise fun m n => m.2 < n.2)
    (hfollow : follow nodes i = .past) : ∀ m ∈ nodes, m.2 ≤ i := by
  induction nodes with
  | nil => simp
  | cons k nodes ih =>
    obtain ⟨hk, hnodes⟩ := List.pairwise_cons.1 h
    unfold follow at hfollow
    split at hfollow
    next heq =>
      rw [first_past.1 hfollow]
      simp [heq]
    next hne =>
      have hrest := ih hnodes hfollow
      have hfound : ¬ ∀ j ∈ nodes, j.2 ≠ i := by
        rw [← follow_lost, hfollow]
        intro heq
        cases heq
      obtain ⟨j, hj, hji⟩ : ∃ j ∈ nodes, j.2 = i := by simpa using hfound
      have hkj := hk j hj
      intro m hm
      rcases List.mem_cons.1 hm with rfl | hm
      · omega
      · exact hrest m hm

structure Walk (α : Type) where
  list : Numbered α
  position : Position α
  visited : List (α × ℕ)

namespace Walk

def start (l : Numbered α) : Walk α := ⟨l, first l.nodes, []⟩

/-- A node is visited, and then the list is `l`. -/
def visit (w : Walk α) (n : α × ℕ) (l : Numbered α) : Walk α := ⟨l, follow l.nodes n.2, w.visited ++ [n]⟩

def values (w : Walk α) : List α := w.visited.map Prod.fst

end Walk

/-- A walk that began at `l₀`. -/
structure Walking (l₀ : Numbered α) (w : Walk α) : Prop where
  later : Later l₀ w.list
  ordered : w.visited.Pairwise fun m n => m.2 < n.2
  placed : w.visited ⊆ w.list.seen.zipIdx
  old : ∀ v ∈ w.visited, v.2 < l₀.seen.length → v ∈ l₀.nodes
  on : ∀ n, w.position = .on n →
    n ∈ w.list.nodes ∧ (∀ v ∈ w.visited, v.2 < n.2) ∧ ∀ m ∈ w.list.nodes, m.2 < n.2 → m ∈ w.visited
  past : w.position = .past → w.list.nodes ⊆ w.visited

theorem Walking.start (l : Numbered α) : Walking l (Walk.start l) := by
  refine ⟨Later.refl l, List.Pairwise.nil, List.nil_subset _, List.forall_mem_nil _, fun n hn => ?_, fun hpast => ?_⟩
  · obtain ⟨hmem, hleast⟩ := first_on l.ordered hn
    refine ⟨hmem, List.forall_mem_nil _, fun m hm hlt => ?_⟩
    have hle := hleast m hm
    omega
  · have hnil : l.nodes = [] := first_past.1 hpast
    simp [Walk.start, hnil]

section
variable {l₀ : Numbered α} {w : Walk α} {n : α × ℕ} {l : Numbered α}

/-- A node that is not after the visited one has been visited. -/
theorem Walking.mem_visited (h : Walking l₀ w) (hn : w.position = .on n) (hl : Later w.list l) {m : α × ℕ}
    (hm : m ∈ l.nodes) (hle : m.2 ≤ n.2) : m ∈ w.visited ++ [n] := by
  obtain ⟨hmem, _, hbefore⟩ := h.on n hn
  have hlt := w.list.place_lt hmem
  have hold : m ∈ w.list.nodes := hl.old m hm (by omega)
  rcases Nat.lt_or_ge m.2 n.2 with hmn | hge
  · exact List.mem_append_left _ (hbefore m hold hmn)
  · rw [w.list.node_eq hold hmem (by omega)]
    simp

/-- **The step of a walk**. -/
theorem Walking.visit (h : Walking l₀ w) (hn : w.position = .on n) (hl : Later w.list l) :
    Walking l₀ (w.visit n l) := by
  obtain ⟨hmem, hvisited, _⟩ := h.on n hn
  have hseen : w.list.seen.zipIdx ⊆ l.seen.zipIdx := by
    rw [hl.seen_eq, List.zipIdx_append]
    exact List.subset_append_left _ _
  refine ⟨h.later.trans hl, ?_, ?_, ?_, fun k hk => ?_, fun hpast => ?_⟩
  · refine List.pairwise_append.2 ⟨h.ordered, List.pairwise_singleton _ _, fun v hv m hm => ?_⟩
    rw [List.mem_singleton.1 hm]
    exact hvisited v hv
  · apply List.append_subset.2
    constructor
    · exact List.Subset.trans h.placed hseen
    · exact List.cons_subset.2 ⟨hseen (w.list.placed hmem), List.nil_subset _⟩
  · intro v hv hlt
    rcases List.mem_append.1 hv with hv | hv
    · exact h.old v hv hlt
    · rw [List.mem_singleton.1 hv] at hlt ⊢
      exact h.later.old n hmem hlt
  · obtain ⟨hkmem, hnk, hbefore⟩ := follow_on l.ordered hk
    refine ⟨hkmem, fun v hv => ?_, fun m hm hlt => h.mem_visited hn hl hm (hbefore m hm hlt)⟩
    rcases List.mem_append.1 hv with hv | hv
    · exact (hvisited v hv).trans hnk
    · rw [List.mem_singleton.1 hv]
      exact hnk
  · intro m hm
    exact h.mem_visited hn hl hm (follow_past l.ordered hpast m hm)

/-- **The walk is lost** exactly if the node is not there any more. -/
theorem Walking.lost_iff (h : Walking l₀ w) (hn : w.position = .on n) (hl : Later w.list l) :
    (w.visit n l).position = .lost ↔ n ∉ l.nodes := by
  obtain ⟨hmem, _, _⟩ := h.on n hn
  have hlt := w.list.place_lt hmem
  rw [Walk.visit, follow_lost]
  constructor
  · intro hall hin
    exact hall n hin rfl
  · intro hout m hm heq
    have hold : m ∈ w.list.nodes := hl.old m hm (by omega)
    exact hout (w.list.node_eq hold hmem heq ▸ hm)

theorem sublist_of_subset {nodes nodes' : List (α × ℕ)} (h : nodes.Pairwise fun m n => m.2 < n.2)
    (h' : nodes'.Pairwise fun m n => m.2 < n.2) (hsub : nodes ⊆ nodes') : nodes.Sublist nodes' := by
  have hnodup : nodes.Nodup := h.imp fun hlt heq => absurd (congrArg Prod.snd heq) (Nat.ne_of_lt hlt)
  have : Std.Antisymm fun m n : α × ℕ => m.2 < n.2 := ⟨fun m n hmn hnm => absurd hmn (Nat.lt_asymm hnm)⟩
  exact List.sublist_of_subperm_of_pairwise (List.subperm_of_subset hnodup hsub) h h'

theorem pairwise_zipIdx (xs : List α) (k : ℕ) : (xs.zipIdx k).Pairwise fun m n => m.2 < n.2 := by
  have hplaces : ((xs.zipIdx k).map Prod.snd).Pairwise (· < ·) := by
    rw [List.zipIdx_map_snd]
    exact List.pairwise_lt_range'
  exact List.pairwise_map.1 hplaces

/-- **What is visited** was there at the start or was put in since. -/
theorem Walking.visited_sublist (h : Walking l₀ w) : w.values.Sublist (l₀.values ++ l₀.added w.list) := by
  have hall : w.visited ⊆ l₀.nodes ++ (l₀.added w.list).zipIdx l₀.seen.length := by
    intro v hv
    have hplaced := h.placed hv
    rw [h.later.seen_eq, List.zipIdx_append, Nat.zero_add] at hplaced
    rcases List.mem_append.1 hplaced with hold | hnew
    · have hlt := List.snd_lt_add_of_mem_zipIdx hold
      exact List.mem_append_left _ (h.old v hv (by omega))
    · exact List.mem_append_right _ hnew
  have hordered : (l₀.nodes ++ (l₀.added w.list).zipIdx l₀.seen.length).Pairwise fun m n => m.2 < n.2 := by
    refine List.pairwise_append.2 ⟨l₀.ordered, pairwise_zipIdx _ _, fun m hm n hn => ?_⟩
    exact Nat.lt_of_lt_of_le (l₀.place_lt hm) (List.le_snd_of_mem_zipIdx hn)
  have hsublist := (sublist_of_subset h.ordered hordered hall).map Prod.fst
  simpa [Numbered.values, Walk.values] using hsublist

/-- **At the end** nothing is left out. -/
theorem Walking.values_sublist (h : Walking l₀ w) (hpast : w.position = .past) : w.list.values.Sublist w.values :=
  (sublist_of_subset w.list.ordered h.ordered (h.past hpast)).map Prod.fst

/-- Where nothing was taken away, the list is what was visited. -/
theorem Walking.values_eq (h : Walking l₀ w) (hpast : w.position = .past)
    (hall : w.list.values = l₀.values ++ l₀.added w.list) : w.values = w.list.values := by
  have hvisited := h.visited_sublist
  rw [← hall] at hvisited
  exact hvisited.antisymm (h.values_sublist hpast)

end

end Cursor
