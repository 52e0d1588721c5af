import TinyUtils.Cstr.Refines
import TinyUtils.Cstr.Runs
import TinyUtils.Lib.Simulation
/-!
# A program that keeps pointers

A program has its objects in variables of type `Cstr *`. A call that may move its object is made as
`p = cstr_append(d, s)`, and `d` becomes `p` unless that is `NULL`; `cstr_free(d)` leaves a variable that is not used
again. Here such programs run on the heap, where every `realloc` is free to move the block or to leave it.

| here | there |
| --- | --- |
| `Client.vars`  | the variables, `none` after `cstr_free` |
| `Client.exec`  | a call with the objects that its variables point to, `moves` for what `realloc` does |
| `Client.objects` | the objects by handle, as `exec` of `Calls` has them |

Seen through its variables the program is one of `Calls` (`run_objects`), so all that is said of those is said of it;
and the variables own the heap (`run_owned`).
-/

namespace TinyUtils.Cstr.OnHeap

open Block Checked Runs

structure Client where
  heap : Objects
  vars : List (Option Nat)
deriving DecidableEq

def Client.var (c : Client) (i : Nat) : Option Nat := c.vars[i]?.join

/-- The objects that the variables point to. -/
def Client.objects (c : Client) : Objects := c.vars.map fun v => v.bind (fetch c.heap)

/-- A call that makes an object, in a new variable. -/
def Client.make (c : Client) (r : M (Option Cstr)) : M Client := do
  match ← r with
  | none => .ok c
  | some s => .ok ⟨c.heap ++ [some s], c.vars ++ [some c.heap.length]⟩

/-- The variable becomes what the operation returns, unless that is `NULL`. -/
def Client.assign (c : Client) (i : Nat) (x : Prog (Option Nat)) : M Client := do
  let (p, heap) ← x c.heap
  match p with
  | none => .ok { c with heap := heap }
  | some p => .ok ⟨heap, c.vars.set i (some p)⟩

def Client.onVar (c : Client) (i : Nat) (f : Nat → M Client) : M Client :=
  match c.var i with
  | some a => f a
  | none => .ok c

/-- What `realloc` does to the block, with what the call is given. -/
def alloc (mem : Mem) (moves : Bool) : Alloc := mem.map fun bytes => (moves, bytes)

def Client.exec (c : Client) (moves : Bool) : Call → M Client
  | .newStr mem str => c.make (newStr mem str)
  | .newSize mem cap => c.make (newSize mem cap)
  | .new mem none => c.make (new mem none)
  | .new mem (some i) => c.onVar i fun a => do
    let (s, _) ← deref a c.heap
    c.make (new mem (some s))
  | .free i => c.onVar i fun a => do
    let (_, heap) ← deref a c.heap
    .ok ⟨heap.set a none, c.vars.set i none⟩
  | .inPlace f i => c.onVar i fun a => do
    let (_, heap) ← modify a f.run c.heap
    .ok { c with heap := heap }
  | .assign mem dst src =>
    c.onVar dst fun d => c.onVar src fun s => c.assign dst ((Op.assign s).run (alloc mem moves) d)
  | .assignStr mem dst src => c.onVar dst fun d => c.assign dst ((Op.assignStr src).run (alloc mem moves) d)
  | .copy mem dst src begin len =>
    c.onVar dst fun d => c.onVar src fun s => c.assign dst ((Op.copy s begin len).run (alloc mem moves) d)
  | .copyStr mem dst src begin len =>
    c.onVar dst fun d => c.assign dst ((Op.copyStr src begin len).run (alloc mem moves) d)
  | .subCstr mem substr cstr begin len =>
    c.onVar substr fun d => c.onVar cstr fun s => c.assign substr ((Op.subCstr s begin len).run (alloc mem moves) d)
  | .subStr mem substr str begin len =>
    c.onVar substr fun d => c.assign substr ((Op.subStr str begin len).run (alloc mem moves) d)
  | .insert mem dst pos istr begin len =>
    c.onVar dst fun d => c.onVar istr fun s => c.assign dst ((Op.insert pos s begin len).run (alloc mem moves) d)
  | .insertStr mem dst pos str begin len =>
    c.onVar dst fun d => c.assign dst ((Op.insertStr pos str begin len).run (alloc mem moves) d)
  | .append mem dst str =>
    c.onVar dst fun d => c.onVar str fun s => c.assign dst ((Op.append s).run (alloc mem moves) d)
  | .appendStr mem dst str => c.onVar dst fun d => c.assign dst ((Op.appendStr str).run (alloc mem moves) d)

/-! ## The variables own the heap -/

/-- Each variable points to an object of its own, and no object is without a variable. -/
structure Owns (c : Client) : Prop where
  live : ∀ {i a}, c.var i = some a → ∃ s, fetch c.heap a = some s
  apart : ∀ {i j a}, c.var i = some a → c.var j = some a → i = j
  covered : ∀ {a s}, fetch c.heap a = some s → ∃ i, c.var i = some a

theorem fetch_objects (c : Client) (i : Nat) : fetch c.objects i = (c.var i).bind (fetch c.heap) := by
  unfold fetch Client.objects Client.var
  rw [List.getElem?_map]
  cases c.vars[i]? with
  | none => rfl
  | some v => rfl

/-- The call does to the variables and to the objects what the call of `Calls` does to the objects. -/
def Follows (x : M Client) (r : M Objects) : Prop := x.map Client.objects = r ∧ ∀ c, x = .ok c → Owns c

section
variable {c : Client}

theorem Owns.get (ho : Owns c) {i a : Nat} (hv : c.var i = some a) :
    ∃ s, fetch c.heap a = some s ∧ fetch c.objects i = some s := by
  obtain ⟨s, hs⟩ := ho.live hv
  refine ⟨s, hs, ?_⟩
  rw [fetch_objects, hv]
  exact hs

theorem Owns.lt (ho : Owns c) {i a : Nat} (hv : c.var i = some a) : a < c.heap.length := by
  obtain ⟨s, hs⟩ := ho.live hv
  exact lt_of_fetch hs

theorem var_set_self {i a : Nat} (hv : c.var i = some a) (heap : Objects) (v : Option Nat) :
    (⟨heap, c.vars.set i v⟩ : Client).var i = v := by
  obtain ⟨hlt, _⟩ := List.getElem?_eq_some_iff.1 (Option.join_eq_some_iff.1 hv)
  simp [Client.var, hlt]

theorem var_set_of_ne {i j : Nat} (hne : j ≠ i) (heap : Objects) (v : Option Nat) :
    (⟨heap, c.vars.set i v⟩ : Client).var j = c.var j := by
  rw [Client.var, List.getElem?_set_ne hne.symm]
  rfl

/-- A variable is set, and the objects of the others stay. -/
theorem objects_set {heap : Objects} {i : Nat} {v : Option Nat}
    (hother : ∀ j b, j ≠ i → c.var j = some b → fetch heap b = fetch c.heap b) :
    (⟨heap, c.vars.set i v⟩ : Client).objects = c.objects.set i (v.bind (fetch heap)) := by
  apply List.ext_getElem?
  intro j
  simp only [Client.objects, List.getElem?_map]
  by_cases hj : j = i
  · subst hj
    by_cases hlt : j < c.vars.length
    · simp [hlt]
    · simp [hlt]
  · rw [List.getElem?_set_ne (Ne.symm hj), List.getElem?_set_ne (Ne.symm hj), List.getElem?_map]
    cases hv : c.vars[j]? with
    | none => rfl
    | some w =>
      cases w with
      | none => rfl
      | some b =>
        have hb := hother j b hj (by rw [Client.var, hv]; rfl)
        simp only [Option.map_some, Option.bind_some, hb]

/-- An object other than the placed one was there before. -/
theorem fetch_of_place {h : Objects} {a p b : Nat} {d s : Cstr} (hs : Spot h a p) (hne : b ≠ p)
    (hb : fetch (place h a p d) b = some s) : fetch h b = some s ∧ b ≠ a := by
  have hset : ∀ {v : Option Cstr}, b ≠ a → fetch (h.set a v) b = fetch h b := fun hba => by
    rw [fetch, List.getElem?_set_ne hba.symm]
    rfl
  unfold place at hb
  split at hb
  · rename_i hpa
    subst hpa
    rw [hset hne] at hb
    exact ⟨hb, hne⟩
  · have hp : p = h.length := hs.2.resolve_left ‹_›
    have hlt := lt_of_fetch hb
    simp only [List.length_append, List.length_set, List.length_singleton] at hlt
    have hfront : fetch (h.set a none) b = some s := by
      rwa [fetch, List.getElem?_append_left (by rw [List.length_set]; omega)] at hb
    by_cases hba : b = a
    · subst hba
      simp [fetch, hs.1] at hfront
    · rw [hset hba] at hfront
      exact ⟨hfront, hba⟩

/-- The object of a variable is placed somewhere, and the variable follows it. -/
theorem owns_place (ho : Owns c) {i a p : Nat} (hv : c.var i = some a) (hs : Spot c.heap a p) (d : Cstr) :
    (⟨place c.heap a p d, c.vars.set i (some p)⟩ : Client).objects = c.objects.set i (some d) ∧
      Owns ⟨place c.heap a p d, c.vars.set i (some p)⟩ := by
  have hself : fetch (place c.heap a p d) p = some d := fetch_place hs
  have hne : ∀ {j b}, j ≠ i → c.var j = some b → b ≠ a := by
    rintro j b hj hb rfl
    exact hj (ho.apart hb hv)
  have hother : ∀ j b, j ≠ i → c.var j = some b → fetch (place c.heap a p d) b = fetch c.heap b := by
    intro j b hj hb
    obtain ⟨s, hf⟩ := ho.live hb
    rw [hf]
    exact fetch_place_of_ne hf (hne hj hb)
  have hp : ∀ {j b}, j ≠ i → c.var j = some b → b ≠ p := by
    rintro j b hj hb rfl
    rcases hs.2 with heq | heq
    · exact hne hj hb heq
    · exact absurd (ho.lt hb) (by omega)
  refine ⟨?_, ⟨fun {j b} hb => ?_, fun {j k b} hj hk => ?_, fun {b s} hb => ?_⟩⟩
  · rw [objects_set hother, Option.bind_some, hself]
  · by_cases hj : j = i
    · subst hj
      rw [var_set_self hv] at hb
      cases hb
      exact ⟨d, hself⟩
    · rw [var_set_of_ne hj] at hb
      obtain ⟨s, hf⟩ := ho.live hb
      exact ⟨s, (hother j b hj hb).trans hf⟩
  · by_cases hji : j = i <;> by_cases hki : k = i
    · rw [hji, hki]
    · subst hji
      rw [var_set_self hv] at hj
      rw [var_set_of_ne hki] at hk
      cases hj
      exact absurd rfl (hp hki hk)
    · subst hki
      rw [var_set_self hv] at hk
      rw [var_set_of_ne hji] at hj
      cases hk
      exact absurd rfl (hp hji hj)
    · rw [var_set_of_ne hji] at hj
      rw [var_set_of_ne hki] at hk
      exact ho.apart hj hk
  · by_cases hbp : b = p
    · exact ⟨i, hbp ▸ var_set_self hv _ _⟩
    · -- any other object was there before
      have hold := fetch_of_place hs hbp hb
      obtain ⟨j, hj⟩ := ho.covered hold.1
      refine ⟨j, ?_⟩
      rw [var_set_of_ne]
      · exact hj
      · rintro rfl
        rw [hv] at hj
        cases hj
        exact hold.2 rfl

theorem follows_stay (ho : Owns c) : Follows (.ok c) (.ok c.objects) := by
  refine ⟨rfl, fun c' hc => ?_⟩
  cases hc
  exact ho

/-- The variable becomes what an operation on its object returns. -/
theorem follows_assign (ho : Owns c) {i a : Nat} (hv : c.var i = some a) {x : Prog (Option Nat)} {r : M (Option Cstr)}
    (hx : Refines c.heap a x r) : Follows (c.assign i x) (Cstr.update c.objects i r) := by
  obtain ⟨p, hs, heq⟩ := hx
  unfold Client.assign
  rw [heq]
  cases r with
  | error e => exact ⟨rfl, nofun⟩
  | ok r =>
    cases r with
    | none => exact follows_stay ho
    | some d =>
      obtain ⟨hobjects, howns⟩ := owns_place ho hv hs d
      refine ⟨congrArg Except.ok hobjects, fun c' hc => ?_⟩
      cases hc
      exact howns

theorem follows_make (ho : Owns c) (r : M (Option Cstr)) : Follows (c.make r) (create c.objects r) := by
  cases r with
  | error e => exact ⟨rfl, nofun⟩
  | ok r =>
    cases r with
    | none => exact follows_stay ho
    | some s =>
      have hold : ∀ {b}, b < c.heap.length → fetch (c.heap ++ [some s]) b = fetch c.heap b := fun hb => by
        rw [fetch, List.getElem?_append_left hb]
        rfl
      have hnew : fetch (c.heap ++ [some s]) c.heap.length = some s := by simp [fetch]
      have hvar : ∀ {j b}, (⟨c.heap ++ [some s], c.vars ++ [some c.heap.length]⟩ : Client).var j = some b →
          c.var j = some b ∨ j = c.vars.length ∧ b = c.heap.length := by
        intro j b hj
        rcases Nat.lt_trichotomy j c.vars.length with hlt | heq | hgt
        · rw [Client.var, List.getElem?_append_left hlt] at hj
          exact Or.inl hj
        · subst heq
          simp only [Client.var, List.getElem?_concat_length, Option.join_some, Option.some.injEq] at hj
          exact Or.inr ⟨rfl, hj.symm⟩
        · have hlen : (c.vars ++ [some c.heap.length]).length ≤ j := by
            rw [List.length_append]
            exact hgt
          rw [Client.var, List.getElem?_eq_none hlen] at hj
          cases hj
      have hkept : ∀ {j b}, c.var j = some b →
          (⟨c.heap ++ [some s], c.vars ++ [some c.heap.length]⟩ : Client).var j = some b := by
        intro j b hj
        have hlt := (List.getElem?_eq_some_iff.1 (Option.join_eq_some_iff.1 hj)).1
        rw [Client.var, List.getElem?_append_left hlt]
        exact hj
      refine ⟨congrArg Except.ok ?_, fun c' hc => ?_⟩
      · simp only [Client.objects, List.map_append, List.map_singleton, Option.bind_some, hnew]
        refine congrArg (· ++ [some s]) (List.map_congr_left fun v hmem => ?_)
        cases v with
        | none => rfl
        | some b =>
          obtain ⟨j, hj⟩ := List.getElem?_of_mem hmem
          exact hold (ho.lt (i := j) (by rw [Client.var, hj]; rfl))
      · cases hc
        refine ⟨fun {j b} hb => ?_, fun {j k b} hj hk => ?_, fun {b t} hb => ?_⟩
        · rcases hvar hb with hb | ⟨_, rfl⟩
          · obtain ⟨t, ht⟩ := ho.live hb
            exact ⟨t, (hold (ho.lt hb)).trans ht⟩
          · exact ⟨s, hnew⟩
        · rcases hvar hj with hj | ⟨rfl, rfl⟩ <;> rcases hvar hk with hk | ⟨rfl, hk⟩
          · exact ho.apart hj hk
          · exact absurd (ho.lt hj) (by omega)
          · exact absurd (ho.lt hk) (by omega)
          · rfl
        · have hlt := lt_of_fetch hb
          rw [List.length_append, List.length_singleton] at hlt
          by_cases hbnew : b = c.heap.length
          · exact ⟨c.vars.length, by simp [Client.var, hbnew]⟩
          · obtain ⟨j, hj⟩ := ho.covered ((hold (by omega)).symm.trans hb)
            exact ⟨j, hkept hj⟩

theorem follows_free (ho : Owns c) {i a : Nat} (hv : c.var i = some a) :
    Follows (.ok ⟨c.heap.set a none, c.vars.set i none⟩) (.ok (c.objects.set i none)) := by
  have hother : ∀ j b, j ≠ i → c.var j = some b → fetch (c.heap.set a none) b = fetch c.heap b := by
    intro j b hj hb
    have hne : b ≠ a := by
      rintro rfl
      exact hj (ho.apart hb hv)
    rw [fetch, List.getElem?_set_ne hne.symm]
    rfl
  have hvar : ∀ {j b}, (⟨c.heap.set a none, c.vars.set i none⟩ : Client).var j = some b → j ≠ i ∧ c.var j = some b := by
    intro j b hj
    by_cases hji : j = i
    · subst hji
      rw [var_set_self hv] at hj
      cases hj
    · exact ⟨hji, (var_set_of_ne hji _ _).symm.trans hj⟩
  refine ⟨congrArg Except.ok (objects_set hother), fun c' hc => ?_⟩
  cases hc
  refine ⟨fun {j b} hb => ?_, fun {j k b} hj hk => ho.apart (hvar hj).2 (hvar hk).2, fun {b s} hb => ?_⟩
  · obtain ⟨hji, hb⟩ := hvar hb
    obtain ⟨s, hs⟩ := ho.live hb
    exact ⟨s, (hother j b hji hb).trans hs⟩
  · by_cases hba : b = a
    · subst hba
      simp [fetch, ho.lt hv] at hb
    · rw [fetch, List.getElem?_set_ne (Ne.symm hba)] at hb
      obtain ⟨j, hj⟩ := ho.covered hb
      refine ⟨j, ?_⟩
      rw [var_set_of_ne]
      · exact hj
      · rintro rfl
        rw [hv] at hj
        cases hj
        exact hba rfl

/-- The object of a variable is changed where it is. -/
theorem follows_inPlace (ho : Owns c) {i a : Nat} (hv : c.var i = some a) (f : InPlace) :
    Follows (do let (_, heap) ← modify a f.run c.heap; .ok { c with heap := heap })
      (Cstr.exec c.objects (.inPlace f i)) := by
  obtain ⟨s, hs, hobject⟩ := ho.get hv
  have hmodify : modify a f.run c.heap = (f.run s).map fun s => ((), c.heap.set a (some s)) := by
    simp only [modify, hs]
    cases f.run s <;> rfl
  rw [hmodify]
  simp only [Cstr.exec, onOne, hobject]
  cases hf : f.run s with
  | error e =>
    refine ⟨rfl, fun c' hc => ?_⟩
    cases hc
  | ok t =>
    obtain ⟨hobjects, howns⟩ := owns_place ho hv (Spot.stay hs) t
    have hvars : c.vars.set i (some a) = c.vars := by
      have hget : c.vars[i]? = some (some a) := Option.join_eq_some_iff.1 hv
      obtain ⟨hlt, hget⟩ := List.getElem?_eq_some_iff.1 hget
      rw [← hget]
      exact List.set_getElem_self hlt
    rw [place, if_pos rfl, hvars] at hobjects howns
    refine ⟨congrArg Except.ok hobjects, fun c' hc => ?_⟩
    cases hc
    exact howns

/-! ## The calls -/

@[simp] theorem mem_alloc (mem : Mem) (moves : Bool) : (alloc mem moves).mem = mem := by
  cases mem <;> rfl

theorem var_of_fetch {i : Nat} {s : Cstr} (h : fetch c.objects i = some s) :
    ∃ a, c.var i = some a ∧ fetch c.heap a = some s := by
  rw [fetch_objects] at h
  exact Option.bind_eq_some_iff.1 h

/-- An operation whose source is no object. -/
theorem follows_one (ho : Owns c) {i : Nat} {P : Cstr → Prop} (hi : One c.objects i P) {al : Alloc} {op : Op}
    {g : Cstr → M (Option Cstr)} (hsrc : op.src = none) (hspec : ∀ d, op.spec al c.heap d = some (g d)) :
    Follows (c.onVar i fun a => c.assign i (op.run al a))
      (onOne c.objects i fun d => Cstr.update c.objects i (g d)) := by
  obtain ⟨d, hd, _⟩ := hi
  obtain ⟨a, hv, hf⟩ := var_of_fetch hd
  simp only [Client.onVar, hv, onOne, hd]
  refine follows_assign ho hv (run_refines al hf op ?_ (hspec d))
  rw [hsrc]
  intro h
  cases h

/-- An operation whose source is another object. -/
theorem follows_two (ho : Owns c) {i j : Nat} {P : Cstr → Cstr → Prop} (hij : Two c.objects i j P) {al : Alloc}
    {op : Nat → Op} {g : Cstr → Cstr → M (Option Cstr)} (hsrc : ∀ b, (op b).src = some b)
    (hspec : ∀ b d s, fetch c.heap b = some s → (op b).spec al c.heap d = some (g d s)) :
    Follows (c.onVar i fun a => c.onVar j fun b => c.assign i ((op b).run al a))
      (onOne c.objects i fun d => onOne c.objects j fun s => Cstr.update c.objects i (g d s)) := by
  obtain ⟨hne, d, s, hd, hs, _⟩ := hij
  obtain ⟨a, hva, hfa⟩ := var_of_fetch hd
  obtain ⟨b, hvb, hfb⟩ := var_of_fetch hs
  simp only [Client.onVar, hva, hvb, onOne, hd, hs]
  refine follows_assign ho hva (run_refines al hfa (op b) ?_ (hspec b d s hfb))
  rw [hsrc]
  intro heq
  cases heq
  exact hne (ho.apart hva hvb)

/-- **Each call does to the objects what the call of `Calls` does**, and the variables go on owning the heap. -/
theorem exec_follows (ho : Owns c) (moves : Bool) {call : Call} (hr : InRange c.objects call) :
    Follows (c.exec moves call) (Cstr.exec c.objects call) := by
  cases call with
  | newStr mem str => exact follows_make ho _
  | newSize mem cap => exact follows_make ho _
  | new mem src =>
    cases src with
    | none => exact follows_make ho _
    | some i =>
      obtain ⟨s, hs, _⟩ := hr
      obtain ⟨a, hv, hf⟩ := var_of_fetch hs
      simp only [Client.exec, Client.onVar, hv, deref, hf, Cstr.exec, onOne, hs]
      exact follows_make ho _
  | free i =>
    obtain ⟨s, hs, _⟩ := hr
    obtain ⟨a, hv, hf⟩ := var_of_fetch hs
    simp only [Client.exec, Client.onVar, hv, deref, hf]
    exact follows_free ho hv
  | inPlace f i =>
    obtain ⟨s, hs, _⟩ := hr
    obtain ⟨a, hv, hf⟩ := var_of_fetch hs
    simp only [Client.exec, Client.onVar, hv]
    exact follows_inPlace ho hv f
  | assign mem dst src =>
    exact follows_two ho hr (fun _ => rfl) fun b d s hf => by simp [Op.spec, hf]
  | assignStr mem dst src => exact follows_one ho hr rfl fun d => by simp [Op.spec]
  | copy mem dst src begin len =>
    exact follows_two ho hr (fun _ => rfl) fun b d s hf => by simp [Op.spec, hf]
  | copyStr mem dst src begin len => exact follows_one ho hr rfl fun d => by simp [Op.spec]
  | subCstr mem substr cstr begin len =>
    exact follows_two ho hr (fun _ => rfl) fun b d s hf => by simp [Op.spec, hf]
  | subStr mem substr str begin len => exact follows_one ho hr rfl fun d => by simp [Op.spec]
  | insert mem dst pos istr begin len =>
    exact follows_two ho hr (fun _ => rfl) fun b d s hf => by simp [Op.spec, hf]
  | insertStr mem dst pos str begin len => exact follows_one ho hr rfl fun d => by simp [Op.spec]
  | append mem dst str => exact follows_two ho hr (fun _ => rfl) fun b d s hf => by simp [Op.spec, hf]
  | appendStr mem dst str => exact follows_one ho hr rfl fun d => by simp [Op.spec]

end

/-! ## Runs -/

/-- A call on live objects, two of them if it has a source. A program that has stopped makes none. -/
inductive Client.Step : M Client → Call × Bool → M Client → Prop
  | call {c : Client} {call : Call} {moves : Bool} : InRange c.objects call →
      Client.Step (.ok c) (call, moves) (c.exec moves call)

/-- No variable and nothing allocated. -/
def Client.start : M Client := .ok ⟨[], []⟩

/-- The variables own the heap, if the program has not stopped. -/
def Owned (st : M Client) : Prop := ∀ c, st = .ok c → Owns c

/-- The calls and the objects of a program, without its addresses. -/
def asCalls (st : M Client) (tr : List ((Call × Bool) × M Client)) : List (Call × M Objects) :=
  image (Except.map Client.objects) (fun _ a _ => a.1) st tr

theorem owned_start : Owned Client.start := by
  intro c hc
  cases hc
  exact ⟨nofun, nofun, nofun⟩

theorem Client.Step.follows {st st' : M Client} {a : Call × Bool} (hs : Client.Step st a st') (ho : Owned st) :
    Cstr.Step (st.map Client.objects) a.1 (st'.map Client.objects) ∧ Owned st' := by
  cases hs with
  | @call c call moves hr =>
    obtain ⟨hexec, howns⟩ := exec_follows (ho c rfl) moves hr
    exact ⟨.of_eq hr hexec.symm, howns⟩

/-- **Addresses do not show**: the objects of a program on the heap, whatever its `realloc`s move, are those of the same
calls on objects by handle. -/
theorem run_objects {tr : List ((Call × Bool) × M Client)} (hr : IsRun Client.Step Client.start tr) :
    IsRun Cstr.Step (.ok []) (asCalls Client.start tr) :=
  isRun_image (fun _ _ _ ho hs => (hs.follows ho).2) (fun _ _ _ ho hs => (hs.follows ho).1) owned_start hr

/-- **Nothing leaks and nothing dangles**: if the block of each call gets the size that its result needs, a program that
has not stopped at a `NULL` it went through has in each variable a live object of its own, and no other object is
allocated. -/
theorem run_owned {tr : List ((Call × Bool) × M Client)} (hr : IsRun Client.Step Client.start tr)
    (hf : StepsMeet (OnCall Fits) (.ok []) (asCalls Client.start tr)) :
    last Client.start tr = .error .null ∨ ∃ c, last Client.start tr = .ok c ∧ Owns c := by
  have howned : Owned (last Client.start tr) := (hr.reach .refl).inv owned_start fun _ _ _ ho hs => (hs.follows ho).2
  have hcalls : IsRun Cstr.Step (.ok []) (asCalls Client.start tr) :=
    isRun_image (fun _ _ _ ho hs => (hs.follows ho).2) (fun _ _ _ ho hs => (hs.follows ho).1) owned_start hr
  have hstep : ∀ st c st', Sound Valid st → Cstr.Step st c st' → OnCall Fits st c → Sound Valid st' :=
    fun _ _ _ => step_valid
  have hstates : StatesMeet (Sound Valid) (.ok []) (asCalls Client.start tr) :=
    run_inv (fun _ h => h) hstep sound_nil hcalls hf
  have hlast : last (Client.start.map Client.objects) (asCalls Client.start tr) =
      (last Client.start tr).map Client.objects := last_image _ _
  have hvalid : Sound Valid ((last Client.start tr).map Client.objects) := hlast ▸ hstates.last
  cases hst : last Client.start tr with
  | error e =>
    rw [hst] at hvalid
    exact Or.inl (congrArg Except.error hvalid)
  | ok c => exact Or.inr ⟨c, rfl, howned c hst⟩

theorem Client.Step.of_eq {c : Client} {call : Call} {moves : Bool} {st : M Client} (h : InRange c.objects call)
    (he : c.exec moves call = st) : Client.Step (.ok c) (call, moves) st := he ▸ .call h

theorem zero_notMem_ab : (0 : Byte) ∉ [32, 97, 98] := by decide

/-- The calls of `copyAndTrim`. The copy shrinks its object, and `realloc` moves it. -/
def movedCopy : List ((Call × Bool) × M Client) :=
  let ab : Option Cstr := some ⟨23, 3, [32, 97, 98, 0] ++ List.replicate 20 170⟩
  [((.newStr fresh (some ⟨[32, 97, 98], zero_notMem_ab⟩), false), .ok ⟨[ab], [some 0]⟩),
    ((.newSize fresh 300, false), .ok ⟨[ab, some ⟨503, 0, 0 :: List.replicate 503 170⟩], [some 0, some 1]⟩),
    ((.copy fresh 1 0 0 0, true), .ok ⟨[ab, none, ab], [some 0, some 2]⟩),
    ((.inPlace .trim 1, false),
      .ok ⟨[ab, none, some ⟨23, 2, [97, 98, 0, 0] ++ List.replicate 20 170⟩], [some 0, some 2]⟩)]

theorem movedCopy_isRun : IsRun Client.Step Client.start movedCopy := by
  refine ⟨.of_eq trivial ?_, .of_eq trivial ?_, .of_eq ⟨by decide, _, _, rfl, rfl, ?_⟩ ?_,
    .of_eq ⟨_, rfl, trivial⟩ ?_, trivial⟩ <;> decide +kernel

theorem objects_movedCopy : IsRun Cstr.Step (.ok []) (asCalls Client.start movedCopy) := run_objects movedCopy_isRun

theorem owned_movedCopy :
    last Client.start movedCopy = .error .null ∨ ∃ c, last Client.start movedCopy = .ok c ∧ Owns c :=
  run_owned movedCopy_isRun copyAndTrim_fits

end TinyUtils.Cstr.OnHeap
