import TinyUtils.Lib.Run
import Mathlib.Data.List.Chain
import Mathlib.Data.List.Nodup
import Mathlib.Order.WellFounded
import Mathlib.Logic.Function.Basic
/-!
# `Singleton<T>::Instance`, `pthread` variant (`cpp_utils/singleton.cpp:95-136`)

Each type has a `once` of its own. `pthread_once` runs `InstanceInit` for the first call, lets the calls that come in
the meantime wait until it has returned, and returns at once ever after. The constructor of `A` may call `Instance` of
the types it depends on, so a thread has a stack of calls; here it returns.

| here | there |
| --- | --- |
| `Pc`, `exec`        | `Instance` (`singleton.cpp:99-104`) and `InstanceInit` (`:111`), one statement a step |
| `Once`              | what `pthread_once` keeps in `once` (`:117`), and who runs `InstanceInit` |
| `Sys.cleaners`      | the static `singleton_cleaner` of the types (`:101`), in the order they were made |
| `clean`, `exit`     | `~SingletonCleaner` (`:123-131`), and the statics destroyed in the opposite order at the end |
| `Sys.made`, `Sys.rets` | history: the constructions that returned, and what the calls returned |
-/

namespace TinyUtils.PthreadSingleton

open Function Runs

inductive Once (Tid : Type)
  | fresh
  | running (t : Tid)
  | done
deriving DecidableEq, Repr

/-- The next statement of a call of `Instance`. -/
inductive Pc
  | enter
  | once
  | construct
  | store (p : Nat)
  | leave
  | ret
deriving DecidableEq, Repr

/-- A call of `Instance` of `ty` that has not returned. -/
structure Frame (Ty : Type) where
  ty : Ty
  pc : Pc
deriving DecidableEq, Repr

structure Sys (Ty Tid : Type) where
  once : Ty → Once Tid
  inst : Ty → Option Nat
  cleaners : List Ty
  stack : Tid → List (Frame Ty)
  made : Ty → Nat
  rets : List (Ty × Option Nat)

inductive Act (Ty Tid : Type)
  | call (t : Tid) (A : Ty)
  | exec (t : Tid)
  | nested (t : Tid) (B : Ty)
  | built (t : Tid) (p : Nat)

variable {Ty Tid : Type} [DecidableEq Ty] [DecidableEq Tid]

def Sys.init : Sys Ty Tid := ⟨fun _ => .fresh, fun _ => none, [], fun _ => [], fun _ => 0, []⟩

/-- The call of `A` on top of the stack of `t` goes on to `pc`. -/
def Sys.goto (s : Sys Ty Tid) (t : Tid) (A : Ty) (pc : Pc) (rest : List (Frame Ty)) : Sys Ty Tid :=
  { s with stack := update s.stack t (⟨A, pc⟩ :: rest) }

/-- The next statement of a call of `A` by `t`, with the calls below it. A call that finds `InstanceInit` running waits,
and a constructor makes no step of its own. -/
def exec (s : Sys Ty Tid) (t : Tid) (A : Ty) (rest : List (Frame Ty)) : Pc → Option (Sys Ty Tid)
  | .enter =>
    some (Sys.goto { s with cleaners := if A ∈ s.cleaners then s.cleaners else s.cleaners ++ [A] } t A .once rest)
  | .once =>
    match s.once A with
    | .fresh => some (Sys.goto { s with once := update s.once A (.running t) } t A .construct rest)
    | .running _ => none
    | .done => some (s.goto t A .ret rest)
  | .construct => none
  | .store p => some (Sys.goto { s with inst := update s.inst A (some p) } t A .leave rest)
  | .leave => some (Sys.goto { s with once := update s.once A .done } t A .ret rest)
  | .ret => some { s with stack := update s.stack t rest, rets := (A, s.inst A) :: s.rets }

/-- One step of one thread. `dep A B`: the constructor of `A` may call `Instance` of `B`. -/
inductive Step (dep : Ty → Ty → Prop) : Sys Ty Tid → Act Ty Tid → Sys Ty Tid → Prop
  | call {s : Sys Ty Tid} {t : Tid} {A : Ty} : s.stack t = [] → Step dep s (.call t A) (s.goto t A .enter [])
  | exec {s s' : Sys Ty Tid} {t : Tid} {A : Ty} {pc : Pc} {rest : List (Frame Ty)} : s.stack t = ⟨A, pc⟩ :: rest →
      exec s t A rest pc = some s' → Step dep s (.exec t) s'
  | nested {s : Sys Ty Tid} {t : Tid} {A B : Ty} {rest : List (Frame Ty)} : s.stack t = ⟨A, .construct⟩ :: rest →
      dep A B → Step dep s (.nested t B) (s.goto t B .enter (⟨A, .construct⟩ :: rest))
  | built {s : Sys Ty Tid} {t : Tid} {A : Ty} {p : Nat} {rest : List (Frame Ty)} :
      s.stack t = ⟨A, .construct⟩ :: rest →
      Step dep s (.built t p) (Sys.goto { s with made := update s.made A (s.made A + 1) } t A (.store p) rest)

/-- The call runs `InstanceInit`. -/
def Frame.inInit (f : Frame Ty) : Bool :=
  match f.pc with
  | .construct | .store _ | .leave => true
  | _ => false

/-- What a call of `t` at this statement knows of its type. -/
def Frame.Ok (s : Sys Ty Tid) (t : Tid) (f : Frame Ty) : Prop :=
  match f.pc with
  | .enter => True
  | .once => f.ty ∈ s.cleaners
  | .construct => s.once f.ty = .running t ∧ s.inst f.ty = none ∧ s.made f.ty = 0
  | .store _ => s.once f.ty = .running t ∧ s.inst f.ty = none ∧ s.made f.ty = 1
  | .leave => s.once f.ty = .running t ∧ (s.inst f.ty).isSome = true ∧ s.made f.ty = 1
  | .ret => s.once f.ty = .done

/-- What `once` says of a type. -/
def TypeOk (s : Sys Ty Tid) (A : Ty) : Prop :=
  match s.once A with
  | .fresh => s.inst A = none ∧ s.made A = 0
  | .running t => A ∈ s.cleaners ∧ ∃ f ∈ s.stack t, f.ty = A ∧ f.inInit = true
  | .done => A ∈ s.cleaners ∧ (s.inst A).isSome = true ∧ s.made A = 1

/-- Below a call there is the constructor that made it. -/
def Below (dep : Ty → Ty → Prop) (f g : Frame Ty) : Prop := g.pc = .construct ∧ dep g.ty f.ty

structure Inv (dep : Ty → Ty → Prop) (s : Sys Ty Tid) : Prop where
  frames : ∀ t, ∀ f ∈ s.stack t, f.Ok s t
  types : ∀ A, TypeOk s A
  distinct : ∀ t, (s.stack t).Pairwise fun f g => f.inInit = true → g.inInit = true → f.ty ≠ g.ty
  below : ∀ t, (s.stack t).IsChain (Below dep)
  cleaners : s.cleaners.Nodup
  rets : ∀ A r, (A, r) ∈ s.rets → r.isSome = true ∧ r = s.inst A ∧ s.once A = .done

/-! ## What a step keeps -/

/-- The call has not come past `pthread_once`. -/
def Frame.early (f : Frame Ty) : Prop := f.pc = .enter ∨ f.pc = .once

/-- Nothing happens to the type but that its cleaner may be made. -/
def Same (s s' : Sys Ty Tid) (B : Ty) : Prop := s'.once B = s.once B ∧ s'.inst B = s.inst B ∧ s'.made B = s.made B

section
variable {dep : Ty → Ty → Prop} {s s' : Sys Ty Tid} {t : Tid} {A : Ty} {pc k : Pc} {rest : List (Frame Ty)}

omit [DecidableEq Ty] [DecidableEq Tid] in
theorem Frame.Ok.keep {u : Tid} {f : Frame Ty} (h : f.Ok s u) (hsame : Same s s' f.ty ∨ f.early)
    (hclean : ∀ B ∈ s.cleaners, B ∈ s'.cleaners) : f.Ok s' u := by
  rcases hsame with ⟨honce, hinst, hmade⟩ | hpc | hpc
  · unfold Frame.Ok at h ⊢
    rw [honce, hinst, hmade]
    cases hpc : f.pc with
    | once =>
      rw [hpc] at h
      exact hclean _ h
    | enter | construct | store p | leave | ret =>
      rw [hpc] at h
      exact h
  · simp [Frame.Ok, hpc]
  · simp only [Frame.Ok, hpc] at h ⊢
    exact hclean _ h

omit [DecidableEq Ty] [DecidableEq Tid] in
theorem TypeOk.keep {B : Ty} (h : TypeOk s B) (hsame : Same s s' B) (hclean : ∀ B ∈ s.cleaners, B ∈ s'.cleaners)
    (hframes : ∀ u, ∀ f ∈ s.stack u, f.ty = B → f.inInit = true → f ∈ s'.stack u) : TypeOk s' B := by
  obtain ⟨honce, hinst, hmade⟩ := hsame
  unfold TypeOk at h ⊢
  rw [honce, hinst, hmade]
  cases hB : s.once B with
  | fresh =>
    rw [hB] at h
    exact h
  | running u =>
    rw [hB] at h
    obtain ⟨hmem, f, hf, hty, hinit⟩ := h
    exact ⟨hclean _ hmem, f, hframes u f hf hty hinit, hty, hinit⟩
  | done =>
    rw [hB] at h
    exact ⟨hclean _ h.1, h.2⟩

omit [DecidableEq Ty] [DecidableEq Tid] in
/-- A call that runs `InstanceInit` is the only one of its type past `pthread_once`. -/
theorem Inv.early (hi : Inv dep s) (ht : s.stack t = ⟨A, pc⟩ :: rest) (hinit : (⟨A, pc⟩ : Frame Ty).inInit = true) :
    s.once A = .running t ∧ (∀ g ∈ rest, g.ty = A → g.early) ∧ ∀ u, u ≠ t → ∀ g ∈ s.stack u, g.ty = A → g.early := by
  have htop := hi.frames t ⟨A, pc⟩ (by rw [ht]; exact List.mem_cons_self)
  have honce : s.once A = .running t := by
    cases pc with
    | construct | store p | leave => exact htop.1
    | enter | once | ret => cases hinit
  -- what a frame of `A` in the stack of `u` can be
  have hcases : ∀ u, ∀ g ∈ s.stack u, g.ty = A → g.early ∨ g.inInit = true ∧ u = t := by
    intro u g hg hty
    have hok := hi.frames u g hg
    unfold Frame.Ok at hok
    cases hpc : g.pc with
    | enter => exact Or.inl (Or.inl hpc)
    | once => exact Or.inl (Or.inr hpc)
    | construct | store p | leave =>
      rw [hpc] at hok
      have heq := hok.1
      rw [hty, honce] at heq
      cases heq
      exact Or.inr ⟨by simp [Frame.inInit, hpc], rfl⟩
    | ret =>
      rw [hpc] at hok
      simp only [hty, honce] at hok
      cases hok
  refine ⟨honce, fun g hg hty => ?_, fun u hu g hg hty => ?_⟩
  · have hmem : g ∈ s.stack t := by
      rw [ht]
      exact List.mem_cons_of_mem _ hg
    have hdistinct := hi.distinct t
    rw [ht] at hdistinct
    rcases hcases t g hmem hty with h | ⟨hg', _⟩
    · exact h
    · exact absurd hty.symm ((List.pairwise_cons.1 hdistinct).1 g hg hinit hg')
  · rcases hcases u g hg hty with h | ⟨_, hut⟩
    · exact h
    · exact absurd hut hu

omit [DecidableEq Ty] [DecidableEq Tid] in
theorem Inv.early_fresh (hi : Inv dep s) (hA : s.once A = .fresh) {u : Tid} {g : Frame Ty} (hg : g ∈ s.stack u)
    (hty : g.ty = A) : g.early := by
  have hok := hi.frames u g hg
  unfold Frame.Ok at hok
  cases hpc : g.pc with
  | enter => exact Or.inl hpc
  | once => exact Or.inr hpc
  | construct | store p | leave =>
    rw [hpc] at hok
    have heq := hok.1
    rw [hty, hA] at heq
    cases heq
  | ret =>
    rw [hpc] at hok
    simp only [hty, hA] at hok
    cases hok

omit [DecidableEq Ty] in
/-- The top call of `t` goes on. -/
theorem inv_goto (hi : Inv dep s) (ht : s.stack t = ⟨A, pc⟩ :: rest)
    (hstack : s'.stack = update s.stack t (⟨A, k⟩ :: rest)) (hrets : s'.rets = s.rets)
    (hother : ∀ B, B ≠ A → Same s s' B) (hclean : ∀ B ∈ s.cleaners, B ∈ s'.cleaners) (hnodup : s'.cleaners.Nodup)
    (hA : Same s s' A ∨ s.once A ≠ .done ∧ (∀ g ∈ rest, g.ty = A → g.early) ∧
      ∀ u, u ≠ t → ∀ g ∈ s.stack u, g.ty = A → g.early)
    (hinit : (⟨A, k⟩ : Frame Ty).inInit = true → ∀ g ∈ rest, g.inInit = true → A ≠ g.ty)
    (htop : (⟨A, k⟩ : Frame Ty).Ok s' t) (htype : TypeOk s' A) : Inv dep s' := by
  have hmem : ∀ g ∈ rest, g ∈ s.stack t := by
    intro g hg
    rw [ht]
    exact List.mem_cons_of_mem _ hg
  have hsame : ∀ g : Frame Ty, (g.ty = A → g.early) ∨ Same s s' A → Same s s' g.ty ∨ g.early := by
    intro g hg
    by_cases hty : g.ty = A
    · rcases hg with hg | hg
      · exact Or.inr (hg hty)
      · exact Or.inl (hty ▸ hg)
    · exact Or.inl (hother _ hty)
  refine ⟨fun u g hg => ?_, fun B => ?_, fun u => ?_, fun u => ?_, hnodup, fun B r hr => ?_⟩
  · rw [hstack] at hg
    by_cases hu : u = t
    · subst hu
      rw [update_self] at hg
      rcases List.mem_cons.1 hg with rfl | hg
      · exact htop
      · exact (hi.frames u g (hmem g hg)).keep (hsame g (hA.symm.imp_left fun h => h.2.1 g hg)) hclean
    · rw [update_of_ne hu] at hg
      exact (hi.frames u g hg).keep (hsame g (hA.symm.imp_left fun h => h.2.2 u hu g hg)) hclean
  · by_cases hB : B = A
    · exact hB ▸ htype
    · refine (hi.types B).keep (hother B hB) hclean fun u f hf hty _ => ?_
      rw [hstack]
      by_cases hu : u = t
      · subst hu
        rw [update_self]
        rw [ht] at hf
        rcases List.mem_cons.1 hf with rfl | hf
        · exact absurd hty.symm hB
        · exact List.mem_cons_of_mem _ hf
      · rwa [update_of_ne hu]
  · rw [hstack]
    by_cases hu : u = t
    · subst hu
      rw [update_self]
      have hdistinct := hi.distinct u
      rw [ht] at hdistinct
      exact List.pairwise_cons.2 ⟨fun g hg h => hinit h g hg, (List.pairwise_cons.1 hdistinct).2⟩
    · rw [update_of_ne hu]
      exact hi.distinct u
  · rw [hstack]
    by_cases hu : u = t
    · subst hu
      rw [update_self]
      have hbelow := hi.below u
      rw [ht] at hbelow
      cases rest with
      | nil => exact .singleton _
      | cons g rest =>
        rw [List.isChain_cons_cons] at hbelow ⊢
        exact hbelow
    · rw [update_of_ne hu]
      exact hi.below u
  · rw [hrets] at hr
    obtain ⟨hsome, hinst, honce⟩ := hi.rets B r hr
    by_cases hB : B = A
    · subst hB
      rcases hA with ⟨ho, hn, _⟩ | ⟨hne, _⟩
      · exact ⟨hsome, hinst.trans hn.symm, ho.trans honce⟩
      · exact absurd honce hne
    · obtain ⟨ho, hn, _⟩ := hother B hB
      exact ⟨hsome, hinst.trans hn.symm, ho.trans honce⟩

omit [DecidableEq Ty] in
/-- The stack of `t` is another and nothing else happens to the types: a call is made, or returns. -/
theorem inv_stack (hi : Inv dep s) {fs : List (Frame Ty)} {rets : List (Ty × Option Nat)}
    (hframes : ∀ g ∈ fs, g ∈ s.stack t ∨ g.pc = .enter) (hinits : ∀ g ∈ s.stack t, g.inInit = true → g ∈ fs)
    (hdistinct : fs.Pairwise fun f g => f.inInit = true → g.inInit = true → f.ty ≠ g.ty)
    (hbelow : fs.IsChain (Below dep))
    (hrets : ∀ A r, (A, r) ∈ rets → r.isSome = true ∧ r = s.inst A ∧ s.once A = .done) :
    Inv dep { s with stack := update s.stack t fs, rets := rets } := by
  have hsame : ∀ B, Same s { s with stack := update s.stack t fs, rets := rets } B := fun _ => ⟨rfl, rfl, rfl⟩
  refine ⟨fun u g hg => ?_, fun B => ?_, fun u => ?_, fun u => ?_, hi.cleaners, hrets⟩
  · by_cases hu : u = t
    · subst hu
      simp only [update_self] at hg
      rcases hframes g hg with hg | hg
      · exact (hi.frames u g hg).keep (Or.inl (hsame _)) fun _ h => h
      · simp [Frame.Ok, hg]
    · simp only [update_of_ne hu] at hg
      exact (hi.frames u g hg).keep (Or.inl (hsame _)) fun _ h => h
  · refine (hi.types B).keep (hsame B) (fun _ h => h) fun u f hf _ hinit => ?_
    by_cases hu : u = t
    · subst hu
      simpa only [update_self] using hinits f hf hinit
    · simpa only [update_of_ne hu] using hf
  · by_cases hu : u = t
    · subst hu
      simpa only [update_self] using hdistinct
    · simpa only [update_of_ne hu] using hi.distinct u
  · by_cases hu : u = t
    · subst hu
      simpa only [update_self] using hbelow
    · simpa only [update_of_ne hu] using hi.below u

omit [DecidableEq Ty] in
/-- A type to which nothing happens while a call of it goes on that does not run `InstanceInit`. -/
theorem typeOk_goto (hi : Inv dep s) (ht : s.stack t = ⟨A, pc⟩ :: rest) (hpc : (⟨A, pc⟩ : Frame Ty).inInit = false)
    (hstack : s'.stack = update s.stack t (⟨A, k⟩ :: rest)) (hsame : Same s s' A)
    (hclean : ∀ B ∈ s.cleaners, B ∈ s'.cleaners) : TypeOk s' A := by
  refine (hi.types A).keep hsame hclean fun u f hf _ hinit => ?_
  rw [hstack]
  by_cases hu : u = t
  · subst hu
    rw [ht] at hf
    rw [update_self]
    rcases List.mem_cons.1 hf with rfl | hf
    · rw [hpc] at hinit
      cases hinit
    · exact List.mem_cons_of_mem _ hf
  · rwa [update_of_ne hu]

omit [DecidableEq Ty] [DecidableEq Tid] in
theorem Frame.early.not_inInit {f : Frame Ty} (h : f.early) : f.inInit = false := by
  rcases h with h | h <;> simp [inInit, h]

theorem Inv.exec (hi : Inv dep s) (ht : s.stack t = ⟨A, pc⟩ :: rest) (he : exec s t A rest pc = some s') :
    Inv dep s' := by
  have htop := hi.frames t ⟨A, pc⟩ (by rw [ht]; exact List.mem_cons_self)
  have hrest := hi.distinct t
  rw [ht, List.pairwise_cons] at hrest
  cases pc with
  | enter =>
    cases he
    have hmem : A ∈ (if A ∈ s.cleaners then s.cleaners else s.cleaners ++ [A]) := by
      split <;> simp [*]
    have hclean : ∀ B ∈ s.cleaners, B ∈ (if A ∈ s.cleaners then s.cleaners else s.cleaners ++ [A]) := by
      intro B hB
      split <;> simp [*]
    refine inv_goto (k := .once) hi ht rfl rfl (fun _ _ => ⟨rfl, rfl, rfl⟩) hclean ?_ (Or.inl ⟨rfl, rfl, rfl⟩) nofun
      hmem ?_
    · simp only [Sys.goto]
      split
      · exact hi.cleaners
      · rename_i hA
        exact List.nodup_append.2 ⟨hi.cleaners, List.nodup_singleton A, by
          rintro B hB C hC rfl
          exact hA (List.mem_singleton.1 hC ▸ hB)⟩
    · exact typeOk_goto hi ht rfl rfl ⟨rfl, rfl, rfl⟩ hclean
  | once =>
    simp only [exec] at he
    split at he
    · rename_i hA
      cases he
      have hfresh := hi.types A
      simp only [TypeOk, hA] at hfresh
      have hearly : ∀ u, ∀ g ∈ s.stack u, g.ty = A → g.early := fun u g hg hty => hi.early_fresh hA hg hty
      have hlow : ∀ g ∈ rest, g.ty = A → g.early :=
        fun g hg => hearly t g (by rw [ht]; exact List.mem_cons_of_mem _ hg)
      refine inv_goto (k := .construct) hi ht rfl rfl ?_ (fun _ h => h) hi.cleaners
        (Or.inr ⟨by simp [hA], hlow, fun u _ => hearly u⟩) ?_ ?_ ?_
      · intro B hB
        exact ⟨update_of_ne hB _ _, rfl, rfl⟩
      · rintro _ g hg hinit rfl
        rw [(hlow g hg rfl).not_inInit] at hinit
        cases hinit
      · exact ⟨update_self _ _ _, hfresh⟩
      · simp only [TypeOk, Sys.goto, update_self]
        exact ⟨htop, ⟨A, .construct⟩, List.mem_cons_self, rfl, rfl⟩
    · cases he
    · rename_i hA
      cases he
      exact inv_goto (k := .ret) hi ht rfl rfl (fun _ _ => ⟨rfl, rfl, rfl⟩) (fun _ h => h) hi.cleaners
        (Or.inl ⟨rfl, rfl, rfl⟩) nofun hA (typeOk_goto hi ht rfl rfl ⟨rfl, rfl, rfl⟩ fun _ h => h)
  | construct => cases he
  | store p =>
    cases he
    obtain ⟨honce, _, hmade⟩ := htop
    obtain ⟨_, hlow, hothers⟩ := hi.early ht rfl
    have hrunning := hi.types A
    simp only [TypeOk, honce] at hrunning
    refine inv_goto (k := .leave) hi ht rfl rfl ?_ (fun _ h => h) hi.cleaners
      (Or.inr ⟨by simp [honce], hlow, hothers⟩) (fun _ g hg => hrest.1 g hg rfl) ?_ ?_
    · intro B hB
      exact ⟨rfl, update_of_ne hB _ _, rfl⟩
    · exact ⟨honce, by simp [Sys.goto], hmade⟩
    · simp only [TypeOk, Sys.goto, honce, update_self]
      exact ⟨hrunning.1, ⟨A, .leave⟩, List.mem_cons_self, rfl, rfl⟩
  | leave =>
    cases he
    obtain ⟨honce, hinst, hmade⟩ := htop
    obtain ⟨_, hlow, hothers⟩ := hi.early ht rfl
    have hrunning := hi.types A
    simp only [TypeOk, honce] at hrunning
    refine inv_goto (k := .ret) hi ht rfl rfl ?_ (fun _ h => h) hi.cleaners
      (Or.inr ⟨by simp [honce], hlow, hothers⟩) nofun ?_ ?_
    · intro B hB
      exact ⟨update_of_ne hB _ _, rfl, rfl⟩
    · exact update_self _ _ _
    · simp only [TypeOk, Sys.goto, update_self]
      exact ⟨hrunning.1, hinst, hmade⟩
  | ret =>
    cases he
    have hdone : s.once A = .done := htop
    have hbelow := hi.below t
    rw [ht] at hbelow
    refine inv_stack hi ?_ ?_ hrest.2 hbelow.of_cons ?_
    · intro g hg
      rw [ht]
      exact Or.inl (List.mem_cons_of_mem _ hg)
    · intro g hg hinit
      rw [ht] at hg
      rcases List.mem_cons.1 hg with rfl | hg
      · cases hinit
      · exact hg
    · intro B r hr
      rcases List.mem_cons.1 hr with hr | hr
      · cases hr
        have htype := hi.types A
        simp only [TypeOk, hdone] at htype
        exact ⟨htype.2.1, rfl, hdone⟩
      · exact hi.rets B r hr

theorem Step.inv {a : Act Ty Tid} (h : Step dep s a s') (hi : Inv dep s) : Inv dep s' := by
  cases h with
  | @call t A ht =>
    refine inv_stack hi ?_ ?_ (List.pairwise_singleton _ _) (.singleton _) hi.rets
    · intro g hg
      exact Or.inr (List.mem_singleton.1 hg ▸ rfl)
    · intro g hg
      rw [ht] at hg
      cases hg
  | exec ht he => exact hi.exec ht he
  | @nested t A B rest ht hdep =>
    have hdistinct := hi.distinct t
    have hbelow := hi.below t
    rw [ht] at hdistinct hbelow
    refine inv_stack hi ?_ ?_ (List.pairwise_cons.2 ⟨nofun, hdistinct⟩) (.cons_cons ⟨rfl, hdep⟩ hbelow) hi.rets
    · intro g hg
      rw [ht]
      rcases List.mem_cons.1 hg with rfl | hg
      · exact Or.inr rfl
      · exact Or.inl hg
    · intro g hg _
      rw [ht] at hg
      exact List.mem_cons_of_mem _ hg
  | @built t A p rest ht =>
    obtain ⟨honce, hlow, hothers⟩ := hi.early ht rfl
    have htop := hi.frames t ⟨A, .construct⟩ (by rw [ht]; exact List.mem_cons_self)
    have hrest := hi.distinct t
    rw [ht, List.pairwise_cons] at hrest
    obtain ⟨_, hinst, hmade⟩ := htop
    have hrunning := hi.types A
    simp only [TypeOk, honce] at hrunning
    refine inv_goto (k := .store p) hi ht rfl rfl ?_ (fun _ h => h) hi.cleaners
      (Or.inr ⟨by simp [honce], hlow, hothers⟩) (fun _ g hg => hrest.1 g hg rfl) ?_ ?_
    · intro B hB
      exact ⟨rfl, rfl, update_of_ne hB _ _⟩
    · exact ⟨honce, hinst, (update_self _ _ _).trans (congrArg (· + 1) hmade)⟩
    · simp only [TypeOk, Sys.goto, honce]
      exact ⟨hrunning.1, ⟨A, .store p⟩, by simp, rfl, rfl⟩

omit [DecidableEq Ty] [DecidableEq Tid] in
theorem inv_init : Inv dep (Sys.init : Sys Ty Tid) :=
  ⟨fun _ _ h => (nomatch h), fun _ => ⟨rfl, rfl⟩, fun _ => .nil, fun _ => .nil, .nil, fun _ _ h => (nomatch h)⟩

theorem inv_reach (hr : Reach (Step dep) Sys.init s) : Inv dep s := hr.inv inv_init fun _ _ _ hi hs => hs.inv hi

end

/-! ## Main results -/

variable {dep : Ty → Ty → Prop} {s : Sys Ty Tid}

omit [DecidableEq Ty] [DecidableEq Tid] in
/-- A call that runs `InstanceInit` is on top, or the call above it is on top or in a constructor too. -/
theorem above {fs : List (Frame Ty)} (h : fs.IsChain (Below dep)) {f : Frame Ty} (hf : f ∈ fs) :
    (∃ rest, fs = f :: rest) ∨
      ∃ g, dep f.ty g.ty ∧ ((∃ rest, fs = g :: rest) ∨ g ∈ fs ∧ g.pc = .construct) := by
  induction fs with
  | nil => cases hf
  | cons g fs ih =>
    rcases List.mem_cons.1 hf with rfl | hf
    · exact Or.inl ⟨fs, rfl⟩
    · cases fs with
      | nil => cases hf
      | cons g' fs =>
        rw [List.isChain_cons_cons] at h
        rcases ih h.2 hf with ⟨rest, heq⟩ | ⟨k, hdep, ⟨rest, heq⟩ | ⟨hk, hkpc⟩⟩
        · cases heq
          exact Or.inr ⟨g, h.1.2, Or.inl ⟨_, rfl⟩⟩
        · cases heq
          exact Or.inr ⟨g', hdep, Or.inr ⟨by simp, h.1.1⟩⟩
        · exact Or.inr ⟨k, hdep, Or.inr ⟨List.mem_cons_of_mem _ hk, hkpc⟩⟩

/-- The top call of a thread can go on, unless it waits for the `InstanceInit` of its type. -/
theorem top_goes_on {t : Tid} {f : Frame Ty} {rest : List (Frame Ty)} (ht : s.stack t = f :: rest)
    (hf : f.pc = .once → ∀ u, s.once f.ty ≠ .running u) : ∃ a s', Step dep s a s' ∧ ∀ u B, a ≠ .call u B := by
  obtain ⟨A, pc⟩ := f
  cases pc with
  | enter | store p | leave | ret => exact ⟨.exec t, _, .exec ht rfl, nofun⟩
  | once =>
    cases hA : s.once A with
    | fresh | done => exact ⟨.exec t, _, .exec ht (by simp only [exec, hA]; rfl), nofun⟩
    | running u => exact absurd hA (hf rfl u)
  | construct => exact ⟨.built t 0, _, .built ht, nofun⟩

/-- `~SingletonCleaner` of a type: the instances afterwards, and what was deleted so far. -/
def clean (A : Ty) (st : (Ty → Option Nat) × List (Ty × Nat)) : (Ty → Option Nat) × List (Ty × Nat) :=
  match st.1 A with
  | some p => (update st.1 A none, st.2 ++ [(A, p)])
  | none => st

/-- The statics are destroyed, the last one made first. -/
def exit (s : Sys Ty Tid) : (Ty → Option Nat) × List (Ty × Nat) := s.cleaners.foldr clean (s.inst, [])

/-- What the cleaner of a type deletes. -/
def deletes (inst : Ty → Option Nat) (A : Ty) : Option (Ty × Nat) := (inst A).map fun p => (A, p)

theorem foldr_clean {inst : Ty → Option Nat} {l : List Ty} (h : l.Nodup) :
    l.foldr clean (inst, []) = (fun A => if A ∈ l then none else inst A, l.reverse.filterMap (deletes inst)) := by
  induction l with
  | nil => simp
  | cons A l ih =>
    rw [List.nodup_cons] at h
    simp only [List.foldr_cons, ih h.2, clean, if_neg h.1, List.reverse_cons, List.filterMap_append]
    cases hA : inst A with
    | none =>
      simp only [List.filterMap_cons, deletes, hA, Option.map_none, List.filterMap_nil, List.append_nil, Prod.mk.injEq,
        and_true]
      ext B
      by_cases hB : B = A
      · simp [hB, hA]
      · simp [hB]
    | some p =>
      simp only [List.filterMap_cons, deletes, hA, Option.map_some, List.filterMap_nil, Prod.mk.injEq, and_true]
      ext B
      by_cases hB : B = A
      · simp [hB]
      · simp [hB]

omit [DecidableEq Ty] [DecidableEq Tid] in
theorem Inv.cleaner (hi : Inv dep s) {A : Ty} (hA : s.once A ≠ .fresh) : A ∈ s.cleaners := by
  have htype := hi.types A
  unfold TypeOk at htype
  cases honce : s.once A with
  | fresh => exact absurd honce hA
  | running t | done =>
    rw [honce] at htype
    exact htype.1

omit [DecidableEq Ty] in
theorem map_deletes (inst : Ty → Option Nat) (l : List Ty) :
    (l.filterMap (deletes inst)).map Prod.fst = l.filter fun A => (inst A).isSome := by
  induction l with
  | nil => rfl
  | cons A l ih =>
    cases hA : inst A with
    | none => simp [deletes, hA, ← ih]
    | some p => simp [deletes, hA, ← ih]

/-- **Every object is deleted, and once**, at the end of the program with no call in progress. -/
theorem reach_exit (hr : Reach (Step dep) Sys.init s) (hidle : ∀ t, s.stack t = []) :
    (exit s).1 = (fun _ => none) ∧
      ∀ A, ((exit s).2.map Prod.fst).count A = s.made A ∧ ∀ p, (A, p) ∈ (exit s).2 ↔ s.inst A = some p := by
  have hi := inv_reach hr
  -- with no call in progress a type has not been asked for or has its instance
  have htype : ∀ A, (s.inst A = none ∧ s.made A = 0) ∨ (A ∈ s.cleaners ∧ (s.inst A).isSome = true ∧ s.made A = 1) := by
    intro A
    have htype := hi.types A
    unfold TypeOk at htype
    cases honce : s.once A with
    | fresh =>
      rw [honce] at htype
      exact Or.inl htype
    | running t =>
      rw [honce] at htype
      obtain ⟨_, f, hf, _⟩ := htype
      rw [hidle t] at hf
      cases hf
    | done =>
      rw [honce] at htype
      exact Or.inr htype
  simp only [exit, foldr_clean hi.cleaners, map_deletes]
  refine ⟨?_, fun A => ⟨?_, fun p => ?_⟩⟩
  · ext1 A
    rcases htype A with ⟨hnone, _⟩ | ⟨hmem, _⟩
    · rw [hnone, ite_self]
    · rw [if_pos hmem]
  · rcases htype A with ⟨hnone, hmade⟩ | ⟨hmem, hsome, hmade⟩
    · rw [hmade, List.count_eq_zero]
      simp [hnone]
    · have hcount := List.count_filter (p := fun A => (s.inst A).isSome) (l := s.cleaners.reverse) hsome
      rw [hmade, hcount]
      exact List.count_eq_one_of_mem (List.nodup_reverse.2 hi.cleaners) (List.mem_reverse.2 hmem)
  · rw [List.mem_filterMap]
    constructor
    · rintro ⟨B, _, hB⟩
      obtain ⟨q, hq, heq⟩ := Option.map_eq_some_iff.1 hB
      cases heq
      exact hq
    · intro hp
      refine ⟨A, ?_, by simp [deletes, hp]⟩
      rcases htype A with ⟨hnone, _⟩ | ⟨hmem, _⟩
      · rw [hp] at hnone
        cases hnone
      · exact List.mem_reverse.2 hmem

/-- The cleaners that are made stay in their order. -/
theorem Step.cleaners {s' : Sys Ty Tid} {a : Act Ty Tid} (h : Step dep s a s') : s.cleaners.IsPrefix s'.cleaners := by
  cases h with
  | call ht | nested ht _ | built ht => exact List.prefix_rfl
  | @exec _ t A pc rest ht he =>
    cases pc with
    | enter =>
      cases he
      simp only [Sys.goto]
      split
      · exact List.prefix_rfl
      · exact List.prefix_append _ _
    | once =>
      simp only [PthreadSingleton.exec] at he
      split at he
      · cases he
        exact List.prefix_rfl
      · cases he
      · cases he
        exact List.prefix_rfl
    | construct => cases he
    | store p | leave | ret =>
      cases he
      exact List.prefix_rfl

theorem run_cleaners {tr : List (Act Ty Tid × Sys Ty Tid)} (hr : IsRun (Step dep) s tr) :
    s.cleaners.IsPrefix (last s tr).cleaners := by
  induction tr generalizing s with
  | nil => exact List.prefix_rfl
  | cons x tr ih => exact hr.1.cleaners.trans (ih hr.2)

/-- **What a constructor asks for goes first**: if the first call of `Instance` of `B` comes from within the constructor
of `A`, then at the end `B` is deleted before `A`. -/
theorem run_exit_order {s' : Sys Ty Tid} {t : Tid} {A B : Ty} {rest : List (Frame Ty)}
    (hr : Reach (Step dep) Sys.init s) (ht : s.stack t = ⟨B, .enter⟩ :: rest) (hA : ⟨A, .construct⟩ ∈ rest)
    (hB : B ∉ s.cleaners) (hs : Step dep s (.exec t) s') {tr : List (Act Ty Tid × Sys Ty Tid)}
    (hrun : IsRun (Step dep) s' tr) {p q : Nat} (hp : (last s' tr).inst A = some p)
    (hq : (last s' tr).inst B = some q) :
    List.Sublist [(B, q), (A, p)] (exit (last s' tr)).2 := by
  have hi := inv_reach hr
  have hmem : A ∈ s.cleaners := by
    have hok := hi.frames t ⟨A, .construct⟩ (by rw [ht]; exact List.mem_cons_of_mem _ hA)
    apply hi.cleaner
    rw [hok.1]
    nofun
  have hmade : s'.cleaners = s.cleaners ++ [B] := by
    cases hs with
    | exec ht' he =>
      rw [ht] at ht'
      cases ht'
      cases he
      exact if_neg hB
  have hpair : List.Sublist [A, B] (last s' tr).cleaners := by
    apply List.Sublist.trans _ (run_cleaners hrun).sublist
    rw [hmade]
    exact (List.singleton_sublist.2 hmem).append (List.Sublist.refl [B])
  have hlast := inv_reach (hrun.reach (hr.tail hs))
  simp only [exit, foldr_clean hlast.cleaners]
  have hdeletes := hpair.reverse.filterMap (deletes (last s' tr).inst)
  simpa [deletes, hp, hq] using hdeletes

/-! ## One thread and two types -/

/-- The constructor of `1` calls `Instance` of `0`. -/
def NeedsZero (A B : Fin 2) : Prop := A = 1 ∧ B = 0

/-- The state after the action, which is one that `Step` allows. -/
def Sys.next (s : Sys Ty Tid) : Act Ty Tid → Sys Ty Tid
  | .call t A => s.goto t A .enter []
  | .exec t =>
    match s.stack t with
    | [] => s
    | ⟨A, pc⟩ :: rest => (exec s t A rest pc).getD s
  | .nested t B => s.goto t B .enter (s.stack t)
  | .built t p =>
    match s.stack t with
    | [] => s
    | ⟨A, _⟩ :: rest => Sys.goto { s with made := update s.made A (s.made A + 1) } t A (.store p) rest

/-- The run of a list of actions. -/
def trace : Sys Ty Tid → List (Act Ty Tid) → List (Act Ty Tid × Sys Ty Tid)
  | _, [] => []
  | s, a :: as => (a, s.next a) :: trace (s.next a) as

/-- The thread goes into the constructor of `1` and comes to `Instance` of `0` there. -/
def asking : List (Act (Fin 2) Unit × Sys (Fin 2) Unit) :=
  trace Sys.init [.call () 1, .exec (), .exec (), .nested () 0]

def asked : Sys (Fin 2) Unit := last Sys.init asking

/-- Both calls go on until they have returned. -/
def answering : List (Act (Fin 2) Unit × Sys (Fin 2) Unit) :=
  trace (asked.next (.exec ())) [.exec (), .built () 5, .exec (), .exec (), .exec (), .built () 6, .exec (), .exec (), .exec ()]

def answered : Sys (Fin 2) Unit := last (asked.next (.exec ())) answering

theorem asked_reach : Reach (Step NeedsZero) Sys.init asked := by
  have hrun : IsRun (Step NeedsZero) Sys.init asking :=
    ⟨.call rfl, .exec rfl rfl, .exec rfl rfl, .nested rfl ⟨rfl, rfl⟩, trivial⟩
  exact hrun.reach .refl

theorem answering_isRun : IsRun (Step NeedsZero) (asked.next (.exec ())) answering :=
  ⟨.exec rfl rfl, .built rfl, .exec rfl rfl, .exec rfl rfl, .exec rfl rfl, .built rfl, .exec rfl rfl, .exec rfl rfl,
    .exec rfl rfl, trivial⟩

theorem asked_step : Step NeedsZero asked (.exec ()) (asked.next (.exec ())) := .exec rfl rfl

theorem answered_reach : Reach (Step NeedsZero) Sys.init answered := answering_isRun.reach (asked_reach.tail asked_step)

theorem needsZero_wellFounded : WellFounded fun B A => NeedsZero A B := by
  have hsub : Subrelation (fun B A => NeedsZero A B) (InvImage (· < ·) Fin.val) := by
    rintro B A ⟨rfl, rfl⟩
    exact Nat.zero_lt_one
  exact hsub.wf (InvImage.wf _ Nat.lt_wfRel.wf)

theorem exit_answered :
    (exit answered).1 = (fun _ => none) ∧
      ∀ A, ((exit answered).2.map Prod.fst).count A = answered.made A ∧
        ∀ p, (A, p) ∈ (exit answered).2 ↔ answered.inst A = some p :=
  reach_exit answered_reach fun _ => rfl

theorem exit_order_answered : List.Sublist [(0, 5), (1, 6)] (exit answered).2 := by
  have hstack : asked.stack () = [⟨0, .enter⟩, ⟨1, .construct⟩] := rfl
  exact run_exit_order asked_reach hstack List.mem_cons_self (by decide) asked_step answering_isRun rfl rfl

end TinyUtils.PthreadSingleton
