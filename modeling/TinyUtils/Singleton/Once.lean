import TinyUtils.Singleton.Model
/-!
# `Singleton<T>::Instance` constructs once

At most one call has `lock_` at a time, over all threads and types. So a type is built by one call
only, and only while its `instance_` is null; once set, `instance_` never changes. Exceptions and
nested calls can leave `lock_` set for ever, but they do not break this.
-/

namespace TinyUtils.Singleton

open Function Threads Runs

variable {Ty Tid : Type} [Fintype Tid]

/-- The number of calls in `p`, over all threads. -/
def num (p : Frame Ty → Bool) (stack : Tid → List (Frame Ty)) : Nat := total (fun fs => fs.countP p) stack

theorem num_pos {p : Frame Ty → Bool} {stack : Tid → List (Frame Ty)} {t : Tid} {f : Frame Ty}
    (h : f ∈ stack t) (hp : p f = true) : 0 < num p stack := by
  have h1 : (stack t).countP p ≤ num p stack := le_total (fun fs => List.countP p fs) stack t
  have h2 : 0 < (stack t).countP p := List.countP_pos_iff.2 ⟨f, h, hp⟩
  omega

theorem exists_of_num_pos {p : Frame Ty → Bool} {stack : Tid → List (Frame Ty)} (h : 0 < num p stack) :
    ∃ t, ∃ f ∈ stack t, p f = true := by
  by_contra hno
  have h0 : num p stack = 0 := total_eq_zero.2 fun t =>
    List.countP_eq_zero.2 fun f hf hp => hno ⟨t, f, hf, hp⟩
  omega

theorem num_mono {p q : Frame Ty → Bool} (h : ∀ f, p f = true → q f = true) (stack : Tid → List (Frame Ty)) :
    num p stack ≤ num q stack :=
  Finset.sum_le_sum fun _ _ => List.countP_mono_left fun f _ => h f

section
variable [DecidableEq Tid] {S : Tid → List (Frame Ty)} {t : Tid} {f : Frame Ty} {rest : List (Frame Ty)}

theorem num_update (p : Frame Ty → Bool) (fs : List (Frame Ty)) :
    num p (update S t fs) + (S t).countP p = num p S + fs.countP p :=
  total_update _ S t fs

theorem num_goto (p : Frame Ty → Bool) (g : Frame Ty) (h : S t = f :: rest) :
    num p (update S t (g :: rest)) + (if p f then 1 else 0) = num p S + (if p g then 1 else 0) := by
  have := num_update (S := S) (t := t) p (g :: rest)
  rw [h, List.countP_cons, List.countP_cons] at this
  omega

theorem num_pop (p : Frame Ty → Bool) (h : S t = f :: rest) :
    num p (update S t rest) + (if p f then 1 else 0) = num p S := by
  have := num_update (S := S) (t := t) p rest
  rw [h, List.countP_cons] at this
  omega

theorem num_push (p : Frame Ty → Bool) (g : Frame Ty) :
    num p (update S t (g :: S t)) = num p S + (if p g then 1 else 0) := by
  have := num_update (S := S) (t := t) p (g :: S t)
  rw [List.countP_cons] at this
  omega

omit [Fintype Tid] in
/-- The calls after a change of the S of `t` to new calls on top of old ones. -/
theorem mem_update {gs : List (Frame Ty)} {u : Tid} {g : Frame Ty} (hsub : ∀ g ∈ gs, g ∈ rest ∨ g = f)
    (h : ∀ g ∈ rest, g ∈ S t) (hg : g ∈ update S t gs u) : (∃ v, g ∈ S v) ∨ g = f := by
  by_cases hut : u = t
  · subst hut
    rw [update_self] at hg
    rcases hsub g hg with hg | hg
    · exact Or.inl ⟨u, h g hg⟩
    · exact Or.inr hg
  · rw [update_of_ne hut] at hg
    exact Or.inl ⟨u, hg⟩

end

variable [DecidableEq Ty]

/-- What keeps a singleton single. -/
structure Inv (s : Sys Ty Tid) : Prop where
  /-- One call has `lock_`, if any, and then the flag is set. -/
  crit_le : num Frame.critical s.stack ≤ 1
  crit_flag : num Frame.critical s.stack = 1 → s.flag = true
  /-- A constructed object is in `instance_` or about to be stored there. -/
  made_eq : ∀ A, s.made A = (if (s.inst A).isSome then 1 else 0) + num (Frame.storing A) s.stack
  /-- Nobody builds a type that has its instance. -/
  building : ∀ A, (s.inst A).isSome = true → num (Frame.building A) s.stack = 0
  late : ∀ t f, f ∈ s.stack t → f.late = true → (s.inst f.ty).isSome = true
  rets : ∀ A r, (A, r) ∈ s.rets → r.isSome = true ∧ r = s.inst A

theorem building_critical (A : Ty) (f : Frame Ty) (h : f.building A = true) : f.critical = true := by
  unfold Frame.building at h
  unfold Frame.critical
  split at h <;> simp_all

theorem storing_building (A : Ty) (f : Frame Ty) (h : f.storing A = true) : f.building A = true := by
  unfold Frame.storing at h
  unfold Frame.building
  split at h <;> simp_all

theorem inv_init : Inv (Sys.init : Sys Ty Tid) := by
  have h0 : ∀ p : Frame Ty → Bool, num p (Sys.init : Sys Ty Tid).stack = 0 := fun p =>
    total_eq_zero.2 fun _ => rfl
  refine ⟨by rw [h0]; omega, fun h => ?_, fun A => ?_, fun A _ => h0 _, fun t f hf => ?_, fun A r hr => ?_⟩
  · rw [h0] at h; cases h
  · rw [h0]; rfl
  · cases hf
  · cases hr

/-- A step that touches neither an `instance_` nor the history. -/
theorem inv_stack {s : Sys Ty Tid} {flag : Bool} {stk : Tid → List (Frame Ty)} (hi : Inv s)
    (hc : num Frame.critical stk ≤ 1) (hf : num Frame.critical stk = 1 → flag = true)
    (hs : ∀ B, num (Frame.storing B) stk = num (Frame.storing B) s.stack)
    (hb : ∀ B, (s.inst B).isSome = true → num (Frame.building B) stk ≤ num (Frame.building B) s.stack)
    (hl : ∀ t f, f ∈ stk t → f.late = true → (s.inst f.ty).isSome = true) :
    Inv { s with flag := flag, stack := stk } := by
  refine ⟨hc, hf, fun B => ?_, fun B hB => ?_, hl, hi.rets⟩
  · have := hi.made_eq B
    simp only [hs B]
    exact this
  · have := hi.building B hB
    have := hb B hB
    simp only
    omega

variable [DecidableEq Tid]

/-- A statement that only moves its call on, and may set or clear `lock_`. -/
theorem inv_goto {s : Sys Ty Tid} {t : Tid} {A : Ty} {pc pc' : Pc} {rest : List (Frame Ty)} {flag : Bool}
    (hi : Inv s) (ht : s.stack t = ⟨A, pc⟩ :: rest)
    (hcrit : ((⟨A, pc'⟩ : Frame Ty).critical = (⟨A, pc⟩ : Frame Ty).critical ∧ (s.flag = true → flag = true)) ∨
      ((⟨A, pc⟩ : Frame Ty).critical = true ∧ (⟨A, pc'⟩ : Frame Ty).critical = false) ∨
      ((⟨A, pc⟩ : Frame Ty).critical = false ∧ (⟨A, pc'⟩ : Frame Ty).critical = true ∧
        s.flag = false ∧ flag = true))
    (hs : ∀ B, (⟨A, pc'⟩ : Frame Ty).storing B = (⟨A, pc⟩ : Frame Ty).storing B)
    (hb : ∀ B, (s.inst B).isSome = true → (⟨A, pc'⟩ : Frame Ty).building B = false)
    (hl : (⟨A, pc'⟩ : Frame Ty).late = true → (s.inst A).isSome = true) :
    Inv { s with flag := flag, stack := update s.stack t (⟨A, pc'⟩ :: rest) } := by
  have hn := fun p => num_goto p ⟨A, pc'⟩ ht
  have hle := hi.crit_le
  have hfl := hi.crit_flag
  have hc := hn Frame.critical
  refine inv_stack hi ?_ ?_ (fun B => ?_) (fun B hB => ?_) (fun u f hf hlate => ?_)
  · rcases hcrit with ⟨h, _⟩ | ⟨h1, h2⟩ | ⟨h1, h2, h3, _⟩
    · rw [h] at hc; omega
    · rw [h1, h2] at hc; simp only [↓reduceIte, Bool.false_eq_true] at hc; omega
    · have h0 : num Frame.critical s.stack ≠ 1 := fun h => by rw [hfl h] at h3; cases h3
      rw [h1, h2] at hc; simp only [↓reduceIte, Bool.false_eq_true] at hc; omega
  · intro h1'
    rcases hcrit with ⟨h, hfk⟩ | ⟨h1, h2⟩ | ⟨_, _, _, h4⟩
    · rw [h] at hc; exact hfk (hfl (by omega))
    · rw [h1, h2] at hc; simp only [↓reduceIte, Bool.false_eq_true] at hc; omega
    · exact h4
  · have := hn (Frame.storing B)
    rw [hs B] at this
    omega
  · have := hn (Frame.building B)
    rw [hb B hB] at this
    simp only [Bool.false_eq_true, ↓reduceIte] at this
    omega
  · rcases mem_update (f := ⟨A, pc'⟩) (fun g hg => (List.mem_cons.1 hg).symm)
      (fun g hg => by rw [ht]; exact List.mem_cons_of_mem _ hg) hf with ⟨v, hv⟩ | rfl
    · exact hi.late v f hv hlate
    · exact hl hlate

/-- A call that ends, by returning or by an exception of its constructor. -/
theorem inv_pop {s : Sys Ty Tid} {t : Tid} {f : Frame Ty} {rest : List (Frame Ty)} (hi : Inv s)
    (ht : s.stack t = f :: rest) (hs : ∀ B, f.storing B = false) :
    Inv { s with stack := update s.stack t rest } := by
  have hn := fun p => num_pop p ht
  have hc := hn Frame.critical
  have hle := hi.crit_le
  refine inv_stack hi (by omega) (fun h => ?_) (fun B => ?_) (fun B _ => ?_) (fun u g hg hlate => ?_)
  · split at hc
    · omega
    · exact hi.crit_flag (by omega)
  · have := hn (Frame.storing B)
    rw [hs B] at this
    simpa using this
  · have := hn (Frame.building B)
    omega
  · rcases mem_update (f := f) (fun g hg => Or.inl hg)
      (fun g hg => by rw [ht]; exact List.mem_cons_of_mem _ hg) hg with ⟨v, hv⟩ | rfl
    · exact hi.late v g hv hlate
    · exact hi.late t g (by rw [ht]; exact List.mem_cons_self) hlate

/-- A new call. -/
theorem inv_push {s : Sys Ty Tid} {t : Tid} {B : Ty} (hi : Inv s) :
    Inv { s with stack := update s.stack t (⟨B, .check⟩ :: s.stack t) } := by
  have hn := fun p => num_push (S := s.stack) (t := t) p ⟨B, .check⟩
  have hle := hi.crit_le
  refine inv_stack hi ?_ (fun h => hi.crit_flag ?_) (fun C => hn _) (fun C _ => (hn _).le) (fun u g hg hlate => ?_)
  · rw [hn]; exact hle
  · rw [hn] at h; exact h
  · rcases mem_update (f := ⟨B, .check⟩) (fun g hg => (List.mem_cons.1 hg).symm) (fun g hg => hg) hg
      with ⟨v, hv⟩ | rfl
    · exact hi.late v g hv hlate
    · cases hlate

/-- The constructor returns: the type has no instance yet, so this object is the first. -/
theorem inv_built {s : Sys Ty Tid} {t : Tid} {A : Ty} {p : Nat} {rest : List (Frame Ty)} (hi : Inv s)
    (ht : s.stack t = ⟨A, .construct⟩ :: rest) :
    Inv { s with stack := update s.stack t (⟨A, .store p⟩ :: rest), made := update s.made A (s.made A + 1) } := by
  have hn := fun q => num_goto q ⟨A, .store p⟩ ht
  have hc : num Frame.critical (update s.stack t (⟨A, .store p⟩ :: rest)) = num Frame.critical s.stack := by
    have := hn Frame.critical
    simp only [Frame.critical, ↓reduceIte] at this
    omega
  refine ⟨hc ▸ hi.crit_le, fun h => hi.crit_flag (hc ▸ h), fun B => ?_, fun B hB => ?_, fun u f hf hlate => ?_,
    hi.rets⟩
  · have h1 := hn (Frame.storing B)
    have h2 := hi.made_eq B
    simp only [Frame.storing, Bool.false_eq_true, ↓reduceIte, beq_iff_eq] at h1 ⊢
    by_cases hBA : B = A
    · subst hBA; rw [update_self]; simp only [↓reduceIte] at h1; omega
    · rw [update_of_ne hBA]; rw [if_neg (fun h => hBA h.symm)] at h1; omega
  · have h1 := hn (Frame.building B)
    have h2 := hi.building B hB
    rw [show (⟨A, .store p⟩ : Frame Ty).building B = (⟨A, .construct⟩ : Frame Ty).building B from rfl] at h1
    simp only
    omega
  · rcases mem_update (f := ⟨A, .store p⟩) (fun g hg => (List.mem_cons.1 hg).symm)
      (fun g hg => by rw [ht]; exact List.mem_cons_of_mem _ hg) hf with ⟨v, hv⟩ | rfl
    · exact hi.late v f hv hlate
    · cases hlate

/-- `instance_ = p`: the call that does this is the only one building the type, and nobody has returned
from `Instance` of it. -/
theorem inv_store {s : Sys Ty Tid} {t : Tid} {A : Ty} {p : Nat} {rest : List (Frame Ty)} (hi : Inv s)
    (ht : s.stack t = ⟨A, .store p⟩ :: rest) :
    Inv { s with inst := update s.inst A (some p), stack := update s.stack t (⟨A, .clear⟩ :: rest) } := by
  have hn := fun q => num_goto q ⟨A, .clear⟩ ht
  have hpos : 0 < num (Frame.building A) s.stack :=
    num_pos (t := t) (f := ⟨A, .store p⟩) (by rw [ht]; exact List.mem_cons_self) (by simp [Frame.building])
  have hnone : s.inst A = none := by
    by_contra hne
    have := hi.building A (Option.isSome_iff_ne_none.2 hne)
    omega
  have hc : num Frame.critical (update s.stack t (⟨A, .clear⟩ :: rest)) = num Frame.critical s.stack := by
    have := hn Frame.critical
    simp only [Frame.critical, ↓reduceIte] at this
    omega
  refine ⟨hc ▸ hi.crit_le, fun h => hi.crit_flag (hc ▸ h), fun B => ?_, fun B hB => ?_, fun u f hf hlate => ?_,
    fun B r hr => ?_⟩
  · have h1 := hn (Frame.storing B)
    have h2 := hi.made_eq B
    simp only [Frame.storing, Bool.false_eq_true, ↓reduceIte, beq_iff_eq] at h1 ⊢
    by_cases hBA : B = A
    · subst hBA
      rw [hnone] at h2
      simp only [Option.isSome_none, Bool.false_eq_true, ↓reduceIte] at h1 h2
      simp only [update_self, Option.isSome_some, ↓reduceIte]
      omega
    · simp only [update_of_ne hBA]; rw [if_neg (fun h => hBA h.symm)] at h1; omega
  · have h1 := hn (Frame.building B)
    by_cases hBA : B = A
    · subst hBA
      have h2 := num_mono (building_critical B) s.stack
      have h3 := hi.crit_le
      simp only [Frame.building, beq_self_eq_true, Bool.false_eq_true, ↓reduceIte] at h1 ⊢
      omega
    · simp only [update_of_ne hBA] at hB
      have h2 := hi.building B hB
      simp only [Frame.building, Bool.false_eq_true, ↓reduceIte] at h1 ⊢
      omega
  · simp only
    by_cases hfA : f.ty = A
    · rw [hfA, update_self]; rfl
    · rw [update_of_ne hfA]
      rcases mem_update (f := ⟨A, .clear⟩) (fun g hg => (List.mem_cons.1 hg).symm)
        (fun g hg => by rw [ht]; exact List.mem_cons_of_mem _ hg) hf with ⟨v, hv⟩ | rfl
      · exact hi.late v f hv hlate
      · exact absurd rfl hfA
  · obtain ⟨h1, h2⟩ := hi.rets B r hr
    have hBA : B ≠ A := by
      rintro rfl
      rw [h2, hnone] at h1
      cases h1
    simp only [update_of_ne hBA]
    exact ⟨h1, h2⟩

/-- A call returns what it reads from `instance_`, which is set by then. -/
theorem inv_ret {s : Sys Ty Tid} {t : Tid} {A : Ty} {pc : Pc} {rest : List (Frame Ty)} (hi : Inv s)
    (ht : s.stack t = ⟨A, pc⟩ :: rest) (hl : (⟨A, pc⟩ : Frame Ty).late = true)
    (hs : ∀ B, (⟨A, pc⟩ : Frame Ty).storing B = false) :
    Inv { s with stack := update s.stack t rest, rets := (A, s.inst A) :: s.rets } := by
  have hp := inv_pop hi ht hs
  refine ⟨hp.crit_le, hp.crit_flag, hp.made_eq, hp.building, hp.late, fun B r hr => ?_⟩
  rcases List.mem_cons.1 hr with hr | hr
  · cases hr
    exact ⟨hi.late t ⟨A, pc⟩ (by rw [ht]; exact List.mem_cons_self) hl, rfl⟩
  · exact hi.rets B r hr

theorem Step.inv {dep : Ty → Ty → Prop} {s s' : Sys Ty Tid} {a : Act Ty Tid} (h : Step dep s a s') (hi : Inv s) :
    Inv s' := by
  cases h with
  | @call t A ht =>
    have := inv_push (t := t) (B := A) hi
    rwa [ht] at this
  | @exec t A pc rest flag i n ht he =>
    cases pc with
    | check =>
      cases he
      rw [update_eq_self]
      by_cases hA : s.inst A = none
      · rw [if_neg (not_not.2 hA)]
        exact inv_goto hi ht (Or.inl ⟨rfl, id⟩) (fun _ => rfl) (fun _ _ => rfl) nofun
      · rw [if_pos hA]
        exact inv_goto hi ht (Or.inl ⟨rfl, id⟩) (fun _ => rfl) (fun _ _ => rfl)
          fun _ => Option.isSome_iff_ne_none.2 hA
    | fast =>
      cases he
      rw [update_eq_self]
      exact inv_ret hi ht rfl fun _ => rfl
    | spin =>
      cases he
      rw [update_eq_self]
      cases hf : s.flag with
      | true => exact inv_goto hi ht (Or.inl ⟨rfl, fun _ => rfl⟩) (fun _ => rfl) (fun _ _ => rfl) nofun
      | false => exact inv_goto hi ht (Or.inr (Or.inr ⟨rfl, rfl, hf, rfl⟩)) (fun _ => rfl) (fun _ _ => rfl) nofun
    | recheck =>
      cases he
      rw [update_eq_self]
      by_cases hA : s.inst A = none
      · rw [if_pos hA]
        refine inv_goto hi ht (Or.inl ⟨rfl, id⟩) (fun _ => rfl) (fun B hB => ?_) nofun
        refine beq_eq_false_iff_ne.2 fun hAB => ?_
        rw [← hAB, hA] at hB
        cases hB
      · rw [if_neg hA]
        exact inv_goto hi ht (Or.inl ⟨rfl, id⟩) (fun _ => rfl) (fun _ _ => rfl)
          fun _ => Option.isSome_iff_ne_none.2 hA
    | construct => cases he
    | store p =>
      cases he
      exact inv_store hi ht
    | clear =>
      cases he
      rw [update_eq_self]
      exact inv_goto hi ht (Or.inr (Or.inl ⟨rfl, rfl⟩)) (fun _ => rfl) (fun _ _ => rfl)
        fun _ => hi.late t ⟨A, .clear⟩ (by rw [ht]; exact List.mem_cons_self) rfl
    | final =>
      cases he
      rw [update_eq_self]
      exact inv_ret hi ht rfl fun _ => rfl
  | @nested t A B rest ht _ =>
    have := inv_push (t := t) (B := B) hi
    rwa [ht] at this
  | built ht => exact inv_built hi ht
  | thrown ht => exact inv_pop hi ht fun _ => rfl

theorem inv_reach {dep : Ty → Ty → Prop} {s : Sys Ty Tid} (h : Reach (Step dep) Sys.init s) : Inv s :=
  h.inv inv_init fun _ _ _ hi hs => hs.inv hi

/-- **A singleton is constructed once**: whatever the threads and the constructors do, every type is
constructed at most once, and all calls of its `Instance` that return do so with one non-null pointer. -/
theorem reach_made_le_one {dep : Ty → Ty → Prop} {s : Sys Ty Tid} (h : Reach (Step dep) Sys.init s) (A : Ty) :
    s.made A ≤ 1 ∧ ∃ p : Nat, ∀ r, (A, r) ∈ s.rets → r = some p := by
  have hi := inv_reach h
  constructor
  · have h1 := hi.made_eq A
    have h2 := num_mono (storing_building A) s.stack
    have h3 := num_mono (building_critical A) s.stack
    have h4 := hi.crit_le
    split at h1
    · rename_i hA
      have := hi.building A hA
      omega
    · omega
  · cases hA : s.inst A with
    | some p => exact ⟨p, fun r hr => (hi.rets A r hr).2.trans hA⟩
    | none =>
      refine ⟨0, fun r hr => ?_⟩
      obtain ⟨h1, h2⟩ := hi.rets A r hr
      rw [h2, hA] at h1
      cases h1

/-- One call after another of two threads: the second takes the fast path. -/
theorem made_le_one_two_calls :
    ∃ s : Sys (Fin 1) (Fin 2), s.rets = [(0, some 7), (0, some 7)] ∧
      s.made 0 ≤ 1 ∧ ∃ p : Nat, ∀ r, (0, r) ∈ s.rets → r = some p := by
  have h0 : Reach (Step fun _ _ => False) (Sys.init : Sys (Fin 1) (Fin 2)) _ := .tail .refl (.call (t := 0) (A := 0) rfl)
  have h1 := h0.tail (.exec (t := 0) rfl rfl)
  have h2 := h1.tail (.exec (t := 0) rfl rfl)
  have h3 := h2.tail (.exec (t := 0) rfl rfl)
  have h4 := h3.tail (.built (t := 0) (p := 7) rfl)
  have h5 := h4.tail (.exec (t := 0) rfl rfl)
  have h6 := h5.tail (.exec (t := 0) rfl rfl)
  have h7 := h6.tail (.exec (t := 0) rfl rfl)
  have h8 := h7.tail (.call (t := 1) (A := 0) rfl)
  have h9 := h8.tail (.exec (t := 1) rfl rfl)
  have h10 := h9.tail (.exec (t := 1) rfl rfl)
  exact ⟨_, rfl, reach_made_le_one h10 0⟩

end TinyUtils.Singleton
