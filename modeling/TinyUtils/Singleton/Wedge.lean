import TinyUtils.Singleton.Once
/-!
# When `lock_` is left set

`lock_` is cleared by one statement only (`singleton.cpp:26`). A constructor that throws leaves
`Instance` before it, and `lock_` stays set with nobody to clear it. A constructor that calls `Instance`
of a type whose `instance_` is null spins on the `lock_` its own thread has. `Calm` excludes these two
steps, and they are the only ones to exclude: `run_unwedged_iff`.
-/

namespace TinyUtils.Singleton

open Function Threads Runs

variable {Ty Tid : Type}

/-- `lock_` is set only while some call is between its `test_and_set` and its `clear`, and no thread
with such a call spins. -/
def Unwedged (s : Sys Ty Tid) : Prop :=
  (s.flag = true → ∃ t, ∃ f ∈ s.stack t, f.critical = true) ∧
    ∀ t, (∃ f ∈ s.stack t, f.critical = true) → ∀ g ∈ s.stack t, g.pc ≠ .spin

/-- The step is not an exception, and if a thread that has `lock_` enters `Instance` by it, it reads an
instance. -/
def Calm (s : Sys Ty Tid) (a : Act Ty Tid) : Prop :=
  (∀ t, a ≠ .thrown t) ∧
    ∀ t B rest, a = .exec t → s.stack t = ⟨B, .check⟩ :: rest → (∃ f ∈ rest, f.critical = true) → s.inst B ≠ none

theorem calm_exec {s : Sys Ty Tid} {t : Tid} {A : Ty} {p : Pc} {rest : List (Frame Ty)} (ht : s.stack t = ⟨A, p⟩ :: rest)
    (h : p ≠ .check ∨ rest = [] ∨ s.inst A ≠ none) : Calm s (.exec t) := by
  refine ⟨nofun, fun u B rest' hu hs hc => ?_⟩
  cases hu
  rw [ht] at hs
  cases hs
  rcases h with h | rfl | h
  · exact absurd rfl h
  · obtain ⟨f, hf, _⟩ := hc
    cases hf
  · exact h

theorem calm_call {s : Sys Ty Tid} {t : Tid} {A : Ty} : Calm s (.call t A) := ⟨nofun, nofun⟩

theorem calm_nested {s : Sys Ty Tid} {t : Tid} {B : Ty} : Calm s (.nested t B) := ⟨nofun, nofun⟩

theorem calm_built {s : Sys Ty Tid} {t : Tid} {p : Nat} : Calm s (.built t p) := ⟨nofun, nofun⟩

/-- The calls of a thread in a run of calm steps: one, or one on its fast path inside the constructor of
another. -/
def Shape : List (Frame Ty) → Prop
  | [] | [_] => True
  | [g, f] => f.pc = .construct ∧ (g.pc = .check ∨ g.pc = .fast)
  | _ => False

theorem Shape.not_spin : ∀ {fs : List (Frame Ty)}, Shape fs → (∃ f ∈ fs, f.critical = true) → ∀ g ∈ fs, g.pc ≠ .spin
  | [], _, _, g, hg => by cases hg
  | [f], _, ⟨f', hf', hc⟩, g, hg => by
    rw [List.mem_singleton] at hf' hg
    subst hf' hg
    intro hs
    simp [Frame.critical, hs] at hc
  | [g', f], hs, _, g, hg => by
    obtain ⟨h1, h2⟩ := hs
    simp only [List.mem_cons, List.not_mem_nil, or_false] at hg
    rcases hg with rfl | rfl
    · rcases h2 with h2 | h2 <;> rw [h2] <;> simp
    · rw [h1]; simp
  | _ :: _ :: _ :: _, hs, _, _, _ => hs.elim

/-- Only a constructor has a call above it, and that call is not in a constructor itself. -/
theorem Shape.rest_nil {A : Ty} {pc : Pc} : ∀ {rest : List (Frame Ty)}, Shape (⟨A, pc⟩ :: rest) →
    pc ≠ .check → pc ≠ .fast → rest = []
  | [], _, _, _ => rfl
  | [_], hs, h1, h2 => by rcases hs.2 with h | h <;> contradiction
  | _ :: _ :: _, hs, _, _ => hs.elim

theorem Shape.tail {f : Frame Ty} : ∀ {rest : List (Frame Ty)}, Shape (f :: rest) → Shape rest
  | [], _ => trivial
  | [_], _ => trivial
  | _ :: _ :: _, hs => hs.elim

section
variable [DecidableEq Tid]

theorem shape_update {stack : Tid → List (Frame Ty)} {t : Tid} {fs : List (Frame Ty)} (h : ∀ u, Shape (stack u))
    (hfs : Shape fs) (u : Tid) : Shape (update stack t fs u) := by
  by_cases hut : u = t
  · subst hut; rw [update_self]; exact hfs
  · rw [update_of_ne hut]; exact h u

/-- The shape of a stack after a statement of its top call. -/
theorem shape_next {A : Ty} {pc : Pc} {rest : List (Frame Ty)} {flag flag' : Bool} {inst inst' : Option Nat}
    {n : Next} (hs : Shape (⟨A, pc⟩ :: rest)) (he : exec flag inst pc = some (flag', inst', n))
    (hc : pc = .check → (∃ f ∈ rest, f.critical = true) → inst ≠ none) : Shape (n.stack A rest) := by
  match rest, hs with
  | [], _ => cases n <;> trivial
  | [f], hs =>
    obtain ⟨h1, h2 | h2⟩ := hs
    · simp only at h2
      subst h2
      cases he
      rw [if_pos (hc rfl ⟨f, by simp, by simp [Frame.critical, h1]⟩)]
      exact ⟨h1, Or.inr rfl⟩
    · simp only at h2
      subst h2
      cases he
      trivial

end

variable [Fintype Tid] [DecidableEq Ty] [DecidableEq Tid]

/-- The invariant of runs of calm steps. -/
structure CalmInv (s : Sys Ty Tid) : Prop where
  inv : Inv s
  flag : s.flag = true → 0 < num Frame.critical s.stack
  shape : ∀ t, Shape (s.stack t)

omit [DecidableEq Tid] in
theorem CalmInv.unwedged {s : Sys Ty Tid} (h : CalmInv s) : Unwedged s :=
  ⟨fun hf => exists_of_num_pos (h.flag hf), fun t => (h.shape t).not_spin⟩

omit [DecidableEq Tid] in
theorem calmInv_init : CalmInv (Sys.init : Sys Ty Tid) :=
  ⟨inv_init, nofun, fun _ => trivial⟩

omit [DecidableEq Ty] in
/-- A set flag keeps a call that has it, over one statement. -/
theorem exec_flag {s : Sys Ty Tid} {t : Tid} {A : Ty} {pc : Pc} {rest : List (Frame Ty)} {flag : Bool}
    {i : Option Nat} {n : Next} (hi : s.flag = true → 0 < num Frame.critical s.stack)
    (ht : s.stack t = ⟨A, pc⟩ :: rest) (he : exec s.flag (s.inst A) pc = some (flag, i, n)) (hf : flag = true) :
    0 < num Frame.critical (update s.stack t (n.stack A rest)) := by
  have hgoto := fun g => num_goto Frame.critical g ht
  have hpop := num_pop Frame.critical ht
  cases pc with
  | check =>
    cases he
    have := hgoto ⟨A, if s.inst A ≠ none then .fast else .spin⟩
    have := hi hf
    simp only [Frame.critical, Bool.false_eq_true, ↓reduceIte, Next.stack] at *
    omega
  | fast =>
    cases he
    have := hi hf
    simp only [Frame.critical, Bool.false_eq_true, ↓reduceIte, Next.stack] at *
    omega
  | spin =>
    cases he
    have h := hgoto ⟨A, if s.flag then .spin else .recheck⟩
    cases hs : s.flag with
    | true =>
      have := hi hs
      simp only [hs, Frame.critical, Bool.false_eq_true, ↓reduceIte, Next.stack] at *
      omega
    | false =>
      simp only [hs, Frame.critical, Bool.false_eq_true, ↓reduceIte, Next.stack] at *
      omega
  | recheck =>
    cases he
    have h := hgoto ⟨A, if s.inst A = none then .construct else .clear⟩
    have := hi hf
    simp only [Next.stack]
    split at h <;> simp only [*, Frame.critical, ↓reduceIte] at * <;> omega
  | construct => cases he
  | store p =>
    cases he
    have := hgoto ⟨A, .clear⟩
    have := hi hf
    simp only [Frame.critical, ↓reduceIte, Next.stack] at *
    omega
  | clear => cases he; cases hf
  | final =>
    cases he
    have := hi hf
    simp only [Frame.critical, Bool.false_eq_true, ↓reduceIte, Next.stack] at *
    omega

theorem Step.calmInv {dep : Ty → Ty → Prop} {s s' : Sys Ty Tid} {a : Act Ty Tid} (h : Step dep s a s')
    (hi : CalmInv s) (hP : Calm s a) : CalmInv s' := by
  have hinv := h.inv hi.inv
  cases h with
  | @call t A ht =>
    refine ⟨hinv, fun hf => ?_, shape_update hi.shape trivial⟩
    have := num_push (S := s.stack) (t := t) Frame.critical ⟨A, .check⟩
    rw [ht] at this
    have := hi.flag hf
    simp only [Sys.put]
    omega
  | @exec t A pc rest flag i n ht he =>
    refine ⟨hinv, exec_flag hi.flag ht he, ?_⟩
    refine shape_update hi.shape (shape_next (ht ▸ hi.shape t) he fun hpc hc => ?_)
    subst hpc
    exact hP.2 t A rest rfl ht hc
  | @nested t A B rest ht _ =>
    have hrest : rest = [] := (ht ▸ hi.shape t).rest_nil nofun nofun
    subst hrest
    refine ⟨hinv, fun hf => ?_, shape_update hi.shape ⟨rfl, Or.inl rfl⟩⟩
    have := num_push (S := s.stack) (t := t) Frame.critical ⟨B, .check⟩
    rw [ht] at this
    have := hi.flag hf
    simp only [Sys.put]
    omega
  | @built t A p rest ht =>
    have hrest : rest = [] := (ht ▸ hi.shape t).rest_nil nofun nofun
    subst hrest
    refine ⟨hinv, fun _ => ?_, shape_update hi.shape trivial⟩
    exact num_pos (t := t) (f := ⟨A, .store p⟩) (by simp [Sys.put]) rfl
  | thrown => exact absurd rfl (hP.1 _)

/-- A constructor that throws under `lock_` leaves it set. -/
theorem CalmInv.not_thrown {dep : Ty → Ty → Prop} {s s' : Sys Ty Tid} {t : Tid} (hi : CalmInv s)
    (h : Step dep s (.thrown t) s') : ¬ Unwedged s' := by
  intro hu
  cases h with
  | @thrown _ A rest ht =>
    have hpos : 0 < num Frame.critical s.stack :=
      num_pos (t := t) (f := ⟨A, .construct⟩) (by rw [ht]; exact List.mem_cons_self) rfl
    have hle := hi.inv.crit_le
    have hflag : s.flag = true := hi.inv.crit_flag (by omega)
    obtain ⟨u, f, hf, hc⟩ := hu.1 hflag
    have hpos' : 0 < num Frame.critical (update s.stack t rest) := num_pos hf hc
    have hpop := num_pop Frame.critical ht
    simp only [Frame.critical, ↓reduceIte] at hpop
    omega

/-- A step into a state that is not wedged is calm. -/
theorem Step.calm {dep : Ty → Ty → Prop} {s s' : Sys Ty Tid} {a : Act Ty Tid} (h : Step dep s a s')
    (hi : CalmInv s) (hu : Unwedged s') : Calm s a := by
  constructor
  · rintro t rfl
    exact hi.not_thrown h hu
  · rintro t B rest rfl ht ⟨f, hf, hc⟩ hB
    cases h with
    | @exec _ A pc rest' flag i n ht' he =>
      rw [ht] at ht'
      cases ht'
      cases he
      -- the call goes to its spin on top of the call that has `lock_`
      refine hu.2 t ⟨f, ?_, hc⟩ ⟨B, .spin⟩ ?_ rfl
      · simp [Sys.put, Next.stack, hf]
      · simp [Sys.put, Next.stack, hB]

/-- **Initialisation never wedges exactly on calm runs**: `lock_` is always in the hands of some call and
no thread waits for itself if and only if no constructor throws and every call made by a thread that has
`lock_` reads an instance. -/
theorem run_unwedged_iff {dep : Ty → Ty → Prop} {tr : List (Act Ty Tid × Sys Ty Tid)}
    (h : IsRun (Step dep) Sys.init tr) : StatesMeet Unwedged Sys.init tr ↔ StepsMeet Calm Sys.init tr :=
  run_exact (fun _ hi => hi.unwedged) (fun _ _ _ hi hs hP => hs.calmInv hi hP)
    (fun _ _ _ hi hs hu => hs.calm hi hu) calmInv_init h

/-- The state after the action, which is one that `Step` allows. -/
def Sys.next (s : Sys Ty Tid) : Act Ty Tid → Sys Ty Tid
  | .call t A => s.put t [⟨A, .check⟩]
  | .exec t =>
    match s.stack t with
    | [] => s
    | ⟨A, pc⟩ :: rest =>
      match exec s.flag (s.inst A) pc with
      | none => s
      | some (flag, i, n) => { s.put t (n.stack A rest) with flag := flag, inst := update s.inst A i, rets := n.rets A s.rets }
  | .nested t B => s.put t (⟨B, .check⟩ :: s.stack t)
  | .built t p =>
    match s.stack t with
    | [] => s
    | ⟨A, _⟩ :: rest => { s.put t (⟨A, .store p⟩ :: rest) with made := update s.made A (s.made A + 1) }
  | .thrown t => s.put t (s.stack t).tail

/-- The run of a list of actions. -/
def trace : Sys Ty Tid → List (Act Ty Tid) → List (Act Ty Tid × Sys Ty Tid)
  | _, [] => []
  | s, a :: as => (a, s.next a) :: trace (s.next a) as

/-- The constructor of `1` calls `Instance` of `0`. -/
def OneNeedsZero (A B : Fin 2) : Prop := A = 1 ∧ B = 0

theorem oneNeedsZero_acyclic (A : Fin 2) : ¬ Relation.TransGen OneNeedsZero A A := by
  intro h
  have hlt : ∀ {B C : Fin 2}, Relation.TransGen OneNeedsZero B C → C < B := by
    intro B C h
    induction h with
    | single h => rw [h.1, h.2]; decide
    | tail _ h ih => rw [h.1] at ih; rw [h.2]; exact lt_trans (by decide) ih
  exact lt_irrefl A (hlt h)

/-- One thread makes the instance of `0`, and then goes into the constructor of `1`. -/
def inOrder : List (Act (Fin 2) (Fin 1)) :=
  [.call 0 0, .exec 0, .exec 0, .exec 0, .built 0 7, .exec 0, .exec 0, .exec 0,
    .call 0 1, .exec 0, .exec 0, .exec 0, .nested 0 0, .exec 0]

/-- The instance of `0` is there before the constructor of `1` asks for it. -/
theorem unwedged_inOrder :
    StatesMeet Unwedged (Sys.init : Sys (Fin 2) (Fin 1)) (trace Sys.init inOrder) := by
  have hrun : IsRun (Step OneNeedsZero) (Sys.init : Sys (Fin 2) (Fin 1)) (trace Sys.init inOrder) :=
    ⟨.call rfl, .exec rfl rfl, .exec rfl rfl, .exec rfl rfl, .built rfl, .exec rfl rfl, .exec rfl rfl,
      .exec rfl rfl, .call rfl, .exec rfl rfl, .exec rfl rfl, .exec rfl rfl, .nested rfl ⟨rfl, rfl⟩,
      .exec rfl rfl, trivial⟩
  refine (run_unwedged_iff hrun).2 ⟨calm_call, ?_, ?_, ?_, calm_built, ?_, ?_, ?_, calm_call, ?_, ?_, ?_, calm_nested,
    calm_exec (A := 0) (p := .check) rfl (Or.inr (Or.inr nofun)), trivial⟩ <;>
  exact calm_exec rfl (Or.inr (Or.inl rfl))

/-- The constructor of `1` asks for `0` first, and its thread spins on its own `lock_`. -/
theorem not_unwedged_outOfOrder :
    (∀ A, ¬ Relation.TransGen OneNeedsZero A A) ∧
      ¬ ∀ tr : List (Act (Fin 2) (Fin 1) × Sys (Fin 2) (Fin 1)),
        IsRun (Step OneNeedsZero) Sys.init tr → StatesMeet Unwedged Sys.init tr := by
  refine ⟨oneNeedsZero_acyclic, fun hall => ?_⟩
  have hrun : IsRun (Step OneNeedsZero) (Sys.init : Sys (Fin 2) (Fin 1))
      (trace Sys.init [.call 0 1, .exec 0, .exec 0, .exec 0, .nested 0 0, .exec 0]) :=
    ⟨.call rfl, .exec rfl rfl, .exec rfl rfl, .exec rfl rfl, .nested rfl ⟨rfl, rfl⟩, .exec rfl rfl, trivial⟩
  obtain ⟨_, hself⟩ := (hall _ hrun).2.2.2.2.2.2
  have hconstruct : (⟨1, .construct⟩ : Frame (Fin 2)) ∈ [⟨0, .spin⟩, ⟨1, .construct⟩] := by simp
  exact hself 0 ⟨⟨1, .construct⟩, hconstruct, rfl⟩ ⟨0, .spin⟩ List.mem_cons_self rfl

end TinyUtils.Singleton
