import TinyUtils.Cstr.Calls
import TinyUtils.Lib.Run
/-!
# Runs of calls

One call keeps every object well formed if its block `Fits`, and terminated if it also `Ends`
(`exec_sound`). So do runs of calls that all meet the conditions, from no objects on (`run_capOk`,
`run_endOk`). The rest shows where they fail: a copy into a large object shrinks the block below the
content that stays, and a trim that leaves nothing writes no terminator.
-/

namespace TinyUtils.Cstr

open Checked Runs

/-- The object is well formed, and if `E` it is terminated. -/
def Keeps (E : Prop) (s : Cstr) : Prop := s.Valid ∧ (E → s.Terminated)

section
variable {os : Objects} {mem : Mem} {d s : Cstr} {E : Prop}

theorem Keeps.of_yields {r : M (Option Cstr)} {P : Cstr → Prop} (h : Yields r fun s => s.Valid ∧ s.Terminated ∧ P s) :
    Yields r (Keeps E) :=
  h.mono fun _ hs => ⟨hs.1, fun _ => hs.2.1⟩

/-! ## Calls with a C string -/

theorem newStr_keeps {str : Option CString} (hf : Fits os (.newStr mem str)) :
    newStr mem str = .error .null ∨ Yields (newStr mem str) (Keeps E) := by
  cases str with
  | none => exact Or.inr (Keeps.of_yields newStr_null_spec)
  | some str =>
    rcases hf with rfl | h32
    · -- `newSize` makes no object
      left
      rcases newSize_spec none str.strlen with hn | ⟨s, hs, _⟩
      · simp only [newStr, hn, ok_bind]
      · simp only [newSize, malloc, Option.map_none] at hs
        split at hs <;> cases hs
    · rcases newStr_spec mem h32 with h | ⟨s, hs, hv, ht, _⟩
      · exact Or.inl h
      · exact Or.inr (Or.inr ⟨s, hs, hv, fun _ => ht⟩)

theorem assignStr_keeps {src : Option CString} (hv : d.Valid) (hf : ∀ str, src = some str → Sized mem d str.strlen) :
    Yields (assignStr mem d src) (Keeps E) := by
  cases src with
  | none => exact Or.inl rfl
  | some str =>
    rcases (hf str rfl).cases hv str.strlen_lt with h32 | hnone
    · exact Keeps.of_yields (assignFrom_spec mem hv str.strlen_le h32)
    · left
      rw [assignStr, assignFrom, hnone]

theorem copyStr_keeps {src : Option CString} {begin len : Nat} (hv : d.Valid) (ht : E → d.Terminated)
    (hsel : ∀ str, src = some str → begin + copyLen str.strlen len ≤ str.strlen)
    (hf : ∀ str, src = some str → str.strlen ≠ 0 →
      Sized mem d (copyLen str.strlen len) ∧ CopyFits mem d (copyLen str.strlen len))
    (he : E → ∀ str, src = some str → str.strlen ≠ 0 → CopyEnds mem d (copyLen str.strlen len)) :
    Yields (copyStr mem d src begin len) (Keeps E) := by
  cases src with
  | none => exact Or.inr ⟨d, rfl, hv, ht⟩
  | some str =>
    by_cases h0 : str.strlen = 0
    · exact Or.inr ⟨d, if_pos h0, hv, ht⟩
    · have hsel := hsel str rfl
      obtain ⟨hsized, hfit⟩ := hf str rfl h0
      have hlen := str.strlen_le
      have hlt : copyLen str.strlen len < 2 ^ 32 := Nat.lt_of_le_of_lt (copyLen_le _ _) str.strlen_lt
      simp only [copyStr, if_neg h0]
      rcases hsized.cases hv hlt with h32 | hnone
      · refine (copyFrom_spec hv (by omega) h32 hfit).mono fun s hs => ⟨hs.1, fun hE => ?_⟩
        exact hs.2.1 (ht hE) (he hE str rfl h0)
      · left
        rw [copyFrom, hnone]

theorem subStr_keeps {str : CString} {begin len : Nat} (hv : d.Valid)
    (hsel : Selects begin str.strlen (subLen str.strlen begin len))
    (hf : ∀ k, subLen str.strlen begin len = some k → Sized mem d k) :
    Yields (subStr mem d str begin len) (Keeps E) := by
  have hlen := str.strlen_le
  have hlt := str.strlen_lt
  by_cases h32 : ∀ k, subLen str.strlen begin len = some k → k + hdrSize + 1 < 2 ^ 32
  · refine Keeps.of_yields (subFrom_spec hv fun k hk => ⟨?_, h32 k hk⟩)
    have := hsel k hk
    omega
  · left
    simp only [not_forall] at h32
    obtain ⟨k, hk, hwrap⟩ := h32
    have hsel := hsel k hk
    rcases (hf k hk).cases hv (by omega) with h | hnone
    · exact absurd h hwrap
    · simp only [subStr, subFrom, hk, hnone]

theorem insertFrom_keeps {src : List Byte} {pos n begin len : Nat} (hv : d.Valid) (ht : E → d.Terminated)
    (hpos : pos ≤ d.used) (hn : n ≤ src.length) (hsel : Selects begin n (insertLen n begin len))
    (hf : ∀ k, insertLen n begin len = some k → InsertSized mem d k) :
    Yields (insertFrom mem d pos src n begin len) (Keeps E) := by
  cases hk : insertLen n begin len with
  | none =>
    right
    refine ⟨d, ?_, hv, ht⟩
    rw [insertFrom, hk]
  | some k =>
    have hsel := hsel k hk
    by_cases h32 : d.used + k + hdrSize + 1 < 2 ^ 32
    · exact Keeps.of_yields (insertFrom_spec hv hpos hk (by omega) h32)
    · left
      rcases hf k hk with h | ⟨rfl, hlt⟩
      · exact absurd h h32
      · simp only [insertFrom, hk, u32_eq hlt, grow_wrapped hv hlt h32]

theorem appendFrom_keeps {src : List Byte} {n : Nat} (hv : d.Valid) (ht : E → d.Terminated) (hn : n ≤ src.length)
    (hf : AppendSized mem d n) (he : E → AppendEnds mem d n) : Yields (appendFrom mem d src n) (Keeps E) := by
  by_cases h32 : d.used + hdrSize + 1 + n < 2 ^ 32
  · refine (appendFrom_spec hv hn h32).mono fun s hs => ⟨hs.1, fun hE => ?_⟩
    exact hs.2.1 (ht hE) (he hE)
  · left
    rcases hf with h | ⟨rfl, hgrow⟩
    · exact absurd h h32
    · have hmax := hv.le_max
      have hused := hv.used_le
      have hhdr : hdrSize = 8 := rfl
      simp only [totalSize, maxSize] at hmax
      exact appendFrom_wrapped hv (by omega) hgrow

end

/-! ## One call -/

/-- A call keeps the objects well formed if the block fits, and terminated if it also ends the result. -/
theorem exec_sound {os : Objects} {c : Call} (hv : ∀ s, some s ∈ os → s.Valid) (hr : InRange os c) (hf : Fits os c) :
    Sound (Keeps ((∀ s, some s ∈ os → s.Terminated) ∧ Ends os c)) (exec os c) := by
  have hold : ∀ {E : Prop}, (E → ∀ s, some s ∈ os → s.Terminated) → ∀ s, some s ∈ os → Keeps E s :=
    fun h s hs => ⟨hv s hs, fun hE => h hE s hs⟩
  cases c with
  | newStr mem str => exact create_sound (hold And.left) (newStr_keeps hf)
  | newSize mem cap => exact create_sound (hold And.left) (Or.inr (Keeps.of_yields (newSize_spec mem cap)))
  | new mem src =>
    cases src with
    | none => exact create_sound (hold And.left) (Or.inr (Keeps.of_yields new_null_spec))
    | some i =>
      obtain ⟨s, hs, _⟩ := hr
      simp only [exec, onOne, hs]
      exact create_sound (hold And.left) (Or.inr (Keeps.of_yields (new_spec (hv s (fetch_mem hs)))))
  | free i =>
    intro s hs
    rcases List.mem_or_eq_of_mem_set hs with hs | hs
    · exact hold And.left s hs
    · cases hs
  | inPlace f i =>
    obtain ⟨s, hs, _⟩ := hr
    obtain ⟨s', hs', hv', ht'⟩ := f.run_spec (hv s (fetch_mem hs))
    simp only [exec, onOne, hs, hs', ok_bind]
    refine update_sound (hold And.left) (Or.inr ⟨s', rfl, hv', fun hE => ?_⟩)
    exact ht' (hE.1 s (fetch_mem hs)) (hE.2 s hs)
  | assign mem dst src =>
    obtain ⟨_, d, s, hd, hs, _⟩ := hr
    have hsrc := hv s (fetch_mem hs)
    have hsmall := hsrc.used_add_le
    simp only [exec, onOne, hd, hs]
    have hspec := assignFrom_spec mem (hv d (fetch_mem hd)) (Nat.le_of_lt hsrc.used_lt)
      (show s.used + hdrSize + 1 < 2 ^ 32 by omega)
    exact update_sound (hold And.left) (Keeps.of_yields hspec)
  | assignStr mem dst src =>
    obtain ⟨d, hd, _⟩ := hr
    simp only [exec, onOne, hd]
    refine update_sound (hold And.left) (assignStr_keeps (hv d (fetch_mem hd)) ?_)
    rintro str rfl
    exact hf d hd
  | copy mem dst src begin len =>
    obtain ⟨_, d, s, hd, hs, hsel⟩ := hr
    simp only [exec, onOne, hd, hs]
    have hspec := copy_spec (hv d (fetch_mem hd)) (hv s (fetch_mem hs)) hsel (hf d s hd hs)
    exact update_sound (hold And.left) (Keeps.of_yields hspec)
  | copyStr mem dst src begin len =>
    obtain ⟨d, hd, hsel⟩ := hr
    simp only [exec, onOne, hd]
    refine update_sound (hold And.left) (copyStr_keeps (hv d (fetch_mem hd)) (fun hE => hE.1 d (fetch_mem hd)) hsel ?_ ?_)
    · rintro str rfl
      exact hf d hd
    · rintro hE str rfl
      exact hE.2 d hd
  | subCstr mem substr cstr begin len =>
    obtain ⟨_, d, s, hd, hs, hsel⟩ := hr
    have hsrc := hv s (fetch_mem hs)
    have hlt := hsrc.used_lt
    have hsmall := hsrc.used_add_le
    simp only [exec, onOne, hd, hs]
    refine update_sound (hold And.left) (Keeps.of_yields (subFrom_spec (hv d (fetch_mem hd)) fun k hk => ?_))
    have := hsel k hk
    omega
  | subStr mem substr str begin len =>
    obtain ⟨d, hd, hsel⟩ := hr
    simp only [exec, onOne, hd]
    exact update_sound (hold And.left) (subStr_keeps (hv d (fetch_mem hd)) hsel fun k hk => hf d k hd hk)
  | insert mem dst pos istr begin len =>
    obtain ⟨_, d, s, hd, hs, hpos, hsel⟩ := hr
    have hdst := hv d (fetch_mem hd)
    have hsrc := hv s (fetch_mem hs)
    have hdsmall := hdst.used_add_le
    have hssmall := hsrc.used_add_le
    simp only [exec, onOne, hd, hs]
    refine update_sound (hold And.left) (insertFrom_keeps hdst (fun hE => hE.1 d (fetch_mem hd)) hpos
      (Nat.le_of_lt hsrc.used_lt) hsel fun k hk => Or.inl ?_)
    have := hsel k hk
    omega
  | insertStr mem dst pos src begin len =>
    obtain ⟨d, hd, hpos, hsel⟩ := hr
    have hdst := hv d (fetch_mem hd)
    simp only [exec, onOne, hd]
    apply update_sound (hold And.left)
    cases src with
    | none => exact Or.inr ⟨d, rfl, hdst, fun hE => hE.1 d (fetch_mem hd)⟩
    | some str =>
      exact insertFrom_keeps hdst (fun hE => hE.1 d (fetch_mem hd)) hpos str.strlen_le (hsel str rfl)
        fun k hk => hf d k hd hk
  | append mem dst src =>
    obtain ⟨_, d, s, hd, hs, _⟩ := hr
    have hdst := hv d (fetch_mem hd)
    have hsrc := hv s (fetch_mem hs)
    have hdsmall := hdst.used_add_le
    have hssmall := hsrc.used_add_le
    simp only [exec, onOne, hd, hs]
    exact update_sound (hold And.left) (appendFrom_keeps hdst (fun hE => hE.1 d (fetch_mem hd))
      (Nat.le_of_lt hsrc.used_lt) (Or.inl (by omega)) fun hE => hE.2 d s hd hs)
  | appendStr mem dst src =>
    obtain ⟨d, hd, _⟩ := hr
    simp only [exec, onOne, hd]
    apply update_sound (hold And.left)
    cases src with
    | none => exact Or.inl rfl
    | some str =>
      exact appendFrom_keeps (hv d (fetch_mem hd)) (fun hE => hE.1 d (fetch_mem hd)) str.strlen_le (hf d hd)
        fun hE => hE.2 d hd

/-! ## Runs -/

/-- A call is made while no fault has stopped the program. -/
inductive Step : M Objects → Call → M Objects → Prop
  | call {os : Objects} {c : Call} : InRange os c → Step (.ok os) c (exec os c)

theorem Step.of_eq {os : Objects} {c : Call} {st : M Objects} (h : InRange os c) (he : exec os c = st) :
    Step (.ok os) c st := he ▸ .call h

/-- A condition on a call and on the objects it is made on. -/
def OnCall (F : Objects → Call → Prop) (st : M Objects) (c : Call) : Prop := ∀ os, st = .ok os → F os c

/-- The content fits the capacity, and the capacity fits the block and 512 MiB. -/
def CapOk (s : Cstr) : Prop := s.used ≤ s.cap ∧ s.totalSize ≤ s.block ∧ s.totalSize ≤ maxSize

/-- The content is terminated, and a reader of the C string sees it if it has no NUL. -/
def EndOk (s : Cstr) : Prop := s.Terminated ∧ ((0 : Byte) ∉ s.content → s.cRead = s.content)

theorem Valid.capOk {s : Cstr} (h : s.Valid) : s.CapOk := by
  have hlt := h.cap_lt
  refine ⟨h.used_le, ?_, h.le_max⟩
  simp only [totalSize, block]
  omega

theorem Sound.mono {P Q : Cstr → Prop} {st : M Objects} (h : Sound P st) (hPQ : ∀ s, P s → Q s) : Sound Q st := by
  cases st with
  | ok os => exact fun s hs => hPQ s (h s hs)
  | error e => exact h

theorem sound_nil {P : Cstr → Prop} : Sound P (.ok []) := nofun

theorem step_valid {st st' : M Objects} {c : Call} (hv : Sound Valid st) (hs : Step st c st') (hf : OnCall Fits st c) :
    Sound Valid st' := by
  cases hs with
  | call hr => exact (exec_sound hv hr (hf _ rfl)).mono fun s hs => hs.1

theorem step_terminated {st st' : M Objects} {c : Call} (hv : Sound (fun s => s.Valid ∧ s.Terminated) st)
    (hs : Step st c st') (hf : OnCall Fits st c) (he : OnCall Ends st c) :
    Sound (fun s => s.Valid ∧ s.Terminated) st' := by
  cases hs with
  | call hr =>
    have hterm := fun s hs => (hv s hs).2
    refine (exec_sound (fun s hs => (hv s hs).1) hr (hf _ rfl)).mono fun s hs => ?_
    exact ⟨hs.1, hs.2 ⟨hterm, he _ rfl⟩⟩

/-- **The capacity invariant.** -/
theorem run_capOk {tr : List (Call × M Objects)} (hr : IsRun Step (.ok []) tr)
    (hf : StepsMeet (OnCall Fits) (.ok []) tr) : StatesMeet (Sound CapOk) (.ok []) tr := by
  have hQ : ∀ st, Sound Valid st → Sound CapOk st := fun st h => h.mono fun s hs => hs.capOk
  have hstep : ∀ st c st', Sound Valid st → Step st c st' → OnCall Fits st c → Sound Valid st' := fun _ _ _ => step_valid
  exact run_inv hQ hstep sound_nil hr hf

/-- **The terminator invariant.** -/
theorem run_endOk {tr : List (Call × M Objects)} (hr : IsRun Step (.ok []) tr)
    (hf : StepsMeet (OnCall Fits) (.ok []) tr) (he : StepsMeet (OnCall Ends) (.ok []) tr) :
    StatesMeet (Sound EndOk) (.ok []) tr := by
  have hQ : ∀ st, Sound (fun s => s.Valid ∧ s.Terminated) st → Sound EndOk st :=
    fun st h => h.mono fun s hs => ⟨hs.2, hs.2.cRead_eq⟩
  have hstep : ∀ st c st', Sound (fun s => s.Valid ∧ s.Terminated) st → Step st c st' →
      OnCall Fits st c ∧ OnCall Ends st c → Sound (fun s => s.Valid ∧ s.Terminated) st' :=
    fun _ _ _ hv hs hc => step_terminated hv hs hc.1 hc.2
  exact run_inv hQ hstep sound_nil hr (hf.and he)

/-! ## Runs of a few calls -/

/-- Each new byte is `0xAA`. -/
def fresh : Mem := some fun _ => 170

/-- `" ab"` is copied into a large object, which shrinks, and is trimmed there. -/
def copyAndTrim : List (Call × M Objects) :=
  let ab : Option Cstr := some ⟨23, 3, [32, 97, 98, 0] ++ List.replicate 20 170⟩
  [(.newStr fresh (some ⟨[32, 97, 98], by decide⟩), .ok [ab]),
    (.newSize fresh 300, .ok [ab, some ⟨503, 0, 0 :: List.replicate 503 170⟩]),
    (.copy fresh 1 0 0 0, .ok [ab, ab]),
    (.inPlace .trim 1, .ok [ab, some ⟨23, 2, [97, 98, 0, 0] ++ List.replicate 20 170⟩])]

theorem copyAndTrim_isRun : IsRun Step (.ok []) copyAndTrim := by
  refine ⟨.of_eq trivial ?_, .of_eq trivial ?_, .of_eq ⟨by decide, _, _, rfl, rfl, ?_⟩ ?_,
    .of_eq ⟨_, rfl, trivial⟩ ?_, trivial⟩ <;> decide +kernel

theorem copyAndTrim_fits : StepsMeet (OnCall Fits) (.ok []) copyAndTrim := by
  refine ⟨?_, ?_, ?_, ?_, trivial⟩
  · rintro _ ⟨⟩
    exact Or.inr (by decide +kernel)
  · rintro _ ⟨⟩
    trivial
  · -- the content that the copy goes over is empty
    rintro _ ⟨⟩ _ _ ⟨⟩ ⟨⟩
    exact Or.inr (Or.inr (Or.inr (Or.inl (by decide))))
  · rintro _ ⟨⟩
    trivial

theorem copyAndTrim_ends : StepsMeet (OnCall Ends) (.ok []) copyAndTrim := by
  refine ⟨?_, ?_, ?_, ?_, trivial⟩
  · rintro _ ⟨⟩
    trivial
  · rintro _ ⟨⟩
    trivial
  · rintro _ ⟨⟩
    trivial
  · rintro _ ⟨⟩ _ ⟨⟩
    exact Or.inr ⟨97, by decide, by decide⟩

theorem capOk_copyAndTrim : StatesMeet (Sound CapOk) (.ok []) copyAndTrim :=
  run_capOk copyAndTrim_isRun copyAndTrim_fits

theorem endOk_copyAndTrim : StatesMeet (Sound EndOk) (.ok []) copyAndTrim :=
  run_endOk copyAndTrim_isRun copyAndTrim_fits copyAndTrim_ends

/-- A large object gets 24 bytes of content, and 3 bytes are copied over them. -/
def copyShrinks : List (Call × M Objects) :=
  [(.newSize fresh 300, .ok [some ⟨503, 0, 0 :: List.replicate 503 170⟩]),
    (.insertStr fresh 0 0 (some ⟨List.replicate 24 120, by decide⟩) 0 0,
      .ok [some ⟨503, 24, List.replicate 24 120 ++ 0 :: List.replicate 479 170⟩]),
    (.copyStr fresh 0 (some ⟨[97, 98, 99], by decide⟩) 0 0, .ok [some ⟨23, 24, [97, 98, 99] ++ List.replicate 21 120⟩])]

theorem copyShrinks_isRun : IsRun Step (.ok []) copyShrinks := by
  refine ⟨.of_eq trivial ?_, .of_eq ⟨_, rfl, Nat.le_refl _, ?_⟩ ?_, .of_eq ⟨_, rfl, ?_⟩ ?_, trivial⟩
  · decide +kernel
  · rintro _ ⟨⟩ k hk
    have hlen : insertLen (CString.strlen ⟨List.replicate 24 120, by decide⟩) 0 0 = some 24 := by decide +kernel
    cases hlen.symm.trans hk
    decide +kernel
  · decide +kernel
  · rintro _ ⟨⟩
    decide +kernel
  · decide +kernel

theorem not_capOk_copyShrinks :
    ¬ ∀ tr : List (Call × M Objects), IsRun Step (.ok []) tr → StatesMeet (Sound CapOk) (.ok []) tr := by
  intro hall
  have hend : Sound CapOk (last (.ok []) copyShrinks) := (hall _ copyShrinks_isRun).last
  have hused := (hend _ (List.mem_singleton.2 rfl)).1
  exact absurd hused (by decide)

/-- Two blanks are trimmed. -/
def trimBlanks : List (Call × M Objects) :=
  [(.newStr fresh (some ⟨[32, 32], by decide⟩), .ok [some ⟨23, 2, [32, 32, 0] ++ List.replicate 21 170⟩]),
    (.inPlace .trim 0, .ok [some ⟨23, 0, [32, 32, 0] ++ List.replicate 21 170⟩])]

theorem trimBlanks_isRun : IsRun Step (.ok []) trimBlanks := by
  refine ⟨.of_eq trivial ?_, .of_eq ⟨_, rfl, trivial⟩ ?_, trivial⟩ <;> decide +kernel

theorem not_endOk_trimBlanks :
    ¬ ∀ tr : List (Call × M Objects), IsRun Step (.ok []) tr → StatesMeet (Sound EndOk) (.ok []) tr := by
  intro hall
  have hend : Sound EndOk (last (.ok []) trimBlanks) := (hall _ trimBlanks_isRun).last
  have hterm := (hend _ (List.mem_singleton.2 rfl)).1
  exact absurd hterm (by decide)

end TinyUtils.Cstr
