import TinyUtils.Cstr.Contents
/-!
# Programs on strings

A program is a run of calls. Where each call gets a block for its result and no `cstr_trim_tail` has one byte to leave, the
program moves the strings by edits (`run_strings`), and where there is room for each, the strings are what its edits make of nothing, one after the other,
whatever `malloc` and `realloc` left in the blocks and whichever blocks they gave (`run_strings_in_room`).

What a program computes is then read off its edits: a string that is taken to pieces by `cstr_sub_cstr` and put
together by `cstr_append` is the string again (`rejoin_same`).
-/

namespace TinyUtils.Cstr

open Checked Edits Runs

/-- The strings of the objects, as long as no fault has stopped the program. -/
def view (st : M Objects) : M (Strings Byte) := st.map strings

/-- A call as a user sees it: the edit is made, or refused, or the program stops. -/
inductive Does : M (Strings Byte) → Edit Byte → M (Strings Byte) → Prop
  | edited {ss : Strings Byte} {e : Edit Byte} : Does (.ok ss) e (.ok (e.apply ss))
  | refused {ss : Strings Byte} {e : Edit Byte} : Does (.ok ss) e (.ok ss)
  | stopped {ss : Strings Byte} {e : Edit Byte} : Does (.ok ss) e (.error .null)

/-- The edit is made. -/
def make (st : M (Strings Byte)) (e : Edit Byte) : M (Strings Byte) := st.map fun ss => e.apply ss

theorem foldl_make (es : List (Edit Byte)) (ss : Strings Byte) :
    es.foldl make (.ok ss) = .ok (es.foldl (fun ss e => e.apply ss) ss) := by
  induction es generalizing ss with
  | nil => rfl
  | cons e es ih => exact ih (e.apply ss)

/-- The call gets a block for its result, and is no `trimTail` that has one byte to leave. -/
def FitsPlain (os : Objects) (c : Call) : Prop := Fits os c ∧ Plain os c

/-- There is room for its result too. -/
def InRoom (os : Objects) (c : Call) : Prop := FitsPlain os c ∧ ¬ NoRoom os c

section
variable {st st' : M Objects} {c : Call}

theorem step_view (hv : Sound Valid st) (hs : Step st c st') (hc : OnCall FitsPlain st c) :
    Does (view st) c.edit (view st') := by
  cases hs with
  | @call os _ hr =>
    have h := exec_edit hv hr (hc _ rfl).1 (hc _ rfl).2
    cases hx : exec os c with
    | error e =>
      rw [hx] at h
      obtain ⟨rfl, _⟩ := h
      exact .stopped
    | ok os' =>
      rw [hx] at h
      rcases h with h | ⟨h, _⟩
      · simp only [view, Except.map, h]
        exact .edited
      · simp only [view, Except.map, h]
        exact .refused

theorem step_view_in_room (hv : Sound Valid st) (hs : Step st c st') (hc : OnCall InRoom st c) :
    view st' = make (view st) c.edit := by
  cases hs with
  | @call os _ hr =>
    obtain ⟨⟨hf, hp⟩, hroom⟩ := hc _ rfl
    have h := exec_edit hv hr hf hp
    cases hx : exec os c with
    | error e =>
      rw [hx] at h
      exact absurd h.2 hroom
    | ok os' =>
      rw [hx] at h
      rcases h with h | ⟨_, h⟩
      · simp only [view, make, Except.map, h]
      · exact absurd h hroom

end

/-- The run as a user sees it. -/
def asEdits (st : M Objects) (tr : List (Call × M Objects)) : List (Edit Byte × M (Strings Byte)) :=
  image view (fun _ c _ => c.edit) st tr

/-- **A program does nothing but edit strings**, if each call gets a block for its result and none is a `trimTail` that has
one byte to leave. -/
theorem run_strings {tr : List (Call × M Objects)} (hr : IsRun Step (.ok []) tr)
    (hc : StepsMeet (OnCall FitsPlain) (.ok []) tr) : IsRun Does (.ok []) (asEdits (.ok []) tr) := by
  have hvalid : ∀ st c st', Sound Valid st → Step st c st' → OnCall FitsPlain st c → Sound Valid st' :=
    fun _ _ _ hv hs hc => step_valid hv hs fun os h => (hc os h).1
  exact isRun_image_of hvalid (fun _ _ _ => step_view) sound_nil hr hc

/-- Where there is room, the strings go through the edits one after the other. -/
theorem view_last {st : M Objects} {tr : List (Call × M Objects)} (hv : Sound Valid st) (hr : IsRun Step st tr)
    (hc : StepsMeet (OnCall InRoom) st tr) : view (last st tr) = (tr.map fun x => x.1.edit).foldl make (view st) := by
  have hvalid : ∀ st c st', Sound Valid st → Step st c st' → OnCall InRoom st c → Sound Valid st' :=
    fun _ _ _ hv hs hc => step_valid hv hs fun os h => (hc os h).1.1
  have himage : IsRun (fun s e s' => s' = make s e) (view st) (asEdits st tr) := by
    apply isRun_image_of hvalid _ hv hr hc
    exact fun _ _ _ => step_view_in_room
  have hlast : last (view st) (asEdits st tr) = view (last st tr) := last_image ..
  have hlabels : (asEdits st tr).map Prod.fst = tr.map fun x => x.1.edit := labels_image.trans List.map_map
  rw [← hlast, last_eq_foldl himage, hlabels]

/-- **The strings are what the edits of the program make of nothing**, if there is room for each call too. -/
theorem run_strings_in_room {tr : List (Call × M Objects)} (hr : IsRun Step (.ok []) tr)
    (hc : StepsMeet (OnCall InRoom) (.ok []) tr) :
    view (last (.ok []) tr) = .ok ((tr.map fun x => x.1.edit).foldl (fun ss e => e.apply ss) []) :=
  (view_last sound_nil hr hc).trans (foldl_make _ [])

theorem copyAndTrim_fitsPlain : StepsMeet (OnCall FitsPlain) (.ok []) copyAndTrim := by
  have hplain : StepsMeet (OnCall Plain) (.ok []) copyAndTrim :=
    ⟨fun _ _ => trivial, fun _ _ => trivial, fun _ _ => trivial, fun _ _ => trivial, trivial⟩
  exact (copyAndTrim_fits.and hplain).imp fun _ _ h os hos => ⟨h.1 os hos, h.2 os hos⟩

theorem copyAndTrim_inRoom : StepsMeet (OnCall InRoom) (.ok []) copyAndTrim := by
  have hroom : StepsMeet (OnCall fun os c => ¬ NoRoom os c) (.ok []) copyAndTrim := by
    refine ⟨fun _ _ => ?_, fun _ _ => ?_, fun _ _ => ?_, fun _ _ => ?_, trivial⟩
    · rintro (hmem | ⟨s, hs, hlong⟩)
      · cases hmem
      · cases hs
        exact Nat.not_lt.2 (by decide +kernel) hlong
    · rintro (hmem | hlong)
      · cases hmem
      · exact Nat.not_lt.2 (by decide) hlong
    · exact nofun
    · exact id
  exact (copyAndTrim_fitsPlain.and hroom).imp fun _ _ h os hos => ⟨h.1 os hos, h.2 os hos⟩

theorem strings_copyAndTrim : IsRun Does (.ok []) (asEdits (.ok []) copyAndTrim) :=
  run_strings copyAndTrim_isRun copyAndTrim_fitsPlain

theorem strings_in_room_copyAndTrim :
    view (last (.ok []) copyAndTrim) = .ok ((copyAndTrim.map fun x => x.1.edit).foldl (fun ss e => e.apply ss) []) :=
  run_strings_in_room copyAndTrim_isRun copyAndTrim_inRoom

/-! ## A string in pieces -/

/-- The program that takes the string `i` to pieces and appends them to `a`, by way of `b`. A piece is its length and
what the two allocations give. -/
def rejoin (i a b : Nat) : Nat → List (Nat × Mem × Mem) → List Call
  | _, [] => []
  | begin, (len, m, m') :: ps => .subCstr m b i begin len :: .append m' a b :: rejoin i a b (begin + len) ps

/-- What the program does to the strings, from the piece at `begin` on. -/
theorem rejoin_edits {i a b : Nat} (hia : i ≠ a) (hib : i ≠ b) (hab : a ≠ b) {s : List Byte} :
    ∀ {ps : List (Nat × Mem × Mem)} {begin : Nat} {ss : Strings Byte} {d x : List Byte}, (∀ p ∈ ps, 0 < p.1) →
      begin + (ps.map Prod.fst).sum ≤ s.length → stringAt ss i = some s → stringAt ss a = some d →
      stringAt ss b = some x →
      stringAt (((rejoin i a b begin ps).map Call.edit).foldl (fun ss e => e.apply ss) ss) a =
        some (d ++ (s.drop begin).take (ps.map Prod.fst).sum) := by
  intro ps
  induction ps with
  | nil =>
    intro begin ss d x _ _ _ ha _
    simp [rejoin, ha]
  | cons p ps ih =>
    intro begin ss d x hpos hsum hi ha hb
    obtain ⟨len, m, m'⟩ := p
    have hlen : 0 < len := hpos _ List.mem_cons_self
    simp only [List.map_cons, List.sum_cons] at hsum ⊢
    have hpiece : extract x s begin len = (s.drop begin).take len := by
      rw [extract, if_neg (by omega)]
    -- the strings after the two calls for this piece
    have hsub := apply_combine hb hi (fun d s => extract d s begin len)
    rw [hpiece] at hsub
    have hi₁ : stringAt (ss.set b (some ((s.drop begin).take len))) i = some s := (stringAt_set_of_ne hib.symm _).trans hi
    have ha₁ : stringAt (ss.set b (some ((s.drop begin).take len))) a = some d := (stringAt_set_of_ne hab.symm _).trans ha
    have hb₁ := stringAt_set_self hb (some ((s.drop begin).take len))
    have happ := apply_combine ha₁ hb₁ (fun d s => d ++ s)
    have hi₂ := (stringAt_set_of_ne hia.symm (some (d ++ (s.drop begin).take len))).trans hi₁
    have ha₂ := stringAt_set_self ha₁ (some (d ++ (s.drop begin).take len))
    have hb₂ := (stringAt_set_of_ne hab (some (d ++ (s.drop begin).take len))).trans hb₁
    have hsum' : begin + len + (ps.map Prod.fst).sum ≤ s.length := by omega
    have hrest := ih (fun p hp => hpos p (List.mem_cons_of_mem _ hp)) hsum' hi₂ ha₂ hb₂
    simp only [rejoin, List.map_cons, List.foldl_cons, Call.edit]
    rw [hsub, happ, hrest, List.append_assoc, List.take_add, List.drop_drop]

/-- **A string is the same in pieces**: taking it to pieces, none of them empty, and appending them one by one to an empty
string gives the string again, if there is room for each call. -/
theorem rejoin_same {os : Objects} {i a b : Nat} {s d x : Cstr} (hv : ∀ s, some s ∈ os → s.Valid)
    (hne : i ≠ a ∧ i ≠ b ∧ a ≠ b) (hi : fetch os i = some s) (ha : fetch os a = some d) (hb : fetch os b = some x)
    (hd : d.content = []) {ps : List (Nat × Mem × Mem)} (hpos : ∀ p ∈ ps, 0 < p.1) (hsum : (ps.map Prod.fst).sum = s.used)
    {tr : List (Call × M Objects)} (hr : IsRun Step (.ok os) tr) (hcalls : tr.map Prod.fst = rejoin i a b 0 ps)
    (hc : StepsMeet (OnCall InRoom) (.ok os) tr) :
    ∃ os' t, last (.ok os) tr = .ok os' ∧ fetch os' a = some t ∧ t.content = s.content := by
  have hlen := (hv s (fetch_mem hi)).length_content
  have hlast : view (last (.ok os) tr) =
      .ok (((rejoin i a b 0 ps).map Call.edit).foldl (fun ss e => e.apply ss) (strings os)) := by
    rw [← hcalls, ← foldl_make, List.map_map]
    exact view_last hv hr hc
  have hedits := rejoin_edits hne.1 hne.2.1 hne.2.2 hpos (show 0 + (ps.map Prod.fst).sum ≤ s.content.length by omega)
    (stringAt_strings_eq hi) (stringAt_strings_eq ha) (stringAt_strings_eq hb)
  rw [hd, List.nil_append, List.drop_zero, hsum, ← hlen, List.take_length] at hedits
  cases hst : last (.ok os) tr with
  | error e =>
    rw [hst] at hlast
    cases hlast
  | ok os' =>
    rw [hst] at hlast
    have heq : strings os' = _ := Except.ok.inj hlast
    rw [← heq, stringAt_strings, Option.map_eq_some_iff] at hedits
    obtain ⟨t, ht, htc⟩ := hedits
    exact ⟨os', t, rfl, ht, htc⟩

/-- `"abc"` by way of `"a"` and `"bc"`. -/
def abcPieces : List (Nat × Mem × Mem) := [(1, fresh, fresh), (2, fresh, fresh)]

def abcRejoined : List (Call × M Objects) :=
  let abc : Option Cstr := some (small [97, 98, 99])
  [(.subCstr fresh 2 0 0 1, .ok [abc, some (small []), some (small [97])]),
    (.append fresh 1 2, .ok [abc, some (small [97]), some (small [97])]),
    (.subCstr fresh 2 0 1 2, .ok [abc, some (small [97]), some (small [98, 99])]),
    (.append fresh 1 2, .ok [abc, abc, some (small [98, 99])])]

theorem abcRejoined_isRun : IsRun Step (.ok [some (small [97, 98, 99]), some (small []), some (small [])]) abcRejoined := by
  refine ⟨.of_eq ⟨by decide, _, _, rfl, rfl, ?_⟩ ?_, .of_eq ⟨by decide, _, _, rfl, rfl, trivial⟩ ?_,
    .of_eq ⟨by decide, _, _, rfl, rfl, ?_⟩ ?_, .of_eq ⟨by decide, _, _, rfl, rfl, trivial⟩ ?_, trivial⟩
  · intro k hk
    cases hk.symm.trans (show subLen _ 0 1 = some 1 by decide +kernel)
    decide
  · decide +kernel
  · decide +kernel
  · intro k hk
    cases hk.symm.trans (show subLen _ 1 2 = some 2 by decide +kernel)
    decide
  · decide +kernel
  · decide +kernel

theorem abcRejoined_inRoom :
    StepsMeet (OnCall InRoom) (.ok [some (small [97, 98, 99]), some (small []), some (small [])]) abcRejoined := by
  refine ⟨?_, ?_, ?_, ?_, trivial⟩
  · rintro _ ⟨⟩
    exact ⟨⟨trivial, trivial⟩, nofun⟩
  · rintro _ ⟨⟩
    refine ⟨⟨trivial, trivial⟩, ?_⟩
    rintro (hmem | ⟨_, _, ⟨⟩, ⟨⟩, hlong⟩)
    · cases hmem
    · exact Nat.not_lt.2 (by decide) hlong
  · rintro _ ⟨⟩
    exact ⟨⟨trivial, trivial⟩, nofun⟩
  · rintro _ ⟨⟩
    refine ⟨⟨trivial, trivial⟩, ?_⟩
    rintro (hmem | ⟨_, _, ⟨⟩, ⟨⟩, hlong⟩)
    · cases hmem
    · exact Nat.not_lt.2 (by decide) hlong

theorem rejoin_same_abc :
    ∃ os' t, last (.ok [some (small [97, 98, 99]), some (small []), some (small [])]) abcRejoined = .ok os' ∧
      fetch os' 1 = some t ∧ t.content = (small [97, 98, 99]).content := by
  have hcalls : abcRejoined.map Prod.fst = rejoin 0 1 2 0 abcPieces := rfl
  refine rejoin_same (x := small []) ?_ (by decide) rfl rfl rfl rfl ?_ rfl abcRejoined_isRun hcalls abcRejoined_inRoom
  · simp only [List.mem_cons, Option.some.injEq, List.not_mem_nil, or_false]
    rintro s (rfl | rfl | rfl) <;> exact small_valid (by decide)
  · simp [abcPieces]

end TinyUtils.Cstr
