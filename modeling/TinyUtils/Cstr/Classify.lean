import TinyUtils.Cstr.Search.Model
/-!
# The classifiers (`c_utils/cstr.c:118-131`, `:591-646`)

`isDigit` counts digits and dots on its way and looks at the counts at the end; it refuses a dot alone. `isHex`
finds no fault with the prefix alone, since its loop then has no turn (`classifiers_exact_iff`).

All bounds are below 128, so that it does not matter here that a plain `char` is signed. They also take `NULL`, which
is nothing of all this; here an object is given.

| here | there |
| --- | --- |
| `isStartWith`              | `cstr_is_start_with` (`:118`) |
| `allFrom`                  | the loops of `cstr_is_hex` and `cstr_is_alphabet` |
| `isHex`, `isDigit`, `isAlphabet` | `:591`, `:609`, `:633` |
-/

namespace TinyUtils

open Checked Loops

namespace Cstr

def isStartWith (s : Cstr) (str : CString) : M Bool :=
  let len := str.strlen
  if len > s.used then .ok false
  else if len = 0 then .ok true
  else do
    let i ← scanUp (sameAt s str 0) len 0
    .ok (len ≤ i)

/-- `for(i = beg; i < cstr->used; ++i) if(!p(cstr->data[i])) return false; return true;` -/
def allFrom (p : Byte → Bool) (s : Cstr) (beg : Nat) : M Bool := do
  let i ← scanUp (fun i => p <$> s.byteAt i) (s.used - beg) beg
  .ok (s.used ≤ i)

/-- `'0' <= c && c <= '9'` -/
def isDecDigit (c : Byte) : Bool := 48 ≤ c && c ≤ 57

def isHexDigit (c : Byte) : Bool := isDecDigit c || (97 ≤ c && c ≤ 102) || (65 ≤ c && c ≤ 70)

def isLetter (c : Byte) : Bool := (97 ≤ c && c ≤ 122) || (65 ≤ c && c ≤ 90)

theorem noNul_lowerPrefix : (0 : Byte) ∉ [48, 120] := by decide

theorem noNul_upperPrefix : (0 : Byte) ∉ [48, 88] := by decide

/-- "0x" -/
def lowerPrefix : CString := ⟨[48, 120], noNul_lowerPrefix⟩

/-- "0X" -/
def upperPrefix : CString := ⟨[48, 88], noNul_upperPrefix⟩

/-- `cstr_is_start_with(cstr,"0x") || cstr_is_start_with(cstr,"0X")` -/
def hexPrefixed (s : Cstr) : M Bool := do
  let lower ← s.isStartWith lowerPrefix
  if lower then .ok true else s.isStartWith upperPrefix

def isHex (s : Cstr) : M Bool :=
  if s.used = 0 then .ok false
  else do
    let prefixed ← s.hexPrefixed
    if !prefixed then .ok false else allFrom isHexDigit s 2

/-- The loop of `isDigit`, with `turns` to go; `none` is its `return false`. -/
def digitLoop (s : Cstr) : Nat → Nat → Nat → Nat → M (Option (Nat × Nat))
  | 0, _, dotNum, dNum => .ok (some (dotNum, dNum))
  | turns + 1, i, dotNum, dNum => do
    let c ← s.byteAt i
    if !isDecDigit c && c != 46 then .ok none
    else if c = 46 then digitLoop s turns (i + 1) (u32 (dotNum + 1)) dNum
    else digitLoop s turns (i + 1) dotNum (u32 (dNum + 1))

def isDigit (s : Cstr) : M Bool :=
  if s.used = 0 then .ok false
  else do
    match ← digitLoop s s.used 0 0 0 with
    | none => .ok false
    | some (dotNum, dNum) =>
      if dotNum > 1 then .ok false
      else if dotNum = 1 ∧ dNum = 0 then .ok false
      else .ok true

def isAlphabet (s : Cstr) : M Bool := if s.used = 0 then .ok false else allFrom isLetter s 0

/-! ## The grammars -/

/-- One or more digits, and at most one dot anywhere among them. -/
def Decimal (c : List Byte) : Prop :=
  ∃ ds es, (c = ds ++ es ∨ c = ds ++ 46 :: es) ∧ ds ++ es ≠ [] ∧ ∀ d ∈ ds ++ es, isDecDigit d = true

/-- The prefix, and then one or more digits. -/
def HexNumeral (c : List Byte) : Prop :=
  ∃ x ds, c = 48 :: x :: ds ∧ (x = 120 ∨ x = 88) ∧ ds ≠ [] ∧ ∀ d ∈ ds, isHexDigit d = true

/-! ## Loops -/

variable {s : Cstr}

theorem allFrom_spec (hv : s.Valid) (p : Byte → Bool) {beg : Nat} (hbeg : beg ≤ s.used) :
    ∃ b, allFrom p s beg = .ok b ∧ (b = true ↔ ∀ c ∈ s.content.drop beg, p c = true) := by
  have hcond : ∀ i, i < s.used → ∃ b, (p <$> s.byteAt i : M Bool) = .ok b ∧
      (b = true ↔ ∀ c, s.content[i]? = some c → p c = true) := by
    intro i hi
    obtain ⟨c, hc, hget⟩ := hv.byteAt_content hi
    refine ⟨p c, by rw [hc]; rfl, ?_⟩
    rw [hget]
    constructor
    · rintro h d hd
      cases hd
      exact h
    · intro h
      exact h c rfl
  obtain ⟨r, hr, hle, hall, hstop⟩ := scanUp_spec hcond (Nat.add_sub_cancel' hbeg)
  refine ⟨decide (s.used ≤ r), by rw [allFrom, hr, ok_bind], ?_⟩
  rw [decide_eq_true_iff]
  constructor
  · intro hend c hc
    obtain ⟨k, hk⟩ := List.mem_iff_getElem?.1 hc
    rw [List.getElem?_drop] at hk
    have hlt : beg + k < s.content.length := (List.getElem?_eq_some_iff.1 hk).1
    rw [hv.length_content] at hlt
    exact hall (beg + k) (Nat.le_add_right _ _) (by omega) c hk
  · intro h
    by_contra hlt
    have hbegr : beg ≤ r := le_scanUp hr
    apply hstop (by omega)
    intro c hc
    apply h c
    rw [List.mem_iff_getElem?]
    refine ⟨r - beg, ?_⟩
    rw [List.getElem?_drop, Nat.add_sub_cancel' hbegr]
    exact hc

theorem sym_bytes (str : CString) {k : Nat} (hk : k < str.bytes.length) : str.sym k = some str.bytes[k] := by
  rw [CString.sym, CString.memory, List.getElem?_append_left hk, List.getElem?_eq_getElem hk]

theorem isStartWith_spec (hv : s.Valid) (str : CString) (hlen : str.bytes.length < 2 ^ 32) :
    ∃ b, s.isStartWith str = .ok b ∧ (b = true ↔ str.bytes <+: s.content) := by
  have hlt := hv.used_lt
  have hstrlen : str.strlen = str.bytes.length := CString.strlen_eq hlen
  unfold isStartWith
  simp only [hstrlen]
  by_cases hlong : str.bytes.length > s.used
  · refine ⟨false, if_pos hlong, iff_of_false Bool.false_ne_true ?_⟩
    intro hpre
    have hle := hpre.length_le
    rw [hv.length_content] at hle
    omega
  · rw [if_neg hlong]
    by_cases hzero : str.bytes.length = 0
    · refine ⟨true, if_pos hzero, iff_of_true rfl ?_⟩
      rw [List.length_eq_zero_iff.1 hzero]
      exact List.nil_prefix
    · rw [if_neg hzero]
      have hcond : ∀ k, k < str.bytes.length → ∃ b, sameAt s str 0 k = .ok b ∧
          (b = true ↔ s.content[k]? = str.bytes[k]?) := by
        intro k hk
        obtain ⟨b, hb, hP⟩ := sameAt_spec s str (i := 0) (show 0 + k < s.data.length by omega) hk
        refine ⟨b, hb, ?_⟩
        rw [hP, sym_bytes str hk, List.getElem?_eq_getElem hk, sym, Nat.zero_add, content,
          List.getElem?_take_of_lt (by omega)]
      obtain ⟨r, hr, hle, hall, hstop⟩ := scanUp_spec hcond (Nat.zero_add _)
      refine ⟨decide (str.bytes.length ≤ r), by rw [hr, ok_bind], ?_⟩
      rw [decide_eq_true_iff, List.prefix_iff_getElem?]
      constructor
      · intro hend k hk
        rw [hall k (Nat.zero_le k) (by omega), List.getElem?_eq_getElem hk]
      · intro h
        by_contra hlt'
        have hr' : r < str.bytes.length := by omega
        apply hstop hr'
        rw [h r hr', List.getElem?_eq_getElem hr']

/-- The loop of `isDigit` ends with the counts, or at a byte that is neither. -/
theorem digitLoop_spec : ∀ {turns i dotNum dNum : Nat}, i + turns ≤ s.data.length → dotNum + turns < 2 ^ 32 →
    dNum + turns < 2 ^ 32 → digitLoop s turns i dotNum dNum =
      .ok (if (slice s.data i turns).all (fun c => isDecDigit c || c == 46) then
        some (dotNum + (slice s.data i turns).count 46, dNum + (slice s.data i turns).countP isDecDigit)
      else none) := by
  intro turns
  induction turns with
  | zero =>
    intro i dotNum dNum _ _ _
    rfl
  | succ turns ih =>
    intro i dotNum dNum hi hdot hd
    have hlt : i < s.data.length := by omega
    have hbyte : s.byteAt i = .ok s.data[i] := byteAt_eq (List.getElem?_eq_getElem hlt)
    have hslice : slice s.data i (turns + 1) = s.data[i] :: slice s.data (i + 1) turns := by
      rw [slice, List.drop_eq_getElem_cons hlt, List.take_succ_cons]
      rfl
    rw [digitLoop, hbyte, ok_bind, hslice]
    generalize s.data[i] = c
    simp only [List.all_cons, List.count_cons, List.countP_cons]
    by_cases hdig : isDecDigit c = true
    · have hc : c ≠ 46 := by
        rintro rfl
        exact absurd hdig (by decide)
      have hu : u32 (dNum + 1) = dNum + 1 := u32_eq (by omega)
      simp only [hdig, hc, hu, Bool.not_true, Bool.false_and, Bool.false_eq_true, if_false, if_true, Bool.true_or,
        Bool.true_and, beq_iff_eq, Nat.add_zero]
      rw [ih (by omega) (by omega) (by omega)]
      simp only [Nat.add_assoc, Nat.add_comm 1]
    · by_cases hc : c = 46
      · subst hc
        have hu : u32 (dotNum + 1) = dotNum + 1 := u32_eq (by omega)
        simp only [hdig, hu, bne_self_eq_false, Bool.and_false, Bool.false_eq_true, if_false, if_true, Bool.or_true,
          Bool.true_and, beq_self_eq_true, Nat.add_zero]
        rw [ih (by omega) (by omega) (by omega)]
        simp only [Nat.add_assoc, Nat.add_comm 1]
      · have hnot : (isDecDigit c || c == 46) = false := by
          simp [hdig, hc]
        rw [if_pos (by simp [hdig, hc]), hnot, Bool.false_and, if_neg Bool.false_ne_true]

/-! ## What is accepted -/

theorem not_isDecDigit_dot : ¬isDecDigit 46 = true := by decide

theorem digits_iff {c : List Byte} (hnone : c.count 46 = 0) :
    (∀ d ∈ c, isDecDigit d = true ∨ d = 46) ↔ ∀ d ∈ c, isDecDigit d = true := by
  have hdot : (46 : Byte) ∉ c := List.count_eq_zero.1 hnone
  constructor
  · intro h d hd
    rcases h d hd with hdigit | rfl
    · exact hdigit
    · exact absurd hd hdot
  · intro h d hd
    exact Or.inl (h d hd)

theorem count_dot_of_digits {c : List Byte} (h : ∀ d ∈ c, isDecDigit d = true) : c.count 46 = 0 := by
  rw [List.count_eq_zero]
  intro hmem
  exact not_isDecDigit_dot (h 46 hmem)

theorem ne_nil_iff_of_digits {c : List Byte} (h : ∀ d ∈ c, isDecDigit d = true) : c ≠ [] ↔ 0 < c.countP isDecDigit := by
  rw [List.countP_eq_length.2 h, List.length_pos_iff]

/-- A dot counts as one, wherever it is. -/
theorem counts_dot (ds es : List Byte) :
    (ds ++ 46 :: es).count 46 = (ds ++ es).count 46 + 1 ∧
      (ds ++ 46 :: es).countP isDecDigit = (ds ++ es).countP isDecDigit ∧
      ((∀ d ∈ ds ++ 46 :: es, isDecDigit d = true ∨ d = 46) ↔ ∀ d ∈ ds ++ es, isDecDigit d = true ∨ d = 46) := by
  have hperm : (ds ++ 46 :: es).Perm (46 :: (ds ++ es)) := List.perm_middle
  refine ⟨?_, ?_, ?_⟩
  · rw [hperm.count_eq, List.count_cons_self]
  · rw [hperm.countP_eq, List.countP_cons_of_neg not_isDecDigit_dot]
  · simp only [hperm.mem_iff, List.forall_mem_cons, or_true, true_and]

/-- The grammar by the counts. -/
theorem decimal_iff (c : List Byte) : Decimal c ↔ (∀ d ∈ c, isDecDigit d = true ∨ d = 46) ∧ c.count 46 ≤ 1 ∧
    0 < c.countP isDecDigit := by
  constructor
  · rintro ⟨ds, es, hc, hne, hdigits⟩
    have hnone := count_dot_of_digits hdigits
    have hpos := (ne_nil_iff_of_digits hdigits).1 hne
    have hall := (digits_iff hnone).2 hdigits
    rcases hc with rfl | rfl
    · exact ⟨hall, by omega, hpos⟩
    · obtain ⟨hdots, hdigs, hmem⟩ := counts_dot ds es
      rw [hdots, hdigs, hmem]
      exact ⟨hall, by omega, hpos⟩
  · rintro ⟨hall, hdots, hpos⟩
    by_cases hdot : (46 : Byte) ∈ c
    -- what is before the dot and what is behind it
    · obtain ⟨ds, es, rfl⟩ := List.append_of_mem hdot
      obtain ⟨hcount, hdigs, hmem⟩ := counts_dot ds es
      rw [hmem] at hall
      rw [hdigs] at hpos
      have hdigits := (digits_iff (by omega)).1 hall
      exact ⟨ds, es, Or.inr rfl, (ne_nil_iff_of_digits hdigits).2 hpos, hdigits⟩
    · have hdigits := (digits_iff (List.count_eq_zero.2 hdot)).1 hall
      refine ⟨c, [], Or.inl (List.append_nil c).symm, ?_⟩
      rw [List.append_nil]
      exact ⟨(ne_nil_iff_of_digits hdigits).2 hpos, hdigits⟩

theorem length_le_counts {c : List Byte} (h : ∀ d ∈ c, isDecDigit d = true ∨ d = 46) :
    c.length ≤ c.count 46 + c.countP isDecDigit := by
  have hdots : c.countP (fun d => ¬isDecDigit d = true) ≤ c.count 46 := by
    apply List.countP_mono_left
    intro d hd hnot
    rcases h d hd with hdig | rfl
    · exact absurd hdig (of_decide_eq_true hnot)
    · rfl
  have hlen := List.length_eq_countP_add_countP isDecDigit (l := c)
  omega

theorem all_numeric_iff {c : List Byte} :
    c.all (fun d => isDecDigit d || d == 46) = true ↔ ∀ d ∈ c, isDecDigit d = true ∨ d = 46 := by
  simp only [List.all_eq_true, Bool.or_eq_true, beq_iff_eq]

theorem isDigit_spec (hv : s.Valid) : ∃ b, s.isDigit = .ok b ∧ (b = true ↔ Decimal s.content) := by
  have hlt := hv.used_lt
  have hbound := hv.used_add_le
  have hloop : digitLoop s s.used 0 0 0 = _ :=
    digitLoop_spec (by omega) (by omega) (by omega)
  have hslice : slice s.data 0 s.used = s.content := by rw [slice, List.drop_zero, content]
  rw [hslice, Nat.zero_add, Nat.zero_add] at hloop
  rw [decimal_iff]
  unfold isDigit
  by_cases h0 : s.used = 0
  · refine ⟨false, if_pos h0, iff_of_false Bool.false_ne_true ?_⟩
    rintro ⟨_, _, hpos⟩
    rw [content_of_used_eq_zero h0] at hpos
    exact absurd hpos (Nat.lt_irrefl 0)
  · rw [if_neg h0, hloop, ok_bind]
    by_cases hall : ∀ c ∈ s.content, isDecDigit c = true ∨ c = 46
    · simp only [if_pos (all_numeric_iff.2 hall)]
      have hsum := length_le_counts hall
      rw [hv.length_content] at hsum
      by_cases hdots : s.content.count 46 > 1
      · exact ⟨false, if_pos hdots, iff_of_false Bool.false_ne_true (fun h => by omega)⟩
      · rw [if_neg hdots]
        by_cases hone : s.content.count 46 = 1 ∧ s.content.countP isDecDigit = 0
        · exact ⟨false, if_pos hone, iff_of_false Bool.false_ne_true (fun h => by omega)⟩
        · exact ⟨true, if_neg hone, iff_of_true rfl ⟨hall, by omega, by omega⟩⟩
    · simp only [if_neg (fun h => hall (all_numeric_iff.1 h))]
      exact ⟨false, rfl, iff_of_false Bool.false_ne_true (fun h => hall h.1)⟩

theorem prefix_two_iff {x y : Byte} {c : List Byte} : [x, y] <+: c ↔ ∃ ds, c = x :: y :: ds := by
  constructor
  · rintro ⟨ds, rfl⟩
    exact ⟨ds, rfl⟩
  · rintro ⟨ds, rfl⟩
    exact ⟨ds, rfl⟩

theorem hexPrefixed_spec (hv : s.Valid) : ∃ b, s.hexPrefixed = .ok b ∧
    (b = true ↔ ∃ x ds, s.content = 48 :: x :: ds ∧ (x = 120 ∨ x = 88)) := by
  obtain ⟨b1, hb1, hlower⟩ := isStartWith_spec hv lowerPrefix (by decide)
  obtain ⟨b2, hb2, hupper⟩ := isStartWith_spec hv upperPrefix (by decide)
  refine ⟨b1 || b2, ?_, ?_⟩
  · rw [hexPrefixed, hb1, ok_bind]
    cases b1 with
    | false => exact hb2
    | true => rfl
  · rw [Bool.or_eq_true, hlower, hupper, lowerPrefix, upperPrefix, prefix_two_iff, prefix_two_iff]
    constructor
    · rintro (⟨ds, hc⟩ | ⟨ds, hc⟩)
      · exact ⟨_, ds, hc, Or.inl rfl⟩
      · exact ⟨_, ds, hc, Or.inr rfl⟩
    · rintro ⟨x, ds, hc, rfl | rfl⟩
      · exact Or.inl ⟨ds, hc⟩
      · exact Or.inr ⟨ds, hc⟩

/-- `isHex` does not ask for a digit. -/
theorem isHex_spec (hv : s.Valid) : ∃ b, s.isHex = .ok b ∧
    (b = true ↔ ∃ x ds, s.content = 48 :: x :: ds ∧ (x = 120 ∨ x = 88) ∧ ∀ d ∈ ds, isHexDigit d = true) := by
  obtain ⟨b, hb, hpre⟩ := hexPrefixed_spec hv
  unfold isHex
  by_cases h0 : s.used = 0
  · refine ⟨false, if_pos h0, iff_of_false Bool.false_ne_true ?_⟩
    rintro ⟨x, ds, hc, _⟩
    rw [content_of_used_eq_zero h0] at hc
    cases hc
  · rw [if_neg h0, hb, ok_bind]
    cases b with
    | false =>
      refine ⟨false, rfl, iff_of_false Bool.false_ne_true ?_⟩
      rintro ⟨x, ds, hc, hx, _⟩
      exact Bool.false_ne_true (hpre.2 ⟨x, ds, hc, hx⟩)
    | true =>
      obtain ⟨x, ds, hc, hx⟩ := hpre.1 rfl
      have hlen := hv.length_content
      rw [hc, List.length_cons, List.length_cons] at hlen
      obtain ⟨b, hall, hiff⟩ := allFrom_spec hv isHexDigit (show 2 ≤ s.used by omega)
      refine ⟨b, hall, ?_⟩
      rw [hiff, hc]
      constructor
      · intro h
        exact ⟨x, ds, rfl, hx, h⟩
      · rintro ⟨y, es, heq, _, h⟩
        cases heq
        exact h

/-- **The classifiers accept their grammars**, except that `isHex` takes the prefix alone for a numeral. -/
theorem classifiers_exact_iff (hv : s.Valid) :
    ((∃ b, s.isDigit = .ok b ∧ (b = true ↔ Decimal s.content)) ∧
      ∃ b, s.isHex = .ok b ∧ (b = true ↔ HexNumeral s.content)) ↔
      s.content ≠ lowerPrefix.bytes ∧ s.content ≠ upperPrefix.bytes := by
  obtain ⟨b, hb, hiff⟩ := isHex_spec hv
  have hdigit := isDigit_spec hv
  constructor
  · rintro ⟨_, b', hb', hiff'⟩
    rw [hb] at hb'
    cases hb'
    -- the prefix alone is accepted, and no numeral
    have hnot {x : Byte} (hx : x = 120 ∨ x = 88) : s.content ≠ [48, x] := by
      intro hc
      have hyes : b = true := hiff.2 ⟨x, [], hc, hx, fun d hd => nomatch hd⟩
      obtain ⟨y, ds, hds, _, hne, _⟩ := hiff'.1 hyes
      rw [hc] at hds
      cases hds
      exact hne rfl
    exact ⟨hnot (Or.inl rfl), hnot (Or.inr rfl)⟩
  · rintro ⟨hlower, hupper⟩
    refine ⟨hdigit, b, hb, hiff.trans ?_⟩
    constructor
    · rintro ⟨x, ds, hc, hx, hall⟩
      refine ⟨x, ds, hc, hx, ?_, hall⟩
      rintro rfl
      rcases hx with rfl | rfl
      · exact hlower hc
      · exact hupper hc
    · rintro ⟨x, ds, hc, hx, _, hall⟩
      exact ⟨x, ds, hc, hx, hall⟩

/-- "1.5" -/
theorem classifiers_exact_decimal :
    ((∃ b, (small [49, 46, 53]).isDigit = .ok b ∧ (b = true ↔ Decimal (small [49, 46, 53]).content)) ∧
      ∃ b, (small [49, 46, 53]).isHex = .ok b ∧ (b = true ↔ HexNumeral (small [49, 46, 53]).content)) ↔
      (small [49, 46, 53]).content ≠ lowerPrefix.bytes ∧ (small [49, 46, 53]).content ≠ upperPrefix.bytes :=
  classifiers_exact_iff (small_valid (by decide))

/-- "0x" -/
theorem not_classifiers_exact_prefix :
    (small [48, 120]).Valid ∧
      ¬((∃ b, (small [48, 120]).isDigit = .ok b ∧ (b = true ↔ Decimal (small [48, 120]).content)) ∧
        ∃ b, (small [48, 120]).isHex = .ok b ∧ (b = true ↔ HexNumeral (small [48, 120]).content)) := by
  refine ⟨small_valid (by decide), ?_⟩
  rintro ⟨_, b, hb, hiff⟩
  have hyes : (small [48, 120]).isHex = .ok true := by decide +kernel
  cases hb.symm.trans hyes
  obtain ⟨x, ds, hc, _, hne, _⟩ := hiff.1 rfl
  have hcontent : (small [48, 120]).content = [48, 120] := rfl
  rw [hcontent] at hc
  cases hc
  exact hne rfl

end Cstr

end TinyUtils
