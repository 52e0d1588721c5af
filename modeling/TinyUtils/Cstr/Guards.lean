import TinyUtils.Cstr.Extract
import TinyUtils.Cstr.InPlace
/-!
# The range guards of insertion, substring and `at` (`c_utils/cstr.c:228-350`, `:486-492`)

The guards are `begin > used - 1` and `begin + len > used` in `uint32_t`. Beside each function stands the
same with lengths in unbounded integers (`insertExact`, `subExact`, `atExact`), and a call is `Guarded` if
it has the result of that, does the same when the source ends behind its bytes, and accesses nothing
outside the blocks. `used - 1` wraps around for an empty source: `insert` and `at` then let everything
pass, and a substring is saved by the tests of `len` beside it. `begin + len` wraps around for a long `len`.

| here | there |
| --- | --- |
| `at` | `at` (`:486`) |
-/

namespace TinyUtils.Cstr

open Block Checked

/-- The byte as an `int`, or -1. -/
def «at» (s : Cstr) (i : Nat) : M Int :=
  if i > sub32 s.used 1 then .ok (-1)
  else do
    let c ← s.byteAt i
    .ok (schar c)

/-! ## In unbounded integers -/

def atExact (s : Cstr) (i : Nat) : M Int :=
  if (i : Int) > s.used - 1 then .ok (-1)
  else do
    let c ← s.byteAt i
    .ok (schar c)

def insertLenExact (n begin len : Nat) : Option Nat :=
  if (begin : Int) > n - 1 then none
  else
    let len := if len = 0 then n else len
    some (if begin + len > n then n - begin else len)

def growExact (mem : Mem) (dst : Cstr) (totalUsed : Nat) : Option Cstr :=
  if totalUsed > dst.cap then
    let newCap := calFitCap dst.totalSize (totalUsed + hdrSize + 1)
    if newCap < minSize then none
    else
      let dst := if newCap ≠ dst.cap then realloc mem dst newCap else some dst
      dst.map fun dst => { dst with cap := newCap - (hdrSize + 1) }
  else some dst

def insertExact (mem : Mem) (dst : Cstr) (pos : Nat) (src : List Byte) (n begin len : Nat) : M (Option Cstr) :=
  match insertLenExact n begin len with
  | none => .ok (some dst)
  | some len =>
    let totalUsed := dst.used + len
    let oldUsed := dst.used
    match growExact mem dst totalUsed with
    | none => .ok none
    | some dst => do
      let dst := { dst with used := totalUsed }
      let tail ← load dst.data pos (oldUsed - pos)
      let dst ← dst.store (pos + len) tail
      let bytes ← load src begin len
      let dst ← dst.store pos bytes
      let dst ← dst.setEnd
      .ok (some dst)

def subLenExact (n begin len : Nat) : Option Nat :=
  if (begin : Int) > n - 1 ∨ len = 0 ∨ len > n then none
  else some (if len + begin > n then n - begin else len)

def refitExact (mem : Mem) (dst : Cstr) (total : Nat) : Option Cstr :=
  let newCap := calFitCap dst.totalSize total
  if newCap < minSize ∨ newCap > maxSize then none
  else
    let dst := if newCap ≠ dst.totalSize then realloc mem dst newCap else some dst
    dst.map fun dst => { dst with cap := newCap - (hdrSize + 1) }

def subExact (mem : Mem) (substr : Cstr) (src : List Byte) (n begin len : Nat) : M (Option Cstr) :=
  match subLenExact n begin len with
  | none => .ok none
  | some len =>
    match refitExact mem substr (len + hdrSize + 1) with
    | none => .ok none
    | some substr => do
      let bytes ← load src begin len
      let substr ← store { substr with used := len } 0 bytes
      let substr ← substr.setEnd
      .ok (some substr)

/-! ## Guarded calls -/

/-- The call `r` returns what it does in unbounded integers (`exact`), as far as its caller sees it; it returns the same
for a source that ends behind its bytes (`cut`). -/
structure Guarded {ρ ν : Type} (seen : ρ → ν) (r cut exact : M ρ) : Prop where
  reads : cut = r
  accesses : ∃ o, r = .ok o
  result : seen <$> r = seen <$> exact

/-- `NULL`, or the string that the object holds. -/
def string : Option Cstr → Option (Nat × List Byte) := Option.map fun s => (s.used, s.content)

theorem Guarded.of_eq {ρ ν : Type} {seen : ρ → ν} {r cut exact : M ρ} {o : ρ} (hr : r = .ok o) (hcut : cut = .ok o)
    (hexact : exact = .ok o) : Guarded seen r cut exact :=
  ⟨hcut.trans hr.symm, ⟨o, hr⟩, by rw [hr, hexact]⟩

/-! ## What the functions have in common with the exact ones -/

theorem store_used {s s' : Cstr} {i : Nat} {bs : List Byte} (h : s.store i bs = .ok s') : s'.used = s.used := by
  unfold store at h
  split at h
  · cases h
    rfl
  · cases h

/-- A call that returns an object has a block for it. -/
theorem block_eq_ok {block : Option Cstr} {f : Cstr → M (Option Cstr)} {s : Cstr}
    (h : (match block with
      | none => .ok none
      | some d => f d : M (Option Cstr)) = .ok (some s)) : ∃ d, f d = .ok (some s) := by
  cases block with
  | none => cases h
  | some d => exact ⟨d, h⟩

theorem Yields.accesses {r : M (Option Cstr)} {P : Cstr → Prop} (h : Yields r P) : ∃ o, r = .ok o := by
  rcases h with h | ⟨s, h, _⟩
  · exact ⟨none, h⟩
  · exact ⟨some s, h⟩

/-- The statements of an insertion behind the choice of the block leave `used`. -/
theorem splice_used (d : Cstr) {s : Cstr} {src : List Byte} {pos begin len j : Nat}
    (h : (do
      let tail ← load d.data pos j
      let d ← d.store (pos + len) tail
      let bytes ← load src begin len
      let d ← d.store pos bytes
      let d ← d.setEnd
      .ok (some d) : M (Option Cstr)) = .ok (some s)) : s.used = d.used := by
  obtain ⟨tail, _, h⟩ := bind_eq_ok h
  obtain ⟨d₁, h₁, h⟩ := bind_eq_ok h
  obtain ⟨bytes, _, h⟩ := bind_eq_ok h
  obtain ⟨d₂, h₂, h⟩ := bind_eq_ok h
  obtain ⟨d₃, h₃, h⟩ := bind_eq_ok h
  cases h
  rw [store_used h₃, store_used h₂, store_used h₁]

section
variable {mem : Mem} {dst s : Cstr} {pos begin len k n : Nat} {src bs : List Byte}

theorem insertFrom_used (hk : insertLen n begin len = some k)
    (h : insertFrom mem dst pos src n begin len = .ok (some s)) : s.used = u32 (dst.used + k) := by
  simp only [insertFrom, hk] at h
  obtain ⟨d, h⟩ := block_eq_ok h
  exact splice_used ⟨d.cap, u32 (dst.used + k), d.data⟩ h

theorem insertExact_used (hk : insertLenExact n begin len = some k)
    (h : insertExact mem dst pos src n begin len = .ok (some s)) : s.used = dst.used + k := by
  simp only [insertExact, hk] at h
  obtain ⟨d, h⟩ := block_eq_ok h
  exact splice_used ⟨d.cap, dst.used + k, d.data⟩ h

theorem insertLenExact_eq : insertLenExact n begin len = if begin < n then some (sliceLen n begin len) else none := by
  unfold insertLenExact sliceLen
  by_cases hn : begin < n
  · rw [if_neg (by omega), if_pos hn]
    simp only
    by_cases h0 : len = 0
    · rw [if_pos h0, if_pos (Or.inl h0)]
      congr 1
      split <;> omega
    · simp only [h0, if_false, false_or]
  · rw [if_pos (by omega), if_neg hn]

theorem grow_exact {t : Nat} (hv : dst.Valid) (h32 : t + hdrSize + 1 < 2 ^ 32) :
    grow mem dst t = growExact mem dst t := by
  rw [grow, growExact, hv.u32_totalSize, u32_eq h32]

theorem insertFrom_exact (hv : dst.Valid) (hpos : pos ≤ dst.used) (hk : insertLen n begin len = some k)
    (hexact : insertLenExact n begin len = some k) (h32 : dst.used + k + hdrSize + 1 < 2 ^ 32) :
    insertFrom mem dst pos src n begin len = insertExact mem dst pos src n begin len := by
  have htotal : u32 (dst.used + k) = dst.used + k := u32_eq (by omega)
  have hgrow : grow mem dst (dst.used + k) = growExact mem dst (dst.used + k) := grow_exact hv h32
  cases h : growExact mem dst (dst.used + k) with
  | none => simp only [insertFrom, insertExact, hk, hexact, htotal, hgrow, h]
  | some d => simp only [insertFrom, insertExact, hk, hexact, htotal, hgrow, h, sub32_eq hpos]

theorem growExact_eq_none_iff {t : Nat} (hv : dst.Valid) :
    growExact mem dst t = none ↔ dst.cap < t ∧ (mem = none ∨ maxSize < t + hdrSize + 1) := by
  by_cases h32 : t + hdrSize + 1 < 2 ^ 32
  · rw [← grow_exact hv h32, grow_eq_none_iff mem hv (by omega)]
    simp only [h32, and_true]
  · have hcap := hv.le_max
    have hbig : maxSize < t + hdrSize + 1 := by simp only [maxSize]; omega
    simp only [totalSize] at hcap
    have hroom : t > dst.cap := by omega
    rw [growExact, if_pos hroom]
    simp only [calFitCap_eq_zero hbig]
    exact iff_of_true rfl ⟨hroom, Or.inr hbig⟩

theorem insertExact_null_iff (hv : dst.Valid) (hk : insertLenExact n begin len = some k) :
    insertExact mem dst pos src n begin len = .ok none ↔
      dst.cap < dst.used + k ∧ (mem = none ∨ maxSize < dst.used + k + hdrSize + 1) := by
  rw [← growExact_eq_none_iff hv]
  simp only [insertExact, hk]
  cases growExact mem dst (dst.used + k) with
  | none => exact iff_of_true rfl rfl
  | some d =>
    have hne := splice_ne_null ⟨d.cap, dst.used + k, d.data⟩ src pos begin k (dst.used - pos)
    exact iff_of_false hne (Option.some_ne_none d)

end

/-! ## Insertion -/

/-- How many bytes an insertion is asked for. -/
def asked (n len : Nat) : Nat := if len = 0 then n else len

/-- How many it takes: the slice, unless `begin + len` wraps around and is not clamped. -/
def taken (n begin len : Nat) : Nat := if begin + asked n len < 2 ^ 32 then sliceLen n begin len else asked n len

/-- The guards of an insertion hold: nothing is taken from an empty source, and else nothing wraps around, or both the
slice and what is taken in its place are refused. -/
def InsertGuarded (mem : Mem) (dst : Cstr) (n begin len : Nat) : Prop :=
  if n = 0 then begin = 0
  else
    n ≤ begin ∨
      (begin + asked n len < 2 ^ 32 ∧ dst.used + sliceLen n begin len + hdrSize + 1 < 2 ^ 32) ∨
      (dst.cap < dst.used + sliceLen n begin len ∧ dst.used + taken n begin len < 2 ^ 32 ∧
        (mem = none ∨ maxSize < dst.used + sliceLen n begin len + hdrSize + 1 ∧
          dst.used + taken n begin len + hdrSize + 1 < 2 ^ 32))

/-- The test for an empty source lets every `begin` pass. -/
theorem insertLen_zero {begin len : Nat} (hb : begin < 2 ^ 32) (hl : len < 2 ^ 32) :
    insertLen 0 begin len = some (if begin = 0 then 0 else 2 ^ 32 - begin) := by
  have hone : sub32 0 1 = 2 ^ 32 - 1 := by decide +kernel
  have hsub : sub32 0 begin = if begin = 0 then 0 else 2 ^ 32 - begin := by
    unfold sub32
    split <;> split <;> omega
  have hlen : (if len = 0 then 0 else len) = len := by split <;> omega
  unfold insertLen
  rw [hone, if_neg (by omega)]
  simp only [hlen]
  by_cases hwrap : u32 (begin + len) > 0
  · rw [if_pos hwrap, hsub]
  · rw [if_neg hwrap]
    by_cases h32 : begin + len < 2 ^ 32
    · rw [u32_eq h32] at hwrap
      rw [if_pos (by omega)]
      congr 1
      omega
    · rw [u32_eq_sub (Nat.le_of_not_lt h32) (by omega)] at hwrap
      rw [if_neg (by omega)]
      congr 1
      omega

theorem insertLen_taken {n begin len : Nat} (hn : begin < n) (hn32 : n < 2 ^ 32) (hl : len < 2 ^ 32) :
    insertLen n begin len = some (taken n begin len) := by
  unfold taken
  by_cases hwrap : begin + asked n len < 2 ^ 32
  · rw [if_pos hwrap]
    exact insertLen_eq hn hwrap
  · rw [if_neg hwrap]
    have hasked : asked n len < 2 ^ 32 := by
      unfold asked
      split <;> omega
    change (if begin > sub32 n 1 then none
      else some (if u32 (begin + asked n len) > n then sub32 n begin else asked n len)) = some (asked n len)
    rw [sub32_eq (Nat.lt_of_le_of_lt (Nat.zero_le _) hn), if_neg (by omega),
      u32_eq_sub (Nat.le_of_not_lt hwrap) (by omega), if_neg (by omega)]

section
variable {mem : Mem} {dst : Cstr} {pos begin len k t n : Nat} {src cut : List Byte}

/-- Two results that the caller cannot tell apart. -/
theorem string_eq {r exact : M (Option Cstr)} {o : Option Cstr} (h : string <$> r = string <$> exact) (hr : r = .ok o) :
    (o = none ∧ exact = .ok none) ∨ ∃ s s', o = some s ∧ exact = .ok (some s') ∧ s.used = s'.used := by
  subst hr
  cases exact with
  | error e => cases h
  | ok o' =>
    have hs : string o = string o' := Except.ok.inj h
    cases o with
    | none =>
      cases o' with
      | none => exact Or.inl ⟨rfl, rfl⟩
      | some s' => cases hs
    | some s =>
      cases o' with
      | none => cases hs
      | some s' => exact Or.inr ⟨s, s', rfl, rfl, congrArg Prod.fst (Option.some.inj hs)⟩

theorem insertFrom_cut (hcut : ∀ i j, i + j ≤ n → load cut i j = load src i j) (hk : insertLen n begin len = some k)
    (hle : begin + k ≤ n) : insertFrom mem dst pos cut n begin len = insertFrom mem dst pos src n begin len := by
  simp only [insertFrom, hk, hcut begin k hle]

theorem insertFrom_accesses (hv : dst.Valid) (hpos : pos ≤ dst.used) (hk : insertLen n begin len = some k)
    (hload : begin + k ≤ src.length) (h32 : dst.used + k + hdrSize + 1 < 2 ^ 32) :
    ∃ o, insertFrom mem dst pos src n begin len = .ok o := by
  have hspec : Yields (insertFrom mem dst pos src n begin len) _ := insertFrom_spec hv hpos hk hload h32
  exact hspec.accesses

/-- A call that returns what the exact one does takes as many bytes, or both return `NULL`. -/
theorem guarded_insert_cases (hv : dst.Valid) (ht : insertLen n begin len = some t)
    (hk : insertLenExact n begin len = some k) (ht32 : t < 2 ^ 32) (hk32 : k < 2 ^ 32)
    (h : Guarded string (insertFrom mem dst pos src n begin len) (insertFrom mem dst pos cut n begin len)
      (insertExact mem dst pos src n begin len)) :
    (t = k ∧ insertExact mem dst pos src n begin len ≠ .ok none) ∨
      (insertFrom mem dst pos src n begin len = .ok none ∧ insertExact mem dst pos src n begin len = .ok none) := by
  have hused := hv.used_add_le
  obtain ⟨o, hr⟩ := h.accesses
  rcases string_eq h.result hr with ⟨rfl, hexact⟩ | ⟨s, s', rfl, hexact, heq⟩
  · exact Or.inr ⟨hr, hexact⟩
  · left
    rw [insertFrom_used ht hr, insertExact_used hk hexact] at heq
    refine ⟨?_, fun hnull => by rw [hnull] at hexact; cases hexact⟩
    by_cases h32 : dst.used + t < 2 ^ 32
    · rw [u32_eq h32] at heq
      omega
    · rw [u32_eq_sub (Nat.le_of_not_lt h32) (by omega)] at heq
      omega

theorem insertLen_none {n begin len : Nat} (h0 : n ≠ 0) (hout : n ≤ begin) : insertLen n begin len = none := by
  rw [insertLen, sub32_eq (Nat.pos_of_ne_zero h0), if_pos (by omega)]

/-- Nothing is taken from an empty source, if `begin` is 0. -/
theorem guarded_insert_empty_iff (hv : dst.Valid) (hpos : pos ≤ dst.used)
    (hcut : ∀ i j, i + j ≤ 0 → load cut i j = load src i j) (hb : begin < 2 ^ 32) (hl : len < 2 ^ 32) :
    Guarded string (insertFrom mem dst pos src 0 begin len) (insertFrom mem dst pos cut 0 begin len)
      (insertExact mem dst pos src 0 begin len) ↔ begin = 0 := by
  have hused := hv.used_add_le
  have hk := insertLen_zero hb hl
  have hexact : insertExact mem dst pos src 0 begin len = .ok (some dst) := by
    simp only [insertExact, insertLenExact_eq]
    rfl
  constructor
  · intro h
    obtain ⟨o, hr⟩ := h.accesses
    rcases string_eq h.result hr with ⟨_, hnull⟩ | ⟨s, s', rfl, hs', heq⟩
    · rw [hexact] at hnull
      cases hnull
    · cases hexact.symm.trans hs'
      rw [insertFrom_used hk hr] at heq
      apply Decidable.byContradiction
      intro h0
      rw [if_neg h0] at heq
      by_cases h32 : dst.used + (2 ^ 32 - begin) < 2 ^ 32
      · rw [u32_eq h32] at heq
        omega
      · rw [u32_eq_sub (Nat.le_of_not_lt h32) (by omega)] at heq
        omega
  · rintro rfl
    rw [if_pos rfl] at hk
    have h32 : dst.used + 0 + hdrSize + 1 < 2 ^ 32 := by omega
    have hnull : insertFrom mem dst pos src 0 0 len = .ok none ↔ _ := insertFrom_eq_none_iff hv hk h32
    have hspec : Yields (insertFrom mem dst pos src 0 0 len) _ :=
      insertFrom_spec hv hpos hk (show 0 + 0 ≤ src.length by omega) h32
    have hcap := hv.used_le
    rcases hspec with hr | ⟨s, hr, hs, _, hc⟩
    · have := (hnull.1 hr).1
      omega
    · refine ⟨insertFrom_cut hcut hk (Nat.le_refl _), ⟨_, hr⟩, ?_⟩
      rw [slice_zero, List.take_zero, List.append_nil, List.take_append_drop] at hc
      have hlen : s.used = dst.used := by rw [← hs.length_content, hc, hv.length_content]
      rw [hr, hexact]
      simp only [string, hlen, hc, Functor.map, Except.map, Option.map]

theorem insertFrom_refuses_iff (src : List Byte) (hv : dst.Valid) (hk : insertLen n begin len = some k)
    (hk32 : k < 2 ^ 32) : insertFrom mem dst pos src n begin len = .ok none ↔ dst.used + k < 2 ^ 32 ∧ dst.cap < dst.used + k ∧
      (mem = none ∨ maxSize < dst.used + k + hdrSize + 1 ∧ dst.used + k + hdrSize + 1 < 2 ^ 32) := by
  have hused := hv.used_add_le
  have hcap := hv.used_le
  rw [insertFrom_null_iff hk, grow_eq_none_iff mem hv (u32_lt _)]
  by_cases h32 : dst.used + k < 2 ^ 32
  · rw [u32_eq h32]
    simp only [h32, true_and]
  · rw [u32_eq_sub (Nat.le_of_not_lt h32) (by omega)]
    omega

theorem guarded_insert_iff (hv : dst.Valid) (hpos : pos ≤ dst.used) (hn : n ≤ src.length) (hn32 : n < 2 ^ 32)
    (hcut : ∀ i j, i + j ≤ n → load cut i j = load src i j) (hb : begin < 2 ^ 32) (hl : len < 2 ^ 32) :
    Guarded string (insertFrom mem dst pos src n begin len) (insertFrom mem dst pos cut n begin len)
      (insertExact mem dst pos src n begin len) ↔ InsertGuarded mem dst n begin len := by
  have hused := hv.used_add_le
  have hcap := hv.le_max
  unfold InsertGuarded
  by_cases h0 : n = 0
  · subst h0
    rw [if_pos rfl]
    exact guarded_insert_empty_iff hv hpos hcut hb hl
  · rw [if_neg h0]
    by_cases hout : n ≤ begin
    · have hnone : insertLen n begin len = none := insertLen_none h0 hout
      have hexact : insertLenExact n begin len = none := by rw [insertLenExact_eq, if_neg (Nat.not_lt.2 hout)]
      refine iff_of_true (Guarded.of_eq (o := some dst) ?_ ?_ ?_) (Or.inl hout)
      · rw [insertFrom, hnone]
      · rw [insertFrom, hnone]
      · rw [insertExact, hexact]
    · have hlt := Nat.lt_of_not_le hout
      have ht := insertLen_taken hlt hn32 hl
      have hk : insertLenExact n begin len = some (sliceLen n begin len) := by rw [insertLenExact_eq, if_pos hlt]
      have hle : begin + sliceLen n begin len ≤ n := add_sliceLen_le hlt
      have hasked : sliceLen n begin len ≤ asked n len ∧ asked n len < 2 ^ 32 ∧
          (2 ^ 32 ≤ begin + asked n len → sliceLen n begin len < asked n len) := by
        unfold sliceLen asked
        split <;> split <;> omega
      have htaken : taken n begin len = if begin + asked n len < 2 ^ 32 then sliceLen n begin len else asked n len := rfl
      have hexact : insertExact mem dst pos src n begin len = .ok none ↔ _ := insertExact_null_iff hv hk
      generalize sliceLen n begin len = k at *
      generalize taken n begin len = t at *
      have ht32 : t < 2 ^ 32 := by rw [htaken]; split <;> omega
      have hnull : ∀ p, insertFrom mem dst pos p n begin len = .ok none ↔ _ := fun p =>
        insertFrom_refuses_iff p hv ht ht32
      constructor
      · intro h
        rcases guarded_insert_cases hv ht hk ht32 (by omega) h with ⟨heq, hne⟩ | ⟨hr, he⟩
        · have hwrap : begin + asked n len < 2 ^ 32 := by
            apply Decidable.byContradiction
            intro hwrap
            rw [if_neg hwrap] at htaken
            omega
          have h32 : dst.used + k + hdrSize + 1 < 2 ^ 32 := by
            apply Decidable.byContradiction
            intro h32
            simp only [totalSize, maxSize] at hcap
            exact hne (hexact.2 ⟨by omega, Or.inr (by simp only [maxSize]; omega)⟩)
          exact Or.inr (Or.inl ⟨hwrap, h32⟩)
        · obtain ⟨ht, _, hm⟩ := (hnull src).1 hr
          obtain ⟨hroom, hm'⟩ := hexact.1 he
          refine Or.inr (Or.inr ⟨hroom, ht, ?_⟩)
          rcases hm' with hm' | hbig
          · exact Or.inl hm'
          · exact hm.imp_right fun h => ⟨hbig, h.2⟩
      · rintro (h | ⟨hwrap, h32⟩ | ⟨hroom, ht, hm⟩)
        · exact absurd h hout
        · -- nothing wraps around
          rw [if_pos hwrap] at htaken
          subst htaken
          have hload := Nat.le_trans hle hn
          exact ⟨insertFrom_cut hcut ht hle, insertFrom_accesses hv hpos ht hload h32,
            congrArg _ (insertFrom_exact hv hpos ht hk h32)⟩
        · -- both refuse
          have hkt : k ≤ t := by rw [htaken]; split <;> omega
          have hr : ∀ p, insertFrom mem dst pos p n begin len = .ok none := fun p =>
            (hnull p).2 ⟨ht, by omega, hm.imp_right fun h => ⟨by omega, h.2⟩⟩
          exact Guarded.of_eq (hr src) (hr cut) (hexact.2 ⟨hroom, hm.imp_right And.left⟩)

end

/-! ## Substring -/

/-- How many bytes a substring takes: the slice, unless `len + begin` wraps around and is not clamped. -/
def subTaken (n begin len : Nat) : Nat := if begin + len < 2 ^ 32 then min len (n - begin) else len

/-- There is no block for `k` bytes, as far as the size that `refit` computes goes. -/
def RefusedWrapped (mem : Mem) (dst : Cstr) (k : Nat) : Prop :=
  if k + hdrSize + 1 < 2 ^ 32 then Refused mem dst k else mem = none ∧ tinyMaxSize < dst.totalSize

/-- The guards of a substring hold: the arguments are refused, or nothing wraps around, or both the slice and what is
taken in its place are refused. -/
def SubGuarded (mem : Mem) (dst : Cstr) (n begin len : Nat) : Prop :=
  (n ≤ begin ∨ len = 0 ∨ n < len) ∨
    (begin + len < 2 ^ 32 ∧ min len (n - begin) + hdrSize + 1 < 2 ^ 32) ∨
    (Refused mem dst (min len (n - begin)) ∧ RefusedWrapped mem dst (subTaken n begin len))

section
variable {mem : Mem} {dst s : Cstr} {begin len k t n : Nat} {src cut : List Byte}

theorem subLenExact_eq :
    subLenExact n begin len = if n ≤ begin ∨ len = 0 ∨ n < len then none else some (min len (n - begin)) := by
  unfold subLenExact
  by_cases hout : n ≤ begin ∨ len = 0 ∨ n < len
  · rw [if_pos hout, if_pos (by omega)]
  · rw [if_neg hout, if_neg (by omega)]
    congr 1
    split <;> omega

theorem calFitCap_keep {totalCap totalUsed : Nat} (hmin : minSize ≤ totalCap) (htiny : totalCap ≤ tinyMaxSize)
    (hu : totalUsed < minSize) : calFitCap totalCap totalUsed = totalCap := by
  have hgrow : growCap totalUsed = minSize := by
    rw [growCap, if_neg (by simp only [minSize, mediumMaxSize] at *; omega), if_pos hu]
  simp only [minSize, tinyMaxSize] at *
  unfold calFitCap
  simp only [hgrow, maxSize, tinyMaxSize]
  rw [if_neg (by omega), if_neg (by omega)]
  split <;> omega

theorem refit_refuses_iff (hv : dst.Valid) (hk : k < 2 ^ 32) :
    refit mem dst (k + hdrSize + 1) = none ↔ RefusedWrapped mem dst k := by
  unfold RefusedWrapped
  by_cases h32 : k + hdrSize + 1 < 2 ^ 32
  · rw [if_pos h32]
    exact refit_eq_none_iff hv h32
  · rw [if_neg h32]
    -- the size is that of an object for a few bytes
    have hu : u32 (k + hdrSize + 1) < minSize := by
      rw [u32_eq_sub (Nat.le_of_not_lt h32) (by simp only [hdrSize]; omega)]
      simp only [hdrSize, minSize]
      omega
    have hmax : u32 (k + hdrSize + 1) ≤ maxSize := by simp only [minSize, maxSize] at *; omega
    have hiff : tinyMaxSize < dst.totalSize ↔ calFitCap dst.totalSize (u32 (k + hdrSize + 1)) ≠ dst.totalSize := by
      constructor
      · intro htiny
        rw [calFitCap_small htiny hv.le_max hu]
        simp only [minSize, tinyMaxSize] at *
        omega
      · intro hne
        apply Nat.lt_of_not_le
        exact fun htiny => hne (calFitCap_keep hv.min_le htiny hu)
    rw [hiff]
    rcases refit_spec mem hv hmax with ⟨hr, hm, hne⟩ | ⟨hm, d, hr, _⟩
    · exact iff_of_true hr ⟨hm, hne⟩
    · rw [hr]
      exact iff_of_false (Option.some_ne_none d) fun h => h.2 (hm h.1)

theorem refit_exact (hv : dst.Valid) (h32 : k + hdrSize + 1 < 2 ^ 32) :
    refit mem dst (k + hdrSize + 1) = refitExact mem dst (k + hdrSize + 1) := by
  rw [refit, refitExact, hv.u32_totalSize, u32_eq h32]

theorem refitExact_eq_none_iff (hv : dst.Valid) : refitExact mem dst (k + hdrSize + 1) = none ↔ Refused mem dst k := by
  by_cases h32 : k + hdrSize + 1 < 2 ^ 32
  · rw [← refit_exact hv h32]
    exact refit_eq_none_iff hv h32
  · have hbig : maxSize < k + hdrSize + 1 := by simp only [maxSize]; omega
    simp only [refitExact, calFitCap_eq_zero hbig]
    exact iff_of_true rfl (Or.inl hbig)

/-- The statements of a substring behind the choice of the block. -/
theorem sub_used (d : Cstr) {s : Cstr} {src : List Byte} {begin len : Nat}
    (h : (do
      let bytes ← load src begin len
      let d ← d.store 0 bytes
      let d ← d.setEnd
      .ok (some d) : M (Option Cstr)) = .ok (some s)) : s.used = d.used := by
  obtain ⟨bytes, _, h⟩ := bind_eq_ok h
  obtain ⟨d₁, h₁, h⟩ := bind_eq_ok h
  obtain ⟨d₂, h₂, h⟩ := bind_eq_ok h
  cases h
  rw [store_used h₂, store_used h₁]

theorem subFrom_used (hk : subLen n begin len = some k) (h : subFrom mem dst src n begin len = .ok (some s)) :
    s.used = k := by
  simp only [subFrom, hk] at h
  obtain ⟨d, h⟩ := block_eq_ok h
  exact sub_used ⟨d.cap, k, d.data⟩ h

theorem subExact_used (hk : subLenExact n begin len = some k) (h : subExact mem dst src n begin len = .ok (some s)) :
    s.used = k := by
  simp only [subExact, hk] at h
  obtain ⟨d, h⟩ := block_eq_ok h
  exact sub_used ⟨d.cap, k, d.data⟩ h

theorem subExact_null_iff (hk : subLenExact n begin len = some k) :
    subExact mem dst src n begin len = .ok none ↔ refitExact mem dst (k + hdrSize + 1) = none := by
  simp only [subExact, hk]
  cases refitExact mem dst (k + hdrSize + 1) with
  | none => exact iff_of_true rfl rfl
  | some d => exact iff_of_false (extract_ne_null ⟨d.cap, k, d.data⟩ src begin k) (Option.some_ne_none d)

theorem subFrom_exact (hv : dst.Valid) (hk : subLen n begin len = some k) (hexact : subLenExact n begin len = some k)
    (h32 : k + hdrSize + 1 < 2 ^ 32) : subFrom mem dst src n begin len = subExact mem dst src n begin len := by
  have hrefit : refit mem dst (k + hdrSize + 1) = refitExact mem dst (k + hdrSize + 1) := refit_exact hv h32
  cases h : refitExact mem dst (k + hdrSize + 1) with
  | none => simp only [subFrom, subExact, hk, hexact, hrefit, h]
  | some d => simp only [subFrom, subExact, hk, hexact, hrefit, h]

theorem subFrom_cut (hcut : ∀ i j, i + j ≤ n → load cut i j = load src i j) (hk : subLen n begin len = some k)
    (hle : begin + k ≤ n) : subFrom mem dst cut n begin len = subFrom mem dst src n begin len := by
  simp only [subFrom, hk, hcut begin k hle]

theorem subFrom_accesses (hv : dst.Valid) (hk : subLen n begin len = some k) (hload : begin + k ≤ src.length)
    (h32 : k + hdrSize + 1 < 2 ^ 32) : ∃ o, subFrom mem dst src n begin len = .ok o := by
  have hsel : ∀ j, subLen n begin len = some j → begin + j ≤ src.length ∧ j + hdrSize + 1 < 2 ^ 32 := by
    intro j hj
    cases hk.symm.trans hj
    exact ⟨hload, h32⟩
  have hspec : Yields (subFrom mem dst src n begin len) _ := subFrom_spec hv hsel
  exact hspec.accesses

theorem guarded_sub_iff (hv : dst.Valid) (hn : n ≤ src.length) (hn32 : n < 2 ^ 32)
    (hcut : ∀ i j, i + j ≤ n → load cut i j = load src i j) (hb : begin < 2 ^ 32) :
    Guarded string (subFrom mem dst src n begin len) (subFrom mem dst cut n begin len)
      (subExact mem dst src n begin len) ↔ SubGuarded mem dst n begin len := by
  have hcap := hv.le_max
  have ht : subLen n begin len = _ := subLen_eq hn32 hb
  have hk : subLenExact n begin len = _ := subLenExact_eq
  unfold SubGuarded
  by_cases hout : n ≤ begin ∨ len = 0 ∨ n < len
  · rw [if_pos hout] at ht hk
    refine iff_of_true (Guarded.of_eq (o := none) ?_ ?_ ?_) (Or.inl hout)
    · rw [subFrom, ht]
    · rw [subFrom, ht]
    · rw [subExact, hk]
  · rw [if_neg hout] at ht hk
    have htaken : subTaken n begin len = if begin + len < 2 ^ 32 then min len (n - begin) else len := rfl
    rw [← htaken] at ht
    have hle : begin + min len (n - begin) ≤ n := by omega
    have hkt : min len (n - begin) ≤ subTaken n begin len ∧ subTaken n begin len < 2 ^ 32 := by
      rw [htaken]
      split <;> omega
    have hlonger : ¬ begin + len < 2 ^ 32 → min len (n - begin) < subTaken n begin len := by
      intro hwrap
      rw [htaken, if_neg hwrap]
      omega
    generalize min len (n - begin) = k at *
    generalize subTaken n begin len = t at *
    have hnull : ∀ p, subFrom mem dst p n begin len = .ok none ↔ RefusedWrapped mem dst t := by
      intro p
      rw [subFrom_null_iff ht, refit_refuses_iff hv hkt.2]
    have hexact : subExact mem dst src n begin len = .ok none ↔ Refused mem dst k := by
      rw [subExact_null_iff hk, refitExact_eq_none_iff hv]
    constructor
    · intro h
      right
      obtain ⟨o, hr⟩ := h.accesses
      rcases string_eq h.result hr with ⟨rfl, he⟩ | ⟨s, s', rfl, he, heq⟩
      · exact Or.inr ⟨hexact.1 he, (hnull src).1 hr⟩
      · left
        rw [subFrom_used ht hr, subExact_used hk he] at heq
        refine ⟨?_, ?_⟩
        · apply Decidable.byContradiction
          intro hwrap
          have := hlonger hwrap
          omega
        · apply Decidable.byContradiction
          intro h32
          rw [hexact.2 (Or.inl (by simp only [maxSize]; omega))] at he
          cases he
    · rintro (h | ⟨hwrap, h32⟩ | ⟨hr, hrw⟩)
      · exact absurd h hout
      · -- nothing wraps around
        rw [if_pos hwrap] at htaken
        subst htaken
        have hload := Nat.le_trans hle hn
        exact ⟨subFrom_cut hcut ht hle, subFrom_accesses hv ht hload h32, congrArg _ (subFrom_exact hv ht hk h32)⟩
      · -- both refuse
        exact Guarded.of_eq ((hnull src).2 hrw) ((hnull cut).2 hrw) (hexact.2 hr)

end

/-! ## The five functions -/

theorem guarded_at_iff {s : Cstr} {i : Nat} (hv : s.Valid) (hi : i < 2 ^ 32) :
    Guarded id (s.at i) ({ s with data := s.content }.at i) (s.atExact i) ↔ 0 < s.used := by
  by_cases h0 : s.used = 0
  · refine iff_of_false (fun h => ?_) (by omega)
    have hone : sub32 0 1 = 2 ^ 32 - 1 := by decide +kernel
    have hcut : { s with data := s.content }.at i = .error .read := by
      simp only [Cstr.at, byteAt, content, h0, hone]
      rw [if_neg (by omega)]
      rfl
    obtain ⟨o, hr⟩ := h.accesses
    rw [← h.reads, hcut] at hr
    cases hr
  · refine iff_of_true ?_ (Nat.pos_of_ne_zero h0)
    have hone : sub32 s.used 1 = s.used - 1 := sub32_eq (Nat.pos_of_ne_zero h0)
    by_cases hout : s.used ≤ i
    · refine Guarded.of_eq (o := -1) ?_ ?_ ?_
      · simp only [Cstr.at, hone]
        exact if_pos (by omega)
      · simp only [Cstr.at, hone]
        exact if_pos (by omega)
      · exact if_pos (by omega)
    · have hlt : i < s.data.length := by
        have := hv.used_lt
        omega
      have hdata : s.data[i]? = some s.data[i] := List.getElem?_eq_getElem hlt
      have hcontent : s.content[i]? = some s.data[i] := by
        rw [content, List.getElem?_take_of_lt (Nat.lt_of_not_le hout), hdata]
      have hbyte : s.byteAt i = .ok s.data[i] := byteAt_eq hdata
      have hcut : byteAt { s with data := s.content } i = .ok s.data[i] := byteAt_eq hcontent
      refine Guarded.of_eq (o := schar s.data[i]) ?_ ?_ ?_
      · simp only [Cstr.at, hone, hbyte]
        exact if_neg (by omega)
      · simp only [Cstr.at, hone, hcut]
        exact if_neg (by omega)
      · simp only [atExact, hbyte]
        exact if_neg (by omega)

theorem Gives.load {src bs : List Byte} {n : Nat} (h : Gives src n bs) :
    ∀ i j, i + j ≤ n → load bs i j = load src i j := by
  intro i j hle
  have hlen := h.length
  rw [load_eq (Nat.le_trans hle h.le), h.slice hle, load_eq (by omega)]

theorem memory_gives (str : CString) : Gives str.memory str.bytes.length str.bytes := by
  refine ⟨?_, List.take_left⟩
  rw [CString.memory, List.length_append]
  exact Nat.le_add_right _ _

/-- **The guards hold for all arguments but these**: an empty source with `begin > 0` for an insertion, an empty object
for `at`, and lengths that wrap around where the call does not refuse. -/
theorem guards_iff (mem : Mem) {dst : Cstr} {pos begin len : Nat} (hv : dst.Valid) (hpos : pos ≤ dst.used)
    (hb : begin < 2 ^ 32) (hl : len < 2 ^ 32) :
    (∀ src : Cstr, src.Valid →
      (Guarded string (insert mem dst pos src begin len) (insert mem dst pos { src with data := src.content } begin len)
        (insertExact mem dst pos src.data src.used begin len) ↔ InsertGuarded mem dst src.used begin len)) ∧
    (∀ src : CString,
      (Guarded string (insertStr mem dst pos (some src) begin len)
        (insertFrom mem dst pos src.bytes src.strlen begin len)
        (insertExact mem dst pos src.memory src.strlen begin len) ↔ InsertGuarded mem dst src.strlen begin len)) ∧
    (∀ src : Cstr, src.Valid →
      (Guarded string (subCstr mem dst src begin len) (subCstr mem dst { src with data := src.content } begin len)
        (subExact mem dst src.data src.used begin len) ↔ SubGuarded mem dst src.used begin len)) ∧
    (∀ src : CString,
      (Guarded string (subStr mem dst src begin len) (subFrom mem dst src.bytes src.strlen begin len)
        (subExact mem dst src.memory src.strlen begin len) ↔ SubGuarded mem dst src.strlen begin len)) ∧
    ∀ s : Cstr, s.Valid → ∀ i < 2 ^ 32,
      (Guarded id (s.at i) ({ s with data := s.content }.at i) (s.atExact i) ↔ 0 < s.used) := by
  have hcstr : ∀ src : Cstr, src.Valid → src.used < 2 ^ 32 := by
    intro src hsrc
    have hsmall := hsrc.used_add_le
    omega
  have hstr : ∀ (src : CString) (i j : Nat), i + j ≤ src.strlen → load src.bytes i j = load src.memory i j :=
    fun src i j hle => (memory_gives src).load i j (Nat.le_trans hle (u32_le _))
  refine ⟨?_, ?_, ?_, ?_, ?_⟩
  · intro src hsrc
    exact guarded_insert_iff hv hpos hsrc.gives.le (hcstr src hsrc) hsrc.gives.load hb hl
  · intro src
    exact guarded_insert_iff hv hpos src.strlen_le src.strlen_lt (hstr src) hb hl
  · intro src hsrc
    exact guarded_sub_iff hv hsrc.gives.le (hcstr src hsrc) hsrc.gives.load hb
  · intro src
    exact guarded_sub_iff hv src.strlen_le src.strlen_lt (hstr src) hb
  · intro s hs i hi
    exact guarded_at_iff hs hi

/-- One byte of `"b"` for `"a"`. -/
theorem guards_ab :
    Guarded string (insert none (small [97]) 0 (small [98]) 0 1)
        (insert none (small [97]) 0 { small [98] with data := (small [98]).content } 0 1)
        (insertExact none (small [97]) 0 (small [98]).data (small [98]).used 0 1) ∧
      Guarded string (subCstr none (small [97]) (small [98]) 0 1)
        (subCstr none (small [97]) { small [98] with data := (small [98]).content } 0 1)
        (subExact none (small [97]) (small [98]).data (small [98]).used 0 1) ∧
      Guarded id ((small [97]).at 5) ({ small [97] with data := (small [97]).content }.at 5)
        ((small [97]).atExact 5) := by
  have hv : (small [97]).Valid := small_valid (by decide)
  have hsrc : (small [98]).Valid := small_valid (by decide)
  have hpos : 0 ≤ (small [97]).used := Nat.zero_le _
  obtain ⟨hinsert, _, hsub, _, hat⟩ := guards_iff none hv hpos (show 0 < 2 ^ 32 by decide) (show 1 < 2 ^ 32 by decide)
  refine ⟨(hinsert _ hsrc).2 ?_, (hsub _ hsrc).2 ?_, (hat _ hv 5 (by decide)).2 (by decide)⟩
  · exact Or.inr (Or.inl ⟨by decide, by decide⟩)
  · exact Or.inr (Or.inl ⟨by decide, by decide⟩)

/-- An empty source from index 1 on, and an empty object at index 5. -/
theorem not_guarded_empty :
    ¬ Guarded string (insert (some fun _ => 0) (small [97]) 0 (small []) 1 0)
        (insert (some fun _ => 0) (small [97]) 0 { small [] with data := (small []).content } 1 0)
        (insertExact (some fun _ => 0) (small [97]) 0 (small []).data (small []).used 1 0) ∧
      ¬ Guarded id ((small []).at 5) ({ small [] with data := (small []).content }.at 5) ((small []).atExact 5) := by
  have hv : (small [97]).Valid := small_valid (by decide)
  have hsrc : (small []).Valid := small_valid (by decide)
  constructor
  · intro h
    have hguarded : InsertGuarded (some fun _ => 0) (small [97]) (small []).used 1 0 :=
      (guarded_insert_iff hv (Nat.zero_le _) hsrc.gives.le (by decide) hsrc.gives.load (by decide) (by decide)).1 h
    exact Nat.one_ne_zero hguarded
  · rw [guarded_at_iff hsrc (by decide)]
    decide

end TinyUtils.Cstr
