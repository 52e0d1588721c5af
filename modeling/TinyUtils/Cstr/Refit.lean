import TinyUtils.Cstr.Ops
/-!
# What construction, assignment, copy and substring leave

Each theorem gives the object that a call returns, for every outcome of the allocation: well formed,
terminated, and with which content. The block is sized for the bytes copied (`refit`), which for `copy`
and `copyStr` need not be all bytes of the result.
-/

namespace TinyUtils.Cstr

open Block Checked

/-- The call returns `NULL`, or an object with property `P`. -/
def Yields (r : M (Option Cstr)) (P : Cstr → Prop) : Prop := r = .ok none ∨ ∃ s, r = .ok (some s) ∧ P s

theorem Yields.mono {r : M (Option Cstr)} {P Q : Cstr → Prop} (h : Yields r P) (hPQ : ∀ s, P s → Q s) : Yields r Q := by
  rcases h with h | ⟨s, hs, hP⟩
  · exact Or.inl h
  · exact Or.inr ⟨s, hs, hPQ s hP⟩

theorem length_malloc {mem : Mem} {size : Nat} {data : List Byte} (h : malloc mem size = some data) :
    data.length = size - hdrSize := by
  cases mem with
  | none => cases h
  | some m =>
    cases h
    exact length_resize _ _ _

/-! ## Construction -/

/-- An object just made, and empty. -/
theorem setEnd_empty (cap : Nat) (data : List Byte) (hlt : cap < data.length) (hmin : minSize ≤ cap + hdrSize + 1)
    (hmax : cap + hdrSize + 1 ≤ maxSize) :
    ∃ s, setEnd ⟨cap, 0, data⟩ = .ok s ∧ s.Valid ∧ s.Terminated ∧ s.used = 0 ∧ s.cap = cap ∧
      s.data.length = data.length := by
  have hpos : 0 < data.length := by omega
  have hlen : (put data 0 [(0 : Byte)]).length = data.length := length_put_one hpos
  exact ⟨_, setEnd_eq hpos, ⟨Nat.zero_le _, by rw [hlen]; exact hlt, hmin, hmax⟩, terminated_put hpos, rfl, rfl, hlen⟩

/-- The size that `newSize` gives to a block for `total` bytes is a power of two within the limits. -/
theorem newSize_block {total : Nat} (h : total ≤ maxSize) :
    ∃ k, (if roundUpPower2 total < minSize then minSize else roundUpPower2 total) = 2 ^ k ∧ minSize ≤ 2 ^ k ∧
      2 ^ k ≤ maxSize ∧ total ≤ 2 ^ k := by
  have hmax : total ≤ 2 ^ 29 := h
  obtain ⟨k, _, hk, hle, _⟩ := roundUpPower2_spec (show total ≤ 2 ^ 31 by omega)
  have hround : roundUpPower2 total ≤ 2 ^ 29 := roundUpPower2_le hmax (by decide)
  rw [hk] at hround ⊢
  by_cases hmin : 2 ^ k < minSize
  · rw [if_pos hmin]
    exact ⟨5, rfl, Nat.le_refl _, by decide, Nat.le_trans hle (Nat.le_of_lt hmin)⟩
  · rw [if_neg hmin]
    exact ⟨k, rfl, Nat.le_of_not_lt hmin, hround, hle⟩

theorem newSize_refuses {mem : Mem} {cap : Nat} (h : maxSize < u32 (cap + hdrSize + 1)) :
    newSize mem cap = .ok none := by
  unfold newSize
  have hout : roundUpPower2 (u32 (cap + hdrSize + 1)) = 0 ∨ roundUpPower2 (u32 (cap + hdrSize + 1)) > maxSize := by
    by_cases hbig : u32 (cap + hdrSize + 1) ≤ 2 ^ 31
    · right
      exact Nat.lt_of_lt_of_le h (le_roundUpPower2 hbig)
    · left
      exact if_pos (Nat.lt_of_not_le hbig)
  exact if_pos hout

/-- `newSize` for a size that it does not refuse. -/
theorem newSize_cases (mem : Mem) {cap : Nat} (h : u32 (cap + hdrSize + 1) ≤ maxSize) :
    (newSize mem cap = .ok none ∧ mem = none) ∨ mem ≠ none ∧ ∃ s, newSize mem cap = .ok (some s) ∧ s.Valid ∧
      s.Terminated ∧ s.used = 0 ∧ s.data.length = s.cap + 1 ∧ u32 (cap + hdrSize + 1) ≤ s.totalSize ∧
      (∃ k, s.totalSize = 2 ^ k) ∧ (u32 (cap + hdrSize + 1) ≤ minSize → s.totalSize = minSize) := by
  have hmax : u32 (cap + hdrSize + 1) ≤ 2 ^ 29 := h
  have hround : roundUpPower2 (u32 (cap + hdrSize + 1)) ≤ 2 ^ 29 := roundUpPower2_le hmax (by decide)
  have hpos : roundUpPower2 (u32 (cap + hdrSize + 1)) ≠ 0 := by
    obtain ⟨k, _, hk, _⟩ := roundUpPower2_spec (Nat.le_trans hmax (by decide))
    rw [hk]
    exact Nat.ne_of_gt (Nat.pow_pos (by decide))
  have hrange : ¬(roundUpPower2 (u32 (cap + hdrSize + 1)) = 0 ∨ roundUpPower2 (u32 (cap + hdrSize + 1)) > maxSize) := by
    rintro (h0 | hbig)
    · exact hpos h0
    · exact absurd hround (Nat.not_le_of_lt hbig)
  have hsmall : u32 (cap + hdrSize + 1) ≤ minSize → roundUpPower2 (u32 (cap + hdrSize + 1)) ≤ minSize :=
    fun hle => roundUpPower2_le (j := 5) hle (by decide)
  obtain ⟨k, hk, hmin, hlim, hfit⟩ := newSize_block h
  unfold newSize
  simp only [if_neg hrange]
  cases mem with
  | none => exact Or.inl ⟨rfl, rfl⟩
  | some m =>
    right
    generalize hsize : (if roundUpPower2 (u32 (cap + hdrSize + 1)) < minSize then minSize
      else roundUpPower2 (u32 (cap + hdrSize + 1))) = size at *
    have hhdr : hdrSize = 8 := rfl
    have hmin32 : minSize = 32 := rfl
    have hlen : (resize m [] (size - hdrSize)).length = size - hdrSize := length_resize _ _ _
    obtain ⟨s, hs, hv, ht, hu, hcap, hl⟩ := setEnd_empty (size - (hdrSize + 1)) (resize m [] (size - hdrSize))
      (by omega) (by omega) (by omega)
    have htotal : s.totalSize = size := by
      rw [totalSize, hcap]
      omega
    refine ⟨Option.some_ne_none m, s, ?_, hv, ht, hu, by omega, by omega, ⟨k, by omega⟩, fun hle => ?_⟩
    · simp only [malloc, Option.map_some, hs]
      rfl
    · have := hsmall hle
      split at hsize <;> omega

/-- `newSize` makes an empty object, and its block is exactly as large as its capacity. -/
theorem newSize_spec (mem : Mem) (cap : Nat) :
    Yields (newSize mem cap) fun s => s.Valid ∧ s.Terminated ∧ s.used = 0 ∧ s.data.length = s.cap + 1 ∧
      (cap + hdrSize + 1 < 2 ^ 32 → cap ≤ s.cap) := by
  by_cases hbig : maxSize < u32 (cap + hdrSize + 1)
  · exact Or.inl (newSize_refuses hbig)
  · rcases newSize_cases mem (Nat.le_of_not_lt hbig) with ⟨hn, _⟩ | ⟨_, s, hs, hv, ht, hu, hlen, hfit, _⟩
    · exact Or.inl hn
    · refine Or.inr ⟨s, hs, hv, ht, hu, hlen, fun h32 => ?_⟩
      rw [u32_eq h32, totalSize] at hfit
      omega

/-- Bytes at the start of an object, ended there. -/
theorem valid_put {cap : Nat} {data bs : List Byte} (hlt : cap < data.length) (hbs : bs.length ≤ cap)
    (hmin : minSize ≤ cap + hdrSize + 1) (hmax : cap + hdrSize + 1 ≤ maxSize) :
    Valid ⟨cap, bs.length, put (put data 0 bs) bs.length [0]⟩ ∧
      Terminated ⟨cap, bs.length, put (put data 0 bs) bs.length [0]⟩ ∧
      content ⟨cap, bs.length, put (put data 0 bs) bs.length [0]⟩ = bs := by
  have hlen : (put data 0 bs).length = data.length := length_put (by omega)
  have hend : bs.length < (put data 0 bs).length := by omega
  refine ⟨⟨hbs, ?_, hmin, hmax⟩, terminated_put hend, ?_⟩
  · rw [length_put_one hend, hlen]
    exact hlt
  · have htake : (put data 0 bs).take (0 + bs.length) = data.take 0 ++ bs := take_put (Nat.zero_le _)
    simp only [content]
    rw [take_put_of_le (Nat.le_refl _) (by omega)]
    simpa using htake

theorem newStr_null_spec {mem : Mem} :
    Yields (newStr mem none) fun s => s.Valid ∧ s.Terminated ∧ s.used = 0 ∧ s.data.length = s.cap + 1 := by
  simp only [newStr]
  cases hm : malloc mem minSize with
  | none => exact Or.inl rfl
  | some data =>
    have hlen : data.length = 24 := length_malloc hm
    have hput : (put data 0 [(0 : Byte)]).length = data.length := length_put_one (by omega)
    obtain ⟨s, hs, hv, ht, hu, hcap, hl⟩ := setEnd_empty (minSize - (hdrSize + 1)) (put data 0 [0])
      (by rw [hput, hlen]; decide) (by decide) (by decide)
    have hstore : store ⟨minSize - (hdrSize + 1), 0, data⟩ 0 [0] = .ok ⟨minSize - (hdrSize + 1), 0, put data 0 [0]⟩ :=
      store_eq (by rw [hlen]; decide)
    simp only [hstore, ok_bind, hs]
    refine Or.inr ⟨s, rfl, hv, ht, hu, ?_⟩
    rw [hl, hput, hlen, hcap]
    rfl

/-- `newStr` with an object that is large enough. -/
theorem newStr_fits {mem : Mem} {str : CString} {cap used : Nat} {data : List Byte}
    (hs : newSize mem str.strlen = .ok (some ⟨cap, used, data⟩)) (hv : Valid ⟨cap, used, data⟩) (hle : str.strlen ≤ cap) :
    ∃ s, newStr mem (some str) = .ok (some s) ∧ s.Valid ∧ s.Terminated ∧ s.content = slice str.memory 0 str.strlen ∧
      s.cap = cap ∧ s.data.length = data.length := by
  have hcap : cap < data.length := hv.cap_lt
  have hmem : 0 + str.strlen ≤ str.memory.length := by rw [Nat.zero_add]; exact str.strlen_le
  have hbs := length_slice hmem
  generalize hb : slice str.memory 0 str.strlen = bs at hbs
  have hfit : 0 + bs.length ≤ data.length := by omega
  have hend : bs.length < (put data 0 bs).length := by rw [length_put hfit]; omega
  have heq : newStr mem (some str) = .ok (some ⟨cap, bs.length, put (put data 0 bs) bs.length [0]⟩) := by
    simp only [newStr, hs, ok_bind]
    rw [load_eq hmem, ok_bind, hb, store_eq hfit, ok_bind, ← hbs, setEnd_eq hend, ok_bind]
  obtain ⟨hv', ht', hc'⟩ := valid_put hcap (show bs.length ≤ cap by omega) hv.min_le hv.le_max
  refine ⟨_, heq, hv', ht', hc', rfl, ?_⟩
  simp only [length_put_one hend, length_put hfit]

/-- `newStr` on a string for whose length there is no wrap-around: it goes through `NULL` if there is no
object, else the object holds the string. -/
theorem newStr_spec (mem : Mem) {str : CString} (h32 : str.strlen + hdrSize + 1 < 2 ^ 32) :
    newStr mem (some str) = .error .null ∨ ∃ s, newStr mem (some str) = .ok (some s) ∧ s.Valid ∧ s.Terminated ∧
      s.content = slice str.memory 0 str.strlen := by
  rcases newSize_spec mem str.strlen with hn | ⟨⟨cap, used, data⟩, hs, hv, _, _, _, hcap⟩
  · left
    simp only [newStr, hn, ok_bind]
  · right
    obtain ⟨s, hnew, hv', ht', hc', _⟩ := newStr_fits hs hv (hcap h32)
    exact ⟨s, hnew, hv', ht', hc'⟩

/-- An object that `newStr` makes holds the string, whatever its length. -/
theorem newStr_ok {mem : Mem} {str : CString} {s : Cstr} (h : newStr mem (some str) = .ok (some s)) :
    s.Valid ∧ s.content = slice str.memory 0 str.strlen := by
  rcases newSize_spec mem str.strlen with hn | ⟨⟨cap, used, data⟩, hs, hv, _, _, hlen, _⟩
  · simp only [newStr, hn, ok_bind] at h
    cases h
  · simp only at hlen
    by_cases hle : str.strlen ≤ cap
    · obtain ⟨s', heq, hv', _, hc', _⟩ := newStr_fits hs hv hle
      rw [heq] at h
      cases h
      exact ⟨hv', hc'⟩
    -- the string does not fit the object: the copy or the terminator is a fault
    · have hmem : 0 + str.strlen ≤ str.memory.length := by rw [Nat.zero_add]; exact str.strlen_le
      have hbs := length_slice hmem
      simp only [newStr, hs, ok_bind] at h
      rw [load_eq hmem, ok_bind] at h
      generalize slice str.memory 0 str.strlen = bs at hbs h
      by_cases hfit : 0 + bs.length ≤ data.length
      · have hput : (put data 0 bs).length ≤ str.strlen := by rw [length_put hfit]; omega
        rw [store_eq hfit, ok_bind, setEnd_fault hput] at h
        cases h
      · rw [store_fault (by omega)] at h
        cases h

theorem new_null_spec {mem : Mem} : Yields (new mem none) fun s => s.Valid ∧ s.Terminated ∧ s.used = 0 := by
  simp only [new]
  cases hm : malloc mem minSize with
  | none => exact Or.inl rfl
  | some data =>
    have hlen : data.length = 24 := length_malloc hm
    have hall : (0 : Nat) + (List.replicate (minSize - (hdrSize + 1) + 1) (0 : Byte)).length ≤ data.length := by
      rw [hlen]; decide
    simp only
    rw [store_eq hall, ok_bind]
    refine Or.inr ⟨_, rfl, ⟨Nat.zero_le _, ?_, ?_, ?_⟩, ?_, rfl⟩
    · simp only [length_put hall, hlen]
      decide
    · simp only [totalSize]
      decide
    · simp only [totalSize]
      decide
    · have := getElem?_put_add (l := data) (i := 0) (j := 0) (Nat.zero_le _)
        (show 0 < (List.replicate (minSize - (hdrSize + 1) + 1) (0 : Byte)).length by decide)
      simpa [Terminated] using this

/-- The copy constructor makes an object with the same content. -/
theorem new_spec {mem : Mem} {src : Cstr} (hv : src.Valid) :
    Yields (new mem (some src)) fun s => s.Valid ∧ s.Terminated ∧ s.content = src.content := by
  simp only [new]
  cases hm : malloc mem (src.cap + hdrSize + 1) with
  | none => exact Or.inl rfl
  | some data =>
    have hlen : data.length = src.cap + 1 := by
      rw [length_malloc hm]
      simp only [hdrSize]
      omega
    have hcap := hv.cap_lt
    have hused := hv.used_le
    have hload : 0 + (src.cap + 1) ≤ src.data.length := by omega
    have hbs := length_slice hload
    have htake : slice src.data 0 (src.cap + 1) = src.data.take (src.cap + 1) := by rw [slice, List.drop_zero]
    rw [htake] at hbs
    have hle : 0 + (src.data.take (src.cap + 1)).length ≤ data.length := by omega
    have hput : (put data 0 (src.data.take (src.cap + 1))).length = data.length := length_put hle
    have hend : src.used < (put data 0 (src.data.take (src.cap + 1))).length := by omega
    simp only
    rw [load_eq hload, ok_bind, htake, store_eq hle, ok_bind, setEnd_eq hend, ok_bind]
    refine Or.inr ⟨_, rfl, ⟨hused, ?_, hv.min_le, hv.le_max⟩, terminated_put hend, ?_⟩
    · simp only [length_put_one hend, hput, hlen]
      omega
    · have hall : (put data 0 (src.data.take (src.cap + 1))).take (0 + (src.data.take (src.cap + 1)).length) = _ :=
        take_put (Nat.zero_le _)
      rw [Nat.zero_add, hbs, List.take_zero, List.nil_append] at hall
      have htk := congrArg (List.take src.used) hall
      rw [List.take_take, List.take_take, Nat.min_eq_left (by omega)] at htk
      simp only [content]
      rw [take_put_of_le (Nat.le_refl _) (by omega), htk]

/-! ## The block for the bytes copied -/

/-- The byte at index `i` of the block, or what a reallocation leaves there. -/
def left (mem : Mem) (s : Cstr) (i : Nat) : Option Byte := s.data[i]?.or (mem.map fun m => m i)

/-- `d` is `dst` in a block of `size` bytes (or more, if the block is as it was). -/
structure Fitted (mem : Mem) (dst d : Cstr) (size : Nat) : Prop where
  total : d.totalSize = size
  used : d.used = dst.used
  cap_lt : d.cap < d.data.length
  byte : ∀ i ≤ d.cap, d.data[i]? = left mem dst i
  same : size = dst.totalSize → d = dst
  exact : size ≠ dst.totalSize → d.data.length = d.cap + 1

theorem Fitted.take {mem : Mem} {dst d : Cstr} {size n : Nat} (h : Fitted mem dst d size) (hd : n ≤ d.cap + 1)
    (hl : n ≤ dst.data.length) : d.data.take n = dst.data.take n := by
  ext i : 1
  by_cases hi : i < n
  · rw [List.getElem?_take_of_lt hi, List.getElem?_take_of_lt hi, h.byte i (by omega), left,
      List.getElem?_eq_getElem (by omega)]
    rfl
  · rw [List.getElem?_take_eq_none (by omega), List.getElem?_take_eq_none (by omega)]

theorem refit_eq_none {mem : Mem} {dst : Cstr} {total : Nat} (h : maxSize < u32 total) : refit mem dst total = none := by
  simp only [refit, calFitCap_eq_zero h]
  rfl

theorem Valid.u32_totalSize {s : Cstr} (h : s.Valid) : u32 s.totalSize = s.totalSize := by
  have := h.le_max
  exact u32_eq (by simp only [maxSize] at this; omega)

theorem refit_spec (mem : Mem) {dst : Cstr} {total : Nat} (hv : dst.Valid) (ht : u32 total ≤ maxSize) :
    (refit mem dst total = none ∧ mem = none ∧ calFitCap dst.totalSize (u32 total) ≠ dst.totalSize) ∨
      ((mem = none → calFitCap dst.totalSize (u32 total) = dst.totalSize) ∧
        ∃ d, refit mem dst total = some d ∧ Fitted mem dst d (calFitCap dst.totalSize (u32 total))) := by
  obtain ⟨hmin, _, hmax, _⟩ := calFitCap_spec hv.le_max ht
  have hcap := hv.cap_lt
  unfold refit
  rw [hv.u32_totalSize]
  generalize calFitCap dst.totalSize (u32 total) = size at hmin hmax
  simp only [minSize] at hmin
  have hrange : ¬ (size < minSize ∨ size > maxSize) := by simp only [minSize]; omega
  simp only [if_neg hrange]
  by_cases hsame : size = dst.totalSize
  · have hd : dst.cap = size - (hdrSize + 1) := by rw [hsame, totalSize]; omega
    rw [if_neg (by simpa using hsame)]
    simp only [Option.map_some, ← hd]
    refine Or.inr ⟨fun _ => hsame, dst, rfl, hsame.symm, rfl, hcap, fun i hi => ?_, fun _ => rfl, fun h => absurd hsame h⟩
    rw [left, List.getElem?_eq_getElem (by omega)]
    rfl
  · rw [if_pos hsame]
    cases mem with
    | none => exact Or.inl ⟨rfl, rfl, hsame⟩
    | some m =>
      have hhdr : hdrSize = 8 := rfl
      have hlen : (resize m dst.data (size - hdrSize)).length = size - (hdrSize + 1) + 1 := by
        rw [length_resize]
        omega
      refine Or.inr ⟨fun h => absurd h (Option.some_ne_none m), _, rfl, ?_, rfl, ?_, fun i hi => ?_,
        fun h => absurd h hsame, fun _ => hlen⟩
      · simp only [totalSize]
        omega
      · simp only [hlen]
        omega
      · simp only at hi ⊢
        rw [getElem?_resize (by omega), left]
        cases dst.data[i]? <;> rfl

/-- The call refuses `n` bytes: they are too many, or the block must be reallocated and cannot. -/
def Refused (mem : Mem) (dst : Cstr) (n : Nat) : Prop :=
  maxSize < n + hdrSize + 1 ∨ (mem = none ∧ calFitCap dst.totalSize (n + hdrSize + 1) ≠ dst.totalSize)

/-- The block for `n` bytes has room for them, or the call refuses. -/
theorem refit_cases (mem : Mem) {dst : Cstr} {n : Nat} (hv : dst.Valid) (h32 : n + hdrSize + 1 < 2 ^ 32) :
    (refit mem dst (n + hdrSize + 1) = none ∧ Refused mem dst n) ∨ ¬ Refused mem dst n ∧ ∃ cap data,
      refit mem dst (n + hdrSize + 1) = some ⟨cap, dst.used, data⟩ ∧ n ≤ cap ∧
        Fitted mem dst ⟨cap, dst.used, data⟩ (calFitCap dst.totalSize (n + hdrSize + 1)) ∧
        minSize ≤ cap + hdrSize + 1 ∧ cap + hdrSize + 1 ≤ maxSize := by
  by_cases hbig : maxSize < n + hdrSize + 1
  · left
    rw [refit_eq_none (by rw [u32_eq h32]; exact hbig)]
    exact ⟨rfl, Or.inl hbig⟩
  · have hle : n + hdrSize + 1 ≤ maxSize := Nat.le_of_not_lt hbig
    have hspec := refit_spec mem hv (show u32 (n + hdrSize + 1) ≤ maxSize by rw [u32_eq h32]; exact hle)
    rw [u32_eq h32] at hspec
    rcases hspec with ⟨hr, hm, hne⟩ | ⟨hm, ⟨cap, used, data⟩, hr, hd⟩
    · exact Or.inl ⟨hr, Or.inr ⟨hm, hne⟩⟩
    · right
      obtain rfl : used = dst.used := hd.used
      have htotal : cap + hdrSize + 1 = calFitCap dst.totalSize (n + hdrSize + 1) := hd.total
      obtain ⟨hmin, hfit, hmax, _⟩ := calFitCap_spec hv.le_max hle
      refine ⟨?_, cap, data, hr, by omega, hd, by omega, by omega⟩
      rintro (h | ⟨h, hne⟩)
      · exact hbig h
      · exact hne (hm h)

/-- The bytes can be counted with header and terminator in 32 bits, or the block must be reallocated and
cannot. -/
def Sized (mem : Mem) (dst : Cstr) (n : Nat) : Prop :=
  n + hdrSize + 1 < 2 ^ 32 ∨ (mem = none ∧ tinyMaxSize < dst.totalSize)

theorem Sized.cases {mem : Mem} {dst : Cstr} {n : Nat} (h : Sized mem dst n) (hv : dst.Valid) (hn : n < 2 ^ 32) :
    n + hdrSize + 1 < 2 ^ 32 ∨ refit mem dst (n + hdrSize + 1) = none := by
  have hhdr : hdrSize = 8 := rfl
  by_cases h32 : n + hdrSize + 1 < 2 ^ 32
  · exact Or.inl h32
  · right
    rcases h with h | ⟨rfl, htiny⟩
    · exact absurd h h32
    · have hu : u32 (n + hdrSize + 1) < minSize := by
        rw [u32_eq_sub (by omega) (by omega)]
        simp only [minSize]
        omega
      have hmax : u32 (n + hdrSize + 1) ≤ maxSize := by simp only [minSize, maxSize] at *; omega
      rcases refit_spec none hv hmax with ⟨hr, _⟩ | ⟨hsame, _⟩
      · exact hr
      · rw [calFitCap_small htiny hv.le_max hu] at hsame
        have := hsame rfl
        simp only [minSize, tinyMaxSize] at *
        omega

end TinyUtils.Cstr
