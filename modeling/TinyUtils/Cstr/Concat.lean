import TinyUtils.Cstr.Splice
/-!
# Appending and inserting, for any source

A source is where its bytes are and how many there are (`Gives`): `data` and `used` of an object, or a
C string. What `append` and `insert` leave is stated once for every source and then read off for both.

* `append_concat`: an append that succeeds is concatenation
* `insert_splices`: an insertion puts a slice of the source into the content, and when it refuses
* `append_like_insert_iff`: an append refuses more than an insertion at the end does, as it counts the
  block of `dst` where the insertion counts the content
-/

namespace TinyUtils.Cstr

open Block Checked

/-- The `n` bytes at `src` are `bs`. -/
structure Gives (src : List Byte) (n : Nat) (bs : List Byte) : Prop where
  le : n ≤ src.length
  eq : src.take n = bs

theorem Gives.length {src bs : List Byte} {n : Nat} (h : Gives src n bs) : bs.length = n := by
  rw [← h.eq]
  exact List.length_take_of_le h.le

/-- A slice of the source is one of its bytes. -/
theorem Gives.slice {src bs : List Byte} {n begin k : Nat} (h : Gives src n bs) (hk : begin + k ≤ n) :
    slice src begin k = slice bs begin k := by
  rw [← h.eq, Cstr.slice, Cstr.slice, List.drop_take, List.take_take, Nat.min_eq_left (by omega)]

theorem Valid.gives {s : Cstr} (h : s.Valid) : Gives s.data s.used s.content := ⟨Nat.le_of_lt h.used_lt, rfl⟩

theorem gives_memory {str : CString} (h : str.bytes.length < 2 ^ 32) : Gives str.memory str.strlen str.bytes := by
  refine ⟨str.strlen_le, ?_⟩
  rw [CString.strlen_eq h, CString.memory]
  exact List.take_left

theorem maxSize_lt : maxSize < 2 ^ 32 := by decide

/-! ## Appending -/

/-- The object holds the content of `dst` and behind it `bs`. -/
structure Joined (dst : Cstr) (bs : List Byte) (s : Cstr) : Prop where
  valid : s.Valid
  used : s.used = dst.used + bs.length
  content : s.content = dst.content ++ bs

theorem appendFrom_joined {mem : Mem} {dst : Cstr} {src bs : List Byte} {n : Nat} (hv : dst.Valid)
    (hsrc : Gives src n bs) (hn : n < maxSize) : Yields (appendFrom mem dst src n) (Joined dst bs) := by
  have hsmall := hv.used_add_le
  have hlt : n < 2 ^ 29 := hn
  refine (appendFrom_spec hv hsrc.le (by omega)).mono fun s hs => ?_
  obtain ⟨hvalid, _, hcontent⟩ := hs
  rw [hsrc.eq] at hcontent
  refine ⟨hvalid, ?_, hcontent⟩
  rw [← hvalid.length_content, hcontent, List.length_append, hv.length_content]

/-- **Appending is concatenation**, for every outcome of the allocation and without an access outside the block. -/
theorem append_concat (mem : Mem) {dst : Cstr} (hv : dst.Valid) :
    (∀ src : Cstr, src.Valid → Yields (append mem dst src) (Joined dst src.content)) ∧
      ∀ src : CString, src.bytes.length < maxSize → Yields (appendStr mem dst (some src)) (Joined dst src.bytes) := by
  constructor
  · intro src hsrc
    have hsmall := hsrc.used_add_le
    exact appendFrom_joined hv hsrc.gives (by simp only [maxSize]; omega)
  · intro src hlen
    have h32 := Nat.lt_trans hlen maxSize_lt
    exact appendFrom_joined hv (gives_memory h32) (by rw [CString.strlen_eq h32]; exact hlen)

/-- `"cd"` behind `"ab"`. -/
theorem append_concat_abcd :
    Yields (append none (small [97, 98]) (small [99, 100])) (Joined (small [97, 98]) (small [99, 100]).content) ∧
      Yields (appendStr none (small [97, 98]) (some ⟨[99, 100], by decide⟩)) (Joined (small [97, 98]) [99, 100]) := by
  have hv : (small [97, 98]).Valid := small_valid (by decide)
  obtain ⟨hcstr, hstr⟩ := append_concat none hv
  exact ⟨hcstr _ (small_valid (by decide)), hstr ⟨[99, 100], by decide⟩ (by decide)⟩

/-! ## Insertion -/

/-- There is no block for `t` bytes: they do not fit and realloc fails or the size is refused, unless it wraps around. -/
theorem grow_eq_none_iff (mem : Mem) {dst : Cstr} {t : Nat} (hv : dst.Valid) (ht : t < 2 ^ 32) :
    grow mem dst t = none ↔ dst.cap < t ∧ (mem = none ∨ maxSize < t + hdrSize + 1 ∧ t + hdrSize + 1 < 2 ^ 32) := by
  by_cases hroom : dst.cap < t
  · simp only [hroom, true_and]
    by_cases h32 : t + hdrSize + 1 < 2 ^ 32
    · rw [grow, if_pos hroom, hv.u32_totalSize, u32_eq h32]
      by_cases hbig : maxSize < t + hdrSize + 1
      · simp only [calFitCap_eq_zero hbig]
        exact iff_of_true rfl (Or.inr ⟨hbig, h32⟩)
      · obtain ⟨hmin, hle, _⟩ := calFitCap_spec hv.le_max (Nat.le_of_not_lt hbig)
        generalize calFitCap dst.totalSize (t + hdrSize + 1) = size at *
        have hne : size ≠ dst.cap := by omega
        simp only [if_neg (Nat.not_lt.2 hmin), if_pos hne, hbig, false_and, or_false]
        cases mem with
        | none => exact iff_of_true rfl rfl
        | some m => exact iff_of_false (Option.some_ne_none _) (Option.some_ne_none m)
    · simp only [h32, and_false, or_false]
      cases mem with
      | none => exact iff_of_true (grow_wrapped hv ht h32) rfl
      | some m =>
        refine iff_of_false ?_ (Option.some_ne_none m)
        -- the size is that of an object for a few bytes, and there is one
        have hu : u32 (t + hdrSize + 1) ≤ maxSize := by
          rw [u32_eq_sub (Nat.le_of_not_lt h32) (by simp only [hdrSize]; omega)]
          simp only [maxSize, hdrSize]
          omega
        obtain ⟨hmin, _⟩ := calFitCap_spec hv.le_max hu
        rw [grow, if_pos hroom, hv.u32_totalSize]
        simp only [if_neg (Nat.not_lt.2 hmin)]
        split <;> exact Option.some_ne_none _
  · rw [grow, if_neg hroom]
    exact iff_of_false (Option.some_ne_none dst) fun h => hroom h.1

/-- The statements of an insertion behind the choice of the block do not return `NULL`. -/
theorem splice_ne_null (d : Cstr) (src : List Byte) (pos begin len j : Nat) :
    (do
      let tail ← load d.data pos j
      let d ← d.store (pos + len) tail
      let bytes ← load src begin len
      let d ← d.store pos bytes
      let d ← d.setEnd
      .ok (some d) : M (Option Cstr)) ≠ .ok none := by
  apply bind_ne_ok
  intro tail
  apply bind_ne_ok
  intro d
  apply bind_ne_ok
  intro bytes
  apply bind_ne_ok
  intro d
  apply bind_ne_ok
  intro d h
  cases h

/-- An insertion refuses when there is no block for the new content, and only then. -/
theorem insertFrom_null_iff {mem : Mem} {dst : Cstr} {pos : Nat} {src : List Byte} {n begin len k : Nat}
    (hk : insertLen n begin len = some k) :
    insertFrom mem dst pos src n begin len = .ok none ↔ grow mem dst (u32 (dst.used + k)) = none := by
  simp only [insertFrom, hk]
  cases grow mem dst (u32 (dst.used + k)) with
  | none => exact iff_of_true rfl rfl
  | some d =>
    have hne := splice_ne_null ⟨d.cap, u32 (dst.used + k), d.data⟩ src pos begin k (sub32 dst.used pos)
    exact iff_of_false hne (Option.some_ne_none d)

theorem insertFrom_eq_none_iff {mem : Mem} {dst : Cstr} {pos : Nat} {src : List Byte} {n begin len k : Nat}
    (hv : dst.Valid) (hk : insertLen n begin len = some k) (h32 : dst.used + k + hdrSize + 1 < 2 ^ 32) :
    insertFrom mem dst pos src n begin len = .ok none ↔
      dst.cap < dst.used + k ∧ (mem = none ∨ maxSize < dst.used + k + hdrSize + 1) := by
  have ht : dst.used + k < 2 ^ 32 := by omega
  rw [insertFrom_null_iff hk, u32_eq ht, grow_eq_none_iff mem hv ht]
  simp only [h32, and_true]

/-- How many bytes from index `begin` an insertion asked for `len` of them takes; all there are if `len` is 0. -/
def sliceLen (n begin len : Nat) : Nat := if len = 0 ∨ begin + len > n then n - begin else len

/-- The source has the slice. -/
theorem add_sliceLen_le {n begin len : Nat} (hn : begin < n) : begin + sliceLen n begin len ≤ n := by
  unfold sliceLen
  split <;> omega

theorem insertLen_eq {n begin len : Nat} (hn : begin < n) (h32 : begin + (if len = 0 then n else len) < 2 ^ 32) :
    insertLen n begin len = some (sliceLen n begin len) := by
  unfold insertLen sliceLen
  simp only
  rw [sub32_eq (Nat.lt_of_le_of_lt (Nat.zero_le _) hn), if_neg (by omega), u32_eq h32, sub32_eq (Nat.le_of_lt hn)]
  by_cases h0 : len = 0
  · rw [if_pos h0, if_pos (Or.inl h0)]
    by_cases hover : begin + n > n
    · rw [if_pos hover]
    · rw [if_neg hover]
      congr 1
      omega
  · rw [if_neg h0]
    simp only [h0, false_or]

/-- What a call returns that inserts the `k` bytes of `bs` from `begin` on at `pos`. -/
structure Splices (mem : Mem) (dst : Cstr) (pos : Nat) (bs : List Byte) (begin k : Nat) (r : M (Option Cstr)) :
    Prop where
  null : r = .ok none ↔ dst.cap < dst.used + k ∧ (mem = none ∨ maxSize < dst.used + k + hdrSize + 1)
  yields : Yields r fun s => s.Valid ∧ s.Terminated ∧ s.used = dst.used + k ∧
    s.content = dst.content.take pos ++ slice bs begin k ++ dst.content.drop pos

section
variable (mem : Mem) {dst : Cstr} {pos begin len : Nat}

theorem insertFrom_splices {src bs : List Byte} {n : Nat} (hv : dst.Valid) (hpos : pos ≤ dst.used)
    (hsrc : Gives src n bs) (hn : begin < n) (hsmall : n < maxSize) (h32 : begin + len < 2 ^ 32) :
    Splices mem dst pos bs begin (sliceLen n begin len) (insertFrom mem dst pos src n begin len) := by
  have hused := hv.used_add_le
  have hle : begin + sliceLen n begin len ≤ n := add_sliceLen_le hn
  have hmax : n < 2 ^ 29 := hsmall
  have hk : insertLen n begin len = some (sliceLen n begin len) := insertLen_eq hn (by split <;> omega)
  have hload := Nat.le_trans hle hsrc.le
  generalize sliceLen n begin len = k at *
  have hwrap : dst.used + k + hdrSize + 1 < 2 ^ 32 := by omega
  refine ⟨insertFrom_eq_none_iff hv hk hwrap, (insertFrom_spec hv hpos hk hload hwrap).mono fun s hs => ?_⟩
  obtain ⟨hvalid, hterm, hcontent⟩ := hs
  refine ⟨hvalid, hterm, ?_, hsrc.slice hle ▸ hcontent⟩
  have hlen := congrArg List.length hcontent
  rw [List.length_append, List.length_append, length_slice hload, List.length_take, List.length_drop,
    hv.length_content, hvalid.length_content] at hlen
  omega

/-- **Insertion puts a slice of the source into the content.** -/
theorem insert_splices (hv : dst.Valid) (hpos : pos ≤ dst.used) (h32 : begin + len < 2 ^ 32) :
    (∀ src : Cstr, src.Valid → begin < src.used →
      Splices mem dst pos src.content begin (sliceLen src.used begin len) (insert mem dst pos src begin len)) ∧
    ∀ src : CString, src.bytes.length < maxSize → begin < src.bytes.length →
      Splices mem dst pos src.bytes begin (sliceLen src.bytes.length begin len)
        (insertStr mem dst pos (some src) begin len) := by
  constructor
  · intro src hsrc hn
    have hsmall := hsrc.used_add_le
    exact insertFrom_splices mem hv hpos hsrc.gives hn (by simp only [maxSize]; omega) h32
  · intro src hlen hn
    have hlt := Nat.lt_trans hlen maxSize_lt
    rw [← CString.strlen_eq hlt] at hlen hn ⊢
    exact insertFrom_splices mem hv hpos (gives_memory hlt) hn hlen h32

end

/-- `"xyz"` from index 1 into `"ab"`. -/
theorem insert_splices_ab :
    Splices none (small [97, 98]) 1 (small [120, 121, 122]).content 1 (sliceLen (small [120, 121, 122]).used 1 0)
        (insert none (small [97, 98]) 1 (small [120, 121, 122]) 1 0) ∧
      Splices none (small [97, 98]) 1 [120, 121, 122] 1 (sliceLen 3 1 0)
        (insertStr none (small [97, 98]) 1 (some ⟨[120, 121, 122], by decide⟩) 1 0) := by
  have hv : (small [97, 98]).Valid := small_valid (by decide)
  have hpos : 1 ≤ (small [97, 98]).used := by decide
  obtain ⟨hcstr, hstr⟩ := insert_splices none hv hpos (show 1 + 0 < 2 ^ 32 by decide)
  exact ⟨hcstr _ (small_valid (by decide)) (by decide), hstr ⟨[120, 121, 122], by decide⟩ (by decide) (by decide)⟩

/-! ## Appending and insertion at the end -/

theorem appendFrom_eq_none_iff {mem : Mem} {dst : Cstr} {src : List Byte} {n : Nat} (hv : dst.Valid)
    (hn : n ≤ src.length) (h32 : dst.used + hdrSize + 1 + n < 2 ^ 32) (h0 : n ≠ 0) :
    appendFrom mem dst src n = .ok none ↔ AppendRefused mem dst n := by
  rcases appendFrom_cases mem hv hn h32 h0 rfl with ⟨hnone, hr⟩ | ⟨hok, data, heq, _⟩
  · exact iff_of_true hnone hr
  · rw [heq]
    refine iff_of_false ?_ hok
    intro h
    cases h

/-- An append and an insertion at the end accept the same sources, those with which the content is within 512 MiB,
and leave the same content. -/
structure AppendLikeInsert (mem : Mem) (dst src : Cstr) : Prop where
  null : append mem dst src = .ok none ↔ insert mem dst dst.used src 0 0 = .ok none
  limit : insert mem dst dst.used src 0 0 = .ok none ↔ maxSize < dst.used + src.used + hdrSize + 1
  same : ∀ s t, append mem dst src = .ok (some s) → insert mem dst dst.used src 0 0 = .ok (some t) →
    s.used = t.used ∧ s.content = t.content

theorem Yields.of_eq {r : M (Option Cstr)} {P : Cstr → Prop} {s : Cstr} (h : Yields r P) (hr : r = .ok (some s)) :
    P s := by
  rcases h with h | ⟨s', h, hP⟩
  · rw [h] at hr
    cases hr
  · rw [h] at hr
    cases hr
    exact hP

section
variable {m : Nat → Byte} {dst src : Cstr}

/-- Where realloc succeeds, an insertion at the end refuses what makes the content too long. -/
theorem insert_end_null_iff (hv : dst.Valid) (hsrc : src.Valid) (h0 : src.used ≠ 0) :
    insert (some m) dst dst.used src 0 0 = .ok none ↔ maxSize < dst.used + src.used + hdrSize + 1 := by
  have hmax := hv.le_max
  have hsmall := hsrc.used_add_le
  have hs := insertFrom_splices (some m) hv (Nat.le_refl _) hsrc.gives (Nat.pos_of_ne_zero h0)
    (by simp only [maxSize]; omega) (show 0 + 0 < 2 ^ 32 by decide)
  have hk : sliceLen src.used 0 0 = src.used := if_pos (Or.inl rfl)
  rw [insert, hs.null, hk]
  simp only [totalSize] at hmax
  constructor
  · rintro ⟨_, h | h⟩
    · exact absurd h (Option.some_ne_none m)
    · exact h
  · intro h
    exact ⟨by omega, Or.inr h⟩

theorem append_null_iff (hv : dst.Valid) (hsrc : src.Valid) (h0 : src.used ≠ 0) :
    append (some m) dst src = .ok none ↔
      maxSize < dst.totalSize + src.used ∨ maxSize < dst.used + src.used + hdrSize + 1 := by
  have hmax := hv.le_max
  have hused := hv.used_add_le
  have hsmall := hsrc.used_add_le
  have hwrap : u32 (dst.totalSize + src.used) = dst.totalSize + src.used := by
    simp only [maxSize] at hmax
    exact u32_eq (by omega)
  rw [append, appendFrom_eq_none_iff hv hsrc.gives.le (by omega) h0, AppendRefused, hwrap]
  have hno : ¬ (some m = none ∧ dst.totalSize < calFitCap dst.totalSize (dst.used + hdrSize + 1 + src.used)) :=
    fun h => Option.some_ne_none m h.1
  simp only [hno, or_false]
  omega

theorem append_insert_same (hv : dst.Valid) (hsrc : src.Valid) (h0 : src.used ≠ 0) {s t : Cstr}
    (hs : append (some m) dst src = .ok (some s)) (ht : insert (some m) dst dst.used src 0 0 = .ok (some t)) :
    s.used = t.used ∧ s.content = t.content := by
  have hsmall := hsrc.used_add_le
  have hn : src.used < maxSize := by simp only [maxSize]; omega
  have hjoined := (appendFrom_joined hv hsrc.gives hn).of_eq hs
  have hsplices := insertFrom_splices (some m) hv (Nat.le_refl _) hsrc.gives (Nat.pos_of_ne_zero h0) hn
    (show 0 + 0 < 2 ^ 32 by decide)
  obtain ⟨_, _, hused, hcontent⟩ := hsplices.yields.of_eq ht
  have hk : sliceLen src.used 0 0 = src.used := if_pos (Or.inl rfl)
  have hlen := hsrc.length_content
  rw [hk] at hused hcontent
  refine ⟨by rw [hjoined.used, hused, hlen], ?_⟩
  have hall : src.content.take src.used = src.content := List.take_of_length_le (Nat.le_of_eq hlen)
  have hnone : dst.content.drop dst.used = [] := List.drop_eq_nil_of_le (Nat.le_of_eq hv.length_content)
  have hdst : dst.content.take dst.used = dst.content := List.take_of_length_le (Nat.le_of_eq hv.length_content)
  rw [hjoined.content, hcontent, hdst, hnone, List.append_nil, slice_zero, hall]

/-- **An append accepts what an insertion at the end accepts, unless the block of `dst` and the source are more than
512 MiB and the content is not.** -/
theorem append_like_insert_iff (hv : dst.Valid) (hsrc : src.Valid) (h0 : src.used ≠ 0) :
    AppendLikeInsert (some m) dst src ↔
      dst.totalSize + src.used ≤ maxSize ∨ maxSize < dst.used + src.used + hdrSize + 1 := by
  have happend := append_null_iff (m := m) hv hsrc h0
  have hinsert := insert_end_null_iff (m := m) hv hsrc h0
  constructor
  · intro h
    have hiff := h.null
    rw [happend, hinsert] at hiff
    omega
  · intro h
    refine ⟨?_, hinsert, fun s t => append_insert_same hv hsrc h0⟩
    rw [happend, hinsert]
    omega

end

theorem append_like_insert_ab : AppendLikeInsert (some fun _ => 0) (small [97]) (small [98]) :=
  (append_like_insert_iff (small_valid (by decide)) (small_valid (by decide)) (by decide)).2 (Or.inl (by decide))

/-- An object of 512 MiB that is empty. -/
def reserved : Cstr := ⟨maxSize - (hdrSize + 1), 0, List.replicate (maxSize - hdrSize) 0⟩

theorem reserved_valid : reserved.Valid := by
  refine ⟨Nat.zero_le _, ?_, by decide, by decide⟩
  rw [reserved, List.length_replicate]
  decide

/-- It accepts one byte to insert, and none to append. -/
theorem not_append_like_insert_reserved : ¬ AppendLikeInsert (some fun _ => 0) reserved (small [98]) := by
  intro h
  have hs : (small [98]).Valid := small_valid (by decide)
  have hnull := (append_null_iff (m := fun _ => 0) reserved_valid hs (by decide)).2 (Or.inl (by decide))
  have hlimit := h.limit.1 (h.null.1 hnull)
  exact absurd hlimit (by decide)

end TinyUtils.Cstr
