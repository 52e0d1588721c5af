import TinyUtils.Cstr.Assign
/-!
# Insertion and appending

Both make the content longer. `insert` sizes the block for the whole new content (`grow`) and ends it.
`append` sizes it likewise, may set `cap` to less than the block holds, and writes zeros up to `cap`: if
the content fills the capacity, there is no room for one, and the byte behind it is what it was
(`AppendEnds`).
-/

namespace TinyUtils.Cstr

open Block Checked

/-! ## Insertion -/

theorem grow_spec (mem : Mem) {dst : Cstr} {t : Nat} (hv : dst.Valid) (h32 : t + hdrSize + 1 < 2 ^ 32) :
    grow mem dst t = none ∨ ∃ cap data, grow mem dst t = some ⟨cap, dst.used, data⟩ ∧ t ≤ cap ∧ cap < data.length ∧
      minSize ≤ cap + hdrSize + 1 ∧ cap + hdrSize + 1 ≤ maxSize ∧ data.take dst.used = dst.content := by
  have hhdr : hdrSize = 8 := rfl
  have hcap := hv.cap_lt
  have hused := hv.used_le
  unfold grow
  by_cases hroom : t > dst.cap
  · rw [if_pos hroom, hv.u32_totalSize, u32_eq h32]
    by_cases hbig : maxSize < t + hdrSize + 1
    · simp only [calFitCap_eq_zero hbig]
      exact Or.inl rfl
    · obtain ⟨hmin, hle, hmax, _⟩ := calFitCap_spec hv.le_max (show t + hdrSize + 1 ≤ maxSize by omega)
      generalize calFitCap dst.totalSize (t + hdrSize + 1) = size at *
      have hne : size ≠ dst.cap := by omega
      simp only [if_neg (show ¬ size < minSize by omega), if_pos hne]
      cases mem with
      | none => exact Or.inl rfl
      | some m =>
        refine Or.inr ⟨size - (hdrSize + 1), resize m dst.data (size - hdrSize), rfl, by omega, ?_, by omega, by omega, ?_⟩
        · rw [length_resize]
          omega
        · exact take_resize (by omega) (by omega)
  · rw [if_neg hroom]
    exact Or.inr ⟨dst.cap, dst.data, rfl, by omega, hcap, hv.min_le, hv.le_max, rfl⟩

/-- The content with the inserted bytes can be counted with header and terminator in 32 bits, or the block must be
reallocated and cannot. -/
def InsertSized (mem : Mem) (dst : Cstr) (k : Nat) : Prop :=
  dst.used + k + hdrSize + 1 < 2 ^ 32 ∨ (mem = none ∧ dst.used + k < 2 ^ 32)

theorem grow_wrapped {dst : Cstr} {t : Nat} (hv : dst.Valid) (ht : t < 2 ^ 32) (h32 : ¬ t + hdrSize + 1 < 2 ^ 32) :
    grow none dst t = none := by
  have hhdr : hdrSize = 8 := rfl
  have hmax := hv.le_max
  have hu : u32 (t + hdrSize + 1) < minSize := by
    rw [u32_eq_sub (by omega) (by omega)]
    simp only [minSize]
    omega
  have hu' : u32 (t + hdrSize + 1) ≤ maxSize := by simp only [minSize, maxSize] at *; omega
  obtain ⟨hmin, _, _, hkeep⟩ := calFitCap_spec hmax hu'
  have hne : calFitCap dst.totalSize (u32 (t + hdrSize + 1)) ≠ dst.cap := by
    by_cases htiny : dst.totalSize ≤ tinyMaxSize
    · have := hkeep htiny
      simp only [totalSize] at *
      omega
    · rw [calFitCap_small (Nat.lt_of_not_le htiny) hmax hu]
      simp only [totalSize, minSize, tinyMaxSize] at *
      omega
  have hroom : t > dst.cap := by simp only [totalSize, maxSize] at hmax; omega
  rw [grow, if_pos hroom, hv.u32_totalSize]
  simp only [if_neg (Nat.not_lt.2 hmin), if_pos hne]
  rfl

/-- **Insertion splices a slice of the source into the content.** -/
theorem insertFrom_spec {mem : Mem} {dst : Cstr} {pos : Nat} {src : List Byte} {n begin len k : Nat} (hv : dst.Valid)
    (hpos : pos ≤ dst.used) (hk : insertLen n begin len = some k) (hload : begin + k ≤ src.length)
    (h32 : dst.used + k + hdrSize + 1 < 2 ^ 32) :
    Yields (insertFrom mem dst pos src n begin len) fun s => s.Valid ∧ s.Terminated ∧
      s.content = dst.content.take pos ++ slice src begin k ++ dst.content.drop pos := by
  have ht : u32 (dst.used + k) = dst.used + k := u32_eq (by omega)
  rcases grow_spec mem hv h32 with hg | ⟨cap, data, hg, hle, hcap, hmin, hmax, htake⟩
  · left
    simp only [insertFrom, hk, ht, hg]
  · right
    have hsub : sub32 dst.used pos = dst.used - pos := sub32_eq hpos
    have htl : pos + (dst.used - pos) ≤ data.length := by omega
    have htail := length_slice htl
    have htl' : slice data pos (dst.used - pos) = dst.content.drop pos := by
      rw [← htake, List.drop_take]
      rfl
    generalize htn : slice data pos (dst.used - pos) = tail at *
    have hbs := length_slice hload
    generalize hbn : slice src begin k = bs at *
    have h1 : pos + k + tail.length ≤ data.length := by omega
    have hl1 := length_put h1
    have h2 : pos + bs.length ≤ (put data (pos + k) tail).length := by omega
    have hone : put (put data (pos + k) tail) pos bs = put data pos (bs ++ tail) := by
      rw [← hbs]
      exact put_append' (by omega)
    have hall : pos + (bs ++ tail).length = dst.used + k := by rw [List.length_append]; omega
    have h3 : dst.used + k < (put data pos (bs ++ tail)).length := by rw [length_put (by omega)]; omega
    have hl3 := length_put_one (x := (0 : Byte)) h3
    have heq : insertFrom mem dst pos src n begin len =
        .ok (some ⟨cap, dst.used + k, put (put data pos (bs ++ tail)) (dst.used + k) [0]⟩) := by
      simp only [insertFrom, hk, ht, hg]
      rw [hsub, load_eq htl, ok_bind, htn, store_eq h1, ok_bind, load_eq hload, ok_bind, hbn, store_eq h2, ok_bind, hone,
        setEnd_eq h3, ok_bind]
    refine ⟨_, heq, ⟨hle, ?_, hmin, hmax⟩, terminated_put h3, ?_⟩
    · simp only [hl3]
      rw [length_put (by omega)]
      exact hcap
    · have hpre : data.take pos = dst.content.take pos := by
        rw [← htake, List.take_take, Nat.min_eq_left hpos]
      simp only [content]
      rw [take_put_of_le (Nat.le_refl _) (by omega), ← hall, take_put (by omega), hpre, htl', List.append_assoc]
      rfl

/-! ## Appending -/

/-- The result is terminated: there is nothing to append, or the call refuses, or the content does not fill the
block, or a NUL is there already. -/
def AppendEnds (mem : Mem) (dst : Cstr) (n : Nat) : Prop :=
  let total := dst.used + hdrSize + 1 + n
  n = 0 ∨ maxSize < u32 (dst.totalSize + n) ∨ maxSize < total ∨ (mem = none ∧ dst.totalSize < total) ∨
    ¬ Fills total ∨ (total < dst.totalSize ∧ dst.totalSize ≤ tinyMaxSize) ∨ left mem dst (dst.used + n) = some 0

/-- The block for the appended bytes is reallocated if it must be larger, and keeps what it holds. -/
theorem appendBlock_spec (mem : Mem) {dst : Cstr} {size : Nat} (hv : dst.Valid) (hsize : minSize ≤ size)
    (hused : dst.used + hdrSize + 1 ≤ size) :
    (appendBlock mem dst size = none ∧ mem = none ∧ dst.totalSize < size) ∨
      ¬ (mem = none ∧ dst.totalSize < size) ∧ ∃ data, appendBlock mem dst size = some ⟨dst.cap, dst.used, data⟩ ∧
        size - (hdrSize + 1) < data.length ∧ data.take dst.used = dst.content ∧
        ∀ i ≤ size - (hdrSize + 1), data[i]? = left mem dst i := by
  have hhdr : hdrSize = 8 := rfl
  have hcap := hv.cap_lt
  have hlt := hv.used_lt
  simp only [minSize] at hsize
  unfold appendBlock
  by_cases hgrow : size - (hdrSize + 1) > dst.cap
  · have htot : dst.totalSize < size := by simp only [totalSize]; omega
    rw [if_pos hgrow]
    cases mem with
    | none => exact Or.inl ⟨rfl, rfl, htot⟩
    | some m =>
      refine Or.inr ⟨fun h => Option.some_ne_none m h.1, resize m dst.data (size - hdrSize), rfl, ?_,
        take_resize (by omega) (by omega), fun i hi => ?_⟩
      · rw [length_resize]
        omega
      · rw [getElem?_resize (by omega), left]
        cases dst.data[i]? <;> rfl
  · have htot : ¬ dst.totalSize < size := by simp only [totalSize]; omega
    rw [if_neg hgrow]
    refine Or.inr ⟨fun h => htot h.2, dst.data, rfl, by omega, rfl, fun i hi => ?_⟩
    rw [left, List.getElem?_eq_getElem (by omega)]
    rfl

/-- The content with the appended bytes can be counted with header and terminator in 32 bits, or the block must be
reallocated and cannot. -/
def AppendSized (mem : Mem) (dst : Cstr) (n : Nat) : Prop :=
  dst.used + hdrSize + 1 + n < 2 ^ 32 ∨
    (mem = none ∧ dst.totalSize < calFitCap dst.totalSize (u32 (dst.used + hdrSize + 1 + n)))

theorem appendFrom_wrapped {dst : Cstr} {src : List Byte} {n : Nat} (hv : dst.Valid) (h0 : n ≠ 0)
    (hgrow : dst.totalSize < calFitCap dst.totalSize (u32 (dst.used + hdrSize + 1 + n))) :
    appendFrom none dst src n = .ok none := by
  have hmin := hv.min_le
  rw [appendFrom, if_neg h0]
  by_cases hcap : u32 (dst.totalSize + n) > maxSize
  · exact if_pos hcap
  · have hblock : appendBlock none dst (calFitCap dst.totalSize (u32 (dst.used + hdrSize + 1 + n))) = none := by
      rw [appendBlock, if_pos (by simp only [totalSize] at hgrow ⊢; omega)]
      rfl
    simp only [if_neg hcap, hv.u32_totalSize, hblock]
    rw [if_neg (by omega)]

/-- The call refuses `n` bytes: they are too many, or the block must grow and cannot. -/
def AppendRefused (mem : Mem) (dst : Cstr) (n : Nat) : Prop :=
  maxSize < u32 (dst.totalSize + n) ∨ maxSize < dst.used + hdrSize + 1 + n ∨
    (mem = none ∧ dst.totalSize < calFitCap dst.totalSize (dst.used + hdrSize + 1 + n))

/-- What `appendFrom` does: nothing, or it writes the bytes behind the content and zeros behind them, in the block
sized for all. -/
theorem appendFrom_cases (mem : Mem) {dst : Cstr} {src : List Byte} {n size : Nat} (hv : dst.Valid) (hn : n ≤ src.length)
    (h32 : dst.used + hdrSize + 1 + n < 2 ^ 32) (h0 : n ≠ 0)
    (hs : calFitCap dst.totalSize (dst.used + hdrSize + 1 + n) = size) :
    (appendFrom mem dst src n = .ok none ∧ AppendRefused mem dst n) ∨ ¬ AppendRefused mem dst n ∧ ∃ data,
      appendFrom mem dst src n = .ok (some ⟨size - (hdrSize + 1), dst.used + n,
        put data dst.used (src.take n ++ List.replicate (size - (hdrSize + 1) - (dst.used + n)) 0)⟩) ∧
        dst.used + hdrSize + 1 + n ≤ size ∧ minSize ≤ size ∧ size ≤ maxSize ∧ size - (hdrSize + 1) < data.length ∧
        data.take dst.used = dst.content ∧ ∀ i ≤ size - (hdrSize + 1), data[i]? = left mem dst i := by
  have hhdr : hdrSize = 8 := rfl
  have hu : u32 (dst.used + hdrSize + 1 + n) = dst.used + hdrSize + 1 + n := u32_eq h32
  by_cases hcap : maxSize < u32 (dst.totalSize + n)
  · left
    simp only [appendFrom, if_neg h0]
    exact ⟨if_pos hcap, Or.inl hcap⟩
  · by_cases hbig : maxSize < dst.used + hdrSize + 1 + n
    · left
      simp only [appendFrom, if_neg h0, if_neg hcap, hu, calFitCap_eq_zero hbig]
      exact ⟨rfl, Or.inr (Or.inl hbig)⟩
    · obtain ⟨hmin, hle, hmax, _⟩ := calFitCap_spec hv.le_max (show dst.used + hdrSize + 1 + n ≤ maxSize by omega)
      rw [hs] at hmin hle hmax
      have hnmin : ¬ size < minSize := Nat.not_lt.2 hmin
      rcases appendBlock_spec mem hv hmin (by omega) with ⟨hb, hnone, hgrow⟩ | ⟨hok, data, hb, hlen, htake, hleft⟩
      · left
        simp only [appendFrom, if_neg h0, if_neg hcap, hu, hv.u32_totalSize, hs, if_neg hnmin, hb]
        exact ⟨trivial, Or.inr (Or.inr ⟨hnone, by rw [hs]; exact hgrow⟩)⟩
      · right
        have hload : 0 + n ≤ src.length := by omega
        have hbs := length_slice hload
        rw [slice_zero] at hbs
        have hused : u32 (dst.used + n) = dst.used + n := u32_eq (by omega)
        have hsub : sub32 (size - (hdrSize + 1)) (dst.used + n) = size - (hdrSize + 1) - (dst.used + n) :=
          sub32_eq (by omega)
        refine ⟨?_, data, ?_, hle, hmin, hmax, hlen, htake, hleft⟩
        · rintro (h | h | h)
          · exact hcap h
          · exact hbig h
          · exact hok (hs ▸ h)
        · have hzs : (List.replicate (size - (hdrSize + 1) - (dst.used + n)) (0 : Byte)).length =
              size - (hdrSize + 1) - (dst.used + n) := List.length_replicate
          have h1 : dst.used + (src.take n).length ≤ data.length := by omega
          have h2 : dst.used + n + (List.replicate (size - (hdrSize + 1) - (dst.used + n)) (0 : Byte)).length ≤
              (put data dst.used (src.take n)).length := by rw [length_put h1]; omega
          have hone : put (put data dst.used (src.take n)) (dst.used + (src.take n).length)
              (List.replicate (size - (hdrSize + 1) - (dst.used + n)) 0) = _ := put_append h1
          rw [hbs] at hone
          simp only [appendFrom, if_neg h0, if_neg hcap, hu, hv.u32_totalSize, hs, if_neg hnmin, hb]
          rw [load_eq hload, ok_bind, slice_zero, store_eq h1, ok_bind]
          simp only [hused, hsub]
          rw [store_eq h2, ok_bind, hone]

/-- Where there is no room for a zero, the byte behind the content is what it was. -/
theorem AppendEnds.left_eq {mem : Mem} {dst : Cstr} {n : Nat} (h : AppendEnds mem dst n) (hv : dst.Valid) (h0 : n ≠ 0)
    (hok : ¬ AppendRefused mem dst n)
    (hfull : calFitCap dst.totalSize (dst.used + hdrSize + 1 + n) = dst.used + hdrSize + 1 + n) :
    left mem dst (dst.used + n) = some 0 := by
  simp only [AppendRefused, not_or] at hok
  obtain ⟨hcap, hbig, hgrow⟩ := hok
  have hlt := lt_calFitCap hv.le_max (Nat.le_of_not_lt hbig)
  rw [hfull] at hlt hgrow
  rcases h with h | h | h | h | h | h | h
  · exact absurd h h0
  · exact absurd h hcap
  · exact absurd h hbig
  · exact absurd h hgrow
  · exact absurd (hlt (Or.inl h)) (Nat.lt_irrefl _)
  · exact absurd (hlt (Or.inr h)) (Nat.lt_irrefl _)
  · exact h

/-- **Appending is concatenation.** -/
theorem appendFrom_spec {mem : Mem} {dst : Cstr} {src : List Byte} {n : Nat} (hv : dst.Valid) (hn : n ≤ src.length)
    (h32 : dst.used + hdrSize + 1 + n < 2 ^ 32) :
    Yields (appendFrom mem dst src n) fun s => s.Valid ∧ (dst.Terminated → AppendEnds mem dst n → s.Terminated) ∧
      s.content = dst.content ++ src.take n := by
  have hhdr : hdrSize = 8 := rfl
  by_cases h0 : n = 0
  · right
    refine ⟨dst, by rw [appendFrom, if_pos h0], hv, fun ht _ => ht, ?_⟩
    rw [h0, List.take_zero, List.append_nil]
  · generalize hs : calFitCap dst.totalSize (dst.used + hdrSize + 1 + n) = size
    rcases appendFrom_cases mem hv hn h32 h0 hs with ⟨hnone, _⟩ | ⟨hok, data, heq, hle, hmin, hmax, hlen, htake, hleft⟩
    · exact Or.inl hnone
    · right
      have hbs : (src.take n).length = n := by rw [List.length_take]; omega
      generalize hz : List.replicate (size - (hdrSize + 1) - (dst.used + n)) (0 : Byte) = zs at heq
      have hzs : zs.length = size - (hdrSize + 1) - (dst.used + n) := by rw [← hz, List.length_replicate]
      generalize src.take n = bs at hbs heq
      have hall : dst.used + (bs ++ zs).length = size - (hdrSize + 1) := by rw [List.length_append]; omega
      have hput : (put data dst.used (bs ++ zs)).length = data.length := length_put (by omega)
      have hvalid : Valid ⟨size - (hdrSize + 1), dst.used + n, put data dst.used (bs ++ zs)⟩ :=
        valid_of_length (by omega) hlen hput (by omega) (by omega)
      refine ⟨_, heq, hvalid, fun _ hends => ?_, ?_⟩
      · simp only [Terminated]
        by_cases hfull : dst.used + n = size - (hdrSize + 1)
        · rw [getElem?_put_of_ge (by omega) (by omega), hleft _ (by omega)]
          exact hends.left_eq hv h0 hok (by omega)
        · have hlt : n < (bs ++ zs).length := by omega
          rw [getElem?_put_add (by omega) hlt, List.getElem?_append_right (by omega), ← hz, List.getElem?_replicate,
            if_pos (by omega)]
      · have hpre : put data dst.used (bs ++ zs) = put (put data dst.used bs) (dst.used + bs.length) zs :=
          (put_append (by omega)).symm
        simp only [content]
        rw [hpre, hbs, take_put_of_le (Nat.le_refl _) (by rw [length_put (by omega)]; omega), ← hbs, take_put (by omega),
          htake]
        rfl

end TinyUtils.Cstr
