import TinyUtils.Cstr.Refit
/-!
# Assignment, copy and substring

`assign` and `subCstr` store the bytes they size the block for, and end them. `copy` and `copyStr` lay
`k` bytes over a content that may be longer, in a block sized for `k`: `CopyFits` is when that block holds
the longer content, and `copyStr` does not end the result.
-/

namespace TinyUtils.Cstr

open Block Checked

/-- Other bytes in the block of a well-formed object. -/
theorem valid_of_length {cap used : Nat} {data₀ data : List Byte} (hused : used ≤ cap) (hlt : cap < data₀.length)
    (hlen : data.length = data₀.length) (hmin : minSize ≤ cap + hdrSize + 1) (hmax : cap + hdrSize + 1 ≤ maxSize) :
    Valid ⟨cap, used, data⟩ :=
  ⟨hused, by rw [hlen]; exact hlt, hmin, hmax⟩

/-- The bytes from the start of the source. -/
theorem slice_zero {p : List Byte} {n : Nat} : slice p 0 n = p.take n := by rw [slice, List.drop_zero]

theorem take_put_zero (data bs : List Byte) : (put data 0 bs).take bs.length = bs := by
  have h : (put data 0 bs).take (0 + bs.length) = data.take 0 ++ bs := take_put (Nat.zero_le _)
  simpa using h

theorem Valid.used_le_totalSize {s : Cstr} (h : s.Valid) : s.used + hdrSize + 1 ≤ s.totalSize := by
  have hused := h.used_le
  simp only [totalSize]
  omega

/-- The bytes that `assign` stores, the zeros behind them and the terminator. -/
def filled (data bs : List Byte) (cap : Nat) : List Byte :=
  put (put (put data 0 bs) bs.length (List.replicate (cap - bs.length) 0)) bs.length [0]

section
variable {data bs : List Byte} {cap : Nat}

theorem length_fill (hcap : cap < data.length) (hbs : bs.length ≤ cap) :
    (put (put data 0 bs) bs.length (List.replicate (cap - bs.length) 0)).length = data.length := by
  have hput : (put data 0 bs).length = data.length := length_put (by omega)
  rw [length_put, hput]
  rw [List.length_replicate, hput]
  omega

theorem length_filled (hcap : cap < data.length) (hbs : bs.length ≤ cap) :
    (filled data bs cap).length = data.length := by
  have hfill := length_fill hcap hbs
  rw [filled, length_put_one (by omega), hfill]

theorem take_filled (hcap : cap < data.length) (hbs : bs.length ≤ cap) : (filled data bs cap).take bs.length = bs := by
  have hfill := length_fill hcap hbs
  have hput : (put data 0 bs).length = data.length := length_put (by omega)
  rw [filled, take_put_of_le (Nat.le_refl _) (by omega), take_put_of_le (Nat.le_refl _) (by omega), take_put_zero]

theorem getElem?_filled (hcap : cap < data.length) (hbs : bs.length ≤ cap) {i : Nat} (hi : bs.length ≤ i)
    (h : i < cap ∨ i = bs.length) : (filled data bs cap)[i]? = some 0 := by
  have hfill := length_fill hcap hbs
  have hput : (put data 0 bs).length = data.length := length_put (by omega)
  rw [filled]
  by_cases hend : i = bs.length
  · subst hend
    exact getElem?_put_one (by omega)
  · obtain ⟨j, rfl⟩ : ∃ j, i = bs.length + j := ⟨i - bs.length, by omega⟩
    have hj : j < cap - bs.length := by omega
    rw [getElem?_put_one_ne (by omega) hend, getElem?_put_add (by omega) (by rw [List.length_replicate]; exact hj),
      List.getElem?_replicate, if_pos hj]

end

/-- What `assignFrom` does: nothing, or it fills the block sized for the bytes. -/
theorem assignFrom_cases (mem : Mem) {dst : Cstr} {src : List Byte} {n : Nat} (hv : dst.Valid) (hn : n ≤ src.length)
    (h32 : n + hdrSize + 1 < 2 ^ 32) :
    (assignFrom mem dst src n = .ok none ∧ Refused mem dst n) ∨ ¬ Refused mem dst n ∧ ∃ cap data,
      assignFrom mem dst src n = .ok (some ⟨cap, n, filled data (src.take n) cap⟩) ∧ n ≤ cap ∧
        Fitted mem dst ⟨cap, dst.used, data⟩ (calFitCap dst.totalSize (n + hdrSize + 1)) ∧
        minSize ≤ cap + hdrSize + 1 ∧ cap + hdrSize + 1 ≤ maxSize := by
  rcases refit_cases mem hv h32 with ⟨hr, hrefused⟩ | ⟨hok, cap, data, hr, hnc, hd, hmin, hmax⟩
  · left
    rw [assignFrom, hr]
    exact ⟨rfl, hrefused⟩
  · right
    have hcap : cap < data.length := hd.cap_lt
    have hload : 0 + n ≤ src.length := by omega
    have hbs : (src.take n).length = n := List.length_take_of_le hn
    have hfill := length_fill hcap (show (src.take n).length ≤ cap by omega)
    refine ⟨hok, cap, data, ?_, hnc, hd, hmin, hmax⟩
    simp only [assignFrom, hr]
    rw [load_eq hload, ok_bind, slice_zero, filled]
    generalize src.take n = bs at *
    subst hbs
    have hput : (put data 0 bs).length = data.length := length_put (by omega)
    have hzeros : bs.length + (List.replicate (cap - bs.length) (0 : Byte)).length ≤ (put data 0 bs).length := by
      rw [List.length_replicate, hput]
      omega
    have hend : bs.length < (put (put data 0 bs) bs.length (List.replicate (cap - bs.length) 0)).length := by omega
    rw [store_eq (by omega), ok_bind, sub32_eq hnc, store_eq hzeros, ok_bind, setEnd_eq hend, ok_bind]

theorem assignFrom_spec (mem : Mem) {dst : Cstr} {src : List Byte} {n : Nat} (hv : dst.Valid) (hn : n ≤ src.length)
    (h32 : n + hdrSize + 1 < 2 ^ 32) :
    Yields (assignFrom mem dst src n) fun s => s.Valid ∧ s.Terminated ∧ s.content = src.take n := by
  rcases assignFrom_cases mem hv hn h32 with ⟨hnone, _⟩ | ⟨_, cap, data, hs, hnc, hd, hmin, hmax⟩
  · exact Or.inl hnone
  · right
    have hcap : cap < data.length := hd.cap_lt
    have hbs : (src.take n).length = n := List.length_take_of_le hn
    have hle : (src.take n).length ≤ cap := by omega
    refine ⟨_, hs, valid_of_length hnc hcap (length_filled hcap hle) hmin hmax, ?_, ?_⟩
    · exact getElem?_filled hcap hle (Nat.le_of_eq hbs) (Or.inr hbs.symm)
    · have htake := take_filled hcap hle
      rw [hbs] at htake
      exact htake

/-- `if(new_cap != CSTR_TOTAL_SIZE(dst))`: the block is reallocated for `n` bytes. -/
def Reallocates (dst : Cstr) (n : Nat) : Prop :=
  calFitCap (u32 dst.totalSize) (u32 (n + hdrSize + 1)) ≠ dst.totalSize

/-- `s` is `dst` with the bytes as its whole content and zeros behind them. -/
structure Assigned (dst : Cstr) (bs : List Byte) (s : Cstr) : Prop where
  used : s.used = bs.length
  content : s.content = bs
  ended : s.Terminated
  zeros : ∀ i, s.used ≤ i → i < s.cap → s.data[i]? = some 0
  used_le : s.used ≤ s.cap
  reallocated : Reallocates dst bs.length → s.totalSize = s.block
  kept : ¬ Reallocates dst bs.length → s.block = dst.block ∧ s.totalSize ≤ s.block

theorem assignFrom_assigned (m : Nat → Byte) {dst : Cstr} {src : List Byte} {n : Nat} (hv : dst.Valid)
    (hn : n ≤ src.length) (hmax : n + hdrSize + 1 ≤ maxSize) :
    ∃ s, assignFrom (some m) dst src n = .ok (some s) ∧ Assigned dst (src.take n) s := by
  have h32 : n + hdrSize + 1 < 2 ^ 32 := Nat.lt_of_le_of_lt hmax (by decide)
  rcases assignFrom_cases (some m) hv hn h32 with ⟨_, hbig | ⟨hnone, _⟩⟩ | ⟨_, cap, data, hs, hnc, hd, _, _⟩
  · omega
  · exact absurd hnone (Option.some_ne_none m)
  · have hcap : cap < data.length := hd.cap_lt
    have hbs : (src.take n).length = n := List.length_take_of_le hn
    have hle : (src.take n).length ≤ cap := by omega
    have hlen := length_filled hcap hle
    have htake := take_filled hcap hle
    have hrealloc : Reallocates dst n ↔ calFitCap dst.totalSize (n + hdrSize + 1) ≠ dst.totalSize := by
      rw [Reallocates, hv.u32_totalSize, u32_eq h32]
    refine ⟨_, hs, hbs.symm, ?_, ?_, fun i hi hic => ?_, hnc, ?_, ?_⟩
    · rw [hbs] at htake
      exact htake
    · exact getElem?_filled hcap hle (Nat.le_of_eq hbs) (Or.inr hbs.symm)
    · exact getElem?_filled hcap hle (by rw [hbs]; exact hi) (Or.inl hic)
    · intro hnew
      rw [hbs, hrealloc] at hnew
      have hexact : data.length = cap + 1 := hd.exact hnew
      simp only [totalSize, block]
      omega
    · intro hsame
      rw [hbs, hrealloc, Decidable.not_not] at hsame
      have hdst : Cstr.mk cap dst.used data = dst := hd.same hsame
      have hdata : data = dst.data := congrArg Cstr.data hdst
      simp only [totalSize, block, hlen]
      rw [hdata] at hcap ⊢
      omega

/-- **Assignment replaces the content**, if a reallocation succeeds. -/
theorem assign_replaces (m : Nat → Byte) {dst : Cstr} (hv : dst.Valid) :
    (∀ src : Cstr, src.Valid → ∃ s, assign (some m) dst src = .ok (some s) ∧ s.used = src.used ∧
      Assigned dst src.content s) ∧
    ∀ src : CString, src.bytes.length + hdrSize + 1 ≤ maxSize →
      ∃ s, assignStr (some m) dst (some src) = .ok (some s) ∧ Assigned dst src.bytes s := by
  constructor
  · intro src hsrc
    have hmax : src.used + hdrSize + 1 ≤ maxSize := Nat.le_trans hsrc.used_le_totalSize hsrc.le_max
    obtain ⟨s, hs, hassigned⟩ := assignFrom_assigned m hv (Nat.le_of_lt hsrc.used_lt) hmax
    refine ⟨s, hs, ?_, hassigned⟩
    rw [hassigned.used]
    exact hsrc.length_content
  · intro src hmax
    have hlen : src.strlen = src.bytes.length :=
      CString.strlen_eq (by simp only [maxSize, hdrSize] at hmax; omega)
    obtain ⟨s, hs, hassigned⟩ := assignFrom_assigned m hv src.strlen_le (by rw [hlen]; exact hmax)
    refine ⟨s, hs, ?_⟩
    rw [hlen, CString.memory, List.take_left] at hassigned
    exact hassigned

/-- "xyz" over "ab". -/
theorem assign_replaces_small :
    (∃ s, assign (some fun _ => 7) (small [97, 98]) (small [120, 121, 122]) = .ok (some s) ∧ s.used = 3 ∧
      Assigned (small [97, 98]) (small [120, 121, 122]).content s) ∧
    ∃ s, assignStr (some fun _ => 7) (small [97, 98]) (some ⟨[120, 121, 122], by decide⟩) = .ok (some s) ∧
      Assigned (small [97, 98]) [120, 121, 122] s := by
  have hv : (small [97, 98]).Valid := small_valid (by decide)
  have h := assign_replaces (fun _ => 7) hv
  exact ⟨h.1 _ (small_valid (by decide)), h.2 ⟨[120, 121, 122], by decide⟩ (by decide)⟩

/-! ## Substring -/

theorem subFrom_spec {mem : Mem} {dst : Cstr} {src : List Byte} {n begin len : Nat} (hv : dst.Valid)
    (hsel : ∀ k, subLen n begin len = some k → begin + k ≤ src.length ∧ k + hdrSize + 1 < 2 ^ 32) :
    Yields (subFrom mem dst src n begin len) fun s => s.Valid ∧ s.Terminated ∧
      ∃ k, subLen n begin len = some k ∧ s.content = slice src begin k := by
  cases hk : subLen n begin len with
  | none =>
    left
    rw [subFrom, hk]
  | some k =>
    obtain ⟨hload, h32⟩ := hsel k hk
    rcases refit_cases mem hv h32 with ⟨hr, _⟩ | ⟨_, cap, data, hr, hkc, hd, hmin, hmax⟩
    · left
      simp only [subFrom, hk, hr]
    · right
      have hcap : cap < data.length := hd.cap_lt
      have hbs := length_slice hload
      generalize hb : slice src begin k = bs at hbs
      have h1 : 0 + bs.length ≤ data.length := by omega
      have h2 : bs.length < (put data 0 bs).length := by rw [length_put h1]; omega
      have heq : subFrom mem dst src n begin len = .ok (some ⟨cap, bs.length, put (put data 0 bs) bs.length [0]⟩) := by
        simp only [subFrom, hk, hr]
        rw [load_eq hload, ok_bind, hb, store_eq h1, ok_bind, ← hbs, setEnd_eq h2, ok_bind]
      obtain ⟨hv', ht', hc'⟩ := valid_put hcap (show bs.length ≤ cap by omega) hmin hmax
      exact ⟨_, heq, hv', ht', k, rfl, hc'.trans hb.symm⟩

/-! ## Copy -/

/-- The block sized for `k` copied bytes holds the content of `dst` too, unless the call refuses. -/
def CopyFits (mem : Mem) (dst : Cstr) (k : Nat) : Prop :=
  mem = none ∨ maxSize < k + hdrSize + 1 ∨ dst.totalSize ≤ tinyMaxSize ∨
    Covers (k + hdrSize + 1) (dst.used + hdrSize + 1)

/-- What `copyFrom` does: nothing, or it lays the bytes over those of the block sized for them. -/
theorem copyFrom_cases (mem : Mem) {dst : Cstr} {src : List Byte} {begin k : Nat} (hv : dst.Valid)
    (hload : begin + k ≤ src.length) (h32 : k + hdrSize + 1 < 2 ^ 32) :
    (copyFrom mem dst src begin k = .ok none ∧ Refused mem dst k) ∨ ¬ Refused mem dst k ∧ ∃ cap data,
      copyFrom mem dst src begin k = .ok (some ⟨cap, max k dst.used, put data 0 (slice src begin k)⟩) ∧
        k ≤ cap ∧ Fitted mem dst ⟨cap, dst.used, data⟩ (calFitCap dst.totalSize (k + hdrSize + 1)) ∧
        minSize ≤ cap + hdrSize + 1 ∧ cap + hdrSize + 1 ≤ maxSize := by
  rcases refit_cases mem hv h32 with ⟨hr, hrefused⟩ | ⟨hok, cap, data, hr, hkc, hd, hmin, hmax⟩
  · left
    rw [copyFrom, hr]
    exact ⟨rfl, hrefused⟩
  · right
    have hcap : cap < data.length := hd.cap_lt
    have hbs := length_slice hload
    have h1 : 0 + (slice src begin k).length ≤ data.length := by omega
    have hlonger : (if k > dst.used then k else dst.used) = max k dst.used := by
      split <;> omega
    refine ⟨hok, cap, data, ?_, hkc, hd, hmin, hmax⟩
    simp only [copyFrom, hr]
    rw [load_eq hload, ok_bind, store_eq h1, ok_bind, hlonger]

/-- The content after bytes are laid over it. -/
theorem content_overlay {mem : Mem} {dst : Cstr} {cap size : Nat} {data bs : List Byte} (hv : dst.Valid)
    (hd : Fitted mem dst ⟨cap, dst.used, data⟩ size) (hused : dst.used ≤ cap + 1) :
    (put data 0 bs).take (max bs.length dst.used) = bs ++ dst.content.drop bs.length := by
  have hold : data.take dst.used = dst.content := hd.take hused (Nat.le_of_lt hv.used_lt)
  have hput : put data 0 bs = bs ++ data.drop bs.length := by simp [put]
  rw [hput, List.take_append, List.take_of_length_le (Nat.le_max_left _ _), ← hold, List.drop_take]
  congr 2
  omega

theorem copyLen_le (n len : Nat) : copyLen n len ≤ n := by
  unfold copyLen
  split <;> omega

/-- The object that `copyFrom` leaves, if the block holds the old content too. -/
theorem Fitted.overlay {mem : Mem} {dst : Cstr} {cap k size : Nat} {data bs : List Byte} (hv : dst.Valid)
    (hd : Fitted mem dst ⟨cap, dst.used, data⟩ size) (hbs : bs.length = k) (hk : k ≤ cap) (hused : dst.used ≤ cap)
    (hmin : minSize ≤ cap + hdrSize + 1) (hmax : cap + hdrSize + 1 ≤ maxSize) :
    Valid ⟨cap, max k dst.used, put data 0 bs⟩ ∧
      content ⟨cap, max k dst.used, put data 0 bs⟩ = bs ++ dst.content.drop k := by
  subst hbs
  have hcap : cap < data.length := hd.cap_lt
  have hlen : (put data 0 bs).length = data.length := length_put (by omega)
  exact ⟨valid_of_length (by omega) hcap hlen hmin hmax, content_overlay hv hd (Nat.le_succ_of_le hused)⟩

/-- The block sized for `k` copied bytes has `size` bytes, unless the call refuses. -/
def CopyKeeps (mem : Mem) (dst : Cstr) (k size : Nat) : Prop :=
  mem = none ∨ maxSize < k + hdrSize + 1 ∨ dst.totalSize ≤ tinyMaxSize ∨ Covers (k + hdrSize + 1) size

theorem copyKeeps_iff {mem : Mem} {dst : Cstr} {k size : Nat} (hv : dst.Valid) (hr : ¬ Refused mem dst k)
    (hsize : size ≤ dst.totalSize) : CopyKeeps mem dst k size ↔ size ≤ calFitCap dst.totalSize (k + hdrSize + 1) := by
  have hbig : ¬ maxSize < k + hdrSize + 1 := fun hbig => hr (Or.inl hbig)
  rw [le_calFitCap_iff hv.le_max (Nat.le_of_not_lt hbig) hsize]
  constructor
  · rintro (hm | h | h)
    · -- the block is as it was, or the call has refused
      have hsame : calFitCap dst.totalSize (k + hdrSize + 1) = dst.totalSize :=
        Decidable.byContradiction fun hne => hr (Or.inr ⟨hm, hne⟩)
      exact (le_calFitCap_iff hv.le_max (Nat.le_of_not_lt hbig) hsize).1 (by omega)
    · exact absurd h hbig
    · exact h
  · exact fun h => Or.inr (Or.inr h)

theorem CopyFits.used_le {mem : Mem} {dst : Cstr} {cap k : Nat} {data : List Byte} (h : CopyFits mem dst k)
    (hv : dst.Valid) (hr : ¬ Refused mem dst k)
    (hd : Fitted mem dst ⟨cap, dst.used, data⟩ (calFitCap dst.totalSize (k + hdrSize + 1))) : dst.used ≤ cap := by
  have htotal := hd.total
  have hle := (copyKeeps_iff hv hr hv.used_le_totalSize).1 h
  simp only [totalSize] at htotal hle
  omega

theorem copy_spec {mem : Mem} {dst src : Cstr} {begin len : Nat} (hv : dst.Valid) (hsrc : src.Valid)
    (hsel : begin + copyLen src.used len ≤ src.used) (hfit : CopyFits mem dst (copyLen src.used len)) :
    Yields (copy mem dst src begin len) fun s => s.Valid ∧ s.Terminated ∧
      s.used = max (copyLen src.used len) dst.used ∧
      s.content = slice src.data begin (copyLen src.used len) ++ dst.content.drop (copyLen src.used len) := by
  have hle := copyLen_le src.used len
  have hsmall := hsrc.used_add_le
  have hlt := hsrc.used_lt
  generalize hk : copyLen src.used len = k at *
  have hload : begin + k ≤ src.data.length := by omega
  have hbs := length_slice hload
  rcases copyFrom_cases mem hv hload (by omega) with ⟨hn, _⟩ | ⟨hr, cap, data, hs, hkc, hd, hmin, hmax'⟩
  · left
    rw [copy, hk, hn, ok_bind]
  · right
    have huc := hfit.used_le hv hr hd
    obtain ⟨hv', hc'⟩ := hd.overlay hv hbs hkc huc hmin hmax'
    have hend := hv'.used_lt
    simp only at hend
    have heq : copy mem dst src begin len =
        .ok (some ⟨cap, max k dst.used, put (put data 0 (slice src.data begin k)) (max k dst.used) [0]⟩) := by
      simp only [copy, hk, hs, ok_bind]
      rw [setEnd_eq hend, ok_bind]
    have hlen := length_put_one (x := (0 : Byte)) hend
    refine ⟨_, heq, ⟨hv'.used_le, ?_, hv'.min_le, hv'.le_max⟩, terminated_put hend, rfl, ?_⟩
    · simp only [hlen]
      exact hv'.cap_lt
    · rw [← hc']
      simp only [content]
      rw [take_put_of_le (Nat.le_refl _) (by omega)]

/-- A copy that does not fit leaves more content than the block holds. -/
theorem copyFrom_overflows {mem : Mem} {dst : Cstr} {src : List Byte} {begin k : Nat} (hv : dst.Valid)
    (hload : begin + k ≤ src.length) (h32 : k + hdrSize + 1 < 2 ^ 32) (hfit : ¬ CopyFits mem dst k) :
    ∃ cap data, copyFrom mem dst src begin k = .ok (some ⟨cap, max k dst.used, data⟩) ∧ cap < max k dst.used ∧
      data.length ≤ max k dst.used := by
  have hused := hv.used_le_totalSize
  have hok : ¬ Refused mem dst k := by
    rintro (hbig | ⟨hnone, _⟩)
    · exact hfit (Or.inr (Or.inl hbig))
    · exact hfit (Or.inl hnone)
  have hsmall : ¬ dst.used + hdrSize + 1 ≤ calFitCap dst.totalSize (k + hdrSize + 1) :=
    fun hle => hfit ((copyKeeps_iff hv hok hused).2 hle)
  rcases copyFrom_cases mem hv hload h32 with ⟨_, hr⟩ | ⟨_, cap, data, hs, hkc, hd, _⟩
  · exact absurd hr hok
  · have htotal : cap + hdrSize + 1 = calFitCap dst.totalSize (k + hdrSize + 1) := hd.total
    have hlen : data.length = cap + 1 := hd.exact (by omega)
    have hbs := length_slice hload
    refine ⟨cap, _, hs, by omega, ?_⟩
    rw [length_put (by omega)]
    omega

/-- `copy` then writes its terminator behind the block. -/
theorem copy_overflows {mem : Mem} {dst src : Cstr} {begin len : Nat} (hv : dst.Valid) (hsrc : src.Valid)
    (hsel : begin + copyLen src.used len ≤ src.used) (hfit : ¬ CopyFits mem dst (copyLen src.used len)) :
    copy mem dst src begin len = .error .write := by
  have hle := copyLen_le src.used len
  have hsmall := hsrc.used_add_le
  have hlt := hsrc.used_lt
  obtain ⟨cap, data, hs, _, hlen⟩ := copyFrom_overflows hv (show begin + copyLen src.used len ≤ src.data.length by omega)
    (by omega) hfit
  simp only [copy, hs, ok_bind, setEnd_fault hlen, error_bind]

/-- The result of `copyStr` is terminated: it is no longer than before, or a NUL is there already. -/
def CopyEnds (mem : Mem) (dst : Cstr) (k : Nat) : Prop := Refused mem dst k ∨ k ≤ dst.used ∨ left mem dst k = some 0

theorem copyFrom_spec {mem : Mem} {dst : Cstr} {src : List Byte} {begin k : Nat} (hv : dst.Valid)
    (hload : begin + k ≤ src.length) (h32 : k + hdrSize + 1 < 2 ^ 32) (hfit : CopyFits mem dst k) :
    Yields (copyFrom mem dst src begin k) fun s => s.Valid ∧ (dst.Terminated → CopyEnds mem dst k → s.Terminated) ∧
      s.used = max k dst.used ∧ s.content = slice src begin k ++ dst.content.drop k := by
  have hbs := length_slice hload
  rcases copyFrom_cases mem hv hload h32 with ⟨hn, _⟩ | ⟨hr, cap, data, hs, hkc, hd, hmin, hmax⟩
  · exact Or.inl hn
  · right
    have huc := hfit.used_le hv hr hd
    obtain ⟨hv', hc'⟩ := hd.overlay hv hbs hkc huc hmin hmax
    have hcap : cap < data.length := hd.cap_lt
    refine ⟨_, hs, hv', fun hterm hends => ?_, rfl, hc'⟩
    simp only [Terminated]
    rw [getElem?_put_of_ge (Nat.zero_le _) (by omega), hd.byte _ (by simp only; omega)]
    rcases hends with h | h | h
    · exact absurd h hr
    · rw [Nat.max_eq_right h, left, hterm]
      rfl
    · by_cases hku : k ≤ dst.used
      · rw [Nat.max_eq_right hku, left, hterm]
        rfl
      · rw [Nat.max_eq_left (by omega), h]

end TinyUtils.Cstr
