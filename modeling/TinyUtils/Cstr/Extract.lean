import TinyUtils.Cstr.Concat
/-!
# Substring and copy, for any source

`subCstr` and `subStr` leave the slice asked for, or return `NULL` for arguments out of range and for
what is too long for an object (`sub_extracts`). `copy` and `copyStr` lay a slice over the content: they
clamp the length by that of the source and not by what is left of it from `begin` on, and size the block
for the slice alone, so `copy_overlays_iff` says when the result is the overlay.
-/

namespace TinyUtils.Cstr

open Block Checked

/-! ## Substring -/

theorem subLen_eq {n begin len : Nat} (hn : n < 2 ^ 32) (hb : begin < 2 ^ 32) :
    subLen n begin len = if n ≤ begin ∨ len = 0 ∨ n < len then none
      else some (if begin + len < 2 ^ 32 then min len (n - begin) else len) := by
  unfold subLen
  by_cases h0 : n = 0
  · -- `n - 1` wraps around, and one of the other two tests refuses
    have hnone : len = 0 ∨ len > n := by omega
    rw [if_pos (Or.inr hnone), if_pos (Or.inl (by omega))]
  · rw [sub32_eq (Nat.pos_of_ne_zero h0)]
    by_cases hout : n ≤ begin ∨ len = 0 ∨ n < len
    · rw [if_pos hout, if_pos (by omega)]
    · rw [if_neg hout, if_neg (by omega), sub32_eq (by omega)]
      congr 1
      by_cases hwrap : begin + len < 2 ^ 32
      · rw [if_pos hwrap, u32_eq (by omega)]
        split <;> omega
      · rw [if_neg hwrap, u32_eq_sub (by omega) (by omega), if_neg (by omega)]

/-- The statements of a substring behind the choice of the block do not return `NULL`. -/
theorem extract_ne_null (d : Cstr) (src : List Byte) (begin k : Nat) :
    (do
      let bytes ← load src begin k
      let d ← d.store 0 bytes
      let d ← d.setEnd
      .ok (some d) : M (Option Cstr)) ≠ .ok none := by
  apply bind_ne_ok
  intro bytes
  apply bind_ne_ok
  intro d
  apply bind_ne_ok
  intro d h
  cases h

/-- A substring is refused when there is no block for it, and only then. -/
theorem subFrom_null_iff {mem : Mem} {dst : Cstr} {src : List Byte} {n begin len k : Nat}
    (hk : subLen n begin len = some k) :
    subFrom mem dst src n begin len = .ok none ↔ refit mem dst (k + hdrSize + 1) = none := by
  simp only [subFrom, hk]
  cases refit mem dst (k + hdrSize + 1) with
  | none => exact iff_of_true rfl rfl
  | some d => exact iff_of_false (extract_ne_null ⟨d.cap, k, d.data⟩ src begin k) (Option.some_ne_none d)

theorem refit_eq_none_iff {mem : Mem} {dst : Cstr} {k : Nat} (hv : dst.Valid) (h32 : k + hdrSize + 1 < 2 ^ 32) :
    refit mem dst (k + hdrSize + 1) = none ↔ Refused mem dst k := by
  rcases refit_cases mem hv h32 with ⟨hr, hrefused⟩ | ⟨hok, cap, data, hr, _⟩
  · exact iff_of_true hr hrefused
  · rw [hr]
    exact iff_of_false (Option.some_ne_none _) hok

/-- What a call returns that takes `len` bytes of `bs` from `begin` on. -/
structure Extracts (bs : List Byte) (begin len : Nat) (r : M (Option Cstr)) : Prop where
  null : r = .ok none ↔ bs.length ≤ begin ∨ len = 0 ∨ bs.length < len ∨
    maxSize < min len (bs.length - begin) + hdrSize + 1
  yields : Yields r fun s => s.Valid ∧ s.Terminated ∧ s.content = slice bs begin (min len (bs.length - begin))

section
variable (m : Nat → Byte) {dst : Cstr} {begin len : Nat}

theorem subFrom_extracts {src bs : List Byte} {n : Nat} (hv : dst.Valid) (hsrc : Gives src n bs) (hn : n < maxSize)
    (hb : begin < 2 ^ 32) : Extracts bs begin len (subFrom (some m) dst src n begin len) := by
  have hlen := hsrc.length
  have heq : subLen n begin len = _ := subLen_eq (Nat.lt_trans hn maxSize_lt) hb
  simp only [maxSize] at hn
  by_cases hout : n ≤ begin ∨ len = 0 ∨ n < len
  · rw [if_pos hout] at heq
    have hnull : subFrom (some m) dst src n begin len = .ok none := by rw [subFrom, heq]
    exact ⟨iff_of_true hnull (by omega), Or.inl hnull⟩
  · rw [if_neg hout, if_pos (by omega)] at heq
    have h32 : min len (n - begin) + hdrSize + 1 < 2 ^ 32 := by simp only [hdrSize]; omega
    constructor
    · have hrefused : Refused (some m) dst (min len (n - begin)) ↔ maxSize < min len (n - begin) + hdrSize + 1 := by
        refine or_iff_left ?_
        exact fun h => Option.some_ne_none m h.1
      rw [subFrom_null_iff heq, refit_eq_none_iff hv h32, hrefused, hlen]
      omega
    · have hsel : ∀ k, subLen n begin len = some k → begin + k ≤ src.length ∧ k + hdrSize + 1 < 2 ^ 32 := by
        intro k hk
        cases heq.symm.trans hk
        exact ⟨Nat.le_trans (by omega) hsrc.le, h32⟩
      refine (subFrom_spec hv hsel).mono fun s hs => ?_
      obtain ⟨hvalid, hterm, k, hk, hcontent⟩ := hs
      cases heq.symm.trans hk
      rw [hsrc.slice (by omega)] at hcontent
      exact ⟨hvalid, hterm, hlen ▸ hcontent⟩

/-- **A substring is the slice asked for**, or it is refused for arguments out of range or for its length. -/
theorem sub_extracts (hv : dst.Valid) (hb : begin < 2 ^ 32) :
    (∀ src : Cstr, src.Valid → Extracts src.content begin len (subCstr (some m) dst src begin len)) ∧
      ∀ src : CString, src.bytes.length < maxSize →
        Extracts src.bytes begin len (subStr (some m) dst src begin len) := by
  constructor
  · intro src hsrc
    have hsmall := hsrc.used_add_le
    exact subFrom_extracts m hv hsrc.gives (by simp only [maxSize]; omega) hb
  · intro src hlen
    have hlt := Nat.lt_trans hlen maxSize_lt
    exact subFrom_extracts m hv (gives_memory hlt) (by rw [CString.strlen_eq hlt]; exact hlen) hb

end

/-- Up to 3 bytes of `"abcd"` from index 2 on. -/
theorem sub_extracts_abcd :
    Extracts (small [97, 98, 99, 100]).content 2 3
        (subCstr (some fun _ => 0) (small []) (small [97, 98, 99, 100]) 2 3) ∧
      Extracts [97, 98, 99, 100] 2 3 (subStr (some fun _ => 0) (small []) ⟨[97, 98, 99, 100], by decide⟩ 2 3) := by
  have hv : (small []).Valid := small_valid (by decide)
  obtain ⟨hcstr, hstr⟩ := sub_extracts (fun _ => 0) hv (show 2 < 2 ^ 32 by decide)
  exact ⟨hcstr _ (small_valid (by decide)), hstr ⟨[97, 98, 99, 100], by decide⟩ (by decide)⟩

/-- A C string of one byte less than 512 MiB. -/
def longString : CString := ⟨List.replicate (maxSize - 1) 97, fun h => absurd (List.eq_of_mem_replicate h) (by decide)⟩

theorem length_longString : longString.bytes.length = maxSize - 1 := List.length_replicate

/-- All of it is in range, and does not fit an object. -/
theorem not_sub_null_iff_long :
    ¬ (subStr (some fun _ => 0) (small []) longString 0 (maxSize - 1) = .ok none ↔
      longString.bytes.length ≤ 0 ∨ maxSize - 1 = 0 ∨ longString.bytes.length < maxSize - 1) := by
  have hv : (small []).Valid := small_valid (by decide)
  have hlt : longString.bytes.length < 2 ^ 32 := by rw [length_longString]; decide
  have hshort : longString.strlen < maxSize := by rw [CString.strlen_eq hlt, length_longString]; decide
  have hs : Extracts longString.bytes 0 (maxSize - 1)
      (subStr (some fun _ => 0) (small []) longString 0 (maxSize - 1)) :=
    subFrom_extracts (fun _ => 0) hv (gives_memory hlt) hshort (by decide)
  rw [hs.null, length_longString]
  decide

/-! ## Copy -/

/-- How many bytes from index `begin` an overlay of `len` takes, or of all there are if `len` is 0. -/
def overlayLen (n begin len : Nat) : Nat := min (n - begin) (if len = 0 then n else len)

/-- What a call `r` returns that lays a slice of `bs` over the content; `cut` is the call with a source that ends
behind `bs`, which makes no difference. -/
structure Overlays (dst : Cstr) (bs : List Byte) (begin len : Nat) (r cut : M (Option Cstr)) : Prop where
  reads : cut = r
  yields : Yields r fun s => s.used = max (overlayLen bs.length begin len) dst.used ∧
    s.content = slice bs begin (overlayLen bs.length begin len) ++ dst.content.drop (overlayLen bs.length begin len)

/-- `copyStr` of the `n` bytes at `src`. -/
def copyBytes (mem : Mem) (dst : Cstr) (src : List Byte) (n begin len : Nat) : M (Option Cstr) :=
  if n = 0 then .ok (some dst) else copyFrom mem dst src begin (copyLen n len)

theorem copyStr_eq_copyBytes {mem : Mem} {dst : Cstr} {str : CString} {begin len : Nat} :
    copyStr mem dst (some str) begin len = copyBytes mem dst str.memory str.strlen begin len := rfl

/-- The source has the bytes that are copied. -/
theorem overlayLen_eq {n begin len : Nat} (h : begin + copyLen n len ≤ n) : overlayLen n begin len = copyLen n len := by
  unfold overlayLen copyLen at *
  split at h <;> split <;> omega

section
variable {mem : Mem} {dst : Cstr} {begin k n : Nat} {src bs : List Byte}

theorem copyFrom_cut (hsrc : Gives src n bs) (hk : begin + k ≤ n) :
    copyFrom mem dst bs begin k = copyFrom mem dst src begin k := by
  have hlen := hsrc.length
  unfold copyFrom
  rw [load_eq (Nat.le_trans hk hsrc.le), hsrc.slice hk, load_eq (by omega)]

/-- A copy of more than there is reads behind it, unless the call refuses. -/
theorem copyFrom_reads (hv : dst.Valid) (hsrc : Gives src n bs) (h32 : k + hdrSize + 1 < 2 ^ 32)
    (hr : ¬ Refused mem dst k) (hk : n < begin + k) : copyFrom mem dst bs begin k = .error .read := by
  have hlen := hsrc.length
  rcases refit_cases mem hv h32 with ⟨_, hrefused⟩ | ⟨_, cap, data, heq, _⟩
  · exact absurd hrefused hr
  · simp only [copyFrom, heq]
    rw [load_fault (by omega), error_bind]

theorem copyFrom_refused (hv : dst.Valid) (h32 : k + hdrSize + 1 < 2 ^ 32) (hr : Refused mem dst k) :
    copyFrom mem dst src begin k = .ok none := by
  rw [copyFrom, (refit_eq_none_iff hv h32).2 hr]

/-- The object that a copy leaves without a terminator holds the overlay if its block still has the old content. -/
theorem overlay_content_iff {cap : Nat} {data : List Byte} (hv : dst.Valid) (hbs : bs.length = k) (hk : k ≤ cap)
    (hd : Fitted mem dst ⟨cap, dst.used, data⟩ (calFitCap dst.totalSize (k + hdrSize + 1))) :
    content ⟨cap, max k dst.used, put data 0 bs⟩ = bs ++ dst.content.drop k ↔
      dst.used + hdrSize ≤ calFitCap dst.totalSize (k + hdrSize + 1) := by
  subst hbs
  have hcap : cap < data.length := hd.cap_lt
  have htotal : cap + hdrSize + 1 = calFitCap dst.totalSize (bs.length + hdrSize + 1) := hd.total
  have hused := hv.used_le_totalSize
  constructor
  · intro h
    apply Decidable.byContradiction
    intro hlt
    have hexact : data.length = cap + 1 := hd.exact (by omega)
    have hlen := congrArg List.length h
    rw [content, List.length_take, length_put (by omega), List.length_append, List.length_drop,
      hv.length_content] at hlen
    omega
  · intro hle
    exact content_overlay hv hd (by omega)

theorem copyFrom_overlays_iff (hv : dst.Valid) (hsrc : Gives src n bs) (hk : begin + k ≤ n)
    (h32 : k + hdrSize + 1 < 2 ^ 32) (hr : ¬ Refused mem dst k) :
    (Yields (copyFrom mem dst src begin k) fun s => s.used = max k dst.used ∧
      s.content = slice bs begin k ++ dst.content.drop k) ↔ CopyKeeps mem dst k (dst.used + hdrSize) := by
  have hload := Nat.le_trans hk hsrc.le
  have hused := hv.used_le_totalSize
  rw [copyKeeps_iff hv hr (by omega)]
  rcases copyFrom_cases mem hv hload h32 with ⟨_, hrefused⟩ | ⟨_, cap, data, hs, hkc, hd, _⟩
  · exact absurd hrefused hr
  · rw [← overlay_content_iff hv (length_slice hload) hkc hd, hsrc.slice hk] at *
    constructor
    · intro h
      exact (h.of_eq hs).2
    · intro h
      exact Or.inr ⟨_, hs, rfl, h⟩

theorem not_yields_error {e : Fault} {P : Cstr → Prop} : ¬ Yields (.error e) P := by
  rintro (h | ⟨s, h, _⟩) <;> cases h

end

section
variable (mem : Mem) {dst : Cstr} {begin len : Nat}

theorem copy_overlays_iff {src : Cstr} (hv : dst.Valid) (hsrc : src.Valid) :
    Overlays dst src.content begin len (copy mem dst src begin len)
        (copy mem dst { src with data := src.content } begin len) ↔
      Refused mem dst (copyLen src.used len) ∨
        begin + copyLen src.used len ≤ src.used ∧ CopyFits mem dst (copyLen src.used len) := by
  have hgives := hsrc.gives
  have hle := copyLen_le src.used len
  have hsmall := hsrc.used_add_le
  have h32 : copyLen src.used len + hdrSize + 1 < 2 ^ 32 := by omega
  by_cases hr : Refused mem dst (copyLen src.used len)
  · have hnull : ∀ p : List Byte, copy mem dst { src with data := p } begin len = .ok none := by
      intro p
      simp only [copy, copyFrom_refused hv h32 hr, ok_bind]
    exact iff_of_true ⟨(hnull _).trans (hnull src.data).symm, Or.inl (hnull src.data)⟩ (Or.inl hr)
  · simp only [hr, false_or]
    by_cases hsel : begin + copyLen src.used len ≤ src.used
    · have hover := overlayLen_eq hsel
      rw [← hsrc.length_content] at hover
      by_cases hfit : CopyFits mem dst (copyLen src.used len)
      · refine iff_of_true ⟨?_, ?_⟩ ⟨hsel, hfit⟩
        · simp only [copy, copyFrom_cut hgives hsel]
        · refine (copy_spec hv hsrc hsel hfit).mono fun s hs => ?_
          rw [hsrc.length_content] at hover ⊢
          rw [hover, ← hgives.slice hsel]
          exact ⟨hs.2.2.1, hs.2.2.2⟩
      · refine iff_of_false (fun h => ?_) fun h => hfit h.2
        have hyields := h.yields
        rw [copy_overflows hv hsrc hsel hfit] at hyields
        exact not_yields_error hyields
    · refine iff_of_false (fun h => ?_) fun h => hsel h.1
      have hyields := h.yields
      rw [← h.reads] at hyields
      simp only [copy, copyFrom_reads hv hgives h32 hr (Nat.lt_of_not_le hsel), error_bind] at hyields
      exact not_yields_error hyields

theorem copyStr_overlays_iff {src : CString} (hv : dst.Valid) (hlen : src.bytes.length < maxSize) :
    Overlays dst src.bytes begin len (copyStr mem dst (some src) begin len)
        (copyBytes mem dst src.bytes src.bytes.length begin len) ↔
      src.bytes.length = 0 ∨ Refused mem dst (copyLen src.bytes.length len) ∨
        begin + copyLen src.bytes.length len ≤ src.bytes.length ∧
          CopyKeeps mem dst (copyLen src.bytes.length len) (dst.used + hdrSize) := by
  have hlt := Nat.lt_trans hlen maxSize_lt
  have hgives := gives_memory hlt
  rw [copyStr_eq_copyBytes]
  rw [CString.strlen_eq hlt] at hgives ⊢
  simp only [copyBytes]
  simp only [maxSize] at hlen
  generalize hn : src.bytes.length = n at *
  have hle := copyLen_le n len
  have h32 : copyLen n len + hdrSize + 1 < 2 ^ 32 := by simp only [hdrSize]; omega
  by_cases h0 : n = 0
  · have hover : overlayLen src.bytes.length begin len = 0 := by rw [hn, overlayLen]; omega
    simp only [if_pos h0]
    refine iff_of_true ⟨rfl, Or.inr ⟨dst, rfl, ?_⟩⟩ (Or.inl h0)
    simp only [hover, Nat.zero_max, List.drop_zero, slice, List.take_zero, List.nil_append, and_self]
  · simp only [h0, if_false, false_or]
    by_cases hr : Refused mem dst (copyLen n len)
    · rw [copyFrom_refused hv h32 hr, copyFrom_refused hv h32 hr]
      exact iff_of_true ⟨rfl, Or.inl rfl⟩ (Or.inl hr)
    · simp only [hr, false_or]
      by_cases hsel : begin + copyLen n len ≤ n
      · have hover : overlayLen src.bytes.length begin len = copyLen n len := by rw [hn]; exact overlayLen_eq hsel
        rw [← copyFrom_overlays_iff hv hgives hsel h32 hr, copyFrom_cut hgives hsel]
        constructor
        · intro h
          have hyields := h.yields
          rw [hover] at hyields
          exact ⟨hsel, hyields⟩
        · intro h
          refine ⟨rfl, ?_⟩
          rw [hover]
          exact h.2
      · refine iff_of_false (fun h => ?_) fun h => hsel h.1
        have hyields := h.yields
        rw [← h.reads, copyFrom_reads hv hgives h32 hr (Nat.lt_of_not_le hsel)] at hyields
        exact not_yields_error hyields

/-- **A copy is an overlay, unless `begin` and the length clamped by that of the source go past its end, or the block
sized for the copied bytes has no room for the old content** (and for `copy` for a terminator behind it). -/
theorem overlay_iff (hv : dst.Valid) :
    (∀ src : Cstr, src.Valid → begin ≤ src.used →
      (Overlays dst src.content begin len (copy mem dst src begin len)
          (copy mem dst { src with data := src.content } begin len) ↔
        Refused mem dst (copyLen src.used len) ∨
          begin + copyLen src.used len ≤ src.used ∧ CopyFits mem dst (copyLen src.used len))) ∧
    ∀ src : CString, src.bytes.length < maxSize → begin ≤ src.bytes.length →
      (Overlays dst src.bytes begin len (copyStr mem dst (some src) begin len)
          (copyBytes mem dst src.bytes src.bytes.length begin len) ↔
        src.bytes.length = 0 ∨ Refused mem dst (copyLen src.bytes.length len) ∨
          begin + copyLen src.bytes.length len ≤ src.bytes.length ∧
            CopyKeeps mem dst (copyLen src.bytes.length len) (dst.used + hdrSize)) :=
  ⟨fun _ hsrc _ => copy_overlays_iff mem hv hsrc, fun _ hlen _ => copyStr_overlays_iff mem hv hlen⟩

end

/-- `"b"` of `"ab"` over `"xyz"`. -/
theorem overlay_ab :
    Overlays (small [120, 121, 122]) (small [97, 98]).content 1 1
        (copy none (small [120, 121, 122]) (small [97, 98]) 1 1)
        (copy none (small [120, 121, 122]) { small [97, 98] with data := (small [97, 98]).content } 1 1) ∧
      Overlays (small [120, 121, 122]) [97, 98] 1 1
        (copyStr none (small [120, 121, 122]) (some ⟨[97, 98], by decide⟩) 1 1)
        (copyBytes none (small [120, 121, 122]) [97, 98] 2 1 1) := by
  have hv : (small [120, 121, 122]).Valid := small_valid (by decide)
  obtain ⟨hcstr, hstr⟩ := overlay_iff none hv
  exact ⟨(hcstr _ (small_valid (by decide)) (by decide)).2 (Or.inr ⟨by decide, Or.inl rfl⟩),
    (hstr ⟨[97, 98], by decide⟩ (by decide) (by decide)).2 (Or.inr (Or.inr ⟨by decide, Or.inl rfl⟩))⟩

/-- All of `"ab"` from index 1 on is two bytes too. -/
theorem not_overlay_ab :
    ¬ Overlays (small []) (small [97, 98]).content 1 0 (copy (some fun _ => 0) (small []) (small [97, 98]) 1 0)
      (copy (some fun _ => 0) (small []) { small [97, 98] with data := (small [97, 98]).content } 1 0) := by
  have hv : (small []).Valid := small_valid (by decide)
  have hsrc : (small [97, 98]).Valid := small_valid (by decide)
  rw [copy_overlays_iff _ hv hsrc]
  rintro ((hbig | ⟨hnone, _⟩) | ⟨hsel, _⟩)
  · exact absurd hbig (by decide)
  · exact absurd hnone (Option.some_ne_none _)
  · exact absurd hsel (by decide)

end TinyUtils.Cstr
