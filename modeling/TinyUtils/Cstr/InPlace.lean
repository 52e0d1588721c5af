import Mathlib.Data.List.DropRight
import TinyUtils.Cstr.Assign
/-!
# Changes in place

These functions keep the block and the capacity. The three trims find the outer blanks by two loops
(`skipBlank_spec`, `skipBlankBack_spec`) and write zeros over what they cut off (`shrink`), except that
nothing is written when nothing is left: then the first byte is still the old one.
-/

namespace TinyUtils.Cstr

open Block Checked

/-! ## Case -/

/-- `mapLoop` changes each byte it passes on its own. -/
theorem mapLoop_spec (p : Byte → Bool) (f : Byte → Byte) (cap used : Nat) :
    ∀ (turns i : Nat) (data : List Byte), i + turns ≤ data.length →
      ∃ data', mapLoop p f turns i ⟨cap, used, data⟩ = .ok ⟨cap, used, data'⟩ ∧ data'.length = data.length ∧
        ∀ j, data'[j]? = if i ≤ j ∧ j < i + turns then (data[j]?).map fun c => if p c then f c else c else data[j]? := by
  intro turns
  induction turns with
  | zero =>
    intro i data _
    refine ⟨data, rfl, rfl, fun j => ?_⟩
    rw [if_neg (by omega)]
  | succ turns ih =>
    intro i data h
    have hi : i < data.length := by omega
    have hget : data[i]? = some data[i] := List.getElem?_eq_getElem hi
    have hbyte : byteAt ⟨cap, used, data⟩ i = .ok data[i] := byteAt_eq hget
    by_cases hp : p data[i] = true
    · obtain ⟨data', hs, hlen, hbytes⟩ := ih (i + 1) (put data i [f data[i]]) (by rw [length_put_one hi]; omega)
      refine ⟨data', ?_, by rw [hlen, length_put_one hi], fun j => ?_⟩
      · simp only [mapLoop, hbyte, ok_bind, if_pos hp]
        rw [store_eq (show i + [f data[i]].length ≤ data.length from hi), ok_bind, hs]
      · rw [hbytes]
        by_cases hj : j = i
        · subst hj
          rw [if_neg (by omega), if_pos (by omega), getElem?_put_one hi, hget, Option.map_some, if_pos hp]
        · rw [getElem?_put_one_ne hi hj]
          exact if_congr (by omega) rfl rfl
    · obtain ⟨data', hs, hlen, hbytes⟩ := ih (i + 1) data (by omega)
      refine ⟨data', ?_, hlen, fun j => ?_⟩
      · simp only [mapLoop, hbyte, ok_bind, if_neg hp]
        exact hs
      · rw [hbytes]
        by_cases hj : j = i
        · subst hj
          rw [if_neg (by omega), if_pos (by omega), hget, Option.map_some, if_neg hp]
        · exact if_congr (by omega) rfl rfl

/-- A byte for each byte of the content, and nothing else changes. -/
structure Pointwise (g : Nat → Option Byte) (s s' : Cstr) : Prop where
  cap : s'.cap = s.cap
  used : s'.used = s.used
  length : s'.data.length = s.data.length
  byte : ∀ j, s'.data[j]? = if j < s.used then g j else s.data[j]?

theorem Pointwise.valid {g : Nat → Option Byte} {s s' : Cstr} (h : Pointwise g s s') (hv : s.Valid) : s'.Valid := by
  obtain ⟨cap, used, data⟩ := s'
  obtain ⟨rfl, rfl, hlen, _⟩ := h
  exact valid_of_length hv.used_le hv.cap_lt hlen hv.min_le hv.le_max

theorem Pointwise.terminated {g : Nat → Option Byte} {s s' : Cstr} (h : Pointwise g s s') (ht : s.Terminated) :
    s'.Terminated := by
  rw [Terminated, h.used, h.byte, if_neg (Nat.lt_irrefl _)]
  exact ht

theorem mapLoop_pointwise {p : Byte → Bool} {f : Byte → Byte} {s : Cstr} (hv : s.Valid) :
    ∃ s', mapLoop p f s.used 0 s = .ok s' ∧
      Pointwise (fun j => (s.data[j]?).map fun c => if p c then f c else c) s s' := by
  obtain ⟨cap, used, data⟩ := s
  have hlt := hv.used_lt
  simp only at hlt
  obtain ⟨data', hs, hlen, hbytes⟩ := mapLoop_spec p f cap used used 0 data (by omega)
  refine ⟨_, hs, rfl, rfl, hlen, fun j => ?_⟩
  rw [hbytes]
  exact if_congr (by simp only; omega) rfl rfl

/-! ## Reverse -/

/-- `reverseLoop` reverses the bytes from `beg` to `e`. -/
theorem reverseLoop_spec (cap used : Nat) :
    ∀ (turns beg e : Nat) (data : List Byte), e ≤ data.length → e ≤ beg + 2 * turns + 1 →
      ∃ data', reverseLoop turns beg e ⟨cap, used, data⟩ = .ok ⟨cap, used, data'⟩ ∧ data'.length = data.length ∧
        ∀ j, data'[j]? = if beg ≤ j ∧ j < e then data[beg + e - 1 - j]? else data[j]? := by
  intro turns
  induction turns with
  | zero =>
    intro beg e data _ h
    refine ⟨data, rfl, rfl, fun j => ?_⟩
    split
    · congr 1; omega
    · rfl
  | succ turns ih =>
    intro beg e data he h
    by_cases hlt : beg + 1 < e
    · have hb : beg < data.length := by omega
      have hl : e - 1 < data.length := by omega
      have hb? : data[beg]? = some data[beg] := List.getElem?_eq_getElem hb
      have hl? : data[e - 1]? = some data[e - 1] := List.getElem?_eq_getElem hl
      have hl' : e - 1 < (put data beg [data[e - 1]]).length := by rw [length_put_one hb]; exact hl
      generalize hnew : put (put data beg [data[e - 1]]) (e - 1) [data[beg]] = new
      have hlen : new.length = data.length := by rw [← hnew, length_put_one hl', length_put_one hb]
      have hswap : ∀ m, new[m]? = if m = e - 1 then data[beg]? else if m = beg then data[e - 1]? else data[m]? := by
        intro m
        rw [← hnew]
        by_cases hm : m = e - 1
        · rw [if_pos hm, hm, getElem?_put_one hl', hb?]
        · rw [if_neg hm, getElem?_put_one_ne hl' hm]
          by_cases hm' : m = beg
          · rw [if_pos hm', hm', getElem?_put_one hb, hl?]
          · rw [if_neg hm', getElem?_put_one_ne hb hm']
      obtain ⟨data', hs, hlen', hbytes⟩ := ih (beg + 1) (e - 1) new (by omega) (by omega)
      refine ⟨data', ?_, by omega, fun j => ?_⟩
      · rw [reverseLoop, if_pos hlt, byteAt_eq hb?, ok_bind, byteAt_eq hl?, ok_bind,
          store_eq (show beg + [data[e - 1]].length ≤ data.length from hb), ok_bind,
          store_eq (show e - 1 + [data[beg]].length ≤ _ by simp only [List.length_singleton]; omega), ok_bind, hnew, hs]
      · rw [hbytes]
        by_cases hin : beg + 1 ≤ j ∧ j < e - 1
        · -- both `j` and its mirror image are inside
          rw [if_pos hin, if_pos (by omega), hswap, if_neg (by omega), if_neg (by omega)]
          congr 1
          omega
        · rw [if_neg hin, hswap]
          by_cases hj : j = e - 1
          · rw [if_pos hj, if_pos (by omega)]
            congr 1
            omega
          · rw [if_neg hj]
            by_cases hj' : j = beg
            · rw [if_pos hj', if_pos (by omega)]
              congr 1
              omega
            · rw [if_neg hj', if_neg (by omega)]
    · refine ⟨data, by rw [reverseLoop, if_neg hlt], rfl, fun j => ?_⟩
      split
      · congr 1; omega
      · rfl

theorem reverse_pointwise {s : Cstr} (hv : s.Valid) :
    ∃ s', s.reverse = .ok s' ∧ Pointwise (fun j => s.data[s.used - 1 - j]?) s s' := by
  obtain ⟨cap, used, data⟩ := s
  have hlt := hv.used_lt
  simp only at hlt
  rw [reverse]
  by_cases hone : used = 1
  · rw [if_pos hone]
    refine ⟨_, rfl, rfl, rfl, rfl, fun j => ?_⟩
    simp only
    split
    · congr 1; omega
    · rfl
  · rw [if_neg hone]
    obtain ⟨data', hs, hlen, hbytes⟩ := reverseLoop_spec cap used used 0 used data (by omega) (by omega)
    refine ⟨_, hs, rfl, rfl, hlen, fun j => ?_⟩
    rw [hbytes]
    simp only [Nat.zero_add]
    exact if_congr (by omega) rfl rfl

/-- `cstr_reverse` reverses the content. -/
theorem reverse_spec {s : Cstr} (hv : s.Valid) :
    ∃ s', s.reverse = .ok s' ∧ s'.Valid ∧ s'.content = s.content.reverse := by
  obtain ⟨s', hs, hpoint⟩ := reverse_pointwise hv
  have hv' := hpoint.valid hv
  have hlt := hv.used_lt
  refine ⟨s', hs, hv', ?_⟩
  ext i : 1
  by_cases hi : i < s.used
  · have hlen : i < s.content.length := by
      rw [hv.length_content]
      exact hi
    rw [List.getElem?_reverse hlen, hv.length_content, content, content, hpoint.used, List.getElem?_take_of_lt hi,
      hpoint.byte, if_pos hi, List.getElem?_take_of_lt (by omega)]
  · rw [List.getElem?_eq_none (by rw [hv'.length_content, hpoint.used]; omega),
      List.getElem?_eq_none (by rw [List.length_reverse, hv.length_content]; omega)]

/-! ## Clear -/

theorem clear_spec {s : Cstr} (hv : s.Valid) : ∃ s', s.clear = .ok s' ∧ s'.Valid ∧ s'.Terminated ∧ s'.used = 0 := by
  obtain ⟨cap, used, data⟩ := s
  have hcap := hv.cap_lt
  have hmin := hv.min_le
  have hhdr : hdrSize = 8 := rfl
  simp only [totalSize, minSize] at hcap hmin
  generalize hz : List.replicate cap (0 : Byte) = zs
  have hzs : zs.length = cap := by rw [← hz, List.length_replicate]
  have hle : 0 + zs.length ≤ data.length := by omega
  have heq : clear ⟨cap, used, data⟩ = .ok ⟨cap, 0, put data 0 zs⟩ := by
    simp only [clear, hz]
    rw [store_eq hle, ok_bind]
  refine ⟨_, heq, ⟨Nat.zero_le _, ?_, hv.min_le, hv.le_max⟩, ?_, rfl⟩
  · simp only [length_put hle]
    exact hcap
  · have hget : (put data 0 zs)[0 + 0]? = zs[0]? := getElem?_put_add (Nat.zero_le _) (by omega)
    rw [← hz, List.getElem?_replicate, if_pos (by omega)] at hget
    rw [← hz]
    exact hget

/-! ## Trim -/

theorem slice_succ {p : List Byte} {i n : Nat} (h : i < p.length) : slice p i (n + 1) = p[i] :: slice p (i + 1) n := by
  rw [slice, List.drop_eq_getElem_cons h, List.take_succ_cons]
  rfl

theorem slice_succ_right {p : List Byte} {i n : Nat} (h : i + n < p.length) :
    slice p i (n + 1) = slice p i n ++ [p[i + n]] := by
  rw [slice, List.take_add_one, List.getElem?_drop, List.getElem?_eq_getElem h]
  rfl

/-- A slice up to the end of the content. -/
theorem slice_content {s : Cstr} {beg : Nat} : slice s.data beg (s.used - beg) = s.content.drop beg := by
  rw [content, List.drop_take]
  rfl

/-- The first loop stops behind the blanks. -/
theorem skipBlank_spec {s : Cstr} : ∀ {turns beg : Nat}, beg + turns ≤ s.data.length →
    skipBlank s turns beg = .ok (beg + ((slice s.data beg turns).takeWhile isBlank).length) := by
  intro turns
  induction turns with
  | zero =>
    intro beg _
    rfl
  | succ turns ih =>
    intro beg h
    have hbeg : beg < s.data.length := by omega
    have hbyte : s.byteAt beg = .ok s.data[beg] := byteAt_eq (List.getElem?_eq_getElem hbeg)
    rw [skipBlank, hbyte, ok_bind, slice_succ hbeg, List.takeWhile_cons]
    by_cases hb : isBlank s.data[beg] = true
    · rw [if_pos hb, if_pos hb, ih (by omega), List.length_cons]
      congr 1
      omega
    · rw [if_neg hb, if_neg hb]
      rfl

/-- The second loop stops before the blanks at the end of the `k` bytes. -/
theorem skipBlankBack_spec (s : Cstr) (beg : Nat) : ∀ k : Nat, beg + k ≤ s.data.length →
    skipBlankBack s beg (beg + k) = .ok (beg + ((slice s.data beg k).rdropWhile isBlank).length) := by
  intro k
  induction k with
  | zero =>
    intro _
    cases beg with
    | zero => rfl
    | succ beg => exact if_neg (Nat.lt_irrefl _)
  | succ k ih =>
    intro h
    have hk : beg + k < s.data.length := h
    have hbyte : s.byteAt (beg + k) = .ok s.data[beg + k] := byteAt_eq (List.getElem?_eq_getElem hk)
    rw [← Nat.add_assoc, skipBlankBack, if_pos (by omega), hbyte, ok_bind, slice_succ_right hk]
    by_cases hb : isBlank s.data[beg + k] = true
    · rw [if_pos hb, List.rdropWhile_concat_pos _ _ _ hb, ih (by omega)]
    · have hlen := length_slice (Nat.le_of_lt hk)
      rw [if_neg hb, List.rdropWhile_concat_neg _ _ _ hb, List.length_append, List.length_singleton, hlen, Nat.add_assoc]

/-- The object that keeps `k` bytes of its content, those from index `beg` on, and has zeros in place of the
rest. -/
def shrink (s : Cstr) (beg k : Nat) : Cstr :=
  ⟨s.cap, k, put s.data 0 (slice s.data beg k ++ List.replicate (s.used - k) 0)⟩

section
variable {s : Cstr} {beg k : Nat}

theorem length_shrink_bytes (hle : s.used ≤ s.data.length) (h : beg + k ≤ s.used) :
    (slice s.data beg k ++ List.replicate (s.used - k) (0 : Byte)).length = s.used := by
  rw [List.length_append, length_slice (by omega), List.length_replicate]
  omega

theorem keep_eq (hle : s.used ≤ s.data.length) (h : beg + k ≤ s.used) : keep s beg k = .ok (s.shrink beg k) := by
  have hload : beg + k ≤ s.data.length := by omega
  have hlen := length_slice hload
  obtain ⟨cap, used, data⟩ := s
  simp only [keep, shrink] at *
  rw [load_eq hload, ok_bind]
  generalize slice data beg k = bs at *
  subst hlen
  rw [store_eq (show 0 + bs.length ≤ data.length by omega), ok_bind,
    store_eq (by rw [length_put (by omega), List.length_replicate]; omega)]
  have hput : put (put data 0 bs) (0 + bs.length) (List.replicate (used - bs.length) 0) = _ := put_append (by omega)
  rw [Nat.zero_add] at hput
  rw [hput]

theorem cut_eq (hle : s.used ≤ s.data.length) (h : k ≤ s.used) :
    store { s with used := k } k (List.replicate (s.used - k) 0) = .ok (s.shrink 0 k) := by
  obtain ⟨cap, used, data⟩ := s
  simp only [shrink] at *
  rw [store_eq (by rw [List.length_replicate]; omega), slice_zero]
  congr 2
  simp only [put, List.length_append, List.length_take, List.take_zero, List.nil_append]
  congr 2
  omega

theorem shrink_all (hle : s.used ≤ s.data.length) : s.shrink 0 s.used = s := by
  rw [shrink, slice_zero, Nat.sub_self, List.replicate_zero, List.append_nil, put, List.take_zero, List.nil_append,
    List.length_take, Nat.min_eq_left (by omega), Nat.zero_add, List.take_append_drop]

theorem Valid.shrink (hv : s.Valid) (h : beg + k ≤ s.used) : (s.shrink beg k).Valid := by
  have hlt := hv.used_lt
  have hle := hv.used_le
  have hbs := length_shrink_bytes (Nat.le_of_lt hlt) h
  refine ⟨by simp only [Cstr.shrink]; omega, ?_, hv.min_le, hv.le_max⟩
  simp only [Cstr.shrink]
  rw [length_put (by omega)]
  exact hv.cap_lt

theorem content_shrink (hle : s.used ≤ s.data.length) (h : beg + k ≤ s.used) :
    (s.shrink beg k).content = slice s.content beg k := by
  have hlen : (slice s.data beg k).length = k := length_slice (by omega)
  have htake : (s.shrink beg k).content = slice s.data beg k := by
    simp only [content, shrink, put, List.take_zero, List.nil_append, List.append_assoc]
    rw [List.take_append_of_le_length (by omega), List.take_of_length_le (by omega)]
  rw [htake, content, slice, slice, List.drop_take, List.take_take, Nat.min_eq_left (by omega)]

/-- The byte behind the rest is a zero, or the one behind the content. -/
theorem Terminated.shrink (ht : s.Terminated) (hv : s.Valid) (h : beg + k ≤ s.used) : (s.shrink beg k).Terminated := by
  have hlt := hv.used_lt
  have hbs := length_shrink_bytes (Nat.le_of_lt hlt) h
  have hlen : (slice s.data beg k).length = k := length_slice (by omega)
  simp only [Terminated, Cstr.shrink]
  by_cases hk : k < s.used
  · have hget : (put s.data 0 (slice s.data beg k ++ List.replicate (s.used - k) 0))[0 + k]? = _ :=
      getElem?_put_add (Nat.zero_le _) (by omega)
    rw [Nat.zero_add] at hget
    rw [hget, List.getElem?_append_right (by omega), List.getElem?_replicate, if_pos (by omega)]
  · obtain rfl : k = s.used := by omega
    rw [getElem?_put_of_ge (Nat.zero_le _) (by omega)]
    exact ht

end

theorem length_takeWhile_add {c : List Byte} {p : Byte → Bool} :
    (c.takeWhile p).length + (c.dropWhile p).length = c.length := by
  rw [← List.length_append, List.takeWhile_append_dropWhile]

theorem drop_length_takeWhile {c : List Byte} {p : Byte → Bool} : c.drop (c.takeWhile p).length = c.dropWhile p := by
  have h : (c.takeWhile p ++ c.dropWhile p).drop (c.takeWhile p).length = c.dropWhile p := List.drop_left
  rwa [List.takeWhile_append_dropWhile] at h

/-- What is left without the blanks at both ends. -/
def trimmed (c : List Byte) : List Byte := (c.dropWhile isBlank).rdropWhile isBlank

theorem length_trimmed_le {c : List Byte} : (c.takeWhile isBlank).length + (trimmed c).length ≤ c.length := by
  have hadd := length_takeWhile_add (c := c) (p := isBlank)
  have hle : (trimmed c).length ≤ (c.dropWhile isBlank).length := (List.rdropWhile_prefix _ _).length_le
  omega

section
variable {s : Cstr}

/-- The first loop of a call. -/
theorem skipBlank_eq (hle : s.used ≤ s.data.length) :
    skipBlank s s.used 0 = .ok (s.content.takeWhile isBlank).length := by
  rw [skipBlank_spec (by omega), slice_zero, Nat.zero_add]
  rfl

theorem takeWhile_length_eq_used (hle : s.used ≤ s.data.length) :
    (s.content.takeWhile isBlank).length = s.used ↔ s.content.dropWhile isBlank = [] := by
  have hadd := length_takeWhile_add (c := s.content) (p := isBlank)
  rw [length_content hle] at hadd
  rw [← List.length_eq_zero_iff]
  omega

/-- What `trim` and `trimHdr` do, if `kept` is what they do with something that is not blank. -/
theorem skipHdr_eq (hused : s.used ≤ s.data.length) {kept : Nat → M Cstr} {t : Cstr}
    (hkept : s.content.dropWhile isBlank ≠ [] → kept (s.content.takeWhile isBlank).length = .ok t) :
    (if s.used = 0 then .ok s
      else do
        let beg ← skipBlank s s.used 0
        if beg = s.used then .ok { s with used := 0 } else kept beg : M Cstr) =
      .ok (if s.content.dropWhile isBlank = [] then { s with used := 0 } else t) := by
  by_cases h0 : s.used = 0
  · rw [if_pos h0, if_pos (by rw [content_of_used_eq_zero h0]; rfl)]
    rw [← h0]
  · rw [if_neg h0, skipBlank_eq hused, ok_bind]
    by_cases hall : s.content.dropWhile isBlank = []
    · rw [if_pos hall, if_pos ((takeWhile_length_eq_used hused).2 hall)]
    · rw [if_neg hall, if_neg (mt (takeWhile_length_eq_used hused).1 hall), hkept hall]

theorem trim_eq (hused : s.used ≤ s.data.length) :
    s.trim = .ok (if s.content.dropWhile isBlank = [] then { s with used := 0 }
    else s.shrink (s.content.takeWhile isBlank).length (trimmed s.content).length) := by
  rw [trim]
  apply skipHdr_eq hused
  intro _
  have hadd := length_takeWhile_add (c := s.content) (p := isBlank)
  have hle := length_trimmed_le (c := s.content)
  rw [length_content hused] at hadd hle
  have hback := skipBlankBack_spec s (s.content.takeWhile isBlank).length
    (s.used - (s.content.takeWhile isBlank).length) (by omega)
  rw [Nat.add_sub_cancel' (by omega), slice_content, drop_length_takeWhile] at hback
  change _ = Except.ok (_ + (trimmed s.content).length) at hback
  rw [hback, ok_bind]
  generalize (s.content.takeWhile isBlank).length = beg at *
  generalize (trimmed s.content).length = k at *
  by_cases hnone : beg = 0 ∧ beg + k = s.used
  · obtain ⟨rfl, hk⟩ := hnone
    obtain rfl : k = s.used := by omega
    rw [if_pos ⟨rfl, hk⟩, shrink_all hused]
  · rw [if_neg hnone]
    by_cases htail : beg = 0 ∧ beg + k < s.used
    · obtain ⟨rfl, hk⟩ := htail
      rw [if_pos ⟨rfl, hk⟩, Nat.zero_add, cut_eq hused (by omega)]
    · rw [if_neg htail, Nat.add_sub_cancel_left, keep_eq hused hle]

theorem trimHdr_eq (hused : s.used ≤ s.data.length) :
    s.trimHdr = .ok (if s.content.dropWhile isBlank = [] then { s with used := 0 }
    else s.shrink (s.content.takeWhile isBlank).length (s.content.dropWhile isBlank).length) := by
  rw [trimHdr]
  apply skipHdr_eq hused
  intro _
  have hadd := length_takeWhile_add (c := s.content) (p := isBlank)
  rw [length_content hused] at hadd
  have hrest : s.used - (s.content.takeWhile isBlank).length = (s.content.dropWhile isBlank).length := by omega
  rw [hrest, keep_eq hused (by omega)]

theorem trimTail_eq (hused : s.used ≤ s.data.length) :
    s.trimTail = .ok (if (s.content.rdropWhile isBlank).length = 1 then { s with used := 0 }
    else s.shrink 0 (s.content.rdropWhile isBlank).length) := by
  have hle : (s.content.rdropWhile isBlank).length ≤ s.content.length := (List.rdropWhile_prefix _ _).length_le
  rw [length_content hused] at hle
  rw [trimTail]
  by_cases h0 : s.used = 0
  · have hk : (s.content.rdropWhile isBlank).length = s.used := by omega
    rw [if_pos h0, if_neg (by omega), hk, shrink_all hused]
  · have hback := skipBlankBack_spec s 0 s.used (by omega)
    rw [slice_zero, Nat.zero_add, Nat.zero_add] at hback
    change _ = Except.ok (s.content.rdropWhile isBlank).length at hback
    rw [if_neg h0, hback, ok_bind]
    by_cases hone : (s.content.rdropWhile isBlank).length = 1
    · rw [if_pos hone, if_pos hone]
    · rw [if_neg hone, if_neg hone, cut_eq hused hle]

/-- Nothing is left, and no byte is written. -/
theorem Valid.emptied (hv : s.Valid) : Valid { s with used := 0 } := ⟨Nat.zero_le _, hv.cap_lt, hv.min_le, hv.le_max⟩

/-- There is something to keep, or nothing to trim. -/
def SomethingLeft (s : Cstr) : Prop := s.used = 0 ∨ ∃ c ∈ s.content, isBlank c = false

/-- What is left of the content without the blanks at its end is not one byte other than NUL. -/
def NotOneLeft (s : Cstr) : Prop := ∀ c, s.content.rdropWhile isBlank = [c] → c = 0

theorem emptied_terminated (ht : s.Terminated) (h0 : s.used = 0) : Terminated { s with used := 0 } := by
  rw [← h0]
  exact ht

theorem SomethingLeft.used_eq_zero (hleft : s.SomethingLeft) (hall : s.content.dropWhile isBlank = []) : s.used = 0 := by
  rcases hleft with h0 | ⟨c, hc, hb⟩
  · exact h0
  · have := List.dropWhile_eq_nil_iff.1 hall c hc
    rw [hb] at this
    cases this

theorem trim_spec (hv : s.Valid) : ∃ s', s.trim = .ok s' ∧ s'.Valid ∧ s'.content = trimmed s.content ∧
    (s.Terminated → s.SomethingLeft → s'.Terminated) := by
  have hused := Nat.le_of_lt hv.used_lt
  have hle := length_trimmed_le (c := s.content)
  rw [hv.length_content] at hle
  refine ⟨_, trim_eq hused, ?_⟩
  by_cases hall : s.content.dropWhile isBlank = []
  · rw [if_pos hall]
    refine ⟨hv.emptied, ?_, fun ht hleft => emptied_terminated ht (hleft.used_eq_zero hall)⟩
    rw [trimmed, hall]
    rfl
  · rw [if_neg hall]
    refine ⟨hv.shrink hle, ?_, fun ht _ => ht.shrink hv hle⟩
    rw [content_shrink hused hle, slice, drop_length_takeWhile]
    exact (List.prefix_iff_eq_take.1 (List.rdropWhile_prefix _ _)).symm

theorem trimHdr_spec (hv : s.Valid) : ∃ s', s.trimHdr = .ok s' ∧ s'.Valid ∧ s'.content = s.content.dropWhile isBlank ∧
    (s.Terminated → s.SomethingLeft → s'.Terminated) := by
  have hused := Nat.le_of_lt hv.used_lt
  have hadd := length_takeWhile_add (c := s.content) (p := isBlank)
  rw [hv.length_content] at hadd
  refine ⟨_, trimHdr_eq hused, ?_⟩
  by_cases hall : s.content.dropWhile isBlank = []
  · rw [if_pos hall]
    refine ⟨hv.emptied, ?_, fun ht hleft => emptied_terminated ht (hleft.used_eq_zero hall)⟩
    rw [hall]
    rfl
  · rw [if_neg hall]
    refine ⟨hv.shrink (by omega), ?_, fun ht _ => ht.shrink hv (by omega)⟩
    rw [content_shrink hused (by omega), slice, drop_length_takeWhile]
    exact List.take_length

theorem trimTail_spec (hv : s.Valid) : ∃ s', s.trimTail = .ok s' ∧ s'.Valid ∧
    ((s.content.rdropWhile isBlank).length ≠ 1 → s'.content = s.content.rdropWhile isBlank) ∧
    (s.Terminated → s.NotOneLeft → s'.Terminated) := by
  have hused := Nat.le_of_lt hv.used_lt
  have hpre := List.rdropWhile_prefix isBlank s.content
  have hle := hpre.length_le
  rw [hv.length_content] at hle
  refine ⟨_, trimTail_eq hused, ?_⟩
  by_cases hone : (s.content.rdropWhile isBlank).length = 1
  · rw [if_pos hone]
    refine ⟨hv.emptied, fun h => absurd hone h, fun _ hnot => ?_⟩
    obtain ⟨c, hc⟩ := List.length_eq_one_iff.1 hone
    have hc0 := hnot c hc
    obtain ⟨rest, hrest⟩ := hpre
    rw [hc, hc0] at hrest
    have hlt := hv.used_lt
    have hget : s.content[0]? = some 0 := by rw [← hrest]; rfl
    have hpos : 0 < s.used := by
      rw [← hv.length_content, ← hrest]
      exact Nat.succ_pos _
    rw [content, List.getElem?_take_of_lt hpos] at hget
    exact hget
  · rw [if_neg hone]
    refine ⟨hv.shrink (by omega), fun _ => ?_, fun ht _ => ht.shrink hv (by omega)⟩
    rw [content_shrink hused (by omega), slice_zero]
    exact (List.prefix_iff_eq_take.1 hpre).symm

end

end TinyUtils.Cstr
