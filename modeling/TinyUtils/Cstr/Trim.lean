import TinyUtils.Cstr.InPlace
import TinyUtils.Lib.Strip
/-!
# The three trims (`c_utils/cstr.c:494-584`)

`trim` keeps what is between the outer blanks and neither reads nor writes behind the old content
(`trim_exact`). `trimTail` takes `end == 0` for "all character are blank", where its siblings compare with
the end of the content: an only byte that is not blank goes with the blanks, if it is at index 0. So the
three agree exactly if the content has not just one byte that is not blank (`trims_agree_iff`).
-/

namespace TinyUtils.Cstr

open Block Checked Strip

variable {s : Cstr}

theorem trimmed_eq_strip (c : List Byte) : trimmed c = strip isBlank c := rfl

theorem trimmed_trimmed (c : List Byte) : trimmed (trimmed c) = trimmed c := strip_strip c

theorem slice_append_left {c rest : List Byte} {beg k : Nat} (h : beg + k ≤ c.length) :
    slice (c ++ rest) beg k = slice c beg k := by
  rw [slice, slice, List.drop_append_of_le_length (by omega), List.take_append_of_le_length (by
    rw [List.length_drop]; omega)]

/-- `shrink` only changes the bytes of the content. -/
theorem shrink_append {cap beg k : Nat} {c rest : List Byte} (h : beg + k ≤ c.length) :
    shrink ⟨cap, c.length, c ++ rest⟩ beg k =
      ⟨cap, k, slice c beg k ++ List.replicate (c.length - k) 0 ++ rest⟩ := by
  have hlen : (slice c beg k ++ List.replicate (c.length - k) (0 : Byte)).length = c.length := by
    rw [List.length_append, length_slice h, List.length_replicate]
    omega
  simp only [shrink, slice_append_left h]
  rw [put, hlen, Nat.zero_add, List.take_zero, List.nil_append, List.drop_left]

/-- `trim` on a block that begins with the content `c`. -/
theorem trim_append (cap : Nat) (c : List Byte) :
    ∃ bytes, bytes.length = c.length ∧ bytes.take (trimmed c).length = trimmed c ∧
      ∀ rest, trim ⟨cap, c.length, c ++ rest⟩ = .ok ⟨cap, (trimmed c).length, bytes ++ rest⟩ := by
  have hle := length_trimmed_le (c := c)
  have heq (rest : List Byte) : trim ⟨cap, c.length, c ++ rest⟩ = _ :=
    trim_eq (s := ⟨cap, c.length, c ++ rest⟩) (by rw [List.length_append]; exact Nat.le_add_right _ _)
  simp only [content, List.take_left] at heq
  by_cases hall : c.dropWhile isBlank = []
  · have hnil : trimmed c = [] := by
      rw [trimmed, hall]
      rfl
    refine ⟨c, rfl, by rw [hnil]; rfl, fun rest => ?_⟩
    rw [heq, if_pos hall, hnil]
    rfl
  · refine ⟨slice c (c.takeWhile isBlank).length (trimmed c).length ++
      List.replicate (c.length - (trimmed c).length) 0, ?_, ?_, fun rest => ?_⟩
    · rw [List.length_append, length_slice hle, List.length_replicate]
      omega
    · rw [List.take_append_of_le_length (Nat.le_of_eq (length_slice hle).symm),
        List.take_of_length_le (Nat.le_of_eq (length_slice hle)), slice, drop_length_takeWhile]
      exact (List.prefix_iff_eq_take.1 (List.rdropWhile_prefix _ _)).symm
    · rw [heq, if_neg hall, shrink_append hle]

theorem Valid.eq_content_append (hv : s.Valid) : s = ⟨s.cap, s.content.length, s.content ++ s.data.drop s.used⟩ := by
  rw [hv.length_content, content, List.take_append_drop]

/-- **`trim` removes exactly the outer blanks**. What is behind the content may be anything, even nothing: it is not
looked at and stays. -/
theorem trim_exact (hv : s.Valid) :
    ∃ s', s.trim = .ok s' ∧ s'.content = trimmed s.content ∧ s'.cap = s.cap ∧
      s'.data.drop s.used = s.data.drop s.used ∧
      (∀ rest, trim { s with data := s.content ++ rest } = .ok { s' with data := s'.data.take s.used ++ rest }) ∧
      ∃ s'', s'.trim = .ok s'' ∧ s''.content = s'.content := by
  obtain ⟨bytes, hlen, htake, htrim⟩ := trim_append s.cap s.content
  have hrest := htrim (s.data.drop s.used)
  rw [← hv.eq_content_append] at hrest
  obtain ⟨s', hs', hv', hcontent, _⟩ := trim_spec hv
  obtain ⟨s'', hs'', _, hcontent', _⟩ := trim_spec hv'
  rw [hv.length_content] at hlen
  obtain rfl : s' = ⟨s.cap, (trimmed s.content).length, bytes ++ s.data.drop s.used⟩ := by
    rw [hs'] at hrest
    cases hrest
    rfl
  refine ⟨_, hs', hcontent, rfl, List.drop_left' hlen, fun rest => ?_, s'', hs'', ?_⟩
  · have hany := htrim rest
    rw [hv.length_content] at hany
    rw [hany]
    simp only [List.take_left' hlen]
  · rw [hcontent', hcontent, trimmed_trimmed]

/-- " a b\t" -/
theorem trim_exact_spaced :
    ∃ s', (small [32, 97, 32, 98, 9]).trim = .ok s' ∧ s'.content = trimmed (small [32, 97, 32, 98, 9]).content ∧
      s'.cap = (small [32, 97, 32, 98, 9]).cap ∧
      s'.data.drop (small [32, 97, 32, 98, 9]).used =
        (small [32, 97, 32, 98, 9]).data.drop (small [32, 97, 32, 98, 9]).used ∧
      (∀ rest, trim { small [32, 97, 32, 98, 9] with data := (small [32, 97, 32, 98, 9]).content ++ rest } =
        .ok { s' with data := s'.data.take (small [32, 97, 32, 98, 9]).used ++ rest }) ∧
      ∃ s'', s'.trim = .ok s'' ∧ s''.content = s'.content :=
  trim_exact (small_valid (by decide))

/-! ## Agreement -/

theorem trimTail_one (hv : s.Valid) (hone : (s.content.rdropWhile isBlank).length = 1) :
    s.trimTail = .ok { s with used := 0 } := by
  rw [trimTail_eq (Nat.le_of_lt hv.used_lt), if_pos hone]

/-- `trimHdr` and then `trimTail`. -/
theorem hdr_tail_spec (hv : s.Valid) : ∃ a, (s.trimHdr >>= trimTail) = .ok a ∧ a.Valid ∧
    a.content = if (trimmed s.content).length = 1 then [] else trimmed s.content := by
  obtain ⟨t, ht, hvt, hct, _⟩ := trimHdr_spec hv
  rw [ht, ok_bind]
  by_cases hone : (trimmed s.content).length = 1
  · have hlen : (t.content.rdropWhile isBlank).length = 1 := by
      rw [hct]
      exact hone
    refine ⟨_, trimTail_one hvt hlen, hvt.emptied, ?_⟩
    rw [if_pos hone]
    rfl
  · obtain ⟨a, ha, hva, hca, _⟩ := trimTail_spec hvt
    rw [hct] at hca
    refine ⟨a, ha, hva, ?_⟩
    rw [if_neg hone]
    exact hca hone

/-- `trimTail` and then `trimHdr`. -/
theorem tail_hdr_spec (hv : s.Valid) (hone : (trimmed s.content).length ≠ 1) :
    ∃ b, (s.trimTail >>= trimHdr) = .ok b ∧ b.Valid ∧ b.content = trimmed s.content := by
  have hcomm : (s.content.rdropWhile isBlank).dropWhile isBlank = trimmed s.content := dropWhile_rdropWhile _
  obtain ⟨t, ht, hvt, hct, _⟩ := trimTail_spec hv
  obtain ⟨b, hb, hvb, hcb, _⟩ := trimHdr_spec hvt
  have hlen : (s.content.rdropWhile isBlank).length ≠ 1 := by
    intro hlen
    -- the one byte is not blank, so it would be what is left
    obtain ⟨c, hc⟩ := List.length_eq_one_iff.1 hlen
    have hlast : ¬isBlank c = true := by
      have h := List.rdropWhile_last_not isBlank s.content (by rw [hc]; exact List.cons_ne_nil c [])
      simp only [hc, List.getLast_singleton] at h
      exact h
    rw [hc, List.dropWhile_cons_of_neg hlast] at hcomm
    rw [← hcomm] at hone
    exact hone rfl
  refine ⟨b, ?_, hvb, ?_⟩
  · rw [ht, ok_bind, hb]
  · rw [hcb, hct hlen, hcomm]

/-- **The three trims agree** exactly if not just one byte of the content is not blank. -/
theorem trims_agree_iff (hv : s.Valid) :
    (∃ a b c, (s.trimHdr >>= trimTail) = .ok a ∧ (s.trimTail >>= trimHdr) = .ok b ∧ s.trim = .ok c ∧
      a.used = c.used ∧ b.used = c.used ∧ a.content = c.content ∧ b.content = c.content) ↔
      s.content.countP (fun c => !isBlank c) ≠ 1 := by
  obtain ⟨c, hc, hvc, hcc, _⟩ := trim_spec hv
  obtain ⟨a, ha, hva, hca⟩ := hdr_tail_spec hv
  rw [Ne, ← length_strip_eq_one_iff, ← trimmed_eq_strip]
  constructor
  · rintro ⟨a', _, c', ha', _, hc', _, _, hcontent, _⟩ hone
    rw [ha] at ha'
    rw [hc] at hc'
    cases ha'
    cases hc'
    rw [hca, hcc, if_pos hone] at hcontent
    rw [← hcontent] at hone
    cases hone
  · intro hone
    obtain ⟨b, hb, hvb, hcb⟩ := tail_hdr_spec hv hone
    rw [if_neg hone] at hca
    refine ⟨a, b, c, ha, hb, hc, ?_, ?_, hca.trans hcc.symm, hcb.trans hcc.symm⟩
    · rw [← hva.length_content, ← hvc.length_content, hca, hcc]
    · rw [← hvb.length_content, ← hvc.length_content, hcb, hcc]

/-- "\t ab " -/
theorem trims_agree_two :
    (∃ a b c, ((small [9, 32, 97, 98, 32]).trimHdr >>= trimTail) = .ok a ∧
      ((small [9, 32, 97, 98, 32]).trimTail >>= trimHdr) = .ok b ∧ (small [9, 32, 97, 98, 32]).trim = .ok c ∧
      a.used = c.used ∧ b.used = c.used ∧ a.content = c.content ∧ b.content = c.content) ↔
      (small [9, 32, 97, 98, 32]).content.countP (fun c => !isBlank c) ≠ 1 :=
  trims_agree_iff (small_valid (by decide))

/-- `trim` leaves "a" as it is, and `trimTail` empties it. -/
theorem not_trims_agree_one :
    (small [97]).Valid ∧
      ¬∃ a b c, ((small [97]).trimHdr >>= trimTail) = .ok a ∧ ((small [97]).trimTail >>= trimHdr) = .ok b ∧
        (small [97]).trim = .ok c ∧ a.used = c.used ∧ b.used = c.used ∧ a.content = c.content ∧
        b.content = c.content := by
  refine ⟨small_valid (by decide), ?_⟩
  rintro ⟨a, b, c, ha, _, hc, hused, _⟩
  have ha' : ((small [97]).trimHdr >>= trimTail) = .ok ⟨23, 0, (small [97]).data⟩ := by decide +kernel
  have hc' : (small [97]).trim = .ok (small [97]) := by decide +kernel
  cases ha.symm.trans ha'
  cases hc.symm.trans hc'
  cases hused

end TinyUtils.Cstr
