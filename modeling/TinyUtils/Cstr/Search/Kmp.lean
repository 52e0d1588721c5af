import TinyUtils.Cstr.Search.Model
/-!
# `kmp_search_first`

`next_table` has, for each prefix of the pattern, the length of its longest border. The loop that fills it and the
loop over the text have the same shape: where a symbol does not go on with the prefix matched so far, its longest
border is tried next, and neither of the two indices moves; so what goes down is twice the way to the end and the
length of the prefix.
-/

namespace TinyUtils.Cstr

open Int32Bit Loops Matching IntArray Checked

section
variable {s : Cstr} {str : CString} {m : Nat}

/-! ## The table -/

/-- The elements below `i` are the lengths of the longest borders. -/
def Borders (str : CString) (i : Nat) (nextTable : IntArray) : Prop :=
  ∀ q < i, ∃ b : Nat, nextTable.Holds q b ∧ IsGreatest {b | Border str.sym (q + 1) b} b

theorem Borders.set {i b : Nat} {nextTable : IntArray} (h : Borders str i nextTable) (hi : i < nextTable.length)
    (hb : IsGreatest {b | Border str.sym (i + 1) b} b) : Borders str (i + 1) (nextTable.set i (some (b : Int))) := by
  intro q hq
  by_cases hqi : q = i
  · rw [hqi]
    exact ⟨b, holds_set_self _ hi, hb⟩
  · obtain ⟨c, hc, hlongest⟩ := h q (by omega)
    exact ⟨c, hc.set_ne hqi, hlongest⟩

/-- The entry for the prefix of `k + 1` symbols. -/
theorem Borders.getAt {i k : Nat} {nextTable : IntArray} (h : Borders str i nextTable) (hk : k < i) (hk0 : 0 < k) :
    ∃ b : Nat, nextTable.getAt ((k : Int) - 1) = .ok (b : Int) ∧ b < k ∧ IsGreatest {b | Border str.sym k b} b := by
  obtain ⟨b, hb, hlongest⟩ := h (k - 1) (by omega)
  rw [Nat.sub_add_cancel hk0] at hlongest
  refine ⟨b, ?_, hlongest.1.1, hlongest⟩
  rw [← hb.getAt]
  congr 1
  omega

/-- The table is filled below `i`, and `k` is the next border to try at `i`. -/
structure Filling (str : CString) (m : Nat) (st : Int × Int × IntArray) (i k : Nat) : Prop where
  eq : st.1 = i ∧ st.2.1 = k
  pos : 1 ≤ i
  le : i ≤ m
  length : m ≤ st.2.2.length
  borders : Borders str i st.2.2
  candidate : Candidate str.sym i k

/-- The entry at `i` is written. -/
theorem Filling.set {i k b : Nat} {nextTable : IntArray} (h : Filling str m (i, k, nextTable) i k) (hi : i < m)
    (hb : IsGreatest {b | Border str.sym (i + 1) b} b) :
    Filling str m ((i + 1 : Nat), b, nextTable.set i (some (b : Int))) (i + 1) b := by
  have hlen : m ≤ nextTable.length := h.length
  have hborders : Borders str i nextTable := h.borders
  refine ⟨⟨rfl, rfl⟩, by omega, hi, ?_, hborders.set (by omega) hb, Candidate.of_longest hb⟩
  simpa using hlen

/-- The next shorter border is tried. -/
theorem Filling.next {i k b : Nat} {nextTable : IntArray} (h : Filling str m (i, k, nextTable) i k)
    (hne : str.sym i ≠ str.sym k) (hb : IsGreatest {b | Border str.sym k b} b) :
    Filling str m (i, b, nextTable) i b :=
  ⟨⟨rfl, rfl⟩, h.pos, h.le, h.length, h.borders, h.candidate.next hne hb⟩

theorem Filling.turn (hm : m ≤ str.bytes.length) {st : Int × Int × IntArray} {i k : Nat} (h : Filling str m st i k) :
    (∃ st', ∃ g : Nat × Nat, kmpNextTurn str m st = .ok (.inl st') ∧ Filling str m st' g.1 g.2 ∧
        2 * (m - g.1) + g.2 < 2 * (m - i) + k) ∨
      ∃ nextTable, kmpNextTurn str m st = .ok (.inr nextTable) ∧ Borders str m nextTable := by
  obtain ⟨si, sk, nextTable⟩ := st
  have hsi : si = i := h.eq.1
  have hsk : sk = k := h.eq.2
  subst hsi hsk
  have hle := h.le
  have hlen : m ≤ nextTable.length := h.length
  have hki : k < i := h.candidate.1.1
  rw [kmpNextTurn]
  by_cases hi : i < m
  · obtain ⟨c, hc, hsymi⟩ := str.charAt_of_lt (k := i) (by omega)
    obtain ⟨d, hd, hsymk⟩ := str.charAt_of_lt (k := k) (by omega)
    have hset : ∀ v : Int, nextTable.setAt i v = .ok (nextTable.set i (some v)) := fun v => setAt_eq v (by omega)
    simp only [if_pos (show (i : Int) < m by omega), hc, hd, ok_bind, hset]
    left
    by_cases hcd : c = d
    · -- the border goes on
      have hlongest : IsGreatest {b | Border str.sym (i + 1) b} (k + 1) :=
        h.candidate.longest_succ (by rw [hsymi, hsymk, hcd])
      exact ⟨_, (i + 1, k + 1), if_pos hcd, h.set hi hlongest, by omega⟩
    · have hne : str.sym i ≠ str.sym k := by
        rw [hsymi, hsymk]
        exact fun heq => hcd (Option.some.inj heq)
      rw [if_neg hcd]
      by_cases hk : k = 0
      · -- no border goes on
        subst hk
        exact ⟨_, (i + 1, 0), if_pos Int.natCast_zero, h.set hi (h.candidate.longest_zero hne), by omega⟩
      · obtain ⟨b, hb, hbk, hlongest⟩ := h.borders.getAt hki (by omega)
        refine ⟨_, (i, b), ?_, h.next hne hlongest, by omega⟩
        rw [if_neg (by omega), hb, ok_bind]
  · right
    obtain rfl : i = m := by omega
    exact ⟨nextTable, if_neg (by omega), h.borders⟩

/-- A turn leaves the elements from `m` on as they are. -/
theorem kmpNextTurn_drop {i k : Int} {nextTable : IntArray} {st' : (Int × Int × IntArray) ⊕ IntArray}
    (h : kmpNextTurn str m (i, k, nextTable) = .ok st') :
    (st'.elim (fun st => st.2.2) id).drop m = nextTable.drop m := by
  have hset : ∀ {v : Int} {nextTable' : IntArray}, i < m → nextTable.setAt i v = .ok nextTable' →
      nextTable'.drop m = nextTable.drop m := by
    intro v nextTable' hi hwrite
    cases i with
    | negSucc i => cases hwrite
    | ofNat i =>
      have him : i < m := Int.ofNat_lt.1 hi
      simp only [setAt] at hwrite
      split at hwrite
      · cases hwrite
        exact List.drop_set_of_lt him
      · cases hwrite
  simp only [kmpNextTurn] at h
  split at h
  · obtain ⟨c, _, h⟩ := bind_eq_ok h
    obtain ⟨d, _, h⟩ := bind_eq_ok h
    split at h
    · obtain ⟨nextTable', hwrite, h⟩ := bind_eq_ok h
      cases h
      exact hset (by assumption) hwrite
    · split at h
      · obtain ⟨nextTable', hwrite, h⟩ := bind_eq_ok h
        cases h
        exact hset (by assumption) hwrite
      · obtain ⟨b, _, h⟩ := bind_eq_ok h
        cases h
        rfl
  · cases h
    rfl

/-- The table is filled with the longest borders, and nothing else is written. -/
theorem kmpNextTable_spec {nextTable : IntArray} (hm1 : 1 ≤ m) (hm : m ≤ str.bytes.length)
    (hlen : m ≤ nextTable.length) :
    ∃ nextTable', Returns (kmpNextTable str m nextTable) nextTable' ∧ nextTable'.drop m = nextTable.drop m ∧
      Borders str m nextTable' := by
  have hfirst : nextTable.setAt 0 0 = .ok (nextTable.set 0 (some 0)) := setAt_eq (i := 0) 0 (by omega)
  have hborders : Borders str 1 (nextTable.set 0 (some ((0 : Nat) : Int))) :=
    Borders.set (i := 0) (fun q hq => absurd hq (Nat.not_lt_zero q)) (by omega) longest_one
  have hdrop : (nextTable.set 0 (some 0)).drop m = nextTable.drop m := List.drop_set_of_lt (by omega)
  have hinit : Filling str m (1, 0, nextTable.set 0 (some 0)) 1 0 :=
    ⟨⟨rfl, rfl⟩, Nat.le_refl 1, hm1, by simpa using hlen, hborders, Candidate.of_longest longest_one⟩
  have hturn : ∀ st (g : Nat × Nat), Filling str m st g.1 g.2 ∧ st.2.2.drop m = nextTable.drop m →
      (∃ st', ∃ g' : Nat × Nat, kmpNextTurn str m st = .ok (.inl st') ∧
        (Filling str m st' g'.1 g'.2 ∧ st'.2.2.drop m = nextTable.drop m) ∧
        2 * (m - g'.1) + g'.2 < 2 * (m - g.1) + g.2) ∨
      ∃ nextTable', kmpNextTurn str m st = .ok (.inr nextTable') ∧ nextTable'.drop m = nextTable.drop m ∧
        Borders str m nextTable' := by
    rintro st g ⟨h, hkept⟩
    rcases h.turn hm with ⟨st', g', hstep, hfill, hdown⟩ | ⟨nextTable', hlast, hfill⟩
    · exact Or.inl ⟨st', g', hstep, ⟨hfill, (kmpNextTurn_drop hstep).trans hkept⟩, hdown⟩
    · exact Or.inr ⟨nextTable', hlast, (kmpNextTurn_drop hlast).trans hkept, hfill⟩
  obtain ⟨nextTable', hret, hkept, hborders'⟩ :=
    returns_loop (g := (1, 0)) (fun g : Nat × Nat => 2 * (m - g.1) + g.2) hturn ⟨hinit, hdrop⟩
  have hread : ∀ n (u : Unit), n < m → True → ∃ u', printEntry nextTable' n u = .ok u' ∧ True := by
    intro n u hn _
    obtain ⟨b, hb, _⟩ := hborders' n hn
    exact ⟨(), by rw [printEntry, hb.getAt, ok_bind], trivial⟩
  obtain ⟨u, hprint, _⟩ := forUp_spec hread (Nat.zero_add m) trivial
  refine ⟨nextTable', ?_, hkept, hborders'⟩
  exact (Returns.call hfirst).bind (hret.bind ((Returns.call hprint).bind (Returns.pure _)))

theorem kmpNextTable_returns {nextTable : IntArray} (hm1 : 1 ≤ m) (hm : m ≤ str.bytes.length)
    (hlen : m ≤ nextTable.length) :
    ∃ nextTable', Returns (kmpNextTable str m nextTable) nextTable' ∧ Borders str m nextTable' := by
  obtain ⟨nextTable', hret, _, hborders⟩ := kmpNextTable_spec hm1 hm hlen
  exact ⟨nextTable', hret, hborders⟩

/-- **The table is the prefix function**: the entry at `q` is the length of the longest proper prefix of the first
`q + 1` bytes that is a suffix of them too. Only the first `m` elements are written. -/
theorem kmpNextTable_exact {nextTable : IntArray} (hm1 : 1 ≤ m) (hm : m ≤ str.bytes.length)
    (hlen : m ≤ nextTable.length) :
    ∃ nextTable', Returns (kmpNextTable str m nextTable) nextTable' ∧ nextTable'.drop m = nextTable.drop m ∧
      ∀ q < m, ∃ b : Nat, nextTable'.Holds q b ∧
        IsGreatest {b | b < q + 1 ∧ str.bytes.take b <:+ str.bytes.take (q + 1)} b := by
  obtain ⟨nextTable', hret, hkept, hborders⟩ := kmpNextTable_spec hm1 hm hlen
  refine ⟨nextTable', hret, hkept, fun q hq => ?_⟩
  obtain ⟨b, hb, hlongest⟩ := hborders q hq
  have hborder : ∀ b, Border str.sym (q + 1) b ↔ b < q + 1 ∧ str.bytes.take b <:+ str.bytes.take (q + 1) :=
    fun b => border_iff_isSuffix (fun k hk => str.sym_of_lt (by omega)) (by omega)
  simp only [hborder] at hlongest
  exact ⟨b, hb, hlongest⟩

/-- "aab", and an array of four. -/
theorem kmpNextTable_exact_aab :
    ∃ nextTable', Returns (kmpNextTable ⟨[97, 97, 98], by decide⟩ 3 (fresh 4)) nextTable' ∧
      nextTable'.drop 3 = (fresh 4).drop 3 ∧ ∀ q < 3, ∃ b : Nat, nextTable'.Holds q b ∧
        IsGreatest {b | b < q + 1 ∧ ([97, 97, 98] : List Byte).take b <:+ ([97, 97, 98] : List Byte).take (q + 1)} b :=
  @kmpNextTable_exact ⟨[97, 97, 98], by decide⟩ 3 (fresh 4) (by decide) (by decide) (by decide)

/-! ## The loop -/

/-- The `j` symbols before `i` are the first of the pattern, and the search goes on from there. -/
structure Reading (s : Cstr) (str : CString) (m start : Nat) (st : Int × Int) (i j : Nat) : Prop where
  eq : st.1 = i ∧ st.2 = j
  le : i ≤ s.used
  lt : j < m
  frontier : Frontier s.sym s.used str.sym m start i j

theorem Reading.turn (hs : s.Text) {start : Nat} {nextTable : IntArray} (hm : m ≤ str.bytes.length)
    (hmax : m < searchMaxLen) (htable : Borders str m nextTable) {st : Int × Int} {i j : Nat}
    (h : Reading s str m start st i j) :
    (∃ st', ∃ g : Nat × Nat, kmpTurn s str m nextTable st = .ok (.inl st') ∧ Reading s str m start st' g.1 g.2 ∧
        2 * (s.used - g.1) + g.2 < 2 * (s.used - i) + j) ∨
      ∃ r, kmpTurn s str m nextTable st = .ok (.inr r) ∧ FirstOccurs s.sym s.used str.sym m start r := by
  obtain ⟨si, sj⟩ := st
  obtain ⟨⟨hsi, hsj⟩, hle, hj, hfront⟩ := h
  simp only at hsi hsj
  subst hsi hsj
  have hcap := hs.used_le
  have hdata := hs.cap_lt
  have hlt := hs.used_lt
  simp only [searchMaxLen] at hmax
  have hui : unsigned i = i := unsigned_natCast (by omega)
  have huj : unsigned j = j := unsigned_natCast (by omega)
  rw [kmpTurn, hui, huj]
  by_cases hi : i < s.used
  · obtain ⟨c, hc, hsymi⟩ := charAt_of_lt s (i := i) (by omega)
    obtain ⟨d, hd, hsymj⟩ := str.charAt_of_lt (k := j) (by omega)
    simp only [if_pos (show i < s.used ∧ j < m from ⟨hi, hj⟩), hc, hd, ok_bind]
    by_cases hcd : c = d
    · have hnext := hfront.succ (show s.sym i = str.sym j by rw [hsymi, hsymj, hcd])
      rw [if_pos hcd]
      by_cases hlast : j = m - 1
      · -- all of the pattern is matched
        right
        have hjm : j + 1 = m := by omega
        rw [hjm] at hnext
        have hstart := hnext.le
        have hint : i32 (i - ((m : Int) - 1)) = ((i + 1 - m : Nat) : Int) := by
          rw [i32_eq (by omega) (by omega)]
          omega
        exact ⟨_, if_pos hlast, Or.inl ⟨i + 1 - m, hint, hnext.least (by omega)⟩⟩
      · left
        exact ⟨_, (i + 1, j + 1), if_neg hlast, ⟨⟨rfl, rfl⟩, by omega, by omega, hnext⟩, by omega⟩
    · have hne : s.sym i ≠ str.sym j := by
        rw [hsymi, hsymj]
        exact fun heq => hcd (Option.some.inj heq)
      rw [if_neg hcd]
      left
      by_cases hj0 : j = 0
      · subst hj0
        exact ⟨_, (i + 1, 0), if_pos Int.natCast_zero, ⟨⟨rfl, rfl⟩, by omega, hj, hfront.skip hj hne⟩, by omega⟩
      · obtain ⟨b, hb, hbj, hlongest⟩ := htable.getAt hj (by omega)
        refine ⟨(i, b), (i, b), ?_, ⟨⟨rfl, rfl⟩, hle, by omega, hfront.next hj hne hlongest⟩, by omega⟩
        rw [if_neg (by omega), hb, ok_bind]
  · right
    refine ⟨-1, if_neg (by omega), Or.inr ⟨rfl, ?_⟩⟩
    intro x hx
    exact hfront.none (by omega) hj hx

theorem kmpLoop_returns (hs : s.Text) {start : Nat} {nextTable : IntArray} (hm1 : 1 ≤ m) (hm : m ≤ str.bytes.length)
    (hmax : m < searchMaxLen) (hstart : start ≤ s.used) (htable : Borders str m nextTable) :
    ∃ r, Returns (loop (kmpTurn s str m nextTable) (start, 0)) r ∧ FirstOccurs s.sym s.used str.sym m start r := by
  have hturn : ∀ st (g : Nat × Nat), Reading s str m start st g.1 g.2 →
      (∃ st', ∃ g' : Nat × Nat, kmpTurn s str m nextTable st = .ok (.inl st') ∧ Reading s str m start st' g'.1 g'.2 ∧
        2 * (s.used - g'.1) + g'.2 < 2 * (s.used - g.1) + g.2) ∨
      ∃ r, kmpTurn s str m nextTable st = .ok (.inr r) ∧ FirstOccurs s.sym s.used str.sym m start r :=
    fun st g h => h.turn hs hm hmax htable
  have hinit : Reading s str m start (start, 0) start 0 := ⟨⟨rfl, rfl⟩, hstart, hm1, Frontier.init⟩
  exact returns_loop (g := (start, 0)) (fun g : Nat × Nat => 2 * (s.used - g.1) + g.2) hturn hinit

end

theorem length_kmpArray : kmpArray.length = 256 := by
  rw [kmpArray, List.length_append, List.length_replicate, fresh, List.length_replicate]
  rfl

/-- **The search ends and returns the first occurrence**, for a pattern of 1 to 255 bytes. -/
theorem kmp_right {s : Cstr} (hs : s.Text) (str : CString) (hm1 : 1 ≤ str.bytes.length)
    (hmax : str.bytes.length < searchMaxLen) (start : Nat) :
    ∃ r, Returns (kmpSearchFirst s (some str) start) r ∧ FirstMatch s.content str.bytes start r := by
  have hlt := hs.used_lt
  have hmax' : str.bytes.length < 256 := hmax
  have hlen : str.strlen = str.bytes.length := u32_eq (by omega)
  simp only [firstMatch_iff hs, kmpSearchFirst, hlen]
  by_cases hused : start > s.used
  · simp only [if_pos hused]
    exact ⟨-1, Returns.pure _, FirstOccurs.of_short (by omega)⟩
  · have hsum : u32 (start + str.bytes.length) = start + str.bytes.length := u32_eq (by omega)
    simp only [if_neg hused, hsum]
    by_cases hcheck : start + str.bytes.length > s.used ∨ str.bytes.length = 0
    · simp only [if_pos hcheck]
      exact ⟨-1, Returns.pure _, FirstOccurs.of_short (by omega)⟩
    · have hint : i32 start = start := i32_eq (by omega) (by omega)
      simp only [if_neg hcheck, if_neg (show ¬str.bytes.length ≥ searchMaxLen by omega), hint]
      have harray : str.bytes.length ≤ kmpArray.length := by rw [length_kmpArray]; omega
      obtain ⟨nextTable, htable, hborders⟩ := kmpNextTable_returns hm1 (Nat.le_refl _) harray
      have hle : start ≤ s.used := by omega
      obtain ⟨r, hr, hfirst⟩ := kmpLoop_returns hs hm1 (Nat.le_refl _) hmax hle hborders
      exact ⟨r, htable.bind hr, hfirst⟩

/-- "aab" in "aaab". -/
theorem kmp_right_aaab :
    ∃ r, Returns (kmpSearchFirst (small [97, 97, 97, 98]) (some ⟨[97, 97, 98], by decide⟩) 0) r ∧
      FirstMatch (small [97, 97, 97, 98]).content [97, 97, 98] 0 r :=
  kmp_right (small_valid (by decide)).text ⟨[97, 97, 98], by decide⟩ (by decide) (by decide) 0

end TinyUtils.Cstr
