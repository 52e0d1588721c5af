import TinyUtils.Cstr.Compare
import TinyUtils.Cstr.Search.BoyerMoore
import TinyUtils.Cstr.Search.Sunday
/-!
# The indices of the search tables (`c_utils/cstr.c:852-862`, `:921-939`, `:953-981`)

A table with an entry for each byte is indexed with a plain `char`: with the bytes of the pattern when it is filled, and
with the byte of the text that tells how far the window moves. Where a plain `char` is signed, a byte from 128 on is an
index in front of the table.

What is indexed depends on the way of the window, which is a property of text and pattern (`MovesBehind`,
`MovesAtStop`). So a search stays within its table exactly if the pattern is ASCII, and so is each byte that is looked
up on this way (`tables_iff`).
-/

namespace TinyUtils.Cstr

open Int32Bit Loops Matching IntArray Checked

/-- An index of a table with 256 elements. -/
def InTable (index : Int) : Prop := 0 ≤ index ∧ index < searchMaxLen

section
variable (chr : Byte → Int)

/-- The checks of a search before it has a table. -/
def Begun (s : Cstr) (patLen : Int) (begin : Nat) : Prop :=
  ¬begin > s.used ∧ ¬(unsigned (begin + patLen) > s.used ∨ patLen = 0) ∧ ¬patLen ≥ searchMaxLen

/-- The indices of `shift_table` in `bm_bad_char_shift_table`: of the loop over the table, and of the loop over the
pattern as far as it comes. -/
inductive BadCharIndex (pattern : CString) (patLen : Int) : Int → Prop
  | start {i : Nat} : i < searchMaxLen → BadCharIndex pattern patLen i
  | fill {i : Nat} {shiftTable : IntArray} {c : Byte} : i < unsigned patLen →
      forUp (bmBadCharEntry chr pattern) i 0 (List.replicate searchMaxLen (some (-1))) = .ok shiftTable →
      pattern.charAt i = .ok c → BadCharIndex pattern patLen (chr c)

/-- The indices of `shift` in `sunday_search_first`, past its checks. -/
inductive SundayIndex (s : Cstr) (str : CString) (begin : Nat) (patLen : Int) : Int → Prop
  | start {i : Nat} : i < searchMaxLen → SundayIndex s str begin patLen i
  | fill {i : Nat} {shift : IntArray} {c : Byte} : i < patLen.toNat →
      forUp (sundayEntry chr str patLen) i 0 (List.replicate searchMaxLen (some (patLen + 1))) = .ok shift →
      str.charAt i = .ok c → SundayIndex s str begin patLen (chr c)
  | move {shift : IntArray} {ti : Int} {c : Byte} : sundayShift chr str patLen = .ok shift →
      Reaches (sundayTurn chr s str patLen shift) (i32 begin) ti → sundayLook s str patLen ti = .ok (.inl c) →
      SundayIndex s str begin patLen (chr c)

/-- The indices of `bm_bc` in `boyer_moore_search_first`, past its checks. What `cstr_show` does is passed over. -/
inductive BoyerMooreIndex (s : Cstr) (str : CString) (begin : Nat) (patLen : Int) : Int → Prop
  | fill {index : Int} : BadCharIndex chr str patLen index → BoyerMooreIndex s str begin patLen index
  | move {bmBc bmGs : IntArray} {ti pi : Int} {c : Byte} : bmBadCharShiftTable chr str patLen = .ok bmBc →
      bmGoodSuffixShiftTable str patLen.toNat = .ok bmGs →
      Reaches (bmTurn chr s str patLen bmBc bmGs) (i32 begin) ti → bmLook s str patLen ti = .ok (.inl (pi, c)) →
      BoyerMooreIndex s str begin patLen (chr c)

def BadCharInTable (pattern : CString) : Prop :=
  ∀ index, BadCharIndex chr pattern (i32 pattern.bytes.length) index → InTable index

def SundayInTable (s : Cstr) (str : CString) (begin : Nat) : Prop :=
  Begun s (i32 str.bytes.length) begin →
    ∀ index, SundayIndex chr s str begin (i32 str.bytes.length) index → InTable index

def BoyerMooreInTable (s : Cstr) (str : CString) (begin : Nat) : Prop :=
  Begun s (i32 str.bytes.length) begin →
    ∀ index, BoyerMooreIndex chr s str begin (i32 str.bytes.length) index → InTable index

end

/-! ## The bytes that are looked up -/

def Ascii (str : CString) : Prop := ∀ c ∈ str.bytes, c < 128

/-- On its way from `begin` on, the window has an ASCII byte behind it, if it is not the pattern. -/
def BehindAscii (s : Cstr) (str : CString) (begin : Nat) : Prop :=
  ∀ i c, Relation.ReflTransGen (MovesBehind s.sym s.used str.sym str.bytes.length) begin i →
    Behind s str str.bytes.length i c → c < 128

/-- On its way from `begin` on, the window has an ASCII byte where its comparison stops. -/
def AtStopAscii (s : Cstr) (str : CString) (begin : Nat) : Prop :=
  ∀ i j c, Relation.ReflTransGen (MovesAtStop s.sym s.used str.sym str.bytes.length) begin i →
    AtStop s str str.bytes.length i j c → c < 128

theorem inTable_schar_iff (c : Byte) : InTable (schar c) ↔ c < 128 := by
  simp only [InTable, searchMaxLen]
  rcases schar_cases c with ⟨hlt, hu, heq⟩ | ⟨hlt, hu, heq⟩ <;>
    have hrange := uchar_range c
  · exact iff_of_true (by omega) hlt
  · exact iff_of_false (by omega) hlt

theorem schar_of_ascii {c : Byte} (h : c < 128) : schar c = uchar c := by
  rcases schar_cases c with ⟨_, _, heq⟩ | ⟨hlt, _⟩
  · exact heq
  · exact absurd h hlt

theorem inTable_natCast {i : Nat} (hi : i < searchMaxLen) : InTable i := ⟨Int.natCast_nonneg i, Int.ofNat_lt.2 hi⟩

section
variable {s : Cstr} {str : CString} {begin : Nat}

theorem Ascii.sym (h : Ascii str) {k : Nat} (hk : k < str.bytes.length) {c : Byte} (hsym : str.sym k = some c) :
    c < 128 := by
  have hget : str.bytes[k]? = some c := by
    rw [← hsym, CString.sym, CString.memory, List.getElem?_append_left hk]
  exact h c (List.mem_of_getElem? hget)

theorem Ascii.placeTable_eq (h : Ascii str) (value : Int → Int) {n : Nat} (hn : n ≤ str.bytes.length) :
    placeTable schar str value n = placeTable uchar str value n :=
  placeTable_congr hn fun _ hk _ hsym => schar_of_ascii (h.sym (Nat.lt_of_lt_of_le hk hn) hsym)

/-- The loop over the pattern stays within the table exactly if the pattern is ASCII: the first byte that is not is
reached. -/
theorem fill_inTable_iff (value : Int → Int) :
    (∀ i table c, i < str.bytes.length → placeTable schar str value i = .ok table → str.charAt i = .ok c →
      InTable (schar c)) ↔ Ascii str := by
  constructor
  · intro h
    have hbytes : ∀ k, k < str.bytes.length → ∀ c, str.sym k = some c → c < 128 := by
      intro k
      induction k using Nat.strong_induction_on with
      | _ k ih =>
        intro hk c hsym
        obtain ⟨d, hd, hsym'⟩ := str.charAt_of_lt hk
        obtain rfl : d = c := Option.some.inj (hsym'.symm.trans hsym)
        have hsame : placeTable schar str value k = placeTable uchar str value k :=
          placeTable_congr (Nat.le_of_lt hk) fun x hx e he => schar_of_ascii (ih x hx (Nat.lt_trans hx hk) e he)
        obtain ⟨table, htable, _⟩ := placeTable_spec value (Nat.le_of_lt hk)
        exact (inTable_schar_iff d).1 (h k table d hk (hsame.trans htable) hd)
    intro c hc
    obtain ⟨k, hk, rfl⟩ := List.mem_iff_getElem.1 hc
    refine hbytes k hk _ ?_
    rw [CString.sym, CString.memory, List.getElem?_append_left hk, List.getElem?_eq_getElem hk]
  · intro h i table c hi _ hc
    obtain ⟨d, hd, hsym⟩ := str.charAt_of_lt hi
    obtain rfl : d = c := Except.ok.inj (hd.symm.trans hc)
    exact (inTable_schar_iff d).2 (h.sym hi hsym)

/-! ## The loops, with a pattern that is ASCII -/

/-- A loop that moves the window as `Moves` says, where the byte that it looks up is an index of its table. -/
theorem loop_inTable_iff {turn : Int → M (Int ⊕ Int)} (Moves : Nat → Nat → Prop) (looks : Int → Byte → Prop)
    (Looked : Nat → Byte → Prop) {n : Nat} (hunique : ∀ i x y, Moves i x → Moves i y → x = y)
    (hbound : ∀ i i', Moves i i' → i' ≤ n) (hlooks : ∀ i c, i ≤ n → (looks i c ↔ Looked i c))
    (hlooked : ∀ i c, Looked i c → i ≤ n)
    (hturn : ∀ i : Nat, i ≤ n →
      (∃ c, looks i c ∧ (schar c = uchar c → ∃ i' : Nat, turn i = .ok (.inl (i' : Int)) ∧ Moves i i')) ∨
        ∃ r, turn i = .ok (.inr r) ∧ ∀ i', ¬Moves i i') (hbegin : begin ≤ n) :
    (∀ ti, Reaches turn begin ti → ∀ c, looks ti c → InTable (schar c)) ↔
      ∀ i c, Relation.ReflTransGen Moves begin i → Looked i c → c < 128 := by
  have hbody : ∀ i : Nat, i ≤ n → (∀ c, looks i c → InTable (schar c)) →
      ∀ ti, turn i = .ok (.inl ti) ↔ ∃ i' : Nat, ti = i' ∧ Moves i i' := by
    intro i hi hsafe ti
    rcases hturn i hi with ⟨c, hc, hmove⟩ | ⟨r, hlast, hnone⟩
    · obtain ⟨x, hx, hmoves⟩ := hmove (schar_of_ascii ((inTable_schar_iff c).1 (hsafe c hc)))
      rw [hx]
      constructor
      · intro heq
        cases heq
        exact ⟨x, rfl, hmoves⟩
      · rintro ⟨y, rfl, hy⟩
        rw [hunique i y x hy hmoves]
    · rw [hlast]
      constructor
      · intro heq
        cases heq
      · rintro ⟨y, _, hy⟩
        exact absurd hy (hnone y)
  have hrule := reaches_safe_iff (fun i : Nat => (i : Int)) (fun i => i ≤ n)
    (fun ti => ∀ c, looks ti c → InTable (schar c)) (fun i i' _ => hbound i i') hbody hbegin
  rw [hrule]
  constructor
  · intro h i c hway hc
    have hi := hlooked i c hc
    exact (inTable_schar_iff c).1 (h i hway hi c ((hlooks i c hi).2 hc))
  · intro h i hway hi c hc
    exact (inTable_schar_iff c).2 (h i c hway ((hlooks i c hi).1 hc))

theorem sundayLoop_inTable_iff (hs : s.Text) (hm : str.bytes.length ≤ s.used) (hbegin : begin ≤ s.used)
    {shift : IntArray} (hshift : Distances str str.bytes.length shift) :
    (∀ ti, Reaches (sundayTurn schar s str str.bytes.length shift) begin ti → ∀ c,
      sundayLook s str str.bytes.length ti = .ok (.inl c) → InTable (schar c)) ↔ BehindAscii s str begin := by
  have hlooks : ∀ i c, i ≤ s.used + 1 →
      (sundayLook s str str.bytes.length (i : Nat) = .ok (.inl c) ↔ Behind s str str.bytes.length i c) := by
    intro i c hi
    rcases sundayLook_spec hs (Nat.le_refl _) hm hi with ⟨d, hlook, hbehind⟩ | ⟨hlook, hocc⟩ | ⟨hlook, hend⟩
    · rw [hlook]
      constructor
      · intro heq
        cases heq
        exact hbehind
      · intro hc
        rw [Option.some.inj (hbehind.2.2.symm.trans hc.2.2)]
    · rw [hlook]
      exact iff_of_false (fun heq => by cases heq) fun hc => hc.2.1 hocc
    · rw [hlook]
      exact iff_of_false (fun heq => by cases heq) fun hc => by have hin := hc.1; omega
  refine loop_inTable_iff (MovesBehind s.sym s.used str.sym str.bytes.length)
    (fun ti c => sundayLook s str str.bytes.length ti = .ok (.inl c)) (Behind s str str.bytes.length)
    (fun i x y hx hy => hx.unique hy) (fun i i' h => h.bounds.2) hlooks (fun i c hc => by have hin := hc.1; omega) ?_
    (Nat.le_succ_of_le hbegin)
  intro i hi
  rcases sundayLook_spec hs (Nat.le_refl _) hm hi with ⟨c, hlook, hbehind⟩ | ⟨hlook, hocc⟩ | ⟨hlook, hend⟩
  · left
    exact ⟨c, hlook, hbehind.turn hlook hshift⟩
  · right
    refine ⟨i, ?_, fun i' hmoves => hmoves.2.1 hocc⟩
    rw [sundayTurn_eq, hlook, ok_bind]
  · right
    refine ⟨-1, ?_, fun i' hmoves => by have hin := hmoves.1; omega⟩
    rw [sundayTurn_eq, hlook, ok_bind]

theorem bmLoop_inTable_iff (hs : s.Text) (hm : str.bytes.length ≤ s.used) (hbegin : begin ≤ s.used)
    {bmBc bmGs : IntArray} (hbc : LastPlaces str str.bytes.length bmBc) (hgs : GoodShifts str str.bytes.length bmGs) :
    (∀ ti, Reaches (bmTurn schar s str str.bytes.length bmBc bmGs) begin ti → ∀ c,
      (∃ pi, bmLook s str str.bytes.length ti = .ok (.inl (pi, c))) → InTable (schar c)) ↔ AtStopAscii s str begin := by
  have hlooks : ∀ i c, i ≤ s.used + 1 → ((∃ pi, bmLook s str str.bytes.length (i : Nat) = .ok (.inl (pi, c))) ↔
      ∃ j, AtStop s str str.bytes.length i j c) := by
    intro i c hi
    rcases bmLook_spec hs (Nat.le_refl _) hm hi with ⟨j, d, hlook, hat⟩ | ⟨hlook, hocc⟩ | ⟨hlook, hend⟩
    · rw [hlook]
      constructor
      · rintro ⟨pi, heq⟩
        cases heq
        exact ⟨j, hat⟩
      · rintro ⟨j', hat'⟩
        obtain rfl := hat.2.1.unique hat'.2.1
        rw [Option.some.inj (hat.2.2.symm.trans hat'.2.2)]
        exact ⟨j, rfl⟩
    · rw [hlook]
      refine iff_of_false ?_ fun ⟨j, hat⟩ => hocc.not_stops hat.2.1
      rintro ⟨pi, heq⟩
      cases heq
    · rw [hlook]
      refine iff_of_false ?_ fun ⟨j, hat⟩ => by have hin := hat.1; omega
      rintro ⟨pi, heq⟩
      cases heq
  have hturn : ∀ i : Nat, i ≤ s.used + 1 →
      (∃ c, (∃ pi, bmLook s str str.bytes.length i = .ok (.inl (pi, c))) ∧ (schar c = uchar c →
        ∃ i' : Nat, bmTurn schar s str str.bytes.length bmBc bmGs i = .ok (.inl (i' : Int)) ∧
          MovesAtStop s.sym s.used str.sym str.bytes.length i i')) ∨
      ∃ r, bmTurn schar s str str.bytes.length bmBc bmGs i = .ok (.inr r) ∧
        ∀ i', ¬MovesAtStop s.sym s.used str.sym str.bytes.length i i' := by
    intro i hi
    rcases bmLook_spec hs (Nat.le_refl _) hm hi with ⟨j, c, hlook, hat⟩ | ⟨hlook, hocc⟩ | ⟨hlook, hend⟩
    · left
      exact ⟨c, ⟨j, hlook⟩, hat.turn hlook hbc hgs⟩
    · right
      refine ⟨i, ?_, fun i' hmoves => hmoves.not_occurs hocc⟩
      rw [bmTurn_eq, hlook, ok_bind]
    · right
      refine ⟨-1, ?_, fun i' hmoves => by have hin := hmoves.1; omega⟩
      rw [bmTurn_eq, hlook, ok_bind]
  have hrule := loop_inTable_iff (MovesAtStop s.sym s.used str.sym str.bytes.length)
    (fun ti c => ∃ pi, bmLook s str str.bytes.length ti = .ok (.inl (pi, c)))
    (fun i c => ∃ j, AtStop s str str.bytes.length i j c) (fun i x y hx hy => hx.unique hy)
    (fun i i' h => Nat.le_succ_of_le h.bounds.2) hlooks
    (fun i c ⟨j, hat⟩ => by have hin := hat.1; omega) hturn (Nat.le_succ_of_le hbegin)
  rw [hrule]
  constructor
  · intro h i j c hway hat
    exact h i c hway ⟨j, hat⟩
  · rintro h i c hway ⟨j, hat⟩
    exact h i j c hway hat

/-! ## The functions -/

theorem begun_iff (hs : s.Text) (hm1 : 1 ≤ str.bytes.length) (hmax : str.bytes.length < searchMaxLen) :
    Begun s str.bytes.length begin ↔ begin + str.bytes.length ≤ s.used := by
  have hlt := hs.used_lt
  simp only [searchMaxLen] at hmax
  simp only [Begun, searchMaxLen]
  by_cases hused : begin > s.used
  · exact iff_of_false (fun h => h.1 hused) (by omega)
  · rw [unsigned_add (by omega)]
    omega

theorem badChar_inTable_iff (hmax : str.bytes.length < searchMaxLen) :
    (∀ index, BadCharIndex schar str str.bytes.length index → InTable index) ↔ Ascii str := by
  have hturns : unsigned str.bytes.length = str.bytes.length := unsigned_natCast (Nat.lt_trans hmax (by decide))
  rw [← fill_inTable_iff id]
  constructor
  · intro h i table c hi htable hc
    exact h _ (.fill (by rw [hturns]; exact hi) htable hc)
  · intro h index hindex
    cases hindex with
    | start hi => exact inTable_natCast hi
    | fill hi htable hc => exact h _ _ _ (by rw [hturns] at hi; exact hi) htable hc

theorem sunday_inTable_iff (hs : s.Text) (hm1 : 1 ≤ str.bytes.length) (hmax : str.bytes.length < searchMaxLen) :
    (Begun s str.bytes.length begin → ∀ index, SundayIndex schar s str begin str.bytes.length index → InTable index) ↔
      (begin + str.bytes.length ≤ s.used → Ascii str ∧ BehindAscii s str begin) := by
  rw [begun_iff hs hm1 hmax]
  refine imp_congr_right fun hin => ?_
  have hint : i32 begin = begin := by
    have hlt := hs.used_lt
    exact i32_eq (by omega) (by omega)
  have hinit : (str.bytes.length : Int) + 1 = str.bytes.length - -1 := by omega
  obtain ⟨shift, hshift, hspec⟩ := sundayShift_spec (Nat.le_refl str.bytes.length)
  have hloop := sundayLoop_inTable_iff hs (by omega) (show begin ≤ s.used by omega) hspec
  have htable : Ascii str → sundayShift schar str str.bytes.length = .ok shift := by
    intro h
    rw [sundayShift_eq, h.placeTable_eq _ (Nat.le_refl _), ← sundayShift_eq, hshift]
  constructor
  · intro h
    have hascii : Ascii str := by
      rw [← fill_inTable_iff fun k => str.bytes.length - k]
      intro i table c hi htable hc
      have hfilled : forUp (sundayEntry schar str str.bytes.length) i 0
          (List.replicate searchMaxLen (some ((str.bytes.length : Int) + 1))) = .ok table := by
        rw [hinit]
        exact htable
      exact h _ (.fill hi hfilled hc)
    refine ⟨hascii, hloop.1 fun ti hti c hlook => ?_⟩
    refine h _ (.move (htable hascii) ?_ hlook)
    rw [hint]
    exact hti
  · rintro ⟨hascii, hbehind⟩ index hindex
    cases hindex with
    | start hi => exact inTable_natCast hi
    | fill hi htable hc =>
      rw [hinit] at htable
      exact (fill_inTable_iff fun k => str.bytes.length - k).2 hascii _ _ _ hi htable hc
    | move hshift' hti hlook =>
      rw [hint] at hti
      obtain rfl := Except.ok.inj ((htable hascii).symm.trans hshift')
      exact hloop.2 hbehind _ hti _ hlook

theorem boyerMoore_inTable_iff (hs : s.Text) (hm1 : 1 ≤ str.bytes.length) (hmax : str.bytes.length < searchMaxLen) :
    (Begun s str.bytes.length begin →
      ∀ index, BoyerMooreIndex schar s str begin str.bytes.length index → InTable index) ↔
      (begin + str.bytes.length ≤ s.used → Ascii str ∧ AtStopAscii s str begin) := by
  rw [begun_iff hs hm1 hmax]
  refine imp_congr_right fun hin => ?_
  have hint : i32 begin = begin := by
    have hlt := hs.used_lt
    exact i32_eq (by omega) (by omega)
  obtain ⟨bmBc, hbc, hplaces⟩ := bmBadCharShiftTable_spec (Nat.le_refl str.bytes.length) hmax
  obtain ⟨bmGs, hgs, hgood⟩ := bmGoodSuffixShiftTable_spec hm1 (Nat.le_refl str.bytes.length)
  have hloop := bmLoop_inTable_iff hs (by omega) (show begin ≤ s.used by omega) hplaces hgood
  have htable : Ascii str → bmBadCharShiftTable schar str str.bytes.length = .ok bmBc := by
    intro h
    rw [bmBadCharShiftTable_eq _ _ hmax, h.placeTable_eq _ (Nat.le_refl _), ← bmBadCharShiftTable_eq _ _ hmax, hbc]
  constructor
  · intro h
    have hascii : Ascii str := (badChar_inTable_iff hmax).1 fun index hindex => h index (.fill hindex)
    refine ⟨hascii, hloop.1 fun ti hti c ⟨pi, hlook⟩ => ?_⟩
    refine h _ (.move (htable hascii) hgs ?_ hlook)
    rw [hint]
    exact hti
  · rintro ⟨hascii, hstop⟩ index hindex
    cases hindex with
    | fill hfill => exact (badChar_inTable_iff hmax).2 hascii index hfill
    | move hbc' hgs' hti hlook =>
      rw [hint] at hti
      obtain rfl := Except.ok.inj ((htable hascii).symm.trans hbc')
      obtain rfl := Except.ok.inj (hgs.symm.trans hgs')
      exact hloop.2 hstop _ hti _ ⟨_, hlook⟩

end

/-- **Where a plain `char` is signed, the indices of the tables are in range** exactly if the search returns before it
has a table, or the pattern is ASCII and so is each byte that is looked up on the way of the window. -/
theorem tables_iff {s : Cstr} (hv : s.Valid) (str : CString) (hm1 : 1 ≤ str.bytes.length)
    (hmax : str.bytes.length < 256) (begin : Nat) :
    (SundayInTable schar s str begin ↔
        (begin + str.bytes.length ≤ s.used → Ascii str ∧ BehindAscii s str begin)) ∧
      (BadCharInTable schar str ↔ Ascii str) ∧
      (BoyerMooreInTable schar s str begin ↔
        (begin + str.bytes.length ≤ s.used → Ascii str ∧ AtStopAscii s str begin)) := by
  have hlen : i32 str.bytes.length = str.bytes.length := i32_eq (by omega) (by omega)
  rw [SundayInTable, BadCharInTable, BoyerMooreInTable, hlen]
  exact ⟨sunday_inTable_iff hv.text hm1 hmax, badChar_inTable_iff hmax, boyerMoore_inTable_iff hv.text hm1 hmax⟩

/-- "ab" in "cab". -/
theorem tables_cab :
    (SundayInTable schar (small [99, 97, 98]) ⟨[97, 98], by decide⟩ 0 ↔
        (0 + 2 ≤ 3 → Ascii ⟨[97, 98], by decide⟩ ∧ BehindAscii (small [99, 97, 98]) ⟨[97, 98], by decide⟩ 0)) ∧
      (BadCharInTable schar ⟨[97, 98], by decide⟩ ↔ Ascii ⟨[97, 98], by decide⟩) ∧
      (BoyerMooreInTable schar (small [99, 97, 98]) ⟨[97, 98], by decide⟩ 0 ↔
        (0 + 2 ≤ 3 → Ascii ⟨[97, 98], by decide⟩ ∧ AtStopAscii (small [99, 97, 98]) ⟨[97, 98], by decide⟩ 0)) :=
  tables_iff (small_valid (by decide)) ⟨[97, 98], by decide⟩ (by decide) (by decide) 0

/-- "ä" in "ä", in UTF-8: its first byte is the index -61. -/
theorem not_tables_umlaut :
    ¬SundayInTable schar (small [195, 164]) ⟨[195, 164], by decide⟩ 0 ∧
      ¬BadCharInTable schar ⟨[195, 164], by decide⟩ ∧
      ¬BoyerMooreInTable schar (small [195, 164]) ⟨[195, 164], by decide⟩ 0 := by
  have hout : ¬InTable (schar 195) := by
    rw [inTable_schar_iff]
    decide
  have hbegun : Begun (small [195, 164]) (i32 ([195, 164] : List Byte).length) 0 := by
    unfold Begun
    decide +kernel
  have hfirst : BadCharIndex schar ⟨[195, 164], by decide⟩ (i32 ([195, 164] : List Byte).length) (schar 195) :=
    .fill (by decide +kernel : 0 < unsigned (i32 ([195, 164] : List Byte).length)) rfl rfl
  refine ⟨fun h => ?_, fun h => hout (h _ hfirst), fun h => hout (h hbegun _ (.fill hfirst))⟩
  exact hout (h hbegun _ (.fill (by decide +kernel : 0 < (i32 ([195, 164] : List Byte).length).toNat) rfl rfl))

end TinyUtils.Cstr
