import TinyUtils.Lib.Checked
import TinyUtils.Lib.Loop
import TinyUtils.Lib.Pieces
/-!
# UTF-8 (`c_utils/utf8_substr.cpp`)

Both loops take the length of a character from its first byte, look at no other byte of it, and go on until the index
is the length of the string. If the last character is cut off, the index gets past that and does not stop there: the
next byte is read outside of the string. So `utf8_to_charset` is fine exactly on strings of whole characters
(`utf8_safe_iff`), and on these `utf8_substr` returns what is between two positions of the list of characters
(`utf8_agree`). `utf8_substr` may have enough characters before it gets there (`utf8Substr_returns_iff`).

To read outside of a string is a fault, also to read the NUL behind it, which the standard permits; `substr` throws if it
begins outside. A `size_t` is a `Nat`: the indices and the counts are at most a few more than the length of a string.

| here | there |
| --- | --- |
| `announced`                    | the length of a character by its first byte (`:12-23`, `:38-43`) |
| `charsetTurn`, `utf8ToCharset` | `utf8_to_charset` (`:7`) |
| `Cursor`, `substrTurn`, `utf8Substr` | `utf8_substr` (`:29`) and its variables |
-/

namespace TinyUtils.Utf8

open Checked Loops Pieces

/-- What stops a call. -/
inductive Fault
  /-- `input[i]` outside of the string -/
  | read
  /-- `substr` throws -/
  | outOfRange
deriving DecidableEq, Repr

abbrev M := Except Fault

def announced (byte : UInt8) : Nat :=
  if byte ≥ 0xFC then 6
  else if byte ≥ 0xF8 then 5
  else if byte ≥ 0xF0 then 4
  else if byte ≥ 0xE0 then 3
  else if byte ≥ 0xC0 then 2
  else 1

/-- `input[i]` -/
def charAt (input : List UInt8) (i : Nat) : M UInt8 :=
  match input[i]? with
  | some c => .ok c
  | none => .error .read

/-- `input.substr(pos,n)` -/
def substr (input : List UInt8) (pos n : Nat) : M (List UInt8) :=
  if pos ≤ input.length then .ok ((input.drop pos).take n) else .error .outOfRange

/-- The loop with `i` and `output`; it returns `output` and its size. -/
def charsetTurn (input : List UInt8) (st : Nat × List (List UInt8)) :
    M ((Nat × List (List UInt8)) ⊕ (Nat × List (List UInt8))) :=
  if st.1 = input.length then .ok (.inr (st.2.length, st.2))
  else do
    let byte ← charAt input st.1
    let ch ← substr input st.1 (announced byte)
    .ok (.inl (st.1 + announced byte, st.2 ++ [ch]))

def utf8ToCharset (input : List UInt8) (output : List (List UInt8)) : Fuelled Fault (Nat × List (List UInt8)) :=
  loop (charsetTurn input) (0, output)

structure Cursor where
  i : Nat
  curPos : Nat
  addedLen : Nat
  returnStr : List UInt8

def substrTurn (input : List UInt8) (pos length : Nat) (st : Cursor) : M (Cursor ⊕ List UInt8) :=
  if st.i = input.length then .ok (.inr st.returnStr)
  else do
    let byte ← charAt input st.i
    if st.curPos + 1 < pos then .ok (.inl ⟨st.i + announced byte, st.curPos + 1, st.addedLen, st.returnStr⟩)
    else do
      let ch ← substr input st.i (announced byte)
      if st.addedLen + 1 = length then .ok (.inr (st.returnStr ++ ch))
      else .ok (.inl ⟨st.i + announced byte, st.curPos + 1, st.addedLen + 1, st.returnStr ++ ch⟩)

def utf8Substr (input : List UInt8) (pos length : Nat) : Fuelled Fault (List UInt8) :=
  if length = 0 then pure [] else loop (substrTurn input pos length) ⟨0, 0, 0, []⟩

/-! ## Turns -/

variable {input rest : List UInt8} {i pos length : Nat} {x : UInt8}

theorem announced_pos (byte : UInt8) : 0 < announced byte := by
  unfold announced
  repeat' split
  all_goals decide

theorem charAt_head (h : From input i (x :: rest)) : charAt input i = .ok x := by
  rw [charAt, h.head]

theorem substr_piece (h : From input i (x :: rest)) :
    substr input i (announced x) = .ok (x :: rest.take (announced x - 1)) := by
  rw [substr, if_pos h.le, h.take (announced_pos x)]

theorem charAt_past (h : input.length < i) : charAt input i = .error .read := by
  rw [charAt, List.getElem?_eq_none (Nat.le_of_lt h)]

theorem ne_length (h : From input i (x :: rest)) : i ≠ input.length := by
  intro hend
  cases h.nil_iff.1 hend

theorem charsetTurn_end (h : From input i []) (output : List (List UInt8)) :
    charsetTurn input (i, output) = .ok (.inr (output.length, output)) := by
  rw [charsetTurn, if_pos (h.nil_iff.2 rfl)]

theorem charsetTurn_next (h : From input i (x :: rest)) (output : List (List UInt8)) :
    charsetTurn input (i, output) =
      .ok (.inl (i + announced x, output ++ [x :: rest.take (announced x - 1)])) := by
  simp only [charsetTurn, if_neg (ne_length h), charAt_head h, ok_bind, substr_piece h]

theorem charsetTurn_past (h : input.length < i) (output : List (List UInt8)) :
    charsetTurn input (i, output) = .error .read := by
  simp only [charsetTurn, if_neg (Nat.ne_of_gt h), charAt_past h]
  rfl

section
variable {curPos addedLen : Nat} {returnStr : List UInt8}

theorem substrTurn_end (h : From input i []) :
    substrTurn input pos length ⟨i, curPos, addedLen, returnStr⟩ = .ok (.inr returnStr) := by
  rw [substrTurn, if_pos (h.nil_iff.2 rfl)]

theorem substrTurn_skip (h : From input i (x :: rest)) (hpos : curPos + 1 < pos) :
    substrTurn input pos length ⟨i, curPos, addedLen, returnStr⟩ =
      .ok (.inl ⟨i + announced x, curPos + 1, addedLen, returnStr⟩) := by
  simp only [substrTurn, if_neg (ne_length h), charAt_head h, ok_bind, if_pos hpos]

theorem substrTurn_last (h : From input i (x :: rest)) (hpos : ¬curPos + 1 < pos) (hlast : addedLen + 1 = length) :
    substrTurn input pos length ⟨i, curPos, addedLen, returnStr⟩ =
      .ok (.inr (returnStr ++ x :: rest.take (announced x - 1))) := by
  simp only [substrTurn, if_neg (ne_length h), charAt_head h, ok_bind, if_neg hpos, substr_piece h, if_pos hlast]

theorem substrTurn_add (h : From input i (x :: rest)) (hpos : ¬curPos + 1 < pos) (hmore : ¬addedLen + 1 = length) :
    substrTurn input pos length ⟨i, curPos, addedLen, returnStr⟩ =
      .ok (.inl ⟨i + announced x, curPos + 1, addedLen + 1, returnStr ++ x :: rest.take (announced x - 1)⟩) := by
  simp only [substrTurn, if_neg (ne_length h), charAt_head h, ok_bind, if_neg hpos, substr_piece h, if_neg hmore]

theorem substrTurn_past (h : input.length < i) :
    substrTurn input pos length ⟨i, curPos, addedLen, returnStr⟩ = .error .read := by
  simp only [substrTurn, if_neg (Nat.ne_of_gt h), charAt_past h]
  rfl

end

/-! ## `utf8_to_charset` -/

theorem utf8ToCharset_whole (h : Whole announced input) (output : List (List UInt8)) :
    Returns (utf8ToCharset input output)
      ((output ++ split announced input).length, output ++ split announced input) := by
  let I : Nat × List (List UInt8) → List UInt8 → Prop := fun st rest =>
    From input st.1 rest ∧ Whole announced rest ∧ st.2 ++ split announced rest = output ++ split announced input
  let Q : Nat × List (List UInt8) → Prop := fun r =>
    r = ((output ++ split announced input).length, output ++ split announced input)
  have hturn : ∀ st rest, I st rest →
      (∃ st' rest', charsetTurn input st = .ok (.inl st') ∧ I st' rest' ∧ rest'.length < rest.length) ∨
        ∃ r, charsetTurn input st = .ok (.inr r) ∧ Q r := by
    rintro ⟨i, out⟩ rest ⟨hfrom, hwhole, hsplit⟩
    cases hwhole with
    | nil =>
      right
      have hout : out = output ++ split announced input := by
        rw [split_nil, List.append_nil] at hsplit
        exact hsplit
      subst hout
      exact ⟨_, charsetTurn_end hfrom _, rfl⟩
    | @cons x l hlen hrest =>
      left
      refine ⟨_, _, charsetTurn_next hfrom out, ⟨hfrom.next (announced_pos x) (hfrom.fits_iff.1 hlen), hrest, ?_⟩, ?_⟩
      · rw [← hsplit, split_cons, List.append_assoc, List.singleton_append]
      · rw [List.length_drop, List.length_cons]
        omega
  obtain ⟨r, hreturns, rfl⟩ := returns_loop List.length hturn (s := (0, output)) ⟨From.start input, h, rfl⟩
  exact hreturns

theorem utf8ToCharset_cut (h : ¬Whole announced input) (output : List (List UInt8)) :
    Stuck (utf8ToCharset input output) := by
  let I : Nat × List (List UInt8) → Prop := fun st => Off (Whole announced) input st.1
  have hturn : ∀ st, I st → (∃ st', charsetTurn input st = .ok (.inl st') ∧ I st') ∨
      ∃ e, charsetTurn input st = .error e := by
    rintro ⟨i, out⟩ (hpast | ⟨rest, hfrom, hcut⟩)
    · right
      exact ⟨_, charsetTurn_past hpast out⟩
    · cases rest with
      | nil => exact absurd Whole.nil hcut
      | cons x l =>
        left
        exact ⟨_, charsetTurn_next hfrom out, hfrom.off_next (announced_pos x) fun hx => hcut (whole_cons_iff.2 hx)⟩
  exact stuck_loop hturn (Or.inr ⟨input, From.start input, h⟩)

/-! ## `utf8_substr` -/

/-- How many characters the loop has still to pass and to add. -/
def toGo (pos length curPos addedLen : Nat) : Nat := pos - 1 - curPos + (length - addedLen)

/-- The loop has `rest` in front of it, and what it has and what it adds of it are together `target`. -/
structure Scans (input : List UInt8) (pos length : Nat) (target : List UInt8) (st : Cursor) (rest : List UInt8) :
    Prop where
  ahead : From input st.i rest
  room : st.addedLen < length
  covers : Covers announced (toGo pos length st.curPos st.addedLen) rest
  total : st.returnStr ++ (((split announced rest).drop (pos - 1 - st.curPos)).take (length - st.addedLen)).flatten =
    target

section
variable {target : List UInt8} {curPos addedLen : Nat} {returnStr : List UInt8}

theorem toGo_skip (hpos : curPos + 1 < pos) (hroom : addedLen < length) :
    0 < toGo pos length (curPos + 1) addedLen ∧
      toGo pos length curPos addedLen = toGo pos length (curPos + 1) addedLen + 1 := by
  unfold toGo
  omega

theorem toGo_add (hpos : ¬curPos + 1 < pos) (hroom : addedLen + 1 < length) :
    0 < toGo pos length (curPos + 1) (addedLen + 1) ∧
      toGo pos length curPos addedLen = toGo pos length (curPos + 1) (addedLen + 1) + 1 := by
  unfold toGo
  omega

theorem Scans.skip (h : Scans input pos length target ⟨i, curPos, addedLen, returnStr⟩ (x :: rest))
    (hpos : curPos + 1 < pos) :
    Scans input pos length target ⟨i + announced x, curPos + 1, addedLen, returnStr⟩
      (rest.drop (announced x - 1)) := by
  have hcovers := h.covers
  have htotal := h.total
  have hcount : pos - 1 - curPos = pos - 1 - (curPos + 1) + 1 := by omega
  obtain ⟨hmore, hgo⟩ := toGo_skip hpos h.room
  rw [hgo, covers_cons_iff hmore] at hcovers
  simp only [split_cons, hcount, List.drop_succ_cons] at htotal
  exact ⟨h.ahead.next (announced_pos x) (h.ahead.fits_iff.1 hcovers.1), h.room, hcovers.2, htotal⟩

theorem Scans.add (h : Scans input pos length target ⟨i, curPos, addedLen, returnStr⟩ (x :: rest))
    (hpos : ¬curPos + 1 < pos) (hmore : addedLen + 1 < length) :
    Scans input pos length target
      ⟨i + announced x, curPos + 1, addedLen + 1, returnStr ++ x :: rest.take (announced x - 1)⟩
      (rest.drop (announced x - 1)) := by
  have hcovers := h.covers
  have htotal := h.total
  have hcount : pos - 1 - curPos = 0 := by omega
  have hcount' : pos - 1 - (curPos + 1) = 0 := by omega
  have hleft : length - addedLen = length - (addedLen + 1) + 1 := by omega
  obtain ⟨hsome, hgo⟩ := toGo_add hpos hmore
  rw [hgo, covers_cons_iff hsome] at hcovers
  refine ⟨h.ahead.next (announced_pos x) (h.ahead.fits_iff.1 hcovers.1), hmore, hcovers.2, ?_⟩
  simp only [split_cons, hcount, hleft, List.drop_zero, List.take_succ_cons, List.flatten_cons] at htotal
  simpa only [hcount', List.drop_zero, List.append_assoc] using htotal

theorem Scans.last (h : Scans input pos length target ⟨i, curPos, addedLen, returnStr⟩ (x :: rest))
    (hpos : ¬curPos + 1 < pos) (hlast : addedLen + 1 = length) :
    returnStr ++ x :: rest.take (announced x - 1) = target := by
  have htotal := h.total
  have hcount : pos - 1 - curPos = 0 := by omega
  have hleft : length - addedLen = 1 := by omega
  simpa only [split_cons, hcount, hleft, List.drop_zero, List.take_succ_cons, List.take_zero, List.flatten_cons,
    List.flatten_nil, List.append_nil] using htotal

theorem Scans.done (h : Scans input pos length target ⟨i, curPos, addedLen, returnStr⟩ []) : returnStr = target := by
  have htotal := h.total
  simpa only [split_nil, List.drop_nil, List.take_nil, List.flatten_nil, List.append_nil] using htotal

end

/-- There are characters enough, or none is cut off. -/
theorem utf8Substr_returns (h : Covers announced (pos - 1 + length) input) (hlength : 0 < length) :
    Returns (utf8Substr input pos length) (((split announced input).drop (pos - 1)).take length).flatten := by
  let target := (((split announced input).drop (pos - 1)).take length).flatten
  have hturn : ∀ st rest, Scans input pos length target st rest →
      (∃ st' rest', substrTurn input pos length st = .ok (.inl st') ∧ Scans input pos length target st' rest' ∧
        rest'.length < rest.length) ∨ ∃ r, substrTurn input pos length st = .ok (.inr r) ∧ r = target := by
    rintro ⟨i, curPos, addedLen, returnStr⟩ rest hscans
    cases rest with
    | nil =>
      right
      exact ⟨_, substrTurn_end hscans.ahead, hscans.done⟩
    | cons x l =>
      have hdown : (l.drop (announced x - 1)).length < (x :: l).length := by
        rw [List.length_drop, List.length_cons]
        omega
      by_cases hpos : curPos + 1 < pos
      · left
        exact ⟨_, _, substrTurn_skip hscans.ahead hpos, hscans.skip hpos, hdown⟩
      · by_cases hlast : addedLen + 1 = length
        · right
          exact ⟨_, substrTurn_last hscans.ahead hpos hlast, hscans.last hpos hlast⟩
        · left
          have hroom := hscans.room
          exact ⟨_, _, substrTurn_add hscans.ahead hpos hlast, hscans.add hpos (Nat.lt_of_le_of_ne hroom hlast), hdown⟩
  have hstart : Scans input pos length target ⟨0, 0, 0, []⟩ input := ⟨From.start input, hlength, h, rfl⟩
  obtain ⟨r, hreturns, rfl⟩ := returns_loop List.length hturn hstart
  rw [utf8Substr, if_neg (Nat.ne_of_gt hlength)]
  exact hreturns

theorem utf8Substr_cut (h : ¬Covers announced (pos - 1 + length) input) (hlength : 0 < length) :
    Stuck (utf8Substr input pos length) := by
  let I : Cursor → Prop := fun st => st.addedLen < length ∧ Off (Covers announced (toGo pos length st.curPos st.addedLen)) input st.i
  have hturn : ∀ st, I st → (∃ st', substrTurn input pos length st = .ok (.inl st') ∧ I st') ∨
      ∃ e, substrTurn input pos length st = .error e := by
    rintro ⟨i, curPos, addedLen, returnStr⟩ ⟨hroom, hpast | ⟨rest, hfrom, hcut⟩⟩
    · right
      exact ⟨_, substrTurn_past hpast⟩
    · cases rest with
      | nil => exact absurd (covers_nil _) hcut
      | cons x l =>
        left
        by_cases hpos : curPos + 1 < pos
        · obtain ⟨hmore, hgo⟩ := toGo_skip hpos hroom
          rw [hgo, covers_cons_iff hmore] at hcut
          exact ⟨_, substrTurn_skip hfrom hpos, hroom, hfrom.off_next (announced_pos x) hcut⟩
        · have hmore : addedLen + 1 ≠ length := by
            -- the character that is added last may be cut off
            intro hlast
            have hone : toGo pos length curPos addedLen = 1 := by
              unfold toGo
              omega
            simp only [hone] at hcut
            exact hcut (covers_one x l)
          have hroom' : addedLen + 1 < length := Nat.lt_of_le_of_ne hroom hmore
          obtain ⟨hsome, hgo⟩ := toGo_add hpos hroom'
          rw [hgo, covers_cons_iff hsome] at hcut
          exact ⟨_, substrTurn_add hfrom hpos hmore, hroom', hfrom.off_next (announced_pos x) hcut⟩
  rw [utf8Substr, if_neg (Nat.ne_of_gt hlength)]
  exact stuck_loop hturn ⟨hlength, Or.inr ⟨input, From.start input, h⟩⟩

/-- What it returns, it returns when there are characters enough or none is cut off. -/
theorem utf8Substr_returns_iff (input : List UInt8) (pos length : Nat) :
    (∃ str, Returns (utf8Substr input pos length) str) ↔ length = 0 ∨ Covers announced (pos - 1 + length) input := by
  rcases Nat.eq_zero_or_pos length with rfl | hlength
  · exact ⟨fun _ => Or.inl rfl, fun _ => ⟨[], Returns.pure []⟩⟩
  · constructor
    · rintro ⟨str, hstr⟩
      right
      apply Classical.byContradiction
      intro hcut
      exact (utf8Substr_cut hcut hlength).not_returns str hstr
    · rintro (hzero | hcovers)
      · omega
      · exact ⟨_, utf8Substr_returns hcovers hlength⟩

theorem utf8Substr_whole (h : Whole announced input) (pos length : Nat) :
    Returns (utf8Substr input pos length) (((split announced input).drop (pos - 1)).take length).flatten := by
  rcases Nat.eq_zero_or_pos length with rfl | hlength
  · rw [List.take_zero, List.flatten_nil]
    exact Returns.pure []
  · exact utf8Substr_returns (Or.inl h) hlength

/-! ## Both -/

/-- A text: each first byte has the bytes behind it that it announces. -/
inductive WellFormed : List UInt8 → Prop
  | nil : WellFormed []
  | cons {lead : UInt8} {tail rest : List UInt8} :
      lead < 0x80 ∨ 0xC0 ≤ lead → tail.length + 1 = announced lead → (∀ byte ∈ tail, 0x80 ≤ byte ∧ byte < 0xC0) →
        WellFormed rest → WellFormed (lead :: (tail ++ rest))

theorem WellFormed.whole (h : WellFormed input) : Whole announced input := by
  induction h with
  | nil => exact Whole.nil
  | cons _ htail _ _ ih => exact Whole.append htail ih

/-- **On a text, `utf8_substr` returns the characters of `utf8_to_charset` from one position on**, which counts from 1;
and together these are the text. -/
theorem utf8_agree (h : WellFormed input) :
    ∃ chars, Returns (utf8ToCharset input []) (chars.length, chars) ∧ chars.flatten = input ∧
      ∀ pos length, Returns (utf8Substr input pos length) ((chars.drop (max pos 1 - 1)).take length).flatten := by
  refine ⟨split announced input, ?_, flatten_split announced input, ?_⟩
  · exact utf8ToCharset_whole h.whole []
  · intro pos length
    have hpos : max pos 1 - 1 = pos - 1 := by omega
    rw [hpos]
    exact utf8Substr_whole h.whole pos length

theorem small_wellFormed : WellFormed [0xE5, 0xAD, 0x97, 0x61] := by
  change WellFormed (0xE5 :: ([0xAD, 0x97] ++ 0x61 :: ([] ++ [])))
  have htail : ∀ byte ∈ [(0xAD : UInt8), 0x97], 0x80 ≤ byte ∧ byte < 0xC0 :=
    List.forall_mem_cons.2 ⟨by decide, List.forall_mem_singleton.2 (by decide)⟩
  refine .cons (by decide) rfl htail ?_
  exact .cons (by decide) rfl (List.forall_mem_nil _) .nil

theorem utf8_agree_small : ∃ chars, Returns (utf8ToCharset [0xE5, 0xAD, 0x97, 0x61] []) (chars.length, chars) ∧
    chars.flatten = [0xE5, 0xAD, 0x97, 0x61] ∧ ∀ pos length,
      Returns (utf8Substr [0xE5, 0xAD, 0x97, 0x61] pos length) ((chars.drop (max pos 1 - 1)).take length).flatten :=
  utf8_agree small_wellFormed

/-- **Both are safe exactly on strings of whole characters**: `utf8_to_charset` ends, within the string, with pieces that
are together the string, and `utf8_substr` ends within the string. -/
theorem utf8_safe_iff (input : List UInt8) (output : List (List UInt8)) (pos length : Nat) :
    ((∃ pieces, Returns (utf8ToCharset input output) ((output ++ pieces).length, output ++ pieces) ∧
        pieces.flatten = input) ∧ ∃ str, Returns (utf8Substr input pos length) str) ↔ Whole announced input := by
  constructor
  · rintro ⟨⟨pieces, hpieces, _⟩, _⟩
    apply Classical.byContradiction
    intro hcut
    exact (utf8ToCharset_cut hcut output).not_returns _ hpieces
  · intro h
    refine ⟨⟨split announced input, utf8ToCharset_whole h output, flatten_split announced input⟩, ?_⟩
    exact ⟨_, utf8Substr_whole h pos length⟩

/-- Two bytes of a character of three: the index gets from 0 to 3, past the end of the string. -/
theorem not_utf8_safe_cut :
    ¬((∃ pieces, Returns (utf8ToCharset [0xE5, 0xAD] []) (([] ++ pieces).length, [] ++ pieces) ∧
        pieces.flatten = [0xE5, 0xAD]) ∧ ∃ str, Returns (utf8Substr [0xE5, 0xAD] 1 2) str) := by
  have hcut : ¬Whole announced [0xE5, 0xAD] := by
    intro h
    exact absurd (whole_cons_iff.1 h).1 (by decide)
  rintro ⟨⟨pieces, hpieces, _⟩, _⟩
  exact (utf8ToCharset_cut hcut []).not_returns _ hpieces

end TinyUtils.Utf8
