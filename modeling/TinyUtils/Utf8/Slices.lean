import TinyUtils.Utf8
/-!
# Slices of a text

On strings of whole characters the calls of `utf8_substr` are slices of the list of characters, so they compose as slices
do (`utf8Substr_slices`). The encoding of a list of Unicode characters is such a string, whatever the characters are: its
characters are the encodings of these, and `utf8_substr` of it is the encoding of a slice (`utf8Substr_encode`).

| here | there |
| --- | --- |
| `encode` | `std::string` with a text in UTF-8, as `s` of `main` (`:57`) |
-/

namespace TinyUtils.Utf8

open Loops Pieces

variable {input : List UInt8}

/-- The position that `pos` stands for: 0 is the same as 1. -/
def front (pos : Nat) : Nat := pos - 1

/-! ## Slices of slices -/

theorem split_slice (h : Whole announced input) (pos length : Nat) :
    split announced (((split announced input).drop pos).take length).flatten =
        ((split announced input).drop pos).take length ∧
      Whole announced (((split announced input).drop pos).take length).flatten :=
  split_flatten fun p hp => h.pieces announced_pos p (List.mem_of_mem_drop (List.mem_of_mem_take hp))

/-- **Slices compose**: a slice of a slice is a slice, and two slices one behind the other are one. -/
theorem utf8Substr_slices (h : Whole announced input) (pos length pos' length' : Nat) :
    (∃ str, Returns (utf8Substr input pos length >>= fun s => utf8Substr s pos' length') str ∧
        Returns (utf8Substr input (front pos + front pos' + 1) (min length' (length - front pos'))) str) ∧
      ∃ str str', Returns (utf8Substr input pos length) str ∧
        Returns (utf8Substr input (front pos + length + 1) length') str' ∧
        Returns (utf8Substr input pos (length + length')) (str ++ str') := by
  constructor
  · obtain ⟨hsplit, hwhole⟩ := split_slice h (pos - 1) length
    have hinner := utf8Substr_whole hwhole pos' length'
    rw [hsplit] at hinner
    refine ⟨_, (utf8Substr_whole h pos length).bind hinner, ?_⟩
    have houter := utf8Substr_whole h (front pos + front pos' + 1) (min length' (length - front pos'))
    rwa [Nat.add_sub_cancel, ← List.drop_drop, ← List.take_take, ← List.drop_take] at houter
  · refine ⟨_, _, utf8Substr_whole h pos length, utf8Substr_whole h (front pos + length + 1) length', ?_⟩
    have hboth := utf8Substr_whole h pos (length + length')
    rwa [List.take_add, List.flatten_append, List.drop_drop] at hboth

/-- The second character of the first two. -/
theorem slices_small :
    (∃ str, Returns (utf8Substr [0xE5, 0xAD, 0x97, 0x61] 1 2 >>= fun s => utf8Substr s 2 1) str ∧
        Returns (utf8Substr [0xE5, 0xAD, 0x97, 0x61] (front 1 + front 2 + 1) (min 1 (2 - front 2))) str) ∧
      ∃ str str', Returns (utf8Substr [0xE5, 0xAD, 0x97, 0x61] 1 2) str ∧
        Returns (utf8Substr [0xE5, 0xAD, 0x97, 0x61] (front 1 + 2 + 1) 1) str' ∧
        Returns (utf8Substr [0xE5, 0xAD, 0x97, 0x61] 1 (2 + 1)) (str ++ str') :=
  utf8Substr_slices small_wellFormed.whole 1 2 2 1

/-! ## Unicode -/

/-- The text of these characters. -/
def encode (cs : List Char) : List UInt8 := (cs.map String.utf8EncodeChar).flatten

theorem announced_ofNat {n : Nat} (h : n < 256) :
    announced (UInt8.ofNat n) = if n ≥ 0xFC then 6 else if n ≥ 0xF8 then 5 else if n ≥ 0xF0 then 4
      else if n ≥ 0xE0 then 3 else if n ≥ 0xC0 then 2 else 1 := by
  have hge : ∀ k : Nat, k < 256 → (UInt8.ofNat n ≥ UInt8.ofNat k ↔ n ≥ k) := by
    intro k hk
    rw [ge_iff_le, UInt8.le_iff_toNat_le, UInt8.toNat_ofNat_of_lt' hk, UInt8.toNat_ofNat_of_lt' h]
  simp only [announced, ← hge _ (by decide : 0xFC < 256), ← hge _ (by decide : 0xF8 < 256),
    ← hge _ (by decide : 0xF0 < 256), ← hge _ (by decide : 0xE0 < 256), ← hge _ (by decide : 0xC0 < 256)]
  rfl

/-- The first byte of an encoded character announces its length. -/
theorem piece_utf8EncodeChar (c : Char) : Piece announced (String.utf8EncodeChar c) := by
  fun_cases String.utf8EncodeChar with
  | case1 v h | case2 v _ h | case3 v _ _ h | case4 v _ _ h =>
    clear_value v
    refine ⟨List.cons_ne_nil _ _, ?_⟩
    rw [List.head_cons, announced_ofNat (by omega)]
    repeat' split
    all_goals simp
    all_goals omega

theorem split_encode (cs : List Char) :
    split announced (encode cs) = cs.map String.utf8EncodeChar ∧ Whole announced (encode cs) := by
  apply split_flatten
  intro p hp
  obtain ⟨c, _, rfl⟩ := List.mem_map.1 hp
  exact piece_utf8EncodeChar c

/-- **Both work on characters**: `utf8_to_charset` gives the encodings of the characters of a text, and `utf8_substr` the
encoding of those from one position on. -/
theorem utf8Substr_encode (cs : List Char) (pos length : Nat) :
    Returns (utf8ToCharset (encode cs) []) (cs.length, cs.map String.utf8EncodeChar) ∧
      Returns (utf8Substr (encode cs) pos length) (encode ((cs.drop (front pos)).take length)) := by
  obtain ⟨hsplit, hwhole⟩ := split_encode cs
  constructor
  · have hchars := utf8ToCharset_whole hwhole []
    rwa [hsplit, List.nil_append, List.length_map] at hchars
  · have hslice := utf8Substr_whole hwhole pos length
    rwa [hsplit, ← List.map_drop, ← List.map_take] at hslice

end TinyUtils.Utf8
