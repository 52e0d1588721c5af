import TinyUtils.Lib.Checked
import TinyUtils.Lib.Radix
import TinyUtils.Lib.Strip
/-!
# `MylibConfig` (`python_utils/mylib_config.py`)

The getters of a configuration file. An item that holds a list is one text with commas. `GetStrListValue` splits it,
and the other three take it for the list itself: they convert `values[i]`, which is its `i`-th character.

| here | there |
| --- | --- |
| `MylibConfig.get`    | `self.config.get(section, item)`, from the standard library: any text, or an error |
| `getStrValue`, `getIntValue`, `getFloatValue`, `getHexIntValue` | `:10-20` |
| `getStrListValue`    | `GetStrListValue` (`:22`) |
| `getIntListValue`, `getFloatListValue`, `getHexIntListValue` | `:26-36` |
| `int base text`      | `int(text)`, `int(text, base=16)` |
| `decimal`, `hexadecimal` | `"%d" % x`; `"%x" % x` and its variants, for an item of the file |

What `float` gives is an argument.
-/

namespace TinyUtils.Config

open Checked Radix Strip

/-- `str` -/
abbrev Text := List Char

inductive PyError where
  /-- `ValueError: invalid literal for int() with base 10: ','` -/
  | invalidLiteral (base : Nat) (text : Text)
  /-- `ValueError: could not convert string to float: ,` -/
  | notFloat (text : Text)
  /-- `NoSectionError`, `NoOptionError` -/
  | noItem (sect item : Text)

/-- `isspace` -/
def isSpace (c : Char) : Bool := c.toNat = 32 || (9 ≤ c.toNat && c.toNat ≤ 13)

def sign : Text → Bool × Text
  | '-' :: cs => (true, cs)
  | '+' :: cs => (false, cs)
  | cs => (false, cs)

/-- In base 16 the digits may stand behind `0x` or `0X`. -/
def skipMark (base : Nat) : Text → Text
  | '0' :: c :: cs => if base = 16 ∧ (c = 'x' ∨ c = 'X') then cs else '0' :: c :: cs
  | cs => cs

/-- `int(text, base)`: blanks, a sign and at least one digit, then blanks. -/
def int (base : Nat) (text : Text) : Except PyError Int :=
  let signed := sign (strip isSpace text)
  let cs := skipMark base signed.2
  match if cs = [] then none else parse base cs 0 with
  | some n => .ok (if signed.1 then -n else n)
  | none => .error (.invalidLiteral base text)

/-- `[convert(values[i]) for i in range(0,len(values))]` -/
def eachChar {α : Type} (convert : Text → Except PyError α) (values : Text) : Except PyError (List α) :=
  values.mapM fun c => convert [c]

structure MylibConfig where
  get : Text → Text → Except PyError Text

namespace MylibConfig

variable {F : Type} (float : Text → Except PyError F) (config : MylibConfig) (sect item : Text)

def getStrValue : Except PyError Text := config.get sect item

def getIntValue : Except PyError Int := do
  let value ← config.get sect item
  int 10 value

def getFloatValue : Except PyError F := do
  let value ← config.get sect item
  float value

def getHexIntValue : Except PyError Int := do
  let value ← config.get sect item
  int 16 value

def getStrListValue : Except PyError (List Text) := do
  let values ← config.get sect item
  return values.splitOn ','

def getIntListValue : Except PyError (List Int) := do
  let values ← config.get sect item
  eachChar (int 10) values

def getFloatListValue : Except PyError (List F) := do
  let values ← config.get sect item
  eachChar float values

def getHexIntListValue : Except PyError (List Int) := do
  let values ← config.get sect item
  eachChar (int 16) values

end MylibConfig

/-! ## Numerals -/

/-- What stands before the digits of a hexadecimal numeral. -/
inductive Mark where
  | none
  | lower
  | upper

def Mark.text : Mark → Text
  | none => []
  | lower => ['0', 'x']
  | upper => ['0', 'X']

def numeral (mark : Mark) (upper : Bool) (base : Nat) (x : Int) : Text :=
  signed x (mark.text ++ digits upper base x.natAbs)

def decimal (x : Int) : Text := numeral .none false 10 x

def hexadecimal (mark : Mark) (upper : Bool) (x : Int) : Text := numeral mark upper 16 x

/-- `','.join(texts)` -/
def join (texts : List Text) : Text := [','].intercalate texts

section
variable {mark : Mark} {upper : Bool} {base n : Nat} {x : Int}

theorem unsigned_forall {P : Char → Prop} (hb1 : 1 < base) (hb : base ≤ 16) (hmark : P '0' ∧ P 'x' ∧ P 'X')
    (hdigit : ∀ d < 16, P (digit false d) ∧ P (digit true d)) : ∀ c ∈ mark.text ++ digits upper base n, P c := by
  intro c hc
  obtain ⟨hzero, hlower, hupper⟩ := hmark
  rcases List.mem_append.1 hc with hc | hc
  · cases mark with
    | none => exact absurd hc List.not_mem_nil
    | lower => exact (List.forall_mem_cons.2 ⟨hzero, List.forall_mem_singleton.2 hlower⟩) c hc
    | upper => exact (List.forall_mem_cons.2 ⟨hzero, List.forall_mem_singleton.2 hupper⟩) c hc
  · obtain ⟨d, hd, rfl⟩ := mem_digits hb1 hc
    exact digit_forall hdigit (by omega)

/-- A property of the characters of a numeral. -/
theorem numeral_forall {P : Char → Prop} (hb1 : 1 < base) (hb : base ≤ 16) (hminus : P '-')
    (hmark : P '0' ∧ P 'x' ∧ P 'X') (hdigit : ∀ d < 16, P (digit false d) ∧ P (digit true d)) :
    ∀ c ∈ numeral mark upper base x, P c := by
  intro c hc
  rcases List.mem_append.1 hc with hc | hc
  · split at hc
    · rw [List.mem_singleton.1 hc]
      exact hminus
    · exact absurd hc List.not_mem_nil
  · exact unsigned_forall hb1 hb hmark hdigit c hc

theorem comma_not_mem_numeral (hb1 : 1 < base) (hb : base ≤ 16) : ',' ∉ numeral mark upper base x := by
  have hne : ∀ c ∈ numeral mark upper base x, c ≠ ',' :=
    numeral_forall hb1 hb (by decide) (by decide) (by decide)
  intro hc
  exact hne ',' hc rfl

theorem strip_numeral (hb1 : 1 < base) (hb : base ≤ 16) :
    strip isSpace (numeral mark upper base x) = numeral mark upper base x := by
  apply strip_eq_self
  apply bare_of_forall
  exact numeral_forall hb1 hb (by decide) (by decide) (by decide)

theorem length_numeral_eq_one_iff (hb1 : 1 < base) :
    (numeral mark upper base x).length = 1 ↔ mark = .none ∧ 0 ≤ x ∧ x < base := by
  have hpos : 0 < (digits upper base x.natAbs).length := List.length_pos_iff.2 digits_ne_nil
  have hone : (digits upper base x.natAbs).length = 1 ↔ x.natAbs < base := length_digits_eq_one_iff hb1
  simp only [numeral, signed, List.length_append]
  cases mark with
  | none =>
    simp only [Mark.text, List.length_nil, true_and]
    split
    · rw [List.length_singleton]
      omega
    · rw [List.length_nil]
      omega
  | lower => simp [Mark.text]; omega
  | upper => simp [Mark.text]; omega

theorem sign_of_forall {cs : Text} (h : ∀ c ∈ cs, c ≠ '-' ∧ c ≠ '+') : sign cs = (false, cs) := by
  unfold sign
  split
  · exact absurd rfl (h '-' List.mem_cons_self).1
  · exact absurd rfl (h '+' List.mem_cons_self).2
  · rfl

theorem skipMark_of_forall {cs : Text} (h : ∀ c ∈ cs, ¬(c = 'x' ∨ c = 'X')) : skipMark base cs = cs := by
  unfold skipMark
  split
  · rename_i c cs
    have hc : ¬(c = 'x' ∨ c = 'X') := h c (List.mem_cons_of_mem _ List.mem_cons_self)
    rw [if_neg (fun hmark => hc hmark.2)]
  · rfl

theorem skipMark_unsigned (hb1 : 1 < base) (hb : base ≤ 16) (hmark : base = 16 ∨ mark = .none) :
    skipMark base (mark.text ++ digits upper base n) = digits upper base n := by
  cases mark with
  | none =>
    apply skipMark_of_forall
    intro c hc
    obtain ⟨d, hd, rfl⟩ := mem_digits hb1 hc
    have hx : ∀ d < 16, ¬(digit false d = 'x' ∨ digit false d = 'X') ∧ ¬(digit true d = 'x' ∨ digit true d = 'X') := by
      decide
    exact digit_forall (P := fun c => ¬(c = 'x' ∨ c = 'X')) hx (by omega)
  | lower =>
    have hbase : base = 16 := hmark.resolve_right (fun h => by cases h)
    exact if_pos ⟨hbase, Or.inl rfl⟩
  | upper =>
    have hbase : base = 16 := hmark.resolve_right (fun h => by cases h)
    exact if_pos ⟨hbase, Or.inr rfl⟩

theorem sign_numeral (hb1 : 1 < base) (hb : base ≤ 16) :
    sign (numeral mark upper base x) = (decide (x < 0), mark.text ++ digits upper base x.natAbs) := by
  unfold numeral signed
  by_cases hx : x < 0
  · rw [if_pos hx, decide_eq_true hx]
    rfl
  · rw [if_neg hx, decide_eq_false hx]
    exact sign_of_forall (unsigned_forall hb1 hb (by decide) (by decide))

/-- **What is written is read back.** -/
theorem int_numeral (hb1 : 1 < base) (hb : base ≤ 16) (hmark : base = 16 ∨ mark = .none) :
    int base (numeral mark upper base x) = .ok x := by
  simp only [int, strip_numeral hb1 hb, sign_numeral hb1 hb, skipMark_unsigned hb1 hb hmark, if_neg digits_ne_nil,
    parse_digits hb1 hb, decide_eq_true_eq]
  congr 1
  split <;> omega

end

/-! ## Lists -/

section
variable {α ι : Type} {convert : Text → Except PyError α} {render : ι → Text} {value : ι → α} {xs : List ι}

/-- The commas of a list are found where it was joined. -/
theorem splitOn_join {texts : List Text} (hcomma : ∀ text ∈ texts, ',' ∉ text) (hne : texts ≠ []) :
    (join texts).splitOn ',' = texts := List.splitOn_intercalate ',' hcomma hne

theorem comma_mem_join (text text' : Text) (texts : List Text) : ',' ∈ join (text :: text' :: texts) := by
  have hjoin : join (text :: text' :: texts) = text ++ [','] ++ join (text' :: texts) := List.intercalate_cons_cons
  rw [hjoin]
  exact List.mem_append_left _ (List.mem_append_right _ (List.mem_singleton_self ','))

/-- Character by character a list is read right if it has one element and that one has one character. -/
theorem eachChar_join_iff (hcomma : ∀ v, convert [','] ≠ .ok v) (hvalue : ∀ x ∈ xs, convert (render x) = .ok (value x))
    (hne : xs ≠ []) :
    eachChar convert (join (xs.map render)) = .ok (xs.map value) ↔ ∃ x, xs = [x] ∧ (render x).length = 1 := by
  match xs with
  | [] => exact absurd rfl hne
  | [x] =>
    have hjoin : join ([x].map render) = render x := List.intercalate_singleton
    rw [hjoin]
    constructor
    · intro h
      obtain ⟨hlen, _⟩ := of_mapM_eq_ok h
      exact ⟨x, rfl, hlen.symm⟩
    · rintro ⟨y, hy, hlen⟩
      cases hy
      obtain ⟨c, hc⟩ := List.length_eq_one_iff.1 hlen
      have hx : convert [c] = .ok (value x) := by
        rw [← hc]
        exact hvalue x (List.mem_singleton_self x)
      rw [hc, eachChar, mapM_cons_eq, hx]
      rfl
  | x :: y :: xs =>
    refine iff_of_false (fun h => ?_) (fun ⟨z, hz, _⟩ => by cases hz)
    obtain ⟨_, hall⟩ := of_mapM_eq_ok h
    obtain ⟨v, hv⟩ := hall ',' (comma_mem_join (render x) (render y) (xs.map render))
    exact hcomma v hv

end

section
variable {F : Type} {float : Text → Except PyError F} {config : MylibConfig} {sect item : Text} {xs : List Int}

/-- A list of one number, which has one digit in the base. -/
def OneDigit (base : Nat) (xs : List Int) : Prop := ∃ x, xs = [x] ∧ 0 ≤ x ∧ x < base

theorem getStrListValue_join {render : Int → Text} (hcomma : ∀ x, ',' ∉ render x) (hne : xs ≠ [])
    (h : config.get sect item = .ok (join (xs.map render))) :
    config.getStrListValue sect item = .ok (xs.map render) := by
  have hpieces : ∀ text ∈ xs.map render, ',' ∉ text := by
    intro text htext
    obtain ⟨x, _, rfl⟩ := List.mem_map.1 htext
    exact hcomma x
  rw [MylibConfig.getStrListValue, h, ok_bind, splitOn_join hpieces (by simpa using hne)]
  rfl

/-- A list getter on the numerals of a list. -/
theorem getList_iff {α : Type} {convert : Text → Except PyError α} {mark : Mark} {upper : Bool} {base : Nat}
    (value : Int → α) (hb1 : 1 < base) (hb : base ≤ 16) (hcomma : ∀ v, convert [','] ≠ .ok v)
    (hvalue : ∀ x ∈ xs, convert (numeral mark upper base x) = .ok (value x)) (hne : xs ≠ [])
    (h : config.get sect item = .ok (join (xs.map (numeral mark upper base)))) :
    (config.getStrListValue sect item >>= fun texts => texts.mapM convert) = .ok (xs.map value) ∧
      ((config.get sect item >>= eachChar convert) = .ok (xs.map value) ↔ mark = .none ∧ OneDigit base xs) := by
  constructor
  · rw [getStrListValue_join (fun x => comma_not_mem_numeral hb1 hb) hne h, ok_bind]
    exact mapM_map_ok hvalue
  · rw [h, ok_bind, eachChar_join_iff hcomma hvalue hne]
    simp only [length_numeral_eq_one_iff hb1, OneDigit]
    constructor
    · rintro ⟨x, hx, hmark, hdigit⟩
      exact ⟨hmark, x, hx, hdigit⟩
    · rintro ⟨hmark, x, hx, hdigit⟩
      exact ⟨x, hx, hmark, hdigit⟩

theorem int_comma (base : Nat) (v : Int) : int base [','] ≠ .ok v := by
  have hparse : parse base [','] 0 = none := rfl
  have hskip : skipMark base [','] = [','] := rfl
  have hint : int base [','] = .error (.invalidLiteral base [',']) := by
    simp only [int, show sign (strip isSpace [',']) = (false, [',']) from rfl, hskip, hparse, ite_self]
  rw [hint]
  intro h
  cases h

/-- **The typed getters read a list of numerals as the conversion of its parts exactly if it is a list of one number of
one digit**, and for `GetHexIntListValue` without a mark. The parts of the list, converted, are always the numbers. -/
theorem listValues_iff (hcomma : ∀ v, float [','] ≠ .ok v) (hfloat : ∀ x : Int, ∃ v, float (decimal x) = .ok v)
    (hne : xs ≠ []) :
    (config.get sect item = .ok (join (xs.map decimal)) →
      (config.getStrListValue sect item >>= fun texts => texts.mapM (int 10)) = .ok xs ∧
      (config.getIntListValue sect item = .ok xs ↔ OneDigit 10 xs) ∧
      (config.getFloatListValue float sect item = (config.getStrListValue sect item >>= fun texts => texts.mapM float) ↔
        OneDigit 10 xs)) ∧
    ∀ mark upper, config.get sect item = .ok (join (xs.map (hexadecimal mark upper))) →
      (config.getStrListValue sect item >>= fun texts => texts.mapM (int 16)) = .ok xs ∧
      (config.getHexIntListValue sect item = .ok xs ↔ mark = .none ∧ OneDigit 16 xs) := by
  constructor
  · intro h
    have hint : ∀ x ∈ xs, int 10 (decimal x) = .ok (id x) := fun x _ => int_numeral (by decide) (by decide) (Or.inr rfl)
    obtain ⟨value, hvalue⟩ := Classical.skolem.1 hfloat
    obtain ⟨hparts, hchars⟩ := getList_iff id (by decide) (by decide) (int_comma 10) hint hne h
    obtain ⟨hparts', hchars'⟩ := getList_iff value (by decide) (by decide) hcomma (fun x _ => hvalue x) hne h
    rw [List.map_id] at hparts hchars
    rw [hparts']
    exact ⟨hparts, hchars.trans (and_iff_right rfl), hchars'.trans (and_iff_right rfl)⟩
  · intro mark upper h
    have hint : ∀ x ∈ xs, int 16 (hexadecimal mark upper x) = .ok (id x) :=
      fun x _ => int_numeral (by decide) (by decide) (Or.inl rfl)
    have hlist := getList_iff id (by decide) (by decide) (int_comma 16) hint hne h
    rwa [List.map_id] at hlist

end

/-- A file whose items are all the one text. -/
def oneText (text : Text) : MylibConfig := ⟨fun _ _ => .ok text⟩

/-- "7" is read right in both bases, where this `float` is right for the numerals of integers; "10,-3" and "0xA,-0x3" are
not, though their parts are 10 and -3. -/
theorem listValues_seven :
    (((oneText ['7']).getStrListValue [] [] >>= fun texts => texts.mapM (int 10)) = .ok [7] ∧
      ((oneText ['7']).getIntListValue [] [] = .ok [7] ↔ OneDigit 10 [7]) ∧
      ((oneText ['7']).getFloatListValue (int 10) [] [] =
        ((oneText ['7']).getStrListValue [] [] >>= fun texts => texts.mapM (int 10)) ↔ OneDigit 10 [7])) ∧
    ((oneText ['7']).getStrListValue [] [] >>= fun texts => texts.mapM (int 16)) = .ok [7] ∧
      ((oneText ['7']).getHexIntListValue [] [] = .ok [7] ↔ Mark.none = .none ∧ OneDigit 16 [7]) ∧
    ((oneText ['1', '0', ',', '-', '3']).getStrListValue [] [] >>= fun texts => texts.mapM (int 10)) = .ok [10, -3] ∧
      (oneText ['1', '0', ',', '-', '3']).getIntListValue [] [] ≠ .ok [10, -3] ∧
    ((oneText ['0', 'x', 'A', ',', '-', '0', 'x', '3']).getStrListValue [] [] >>= fun texts => texts.mapM (int 16)) =
        .ok [10, -3] ∧
      (oneText ['0', 'x', 'A', ',', '-', '0', 'x', '3']).getHexIntListValue [] [] ≠ .ok [10, -3] := by
  have hfloat : ∀ x : Int, ∃ v, int 10 (decimal x) = .ok v :=
    fun x => ⟨x, int_numeral (by decide) (by decide) (Or.inr rfl)⟩
  have htwo : ∀ base, ¬ OneDigit base [10, -3] := fun _ h => by simp [OneDigit] at h
  have hseven : (oneText ['7']).get [] [] = .ok (join ([7].map (hexadecimal .none false))) := rfl
  have hten : (oneText ['1', '0', ',', '-', '3']).get [] [] = .ok (join ([10, -3].map decimal)) := rfl
  have hhex : (oneText ['0', 'x', 'A', ',', '-', '0', 'x', '3']).get [] [] =
      .ok (join ([10, -3].map (hexadecimal .lower true))) := rfl
  obtain ⟨hparts, hint⟩ := (listValues_iff (int_comma 10) hfloat (List.cons_ne_nil 7 [])).2 .none false hseven
  obtain ⟨hparts10, hint10, _⟩ := (listValues_iff (int_comma 10) hfloat (List.cons_ne_nil 10 [-3])).1 hten
  obtain ⟨hparts16, hint16⟩ := (listValues_iff (int_comma 10) hfloat (List.cons_ne_nil 10 [-3])).2 .lower true hhex
  exact ⟨(listValues_iff (int_comma 10) hfloat (List.cons_ne_nil 7 [])).1 rfl, hparts, hint,
    hparts10, fun h => htwo 10 (hint10.1 h), hparts16, fun h => htwo 16 (hint16.1 h).2⟩

/-- "12" is read as 1 and 2. -/
theorem not_listValues_twelve :
    ¬ ∀ (config : MylibConfig) (sect item : Text) (xs : List Int), xs ≠ [] →
      config.get sect item = .ok (join (xs.map decimal)) → config.getIntListValue sect item = .ok xs := by
  intro hall
  have htwelve := hall (oneText ['1', '2']) [] [] [12] (List.cons_ne_nil 12 []) rfl
  have hlist : (oneText ['1', '2']).getIntListValue [] [] = .ok [1, 2] := rfl
  rw [hlist] at htwelve
  cases htwelve

end TinyUtils.Config
