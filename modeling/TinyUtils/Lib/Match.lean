import Mathlib.Order.Bounds.Basic
/-!
# Where a pattern occurs in a text

Text and pattern are functions of the index, with lengths `n` and `m` where they matter. The facts that make
a search skip positions:

* `Candidate`, `Frontier`: the next prefix of the pattern to try against the symbols already read, when a
  pattern is matched against itself and against a text; the longest border of a prefix is what to try next
* `border_iff_isSuffix`: the borders of the prefixes of a list, in terms of lists
* `not_occurs_of_lt_behind`: a shift that aligns no symbol of the pattern with the one behind the window
* `not_occurs_of_lt_badChar`, `not_occurs_of_lt_goodSuffix`: a shift that does not align the symbol of the text at
  which the comparison stopped, or that aligns the matched suffix with something else
* `MovesBehind`, `MovesAtStop`: from which window to which a search goes by these shifts
* `FirstMatch.last`: the last occurrence is the first one in the reversed text
* `CommonSuffix.good_iff`: the lengths of the common suffixes of the pattern and its prefixes tell which shifts
  are good for a suffix
-/

namespace Matching

variable {α : Type} {t p : ℕ → α} {n m i j k : ℕ}

/-- The first `m` symbols of `p` are at index `i` of `t`. -/
def At (t p : ℕ → α) (m i : ℕ) : Prop := ∀ k < m, t (i + k) = p k

def Occurs (t : ℕ → α) (n : ℕ) (p : ℕ → α) (m i : ℕ) : Prop := i + m ≤ n ∧ At t p m i

/-- The `j` symbols of `t` before `i` are the first of `p`. -/
def Ends (t p : ℕ → α) (i j : ℕ) : Prop := j ≤ i ∧ At t p j (i - j)

/-- The first `q` symbols begin and end with the same `k`, and these are not all of them. -/
def Border (p : ℕ → α) (q k : ℕ) : Prop := k < q ∧ Ends p p q k

theorem Ends.zero : Ends t p i 0 := ⟨Nat.zero_le i, fun k hk => absurd hk (Nat.not_lt_zero k)⟩

theorem ends_succ : Ends t p (i + 1) (j + 1) ↔ Ends t p i j ∧ t i = p j := by
  simp only [Ends, At, Nat.succ_sub_succ]
  constructor
  · rintro ⟨hle, hat⟩
    refine ⟨⟨Nat.le_of_succ_le_succ hle, fun k hk => hat k (Nat.lt_succ_of_lt hk)⟩, ?_⟩
    have hlast := hat j (Nat.lt_succ_self j)
    rwa [Nat.sub_add_cancel (Nat.le_of_succ_le_succ hle)] at hlast
  · rintro ⟨⟨hle, hat⟩, heq⟩
    refine ⟨Nat.succ_le_succ hle, fun k hk => ?_⟩
    by_cases hkj : k = j
    · rw [hkj, Nat.sub_add_cancel hle]
      exact heq
    · exact hat k (by omega)

/-- Behind `j` symbols of `p`, a shorter prefix of `p` is a border of these. -/
theorem Ends.border_iff (h : Ends t p i j) (hk : k ≤ j) : Ends t p i k ↔ Ends p p j k := by
  obtain ⟨hle, hat⟩ := h
  have hshift : ∀ x < k, t (i - k + x) = p (j - k + x) := by
    intro x hx
    have hx' := hat (j - k + x) (by omega)
    rwa [show i - j + (j - k + x) = i - k + x by omega] at hx'
  constructor
  · rintro ⟨_, hk'⟩
    exact ⟨hk, fun x hx => (hshift x hx).symm.trans (hk' x hx)⟩
  · rintro ⟨_, hk'⟩
    exact ⟨by omega, fun x hx => (hshift x hx).trans (hk' x hx)⟩

/-- The symbols of an occurrence that are already read. -/
theorem Occurs.ends {s : ℕ} (h : Occurs t n p m s) (hs : s ≤ i) (hi : i - s ≤ m) : Ends t p i (i - s) := by
  refine ⟨Nat.sub_le i s, fun k hk => ?_⟩
  rw [Nat.sub_sub_self hs]
  exact h.2 k (by omega)

theorem Ends.occurs (h : Ends t p i m) (hi : i ≤ n) : Occurs t n p m (i - m) := by
  obtain ⟨hle, hat⟩ := h
  exact ⟨by omega, hat⟩

/-- A border of the first `q` symbols of a list is a shorter prefix of it that they end with. -/
theorem border_iff_isSuffix {p : ℕ → Option α} {l : List α} {q b : ℕ} (hp : ∀ k < q, p k = l[k]?) (hq : q ≤ l.length) :
    Border p q b ↔ b < q ∧ l.take b <:+ l.take q := by
  rw [Border]
  refine and_congr_right fun hb => ?_
  have hlen : (l.take b).length = b := List.length_take_of_le (by omega)
  have hlen' : (l.take q).length = q := List.length_take_of_le hq
  have hentry : ∀ k < b, (p (q - b + k) = p k ↔ (l.take q)[k + q - b]? = l[k]?) := by
    intro k hk
    have hindex : k + q - b = q - b + k := by omega
    rw [hindex, List.getElem?_take_of_lt (by omega), hp (q - b + k) (by omega), hp k (by omega)]
  simp only [Ends, At, List.suffix_iff_getElem?, hlen, hlen']
  constructor
  · rintro ⟨hle, hat⟩
    refine ⟨hle, fun k hk => ?_⟩
    rw [(hentry k hk).1 (hat k hk), List.getElem_take, List.getElem?_eq_getElem]
  · rintro ⟨hle, hat⟩
    refine ⟨hle, fun k hk => (hentry k hk).2 ?_⟩
    rw [hat k hk, List.getElem_take, List.getElem?_eq_getElem]

/-! ## The borders of the prefixes of a pattern -/

/-- `k` is a border of the first `i` symbols, and no longer one goes on with the symbol at `i`. -/
def Candidate (p : ℕ → α) (i k : ℕ) : Prop := Border p i k ∧ ∀ k', k < k' → Border p i k' → p i ≠ p k'

/-- A border of one symbol more is a border that goes on. -/
theorem border_succ : Border p (i + 1) (k + 1) ↔ Border p i k ∧ p i = p k := by
  simp only [Border, ends_succ, Nat.add_lt_add_iff_right, and_assoc]

theorem Candidate.of_longest (h : IsGreatest {b | Border p i b} k) : Candidate p i k := by
  refine ⟨h.1, fun k' hlt hk' => ?_⟩
  have hle : k' ≤ k := h.2 hk'
  omega

theorem Candidate.longest_succ (h : Candidate p i k) (heq : p i = p k) :
    IsGreatest {b | Border p (i + 1) b} (k + 1) := by
  refine ⟨border_succ.2 ⟨h.1, heq⟩, ?_⟩
  rintro b hb
  cases b with
  | zero => exact Nat.zero_le _
  | succ b =>
    obtain ⟨hborder, hgo⟩ := border_succ.1 hb
    by_contra hlt
    exact h.2 b (by omega) hborder hgo

theorem Candidate.longest_zero (h : Candidate p i 0) (hne : p i ≠ p 0) : IsGreatest {b | Border p (i + 1) b} 0 := by
  refine ⟨⟨Nat.succ_pos i, Ends.zero⟩, ?_⟩
  rintro b hb
  cases b with
  | zero => exact Nat.le_refl 0
  | succ b =>
    obtain ⟨hborder, hgo⟩ := border_succ.1 hb
    by_cases hb0 : b = 0
    · subst hb0
      exact absurd hgo hne
    · exact absurd hgo (h.2 b (by omega) hborder)

/-- The next candidate is the longest border of the last one. -/
theorem Candidate.next {b : ℕ} (h : Candidate p i k) (hne : p i ≠ p k) (hb : IsGreatest {b | Border p k b} b) :
    Candidate p i b := by
  obtain ⟨⟨hk, hends⟩, hlonger⟩ := h
  obtain ⟨hbk, hbends⟩ := hb.1
  refine ⟨⟨by omega, (hends.border_iff (Nat.le_of_lt hbk)).2 hbends⟩, fun k' hlt hk' => ?_⟩
  rcases Nat.lt_trichotomy k' k with hk'k | rfl | hk'k
  · have hle : k' ≤ b := hb.2 ⟨hk'k, (hends.border_iff (Nat.le_of_lt hk'k)).1 hk'.2⟩
    omega
  · exact hne
  · exact hlonger k' hk'k hk'

/-- One symbol has no border but the empty one. -/
theorem longest_one : IsGreatest {b | Border p 1 b} 0 := by
  refine ⟨⟨Nat.one_pos, Ends.zero⟩, ?_⟩
  rintro b ⟨hb, _⟩
  omega

/-! ## Reading a text once -/

/-- The `j` symbols before `i` are the first of `p`, and an occurrence from `start` on does not begin before them. -/
structure Frontier (t : ℕ → α) (n : ℕ) (p : ℕ → α) (m start i j : ℕ) : Prop where
  le : start + j ≤ i
  ends : Ends t p i j
  none_before : ∀ s, start ≤ s → s + j < i → ¬Occurs t n p m s

section
variable {start : ℕ}

theorem Frontier.init : Frontier t n p m start start 0 :=
  ⟨Nat.le_refl _, Ends.zero, fun s h1 h2 => by omega⟩

/-- The symbol at `i` goes on with the prefix. -/
theorem Frontier.succ (h : Frontier t n p m start i j) (heq : t i = p j) : Frontier t n p m start (i + 1) (j + 1) := by
  obtain ⟨hle, hends, hnone⟩ := h
  exact ⟨by omega, ends_succ.2 ⟨hends, heq⟩, fun s h1 h2 => hnone s h1 (by omega)⟩

/-- There is nothing to go on with, so the symbol at `i` is passed over. -/
theorem Frontier.skip (h : Frontier t n p m start i 0) (hm : 0 < m) (hne : t i ≠ p 0) :
    Frontier t n p m start (i + 1) 0 := by
  obtain ⟨hle, _, hnone⟩ := h
  refine ⟨by omega, Ends.zero, fun s h1 h2 hocc => ?_⟩
  by_cases hs : s = i
  · subst hs
    exact hne (hocc.2 0 hm)
  · exact hnone s h1 (by omega) hocc

/-- The longest border of the prefix is what may still begin an occurrence. -/
theorem Frontier.next {b : ℕ} (h : Frontier t n p m start i j) (hj : j < m) (hne : t i ≠ p j)
    (hb : IsGreatest {b | Border p j b} b) : Frontier t n p m start i b := by
  obtain ⟨hle, hends, hnone⟩ := h
  obtain ⟨hbj, hbends⟩ := hb.1
  refine ⟨by omega, (hends.border_iff (Nat.le_of_lt hbj)).2 hbends, fun s h1 h2 hocc => ?_⟩
  rcases Nat.lt_trichotomy (s + j) i with hlt | heq | hgt
  · exact hnone s h1 hlt hocc
  -- an occurrence at the place of the prefix has the wrong symbol at `i`
  · have hsym := hocc.2 j hj
    rw [heq] at hsym
    exact hne hsym
  -- a later one would be a longer border
  · have hlong := hocc.ends (i := i) (by omega) (by omega)
    have hle : i - s ≤ b := hb.2 ⟨by omega, (hends.border_iff (by omega)).1 hlong⟩
    omega

theorem Frontier.least (h : Frontier t n p m start i m) (hi : i ≤ n) :
    IsLeast {s | start ≤ s ∧ Occurs t n p m s} (i - m) := by
  obtain ⟨hle, hends, hnone⟩ := h
  refine ⟨⟨by omega, hends.occurs hi⟩, ?_⟩
  rintro s ⟨h1, hocc⟩
  by_contra hlt
  exact hnone s h1 (by omega) hocc

/-- The text is read, and the pattern is longer than what is left. -/
theorem Frontier.none (h : Frontier t n p m start i j) (hi : n ≤ i) (hj : j < m) {s : ℕ} (hs : start ≤ s) :
    ¬Occurs t n p m s := by
  intro hocc
  have hle := hocc.1
  exact h.none_before s hs (by omega) hocc

end

/-! ## Shifts of a window -/

/-- A shift that aligns no `c` of the pattern with the `c` behind the window. -/
theorem not_occurs_of_lt_behind {v d : ℕ} (hv : ∀ k < m, p k = t (i + m) → v + k ≤ m) (h1 : 1 ≤ d) (h2 : d < v)
    (hd : d ≤ m) : ¬Occurs t n p m (i + d) := by
  intro hocc
  have hsym := hocc.2 (m - d) (by omega)
  rw [show i + d + (m - d) = i + m by omega] at hsym
  have hle := hv (m - d) (by omega) hsym.symm
  omega

/-- A shift that aligns no `c` of the pattern with the `c` of the text at which the comparison stopped. -/
theorem not_occurs_of_lt_badChar {last : ℤ} {d : ℕ} (hlast : ∀ k < m, p k = t (i + j) → (k : ℤ) ≤ last) (hj : j < m)
    (h1 : 1 ≤ d) (hd : d ≤ j) (h2 : (d : ℤ) < j - last) : ¬Occurs t n p m (i + d) := by
  intro hocc
  have hsym := hocc.2 (j - d) (by omega)
  rw [show i + d + (j - d) = i + j by omega] at hsym
  have hle := hlast (j - d) (by omega) hsym.symm
  omega

/-- The shift aligns what matched behind `j` with the same symbols, and `j` with another one. -/
def Good (p : ℕ → α) (m j s : ℕ) : Prop :=
  (∀ k, j < k → k < m → s ≤ k → p (k - s) = p k) ∧ (s ≤ j → p (j - s) ≠ p j)

theorem good_length (hj : j < m) : Good p m j m := ⟨fun k h1 h2 h3 => by omega, fun h => by omega⟩

/-- An occurrence is a good shift. -/
theorem Occurs.good {d : ℕ} (h : Occurs t n p m (i + d)) (hj : j < m) (h1 : 1 ≤ d)
    (hmatch : ∀ k, j < k → k < m → t (i + k) = p k) (hne : t (i + j) ≠ p j) : Good p m j d := by
  have halign : ∀ k, k < m → d ≤ k → t (i + k) = p (k - d) := by
    intro k hk hd
    have hsym := h.2 (k - d) (by omega)
    rwa [show i + d + (k - d) = i + k by omega] at hsym
  refine ⟨fun k hjk hk hd => ?_, fun hd heq => ?_⟩
  · exact (halign k hk hd).symm.trans (hmatch k hjk hk)
  · exact hne ((halign j hj hd).trans heq)

/-- A shift below the least good one. -/
theorem not_occurs_of_lt_goodSuffix {v d : ℕ} (hv : IsLeast {s | 1 ≤ s ∧ s ≤ m ∧ Good p m j s} v) (hj : j < m)
    (hmatch : ∀ k, j < k → k < m → t (i + k) = p k) (hne : t (i + j) ≠ p j) (h1 : 1 ≤ d) (h2 : d < v) :
    ¬Occurs t n p m (i + d) := by
  intro hocc
  have hvm := hv.1.2.1
  have hle : v ≤ d := hv.2 ⟨h1, by omega, hocc.good hj h1 hmatch hne⟩
  omega

/-! ## The windows of a search -/

/-- The last of the first `m` places of the pattern with the symbol, or -1. -/
def LastAt (p : ℕ → α) (m : ℕ) (c : α) (last : ℤ) : Prop :=
  IsGreatest {k : ℤ | k = -1 ∨ ∃ x : ℕ, x < m ∧ k = x ∧ p x = c} last

/-- The comparison of the window with the pattern, from the end, stops at `j`. -/
def Stops (t p : ℕ → α) (m i j : ℕ) : Prop := j < m ∧ t (i + j) ≠ p j ∧ ∀ k, j < k → k < m → t (i + k) = p k

/-- The window moves on so that the symbol behind it meets its last place in the pattern. -/
def MovesBehind (t : ℕ → α) (n : ℕ) (p : ℕ → α) (m i i' : ℕ) : Prop :=
  i + m ≤ n ∧ ¬Occurs t n p m i ∧ ∃ last, LastAt p m (t (i + m)) last ∧ (i' : ℤ) = i + (m - last)

/-- The window moves on so that the symbol at which the comparison stops meets its last place in the pattern, or by the
least good shift if that is more. -/
def MovesAtStop (t : ℕ → α) (n : ℕ) (p : ℕ → α) (m i i' : ℕ) : Prop :=
  i + m ≤ n ∧ ∃ j last v, Stops t p m i j ∧ LastAt p m (t (i + j)) last ∧
    IsLeast {s | 1 ≤ s ∧ s ≤ m ∧ Good p m j s} v ∧ (i' : ℤ) = i + max (j - last) v

section
variable {c : α} {last : ℤ}

theorem LastAt.zero : LastAt p 0 c (-1) := by
  refine ⟨Or.inl rfl, ?_⟩
  rintro k (rfl | ⟨x, hx, _⟩)
  · exact Int.le_refl _
  · exact absurd hx (Nat.not_lt_zero x)

theorem LastAt.here (hp : p m = c) : LastAt p (m + 1) c m := by
  refine ⟨Or.inr ⟨m, Nat.lt_succ_self m, rfl, hp⟩, ?_⟩
  rintro k (rfl | ⟨x, hx, rfl, _⟩) <;> omega

theorem LastAt.skip (h : LastAt p m c last) (hp : p m ≠ c) : LastAt p (m + 1) c last := by
  obtain ⟨hplace, hgreatest⟩ := h
  refine ⟨hplace.imp_right fun ⟨x, hx, hk, hpx⟩ => ⟨x, Nat.lt_succ_of_lt hx, hk, hpx⟩, ?_⟩
  rintro k (rfl | ⟨x, hx, rfl, hpx⟩)
  · exact hgreatest (Or.inl rfl)
  · have hne : x ≠ m := by
      rintro rfl
      exact hp hpx
    exact hgreatest (Or.inr ⟨x, by omega, rfl, hpx⟩)

theorem LastAt.low (h : LastAt p m c last) : -1 ≤ last := h.2 (Or.inl rfl)

theorem LastAt.lt (h : LastAt p m c last) : last < m := by
  rcases h.1 with rfl | ⟨x, hx, rfl, _⟩ <;> omega

theorem LastAt.le {x : ℕ} (h : LastAt p m c last) (hx : x < m) (hp : p x = c) : x ≤ last := h.2 (Or.inr ⟨x, hx, rfl, hp⟩)

theorem LastAt.unique {last' : ℤ} (h : LastAt p m c last) (h' : LastAt p m c last') : last = last' :=
  IsGreatest.unique h h'

end

theorem Stops.unique {j' : ℕ} (h : Stops t p m i j) (h' : Stops t p m i j') : j = j' := by
  obtain ⟨hj, hne, hbehind⟩ := h
  obtain ⟨hj', hne', hbehind'⟩ := h'
  rcases Nat.lt_trichotomy j j' with hlt | heq | hgt
  · exact absurd (hbehind j' hlt hj') hne'
  · exact heq
  · exact absurd (hbehind' j hgt hj) hne

/-- Nothing stops where the pattern is. -/
theorem Occurs.not_stops (h : Occurs t n p m i) : ¬Stops t p m i j := fun hstop => hstop.2.1 (h.2 j hstop.1)

section
variable {i' d : ℕ}

theorem MovesBehind.bounds (h : MovesBehind t n p m i i') : i < i' ∧ i' ≤ n + 1 := by
  obtain ⟨hin, _, last, hlast, heq⟩ := h
  have hlow := hlast.low
  have hlt := hlast.lt
  omega

/-- The window moves past nothing that occurs. -/
theorem MovesBehind.skips (h : MovesBehind t n p m i i') (h1 : 1 ≤ d) (hd : i + d < i') : ¬Occurs t n p m (i + d) := by
  obtain ⟨_, _, last, hlast, heq⟩ := h
  have hlow := hlast.low
  have hlt := hlast.lt
  apply not_occurs_of_lt_behind (v := i' - i) _ h1 (by omega) (by omega)
  intro k hk hkc
  have hle := hlast.le hk hkc
  omega

theorem MovesBehind.unique {x : ℕ} (h : MovesBehind t n p m i i') (hx : MovesBehind t n p m i x) : i' = x := by
  obtain ⟨_, _, last, hlast, heq⟩ := h
  obtain ⟨_, _, last', hlast', heq'⟩ := hx
  have hsame := hlast.unique hlast'
  omega

theorem MovesAtStop.not_occurs (h : MovesAtStop t n p m i i') : ¬Occurs t n p m i := by
  obtain ⟨_, j, _, _, hstop, _⟩ := h
  exact fun hocc => hocc.not_stops hstop

theorem MovesAtStop.bounds (h : MovesAtStop t n p m i i') : i < i' ∧ i' ≤ n := by
  obtain ⟨hin, j, last, v, hstop, hlast, ⟨⟨hv1, hvm, _⟩, _⟩, heq⟩ := h
  have hj := hstop.1
  have hlow := hlast.low
  omega

theorem MovesAtStop.skips (h : MovesAtStop t n p m i i') (h1 : 1 ≤ d) (hd : i + d < i') : ¬Occurs t n p m (i + d) := by
  obtain ⟨hin, j, last, v, ⟨hj, hne, hmatch⟩, hlast, hleast, heq⟩ := h
  by_cases hbad : (v : ℤ) < j - last
  · have hlow := hlast.low
    exact not_occurs_of_lt_badChar (fun k hk hkc => hlast.le hk hkc) hj h1 (by omega) (by omega)
  · exact not_occurs_of_lt_goodSuffix hleast hj hmatch hne h1 (by omega)

theorem MovesAtStop.unique {x : ℕ} (h : MovesAtStop t n p m i i') (hx : MovesAtStop t n p m i x) : i' = x := by
  obtain ⟨_, j, last, v, hstop, hlast, hleast, heq⟩ := h
  obtain ⟨_, j', last', v', hstop', hlast', hleast', heq'⟩ := hx
  obtain rfl := hstop.unique hstop'
  have hsame := hlast.unique hlast'
  have hsame' := hleast.unique hleast'
  omega

end

/-! ## Good shifts from common suffixes -/

def Period (p : ℕ → α) (m s : ℕ) : Prop := ∀ k, s ≤ k → k < m → p (k - s) = p k

/-- `r` is the length of the longest common suffix of the first `i + 1` symbols and all `m`. -/
structure CommonSuffix (p : ℕ → α) (m i r : ℕ) : Prop where
  le : r ≤ i + 1
  same : ∀ x < r, p (i - x) = p (m - 1 - x)
  stop : r ≤ i → p (i - r) ≠ p (m - 1 - r)

/-- A shift past `j` is good if it is a period. -/
theorem good_iff_period {s : ℕ} (hs : j < s) : Good p m j s ↔ Period p m s := by
  constructor
  · intro h k h1 h2
    exact h.1 k (by omega) h2 h1
  · intro h
    exact ⟨fun k _ h2 h3 => h k h3 h2, fun hle => by omega⟩

section
variable {r : ℕ} (h : CommonSuffix p m i r)
include h

/-- All of the first `i + 1` symbols are a suffix exactly if their shift is a period. -/
theorem CommonSuffix.period_iff (hi : i < m) : r = i + 1 ↔ Period p m (m - 1 - i) := by
  constructor
  · rintro rfl k h1 h2
    have hsame := h.same (m - 1 - k) (by omega)
    rwa [show i - (m - 1 - k) = k - (m - 1 - i) by omega, show m - 1 - (m - 1 - k) = k by omega] at hsame
  · intro hper
    have hle := h.le
    by_contra hne
    have hsym := hper (m - 1 - r) (by omega) (by omega)
    rw [show m - 1 - r - (m - 1 - i) = i - r by omega] at hsym
    exact h.stop (by omega) hsym

/-- A shift not past `j` is good exactly if what matches behind `j` is the common suffix. -/
theorem CommonSuffix.good_iff (hi : i < m) (hj : j < m) (hs : m - 1 - i ≤ j) :
    Good p m j (m - 1 - i) ↔ r = m - 1 - j := by
  have hle := h.le
  constructor
  · rintro ⟨hgood, hstop⟩
    rcases Nat.lt_trichotomy r (m - 1 - j) with hlt | heq | hgt
    · -- the common suffix goes on
      have hsym := hgood (m - 1 - r) (by omega) (by omega) (by omega)
      rw [show m - 1 - r - (m - 1 - i) = i - r by omega] at hsym
      exact absurd hsym (h.stop (by omega))
    · exact heq
    · -- the symbol at `j` is in the common suffix
      have hsame := h.same (m - 1 - j) hgt
      rw [show i - (m - 1 - j) = j - (m - 1 - i) by omega, show m - 1 - (m - 1 - j) = j by omega] at hsame
      exact absurd hsame (hstop hs)
  · rintro rfl
    refine ⟨fun k h1 h2 h3 => ?_, fun _ => ?_⟩
    · have hsame := h.same (m - 1 - k) (by omega)
      rwa [show i - (m - 1 - k) = k - (m - 1 - i) by omega, show m - 1 - (m - 1 - k) = k by omega] at hsame
    · have hstop := h.stop (by omega)
      rwa [show i - (m - 1 - j) = j - (m - 1 - i) by omega, show m - 1 - (m - 1 - j) = j by omega] at hstop

end

/-! ## The first occurrence -/

/-- `r` is the index of the first occurrence from `start` on, or -1 if there is none. -/
def FirstOccurs (t : ℕ → α) (n : ℕ) (p : ℕ → α) (m start : ℕ) (r : ℤ) : Prop :=
  (∃ i : ℕ, r = i ∧ IsLeast {i | start ≤ i ∧ Occurs t n p m i} i) ∨ (r = -1 ∧ ∀ i, start ≤ i → ¬Occurs t n p m i)

/-- The pattern is at index `i` of the text. -/
def OccursAt (text pat : List α) (i : ℕ) : Prop := Occurs (text[·]?) text.length (pat[·]?) pat.length i

def FirstMatch (text pat : List α) (start : ℕ) (r : ℤ) : Prop :=
  FirstOccurs (text[·]?) text.length (pat[·]?) pat.length start r

/-- What is left of the text is shorter than the pattern. -/
theorem FirstOccurs.of_short {start : ℕ} (h : n < start + m) : FirstOccurs t n p m start (-1) :=
  Or.inr ⟨rfl, fun i hi hocc => by have hle := hocc.1; omega⟩

theorem FirstOccurs.eq_neg_one_iff {start : ℕ} {r : ℤ} (h : FirstOccurs t n p m start r) :
    r = -1 ↔ ∀ i, start ≤ i → ¬Occurs t n p m i := by
  rcases h with ⟨i, rfl, hi, _⟩ | ⟨rfl, hnone⟩
  · constructor
    · intro h
      omega
    · intro h
      exact absurd hi.2 (h i hi.1)
  · exact ⟨fun _ => hnone, fun _ => rfl⟩

/-- A search that has come to `i`, where an occurrence is. -/
theorem FirstOccurs.of_found {start : ℕ} (hle : start ≤ i) (hbefore : ∀ s, start ≤ s → s < i → ¬Occurs t n p m s)
    (hocc : Occurs t n p m i) : FirstOccurs t n p m start i := by
  refine Or.inl ⟨i, rfl, ⟨hle, hocc⟩, ?_⟩
  rintro s ⟨h1, h2⟩
  by_contra hlt
  exact hbefore s h1 (by omega) h2

/-- A search that has come so far that the pattern is longer than what is left. -/
theorem FirstOccurs.of_end {start : ℕ} (hend : n < i + m) (hbefore : ∀ s, start ≤ s → s < i → ¬Occurs t n p m s) :
    FirstOccurs t n p m start (-1) := by
  refine Or.inr ⟨rfl, fun s hs hocc => ?_⟩
  have hle := hocc.1
  exact hbefore s hs (by omega) hocc

/-! ## Backwards -/

theorem OccursAt.reverse {text pat : List α} (h : OccursAt text pat i) :
    OccursAt text.reverse pat.reverse (text.length - pat.length - i) := by
  obtain ⟨hle, hat⟩ := h
  refine ⟨?_, fun k hk => ?_⟩
  · simp only [List.length_reverse]
    omega
  · rw [List.length_reverse] at hk
    have hsym : text[i + (pat.length - 1 - k)]? = pat[pat.length - 1 - k]? := hat (pat.length - 1 - k) (by omega)
    simp only
    rw [List.getElem?_reverse (by omega), List.getElem?_reverse hk, ← hsym]
    congr 1
    omega

/-- The occurrences in the reversed text are those in the text, in the opposite order. -/
theorem occursAt_reverse_iff {text pat : List α} (hi : i + pat.length ≤ text.length) :
    OccursAt text.reverse pat.reverse i ↔ OccursAt text pat (text.length - pat.length - i) := by
  constructor
  · intro h
    have hback := h.reverse
    rwa [List.reverse_reverse, List.reverse_reverse, List.length_reverse, List.length_reverse] at hback
  · intro h
    have hback := h.reverse
    rwa [Nat.sub_sub_self (by omega)] at hback

/-- The first occurrence in the reversed text is the last one in the text. -/
theorem FirstMatch.last {text pat : List α} {r : ℤ} (h : FirstMatch text.reverse pat.reverse 0 r) :
    (r = -1 ∧ ∀ i, ¬OccursAt text pat i) ∨
      ∃ i : ℕ, r = text.length - pat.length - i ∧ IsGreatest {i | OccursAt text pat i} i := by
  rcases h with ⟨j, rfl, ⟨_, hocc⟩, hleast⟩ | ⟨rfl, hnone⟩
  · right
    have hj : OccursAt text.reverse pat.reverse j := hocc
    have hle := hj.1
    rw [List.length_reverse, List.length_reverse] at hle
    refine ⟨text.length - pat.length - j, by omega, (occursAt_reverse_iff hle).1 hj, ?_⟩
    rintro i hi
    have hback : j ≤ text.length - pat.length - i := hleast ⟨Nat.zero_le _, OccursAt.reverse hi⟩
    have hin := hi.1
    omega
  · left
    exact ⟨rfl, fun i hi => hnone _ (Nat.zero_le _) hi.reverse⟩

end Matching
