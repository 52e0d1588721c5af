import TinyUtils.Cstr.Create
import TinyUtils.Cstr.Runs
import TinyUtils.Cstr.Extract
import TinyUtils.Lib.Edits
import TinyUtils.Lib.Simulation
/-!
# What the calls are for

Seen from outside, an object is the string it holds, and a call is an edit of the strings (`Call.edit`) that knows nothing
of blocks, capacities and terminators. A call makes its edit, or it returns `NULL` and changes no string (`exec_edit`);
it returns `NULL` only where there is no memory or the string would be too long (`NoRoom`).

| here | there |
| --- | --- |
| `Call.edit`  | the calls of `cstr.h:57-119` by what they leave in the objects |
| `Plain`      | not a `cstr_trim_tail` that has one byte to leave (it drops that one too, `cstr.c:561`) |
| `NoRoom`     | the calls that may return `NULL` |
-/

namespace TinyUtils.Cstr

open Checked Edits Runs

/-! ## The edit of a call -/

/-- The bytes that `strlen` counts. -/
def text (s : CString) : List Byte := s.bytes.take s.strlen

def lower (c : Byte) : Byte := if 65 ≤ c && c ≤ 90 then c + 32 else c

def upper (c : Byte) : Byte := if 97 ≤ c && c ≤ 122 then c - 32 else c

def InPlace.edit : InPlace → List Byte → List Byte
  | clear => fun _ => []
  | reverse => List.reverse
  | tolower => List.map lower
  | toupper => List.map upper
  | trim => trimmed
  | trimHdr => List.dropWhile isBlank
  | trimTail => List.rdropWhile isBlank

def Call.edit : Call → Edit Byte
  | .newStr _ str => .add (str.elim [] text)
  | .newSize _ _ | .new _ none => .add []
  | .new _ (some i) => .double i
  | .free i => .drop i
  | .inPlace f i => .change i f.edit
  | .assign _ dst src => .combine dst src fun _ s => s
  | .assignStr _ dst src => .change dst fun d => src.elim d text
  | .copy _ dst src begin len => .combine dst src fun d s => overlay d (piece s begin len)
  | .copyStr _ dst src begin len => .change dst fun d => src.elim d fun s => overlay d (piece (text s) begin len)
  | .subCstr _ substr cstr begin len => .combine substr cstr fun d s => extract d s begin len
  | .subStr _ substr str begin len => .change substr fun d => extract d (text str) begin len
  | .insert _ dst pos istr begin len => .combine dst istr fun d s => splice d pos (piece s begin len)
  | .insertStr _ dst pos str begin len =>
    .change dst fun d => str.elim d fun s => splice d pos (piece (text s) begin len)
  | .append _ dst str => .combine dst str fun d s => d ++ s
  | .appendStr _ dst str => .change dst fun d => str.elim d fun s => d ++ text s

/-- The strings that the objects hold. -/
def strings (os : Objects) : Strings Byte := os.map (Option.map content)

/-! ## Conditions on a call -/

/-- It is not a `trimTail` that has one byte to leave. -/
def Plain (os : Objects) : Call → Prop
  | .inPlace .trimTail i => ∀ s, fetch os i = some s → (s.content.rdropWhile isBlank).length ≠ 1
  | _ => True

/-- No block is large enough for `n` bytes. -/
def TooLong (n : Nat) : Prop := maxSize < n + hdrSize + 1

/-- There is no memory for the call, or the string that it makes is too long. -/
def NoRoom (os : Objects) : Call → Prop
  | .free _ | .inPlace _ _ => False
  | .new mem _ | .assign mem _ _ | .copy mem _ _ _ _ | .subCstr mem _ _ _ _ => mem = none
  | .newStr mem str => mem = none ∨ ∃ s, str = some s ∧ TooLong s.strlen
  | .newSize mem cap => mem = none ∨ TooLong cap
  | .assignStr mem _ src => ∃ s, src = some s ∧ (mem = none ∨ TooLong s.strlen)
  | .copyStr mem _ src _ len => ∃ s, src = some s ∧ (mem = none ∨ TooLong (copyLen s.strlen len))
  | .subStr mem _ str begin len => mem = none ∨ TooLong (extract [] (text str) begin len).length
  | .insert mem dst _ istr begin len => mem = none ∨ ∃ d s, fetch os dst = some d ∧ fetch os istr = some s ∧
      TooLong (d.used + (piece s.content begin len).length)
  | .insertStr mem dst _ str begin len => mem = none ∨ ∃ d s, fetch os dst = some d ∧ str = some s ∧
      TooLong (d.used + (piece (text s) begin len).length)
  | .append mem dst str => mem = none ∨ ∃ d s, fetch os dst = some d ∧ fetch os str = some s ∧
      maxSize < d.totalSize + s.used
  | .appendStr mem dst str => mem = none ∨ ∃ d s, fetch os dst = some d ∧ str = some s ∧
      maxSize < d.totalSize + s.strlen

/-! ## The strings of the objects -/

section
variable {os : Objects} {i : Nat} {d s : Cstr}

@[simp] theorem strings_nil : strings [] = [] := rfl

@[simp] theorem strings_append (os' : Objects) : strings (os ++ os') = strings os ++ strings os' := by simp [strings]

@[simp] theorem strings_set (x : Option Cstr) : strings (os.set i x) = (strings os).set i (x.map content) := by
  simp [strings, List.map_set]

theorem stringAt_strings : stringAt (strings os) i = (fetch os i).map content := by
  rw [stringAt, fetch, strings, List.getElem?_map]
  cases os[i]? <;> rfl

theorem stringAt_strings_eq (h : fetch os i = some s) : stringAt (strings os) i = some s.content := by
  rw [stringAt_strings, h]
  rfl

end

/-! ## The bytes of a C string -/

theorem gives_text (str : CString) : Gives str.memory str.strlen (text str) := by
  refine ⟨str.strlen_le, ?_⟩
  rw [CString.memory, List.take_append_of_le_length (show str.strlen ≤ str.bytes.length from u32_le _), text]

/-! ## The lengths that a call uses -/

section
variable {n begin len k : Nat} {bs : List Byte}

theorem slice_eq_piece (hbs : bs.length = n) (h : min k (n - begin) = min (if len = 0 then n else len) (n - begin)) :
    slice bs begin k = piece bs begin len := by
  rw [slice, piece, hbs, List.take_eq_take_iff, List.length_drop, hbs]
  exact h

theorem slice_copyLen (hbs : bs.length = n) : slice bs begin (copyLen n len) = piece bs begin len := by
  apply slice_eq_piece hbs
  unfold copyLen
  by_cases h0 : len = 0
  · simp [h0]
  · by_cases hn : len > n
    · simp only [h0, hn, or_true, if_true, if_false]
      omega
    · simp [h0, hn]

theorem subLen_eq_none_iff : subLen n begin len = none ↔ n ≤ begin ∨ len = 0 ∨ n < len := by
  unfold subLen
  rcases Nat.eq_zero_or_pos n with rfl | hn
  · by_cases h0 : len = 0
    · simp [h0]
    · simp [Nat.pos_of_ne_zero h0]
  · rw [sub32_eq hn]
    by_cases h : begin > n - 1 ∨ len = 0 ∨ len > n
    · simp only [h, if_true, true_iff]
      omega
    · simp only [h, if_false, reduceCtorEq, false_iff]
      omega

theorem slice_subLen (hbs : bs.length = n) (hk : subLen n begin len = some k) (hsel : begin + k ≤ n) :
    slice bs begin k = (bs.drop begin).take len := by
  have hne : ¬(n ≤ begin ∨ len = 0 ∨ n < len) := by
    rw [← subLen_eq_none_iff, hk]
    simp
  rw [slice, List.take_eq_take_iff, List.length_drop, hbs]
  unfold subLen at hk
  split at hk
  · cases hk
  · have hle := u32_le (len + begin)
    simp only [Option.some.injEq] at hk
    split at hk
    · rw [sub32_eq (by omega)] at hk
      omega
    · omega

theorem slice_insertLen (hbs : bs.length = n) (hk : insertLen n begin len = some k) (hsel : begin + k ≤ n) :
    slice bs begin k = piece bs begin len := by
  apply slice_eq_piece hbs
  unfold insertLen at hk
  split at hk
  · cases hk
  · simp only [Option.some.injEq] at hk
    generalize (if len = 0 then n else len) = l at hk ⊢
    have hle := u32_le (begin + l)
    split at hk
    · rw [sub32_eq (by omega)] at hk
      omega
    · omega

theorem piece_of_insertLen_none (hbs : bs.length = n) (hk : insertLen n begin len = none) : piece bs begin len = [] := by
  unfold insertLen at hk
  split at hk
  · rename_i hout
    have hge : n ≤ begin := by
      rcases Nat.eq_zero_or_pos n with rfl | hn
      · exact Nat.zero_le _
      · rw [sub32_eq hn] at hout
        omega
    simp [piece, List.drop_eq_nil_of_le (hbs.trans_le hge)]
  · cases hk

end

/-! ## What the operations return -/

/-- The call returns an object that holds `new`, or `NULL`: for the reason `R`, or as `new` is what the object holds. -/
def Answers (R : Prop) (old new : List Byte) (r : M (Option Cstr)) : Prop :=
  (r = .ok none ∧ (R ∨ new = old)) ∨ ∃ s, r = .ok (some s) ∧ s.content = new

section
variable {mem : Mem} {dst : Cstr} {src bs : List Byte} {n k begin len pos : Nat}

theorem Answers.of_yields {R : Prop} {old new : List Byte} {r : M (Option Cstr)} (h : Yields r fun s => s.content = new)
    (hR : r = .ok none → R) : Answers R old new r := by
  rcases h with h | h
  · exact Or.inl ⟨h, Or.inl (hR h)⟩
  · exact Or.inr h

theorem Answers.mono {R R' : Prop} {old new : List Byte} {r : M (Option Cstr)} (h : Answers R old new r)
    (hR : R → R') : Answers R' old new r := h.imp_left fun hn => ⟨hn.1, hn.2.imp_left hR⟩

theorem Refused.noRoom (h : Refused mem dst n) : mem = none ∨ TooLong n := h.elim Or.inr fun h => Or.inl h.1

theorem Sized.wraps (h : Sized mem dst n) (hv : dst.Valid) (hn : n < 2 ^ 32) :
    n + hdrSize + 1 < 2 ^ 32 ∨ (mem = none ∧ refit mem dst (n + hdrSize + 1) = none) := by
  rcases h.cases hv hn with h32 | hnone
  · exact Or.inl h32
  · exact h.imp_right fun hmem => ⟨hmem.1, hnone⟩

theorem assignFrom_answers (hv : dst.Valid) (hsrc : Gives src n bs) (hn : n < 2 ^ 32) (hf : Sized mem dst n) :
    Answers (mem = none ∨ TooLong n) dst.content bs (assignFrom mem dst src n) := by
  rcases hf.wraps hv hn with h32 | ⟨hmem, hnone⟩
  · have hspec := (assignFrom_spec mem hv hsrc.le h32).mono fun s hs => hs.2.2.trans hsrc.eq
    apply Answers.of_yields hspec
    intro hr
    rcases assignFrom_cases mem hv hsrc.le h32 with ⟨_, href⟩ | ⟨_, cap, data, hs, _⟩
    · exact href.noRoom
    · rw [hs] at hr
      cases hr
  · left
    rw [assignFrom, hnone]
    exact ⟨rfl, Or.inl (Or.inl hmem)⟩

theorem copyFrom_answers (hv : dst.Valid) (hsrc : Gives src n bs) (hk : begin + k ≤ n) (hn : n < 2 ^ 32)
    (hf : Sized mem dst k) (hfit : CopyFits mem dst k) :
    Answers (mem = none ∨ TooLong k) dst.content (overlay dst.content (slice bs begin k))
      (copyFrom mem dst src begin k) := by
  have hlen : (slice bs begin k).length = k := length_slice (hk.trans_eq hsrc.length.symm)
  rcases hf.wraps hv (by omega) with h32 | ⟨hmem, hnone⟩
  · have hload : begin + k ≤ src.length := hk.trans hsrc.le
    have hspec : Yields (copyFrom mem dst src begin k) fun s => s.content = overlay dst.content (slice bs begin k) := by
      refine (copyFrom_spec hv hload h32 hfit).mono fun s hs => ?_
      rw [hs.2.2.2, overlay, hlen, hsrc.slice hk]
    apply Answers.of_yields hspec
    intro hr
    rcases copyFrom_cases mem hv hload h32 with ⟨_, href⟩ | ⟨_, cap, data, hs, _⟩
    · exact href.noRoom
    · rw [hs] at hr
      cases hr
  · left
    rw [copyFrom, hnone]
    exact ⟨rfl, Or.inl (Or.inl hmem)⟩

/-- What `subFrom` returns for the arguments that it does not refuse. -/
theorem subFrom_answers (hv : dst.Valid) (hsrc : Gives src n bs) (hsel : Selects begin n (subLen n begin len))
    (hn : n < 2 ^ 32) (hf : ∀ k, subLen n begin len = some k → Sized mem dst k) :
    Answers (mem = none ∨ TooLong (extract [] bs begin len).length) dst.content (extract dst.content bs begin len)
      (subFrom mem dst src n begin len) := by
  cases hk : subLen n begin len with
  | none =>
    left
    refine ⟨by rw [subFrom, hk], Or.inr ?_⟩
    rw [extract, hsrc.length, if_pos (subLen_eq_none_iff.1 hk)]
  | some k =>
    have hsel := hsel k hk
    have hslice := slice_subLen hsrc.length hk hsel
    have hlen : (slice bs begin k).length = k := length_slice (hsel.trans_eq hsrc.length.symm)
    have hne : ¬(n ≤ begin ∨ len = 0 ∨ n < len) := by
      rw [← subLen_eq_none_iff, hk]
      simp
    rw [extract, extract, hsrc.length, if_neg hne, if_neg hne, ← hslice, hlen]
    rcases (hf k hk).wraps hv (by omega) with h32 | ⟨hmem, hnone⟩
    · have hload : begin + k ≤ src.length := hsel.trans hsrc.le
      have hspec : Yields (subFrom mem dst src n begin len) fun s => s.content = slice bs begin k := by
        refine (subFrom_spec hv fun j hj => ?_).mono fun s hs => ?_
        · cases hk.symm.trans hj
          exact ⟨hload, h32⟩
        · obtain ⟨_, _, j, hj, hs⟩ := hs
          cases hk.symm.trans hj
          rw [hs, hsrc.slice hsel]
      apply Answers.of_yields hspec
      intro hr
      exact ((refit_eq_none_iff hv h32).1 ((subFrom_null_iff hk).1 hr)).noRoom
    · left
      rw [subFrom, hk]
      simp only [hnone]
      exact ⟨trivial, Or.inl (Or.inl hmem)⟩

theorem insertFrom_answers (hv : dst.Valid) (hsrc : Gives src n bs) (hpos : pos ≤ dst.used)
    (hsel : Selects begin n (insertLen n begin len)) (hf : ∀ k, insertLen n begin len = some k → InsertSized mem dst k) :
    Answers (mem = none ∨ TooLong (dst.used + (piece bs begin len).length)) dst.content
      (splice dst.content pos (piece bs begin len)) (insertFrom mem dst pos src n begin len) := by
  cases hk : insertLen n begin len with
  | none =>
    right
    rw [piece_of_insertLen_none hsrc.length hk, splice_nil, insertFrom, hk]
    exact ⟨dst, rfl, rfl⟩
  | some k =>
    have hsel := hsel k hk
    have hlen : (slice bs begin k).length = k := length_slice (hsel.trans_eq hsrc.length.symm)
    rw [← slice_insertLen hsrc.length hk hsel, hlen]
    by_cases h32 : dst.used + k + hdrSize + 1 < 2 ^ 32
    · have hspec : Yields (insertFrom mem dst pos src n begin len) fun s =>
          s.content = splice dst.content pos (slice bs begin k) := by
        refine (insertFrom_spec hv hpos hk (hsel.trans hsrc.le) h32).mono fun s hs => ?_
        rw [hs.2.2, splice, hsrc.slice hsel]
      apply Answers.of_yields hspec
      intro hr
      exact ((insertFrom_eq_none_iff hv hk h32).1 hr).2
    · obtain ⟨rfl, hlt⟩ := (hf k hk).resolve_left h32
      left
      refine ⟨?_, Or.inl (Or.inl rfl)⟩
      simp only [insertFrom, hk, u32_eq hlt, grow_wrapped hv hlt h32]

theorem appendFrom_answers (hv : dst.Valid) (hsrc : Gives src n bs) (hf : AppendSized mem dst n) :
    Answers (mem = none ∨ maxSize < dst.totalSize + n) dst.content (dst.content ++ bs) (appendFrom mem dst src n) := by
  by_cases h0 : n = 0
  · right
    have hbs : bs = [] := List.eq_nil_of_length_eq_zero (hsrc.length.trans h0)
    refine ⟨dst, if_pos h0, ?_⟩
    rw [hbs, List.append_nil]
  · have hle := hv.used_le_totalSize
    by_cases h32 : dst.used + hdrSize + 1 + n < 2 ^ 32
    · have hspec : Yields (appendFrom mem dst src n) fun s => s.content = dst.content ++ bs :=
        (appendFrom_spec hv hsrc.le h32).mono fun s hs => hs.2.2.trans (by rw [hsrc.eq])
      apply Answers.of_yields hspec
      intro hr
      have hsize := u32_le (dst.totalSize + n)
      rcases (appendFrom_eq_none_iff hv hsrc.le h32 h0).1 hr with h | h | h
      · exact Or.inr (by omega)
      · exact Or.inr (by omega)
      · exact Or.inl h.1
    · obtain ⟨rfl, hgrow⟩ := hf.resolve_left h32
      left
      exact ⟨appendFrom_wrapped hv h0 hgrow, Or.inl (Or.inl rfl)⟩

end

/-- The operations in place. -/
theorem Pointwise.getElem?_content {g : Nat → Option Byte} {s s' : Cstr} (h : Pointwise g s s') (j : Nat) :
    s'.content[j]? = if j < s.used then g j else none := by
  rw [content, List.getElem?_take, h.used, h.byte]
  split <;> rfl

theorem getElem?_content (s : Cstr) (j : Nat) : s.content[j]? = if j < s.used then s.data[j]? else none := by
  rw [content, List.getElem?_take]

theorem mapLoop_content {p : Byte → Bool} {f : Byte → Byte} {s : Cstr} (hv : s.Valid) :
    ∃ s', mapLoop p f s.used 0 s = .ok s' ∧ s'.content = s.content.map fun c => if p c then f c else c := by
  obtain ⟨s', hs, hp⟩ := mapLoop_pointwise (p := p) (f := f) hv
  refine ⟨s', hs, ?_⟩
  ext j : 1
  rw [hp.getElem?_content, List.getElem?_map, getElem?_content]
  split <;> rfl

theorem InPlace.run_edit (f : InPlace) {s : Cstr} (hv : s.Valid)
    (hp : f = trimTail → (s.content.rdropWhile isBlank).length ≠ 1) :
    ∃ s', f.run s = .ok s' ∧ s'.content = f.edit s.content := by
  cases f with
  | clear =>
    obtain ⟨s', hs, _, _, hu⟩ := clear_spec hv
    exact ⟨s', hs, content_of_used_eq_zero hu⟩
  | reverse =>
    obtain ⟨s', hs, _, hc⟩ := reverse_spec hv
    exact ⟨s', hs, hc⟩
  | tolower => exact mapLoop_content hv
  | toupper => exact mapLoop_content hv
  | trim =>
    obtain ⟨s', hs, _, hc, _⟩ := trim_spec hv
    exact ⟨s', hs, hc⟩
  | trimHdr =>
    obtain ⟨s', hs, _, hc, _⟩ := trimHdr_spec hv
    exact ⟨s', hs, hc⟩
  | trimTail =>
    obtain ⟨s', hs, _, hc, _⟩ := trimTail_spec hv
    exact ⟨s', hs, hc (hp rfl)⟩

/-! ## One call -/

/-- The call went from the strings `ss` to `ss'`; or, for the reason `R`, it left them or the program stopped at `NULL`. -/
def Edited (R : Prop) (ss ss' : Strings Byte) : M Objects → Prop
  | .ok os => strings os = ss' ∨ strings os = ss ∧ R
  | .error e => e = .null ∧ R

section
variable {os : Objects} {mem : Mem} {r : M (Option Cstr)} {R : Prop} {bs : List Byte}

theorem create_edited (h : r = .error .null ∧ R ∨ r = .ok none ∧ R ∨ ∃ s, r = .ok (some s) ∧ s.content = bs) :
    Edited R (strings os) (strings os ++ [some bs]) (create os r) := by
  rcases h with ⟨rfl, hR⟩ | ⟨rfl, hR⟩ | ⟨s, rfl, rfl⟩
  · exact ⟨rfl, hR⟩
  · exact Or.inr ⟨rfl, hR⟩
  · exact Or.inl (strings_append ..)

theorem update_edited {i : Nat} {d : Cstr} (hd : fetch os i = some d) (h : Answers R d.content bs r) :
    Edited R (strings os) ((strings os).set i (some bs)) (update os i r) := by
  rcases h with ⟨rfl, hR | rfl⟩ | ⟨s, rfl, rfl⟩
  · exact Or.inr ⟨rfl, hR⟩
  · exact Or.inl (set_stringAt (stringAt_strings_eq hd)).symm
  · exact Or.inl (strings_set ..)

theorem newSize_noRoom {cap : Nat} (h : newSize mem cap = .ok none) : mem = none ∨ TooLong cap := by
  by_cases hle : u32 (cap + hdrSize + 1) ≤ maxSize
  · rcases newSize_cases mem hle with ⟨_, hmem⟩ | ⟨_, s, hs, _⟩
    · exact Or.inl hmem
    · rw [hs] at h
      cases h
  · exact Or.inr (Nat.lt_of_lt_of_le (Nat.lt_of_not_le hle) (u32_le _))

theorem newSize_creates (cap : Nat) : newSize mem cap = .ok none ∧ (mem = none ∨ TooLong cap) ∨
    ∃ s, newSize mem cap = .ok (some s) ∧ s.content = [] := by
  rcases newSize_spec mem cap with h | ⟨s, hs, _, _, hu, _⟩
  · exact Or.inl ⟨h, newSize_noRoom h⟩
  · exact Or.inr ⟨s, hs, content_of_used_eq_zero hu⟩

theorem newStr_creates {str : Option CString} (hf : Fits os (.newStr mem str)) :
    newStr mem str = .error .null ∧ NoRoom os (.newStr mem str) ∨
      newStr mem str = .ok none ∧ NoRoom os (.newStr mem str) ∨
      ∃ s, newStr mem str = .ok (some s) ∧ s.content = str.elim [] text := by
  cases str with
  | none =>
    right
    have hspec : Yields (newStr mem none) _ := newStr_null_spec
    rcases hspec with h | ⟨s, hs, _, _, hu, _⟩
    · cases mem with
      | none => exact Or.inl ⟨h, Or.inl rfl⟩
      | some m => exact absurd h (bind_ne_ok fun _ => bind_ne_ok fun _ => nofun)
    · exact Or.inr ⟨s, hs, content_of_used_eq_zero hu⟩
  | some str =>
    rcases newSize_spec mem str.strlen with hn | ⟨⟨cap, used, data⟩, hs, hv, _, _, _, hcap⟩
    · left
      refine ⟨by simp only [newStr, hn, ok_bind], ?_⟩
      exact (newSize_noRoom hn).imp_right fun hlong => ⟨str, rfl, hlong⟩
    · right
      right
      rcases hf with rfl | h32
      · rw [newSize_none] at hs
        cases hs
      · obtain ⟨s, hnew, _, _, hc, _⟩ := newStr_fits hs hv (hcap h32)
        exact ⟨s, hnew, hc.trans (by rw [slice_zero]; exact (gives_text str).eq)⟩

theorem new_creates {src : Option Cstr} (hv : ∀ s ∈ src, s.Valid) :
    new mem src = .ok none ∧ mem = none ∨ ∃ s, new mem src = .ok (some s) ∧ s.content = src.elim [] content := by
  have hyields : Yields (new mem src) fun s => s.content = src.elim [] content := by
    cases src with
    | none => exact new_null_spec.mono fun s hs => content_of_used_eq_zero hs.2.2
    | some s => exact (new_spec (hv s rfl)).mono fun s hs => hs.2.2
  refine hyields.imp_left fun h => ⟨h, ?_⟩
  cases mem with
  | none => rfl
  | some m =>
    cases src with
    | none => exact absurd h (bind_ne_ok fun _ => nofun)
    | some s => exact absurd h (bind_ne_ok fun _ => bind_ne_ok fun _ => bind_ne_ok fun _ => nofun)

theorem copy_answers {d s : Cstr} {begin len : Nat} (hd : d.Valid) (hs : s.Valid)
    (hsel : begin + copyLen s.used len ≤ s.used) (hfit : CopyFits mem d (copyLen s.used len)) :
    Answers (mem = none) d.content (overlay d.content (piece s.content begin len)) (copy mem d s begin len) := by
  have hgives := hs.gives
  have hsmall := hs.used_add_le
  have hle := copyLen_le s.used len
  have hspec : Yields (copy mem d s begin len) fun t => t.content = overlay d.content (piece s.content begin len) := by
    refine (copy_spec hd hs hsel hfit).mono fun t ht => ?_
    have hlen : (slice s.content begin (copyLen s.used len)).length = copyLen s.used len :=
      length_slice (hsel.trans_eq hgives.length.symm)
    rw [ht.2.2.2, hgives.slice hsel, overlay, ← slice_copyLen hgives.length, hlen]
  apply Answers.of_yields hspec
  intro hr
  rcases copyFrom_cases mem hd (hsel.trans hgives.le) (show copyLen s.used len + hdrSize + 1 < 2 ^ 32 by omega) with
    ⟨_, hlong | hmem⟩ | ⟨_, cap, data, hc, _⟩
  · have hmax : maxSize = 2 ^ 29 := rfl
    omega
  · exact hmem.1
  · rw [copy, hc, ok_bind] at hr
    exact absurd hr (bind_ne_ok fun _ h => by cases h)

end

/-- **What a call does to the strings**: its edit, or nothing where there is no room for it. -/
theorem exec_edit {os : Objects} {c : Call} (hv : ∀ s, some s ∈ os → s.Valid) (hr : InRange os c) (hf : Fits os c)
    (hp : Plain os c) : Edited (NoRoom os c) (strings os) (c.edit.apply (strings os)) (exec os c) := by
  have hvalid : ∀ {i s}, fetch os i = some s → s.Valid := fun h => hv _ (fetch_mem h)
  cases c with
  | newStr mem str => exact create_edited (newStr_creates hf)
  | newSize mem cap => exact create_edited (Or.inr (newSize_creates cap))
  | new mem src =>
    cases src with
    | none =>
      have hsrc : ∀ s ∈ (none : Option Cstr), s.Valid := nofun
      exact create_edited (Or.inr (new_creates hsrc))
    | some i =>
      obtain ⟨s, hs, _⟩ := hr
      simp only [exec, onOne, hs, Call.edit, Edit.apply, stringAt_strings_eq hs]
      refine create_edited (Or.inr (new_creates fun t ht => ?_))
      cases ht
      exact hvalid hs
  | free i => exact Or.inl (strings_set none)
  | inPlace f i =>
    obtain ⟨s, hs, _⟩ := hr
    obtain ⟨s', hs', hc⟩ := f.run_edit (hvalid hs) (by rintro rfl; exact hp s hs)
    simp only [exec, onOne, hs, hs', ok_bind, Call.edit, apply_change (stringAt_strings_eq hs)]
    exact update_edited hs (Or.inr ⟨s', rfl, hc⟩)
  | assign mem dst src =>
    obtain ⟨_, d, s, hd, hs, _⟩ := hr
    have hsrc := hvalid hs
    have hsmall := hsrc.used_add_le
    simp only [exec, onOne, hd, hs, Call.edit, apply_combine (stringAt_strings_eq hd) (stringAt_strings_eq hs)]
    refine update_edited hd ((assignFrom_answers (hvalid hd) hsrc.gives (by omega) (Or.inl (by omega))).mono ?_)
    rintro (hmem | hlong)
    · exact hmem
    · exact absurd (Nat.lt_of_lt_of_le hlong hsmall) (Nat.lt_irrefl _)
  | assignStr mem dst src =>
    obtain ⟨d, hd, _⟩ := hr
    simp only [exec, onOne, hd, Call.edit, apply_change (stringAt_strings_eq hd)]
    apply update_edited hd
    cases src with
    | none => exact Or.inl ⟨rfl, Or.inr rfl⟩
    | some str =>
      refine (assignFrom_answers (hvalid hd) (gives_text str) str.strlen_lt (hf d hd)).mono fun h => ?_
      exact ⟨str, rfl, h⟩
  | copy mem dst src begin len =>
    obtain ⟨_, d, s, hd, hs, hsel⟩ := hr
    simp only [exec, onOne, hd, hs, Call.edit, apply_combine (stringAt_strings_eq hd) (stringAt_strings_eq hs)]
    exact update_edited hd (copy_answers (hvalid hd) (hvalid hs) hsel (hf d s hd hs))
  | copyStr mem dst src begin len =>
    obtain ⟨d, hd, hsel⟩ := hr
    simp only [exec, onOne, hd, Call.edit, apply_change (stringAt_strings_eq hd)]
    apply update_edited hd
    cases src with
    | none => exact Or.inr ⟨d, rfl, rfl⟩
    | some str =>
      have hsel := hsel str rfl
      have hgives := gives_text str
      by_cases h0 : str.strlen = 0
      · refine Or.inr ⟨d, if_pos h0, ?_⟩
        have hnil : text str = [] := List.eq_nil_of_length_eq_zero (hgives.length.trans h0)
        simp [hnil, piece, overlay_nil]
      · obtain ⟨hsized, hfit⟩ := hf d hd h0
        simp only [copyStr, if_neg h0, Option.elim_some, ← slice_copyLen hgives.length]
        refine (copyFrom_answers (hvalid hd) hgives hsel str.strlen_lt hsized hfit).mono fun h => ?_
        exact ⟨str, rfl, h⟩
  | subCstr mem substr cstr begin len =>
    obtain ⟨_, d, s, hd, hs, hsel⟩ := hr
    have hsrc := hvalid hs
    have hsmall := hsrc.used_add_le
    simp only [exec, onOne, hd, hs, Call.edit, apply_combine (stringAt_strings_eq hd) (stringAt_strings_eq hs)]
    refine update_edited hd ((subFrom_answers (hvalid hd) hsrc.gives hsel (by omega) fun k hk => ?_).mono ?_)
    · have := hsel k hk
      exact Or.inl (by omega)
    · rintro (hmem | hlong)
      · exact hmem
      · have hlen := length_extract_le s.content begin len
        rw [hsrc.length_content] at hlen
        simp only [TooLong, maxSize] at hlong
        omega
  | subStr mem substr str begin len =>
    obtain ⟨d, hd, hsel⟩ := hr
    simp only [exec, onOne, hd, Call.edit, apply_change (stringAt_strings_eq hd)]
    exact update_edited hd (subFrom_answers (hvalid hd) (gives_text str) hsel str.strlen_lt fun k hk => hf d k hd hk)
  | insert mem dst pos istr begin len =>
    obtain ⟨_, d, s, hd, hs, hpos, hsel⟩ := hr
    have hsrc := hvalid hs
    have hdsmall := (hvalid hd).used_add_le
    have hssmall := hsrc.used_add_le
    simp only [exec, onOne, hd, hs, Call.edit, apply_combine (stringAt_strings_eq hd) (stringAt_strings_eq hs)]
    refine update_edited hd ((insertFrom_answers (hvalid hd) hsrc.gives hpos hsel fun k hk => Or.inl ?_).mono ?_)
    · have := hsel k hk
      omega
    · exact fun h => h.imp_right fun hlong => ⟨d, s, hd, hs, hlong⟩
  | insertStr mem dst pos str begin len =>
    obtain ⟨d, hd, hpos, hsel⟩ := hr
    simp only [exec, onOne, hd, Call.edit, apply_change (stringAt_strings_eq hd)]
    apply update_edited hd
    cases str with
    | none => exact Or.inr ⟨d, rfl, rfl⟩
    | some str =>
      refine (insertFrom_answers (hvalid hd) (gives_text str) hpos (hsel str rfl) fun k hk => hf d k hd hk).mono ?_
      exact fun h => h.imp_right fun hlong => ⟨d, str, hd, rfl, hlong⟩
  | append mem dst src =>
    obtain ⟨_, d, s, hd, hs, _⟩ := hr
    have hsrc := hvalid hs
    have hdsmall := (hvalid hd).used_add_le
    have hssmall := hsrc.used_add_le
    simp only [exec, onOne, hd, hs, Call.edit, apply_combine (stringAt_strings_eq hd) (stringAt_strings_eq hs)]
    refine update_edited hd ((appendFrom_answers (hvalid hd) hsrc.gives (Or.inl (by omega))).mono ?_)
    exact fun h => h.imp_right fun hlong => ⟨d, s, hd, hs, hlong⟩
  | appendStr mem dst src =>
    obtain ⟨d, hd, _⟩ := hr
    simp only [exec, onOne, hd, Call.edit, apply_change (stringAt_strings_eq hd)]
    apply update_edited hd
    cases src with
    | none => exact Or.inl ⟨rfl, Or.inr rfl⟩
    | some str =>
      refine (appendFrom_answers (hvalid hd) (gives_text str) (hf d hd)).mono ?_
      exact fun h => h.imp_right fun hlong => ⟨d, str, hd, rfl, hlong⟩

end TinyUtils.Cstr
