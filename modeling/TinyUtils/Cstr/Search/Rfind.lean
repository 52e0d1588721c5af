import TinyUtils.Cstr.InPlace
import TinyUtils.Cstr.Search.Sunday
/-!
# Reverse and find (`c_utils/cstr.h:75-79`)

"no rfind, please use reverse and find": the first occurrence of the reversed pattern in the reversed text
is the last one of the pattern in the text.
-/

namespace TinyUtils

open Matching

/-- The string backwards. -/
def CString.reverse (p : CString) : CString := ⟨p.bytes.reverse, by rw [List.mem_reverse]; exact p.noNul⟩

namespace Cstr

open Loops

/-- **Reverse and find is rfind.** -/
theorem rfind {s : Cstr} (hv : s.Valid) (p : CString) (hm1 : 1 ≤ p.bytes.length) (hmax : p.bytes.length < 256) :
    ∃ s' r, s.reverse = .ok s' ∧ Returns (findFirst uchar s' p.reverse 0) r ∧
      (r = -1 ↔ ∀ i, ¬OccursAt s.content p.bytes i) ∧
      (r ≠ -1 → ∃ i : Nat, s.used - p.bytes.length - r = i ∧ IsGreatest {i | OccursAt s.content p.bytes i} i) := by
  obtain ⟨s', hs, hv', hcontent⟩ := reverse_spec hv
  have hlen : p.reverse.bytes.length = p.bytes.length := List.length_reverse
  have hfind : ∃ r, Returns (findFirst uchar s' p.reverse 0) r ∧ FirstMatch s'.content p.reverse.bytes 0 r :=
    findFirst_returns hv'.text (by decide) (by rw [hlen]; exact hm1) (by rw [hlen]; exact hmax)
  obtain ⟨r, hr, hfirst⟩ := hfind
  rw [hcontent] at hfirst
  refine ⟨s', r, hs, hr, ?_⟩
  rcases FirstMatch.last hfirst with ⟨rfl, hnone⟩ | ⟨i, rfl, hgreatest⟩
  · exact ⟨iff_of_true rfl hnone, fun h => absurd rfl h⟩
  · have hocc : OccursAt s.content p.bytes i := hgreatest.1
    have hle := hocc.1
    have hused := hv.length_content
    refine ⟨iff_of_false (by omega) fun hnone => hnone i hocc, fun _ => ⟨i, by omega, hgreatest⟩⟩

/-- "ab" in "abcab". -/
theorem rfind_abcab :
    ∃ s' r, (small [97, 98, 99, 97, 98]).reverse = .ok s' ∧
      Returns (findFirst uchar s' (CString.reverse ⟨[97, 98], by decide⟩) 0) r ∧
      (r = -1 ↔ ∀ i, ¬OccursAt (small [97, 98, 99, 97, 98]).content [97, 98] i) ∧
      (r ≠ -1 → ∃ i : Nat, (small [97, 98, 99, 97, 98]).used - ([97, 98] : List Byte).length - r = i ∧
        IsGreatest {i | OccursAt (small [97, 98, 99, 97, 98]).content [97, 98] i} i) :=
  rfind (small_valid (by decide)) ⟨[97, 98], by decide⟩ (by decide) (by decide)

end Cstr

end TinyUtils
