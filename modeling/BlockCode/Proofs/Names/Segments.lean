/- # Names by their segments

A name is printed as its segments are, with dots between them. A table of spellings replaces some
of the segments. An empty table, and no table, replace none, and the name is put together again as
it was.
-/

import BlockCode.Proofs.Text.Cutting
import BlockCode.Target.ExprPrinter

namespace BlockCode

namespace Spellings

/-- What holds of every spelling holds of the one that is looked up. -/
theorem spelling?_of_forall {P : String → Prop} {spellings : Spellings}
    (h : ∀ entry ∈ spellings, P entry.2) {name spelling : String}
    (hname : spellings.spelling? name = some spelling) : P spelling := by
  obtain ⟨front, behind, hsplit, _⟩ := List.lookup_eq_some_iff.mp hname
  apply h (name, spelling)
  rw [hsplit]
  simp

/-- An empty table leaves a name as it is. -/
theorem rename_nil (name : String) : rename [] name = name := by
  have hsegments : (nameSegments name).map (fun segment => ((spelling? [] segment).getD segment)) =
      nameSegments name :=
    List.map_id _
  rw [rename, hsegments, nameSegments, stringPiecesAt, ← String.toList_inj,
    String.toList_intercalate, List.map_map]
  have hpieces : (piecesAt '.' name.toList).map (String.toList ∘ String.ofList) =
      piecesAt '.' name.toList := by
    simp [Function.comp_def]
  rw [hpieces]
  exact intercalate_piecesAt '.' name.toList

end Spellings

/-- The characters of a segment are characters of the name. -/
theorem mem_of_mem_nameSegments {name segment : String} {c : Char}
    (hsegment : segment ∈ nameSegments name) (hc : c ∈ segment.toList) : c ∈ name.toList := by
  obtain ⟨piece, hpiece, rfl⟩ := List.mem_map.mp hsegment
  rw [String.toList_ofList] at hc
  exact mem_of_mem_piecesAt hpiece hc

namespace ExprPrinter

variable (p : ExprPrinter)

/-- The segments of a name as they are printed. -/
def segments (word : String) : List String :=
  (nameSegments word).map fun segment =>
    (p.spellings?.bind fun spellings => spellings.spelling? segment).getD segment

theorem name_eq_intercalate (word : String) :
    p.name word = ".".intercalate (p.segments word) := by
  rw [name, segments]
  cases p.spellings? with
  | none => exact (Spellings.rename_nil word).symm
  | some spellings => rfl

/-- What holds of the segments of a name and of all spellings holds of the segments as they are
printed. -/
theorem forall_mem_segments {P : String → Prop} {word : String}
    (hspellings : ∀ spellings ∈ p.spellings?, ∀ entry ∈ spellings, P entry.2)
    (hword : ∀ segment ∈ nameSegments word, P segment) : ∀ segment ∈ p.segments word, P segment :=
    by
  rw [segments, List.forall_mem_map]
  intro segment hsegment
  cases hfound : p.spellings?.bind fun spellings => spellings.spelling? segment with
  | none => exact hword segment hsegment
  | some spelling =>
      obtain ⟨spellings, hmem, hspelling⟩ := Option.bind_eq_some_iff.mp hfound
      exact Spellings.spelling?_of_forall (hspellings spellings hmem) hspelling

end ExprPrinter

end BlockCode
