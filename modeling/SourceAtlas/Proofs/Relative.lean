import SourceAtlas.Graph.Basic
import SourceAtlas.Proofs.Extraction
import SourceAtlas.Text.Parts

/-!
Files by their texts as seen from a root. Such a text leads from the root back to the file, whatever
slashes and points the texts of file and root are written with, so two files have one text only if they
are one path. Nodes of the graph are therefore told apart by it.
-/
namespace SourceAtlas

open Text

namespace Path

def leading (cs : List Sign) : Nat := (cs.takeWhile (· = Sign.char '/')).length

/-- The names along the path that a text denotes. -/
def names (cs : List Sign) : List Text := (pieces cs).filter fun p => p ≠ "" && p ≠ "."

theorem parse_eq (s : Text) : parse s = ⟨anchorOf (leading s.toList), names s.toList⟩ := rfl

theorem names_append_slash (cs ds : List Sign) : names (cs ++ Sign.char '/' :: ds) = names cs ++ names ds := by
  rw [names, pieces, piecesFrom_append_slash, List.filter_append]
  rfl

theorem startsWith_slash {s : Text} : startsWith "/" s = true ↔ s.toList.head? = some (Sign.char '/') := by
  rw [startsWith, List.isPrefixOf_iff_prefix, List.head?_eq_some_iff]
  exact exists_congr fun cs => eq_comm

theorem endsWith_slash {s : Text} : endsWith "/" s = true ↔ ∃ cs, s.toList = cs ++ [Sign.char '/'] := by
  rw [endsWith, List.isSuffixOf_iff_suffix]
  exact exists_congr fun cs => eq_comm

theorem leading_eq_zero_iff {cs : List Sign} : leading cs = 0 ↔ cs.head? ≠ some (Sign.char '/') := by
  cases cs with
  | nil => simp [leading]
  | cons c cs => by_cases hSlash : c = Sign.char '/' <;> simp [leading, hSlash]

/-- Absolute paths are those whose text begins with a slash. -/
theorem parse_isAbsolute (s : Text) : (parse s).isAbsolute = startsWith "/" s := by
  have hAnchor (n : Nat) : anchorOf n = .none ↔ n = 0 := by
    rw [anchorOf]
    split
    · simpa
    · split <;> simpa
  rw [Bool.eq_iff_iff, startsWith_slash, parse_eq, isAbsolute, decide_eq_true_eq, ne_eq, hAnchor, leading_eq_zero_iff,
    not_not]

/-- What follows a text adds no slashes to those it begins with, if another
character is between. -/
theorem leading_append {cs ds : List Sign} (hBetween : ds.head? ≠ some (Sign.char '/') ∨ ∃ c ∈ cs, c ≠ Sign.char '/') :
    leading (cs ++ ds) = leading cs := by
  induction cs with
  | nil =>
      have hHead : ds.head? ≠ some (Sign.char '/') := hBetween.resolve_right (by simp)
      rw [List.nil_append, leading_eq_zero_iff.mpr hHead]
      rfl
  | cons c cs ih =>
      by_cases hSlash : c = Sign.char '/'
      · have hRest := ih (hBetween.imp_right (by simp [hSlash]))
        rw [leading, leading] at hRest
        simp [leading, hSlash, hRest]
      · simp [leading, hSlash]

/-- The text of a file written after that of a directory, with a slash
between them where none is there. A text that begins with a slash
stands for itself. -/
def joinText (directory file : Text) : Text :=
  if startsWith "/" file then file
  else if directory = "" || endsWith "/" directory then directory ++ file
  else directory ++ "/" ++ file

/-- Texts written one after the other denote one path seen from the other. -/
theorem parse_joinText (directory file : Text) :
    parse (joinText directory file) = (parse directory).join (parse file) := by
  rw [joinText, join, parse_isAbsolute]
  split
  · rfl
  · next hRelative =>
    rw [startsWith_slash] at hRelative
    split
    · next hOpen =>
      have hNames : names (directory.toList ++ file.toList) = names directory.toList ++ names file.toList := by
        simp only [Bool.or_eq_true, decide_eq_true_eq, endsWith_slash] at hOpen
        rcases hOpen with rfl | ⟨cs, hEnd⟩
        · rfl
        · rw [hEnd, List.append_assoc, List.singleton_append, names_append_slash, names_append_slash]
          rw [show names [] = [] from rfl, List.append_nil]
      rw [parse_eq, Text.toList_append, leading_append (.inl hRelative), hNames]
      rfl
    · next hClosed =>
      simp only [Bool.or_eq_true, decide_eq_true_eq, endsWith_slash, not_or, not_exists] at hClosed
      have hSome : directory.toList ≠ [] := fun hNil => hClosed.1 (Text.toList_eq_nil_iff.mp hNil)
      have hLast : directory.toList.getLast hSome ≠ Sign.char '/' := fun hSlash =>
        hClosed.2 _ (hSlash ▸ (List.dropLast_append_getLast hSome).symm)
      have hText : (directory ++ "/" ++ file).toList = directory.toList ++ Sign.char '/' :: file.toList := by
        rw [Text.toList_append, Text.toList_append, List.append_assoc]
        rfl
      rw [parse_eq, hText, leading_append (.inr ⟨_, List.getLast_mem hSome, hLast⟩), names_append_slash]
      rfl

theorem join_relativeText {p : Path} (hp : p.Readable) (hAbsolute : p.isAbsolute = true) (base : Path) :
    base.join (parse (p.relativeText base)) = p :=
  (join_relativeText_iff hp base).mpr (.inl hAbsolute)

/-- The node of a file's record is named by the text of the file as seen
from the root. -/
theorem node_id {path root : Path} {extensions : List Text} {content : Option (List UInt8)} {w w' : World} {r : Record}
    (hRun : (Extraction.extract path root extensions content).on w = (.ok r, w')) :
    (DependencyGraph.nodeOf r).id = path.relativeText root :=
  (Extraction.gives_extract w path root extensions content _ _ _ rfl rfl hRun).2.1

/-- The text of a file as seen from a root keeps all of the file. -/
structure Lossless (file root : Text) : Prop where
  /-- It leads from the root back to the file, -/
  rejoined : (parse root).join (parse ((parse file).relativeText (parse root))) = parse file
  /-- also where it is written after the text of the root. -/
  rewritten : parse (joinText root ((parse file).relativeText (parse root))) = parse file
  /-- Another file has it only if that is the same path. -/
  distinct : ∀ other : Text, startsWith "/" other = true →
    ((parse other).relativeText (parse root) = (parse file).relativeText (parse root) ↔ parse other = parse file)
  /-- So do their nodes have the same name, whenever and however the files were read. -/
  identified : ∀ (other : Text) (extensions extensions' : List Text) (content content' : Option (List UInt8))
    (w w' v v' : World) (r r' : Record), startsWith "/" other = true →
      (Extraction.extract (parse file) (parse root) extensions content).on w = (.ok r, w') →
        (Extraction.extract (parse other) (parse root) extensions' content').on v = (.ok r', v') →
          ((DependencyGraph.nodeOf r').id = (DependencyGraph.nodeOf r).id ↔ parse other = parse file)

/-- Absolute files lose nothing as seen from any root. -/
theorem relative_text_lossless (file root : Text) (hAbsolute : startsWith "/" file = true) : Lossless file root := by
  have hFile : (parse file).isAbsolute = true := parse_isAbsolute file ▸ hAbsolute
  have hRejoined := join_relativeText (parse_readable file) hFile (parse root)
  have hDistinct {other : Text} (hOther : startsWith "/" other = true) :
      (parse other).relativeText (parse root) = (parse file).relativeText (parse root) ↔ parse other = parse file :=
    relativeText_inj (parse_readable other) (parse_readable file) (parse_isAbsolute other ▸ hOther) hFile
  refine ⟨hRejoined, ?_, fun other hOther => hDistinct hOther, ?_⟩
  · rw [parse_joinText, hRejoined]
  · intro other extensions extensions' content content' w w' v v' r r' hOther hRun hRun'
    rw [node_id hRun, node_id hRun']
    exact hDistinct hOther

namespace Sample

/-- A file that leaves its root by two points, where two slashes are a root
of their own, and one whose directory only begins like the root. -/
theorem lookalikes_lossless :
    (startsWith "/" "//app/.//../x.ts" = true ∧
      (parse "//app/.//../x.ts").relativeText (parse "//app/") = "../x.ts" ∧ Lossless "//app/.//../x.ts" "//app/") ∧
    (startsWith "/" "/app2/x.ts" = true ∧
      (parse "/app2/x.ts").relativeText (parse "/app") = "/app2/x.ts" ∧ Lossless "/app2/x.ts" "/app") :=
  ⟨⟨by decide, by decide +kernel, relative_text_lossless _ _ (by decide)⟩,
    ⟨by decide, by decide +kernel, relative_text_lossless _ _ (by decide)⟩⟩

end Sample

end Path

end SourceAtlas
