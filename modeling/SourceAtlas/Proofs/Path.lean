import Mathlib.Tactic
import SourceAtlas.Path
import SourceAtlas.Proofs.Text.Basic

/-!
Paths made of names. A path whose parts are names is the one its text denotes, so its text
determines it; and normalising an absolute path leaves names only.
-/
namespace SourceAtlas

/-- What a part of a parsed path can be: not empty, no
single point, no slash. -/
structure IsPart (s : Text) : Prop where
  nonempty : s ≠ ""
  notPoint : s ≠ "."
  noSlash : Sign.char '/' ∉ s.toList

/-- A name that an entry of a directory can have. -/
structure IsName (s : Text) : Prop extends IsPart s where
  notUp : s ≠ ".."

instance (s : Text) : Decidable (IsName s) :=
  decidable_of_iff ((s ≠ "" ∧ s ≠ "." ∧ Sign.char '/' ∉ s.toList) ∧ s ≠ "..")
    ⟨fun h => ⟨⟨h.1.1, h.1.2.1, h.1.2.2⟩, h.2⟩,
      fun h => ⟨⟨h.nonempty, h.notPoint, h.noSlash⟩, h.notUp⟩⟩

namespace Path

/-- A path made of parts that a text can have. -/
def Readable (p : Path) : Prop := ∀ n ∈ p.parts, IsPart n

/-- A path made of names only. -/
def Named (p : Path) : Prop := ∀ n ∈ p.parts, IsName n

/-- A path made of names is readable, since a name is a part that
is not the way up. -/
theorem Named.readable {p : Path} (hNamed : p.Named) : p.Readable := fun n hn => (hNamed n hn).toIsPart

def Legible (p : Path) : Prop := ∀ n ∈ p.parts, n.isString = true

instance (p : Path) : Decidable p.Legible := inferInstanceAs (Decidable (∀ n ∈ _, _))

/-- The text of a path is a string exactly if its names are. -/
theorem text_isString_iff {p : Path} : p.text.isString = true ↔ p.Legible := by
  have hBody : (p.anchor.text ++ Text.intercalate "/" p.parts).isString = true ↔ p.Legible := by
    rw [Text.isString_append, Text.isString_intercalate (Text.isString_ofString _), Bool.and_eq_true,
      List.all_eq_true]
    exact and_iff_right (by cases p.anchor <;> rfl)
  rw [text]
  split
  · next hEmpty =>
    rw [hEmpty] at hBody
    exact ⟨fun _ => hBody.mp rfl, fun _ => rfl⟩
  · exact hBody

/-- An absolute path joined to anything is itself. -/
theorem join_of_absolute {q : Path} (hAbsolute : q.isAbsolute = true) (p : Path) : p.join q = q := by
  rw [join, if_pos hAbsolute]

theorem join_isAbsolute {p : Path} (hAbsolute : p.isAbsolute = true) (q : Path) :
    (p.join q).isAbsolute = true := by
  rw [join]
  split
  · assumption
  · exact hAbsolute

/-- The parts of a joined path are those of the second and, unless the
second is absolute, those of the first. -/
theorem mem_join_parts {p q : Path} {n : Text} :
    n ∈ (p.join q).parts ↔ q.isAbsolute = false ∧ n ∈ p.parts ∨ n ∈ q.parts := by
  rw [join]
  split
  · next hAbsolute => simp [hAbsolute]
  · next hRelative => simp [hRelative]

theorem join_readable {p q : Path} (hp : p.Readable) (hq : q.Readable) : (p.join q).Readable := by
  rw [join]
  split
  · exact hq
  · intro n hn
    rcases List.mem_append.mp hn with hn | hn
    · exact hp n hn
    · exact hq n hn

/-- A slash cuts a text apart. -/
theorem piecesFrom_append_slash (current cs rest : List Sign) :
    piecesFrom current (cs ++ Sign.char '/' :: rest) = piecesFrom current cs ++ pieces rest := by
  induction cs generalizing current with
  | nil => simp [piecesFrom, pieces]
  | cons c cs ih =>
      rw [List.cons_append, piecesFrom, piecesFrom, ih, ih]
      split <;> rfl

/-- A text without a slash is one piece. -/
theorem piecesFrom_of_no_slash {name : List Sign} (hSlash : Sign.char '/' ∉ name) (current : List Sign) :
    piecesFrom current name = [Text.ofList (current.reverse ++ name)] := by
  induction name generalizing current with
  | nil => simp [piecesFrom]
  | cons c name ih =>
      simp only [List.mem_cons, not_or] at hSlash
      rw [piecesFrom, if_neg (Ne.symm hSlash.1), ih hSlash.2]
      simp

/-- Names with slashes between them are cut apart again. -/
theorem pieces_intercalate {names : List Text} (hNames : ∀ n ∈ names, IsPart n)
    (hSome : names ≠ []) : pieces (List.intercalate [Sign.char '/'] (names.map Text.toList)) = names := by
  induction names with
  | nil => exact absurd rfl hSome
  | cons n names ih =>
      have hSlash := (hNames n (List.mem_cons_self ..)).noSlash
      cases names with
      | nil =>
          rw [List.map_cons, List.map_nil, List.intercalate_singleton, pieces,
            piecesFrom_of_no_slash hSlash]
          simp
      | cons m names =>
          rw [List.map_cons, List.map_cons, List.intercalate_cons_cons, ← List.map_cons,
            List.append_assoc, List.singleton_append, pieces, piecesFrom_append_slash,
            piecesFrom_of_no_slash hSlash, ih (fun n hn => hNames n (List.mem_cons_of_mem _ hn)) (List.cons_ne_nil _ _)]
          simp

/-- How many slashes an anchor is written with. -/
def slashes : Anchor → Nat
  | .none => 0
  | .root => 1
  | .doubleRoot => 2

/-- Slashes before a text are empty pieces before its own. -/
theorem pieces_replicate (k : Nat) (cs : List Sign) :
    pieces (List.replicate k (Sign.char '/') ++ cs) = List.replicate k ("" : Text) ++ pieces cs := by
  induction k with
  | zero => rfl
  | succ k ih =>
      rw [List.replicate_succ, List.cons_append, pieces, piecesFrom, if_pos rfl, List.replicate_succ,
        List.cons_append]
      rw [pieces] at ih
      rw [ih]
      rfl

theorem anchor_text_toList (a : Anchor) : a.text.toList = List.replicate (slashes a) (Sign.char '/') := by
  cases a <;> rfl

/-- The names of a path with slashes between them begin with no slash. -/
theorem intercalate_head {parts : List Text} (hParts : ∀ n ∈ parts, IsPart n) (hSome : parts ≠ []) :
    ∃ c cs, List.intercalate [Sign.char '/'] (parts.map Text.toList) = c :: cs ∧ c ≠ Sign.char '/' := by
  obtain ⟨n, rest, rfl⟩ := List.exists_cons_of_ne_nil hSome
  have hName := hParts n (List.mem_cons_self ..)
  obtain ⟨c, cs, hc⟩ : ∃ c cs, n.toList = c :: cs :=
    List.exists_cons_of_ne_nil fun hNil => hName.nonempty (Text.toList_eq_nil_iff.mp hNil)
  have hSlash : c ≠ Sign.char '/' := fun hEq => hName.noSlash (hc ▸ hEq ▸ List.mem_cons_self ..)
  cases rest with
  | nil => exact ⟨c, cs, by simp [hc], hSlash⟩
  | cons m rest =>
      refine ⟨c, cs ++ [Sign.char '/'] ++ List.intercalate [Sign.char '/'] (m.toList :: rest.map Text.toList), ?_, hSlash⟩
      rw [List.map_cons, List.map_cons, List.intercalate_cons_cons, hc]
      simp

/-- The text of a path with parts is the slashes of its anchor, followed by
the parts with one slash between two of them. -/
theorem text_toList {p : Path} (hParts : p.Readable) (hSome : p.parts ≠ []) :
    p.text.toList = List.replicate (slashes p.anchor) (Sign.char '/') ++
      List.intercalate [Sign.char '/'] (p.parts.map Text.toList) := by
  have hBody : (p.anchor.text ++ Text.intercalate "/" p.parts).toList =
      List.replicate (slashes p.anchor) (Sign.char '/') ++
        List.intercalate [Sign.char '/'] (p.parts.map Text.toList) := by
    rw [Text.toList_append, anchor_text_toList, Text.toList_intercalate]
    rfl
  have hNotEmpty : p.anchor.text ++ Text.intercalate "/" p.parts ≠ "" := by
    intro hEmpty
    obtain ⟨c, cs, hHead, -⟩ := intercalate_head hParts hSome
    rw [hEmpty, hHead] at hBody
    simp at hBody
  rw [text, if_neg hNotEmpty, hBody]

/-- The text of a path denotes the path. -/
theorem parse_text {p : Path} (hParts : p.Readable) : parse p.text = p := by
  by_cases hSome : p.parts = []
  · obtain ⟨anchor, parts⟩ := p
    subst hSome
    cases anchor <;> rfl
  · obtain ⟨c, cs, hHead, hSlash⟩ := intercalate_head hParts hSome
    have hLead : (p.text.toList.takeWhile (· = Sign.char '/')).length = slashes p.anchor := by
      rw [text_toList hParts hSome, hHead, List.takeWhile_append_of_pos (by simp),
        List.takeWhile_cons_of_neg (by simpa using hSlash)]
      simp
    have hAnchor : anchorOf (slashes p.anchor) = p.anchor := by
      cases p.anchor <;> rfl
    have hPieces : (pieces p.text.toList).filter (fun n : Text => n ≠ "" && n ≠ ".") = p.parts := by
      rw [text_toList hParts hSome, pieces_replicate, pieces_intercalate hParts hSome,
        List.filter_append, List.filter_eq_nil_iff.mpr (by simp), List.nil_append,
        List.filter_eq_self.mpr]
      intro n hn
      have hPart := hParts n hn
      simp [hPart.nonempty, hPart.notPoint]
    rw [parse, hLead, hAnchor, hPieces]

/-- Readable paths are told apart by their texts. -/
theorem text_injective {p q : Path} (hp : p.Readable) (hq : q.Readable) (hText : p.text = q.text) :
    p = q := by
  rw [← parse_text hp, hText, parse_text hq]

/-- No piece of a text has a slash in it. -/
theorem noSlash_of_mem_piecesFrom {current cs : List Sign} (hCurrent : Sign.char '/' ∉ current) {n : Text}
    (hn : n ∈ piecesFrom current cs) : Sign.char '/' ∉ n.toList := by
  induction cs generalizing current with
  | nil =>
      rw [piecesFrom, List.mem_singleton] at hn
      simpa [hn] using hCurrent
  | cons c cs ih =>
      rw [piecesFrom] at hn
      split at hn
      · rcases List.mem_cons.mp hn with rfl | hn
        · simpa using hCurrent
        · exact ih List.not_mem_nil hn
      · next hSlash => exact ih (by simp [hCurrent, Ne.symm hSlash]) hn

/-- What a text denotes is made of parts. -/
theorem parse_readable (s : Text) : (parse s).Readable := by
  intro n hn
  simp only [parse, List.mem_filter, Bool.and_eq_true, decide_eq_true_eq] at hn
  exact ⟨hn.2.1, hn.2.2, noSlash_of_mem_piecesFrom List.not_mem_nil hn.1⟩

/-- A piece of a text has no sign that the text has not. -/
theorem subset_of_mem_piecesFrom {current cs : List Sign} {n : Text} (hn : n ∈ piecesFrom current cs) :
    n.toList ⊆ current ++ cs := by
  induction cs generalizing current with
  | nil =>
      rw [piecesFrom, List.mem_singleton] at hn
      simp [hn]
  | cons c cs ih =>
      rw [piecesFrom] at hn
      split at hn
      · rcases List.mem_cons.mp hn with rfl | hn
        · simp
        · exact List.Subset.trans (ih hn) (by simp)
      · exact List.Subset.trans (ih hn) (by simp)

/-- The names of a string are strings. -/
theorem parse_legible {s : Text} (hString : s.isString = true) : (parse s).Legible := by
  intro n hn
  simp only [parse, List.mem_filter] at hn
  exact Text.isString_of_subset hString (subset_of_mem_piecesFrom hn.1)

/-- A path joined from two of which every name is a string
is made of strings. -/
theorem Legible.join {p q : Path} (hp : p.Legible) (hq : q.Legible) : (p.join q).Legible := by
  rw [Path.join]
  split
  · exact hq
  · exact List.forall_mem_append.mpr ⟨hp, hq⟩

theorem Legible.parent {p : Path} (hp : p.Legible) : p.parent.Legible :=
  fun n hn => hp n (List.mem_of_mem_dropLast hn)

theorem Legible.append {p : Path} (hp : p.Legible) {extra : Text} (hExtra : extra.isString = true) :
    (p.append extra).Legible :=
  parse_legible (by rw [Text.isString_append, text_isString_iff.mpr hp, hExtra, Bool.and_self])

/-- Collapsing adds no names but two points. -/
theorem mem_of_mem_collapse {absolute : Bool} {done parts : List Text} {n : Text}
    (hn : n ∈ collapse absolute done parts) : n ∈ done ∨ n ∈ parts ∨ n = ".." := by
  fun_induction collapse absolute done parts with
  | case1 done => exact .inl (by simpa using hn)
  | _ => grind

/-- Taking the ways up away leaves strings only where there were
none but strings. -/
theorem Legible.normalize {p : Path} (hp : p.Legible) : p.normalize.Legible := by
  intro n hn
  rcases mem_of_mem_collapse hn with hNone | hn | rfl
  · cases hNone
  · exact hp n hn
  · rfl

/-- Collapsing from the root keeps no two points and adds nothing. -/
theorem mem_collapse {done parts : List Text} (hDone : (".." : Text) ∉ done) {n : Text}
    (hn : n ∈ collapse true done parts) : (n ∈ done ∨ n ∈ parts) ∧ n ≠ ".." := by
  induction parts generalizing done with
  | nil =>
      have hMem : n ∈ done := by simpa [collapse] using hn
      exact ⟨.inl hMem, fun hUp => hDone (hUp ▸ hMem)⟩
  | cons part rest ih =>
      rw [collapse.eq_def] at hn
      simp only at hn
      split at hn
      · next hName =>
        obtain ⟨hMem, hUp⟩ := ih (by simp [hDone, Ne.symm hName]) hn
        refine ⟨?_, hUp⟩
        rcases hMem with hMem | hMem
        · rcases List.mem_cons.mp hMem with rfl | hMem
          · exact .inr (List.mem_cons_self ..)
          · exact .inl hMem
        · exact .inr (List.mem_cons_of_mem _ hMem)
      · split at hn
        · obtain ⟨hMem, hUp⟩ := ih List.not_mem_nil (by simpa using hn)
          exact ⟨hMem.imp id (List.mem_cons_of_mem _), hUp⟩
        · next last before =>
          have hLast : last ≠ ".." := fun hUp => hDone (hUp ▸ List.mem_cons_self ..)
          rw [if_neg hLast] at hn
          obtain ⟨hMem, hUp⟩ := ih (fun hMem => hDone (List.mem_cons_of_mem _ hMem)) hn
          exact ⟨hMem.imp (List.mem_cons_of_mem _) (List.mem_cons_of_mem _), hUp⟩

/-- A path from the root is made of names once it is normalised. -/
theorem normalize_named {p : Path} (hAbsolute : p.isAbsolute = true) (hParts : p.Readable) :
    p.normalize.Named := by
  intro n hn
  rw [normalize, hAbsolute] at hn
  obtain ⟨hMem, hUp⟩ := mem_collapse List.not_mem_nil hn
  exact ⟨hParts n (hMem.resolve_left List.not_mem_nil), hUp⟩

/-- A part of a path is its name or a part of its parent. -/
theorem mem_parts {p : Path} {n : Text} (hn : n ∈ p.parts) : n ∈ p.parent.parts ∨ n = p.name := by
  have hSome : p.parts ≠ [] := List.ne_nil_of_mem hn
  rw [← List.dropLast_append_getLast hSome, List.mem_append, List.mem_singleton] at hn
  rwa [parent, name, List.getLast?_eq_some_getLast hSome, Option.getD_some]

theorem Named.name_noSlash {p : Path} (hNamed : p.Named) : Sign.char '/' ∉ p.name.toList := by
  rw [name]
  cases hLast : p.parts.getLast? with
  | none => simp
  | some n => exact (hNamed n (List.mem_of_getLast? hLast)).noSlash

/-- A path is seen from a base as another exactly when it is the base with
the parts of the other behind it. -/
theorem relativeTo?_eq_some_iff {p base q : Path} :
    p.relativeTo? base = some q ↔ p.anchor = base.anchor ∧ q.anchor = .none ∧
      p.parts = base.parts ++ q.parts := by
  rw [relativeTo?]
  constructor
  · intro hRelative
    split at hRelative
    · next hBelow =>
      simp only [Bool.and_eq_true, decide_eq_true_eq, List.isPrefixOf_iff_prefix] at hBelow
      obtain rfl := Option.some.inj hRelative
      exact ⟨hBelow.1, rfl, (List.prefix_iff_eq_append.mp hBelow.2).symm⟩
    · cases hRelative
  · rintro ⟨hAnchor, hNone, hParts⟩
    obtain ⟨anchor, parts⟩ := q
    simp only at hNone hParts
    subst hNone
    rw [if_pos (by simp [hAnchor, hParts]), hParts, List.drop_left]

theorem mem_parts_of_relative {p base q : Path} (hRelative : p.relativeTo? base = some q) {n : Text}
    (hn : n ∈ q.parts) : n ∈ p.parts := by
  rw [(relativeTo?_eq_some_iff.mp hRelative).2.2]
  exact List.mem_append_right _ hn

/-- A readable path is seen from a base as one that is readable. -/
theorem relative_readable {p base q : Path} (hp : p.Readable) (hRelative : p.relativeTo? base = some q) :
    q.Readable :=
  fun n hn => hp n (mem_parts_of_relative hRelative hn)

/-- A path of strings is shown as a string from any base, whether it is
below it or not. -/
theorem Legible.relativeText {p : Path} (hp : p.Legible) (base : Path) : (p.relativeText base).isString = true := by
  rw [Path.relativeText, text_isString_iff]
  cases hRelative : p.relativeTo? base with
  | none => exact hp
  | some q => exact fun n hn => hp n (mem_parts_of_relative hRelative hn)

theorem relative_named {p base q : Path} (hNamed : p.Named) (hRelative : p.relativeTo? base = some q) : q.Named :=
  fun n hn => hNamed n (mem_parts_of_relative hRelative hn)

/-- What is below a directory is found again from there. -/
theorem join_relative {p base q : Path} (hRelative : p.relativeTo? base = some q) : base.join q = p := by
  obtain ⟨hAnchor, hNone, hParts⟩ := relativeTo?_eq_some_iff.mp hRelative
  obtain ⟨anchor, parts⟩ := p
  simp only at hAnchor hParts
  rw [join, isAbsolute, hNone, if_neg (by decide), hAnchor, hParts]

/-- The text that a path is shown with from a base is read as the path
relative to it, or as the path itself where it is not below the base. -/
theorem parse_relativeText {p : Path} (hp : p.Readable) (base : Path) :
    parse (p.relativeText base) = (p.relativeTo? base).getD p := by
  rw [relativeText]
  apply parse_text
  cases hRelative : p.relativeTo? base with
  | none => exact hp
  | some q => exact relative_readable hp hRelative

/-- The text of a path as seen from a directory leads back to it from there,
exactly if the path is absolute or lies below. -/
theorem join_relativeText_iff {p : Path} (hp : p.Readable) (base : Path) :
    base.join (parse (p.relativeText base)) = p ↔ p.isAbsolute = true ∨ (p.relativeTo? base).isSome = true := by
  rw [parse_relativeText hp]
  rcases hRelative : p.relativeTo? base with _ | q
  · simp only [Option.getD_none, Option.isSome_none, Bool.false_eq_true, or_false]
    constructor
    · intro hBack
      by_contra hPlain
      rw [join, if_neg hPlain] at hBack
      -- a relative path is found only from the empty one, and lies below it
      have hAnchor := congrArg Path.anchor hBack
      have hParts := List.append_left_eq_self.mp (congrArg Path.parts hBack)
      have hNone : p.anchor = .none := by simpa [isAbsolute] using hPlain
      have hBelow : p.relativeTo? base = some p :=
        relativeTo?_eq_some_iff.mpr ⟨hAnchor.symm, hNone, by rw [hParts, List.nil_append]⟩
      rw [hRelative] at hBelow
      cases hBelow
    · exact fun hAbsolute => join_of_absolute hAbsolute base
  · simpa using join_relative hRelative

/-- Absolute paths are told apart by their texts as seen from one directory. -/
theorem relativeText_inj {p q base : Path} (hp : p.Readable) (hq : q.Readable) (hpAbsolute : p.isAbsolute = true)
    (hqAbsolute : q.isAbsolute = true) : p.relativeText base = q.relativeText base ↔ p = q := by
  constructor
  · intro hSame
    rw [← (join_relativeText_iff hp base).mpr (.inl hpAbsolute), hSame,
      (join_relativeText_iff hq base).mpr (.inl hqAbsolute)]
  · rintro rfl
    rfl

/-- A file below the root is not named alike from within a directory and
from without. -/
theorem relative_text_ne {p base q r : Path} (hp : p.Named) (hr : r.Named) (hAnchor : r.anchor = .root)
    (hRelative : p.relativeTo? base = some q) : q.text ≠ r.text := by
  intro hText
  obtain rfl := text_injective (relative_named hp hRelative).readable hr.readable hText
  rw [(relativeTo?_eq_some_iff.mp hRelative).2.1] at hAnchor
  cases hAnchor

/-- Two directories name a file alike if they are the same, or if it lies
below neither. -/
theorem relativeText_eq_iff {p a b : Path} (hNamed : p.Named) (hAnchor : p.anchor = .root) :
    p.relativeText a = p.relativeText b ↔
      a = b ∨ p.relativeTo? a = none ∧ p.relativeTo? b = none := by
  constructor
  · intro hSame
    rw [relativeText, relativeText] at hSame
    rcases ha : p.relativeTo? a with _ | q <;> rcases hb : p.relativeTo? b with _ | r <;>
      rw [ha, hb] at hSame
    · exact .inr ⟨rfl, rfl⟩
    · exact absurd hSame.symm (relative_text_ne hNamed hNamed hAnchor hb)
    · exact absurd hSame (relative_text_ne hNamed hNamed hAnchor ha)
    · left
      obtain rfl := text_injective (relative_named hNamed ha).readable
        (relative_named hNamed hb).readable hSame
      obtain ⟨hAnchorA, -, hPartsA⟩ := relativeTo?_eq_some_iff.mp ha
      obtain ⟨hAnchorB, -, hPartsB⟩ := relativeTo?_eq_some_iff.mp hb
      obtain ⟨anchor, parts⟩ := a
      obtain ⟨anchor', parts'⟩ := b
      obtain rfl : anchor = anchor' := hAnchorA.symm.trans hAnchorB
      obtain rfl : parts = parts' := List.append_cancel_right (hPartsA.symm.trans hPartsB)
      rfl
  · rintro (rfl | ⟨ha, hb⟩)
    · rfl
    · rw [relativeText, relativeText, ha, hb]

/-- Different files have different names as seen from one directory. -/
theorem relativeText_injective {p q base : Path} (hp : p.Named) (hq : q.Named) (hpAnchor : p.anchor = .root)
    (hqAnchor : q.anchor = .root) (hSame : p.relativeText base = q.relativeText base) : p = q :=
  (relativeText_inj hp.readable hq.readable (by rw [isAbsolute, hpAnchor]; rfl)
    (by rw [isAbsolute, hqAnchor]; rfl)).mp hSame

end Path

end SourceAtlas
