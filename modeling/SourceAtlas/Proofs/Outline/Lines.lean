import SourceAtlas.Proofs.Extraction
import SourceAtlas.Proofs.Outline.Traversal

/-!
The lines of what is listed. Where the trees of a source lie one after another, the loop that looks at
them lists everything by line: what it has taken down, followed by all that still lies on its stack,
stands in the tree in this order, and a turn keeps it so.
-/
namespace SourceAtlas

open Syntax Text

namespace Outline

variable {src : Source} {s : Site} {t u : Tree} {fs fs' : List Finding}

def Finding.line? : Finding → Option Int
  | .importing site => some site.line
  | .ofClass c => some c.line
  | .ofFunction f => some f.line
  | _ => none

/-- The lines of these findings are those of these trees, one for one. No
tree is a comment. -/
structure Borne (src : Source) (us : List Tree) (fs : List Finding) : Prop where
  lines : fs.filterMap Finding.line? = us.map fun u => (lineOf src u : Int)
  phrases : ∀ u ∈ us, u.isComment = false

/-- Findings of one list of trees and of another are those of both lists. -/
theorem Borne.append {us us' : List Tree} (first : Borne src us fs) (second : Borne src us' fs') :
    Borne src (us ++ us') (fs ++ fs') where
  lines := by rw [List.filterMap_append, List.map_append, first.lines, second.lines]
  phrases := List.forall_mem_append.mpr ⟨first.phrases, second.phrases⟩

/-- At most one of these findings has a line, and it is the
line of the tree. -/
def BearsLine (src : Source) (u : Tree) (fs : List Finding) : Prop := ∃ us, us.Sublist [u] ∧ Borne src us fs

/-- Findings without lines may come from any tree. -/
theorem bears_of_no_line (hNone : ∀ f ∈ fs, Finding.line? f = none) : BearsLine src u fs :=
  ⟨[], List.nil_sublist _, by rw [List.filterMap_eq_nil_iff.mpr hNone]; rfl, by simp⟩

/-- One finding with the line of a tree that is no comment. -/
theorem bears_singleton (hPhrase : u.isComment = false) {f : Finding}
    (hLine : Finding.line? f = some (lineOf src u : Int)) : BearsLine src u [f] :=
  ⟨[u], List.Sublist.refl _, by simp [hLine], by simpa using hPhrase⟩

/-- Findings without lines may come before the one that has a line. -/
theorem BearsLine.after (hBears : BearsLine src u fs') (hNone : ∀ f ∈ fs, Finding.line? f = none) :
    BearsLine src u (fs ++ fs') := by
  obtain ⟨us, hSub, hBorne⟩ := hBears
  refine ⟨us, hSub, ?_, hBorne.phrases⟩
  rw [List.filterMap_append, List.filterMap_eq_nil_iff.mpr hNone, List.nil_append, hBorne.lines]

theorem line?_exporting (es : List Export) : ∀ f ∈ es.map Finding.exporting, Finding.line? f = none :=
  List.forall_mem_map.mpr fun _ _ => rfl

theorem line?_decorated (names : List Text) : ∀ f ∈ names.map Finding.decorated, Finding.line? f = none :=
  List.forall_mem_map.mpr fun _ _ => rfl

theorem isComment_of_label {k : Kind} (hLabel : t.label = .phrase k) (hKind : k ≠ .comment) : t.isComment = false := by
  simpa [Tree.isComment, Tree.isKind, hLabel] using hKind

/-- An import statement gives one finding at most, with its own line. -/
theorem lookImport_bears (hPhrase : t.isComment = false) : BearsLine src t (lookImport src t).1 := by
  rw [lookImport]
  split
  · exact bears_of_no_line (by simp)
  · exact bears_singleton hPhrase rfl

/-- A class gives one with its line, after decorators, which have none. -/
theorem lookClass_bears (outer : List Tree) (hPhrase : t.isComment = false) : BearsLine src t (lookClass src outer t).1 := by
  simp only [lookClass]
  refine BearsLine.after ?_ (line?_decorated _)
  split
  · exact bears_of_no_line (by simp)
  · exact bears_singleton hPhrase rfl

/-- A function is listed with the line of the tree that is looked at, not
with that of its body. -/
theorem listFunction_bears (hPhrase : t.isComment = false) (name : Text) (kind : FunctionKind) (function : Tree) :
    BearsLine src t (listFunction src name kind t function).1 :=
  bears_singleton hPhrase rfl

theorem lookFunction_bears (hPhrase : t.isComment = false) : BearsLine src t (lookFunction src t).1 := by
  rw [lookFunction]
  split
  · exact listFunction_bears hPhrase _ _ t
  · exact bears_of_no_line (by simp)

theorem lookMethod_bears (hPhrase : t.isComment = false) (inClassBody : Bool) :
    BearsLine src t (lookMethod src inClassBody t).1 := by
  rw [lookMethod]
  split
  · exact listFunction_bears hPhrase _ _ t
  · exact bears_of_no_line (by simp)

/-- A function that is bound to a name is listed with the line of the
declarator. -/
theorem lookVariable_bears (hPhrase : t.isComment = false) : BearsLine src t (lookVariable src t).1 := by
  rw [lookVariable]
  split
  · exact bears_of_no_line (by simp)
  · split
    · split
      · exact listFunction_bears hPhrase _ _ _
      · split
        · exact listFunction_bears hPhrase _ _ _
        · exact bears_of_no_line (by simp)
    · exact bears_of_no_line (by simp)

/-- The tree whose line is listed: the class that an export declares,
otherwise the tree itself. -/
def bearer (t : Tree) : Tree :=
  match t.part? .declaration with
  | some d => if t.isKind .exportStatement && d.isOneOf classKinds then d else t
  | none => t

/-- An export gives at most one finding with a line. It is that of the class
if it declares one. -/
theorem lookExport_bears (hExport : t.isKind .exportStatement = true) : BearsLine src (bearer t) (lookExport src t).1 := by
  rw [bearer]
  cases hDeclaration : t.part? .declaration with
  | some d =>
      dsimp only
      cases hClass : d.isOneOf classKinds with
      | true =>
          obtain ⟨k, hk, hLabel⟩ := exists_classKind hClass
          rw [lookExport_class hDeclaration hClass, hExport, Bool.true_and, if_pos rfl]
          have hNoComment : Kind.comment ∉ introducedKinds := by decide
          have hPhrase : d.isComment = false := isComment_of_label hLabel fun hSame => hNoComment (hSame ▸ hk)
          exact (lookClass_bears _ hPhrase).after (line?_exporting _)
      | false =>
          rw [lookExport_other hDeclaration hClass, flatMap_decoratorFinding]
          exact bears_of_no_line (List.forall_mem_append.mpr ⟨line?_exporting _, line?_decorated _⟩)
  | none =>
      rw [lookExport, hDeclaration, flatMap_decoratorFinding]
      dsimp only
      apply bears_of_no_line
      split
      · exact List.forall_mem_append.mpr ⟨line?_decorated _, line?_exporting [⟨"default", .default⟩]⟩
      · exact List.forall_mem_append.mpr ⟨line?_decorated _, line?_exporting _⟩

/-- What looking at a tree lists has the line of one tree. -/
theorem look_bears (src : Source) (s : Site) : BearsLine src (bearer s.tree) (look src s).1 := by
  obtain ⟨t, inClassBody⟩ := s
  have hSelf {k : Kind} (hLabel : t.label = .phrase k) (hOther : k ≠ .exportStatement) : bearer t = t := by
    have hExport : t.isKind .exportStatement = false := by simpa [Tree.isKind, hLabel] using hOther
    rw [bearer, hExport]
    split <;> rfl
  have hAlone {k : Kind} {fs : List Finding} (hLabel : t.label = .phrase k) (hOther : k ≠ .exportStatement)
      (hPhrase : k ≠ .comment) (hBears : t.isComment = false → BearsLine src t fs) : BearsLine src (bearer t) fs := by
    rw [hSelf hLabel hOther]
    exact hBears (isComment_of_label hLabel hPhrase)
  rw [look]
  dsimp only
  split
  case h_1 hLabel => exact hAlone hLabel (by decide) (by decide) lookImport_bears
  case h_2 hLabel => exact lookExport_bears (by simp [Tree.isKind, hLabel])
  case h_3 hLabel | h_4 hLabel | h_5 hLabel => exact hAlone hLabel (by decide) (by decide) (lookClass_bears [])
  case h_6 hLabel | h_7 hLabel => exact hAlone hLabel (by decide) (by decide) lookFunction_bears
  case h_8 hLabel => exact hAlone hLabel (by decide) (by decide) fun hPhrase => lookMethod_bears hPhrase inClassBody
  case h_9 hLabel => exact hAlone hLabel (by decide) (by decide) lookVariable_bears
  case h_10 =>
    rw [decoratorFinding]
    exact bears_of_no_line (by simp [Finding.line?])
  case h_11 => exact bears_of_no_line (by simp)

/-- The tree whose line is listed stands, before all that is looked at next,
within the tree. -/
theorem bearer_sublist (hFirst : ∀ u ∈ s.tree.preorder, ParametersFirst u) :
    (bearer s.tree :: Tree.preorderAll (selected src s)).Sublist s.tree.preorder := by
  have hSelf : (s.tree :: Tree.preorderAll (selected src s)).Sublist s.tree.preorder := by
    rw [Tree.preorder_eq s.tree]
    exact ((look_looks src s).inOrder hFirst).cons_cons s.tree
  rw [bearer]
  split
  · next d hDeclaration =>
    split
    · next hClass =>
      obtain ⟨hExport, hClass⟩ := Bool.and_eq_true_iff.mp hClass
      have hLabel : s.tree.label = .phrase .exportStatement := by simpa [Tree.isKind] using hExport
      have hSelected : selected src s = (d.part? .body).toList := by
        rw [selected, look, hLabel]
        dsimp only
        rw [lookExport_class hDeclaration hClass, lookClass_selected]
      have hClassTrees : (d :: Tree.preorderAll (selected src s)).Sublist d.preorder := by
        rw [hSelected, Tree.preorder_eq d]
        exact (preorderAll_part_sublist d .body).cons_cons d
      exact hClassTrees.trans ((preorder_sublist_children (Tree.part?_mem hDeclaration)).trans
        (preorderAll_children_sublist s.tree))
    · exact hSelf
  · exact hSelf

/-- The loop on its way through a tree: trees whose lines have been
taken down, followed by all that is still pending, stand in the
tree in this order. -/
structure Underway (src : Source) (t : Tree) (us : List Tree) (fs : List Finding) (state : Outline × List Site) :
    Prop where
  taken : state.1 = ofFindings fs
  borne : Borne src us fs
  ahead : (us ++ Tree.preorderAll (state.2.map Site.tree)).Sublist t.preorder

/-- Before the first turn nothing is taken down and the
whole tree is pending. -/
theorem underway_start (src : Source) (t : Tree) : Underway src t [] [] (blank, [⟨t, false⟩]) where
  taken := rfl
  borne := ⟨rfl, by simp⟩
  ahead := by
    rw [List.nil_append, List.map_singleton, Tree.preorderAll_singleton]

/-- Handling a site adds its findings at the end of those taken down before. -/
theorem handle_ofFindings (src : Source) (fs : List Finding) (s : Site) :
    handle src (ofFindings fs) s = ofFindings (fs ++ (look src s).1) := by
  rw [handle, ← foldl_note, ← List.foldl_append, foldl_note]

/-- A turn takes down what has a line before all that is pending after it. -/
theorem Underway.step {us : List Tree} {state : Outline × List Site} (hFirst : ∀ u ∈ t.preorder, ParametersFirst u)
    (underway : Underway src t us fs state) : ∃ us' fs', Underway src t us' fs' (turn src state) := by
  obtain ⟨o, pending⟩ := state
  cases pending with
  | nil => exact ⟨us, fs, underway⟩
  | cons s rest =>
      have hAhead := underway.ahead
      rw [List.map_cons, Tree.preorderAll] at hAhead
      have hInside : s.tree.preorder ⊆ t.preorder := fun u hu =>
        hAhead.subset (List.mem_append_right _ (List.mem_append_left _ hu))
      obtain ⟨vs, hBearer, hBorne⟩ := look_bears src s
      refine ⟨us ++ vs, fs ++ (look src s).1, ?_, underway.borne.append hBorne, ?_⟩
      · have hTaken : o = ofFindings fs := underway.taken
        rw [turn, hTaken, handle_ofFindings]
      · -- what the tree on top gives, and what it leaves to be looked at, takes its place before the rest
        have hStep : (vs ++ Tree.preorderAll (selected src s)).Sublist s.tree.preorder :=
          (hBearer.append_right _).trans (bearer_sublist fun u hu => hFirst u (hInside hu))
        rw [turn, List.map_append, ← selected, Tree.preorderAll_append, List.append_assoc,
          ← List.append_assoc vs]
        exact ((hStep.append_right _).append_left us).trans hAhead

/-- However many turns the loop has taken, it is on its way. -/
theorem underway_turns (hFirst : ∀ u ∈ t.preorder, ParametersFirst u) (n : Nat) :
    ∃ us fs, Underway src t us fs ((turn src)^[n] (blank, [⟨t, false⟩])) := by
  induction n with
  | zero => exact ⟨[], [], underway_start src t⟩
  | succ n ih =>
      obtain ⟨us, fs, underway⟩ := ih
      rw [Function.iterate_succ_apply']
      exact underway.step hFirst

/-- Lines in ascending order, counted from one. -/
structure Ascending (lines : List Int) : Prop where
  ordered : lines.Pairwise (· ≤ ·)
  counted : ∀ n ∈ lines, 1 ≤ n

theorem Ascending.nil : Ascending [] := ⟨.nil, by simp⟩

/-- Leaving lines out keeps the others in order. -/
theorem Ascending.sublist {ns ms : List Int} (ascending : Ascending ns) (hSub : ms.Sublist ns) : Ascending ms :=
  ⟨ascending.ordered.sublist hSub, fun n hn => ascending.counted n (hSub.subset hn)⟩

/-- An outline whose imports, classes and functions are each listed by line. -/
structure Lined (o : Outline) : Prop where
  imports : Ascending (o.imports.map fun site => (site.line : Int))
  classes : Ascending (o.classes.map ClassInfo.line)
  functions : Ascending (o.functions.map FunctionInfo.line)

/-- Findings of one sort are listed with some of the lines of all findings. -/
theorem lines_sublist {α : Type} {sort : Finding → Option α} {line : α → Int}
    (hLine : ∀ f a, sort f = some a → Finding.line? f = some (line a)) (fs : List Finding) :
    ((fs.filterMap sort).map line).Sublist (fs.filterMap Finding.line?) := by
  induction fs with
  | nil => exact .slnil
  | cons f fs ih =>
      cases hSort : sort f with
      | none =>
          rw [List.filterMap_cons_none hSort]
          exact ih.trans ((List.sublist_cons_self f fs).filterMap _)
      | some a =>
          rw [List.filterMap_cons_some hSort, List.filterMap_cons_some (hLine f a hSort)]
          exact ih.cons_cons _

/-- If the lines of all findings ascend, so do those of
each sort of finding. -/
theorem lined_of_ascending (ascending : Ascending (fs.filterMap Finding.line?)) : Lined (ofFindings fs) where
  imports := ascending.sublist (lines_sublist (by rintro (_ | _ | _ | _ | _) a hSort <;> cases hSort; rfl) fs)
  classes := ascending.sublist (lines_sublist (by rintro (_ | _ | _ | _ | _) a hSort <;> cases hSort; rfl) fs)
  functions := ascending.sublist (lines_sublist (by rintro (_ | _ | _ | _ | _) a hSort <;> cases hSort; rfl) fs)

/-- A tree whose parameters stand before their bodies and whose phrases and
tokens begin in its order. -/
structure Orderly (t : Tree) : Prop where
  signature : ∀ u ∈ t.preorder, ParametersFirst u
  starts : ((t.preorder.filter fun u => !u.isComment).map Tree.start).Pairwise (· ≤ ·)

/-- At any time of the loop all that it has taken down of an orderly tree is
listed by line. -/
theorem Orderly.lined (orderly : Orderly t) (src : Source) (n : Nat) :
    Lined ((turn src)^[n] (blank, [⟨t, false⟩])).1 := by
  obtain ⟨us, fs, underway⟩ := @underway_turns src t orderly.signature n
  rw [underway.taken]
  apply lined_of_ascending
  rw [underway.borne.lines]
  have hPhrases : us.Sublist (t.preorder.filter fun u => !u.isComment) := by
    have hSub := (List.sublist_append_left us _).trans underway.ahead
    have hAll := hSub.filter fun u => !u.isComment
    rwa [List.filter_eq_self.mpr fun u hu => by simp [underway.borne.phrases u hu]] at hAll
  refine ⟨?_, List.forall_mem_map.mpr fun u _ => ?_⟩
  · -- lines go by where trees begin, which is in the order of the tree only for what is no comment
    have hStarts := List.pairwise_map.mp (orderly.starts.sublist (hPhrases.map Tree.start))
    exact List.pairwise_map.mpr (hStarts.imp fun hLe => Int.ofNat_le.mpr (line_mono src hLe))
  · rw [lineOf, Source.line]
    omega

/-- After a turn for each tree that is looked at, the loop has ended with
the outline. -/
theorem turns_eq_ofTree (src : Source) (t : Tree) :
    (turn src)^[(entered src ⟨t, false⟩).length] (blank, [⟨t, false⟩]) = (ofTree src t, []) := by
  rw [turns_eq_visit, visit_eq_ofTree]

/-- In an orderly tree lines ascend with the places of trees, so the outline
is listed by line. -/
theorem Orderly.lined_ofTree (orderly : Orderly t) (src : Source) : Lined (ofTree src t) := by
  have hLined := orderly.lined src (entered src ⟨t, false⟩).length
  rwa [turns_eq_ofTree] at hLined

/-- The findings of a walk bear the lines of some trees, in the
order in which these stand in the tree. The loop of the stack is
followed turn by turn. -/
theorem Orderly.borne_ofTree (orderly : Orderly t) (src : Source) :
    ∃ us fs, ofTree src t = ofFindings fs ∧ Borne src us fs ∧ us.Sublist t.preorder := by
  obtain ⟨us, fs, underway⟩ := @underway_turns src t orderly.signature (entered src ⟨t, false⟩).length
  rw [turns_eq_ofTree] at underway
  exact ⟨us, fs, underway.taken, underway.borne, (List.sublist_append_left us _).trans underway.ahead⟩

/-- A tree that covers its children, which lie one after another. -/
structure Nested (t : Tree) : Prop where
  spans : t.start ≤ t.stop
  covers : ∀ c ∈ t.children, t.start ≤ c.start ∧ c.stop ≤ t.stop
  apart : t.children.Pairwise fun c c' => c.stop ≤ c'.start

instance (t : Tree) : Decidable (Nested t) :=
  decidable_of_iff (t.start ≤ t.stop ∧ (∀ c ∈ t.children, t.start ≤ c.start ∧ c.stop ≤ t.stop) ∧
      t.children.Pairwise fun c c' => c.stop ≤ c'.start)
    ⟨fun ⟨hSpans, hCovers, hApart⟩ => ⟨hSpans, hCovers, hApart⟩, fun h => ⟨h.spans, h.covers, h.apart⟩⟩

/-- One in which parameters stand before the body, too. -/
structure LaidOut (t : Tree) : Prop extends Nested t where
  signature : ParametersFirst t

mutual

/-- Within a tree that is laid out, trees begin in the order of the tree. -/
theorem placed_preorder : ∀ t : Tree, (∀ u ∈ t.preorder, LaidOut u) →
    Placed t.start (t.preorder.map Tree.start) t.stop
  | .mk l f start stop cs, hLaid => by
      have hSelf := hLaid _ (Tree.mem_preorder_self _)
      rw [Tree.preorder] at hLaid ⊢
      have hInside := placed_preorderAll cs hSelf.spans hSelf.covers hSelf.apart fun u hu =>
        hLaid u (List.mem_cons_of_mem _ hu)
      have hHere : Placed start [start] start :=
        ⟨List.pairwise_singleton _ _, by simp, by simp, Nat.le_refl _⟩
      exact hHere.append hInside

/-- Trees that lie one after another, each covering what is inside, begin in
the order of a walk. The induction is on the walk, with the stretch of the
text that a forest lies in. -/
theorem placed_preorderAll : ∀ (ts : List Tree) {lo hi : Nat}, lo ≤ hi → (∀ t ∈ ts, lo ≤ t.start ∧ t.stop ≤ hi) →
    (ts.Pairwise fun t t' => t.stop ≤ t'.start) → (∀ u ∈ Tree.preorderAll ts, LaidOut u) →
      Placed lo ((Tree.preorderAll ts).map Tree.start) hi
  | [], _, _, hSpan, _, _, _ => .nil hSpan
  | t :: ts, lo, hi, hSpan, hWithin, hApart, hLaid => by
      obtain ⟨⟨hLow, hHigh⟩, hRest⟩ := List.forall_mem_cons.mp hWithin
      obtain ⟨hAfter, hApart⟩ := List.pairwise_cons.mp hApart
      obtain ⟨hHead, hTail⟩ := List.forall_mem_append.mp hLaid
      have hFirst := (placed_preorder t hHead).widen hLow (Nat.le_refl _) (List.Sublist.refl _)
      have hOthers := placed_preorderAll ts hHigh (fun u hu => ⟨hAfter u hu, (hRest u hu).2⟩) hApart hTail
      rw [Tree.preorderAll, List.map_append]
      exact hFirst.append hOthers

end

/-- A tree that is laid out by places is orderly: this turns the assumption
about stretches of text into one about where trees begin. -/
theorem orderly_of_laidOut (hLaid : ∀ u ∈ t.preorder, LaidOut u) : Orderly t where
  signature u hu := (hLaid u hu).signature
  starts := (placed_preorder t hLaid).ordered.sublist (List.filter_sublist.map Tree.start)

/-- The tree of a source is orderly. -/
theorem parse_orderly {d : Dialect} {cs : List Char} (hParse : parse d cs = .ok t) : Orderly t where
  signature u hu := parametersFirst_of_shaped ((parse_shaped hParse).within hu).root
  starts := by
    rw [← starts_eq (parse_shaped hParse)]
    exact parse_starts hParse

/-- Imports keep their lines when they are looked up. -/
theorem resolved_lines {w : World} {path : Path} {extensions : List Text} {sites : List ImportSite}
    {imports : List Import} (hResolved : sites.mapM (Extraction.resolveSite w path extensions) = .ok imports) :
    imports.map Import.line = sites.map fun site => (site.line : Int) :=
  map_eq_of_forall₂ (forall₂_of_mapM hResolved) fun site i hResolve => by
    rw [(Extraction.resolveSite_eq_ok hResolve).2.1]

/-- What walking a tree lists, listed by line. -/
structure ListedByLine (src : Source) (t : Tree) : Prop where
  /-- The lines are those of trees within it, in the order of the tree. -/
  borne : ∃ us fs, ofTree src t = ofFindings fs ∧ Borne src us fs ∧ us.Sublist t.preorder
  /-- In the end, -/
  outline : Lined (ofTree src t)
  /-- at any time before, -/
  always : ∀ n, Lined ((turn src)^[n] (blank, [⟨t, false⟩])).1
  /-- and when the imports have been looked up. -/
  resolved : ∀ (w : World) (path : Path) (extensions : List Text) (imports : List Import),
    (ofTree src t).imports.mapM (Extraction.resolveSite w path extensions) = .ok imports →
      Ascending (imports.map Import.line)

/-- What an orderly tree lists is listed by line in all sorts of it. -/
theorem Orderly.listedByLine (orderly : Orderly t) (src : Source) : ListedByLine src t where
  borne := orderly.borne_ofTree src
  outline := orderly.lined_ofTree src
  always := orderly.lined src
  resolved w path extensions imports hImports := by
    rw [resolved_lines hImports]
    exact (orderly.lined_ofTree src).imports

/-- The parser makes orderly trees only, so every outline that is read from
bytes is listed by line. -/
theorem read_lined {dialect : Dialect} {bytes : List UInt8} {o : Outline}
    (hRead : (Extraction.read dialect bytes).outline = .ok o) : Lined o := by
  rw [Extraction.read] at hRead
  split at hRead
  · cases hRead
  · dsimp only at hRead
    split at hRead
    · cases hRead
    · next t hParse =>
      obtain rfl := Except.ok.inj hRead
      exact (parse_orderly hParse).lined_ofTree _

/-- The record of a file lists imports, classes and functions by line,
whatever the file holds. -/
theorem record_listed {w : World} {path root : Path} {extensions : List Text} {bytes : List UInt8} {r : Record}
    (hRecord : Extraction.record w path root extensions bytes = .ok r) : Ascending (r.imports.map Import.line) ∧
      Ascending (r.classes.map ClassInfo.line) ∧ Ascending (r.functions.map FunctionInfo.line) := by
  rw [Extraction.record] at hRecord
  split at hRecord
  · obtain rfl := Except.ok.inj hRecord
    exact ⟨.nil, .nil, .nil⟩
  · next o hOutline =>
    have hLined := read_lined hOutline
    split at hRecord
    · cases hRecord
    · next imports hImports =>
      obtain rfl := Except.ok.inj hRecord
      exact ⟨resolved_lines hImports ▸ hLined.imports, hLined.classes, hLined.functions⟩

/-- Imports, classes and functions are each listed by line. -/
theorem lines_follow_layout (src : Source) (t : Tree) (hLaid : ∀ u ∈ t.preorder, LaidOut u) : ListedByLine src t :=
  (orderly_of_laidOut hLaid).listedByLine src

namespace Sample

/-- A class within a function that is bound within a method of an
exported class, and imports before and after. -/
def scattered : List Char :=
  ("import './a'\nexport class A \x7b\n  m() \x7b\n    const f = x => \x7b class B \x7b\x7d \x7d \x7d\n\x7d\n" ++
    "export namespace N \x7b import './b' \x7d").toList

def linesOf (o : Outline) : List Nat × List Int × List Int :=
  (o.imports.map ImportSite.line, o.classes.map ClassInfo.line, o.functions.map FunctionInfo.line)

/-- The sample is laid out as assumed, although its functions and classes
lie within each other, and its lines ascend. -/
theorem scattered_nested : (parse .plain scattered).toOption.map
    (fun t => (linesOf (ofTree (Source.ofList scattered) t), decide (∀ u ∈ t.preorder, Nested u))) =
      some (([1, 6], [2, 4], [3, 4]), true) := by
  decide +kernel

/-- All nodes lie where they should, and what they give is listed by line. -/
theorem scattered_listed : ∃ t, parse .plain scattered = .ok t ∧ (∀ u ∈ t.preorder, LaidOut u) ∧
    linesOf (ofTree (Source.ofList scattered) t) = ([1, 6], [2, 4], [3, 4]) ∧
    ListedByLine (Source.ofList scattered) t := by
  obtain ⟨t, hTree, hFacts⟩ := Option.map_eq_some_iff.mp scattered_nested
  obtain ⟨hLines, hNested⟩ := Prod.mk.inj hFacts
  have hParse : parse .plain scattered = .ok t := eq_ok_of_toOption hTree
  have hLaid : ∀ u ∈ t.preorder, LaidOut u := fun u hu =>
    ⟨of_decide_eq_true hNested u hu, (parse_orderly hParse).signature u hu⟩
  exact ⟨t, hParse, hLaid, hLines, lines_follow_layout (Source.ofList scattered) t hLaid⟩

end Sample

end Outline

end SourceAtlas
