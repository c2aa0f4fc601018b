import Mathlib.Data.List.Induction
import SourceAtlas.Extraction
import SourceAtlas.Proofs.Assoc
import SourceAtlas.Proofs.Outline.Looking

/-!
How a tree is traversed. A loop that keeps the trees still to be looked at on a stack ends, and does
what a visitor does that looks at a tree and then visits what is inside, from left to right. No tree
gives a finding twice, and imports stand in source order.
-/
namespace SourceAtlas

open Syntax Text

namespace Outline

variable {src : Source}

def blank : Outline := ⟨[], [], [], [], []⟩

/-- Take down one finding. An annotation is taken down once. -/
def note (o : Outline) : Finding → Outline
  | .decorated name =>
    if name ∈ o.annotations then o else { o with annotations := o.annotations ++ [name] }
  | .importing site => { o with imports := o.imports ++ [site] }
  | .exporting e => { o with exports := o.exports ++ [e] }
  | .ofClass c => { o with classes := o.classes ++ [c] }
  | .ofFunction f => { o with functions := o.functions ++ [f] }

def handle (src : Source) (o : Outline) (s : Site) : Outline := (look src s).1.foldl note o

/-- One turn of the loop: the tree on top of the stack is handled, and what
is to be looked at inside it takes its place, the first on top. -/
def turn (src : Source) : Outline × List Site → Outline × List Site
  | (o, []) => (o, [])
  | (o, s :: rest) => (handle src o s, (look src s).2 ++ rest)

/-- What is looked at next is smaller than the tree. -/
theorem sizeAll_selected_lt (src : Source) (s : Site) : Tree.sizeAll (selected src s) < s.tree.size := by
  have hWithin := (look_looks src s).within.length_le
  rw [Tree.length_preorderAll, Tree.length_preorderAll] at hWithin
  rw [← Tree.length_preorder, Tree.preorder_eq, List.length_cons, Tree.length_preorderAll]
  exact Nat.lt_succ_of_le hWithin

theorem size_le_of_mem {t : Tree} {ts : List Tree} (ht : t ∈ ts) : t.size ≤ Tree.sizeAll ts := by
  rw [← Tree.length_preorder, ← Tree.length_preorderAll, ← Tree.preorderAll_singleton]
  exact (Tree.preorderAll_sublist (List.singleton_sublist.mpr ht)).length_le

/-- What is looked at next lies inside, so the visitor comes to an end. -/
theorem size_next_lt {s s' : Site} (hNext : s' ∈ (look src s).2) : s'.tree.size < s.tree.size :=
  (size_le_of_mem (List.mem_map_of_mem hNext)).trans_lt (sizeAll_selected_lt src s)

/-- The visitor: it handles a tree, then visits what is inside
from left to right. -/
def visit (src : Source) (o : Outline) (s : Site) : Outline :=
  (look src s).2.attach.foldl (fun o s' => visit src o s'.1) (handle src o s)
termination_by s.tree.size
decreasing_by exact size_next_lt s'.2

def entered (src : Source) (s : Site) : List Site :=
  s :: (look src s).2.attach.flatMap fun s' => entered src s'.1
termination_by s.tree.size
decreasing_by exact size_next_lt s'.2

/-- The visitor handles a tree and then visits the sites inside, with what
it has taken down so far. -/
theorem visit_eq (src : Source) (o : Outline) (s : Site) :
    visit src o s = (look src s).2.foldl (visit src) (handle src o s) := by
  rw [visit, List.foldl_attach]

/-- The sites that are entered: the first one, then those entered from each
site inside it. -/
theorem entered_eq (src : Source) (s : Site) : entered src s = s :: (look src s).2.flatMap (entered src) := by
  rw [entered, ← List.flatMap_map Subtype.val, List.attach_map_subtype_val]

/-- To prove something of a tree that is visited, it may be supposed of the
trees looked at next. -/
theorem visit_induction (src : Source) {C : Site → Prop} (hStep : ∀ s, (∀ s' ∈ (look src s).2, C s') → C s)
    (s : Site) : C s :=
  hStep s fun s' _ => visit_induction src hStep s'
termination_by s.tree.size
decreasing_by exact size_next_lt ‹_›

/-- The visitor handles the trees that are looked at, one after another. -/
theorem visit_eq_foldl (s : Site) : ∀ o, visit src o s = (entered src s).foldl (handle src) o := by
  induction s using visit_induction src with
  | hStep s ih =>
      intro o
      rw [visit_eq, entered_eq, List.foldl_cons, List.foldl_flatMap]
      apply List.foldl_ext
      intro o' s' hNext
      exact ih s' hNext o'

/-- After a turn for each tree that is looked at, the loop has done what the
visitor does and goes on with what lay beneath. -/
theorem turns_eq_visit (s : Site) : ∀ o rest, (turn src)^[(entered src s).length] (o, s :: rest) =
    (visit src o s, rest) := by
  induction s using visit_induction src with
  | hStep s ih =>
      -- the sites that one turn puts on the stack are worked off from the top
      have hSites (next : List Site) (hNext : ∀ s' ∈ next, s' ∈ (look src s).2) : ∀ o rest,
          (turn src)^[(next.flatMap (entered src)).length] (o, next ++ rest) = (next.foldl (visit src) o, rest) := by
        induction next with
        | nil => exact fun o rest => rfl
        | cons s' next ihNext =>
            intro o rest
            rw [List.flatMap_cons, List.length_append, Nat.add_comm, Function.iterate_add_apply, List.cons_append,
              ih s' (hNext s' (List.mem_cons_self ..)), List.foldl_cons]
            exact ihNext (fun s'' hs'' => hNext s'' (List.mem_cons_of_mem _ hs'')) _ rest
      intro o rest
      rw [entered_eq, List.length_cons, Function.iterate_succ_apply, turn, hSites _ (fun _ hNext => hNext), visit_eq]

/-- The trees that are looked at, without what they stand in. -/
def enteredTrees (src : Source) (s : Site) : List Tree := (entered src s).map Site.tree

theorem enteredTrees_eq (s : Site) :
    enteredTrees src s = s.tree :: (look src s).2.flatMap (enteredTrees src) := by
  rw [enteredTrees, entered_eq, List.map_cons, List.map_flatMap]
  rfl

/-- What holds of the trees looked at next, tree by tree, holds
of them together. -/
theorem flatMap_subperm {f : Site → List Tree} {next : List Site}
    (hEach : ∀ s ∈ next, (f s).Subperm s.tree.preorder) :
    (next.flatMap f).Subperm (Tree.preorderAll (next.map Site.tree)) := by
  induction next with
  | nil => exact List.Subperm.refl _
  | cons s next ih =>
      rw [List.flatMap_cons, List.map_cons, Tree.preorderAll]
      exact (hEach s (List.mem_cons_self ..)).append (ih fun s' hs' => hEach s' (List.mem_cons_of_mem _ hs'))

/-- If each site leads to trees within its own, in order, all of them
together lie in order within the forest. -/
theorem flatMap_sublist {f : Site → List Tree} {next : List Site}
    (hEach : ∀ s ∈ next, (f s).Sublist s.tree.preorder) :
    (next.flatMap f).Sublist (Tree.preorderAll (next.map Site.tree)) := by
  induction next with
  | nil => exact List.Sublist.refl _
  | cons s next ih =>
      rw [List.flatMap_cons, List.map_cons, Tree.preorderAll]
      exact (hEach s (List.mem_cons_self ..)).append (ih fun s' hs' => hEach s' (List.mem_cons_of_mem _ hs'))

/-- No tree is looked at twice. -/
theorem enteredTrees_subperm (s : Site) : (enteredTrees src s).Subperm s.tree.preorder := by
  induction s using visit_induction src with
  | hStep s ih =>
      rw [enteredTrees_eq, Tree.preorder_eq, List.subperm_cons]
      exact (flatMap_subperm ih).trans (look_looks src s).within

/-- No more sites are entered than the tree has trees. -/
theorem length_entered_le (s : Site) : (entered src s).length ≤ s.tree.size := by
  have hLength := (@enteredTrees_subperm src s).length_le
  rwa [enteredTrees, List.length_map, Tree.length_preorder] at hLength

/-- What is looked at next in a shaped tree is shaped. -/
theorem shaped_next {s s' : Site} (hTree : s.tree.Everywhere Shaped) (hNext : s' ∈ (look src s).2) :
    s'.tree.Everywhere Shaped := by
  have hSelected : s'.tree ∈ selected src s := List.mem_map_of_mem hNext
  apply hTree.within
  rw [Tree.preorder_eq]
  exact List.mem_cons_of_mem _ ((look_looks src s).within.subset ((Tree.sublist_preorderAll _).subset hSelected))

/-- The trees of a source are looked at in source order. -/
theorem enteredTrees_sublist (s : Site) :
    s.tree.Everywhere Shaped → (enteredTrees src s).Sublist s.tree.preorder := by
  induction s using visit_induction src with
  | hStep s ih =>
      intro hTree
      rw [enteredTrees_eq, Tree.preorder_eq]
      have hInside := flatMap_sublist fun s' hNext => ih s' hNext (shaped_next hTree hNext)
      exact (hInside.trans ((look_looks src s).ordered hTree)).cons_cons s.tree

/-- No tree of a source gives findings twice. -/
theorem accounted_subperm (s : Site) : s.tree.Everywhere Shaped →
    ((entered src s).flatMap (accounted src)).Subperm s.tree.preorder := by
  induction s using visit_induction src with
  | hStep s ih =>
      intro hTree
      rw [entered_eq, List.flatMap_cons, List.flatMap_assoc]
      have hInside := flatMap_subperm fun s' hNext => ih s' hNext (shaped_next hTree hNext)
      exact ((List.subperm_append_left _).mpr hInside).trans ((look_looks src s).apart hTree)

/-- With fuel for all trees the findings are those of the trees
that are looked at. -/
theorem walk_eq {fuel : Nat} {todo : List Site} (hFuel : Tree.sizeAll (todo.map Site.tree) ≤ fuel) :
    walk src fuel todo = (todo.flatMap (entered src)).flatMap fun s => (look src s).1 := by
  induction fuel generalizing todo with
  | zero =>
      cases todo with
      | nil => rfl
      | cons s rest =>
          have hSize : 0 < s.tree.size := Nat.zero_lt_of_lt (sizeAll_selected_lt src s)
          rw [List.map_cons, Tree.sizeAll] at hFuel
          omega
  | succ fuel ih =>
      cases todo with
      | nil => rfl
      | cons s rest =>
          rw [List.map_cons, Tree.sizeAll] at hFuel
          have hNext := sizeAll_selected_lt src s
          have hSum (ts us : List Tree) : Tree.sizeAll (ts ++ us) = Tree.sizeAll ts + Tree.sizeAll us := by
            rw [← Tree.length_preorderAll, Tree.preorderAll_append, List.length_append, Tree.length_preorderAll,
              Tree.length_preorderAll]
          have hRest : Tree.sizeAll (((look src s).2 ++ rest).map Site.tree) ≤ fuel := by
            rw [List.map_append, hSum, ← selected]
            omega
          calc walk src (fuel + 1) (s :: rest)
              = (look src s).1 ++ walk src fuel ((look src s).2 ++ rest) := rfl
            _ = (look src s).1 ++ (((look src s).2 ++ rest).flatMap (entered src)).flatMap fun s => (look src s).1 := by
                rw [ih hRest]
            _ = ((s :: rest).flatMap (entered src)).flatMap fun s => (look src s).1 := by
                rw [List.flatMap_append, List.flatMap_append, List.flatMap_cons, entered_eq, List.flatMap_append,
                  List.flatMap_cons, List.append_assoc]

/-- Taking each name once leaves out no name. -/
theorem mem_distinct {name : Text} {names : List Text} : name ∈ distinct names ↔ name ∈ names := by
  induction names with
  | nil => simp [distinct]
  | cons n names ih =>
      rw [distinct, List.mem_cons, List.mem_cons, List.mem_filter, ih]
      by_cases hSame : name = n <;> simp [hSame]

/-- And no name is left twice. -/
theorem distinct_nodup (names : List Text) : (distinct names).Nodup := by
  induction names with
  | nil => exact .nil
  | cons n names ih =>
      refine List.nodup_cons.mpr ⟨?_, ih.filter _⟩
      simp

/-- A name that comes later is listed unless it is listed already. -/
theorem distinct_concat (names : List Text) (name : Text) :
    distinct (names ++ [name]) = if name ∈ names then distinct names else distinct names ++ [name] := by
  induction names with
  | nil => simp [distinct]
  | cons n names ih =>
      rw [List.cons_append, distinct, ih, distinct]
      by_cases hKnown : name ∈ names
      · rw [if_pos hKnown, if_pos (List.mem_cons_of_mem _ hKnown)]
      by_cases hSame : name = n
      · rw [if_neg hKnown, if_pos (by simp [hSame]), List.filter_append, hSame]
        simp
      · rw [if_neg hKnown, if_neg (by simp [hKnown, hSame]), List.filter_append]
        simp [hSame]

/-- Findings taken down one after another are the outline of all of them. -/
theorem foldl_note (fs : List Finding) : fs.foldl note blank = ofFindings fs := by
  induction fs using List.reverseRecOn with
  | nil => rfl
  | append_singleton fs f ih =>
      rw [List.foldl_append, ih, List.foldl_cons, List.foldl_nil]
      cases f with
      | decorated name =>
          simp only [note, ofFindings, List.filterMap_append, List.filterMap_cons, List.filterMap_nil, distinct_concat,
            mem_distinct, List.append_nil]
          split <;> rfl
      | importing | exporting | ofClass | ofFunction => simp [note, ofFindings, List.filterMap_append]

/-- The outline of a tree is made of what every entered site gives, in the
order in which they are entered. -/
theorem ofTree_eq (src : Source) (t : Tree) :
    ofTree src t = ofFindings ((entered src ⟨t, false⟩).flatMap fun s => (look src s).1) := by
  rw [ofTree, walk_eq (by simp [Tree.sizeAll]), List.flatMap_singleton]

def importSites (fs : List Finding) : List ImportSite := (ofFindings fs).imports

/-- What an import statement gives that says from where it imports. -/
def importOf? (src : Source) (t : Tree) : Option ImportSite :=
  if t.isKind .importStatement then (importSource? t).map fun source =>
    ⟨unquoted (src.text source), (importBindings src t).1, (importBindings src t).2, lineOf src t⟩
  else none

theorem importSites_append (fs fs' : List Finding) : importSites (fs ++ fs') = importSites fs ++ importSites fs' :=
  List.filterMap_append

theorem importSites_decorated (names : List Text) : importSites (names.map .decorated) = [] := by
  refine List.filterMap_eq_nil_iff.mpr fun f hf => ?_
  obtain ⟨name, -, rfl⟩ := List.mem_map.mp hf
  rfl

theorem importSites_exporting (es : List Export) : importSites (es.map .exporting) = [] := by
  refine List.filterMap_eq_nil_iff.mpr fun f hf => ?_
  obtain ⟨e, -, rfl⟩ := List.mem_map.mp hf
  rfl

/-- A class gives no import, whatever is inside; what is inside
is looked at later. -/
theorem importSites_lookClass (src : Source) (outer : List Tree) (t : Tree) :
    importSites (lookClass src outer t).1 = [] := by
  simp only [lookClass]
  rw [importSites_append, importSites_decorated, List.nil_append]
  split <;> rfl

/-- An export gives none either, not even one with a source. -/
theorem importSites_lookExport (src : Source) (t : Tree) : importSites (lookExport src t).1 = [] := by
  rw [lookExport, flatMap_decoratorFinding]
  split
  · dsimp only
    split
    · rw [importSites_append, importSites_exporting, importSites_lookClass, List.append_nil]
    · rw [importSites_append, importSites_exporting, importSites_decorated, List.append_nil]
  · split
    · rw [importSites_append, importSites_decorated]
      rfl
    · rw [importSites_append, importSites_decorated, importSites_exporting, List.append_nil]

/-- A tree gives an import just if it is an import statement
that says from where. -/
theorem importSites_look (src : Source) (s : Site) : importSites (look src s).1 = (importOf? src s.tree).toList := by
  obtain ⟨t, inClassBody⟩ := s
  have hOther (hKind : t.label ≠ .phrase .importStatement) : (importOf? src t).toList = [] := by
    rw [importOf?, if_neg (by simpa [Tree.isKind] using hKind)]
    rfl
  rw [look]
  dsimp only
  split
  case h_1 hLabel =>
    rw [lookImport, importOf?, if_pos (by simp [Tree.isKind, hLabel])]
    cases importSource? t <;> rfl
  case h_2 hLabel => rw [hOther (by simp [hLabel]), importSites_lookExport]
  case h_3 hLabel | h_4 hLabel | h_5 hLabel => rw [hOther (by simp [hLabel]), importSites_lookClass]
  case h_6 hLabel | h_7 hLabel =>
    rw [hOther (by simp [hLabel]), lookFunction]
    split <;> rfl
  case h_8 hLabel =>
    rw [hOther (by simp [hLabel]), lookMethod]
    split <;> rfl
  case h_9 hLabel =>
    rw [hOther (by simp [hLabel]), lookVariable]
    split <;> [rfl; split] <;> [split; rfl] <;> [rfl; split] <;> rfl
  case h_10 hLabel =>
    rw [hOther (by simp [hLabel]), decoratorFinding]
    cases decoratorName? src t <;> rfl
  case h_11 hLabel _ _ _ _ _ _ _ _ _ =>
    rw [hOther hLabel]
    rfl

/-- The imports of an outline are those of the trees that are looked at, in
this order. -/
theorem imports_eq (src : Source) (t : Tree) :
    (ofTree src t).imports = (enteredTrees src ⟨t, false⟩).filterMap (importOf? src) := by
  rw [ofTree_eq, enteredTrees, List.filterMap_map]
  induction entered src ⟨t, false⟩ with
  | nil => rfl
  | cons s ss ih =>
      rw [List.flatMap_cons, ← importSites, importSites_append, importSites_look, importSites, ih]
      cases hImport : importOf? src s.tree <;> simp [hImport]

/-- The kinds of phrase that are looked at in a way of their own. -/
def handledKinds : List Kind :=
  [.importStatement, .exportStatement, .classDeclaration, .abstractClassDeclaration, .classExpression,
    .functionDeclaration, .generatorFunctionDeclaration, .methodDefinition, .variableDeclarator, .decorator]

/-- A place in a tree, with the trees before it and after it, where every
phrase above is of a kind that is not looked at in a way of its own, or is
an export entered through its declaration. -/
inductive Exposed (u : Tree) : Tree → List Tree → List Tree → Prop
  | here : Exposed u u [] []
  | inside {t c : Tree} {left right before after : List Tree} (hKind : t.isOneOf handledKinds = false)
      (hChildren : t.children = left ++ c :: right) (exposed : Exposed u c before after) :
      Exposed u t (t :: (Tree.preorderAll left ++ before)) (after ++ Tree.preorderAll right)
  | declared {t d : Tree} {left right before after : List Tree} (hKind : t.isKind .exportStatement = true)
      (hChildren : t.children = left ++ d :: right) (hField : d.field = some .declaration)
      (hFirst : ∀ c ∈ left, c.field ≠ some .declaration) (exposed : Exposed u d before after) :
      Exposed u t (t :: (Tree.preorderAll left ++ before)) (after ++ Tree.preorderAll right)

/-- The trees before an exposed place, what is there, and the trees after it
are all trees. -/
theorem Exposed.preorder {u t : Tree} {before after : List Tree} (exposed : Exposed u t before after) :
    t.preorder = before ++ u.preorder ++ after := by
  induction exposed with
  | here => simp
  | inside _ hChildren _ ih | declared _ hChildren _ _ _ ih =>
      rw [Tree.preorder_eq, hChildren, Tree.preorderAll_append, Tree.preorderAll, ih]
      simp

/-- Everything inside a tree of another kind is looked at. -/
theorem look_unhandled {s : Site} (hKind : s.tree.isOneOf handledKinds = false) :
    look src s = ([], s.tree.children.map fun c => ⟨c, s.tree.isKind .classBody⟩) := by
  rw [look]
  simp only [Tree.isOneOf, handledKinds, List.any_cons, List.any_nil, Bool.or_eq_false_iff, Tree.isKind,
    beq_eq_false_iff_ne] at hKind
  split <;> simp_all

/-- Nothing inside an import statement is looked at. -/
theorem enteredTrees_import {s : Site} (hImport : s.tree.isKind .importStatement = true) :
    enteredTrees src s = [s.tree] := by
  have hLabel : s.tree.label = .phrase .importStatement := by simpa [Tree.isKind] using hImport
  rw [enteredTrees_eq, look, hLabel]
  dsimp only
  rw [lookImport]
  split <;> rfl

/-- What a class declares is not exposed. -/
theorem Exposed.not_class {u t : Tree} {before after : List Tree} (exposed : Exposed u t before after)
    (hImport : u.isKind .importStatement = true) : t.isOneOf classKinds = false := by
  have hKinds {k : Kind} (hLabel : t.label = .phrase k) (hOther : k ∉ classKinds) : t.isOneOf classKinds = false := by
    rw [Tree.isOneOf, List.any_eq_false]
    intro k' hk'
    simp only [Tree.isKind, hLabel, beq_iff_eq, Label.phrase.injEq]
    rintro rfl
    exact hOther hk'
  cases exposed with
  | here => exact hKinds (by simpa [Tree.isKind] using hImport) (by decide)
  | declared hKind => exact hKinds (by simpa [Tree.isKind] using hKind) (by decide)
  | inside hKind =>
      have hSub : ∀ k ∈ classKinds, k ∈ handledKinds := by decide
      rw [Tree.isOneOf, List.any_eq_false] at hKind ⊢
      exact fun k hk => hKind k (hSub k hk)

/-- An exposed import statement is looked at, after trees that stand before
it and before trees that stand after it. -/
theorem Exposed.entered {u t : Tree} {before after : List Tree} (exposed : Exposed u t before after)
    (hImport : u.isKind .importStatement = true) (inClassBody : Bool) :
    ∃ earlier later, enteredTrees src ⟨t, inClassBody⟩ = earlier ++ u :: later ∧
      earlier.Subperm before ∧ later.Subperm after := by
  have hOthers (f : Tree → Site) (hTree : ∀ c, (f c).tree = c) (cs : List Tree) :
      ((cs.map f).flatMap (enteredTrees src)).Subperm (Tree.preorderAll cs) := by
    have hAll := flatMap_subperm fun s (_ : s ∈ cs.map f) => @enteredTrees_subperm src s
    have hTrees : (cs.map f).map Site.tree = cs := by
      rw [List.map_map]
      exact List.map_id'' hTree cs
    rwa [hTrees] at hAll
  induction exposed generalizing inClassBody with
  | here => exact ⟨[], [], enteredTrees_import hImport, .refl _, .refl _⟩
  | @inside t c left right before after hKind hChildren exposed ih =>
      let site : Tree → Site := fun c => ⟨c, t.isKind .classBody⟩
      obtain ⟨earlier, later, hEntered, hEarlier, hLater⟩ := ih (t.isKind .classBody)
      refine ⟨t :: ((left.map site).flatMap (enteredTrees src) ++ earlier),
        later ++ (right.map site).flatMap (enteredTrees src), ?_, ?_, ?_⟩
      · rw [enteredTrees_eq, look_unhandled hKind, hChildren]
        simp only [List.map_append, List.map_cons, List.flatMap_append, List.flatMap_cons, hEntered]
        simp [site]
      · exact (List.subperm_cons t).mpr ((hOthers site (fun _ => rfl) left).append hEarlier)
      · exact hLater.append (hOthers site (fun _ => rfl) right)
  | @declared t d left right before after hKind hChildren hField hFirst exposed ih =>
      have hDeclaration : t.part? .declaration = some d := Tree.part?_eq_some hChildren hField hFirst
      have hLabel : t.label = .phrase .exportStatement := by simpa [Tree.isKind] using hKind
      obtain ⟨earlier, later, hEntered, hEarlier, hLater⟩ := ih false
      refine ⟨t :: earlier, later, ?_, ?_, ?_⟩
      · rw [enteredTrees_eq, look, hLabel]
        dsimp only
        rw [lookExport_other hDeclaration (exposed.not_class hImport)]
        simp [sites, hEntered]
      · exact (List.subperm_cons t).mpr (hEarlier.trans (List.sublist_append_right ..).subperm)
      · exact hLater.trans (List.sublist_append_left ..).subperm

/-- In the trees of sources, the phrases and tokens listed are those whose
starts are. -/
theorem starts_eq {t : Tree} (hTree : t.Everywhere Shaped) :
    t.starts = (t.preorder.filter fun u => !u.isComment).map Tree.start := by
  have hForest {ts : List Tree}
      (hEach : ∀ c ∈ ts, c.starts = (c.preorder.filter fun u => !u.isComment).map Tree.start) :
      Tree.startsAll ts = ((Tree.preorderAll ts).filter fun u => !u.isComment).map Tree.start := by
    induction ts with
    | nil => rfl
    | cons c ts ih =>
        rw [Tree.startsAll, Tree.preorderAll, List.filter_append, List.map_append, hEach c (List.mem_cons_self ..),
          ih fun c' hc' => hEach c' (List.mem_cons_of_mem _ hc')]
  induction hTree with
  | @mk l f start stop cs here _ ih =>
      rw [Tree.starts, Tree.preorder]
      by_cases hComment : l = .phrase .comment
      · rw [here.comment hComment]
        simp [hComment, Tree.preorderAll, Tree.isComment, Tree.isKind, Tree.label]
      · have hPhrase : (Tree.mk l f start stop cs).isComment = false := by
          simpa [Tree.isComment, Tree.isKind, Tree.label] using hComment
        rw [if_neg hComment, List.filter_cons_of_pos (by simp [hPhrase]), List.map_cons, hForest ih]
        rfl

/-- Lines do not go back as the text goes on. -/
theorem line_mono (src : Source) {m n : Nat} (hLe : m ≤ n) : src.line m ≤ src.line n := by
  have hSlice (k : Nat) : src.slice 0 k = src.chars.toList.take k := by simp [Source.slice]
  rw [Source.line, Source.line, hSlice, hSlice]
  exact Nat.add_le_add_right ((List.take_sublist_take_left hLe).count_le _) 1

/-- What gives an import is an import statement, and the import has the line
of the statement. -/
theorem importOf?_some {t : Tree} {site : ImportSite} (hImport : importOf? src t = some site) :
    t.isKind .importStatement = true ∧ site.line = lineOf src t := by
  rw [importOf?] at hImport
  split at hImport
  · next hKind =>
    obtain ⟨_, _, rfl⟩ := Option.map_eq_some_iff.mp hImport
    exact ⟨hKind, rfl⟩
  · cases hImport

/-- The imports of a source are listed by line. -/
theorem imports_ordered {d : Dialect} {cs : List Char} {t : Tree} (hParse : parse d cs = .ok t) :
    (ofTree src t).imports.Pairwise fun site site' => site.line ≤ site'.line := by
  have hTree := parse_shaped hParse
  have hStarts := parse_starts hParse
  rw [starts_eq hTree, List.pairwise_map, List.pairwise_filter] at hStarts
  rw [imports_eq, List.pairwise_filterMap]
  refine (hStarts.sublist (enteredTrees_sublist ⟨t, false⟩ hTree)).imp ?_
  intro u u' hOrder site hSite site' hSite'
  obtain ⟨hKind, hLine⟩ := importOf?_some hSite
  obtain ⟨hKind', hLine'⟩ := importOf?_some hSite'
  have hPhrase {v : Tree} (hKind : v.isKind .importStatement = true) : (!v.isComment) = true := by
    have hLabel : v.label = .phrase .importStatement := by simpa [Tree.isKind] using hKind
    simp [Tree.isComment, Tree.isKind, hLabel]
  rw [hLine, hLine']
  exact line_mono src (hOrder (hPhrase hKind) (hPhrase hKind'))

/-- A record holds an outline, each import looked up. -/
structure Recorded (w : World) (path : Path) (extensions : List Text) (o : Outline) (r : Record) : Prop where
  annotations : r.annotations = o.annotations
  imports : List.Forall₂ (fun site i => Extraction.resolveSite w path extensions site = .ok i) o.imports r.imports
  exports : r.exports = o.exports
  classes : r.classes = o.classes
  functions : r.functions = o.functions

/-- The record of a file that was read holds its outline, with each import
looked up. -/
theorem record_recorded {w : World} {path root : Path} {extensions : List Text} {bytes : List UInt8}
    {cs : List Char} {t : Tree} {r : Record} (hDecode : Utf8.decode (Utf8.dropMark bytes) = .ok cs)
    (hParse : parse (Extraction.dialectOf path) cs = .ok t)
    (hRecord : Extraction.record w path root extensions bytes = .ok r) :
    Recorded w path extensions (ofTree (Source.ofList cs) t) r := by
  have hOutline : (Extraction.read (Extraction.dialectOf path) bytes).outline =
      .ok (ofTree (Source.ofList cs) t) := by
    rw [Extraction.read, hDecode]
    dsimp only
    rw [hParse]
  rw [Extraction.record] at hRecord
  rw [hOutline] at hRecord
  dsimp only at hRecord
  split at hRecord
  · cases hRecord
  · next imports hImports =>
    obtain rfl := Except.ok.inj hRecord
    exact ⟨rfl, forall₂_of_mapM hImports, rfl, rfl, rfl⟩

/-- What the traversal of a tree promises. -/
structure Traversed (src : Source) (t : Tree) : Prop where
  /-- The loop works off its stack, in no more turns than there are trees, and leaves the outline. -/
  ends : ∃ n ≤ t.size, (turn src)^[n] (blank, [⟨t, false⟩]) = (ofTree src t, [])
  /-- The visitor leaves the same outline. -/
  visits : visit src blank ⟨t, false⟩ = ofTree src t
  /-- An exposed import is listed once, after imports of trees before it and before imports of trees
  after it. -/
  exposed : ∀ (u : Tree) (before after : List Tree) (site : ImportSite), Exposed u t before after →
    importOf? src u = some site → ∃ earlier later : List Tree,
      (ofTree src t).imports = earlier.filterMap (importOf? src) ++ site :: later.filterMap (importOf? src) ∧
        earlier.Subperm before ∧ later.Subperm after
  /-- Each annotation is listed once. -/
  distinct : (ofTree src t).annotations.Nodup
  /-- All that is listed is credited to trees, -/
  credited : ofTree src t = ofFindings (((entered src ⟨t, false⟩).flatMap (credits src)).flatMap Prod.snd)
  /-- in the tree of a source to none of them twice. -/
  once : ∀ (d : Dialect) (cs : List Char), parse d cs = .ok t →
    (((entered src ⟨t, false⟩).flatMap (credits src)).map Prod.fst).Subperm t.preorder
  /-- There the imports are listed by line. -/
  ordered : ∀ (d : Dialect) (cs : List Char), parse d cs = .ok t →
    (ofTree src t).imports.Pairwise fun site site' => site.line ≤ site'.line
  /-- The record of a file with this source holds the outline. -/
  recorded : ∀ (w : World) (path root : Path) (extensions : List Text) (bytes : List UInt8) (cs : List Char)
    (r : Record), Utf8.decode (Utf8.dropMark bytes) = .ok cs → src = Source.ofList cs →
      parse (Extraction.dialectOf path) cs = .ok t → Extraction.record w path root extensions bytes = .ok r →
        Recorded w path extensions (ofTree src t) r

/-- The visitor and the loop with a stack take down the same. -/
theorem visit_eq_ofTree (src : Source) (t : Tree) : visit src blank ⟨t, false⟩ = ofTree src t := by
  rw [visit_eq_foldl, ofTree_eq, ← foldl_note, List.foldl_flatMap]
  rfl

/-- The traversal of any tree keeps its promises. -/
theorem tree_traversed (src : Source) (t : Tree) : Traversed src t where
  ends := by
    refine ⟨_, @length_entered_le src ⟨t, false⟩, ?_⟩
    rw [turns_eq_visit, visit_eq_ofTree]
  visits := visit_eq_ofTree src t
  exposed u before after site exposed hSite := by
    obtain ⟨earlier, later, hEntered, hEarlier, hLater⟩ : ∃ earlier later, enteredTrees src ⟨t, false⟩ =
        earlier ++ u :: later ∧ earlier.Subperm before ∧ later.Subperm after :=
      exposed.entered (importOf?_some hSite).1 false
    refine ⟨earlier, later, ?_, hEarlier, hLater⟩
    rw [imports_eq, hEntered, List.filterMap_append, List.filterMap_cons, hSite]
  distinct := distinct_nodup _
  credited := by
    rw [ofTree_eq, List.flatMap_assoc]
    simp only [← look_findings]
  once d cs hParse := by
    rw [List.map_flatMap]
    exact accounted_subperm ⟨t, false⟩ (parse_shaped hParse)
  ordered d cs hParse := imports_ordered hParse
  recorded w path root extensions bytes cs r hDecode hSource hParse hRecord := by
    rw [hSource]
    exact record_recorded hDecode hParse hRecord

namespace Sample

/-- Imports at the top and in an exported namespace, around
an exported class. -/
def nested : List Char :=
  "import './a';\n@Pipe() export class A \x7b\x7d\nexport namespace N \x7b\n  import './b'\n\x7d".toList

def listing (o : Outline) : List (Text × Nat) × List Text × List Text :=
  (o.imports.map fun site => (site.source, site.line), o.annotations, o.classes.map ClassInfo.name)

def nestedListing : List (Text × Nat) × List Text × List Text := ([("./a", 1), ("./b", 4)], ["Pipe"], ["A"])

theorem nested_listed : (parse .plain nested).toOption.map (fun t => listing (ofTree (Source.ofList nested) t)) =
    some nestedListing := by
  decide +kernel

/-- The class and its annotation are listed once, and the imports by line. -/
theorem nested_traversed : ∃ t, parse .plain nested = .ok t ∧
    listing (ofTree (Source.ofList nested) t) = nestedListing ∧
    (((entered (Source.ofList nested) ⟨t, false⟩).flatMap (credits (Source.ofList nested))).map
      Prod.fst).Subperm t.preorder := by
  obtain ⟨t, hTree, hListing⟩ := Option.map_eq_some_iff.mp nested_listed
  have hParse : parse .plain nested = .ok t := eq_ok_of_toOption hTree
  exact ⟨t, hParse, hListing, (tree_traversed (Source.ofList nested) t).once .plain nested hParse⟩

end Sample

end Outline

end SourceAtlas
