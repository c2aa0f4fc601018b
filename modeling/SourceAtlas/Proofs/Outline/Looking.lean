import SourceAtlas.Outline.Basic
import SourceAtlas.Proofs.Syntax.Grammar

/-!
What looking at one tree takes account of. The trees it draws findings from and the trees it leaves
to be looked at next are apart from each other within the tree; in the trees of sources they also
stand in source order, and each function or class that is found has a word of its own.
-/
namespace SourceAtlas

open Syntax

namespace Syntax.Tree

mutual

/-- The tree and all trees within it, each before its children. -/
def preorder : Tree → List Tree
  | mk l f start stop cs => mk l f start stop cs :: preorderAll cs

/-- The trees of a forest in order, with all trees within them. -/
def preorderAll : List Tree → List Tree
  | [] => []
  | t :: ts => preorder t ++ preorderAll ts

end

/-- A tree comes first, then everything inside it, child by child. -/
theorem preorder_eq (t : Tree) : t.preorder = t :: preorderAll t.children := by
  cases t
  rw [preorder, children]

/-- The trees of a forest, one after the other. -/
theorem preorderAll_eq (ts : List Tree) : preorderAll ts = ts.flatMap preorder := by
  induction ts with
  | nil => rfl
  | cons t ts ih => rw [preorderAll, ih, List.flatMap_cons]

@[simp]
theorem preorderAll_append (ts us : List Tree) : preorderAll (ts ++ us) = preorderAll ts ++ preorderAll us := by
  simp only [preorderAll_eq, List.flatMap_append]

theorem mem_preorder_self (t : Tree) : t ∈ t.preorder := by
  rw [preorder_eq]
  exact List.mem_cons_self ..

theorem preorderAll_singleton (t : Tree) : preorderAll [t] = t.preorder := List.append_nil _

/-- A tree is within a forest exactly if it is within one of its trees. -/
theorem mem_preorderAll {u : Tree} {ts : List Tree} : u ∈ preorderAll ts ↔ ∃ t ∈ ts, u ∈ t.preorder := by
  rw [preorderAll_eq, List.mem_flatMap]

theorem mem_preorder_of_child {t c : Tree} (hc : c ∈ t.children) : c ∈ t.preorder := by
  rw [preorder_eq]
  exact List.mem_cons_of_mem _ (mem_preorderAll.mpr ⟨c, hc, mem_preorder_self c⟩)

/-- What holds everywhere in a tree holds everywhere in the trees within it. -/
theorem Everywhere.within {P : Label → List Tree → Prop} {t u : Tree} (hTree : t.Everywhere P)
    (hu : u ∈ t.preorder) : u.Everywhere P := by
  induction hTree with
  | mk here inside ih =>
      rw [preorder, List.mem_cons, mem_preorderAll] at hu
      rcases hu with rfl | ⟨c, hc, hu⟩
      · exact .mk here inside
      · exact ih c hc hu

mutual

/-- A tree has as many trees within it as its size says. Sizes serve as
fuel, so this bounds what a walk can meet. -/
theorem length_preorder : ∀ t : Tree, t.preorder.length = t.size
  | mk _ _ _ _ cs => by rw [preorder, List.length_cons, length_preorderAll cs, size, Nat.add_comm]

/-- A forest has as many trees in its preorder as its size says. -/
theorem length_preorderAll : ∀ ts : List Tree, (preorderAll ts).length = sizeAll ts
  | [] => rfl
  | t :: ts => by rw [preorderAll, List.length_append, length_preorder t, length_preorderAll ts, sizeAll]

end

/-- The trees of a forest are among all trees within it, in the same order. -/
theorem sublist_preorderAll (ts : List Tree) : ts.Sublist (preorderAll ts) := by
  induction ts with
  | nil => exact .slnil
  | cons t ts ih =>
      rw [preorderAll, preorder_eq, List.cons_append]
      exact (ih.trans (List.sublist_append_right ..)).cons_cons t

/-- Leaving out trees of a forest leaves out what is within them and keeps
the order of the rest. -/
theorem preorderAll_sublist {ts us : List Tree} (hSub : ts.Sublist us) :
    (preorderAll ts).Sublist (preorderAll us) := by
  induction hSub with
  | slnil => exact .slnil
  | cons u _ ih => exact ih.trans (List.sublist_append_right ..)
  | cons_cons t _ ih => exact List.Sublist.append_left ih _

/-- Forests with the same members have the same trees. -/
theorem preorderAll_perm {ts us : List Tree} (hPerm : ts.Perm us) : (preorderAll ts).Perm (preorderAll us) := by
  rw [preorderAll_eq, preorderAll_eq]
  exact hPerm.flatMap_right _

/-- The same without regard to order. -/
theorem preorderAll_subperm {ts us : List Tree} (hSub : ts.Subperm us) :
    (preorderAll ts).Subperm (preorderAll us) := by
  obtain ⟨vs, hPerm, hSublist⟩ := hSub
  exact ⟨_, preorderAll_perm hPerm, preorderAll_sublist hSublist⟩

/-- A part is a child. -/
theorem part?_mem {t c : Tree} {f : Field} (hPart : t.part? f = some c) : c ∈ t.children :=
  List.mem_of_find?_eq_some hPart

/-- The part that is found by a field has that field. -/
theorem part?_field {t c : Tree} {f : Field} (hPart : t.part? f = some c) : c.field = some f := by
  simpa using List.find?_some hPart

/-- The first child in a field is the part. -/
theorem part?_eq_some {t c : Tree} {f : Field} {left right : List Tree} (hChildren : t.children = left ++ c :: right)
    (hField : c.field = some f) (hFirst : ∀ c' ∈ left, c'.field ≠ some f) : t.part? f = some c := by
  rw [part?, hChildren, List.find?_append, List.find?_eq_none.mpr (by simpa using hFirst)]
  simp [hField]

/-- Parts in different fields are different children. -/
theorem parts_subperm (t : Tree) {fs : List Field} (hFields : fs.Nodup) :
    (fs.filterMap fun f => t.part? f).Subperm t.children := by
  refine List.subperm_of_subset ?_ fun c hc => ?_
  · rw [List.nodup_iff_pairwise_ne, List.pairwise_filterMap]
    apply hFields.imp
    intro f f' hne c hc c' hc' hSame
    have hField := part?_field hc
    rw [hSame, part?_field hc'] at hField
    exact hne (Option.some.inj hField).symm
  · obtain ⟨f, -, hPart⟩ := List.mem_filterMap.mp hc
    exact part?_mem hPart

/-- Two parts stand in the order of which nothing to the contrary is found. -/
theorem parts_sublist {ts : List Tree} {f f' : Field} (hFields : f ≠ f') (hOrder : ts.Pairwise (InOrder f f')) :
    ((ts.find? fun c => c.field == some f).toList ++ (ts.find? fun c => c.field == some f').toList).Sublist ts := by
  have hMember {us : List Tree} {p : Tree → Bool} : (us.find? p).toList.Sublist us := by
    cases hFind : us.find? p with
    | none => exact List.nil_sublist _
    | some c => exact List.singleton_sublist.mpr (List.mem_of_find?_eq_some hFind)
  induction ts with
  | nil => exact .slnil
  | cons t ts ih =>
      obtain ⟨hFirst, hRest⟩ := List.pairwise_cons.mp hOrder
      by_cases hEarly : t.field = some f
      · have hLate : (t.field == some f') = false := by simpa [hEarly] using hFields
        rw [List.find?_cons_of_pos (by simpa using hEarly), List.find?_cons_of_neg (by simpa using hLate)]
        exact hMember.cons_cons t
      by_cases hLate : t.field = some f'
      · -- no part in the first field can follow
        have hNone : ts.find? (fun c => c.field == some f) = none := by
          rw [List.find?_eq_none]
          intro c hc hField
          exact hFirst c hc ⟨hLate, by simpa using hField⟩
        rw [List.find?_cons_of_neg (by simpa using hEarly), List.find?_cons_of_pos (by simpa using hLate), hNone]
        exact List.singleton_sublist.mpr (List.mem_cons_self ..)
      · rw [List.find?_cons_of_neg (by simpa using hEarly), List.find?_cons_of_neg (by simpa using hLate)]
        exact (ih hRest).cons t

end Syntax.Tree

namespace Outline

variable {src : Source} {s : Site} {t : Tree}

/-- The trees inside a tree that are looked at after it. -/
def selected (src : Source) (s : Site) : List Tree := (look src s).2.map Site.tree

/-- The parameters and the body of a function, as far as it has them. -/
def signatureTrees (t : Tree) : List Tree := (t.part? .parameters).toList ++ (t.part? .body).toList

theorem tree_sites (parts : List (Option Tree)) : (sites parts).map Site.tree = parts.flatMap Option.toList := by
  rw [sites, List.map_filterMap]
  induction parts with
  | nil => rfl
  | cons p parts ih => cases p <;> simp_all

/-- The sites of a function stand for its parameters and its
body, in this order. -/
theorem tree_signatureSites (t : Tree) : (signatureSites t).map Site.tree = signatureTrees t := by
  rw [signatureSites, tree_sites]
  simp [signatureTrees]

/-- The same list, as what is found under two fields. -/
theorem signatureTrees_eq (t : Tree) : signatureTrees t = [.parameters, .body].filterMap fun f => t.part? f := by
  rw [signatureTrees]
  cases hParameters : t.part? .parameters <;> cases hBody : t.part? .body <;> simp [hParameters, hBody]

/-- The parameters of a phrase stand before its body. -/
def ParametersFirst (t : Tree) : Prop := (signatureTrees t).Sublist t.children

/-- In a parsed tree parameters stand before the body, because every phrase
has the shape that its rule gives it. -/
theorem parametersFirst_of_shaped (hShaped : Shaped t.label t.children) : ParametersFirst t :=
  Tree.parts_sublist (by decide) hShaped.ordered

def classKinds : List Kind := [.classDeclaration, .abstractClassDeclaration, .classExpression]

/-- Findings that are no annotations. -/
def Finding.lasting : Finding → Bool
  | .decorated _ => false
  | _ => true

/-- The decorators of a class and the class itself, each with what it gives. -/
def classCredits (src : Source) (outer : List Tree) (t : Tree) : List (Tree × List Finding) :=
  (outer ++ decoratorsOf t).map (fun d => (d, decoratorFinding src d)) ++
    [(t, (lookClass src outer t).1.filter Finding.lasting)]

/-- An export with its decorators. A class that it declares is taken account
of with it. -/
def exportCredits (src : Source) (t : Tree) : List (Tree × List Finding) :=
  let decorators := (decoratorsOf t).map fun d => (d, decoratorFinding src d)
  match t.part? .declaration with
  | some d =>
    (t, (declaredExports src d).map .exporting) ::
      if d.isOneOf classKinds then classCredits src (decoratorsOf t) d else decorators
  | none =>
    match t.part? .value with
    | some _ => decorators ++ [(t, [.exporting ⟨"default", .default⟩])]
    | none => decorators ++ [(t, (clauseExports src t).map .exporting)]

/-- The trees that looking at a tree takes account of, each
with what it gives. -/
def credits (src : Source) (s : Site) : List (Tree × List Finding) :=
  if s.tree.isKind .exportStatement then exportCredits src s.tree
  else if s.tree.isOneOf classKinds then classCredits src [] s.tree
  else [(s.tree, (look src s).1)]

/-- The trees that looking at a tree takes account of. -/
def accounted (src : Source) (s : Site) : List Tree := (credits src s).map Prod.fst

/-- How many functions and classes are among findings. -/
def tally (fs : List Finding) : Nat :=
  fs.countP fun
    | .ofClass _ => true
    | .ofFunction _ => true
    | _ => false

theorem flatMap_decoratorFinding (src : Source) (ds : List Tree) :
    ds.flatMap (decoratorFinding src) = (ds.filterMap (decoratorName? src)).map .decorated := by
  induction ds with
  | nil => rfl
  | cons d ds ih =>
      rw [List.flatMap_cons, ih, decoratorFinding]
      cases hName : decoratorName? src d <;> simp [hName]

/-- Giving each tree what a function finds there and collecting that again
is collecting it at once. -/
theorem flatMap_credits (ds : List Tree) (f : Tree → List Finding) :
    (ds.map fun d => (d, f d)).flatMap Prod.snd = ds.flatMap f := by
  rw [List.flatMap_map]

/-- The findings of a class are those of its decorators and what is lasting
about itself. -/
theorem classCredits_findings (src : Source) (outer : List Tree) (t : Tree) :
    (classCredits src outer t).flatMap Prod.snd = (lookClass src outer t).1 := by
  have hAnnotations (names : List Text) : (names.map Finding.decorated).filter Finding.lasting = [] := by
    rw [List.filter_eq_nil_iff]
    intro f hf
    obtain ⟨name, -, rfl⟩ := List.mem_map.mp hf
    simp [Finding.lasting]
  rw [classCredits, List.flatMap_append, flatMap_credits, flatMap_decoratorFinding]
  simp only [lookClass, List.flatMap_cons, List.flatMap_nil, List.append_nil, List.filter_append, hAnnotations,
    List.nil_append]
  congr 1
  split <;> simp [Finding.lasting]

/-- A class that an export declares is looked at with it. -/
theorem lookExport_class {d : Tree} (hDeclaration : t.part? .declaration = some d)
    (hClass : d.isOneOf classKinds = true) : lookExport src t =
      ((declaredExports src d).map .exporting ++ (lookClass src (decoratorsOf t) d).1,
        (lookClass src (decoratorsOf t) d).2) := by
  rw [lookExport, hDeclaration]
  exact if_pos hClass

/-- An export of something that is no class: it gives what is exported and
the decorators, and what is declared is looked at next. -/
theorem lookExport_other {d : Tree} (hDeclaration : t.part? .declaration = some d)
    (hClass : d.isOneOf classKinds = false) : lookExport src t =
      ((declaredExports src d).map .exporting ++ (decoratorsOf t).flatMap (decoratorFinding src), sites [some d]) := by
  rw [lookExport, hDeclaration]
  exact if_neg (Bool.eq_false_iff.mp hClass)

/-- The findings at an export are exactly those that are credited to its
decorators, its class and itself. -/
theorem exportCredits_findings (src : Source) (t : Tree) :
    (exportCredits src t).flatMap Prod.snd = (lookExport src t).1 := by
  rw [exportCredits]
  cases hDeclaration : t.part? .declaration with
  | some d =>
      dsimp only
      rw [List.flatMap_cons]
      cases hClass : d.isOneOf classKinds with
      | true => rw [lookExport_class hDeclaration hClass, if_pos rfl, classCredits_findings]
      | false => rw [lookExport_other hDeclaration hClass, if_neg Bool.false_ne_true, flatMap_credits]
  | none =>
      rw [lookExport, hDeclaration]
      cases t.part? .value <;> simp [flatMap_credits]

/-- All that looking at a tree finds is drawn from a tree that it takes
account of. -/
theorem look_findings (src : Source) (s : Site) : (look src s).1 = (credits src s).flatMap Prod.snd := by
  rw [credits]
  split
  · next hExport =>
    have hLabel : s.tree.label = .phrase .exportStatement := by simpa [Tree.isKind] using hExport
    rw [exportCredits_findings, look, hLabel]
  split
  · next hClass =>
    rw [classCredits_findings]
    simp only [Tree.isOneOf, classKinds, List.any_cons, List.any_nil, Bool.or_false, Bool.or_eq_true, Tree.isKind,
      beq_iff_eq] at hClass
    rcases hClass with hLabel | hLabel | hLabel <;> rw [look, hLabel]
  · simp

/-- How a tree is looked at: the trees that are taken account of, those that
are looked at next, and how many functions and classes are found. -/
inductive Looks (t : Tree) : List Tree → List Tree → Nat → Prop
  /-- Nothing inside is looked at: imports, decorators, names alone. -/
  | closed : Looks t [t] [] 0
  /-- All children are. -/
  | open_ : Looks t [t] t.children 0
  | signature {n : Nat} (hCount : n ≤ 1) {k : Kind} (hKind : k ∈ introducedKinds) (hLabel : t.label = .phrase k) :
      Looks t [t] (signatureTrees t) n
  | value {v : Tree} (hValue : t.part? .value = some v) : Looks t [t] [v] 0
  | bound {v : Tree} (hValue : t.part? .value = some v) (hLabel : t.label = .phrase .variableDeclarator) :
      Looks t [t] (signatureTrees v) 1
  | class {n : Nat} (hCount : n ≤ 1) {k : Kind} (hKind : k ∈ introducedKinds) (hLabel : t.label = .phrase k) :
      Looks t (decoratorsOf t ++ [t]) (t.part? .body).toList n
  | declaration {d : Tree} (hDeclaration : t.part? .declaration = some d) : Looks t (t :: decoratorsOf t) [d] 0
  | declaredClass {d : Tree} (hDeclaration : t.part? .declaration = some d) {n : Nat} (hCount : n ≤ 1) {k : Kind}
      (hKind : k ∈ introducedKinds) (hLabel : d.label = .phrase k) :
      Looks t (t :: (decoratorsOf t ++ decoratorsOf d ++ [d])) (d.part? .body).toList n
  | exportedValue {v : Tree} (hValue : t.part? .value = some v) : Looks t (decoratorsOf t ++ [t]) [v] 0
  | exportedNames : Looks t (decoratorsOf t ++ [t]) [] 0

/-- A class takes account of the decorators from outside, its own decorators
and itself. -/
theorem classCredits_trees (src : Source) (outer : List Tree) (t : Tree) :
    (classCredits src outer t).map Prod.fst = outer ++ decoratorsOf t ++ [t] := by
  rw [classCredits, List.map_append, List.map_map]
  congr 1
  exact List.map_id _

/-- Only the body of a class is looked at further. -/
theorem lookClass_selected (src : Source) (outer : List Tree) (t : Tree) :
    (lookClass src outer t).2.map Site.tree = (t.part? .body).toList := by
  simp [lookClass, tree_sites]

/-- A class counts for one at most, whatever its decorators give. -/
theorem tally_lookClass_le (src : Source) (outer : List Tree) (t : Tree) : tally (lookClass src outer t).1 ≤ 1 := by
  have hAnnotations (names : List Text) : tally (names.map Finding.decorated) = 0 := by
    rw [tally, List.countP_map, List.countP_eq_zero]
    simp
  simp only [lookClass]
  rw [tally, List.countP_append, ← tally, ← tally, hAnnotations, Nat.zero_add]
  split <;> simp [tally]

/-- The kind of a tree of one of the kinds of classes. -/
theorem exists_classKind {t : Tree} (hClass : t.isOneOf classKinds = true) :
    ∃ k ∈ introducedKinds, t.label = .phrase k := by
  obtain ⟨k, hk, hKind⟩ := List.any_eq_true.mp hClass
  have hIntroduced : ∀ k ∈ classKinds, k ∈ introducedKinds := by decide
  exact ⟨k, hIntroduced k hk, by simpa [Tree.isKind] using hKind⟩

/-- A function takes account of itself alone, and is gone on with in its
parameters and its body. -/
theorem lookFunction_looks (src : Source) {t : Tree} {k : Kind} (hKind : k ∈ introducedKinds)
    (hLabel : t.label = .phrase k) :
    Looks t [t] ((lookFunction src t).2.map Site.tree) (tally (lookFunction src t).1) := by
  rw [lookFunction]
  split
  · rw [listFunction, tree_signatureSites]
    exact .signature (by simp [tally]) hKind hLabel
  · rw [tree_signatureSites]
    exact .signature (by simp [tally]) hKind hLabel

/-- So does a method. -/
theorem lookMethod_looks (src : Source) (inClassBody : Bool) {t : Tree} (hLabel : t.label = .phrase .methodDefinition) :
    Looks t [t] ((lookMethod src inClassBody t).2.map Site.tree) (tally (lookMethod src inClassBody t).1) := by
  rw [lookMethod]
  split
  · rw [listFunction, tree_signatureSites]
    exact .signature (by simp [tally]) (by decide) hLabel
  · rw [tree_signatureSites]
    exact .signature (by simp [tally]) (by decide) hLabel

/-- A declarator that binds a function takes account of itself, and is gone
on with in the function. -/
theorem lookVariable_looks (src : Source) {t : Tree} (hLabel : t.label = .phrase .variableDeclarator) :
    Looks t [t] ((lookVariable src t).2.map Site.tree) (tally (lookVariable src t).1) := by
  rw [lookVariable]
  split
  · exact .closed
  · next v hValue =>
    have hPassed : Looks t [t] ((sites [some v]).map Site.tree) (tally []) := by
      rw [tree_sites]
      exact .value hValue
    have hBound (name : Text) (kind : FunctionKind) :
        Looks t [t] ((listFunction src name kind t v).2.map Site.tree) (tally (listFunction src name kind t v).1) := by
      rw [listFunction, tree_signatureSites]
      exact .bound hValue hLabel
    split
    · split
      · exact hBound _ _
      · split
        · exact hBound _ _
        · exact hPassed
    · exact hPassed

/-- An export takes account of its decorators too, and with a class that it
declares of those of the class. -/
theorem lookExport_looks (src : Source) (t : Tree) : Looks t ((exportCredits src t).map Prod.fst)
    ((lookExport src t).2.map Site.tree) (tally (lookExport src t).1) := by
  have hDecorators : ((decoratorsOf t).map fun d => (d, decoratorFinding src d)).map Prod.fst = decoratorsOf t := by
    rw [List.map_map]
    exact List.map_id _
  have hQuiet : tally ((decoratorsOf t).flatMap (decoratorFinding src)) = 0 := by
    rw [flatMap_decoratorFinding, tally, List.countP_map, List.countP_eq_zero]
    simp
  have hExports (es : List Export) : tally (es.map .exporting) = 0 := by
    rw [tally, List.countP_map, List.countP_eq_zero]
    simp
  have hSum (fs fs' : List Finding) : tally (fs ++ fs') = tally fs + tally fs' := List.countP_append ..
  rw [exportCredits]
  cases hDeclaration : t.part? .declaration with
  | some d =>
      dsimp only
      rw [List.map_cons]
      cases hClass : d.isOneOf classKinds with
      | true =>
          obtain ⟨k, hk, hLabel⟩ := exists_classKind hClass
          rw [lookExport_class hDeclaration hClass, if_pos rfl, classCredits_trees, lookClass_selected]
          refine .declaredClass hDeclaration ?_ hk hLabel
          rw [hSum, hExports, Nat.zero_add]
          exact tally_lookClass_le src _ d
      | false =>
          rw [lookExport_other hDeclaration hClass, if_neg Bool.false_ne_true, hDecorators, tree_sites, hSum,
            hExports, hQuiet]
          exact .declaration hDeclaration
  | none =>
      rw [lookExport, hDeclaration]
      dsimp only
      cases hValue : t.part? .value with
      | some v =>
          dsimp only
          rw [List.map_append, hDecorators, tree_sites, hSum, hQuiet]
          exact .exportedValue hValue
      | none =>
          dsimp only
          rw [List.map_append, hDecorators, hSum, hExports, hQuiet]
          exact .exportedNames

/-- Looking at a tree goes one of these ways. -/
theorem look_looks (src : Source) (s : Site) :
    Looks s.tree (accounted src s) (selected src s) (tally (look src s).1) := by
  obtain ⟨t, inClassBody⟩ := s
  have hAlone (hExport : t.label ≠ .phrase .exportStatement)
      (hClass : ∀ k ∈ classKinds, t.label ≠ .phrase k) : accounted src ⟨t, inClassBody⟩ = [t] := by
    have hNoExport : t.isKind .exportStatement = false := by simpa [Tree.isKind] using hExport
    have hNoClass : t.isOneOf classKinds = false := by
      rw [Tree.isOneOf, List.any_eq_false]
      intro k hk
      simpa [Tree.isKind] using hClass k hk
    rw [accounted, credits, hNoExport, hNoClass]
    rfl
  have hClassTrees (hClass : t.isOneOf classKinds = true) (hExport : t.isKind .exportStatement = false) :
      Looks t (accounted src ⟨t, inClassBody⟩) ((lookClass src [] t).2.map Site.tree)
        (tally (lookClass src [] t).1) := by
    obtain ⟨k, hk, hLabel⟩ := exists_classKind hClass
    rw [accounted, credits, hExport, hClass, if_neg Bool.false_ne_true, if_pos rfl, classCredits_trees,
      lookClass_selected]
    exact .class (tally_lookClass_le src [] t) hk hLabel
  rw [selected, look]
  dsimp only
  split
  case h_1 hLabel =>
    rw [hAlone (by simp [hLabel]) (by simp [hLabel, classKinds]), lookImport]
    split <;> exact .closed
  case h_2 hLabel =>
    have hExport : t.isKind .exportStatement = true := by simp [Tree.isKind, hLabel]
    rw [accounted, credits, if_pos hExport]
    exact lookExport_looks src t
  case h_3 hLabel | h_4 hLabel | h_5 hLabel =>
    exact hClassTrees (by simp [Tree.isOneOf, classKinds, Tree.isKind, hLabel]) (by simp [Tree.isKind, hLabel])
  case h_6 hLabel | h_7 hLabel =>
    rw [hAlone (by simp [hLabel]) (by simp [hLabel, classKinds])]
    exact lookFunction_looks src (by decide) hLabel
  case h_8 hLabel =>
    rw [hAlone (by simp [hLabel]) (by simp [hLabel, classKinds])]
    exact lookMethod_looks src inClassBody hLabel
  case h_9 hLabel =>
    rw [hAlone (by simp [hLabel]) (by simp [hLabel, classKinds])]
    exact lookVariable_looks src hLabel
  case h_10 hLabel =>
    rw [hAlone (by simp [hLabel]) (by simp [hLabel, classKinds]), decoratorFinding]
    cases decoratorName? src t <;> exact .closed
  case h_11 _ hExport hClass hAbstract hExpression _ _ _ _ _ =>
    rw [hAlone hExport (by simpa [classKinds] using ⟨hClass, hAbstract, hExpression⟩), List.map_map]
    have hTrees : t.children.map (Site.tree ∘ fun c => ⟨c, t.isKind .classBody⟩) = t.children := List.map_id _
    rw [hTrees]
    exact .open_

/-- The parameters and the body are different children, so counting them
twice is out of the question. -/
theorem signatureTrees_subperm (t : Tree) : (signatureTrees t).Subperm t.children := by
  rw [signatureTrees_eq]
  exact t.parts_subperm (by decide)

/-- Each part is one of the children. -/
theorem part_subperm (t : Tree) (f : Field) : (t.part? f).toList.Subperm t.children := by
  cases hPart : t.part? f with
  | none => exact List.nil_subperm
  | some c => exact List.singleton_subperm_iff.mpr (Tree.part?_mem hPart)

/-- All trees within a child are within the tree. -/
theorem preorder_sublist_children {c : Tree} (hc : c ∈ t.children) :
    c.preorder.Sublist (Tree.preorderAll t.children) := by
  rw [← Tree.preorderAll_singleton]
  exact Tree.preorderAll_sublist (List.singleton_sublist.mpr hc)

/-- All trees within a part are within the children. -/
theorem preorderAll_part_sublist (t : Tree) (f : Field) :
    (Tree.preorderAll (t.part? f).toList).Sublist (Tree.preorderAll t.children) := by
  cases hPart : t.part? f with
  | none => exact List.nil_sublist _
  | some c => exact Tree.preorderAll_sublist (List.singleton_sublist.mpr (Tree.part?_mem hPart))

/-- The trees of the children are among those of their parent,
in the same order. -/
theorem preorderAll_children_sublist (t : Tree) : (Tree.preorderAll t.children).Sublist t.preorder := by
  rw [Tree.preorder_eq]
  exact List.sublist_cons_self ..

namespace Looks

variable {nodes next : List Tree} {n : Nat}

/-- What is looked at next is apart from each other, and
properly within the tree. -/
theorem within (looks : Looks t nodes next n) :
    (Tree.preorderAll next).Subperm (Tree.preorderAll t.children) := by
  have hInside {c : Tree} (hc : c ∈ t.children) {us : List Tree} (hus : us.Subperm c.children) :
      (Tree.preorderAll us).Subperm (Tree.preorderAll t.children) :=
    (Tree.preorderAll_subperm hus).trans
      ((preorderAll_children_sublist c).trans (preorder_sublist_children hc)).subperm
  cases looks with
  | closed | exportedNames => exact List.nil_subperm
  | open_ => exact List.Subperm.refl _
  | signature => exact Tree.preorderAll_subperm (signatureTrees_subperm t)
  | value hValue | exportedValue hValue =>
      exact Tree.preorderAll_subperm (List.singleton_subperm_iff.mpr (Tree.part?_mem hValue))
  | bound hValue => exact hInside (Tree.part?_mem hValue) (signatureTrees_subperm _)
  | «class» => exact Tree.preorderAll_subperm (part_subperm t .body)
  | declaration hDeclaration =>
      exact Tree.preorderAll_subperm (List.singleton_subperm_iff.mpr (Tree.part?_mem hDeclaration))
  | declaredClass hDeclaration => exact hInside (Tree.part?_mem hDeclaration) (part_subperm _ .body)

/-- Where parameters stand before the body, it stands in source order. -/
theorem inOrder (hFirst : ∀ u ∈ t.preorder, ParametersFirst u) (looks : Looks t nodes next n) :
    (Tree.preorderAll next).Sublist (Tree.preorderAll t.children) := by
  have hSignature {u : Tree} (hu : u ∈ t.preorder) :
      (Tree.preorderAll (signatureTrees u)).Sublist (Tree.preorderAll u.children) :=
    Tree.preorderAll_sublist (hFirst u hu)
  have hInside {c : Tree} (hc : c ∈ t.children) :
      (Tree.preorderAll c.children).Sublist (Tree.preorderAll t.children) :=
    (preorderAll_children_sublist c).trans (preorder_sublist_children hc)
  cases looks with
  | closed | exportedNames => exact List.nil_sublist _
  | open_ => exact List.Sublist.refl _
  | signature => exact hSignature (Tree.mem_preorder_self t)
  | value hValue | exportedValue hValue =>
      exact Tree.preorderAll_sublist (List.singleton_sublist.mpr (Tree.part?_mem hValue))
  | bound hValue =>
      have hv := Tree.part?_mem hValue
      exact (hSignature (Tree.mem_preorder_of_child hv)).trans (hInside hv)
  | «class» => exact preorderAll_part_sublist t .body
  | declaration hDeclaration =>
      exact Tree.preorderAll_sublist (List.singleton_sublist.mpr (Tree.part?_mem hDeclaration))
  | declaredClass hDeclaration =>
      exact (preorderAll_part_sublist _ .body).trans (hInside (Tree.part?_mem hDeclaration))

/-- In the trees of sources it stands in source order. -/
theorem ordered (hTree : t.Everywhere Shaped) (looks : Looks t nodes next n) :
    (Tree.preorderAll next).Sublist (Tree.preorderAll t.children) :=
  looks.inOrder fun _ hu => parametersFirst_of_shaped (hTree.within hu).root

/-- Decorators are apart from the part that a phrase is about. -/
theorem decorators_subperm (hTree : t.Everywhere Shaped) {f : Field} (hMain : f ∈ mainParts) :
    (decoratorsOf t ++ (t.part? f).toList).Subperm t.children := by
  have hOthers : (t.part? f).toList.Sublist (t.children.filter fun c => !c.isKind .decorator) := by
    cases hPart : t.part? f with
    | none => exact List.nil_sublist _
    | some c =>
        refine List.singleton_sublist.mpr (List.mem_filter.mpr ⟨Tree.part?_mem hPart, ?_⟩)
        by_contra hDecorator
        exact hTree.root.apart c (Tree.part?_mem hPart) (by simpa using hDecorator) f hMain (Tree.part?_field hPart)
  exact (List.Sublist.append_left hOthers _).subperm.trans (List.filter_append_perm _ _).subperm

/-- A tree that is taken account of is neither taken account of twice nor
looked at later. -/
theorem apart (hTree : t.Everywhere Shaped) (looks : Looks t nodes next n) :
    (nodes ++ Tree.preorderAll next).Subperm t.preorder := by
  have hSelf (looks : Looks t nodes next n) : ([t] ++ Tree.preorderAll next).Subperm t.preorder := by
    rw [Tree.preorder_eq]
    exact (List.subperm_cons t).mpr looks.within
  -- decorators first, then the phrase, then what is within the main part
  have hDecorated {u : Tree} (hTree : u.Everywhere Shaped) {f : Field} (hMain : f ∈ mainParts) :
      (u :: (decoratorsOf u ++ Tree.preorderAll (u.part? f).toList)).Subperm u.preorder := by
    rw [Tree.preorder_eq]
    refine (List.subperm_cons u).mpr (List.Subperm.trans ?_ (Tree.preorderAll_subperm (decorators_subperm hTree hMain)))
    rw [Tree.preorderAll_append]
    exact ((Tree.sublist_preorderAll _).append (List.Sublist.refl _)).subperm
  have hAfter (u : Tree) (ds us : List Tree) : (ds ++ [u] ++ us).Perm (u :: (ds ++ us)) := by
    rw [List.append_assoc]
    exact List.perm_middle
  have hLook := looks
  cases looks with
  | closed | open_ | signature | value | bound => exact hSelf hLook
  | «class» => exact (hAfter _ _ _).subperm.trans (hDecorated hTree (by decide))
  | declaration hDeclaration =>
      have hBoth := hDecorated hTree (f := .declaration) (by decide)
      rwa [hDeclaration] at hBoth
  | @declaredClass d hDeclaration _ _ _ _ _ =>
      have hOuter := hDecorated hTree (f := .declaration) (by decide)
      have hInner := hDecorated (hTree.child (Tree.part?_mem hDeclaration)) (f := .body) (by decide)
      rw [hDeclaration, Option.toList_some, Tree.preorderAll_singleton] at hOuter
      refine List.Subperm.trans ?_ hOuter
      rw [List.cons_append, List.subperm_cons, List.append_assoc, List.append_assoc, List.subperm_append_left]
      refine List.Subperm.trans (List.Perm.subperm ?_) hInner
      rw [← List.append_assoc]
      exact hAfter d (decoratorsOf d) _
  | exportedValue hValue =>
      have hBoth := hDecorated hTree (f := .value) (by decide)
      rw [hValue] at hBoth
      exact (hAfter _ _ _).subperm.trans hBoth
  | exportedNames =>
      have hBoth := hDecorated hTree (f := .value) (by decide)
      refine (hAfter _ _ _).subperm.trans (List.Subperm.trans (List.Sublist.subperm ?_) hBoth)
      exact (List.Sublist.append_left (List.nil_sublist _) _).cons_cons t

/-- The word that introduces a phrase is outside of what it is about. -/
theorem introduced_weight (hTree : t.Everywhere Shaped) {k : Kind} (hKind : k ∈ introducedKinds)
    (hLabel : t.label = .phrase k) {fs : List Field} (hFields : fs.Nodup) (hParts : fs ⊆ [.parameters, .body, .value]) :
    1 + Tree.weightAll (fs.filterMap fun f => t.part? f) ≤ t.weight := by
  obtain ⟨c, hc, hWeight, hOutside⟩ := hTree.root.introduced k hKind hLabel
  have hParts' := t.parts_subperm hFields
  have hNew : c ∉ fs.filterMap fun f => t.part? f := by
    intro hMem
    obtain ⟨f, hf, hPart⟩ := List.mem_filterMap.mp hMem
    exact hOutside f (hParts hf) (Tree.part?_field hPart)
  have hAll : (c :: fs.filterMap fun f => t.part? f).Subperm t.children :=
    List.cons_subperm_of_not_mem_of_mem hNew hc hParts'
  have hSum := (Tree.weightAll_le_of_subperm hAll).trans hTree.weightAll_le
  rw [Tree.weightAll] at hSum
  omega

/-- Each function or class that is found has a word of its own in the tree. -/
theorem weight_le (hTree : t.Everywhere Shaped) (looks : Looks t nodes next n) :
    n + Tree.weightAll next ≤ t.weight := by
  have hChild {f : Field} {c : Tree} (hPart : t.part? f = some c) : c.weight ≤ t.weight :=
    (Tree.weight_le_of_mem (Tree.part?_mem hPart)).trans hTree.weightAll_le
  have hBody {u : Tree} (hTree : u.Everywhere Shaped) {k : Kind} (hKind : k ∈ introducedKinds)
      (hLabel : u.label = .phrase k) : 1 + Tree.weightAll (u.part? .body).toList ≤ u.weight := by
    have hWeight := introduced_weight hTree hKind hLabel (show [Field.body].Nodup by decide) (by decide)
    cases hPart : u.part? .body <;> simpa [hPart] using hWeight
  cases looks with
  | closed | exportedNames => exact Nat.zero_le _
  | open_ =>
      rw [Nat.zero_add]
      exact hTree.weightAll_le
  | signature hCount hKind hLabel =>
      have hWeight := introduced_weight hTree hKind hLabel (show [Field.parameters, .body].Nodup by decide)
        (by decide)
      rw [← signatureTrees_eq] at hWeight
      omega
  | value hPart | exportedValue hPart | declaration hPart =>
      rw [Nat.zero_add]
      exact hChild hPart
  | @bound v hValue hLabel =>
      have hWeight := introduced_weight hTree (by decide) hLabel (show [Field.value].Nodup by decide) (by decide)
      have hValueTree := (Tree.weightAll_le_of_subperm (signatureTrees_subperm v)).trans
        (hTree.child (Tree.part?_mem hValue)).weightAll_le
      simp only [List.filterMap_cons, hValue, List.filterMap_nil, Tree.weightAll_singleton] at hWeight
      omega
  | «class» hCount hKind hLabel =>
      have hWeight := hBody hTree hKind hLabel
      omega
  | @declaredClass d hDeclaration _ hCount _ hKind hLabel =>
      have hWeight := hBody (hTree.child (Tree.part?_mem hDeclaration)) hKind hLabel
      have hOuter := hChild hDeclaration
      omega

end Looks

end Outline

end SourceAtlas
