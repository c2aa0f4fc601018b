import SourceAtlas.Proofs.Outline.Traversal
import SourceAtlas.Proofs.Text.Utf8

/-!
How large the figures of an outline can be. No line lies beyond the last, every function and class
has a word of its own, and so has every parameter: the length of the source bounds them all.
-/
namespace SourceAtlas

open Syntax Text

/-- A figure from nothing up to a bound. -/
def Bounded (n : Nat) (i : Int) : Prop := 0 ≤ i ∧ i ≤ n

theorem bounded_natCast {m n : Nat} (hLe : m ≤ n) : Bounded n m := ⟨Int.natCast_nonneg m, Int.ofNat_le.mpr hLe⟩

theorem Bounded.mono {m n : Nat} {i : Int} (hBounded : Bounded m i) (hLe : m ≤ n) : Bounded n i :=
  ⟨hBounded.1, hBounded.2.trans (Int.ofNat_le.mpr hLe)⟩

namespace Outline

variable {src : Source}

/-- A finding whose figures stay within a bound. -/
def Finding.Within (n : Nat) : Finding → Prop
  | .importing site => site.line ≤ n
  | .ofClass c => Bounded n c.line
  | .ofFunction f => Bounded n f.line ∧ Bounded n f.parameters
  | .decorated _ | .exporting _ => True

/-- No tree begins below the last line, and there are no more lines than
characters but for one. -/
theorem lineOf_le (src : Source) (t : Tree) : lineOf src t ≤ src.chars.size + 1 := by
  rw [lineOf, Source.line, Source.slice]
  refine Nat.add_le_add_right (List.count_le_length.trans ?_) 1
  rw [Array.length_toList, Array.size_extract]
  omega

/-- Parameters are written out, each with a word of its own. -/
theorem parameterCount_le {t : Tree} (hTree : t.Everywhere Shaped) : parameterCount t ≤ t.weight + 1 := by
  rw [parameterCount]
  split
  · next list hList =>
    have hPart := Tree.part?_mem hList
    have hParameters := hTree.child hPart
    refine Nat.le_succ_of_le ?_
    calc (list.named.filter (·.isOneOf parameterKinds)).length
        ≤ Tree.weightAll (list.named.filter (·.isOneOf parameterKinds)) := by
          refine Tree.length_le_weightAll fun c hc => ?_
          obtain ⟨hNamed, hKind⟩ := List.mem_filter.mp hc
          have hParameter := hParameters.child (List.mem_of_mem_filter hNamed)
          obtain ⟨k, hk, hLabel⟩ := List.any_eq_true.mp hKind
          have hWeighty := hParameter.root.parameter k hk (by simpa [Tree.isKind] using hLabel)
          exact hWeighty.weightAll_pos.trans_le hParameter.weightAll_le
      _ ≤ Tree.weightAll list.children :=
          Tree.weightAll_le_of_subperm (List.filter_sublist.trans List.filter_sublist).subperm
      _ ≤ list.weight := hParameters.weightAll_le
      _ ≤ t.weight := (Tree.weight_le_of_mem hPart).trans hTree.weightAll_le
  · split <;> omega

section Looking

variable {n : Nat} (hLines : src.chars.size ≤ n)

include hLines in
theorem lineOf_le_of_size (t : Tree) : lineOf src t ≤ n + 1 :=
  (lineOf_le src t).trans (Nat.add_le_add_right hLines 1)

theorem decorated_within (names : List Text) : ∀ f ∈ names.map Finding.decorated, Finding.Within (n + 1) f := by
  intro f hf
  obtain ⟨name, -, rfl⟩ := List.mem_map.mp hf
  trivial

theorem exporting_within (es : List Export) : ∀ f ∈ es.map Finding.exporting, Finding.Within (n + 1) f := by
  intro f hf
  obtain ⟨e, -, rfl⟩ := List.mem_map.mp hf
  trivial

include hLines in
/-- What is found in looking at a class stays within the
lines of its source. -/
theorem lookClass_within (outer : List Tree) (t : Tree) :
    ∀ f ∈ (lookClass src outer t).1, Finding.Within (n + 1) f := by
  simp only [lookClass]
  refine List.forall_mem_append.mpr ⟨decorated_within _, ?_⟩
  split
  · simp
  · rw [List.forall_mem_singleton]
    exact bounded_natCast (lineOf_le_of_size hLines t)

include hLines in
/-- A function is found with no more parameters than it has words and marks. -/
theorem listFunction_within (name : Text) (kind : FunctionKind) (t : Tree) {function : Tree}
    (hTree : function.Everywhere Shaped) (hWeight : function.weight ≤ n) :
    ∀ f ∈ (listFunction src name kind t function).1, Finding.Within (n + 1) f := by
  rw [listFunction, List.forall_mem_singleton]
  exact ⟨bounded_natCast (lineOf_le_of_size hLines t),
    bounded_natCast ((parameterCount_le hTree).trans (Nat.add_le_add_right hWeight 1))⟩

include hLines in
/-- What is found in looking at a tree of a source stays within its length. -/
theorem look_within {s : Site} (hTree : s.tree.Everywhere Shaped) (hWeight : s.tree.weight ≤ n) :
    ∀ f ∈ (look src s).1, Finding.Within (n + 1) f := by
  obtain ⟨t, inClassBody⟩ := s
  have hNothing : ∀ f ∈ ([] : List Finding), Finding.Within (n + 1) f := by simp
  rw [look]
  dsimp only
  split
  case h_1 =>
    rw [lookImport]
    split
    · exact hNothing
    · exact List.forall_mem_singleton.mpr (lineOf_le_of_size hLines t)
  case h_2 =>
    rw [lookExport, flatMap_decoratorFinding]
    split
    · dsimp only
      split
      · exact List.forall_mem_append.mpr ⟨exporting_within _, lookClass_within hLines _ _⟩
      · exact List.forall_mem_append.mpr ⟨exporting_within _, decorated_within _⟩
    · split
      · exact List.forall_mem_append.mpr ⟨decorated_within _, by simp [Finding.Within]⟩
      · exact List.forall_mem_append.mpr ⟨decorated_within _, exporting_within _⟩
  case h_3 | h_4 | h_5 => exact lookClass_within hLines [] t
  case h_6 | h_7 =>
    rw [lookFunction]
    split
    · exact listFunction_within hLines _ _ _ hTree hWeight
    · exact hNothing
  case h_8 =>
    rw [lookMethod]
    split
    · exact listFunction_within hLines _ _ _ hTree hWeight
    · exact hNothing
  case h_9 =>
    rw [lookVariable]
    split
    · exact hNothing
    · next v hValue =>
      have hPart := Tree.part?_mem hValue
      have hBound := (Tree.weight_le_of_mem hPart).trans (hTree.weightAll_le.trans hWeight)
      split
      · split
        · exact listFunction_within hLines _ _ _ (hTree.child hPart) hBound
        · split
          · exact listFunction_within hLines _ _ _ (hTree.child hPart) hBound
          · exact hNothing
      · exact hNothing
  case h_10 =>
    rw [decoratorFinding]
    cases decoratorName? src t with
    | none => exact hNothing
    | some name => exact decorated_within [name]
  case h_11 => exact hNothing

end Looking

theorem tally_append (fs fs' : List Finding) : tally (fs ++ fs') = tally fs + tally fs' := List.countP_append ..

/-- The functions and classes found in a tree are no more
than the words in it. -/
theorem tally_entered_le (s : Site) : s.tree.Everywhere Shaped →
    tally ((entered src s).flatMap fun s' => (look src s').1) ≤ s.tree.weight := by
  induction s using visit_induction src with
  | hStep s ih =>
      intro hTree
      have hInside (next : List Site) (hNext : ∀ s' ∈ next, s' ∈ (look src s).2) :
          tally ((next.flatMap (entered src)).flatMap fun s' => (look src s').1) ≤
            Tree.weightAll (next.map Site.tree) := by
        induction next with
        | nil => exact Nat.zero_le _
        | cons s' next ihNext =>
            obtain ⟨hFirst, hRest⟩ := List.forall_mem_cons.mp hNext
            rw [List.flatMap_cons, List.flatMap_append, tally_append, List.map_cons, Tree.weightAll]
            exact Nat.add_le_add (ih s' hFirst (shaped_next hTree hFirst)) (ihNext hRest)
      rw [entered_eq, List.flatMap_cons, tally_append]
      exact (Nat.add_le_add_left (hInside _ fun _ h => h) _).trans ((look_looks src s).weight_le hTree)

/-- All trees that are looked at are shaped, and weigh no
more than the first. -/
theorem entered_light (s : Site) : s.tree.Everywhere Shaped →
    ∀ s' ∈ entered src s, s'.tree.Everywhere Shaped ∧ s'.tree.weight ≤ s.tree.weight := by
  induction s using visit_induction src with
  | hStep s ih =>
      intro hTree
      rw [entered_eq, List.forall_mem_cons]
      refine ⟨⟨hTree, Nat.le_refl _⟩, fun s'' hs'' => ?_⟩
      obtain ⟨s', hNext, hs''⟩ := List.mem_flatMap.mp hs''
      obtain ⟨hShaped, hWeight⟩ := ih s' hNext (shaped_next hTree hNext) s'' hs''
      have hAll := (Nat.le_add_left _ _).trans ((look_looks src s).weight_le hTree)
      exact ⟨hShaped, hWeight.trans ((Tree.weight_le_of_mem (List.mem_map_of_mem hNext)).trans hAll)⟩

/-- An outline whose figures stay within the length of its source. -/
structure Within (n : Nat) (o : Outline) : Prop where
  imports : ∀ site ∈ o.imports, site.line ≤ n + 1
  classes : ∀ c ∈ o.classes, Bounded (n + 1) c.line
  functions : ∀ f ∈ o.functions, Bounded (n + 1) f.line ∧ Bounded (n + 1) f.parameters
  members : o.functions.length + o.classes.length ≤ n

/-- What is counted in findings are the functions and
classes of the outline. -/
theorem tally_eq (fs : List Finding) :
    tally fs = (ofFindings fs).functions.length + (ofFindings fs).classes.length := by
  induction fs with
  | nil => rfl
  | cons f fs ih =>
      simp only [tally, ofFindings] at ih ⊢
      cases f <;> simp [ih] <;> omega

/-- An outline stays within the length of its source if each finding does
and they are not too many. -/
theorem ofFindings_within {n : Nat} {fs : List Finding} (hEach : ∀ f ∈ fs, Finding.Within (n + 1) f)
    (hTally : tally fs ≤ n) : (ofFindings fs).Within n where
  imports site hSite := by
    obtain ⟨f, hf, hSame⟩ := List.mem_filterMap.mp hSite
    cases f <;> simp only [Option.some.injEq, reduceCtorEq] at hSame
    exact hSame ▸ hEach _ hf
  classes c hc := by
    obtain ⟨f, hf, hSame⟩ := List.mem_filterMap.mp hc
    cases f <;> simp only [Option.some.injEq, reduceCtorEq] at hSame
    exact hSame ▸ hEach _ hf
  functions g hg := by
    obtain ⟨f, hf, hSame⟩ := List.mem_filterMap.mp hg
    cases f <;> simp only [Option.some.injEq, reduceCtorEq] at hSame
    exact hSame ▸ hEach _ hf
  members := tally_eq fs ▸ hTally

/-- The figures in the outline of a source stay within its length. -/
theorem ofTree_within {d : Dialect} {cs : List Char} {t : Tree} (hParse : parse d cs = .ok t) :
    (ofTree (Source.ofList cs) t).Within cs.length := by
  have hTree := parse_shaped hParse
  have hWeight := parse_weight_le hParse
  rw [ofTree_eq]
  refine ofFindings_within (fun f hf => ?_) ((tally_entered_le ⟨t, false⟩ hTree).trans hWeight)
  obtain ⟨s, hs, hf⟩ := List.mem_flatMap.mp hf
  obtain ⟨hShaped, hLight⟩ := entered_light ⟨t, false⟩ hTree s hs
  exact look_within (by simp [Source.ofList]) hShaped (hLight.trans hWeight) f hf

end Outline

end SourceAtlas
