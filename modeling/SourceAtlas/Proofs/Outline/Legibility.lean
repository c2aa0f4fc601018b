import SourceAtlas.Proofs.Json.Range
import SourceAtlas.Proofs.Outline.Traversal
import SourceAtlas.Proofs.Text.Basic
import SourceAtlas.Record.Document

/-!
Every text in the outline of a file is a string. It is cut out of the source, which is made of
characters, or it is a word of the program.
-/
namespace SourceAtlas

open Syntax Text

namespace Datum

@[simp]
theorem legible_texts (ts : List Text) : (texts ts).legible = ts.all isString := by
  rw [texts, legible_list, List.all_map]
  rfl

@[simp]
theorem legible_textOrNull (t : Option Text) : (textOrNull t).legible = t.toList.all isString := by
  cases t <;> simp [textOrNull]

/-- A list is legible if each of its items is written legibly. -/
theorem legible_listOf {α : Type} (f : α → Datum) (xs : List α) :
    (Datum.list (xs.map f)).legible = xs.all fun x => (f x).legible := by
  rw [legible_list, List.all_map]
  rfl

end Datum

/-- A decoration of which every text is a string. -/
structure Decoration.Legible (d : Decoration) : Prop where
  decorator : d.decorator.isString = true
  selector : ∀ t ∈ d.selector, t.isString = true
  templateUrl : ∀ t ∈ d.templateUrl, t.isString = true
  styleUrls : ∀ t ∈ d.styleUrls, t.isString = true
  providedIn : ∀ t ∈ d.providedIn, t.isString = true
  pipeName : ∀ t ∈ d.pipeName, t.isString = true
  imports : ∀ t ∈ d.imports, t.isString = true
  exports : ∀ t ∈ d.exports, t.isString = true
  declarations : ∀ t ∈ d.declarations, t.isString = true
  providers : ∀ t ∈ d.providers, t.isString = true

/-- A decoration has a legible document exactly if its texts are strings. -/
theorem Decoration.toDatum_legible_iff {d : Decoration} : d.toDatum.legible = true ↔ d.Legible := by
  have hStandalone : ((d.standalone.map Datum.bool).getD .null).legible = true := by
    cases d.standalone <;> rfl
  simp only [toDatum, Datum.legible_table, List.all_cons, List.all_nil, isString_ofString, Datum.legible_text,
    Datum.legible_textOrNull, Datum.legible_texts, hStandalone, Bool.true_and, Bool.and_true, Bool.and_eq_true,
    List.all_eq_true, Option.mem_toList]
  constructor
  · rintro ⟨h₁, h₂, h₃, h₄, h₅, h₆, h₇, h₈, h₉, h₁₀⟩
    exact ⟨h₁, h₂, h₃, h₄, h₅, h₆, h₇, h₈, h₉, h₁₀⟩
  · rintro ⟨h₁, h₂, h₃, h₄, h₅, h₆, h₇, h₈, h₉, h₁₀⟩
    exact ⟨h₁, h₂, h₃, h₄, h₅, h₆, h₇, h₈, h₉, h₁₀⟩

structure ClassInfo.Legible (c : ClassInfo) : Prop where
  name : c.name.isString = true
  implements : ∀ t ∈ c.implements, t.isString = true
  extends? : ∀ t ∈ c.extends?, t.isString = true
  decorators : ∀ t ∈ c.decorators, t.isString = true
  decoration : ∀ d ∈ c.decoration, d.Legible

/-- A class has a legible document exactly if its texts are strings, its
decorations included. -/
theorem ClassInfo.toDatum_legible_iff {c : ClassInfo} : c.toDatum.legible = true ↔ c.Legible := by
  have hDecoration : ((c.decoration.map Decoration.toDatum).getD .null).legible = true ↔
      ∀ d ∈ c.decoration, d.Legible := by
    rcases c.decoration with _ | d
    · simp
    · simpa using Decoration.toDatum_legible_iff
  simp only [toDatum, Datum.legible_table, List.all_cons, List.all_nil, isString_ofString, Datum.legible_text,
    Datum.legible_textOrNull, Datum.legible_texts, Datum.legible_int, hDecoration, Bool.true_and, Bool.and_true,
    Bool.and_eq_true, List.all_eq_true, Option.mem_toList]
  exact ⟨fun ⟨h₁, h₂, h₃, h₄, h₅⟩ => ⟨h₁, h₂, h₃, h₄, h₅⟩, fun ⟨h₁, h₂, h₃, h₄, h₅⟩ => ⟨h₁, h₂, h₃, h₄, h₅⟩⟩

def Finding.Legible : Finding → Prop
  | .decorated name => name.isString = true
  | .importing site => site.source.isString = true ∧ ∀ name ∈ site.names, name.isString = true
  | .exporting e => e.name.isString = true
  | .ofClass c => c.Legible
  | .ofFunction f => f.name.isString = true

namespace Outline

variable (src : Source)

/-- The text of any tree in a source is a string, for a source is read from
characters. -/
theorem text_isString (t : Tree) : (src.text t).isString = true := isString_ofChars _

/-- What stands between quotes is a part of the text. -/
theorem unquoted_isString {t : Text} (hString : t.isString = true) : (unquoted t).isString = true := by
  rw [unquoted]
  split
  · next q c rest hSigns =>
    dsimp only
    split
    · refine isString_of_subset hString fun s hs => ?_
      rw [hSigns]
      exact List.mem_cons_of_mem _ (List.mem_of_mem_dropLast hs)
    · exact hString
  · exact hString

theorem getD_text_isString (t : Option Tree) : ((t.map src.text).getD "").isString = true := by
  cases t with
  | none => rfl
  | some t => exact text_isString src t

/-- The name of a decorator is cut out of the source, and so it is a string. -/
theorem decoratorName?_isString {t : Tree} {name : Text} (hName : decoratorName? src t = some name) :
    name.isString = true := by
  rw [decoratorName?, Option.filter_eq_some_iff] at hName
  obtain ⟨e, -, rfl⟩ := Option.map_eq_some_iff.mp hName.1
  exact text_isString src e

/-- All names that an expression refers to are strings. -/
theorem referenceNames_isString (t : Tree) : ∀ name ∈ referenceNames src t, name.isString = true := by
  intro name hName
  obtain ⟨u, -, hSome⟩ := List.mem_filterMap.mp (List.mem_of_mem_filter hName)
  rw [referenceName?] at hSome
  split_ifs at hSome
  · exact Option.some.inj hSome ▸ text_isString src u
  · exact Option.some.inj hSome ▸ unquoted_isString (text_isString src u)
  · obtain ⟨e, -, rfl⟩ := Option.map_eq_some_iff.mp hSome
    exact text_isString src e

theorem orElse_isString {a b : Option Text} (ha : ∀ t ∈ a, t.isString = true) (hb : ∀ t ∈ b, t.isString = true) :
    ∀ t ∈ (a <|> b), t.isString = true := by
  cases a with
  | none => exact hb
  | some t => exact ha

/-- A property adds texts of the source to a decoration. -/
theorem readProperty_legible {d : Decoration} (hd : d.Legible) (pair : Tree) :
    (readProperty src d pair).Legible := by
  rw [readProperty]
  split
  case h_2 => exact hd
  next keyTree value _ _ =>
  have hText : ∀ t ∈ (if value.isKind .string then some (unquoted (src.text value)) else none : Option Text),
      t.isString = true := by
    intro t ht
    split at ht
    · exact Option.some.inj ht ▸ unquoted_isString (text_isString src value)
    · cases ht
  have hJoined {old : List Text} (hOld : ∀ t ∈ old, t.isString = true) :
      ∀ t ∈ old ++ referenceNames src value, t.isString = true :=
    List.forall_mem_append.mpr ⟨hOld, referenceNames_isString src value⟩
  generalize (if keyTree.isKind .string then unquoted (src.text keyTree) else src.text keyTree) = key
  generalize (if value.isKind .string then some (unquoted (src.text value)) else none : Option Text) = text? at hText ⊢
  have hEither {p : Prop} [Decidable p] {x y : Decoration} (hx : x.Legible) (hy : y.Legible) :
      (if p then x else y).Legible := by
    split <;> assumption
  refine hEither { hd with selector := orElse_isString hText hd.selector } ?_
  refine hEither { hd with templateUrl := orElse_isString hText hd.templateUrl } ?_
  refine hEither { hd with styleUrls := hJoined hd.styleUrls } ?_
  refine hEither (hEither { hd with } (hEither { hd with } hd)) ?_
  refine hEither { hd with providedIn := orElse_isString hText hd.providedIn } ?_
  refine hEither { hd with imports := hJoined hd.imports } ?_
  refine hEither { hd with exports := hJoined hd.exports } ?_
  refine hEither { hd with declarations := hJoined hd.declarations } ?_
  refine hEither { hd with providers := hJoined hd.providers } ?_
  exact hEither { hd with pipeName := orElse_isString hText hd.pipeName } hd

/-- What is read from a decorator of this name is legible. -/
theorem decorationOf_legible (t : Tree) {name : Text} (hName : name.isString = true) :
    (decorationOf src t name).Legible := by
  have hNone : (Decoration.mk name none none [] none none none [] [] [] []).Legible := by
    constructor <;> simp [hName]
  have hFold (pairs : List Tree) {d : Decoration} (hd : d.Legible) :
      (pairs.foldl (readProperty src) d).Legible := by
    induction pairs generalizing d with
    | nil => exact hd
    | cons pair pairs ih => exact ih (readProperty_legible src hd pair)
  rw [decorationOf]
  split
  · split
    · exact hFold _ hNone
    · exact hNone
  · exact hNone

theorem importBindings_isString (t : Tree) : ∀ name ∈ (importBindings src t).2, name.isString = true := by
  rw [importBindings]
  split
  · intro name hName
    obtain ⟨bound, hBound, hName⟩ := List.mem_flatMap.mp hName
    obtain ⟨part, -, hSome⟩ := List.mem_filterMap.mp hBound
    rw [clauseBindings] at hSome
    split_ifs at hSome <;> obtain rfl := Option.some.inj hSome
    · rw [List.mem_singleton.mp hName]
      exact text_isString src part
    · rw [List.mem_singleton.mp hName, isString_append, getD_text_isString]
      rfl
    · obtain ⟨s, -, rfl⟩ := List.mem_map.mp hName
      exact getD_text_isString src _
  · split
    · intro name hName
      obtain ⟨e, -, rfl⟩ := Option.map_eq_some_iff.mp (Option.mem_toList.mp hName)
      exact text_isString src e
    · simp

mutual

/-- The names that a declaration exports are strings, in
patterns of any depth. -/
theorem declaredExports_isString : (t : Tree) → ∀ e ∈ declaredExports src t, e.name.isString = true
  | .mk label field start stop children => by
      rw [declaredExports]
      split_ifs
      · exact firstExports_isString children
      · intro e he
        obtain ⟨d, -, hSome⟩ := List.mem_filterMap.mp he
        obtain ⟨name, -, hSome⟩ := Option.bind_eq_some_iff.mp hSome
        split_ifs at hSome
        obtain rfl := Option.some.inj hSome
        exact text_isString src name
      · split
        · intro e he
          rw [List.mem_singleton.mp he]
          exact text_isString src _
        · simp

theorem firstExports_isString : (ts : List Tree) → ∀ e ∈ firstExports src ts, e.name.isString = true
  | [] => by simp [firstExports]
  | t :: rest => by
      rw [firstExports]
      split_ifs
      · exact declaredExports_isString t
      · exact firstExports_isString rest

end

theorem clauseExports_isString (t : Tree) : ∀ e ∈ clauseExports src t, e.name.isString = true := by
  rw [clauseExports]
  dsimp only
  split
  · intro e he
    obtain ⟨s, -, rfl⟩ := List.mem_map.mp he
    exact unquoted_isString (getD_text_isString src _)
  · split_ifs
    · rw [List.forall_mem_singleton]
      rcases (t.child? .namespaceExport).bind (·.named.getLast?) with _ | u
      · rfl
      · exact text_isString src u
    · simp

/-- The names after both clauses of a heritage are strings. -/
theorem heritage_isString (t : Tree) :
    (∀ name ∈ (heritage src t).1, name.isString = true) ∧ ∀ name ∈ (heritage src t).2, name.isString = true := by
  rw [heritage]
  split
  · simp
  · constructor
    · intro name hName
      obtain ⟨clause, -, hName⟩ := List.mem_flatMap.mp hName
      obtain ⟨u, -, rfl⟩ := List.mem_map.mp hName
      split_ifs <;> exact text_isString src _
    · intro name hName
      obtain ⟨u, -, rfl⟩ := Option.map_eq_some_iff.mp hName
      exact text_isString src u

variable {src}

theorem decorated_legible {names : List Text} (hNames : ∀ n ∈ names, n.isString = true) :
    ∀ f ∈ names.map Finding.decorated, f.Legible := List.forall_mem_map.mpr hNames

theorem exporting_legible {es : List Export} (hNames : ∀ e ∈ es, e.name.isString = true) :
    ∀ f ∈ es.map Finding.exporting, f.Legible := List.forall_mem_map.mpr hNames

theorem decoratorNames_isString (src : Source) (ts : List Tree) :
    ∀ n ∈ ts.filterMap (decoratorName? src), n.isString = true := by
  intro n hn
  obtain ⟨t, -, hSome⟩ := List.mem_filterMap.mp hn
  exact decoratorName?_isString src hSome

/-- Looking at a class finds nothing that is not legible. -/
theorem lookClass_legible (src : Source) (outer : List Tree) (t : Tree) :
    ∀ f ∈ (lookClass src outer t).1, f.Legible := by
  have hNames := decoratorNames_isString src (outer ++ decoratorsOf t)
  simp only [lookClass]
  refine List.forall_mem_append.mpr ⟨decorated_legible hNames, ?_⟩
  split
  · simp
  · next name _ =>
    obtain ⟨hImplements, hExtends⟩ := heritage_isString src t
    refine List.forall_mem_singleton.mpr ⟨text_isString src name, hImplements, hExtends, hNames, fun found hFound => ?_⟩
    -- the decoration is that of the first decorator with a role
    obtain ⟨d, -, hSome⟩ := List.exists_of_findSome?_eq_some hFound
    obtain ⟨role, hRole, hSome⟩ := Option.bind_eq_some_iff.mp hSome
    split_ifs at hSome
    obtain rfl := Option.some.inj hSome
    exact decorationOf_legible src d (decoratorName?_isString src hRole)

/-- What is found in looking at a tree is made of strings. -/
theorem look_legible (src : Source) (s : Site) : ∀ f ∈ (look src s).1, f.Legible := by
  obtain ⟨t, inClassBody⟩ := s
  have hNothing : ∀ f ∈ ([] : List Finding), f.Legible := by simp
  have hFunction {name : Text} (hName : name.isString = true) (kind : FunctionKind) (t function : Tree) :
      ∀ f ∈ (listFunction src name kind t function).1, f.Legible := List.forall_mem_singleton.mpr hName
  rw [look]
  dsimp only
  split
  case h_1 =>
    rw [lookImport]
    split
    · exact hNothing
    · next source _ =>
      exact List.forall_mem_singleton.mpr
        ⟨unquoted_isString (text_isString src source), importBindings_isString src t⟩
  case h_2 =>
    have hNames := decorated_legible (decoratorNames_isString src (decoratorsOf t))
    rw [lookExport, flatMap_decoratorFinding]
    split
    · next declaration _ =>
      have hExports := exporting_legible (declaredExports_isString src declaration)
      dsimp only
      split
      · exact List.forall_mem_append.mpr ⟨hExports, lookClass_legible src _ _⟩
      · exact List.forall_mem_append.mpr ⟨hExports, hNames⟩
    · split
      · exact List.forall_mem_append.mpr ⟨hNames, List.forall_mem_singleton.mpr rfl⟩
      · exact List.forall_mem_append.mpr ⟨hNames, exporting_legible (clauseExports_isString src t)⟩
  case h_3 | h_4 | h_5 => exact lookClass_legible src [] t
  case h_6 | h_7 =>
    rw [lookFunction]
    split
    · exact hFunction (text_isString src _) _ _ _
    · exact hNothing
  case h_8 =>
    rw [lookMethod]
    split
    · refine hFunction ?_ _ _ _
      split_ifs
      · rfl
      · exact getD_text_isString src _
    · exact hNothing
  case h_9 =>
    rw [lookVariable]
    split
    · exact hNothing
    · split
      · split
        · exact hFunction (text_isString src _) _ _ _
        · split
          · exact hFunction (text_isString src _) _ _ _
          · exact hNothing
      · exact hNothing
  case h_10 =>
    rw [decoratorFinding]
    cases hName : decoratorName? src t with
    | none => exact hNothing
    | some name => exact List.forall_mem_singleton.mpr (decoratorName?_isString src hName)
  case h_11 => exact hNothing

/-- An outline of which every text is a string. -/
structure Legible (o : Outline) : Prop where
  annotations : ∀ name ∈ o.annotations, name.isString = true
  imports : ∀ site ∈ o.imports, site.source.isString = true ∧ ∀ name ∈ site.names, name.isString = true
  exports : ∀ e ∈ o.exports, e.name.isString = true
  classes : ∀ c ∈ o.classes, c.Legible
  functions : ∀ f ∈ o.functions, f.name.isString = true

/-- An outline put together from legible findings is legible in
each of its lists. -/
theorem ofFindings_legible {fs : List Finding} (hEach : ∀ f ∈ fs, f.Legible) : (ofFindings fs).Legible where
  annotations name hName := by
    obtain ⟨f, hf, hSame⟩ := List.mem_filterMap.mp (mem_distinct.mp hName)
    cases f <;> simp only [Option.some.injEq, reduceCtorEq] at hSame
    exact hSame ▸ hEach _ hf
  imports site hSite := by
    obtain ⟨f, hf, hSame⟩ := List.mem_filterMap.mp hSite
    cases f <;> simp only [Option.some.injEq, reduceCtorEq] at hSame
    exact hSame ▸ hEach _ hf
  exports e he := by
    obtain ⟨f, hf, hSame⟩ := List.mem_filterMap.mp he
    cases f <;> simp only [Option.some.injEq, reduceCtorEq] at hSame
    exact hSame ▸ hEach _ hf
  classes c hc := by
    obtain ⟨f, hf, hSame⟩ := List.mem_filterMap.mp hc
    cases f <;> simp only [Option.some.injEq, reduceCtorEq] at hSame
    exact hSame ▸ hEach _ hf
  functions g hg := by
    obtain ⟨f, hf, hSame⟩ := List.mem_filterMap.mp hg
    cases f <;> simp only [Option.some.injEq, reduceCtorEq] at hSame
    exact hSame ▸ hEach _ hf

/-- The outline of a tree is made of strings. -/
theorem ofTree_legible (src : Source) (t : Tree) : (ofTree src t).Legible := by
  rw [ofTree_eq]
  refine ofFindings_legible fun f hf => ?_
  obtain ⟨s, -, hf⟩ := List.mem_flatMap.mp hf
  exact look_legible src s f hf

end Outline

end SourceAtlas
