import SourceAtlas.Proofs.Analysis.Ending
import SourceAtlas.Proofs.Analysis.Rendering
import SourceAtlas.Proofs.Cache.Document
import SourceAtlas.Verification

/-!
Two analyses are compared by the documents of their graphs and cycles. A document belongs to one graph
or cycle only, so the comparison is that of the graphs themselves, and cycles never differ alone.
-/
namespace SourceAtlas

open Schema

section Documents

variable {α : Type} {read : Reader α} {write : α → Datum}

/-- Two values have the same document only if they are the same, for each of
them is read back from it. -/
theorem Schema.Faithful.eq_of_document (hFaithful : Faithful read write) {a b : α} {text : List Char}
    (hFirst : Json.document (write a) = .ok text) (hSecond : Json.document (write b) = .ok text) : a = b := by
  have hParsed := Json.parse_document (hFaithful.plain a) hFirst
  rw [Json.parse_document (hFaithful.plain b) hSecond] at hParsed
  have hBack := hFaithful.back a
  rw [← Except.ok.inj hParsed, hFaithful.back b] at hBack
  exact (Checked.valid.inj hBack).symm

/-- A value that can be written has a document that no other value has. -/
theorem Schema.Faithful.exists_document (hFaithful : Faithful read write) {a : α}
    (hFits : (write a).fits = true) : ∃ text, ∀ b, Json.document (write b) = .ok text ↔ b = a := by
  obtain ⟨text, hText⟩ := Json.document_eq_ok_iff.mpr hFits
  exact ⟨text, fun b => ⟨fun hSame => hFaithful.eq_of_document hSame hText, fun hSame => hSame ▸ hText⟩⟩

/-- Two values whose documents can be written are equal exactly
if the texts are. -/
theorem Schema.Faithful.eq_iff_of_document (hFaithful : Faithful read write) {a b : α} {text text' : List Char}
    (hFirst : Json.document (write a) = .ok text) (hSecond : Json.document (write b) = .ok text') :
    text = text' ↔ a = b := by
  constructor
  · rintro rfl
    exact hFaithful.eq_of_document hFirst hSecond
  · rintro rfl
    exact Except.ok.inj (hFirst.symm.trans hSecond)

/-- Lists of values are told apart by the documents of their members. -/
theorem Schema.Faithful.eq_iff_of_documents (hFaithful : Faithful read write) {as bs : List α}
    {texts texts' : List (List Char)} (hFirst : (as.mapM fun a => Json.document (write a)) = .ok texts)
    (hSecond : (bs.mapM fun b => Json.document (write b)) = .ok texts') : texts = texts' ↔ as = bs := by
  constructor
  · rintro rfl
    have hUnique : Relator.LeftUnique fun a text => Json.document (write a) = .ok text :=
      fun _ _ _ hFirst hSecond => hFaithful.eq_of_document hFirst hSecond
    exact List.left_unique_forall₂' hUnique (forall₂_of_mapM hFirst) (forall₂_of_mapM hSecond)
  · rintro rfl
    exact Except.ok.inj (hFirst.symm.trans hSecond)

end Documents

/-- What is written of a node is plain: its keys are distinct. -/
theorem Node.toDatum_plain (n : Node) : n.toDatum.Plain :=
  .table (by simp) (by simp [Datum.Plain.text])

/-- A node is read back from what is written of it, with its kind
read from its word. -/
theorem faithful_node : Faithful Node.read Node.toDatum where
  plain := Node.toDatum_plain
  back n := by
    have hPlain : (Datum.table _).Plain := n.toDatum_plain
    rw [Node.toDatum, Datum.sorted, Node.read, Reader.shape]
    rw [required_sorted _ hPlain _ rfl, required_sorted _ hPlain _ rfl, required_sorted _ hPlain _ rfl,
      field_sorted _ _ hPlain _ rfl]
    rw [faithful_role.back]
    simp only [faithful_text.back]
    rfl

theorem Edge.toDatum_plain (e : Edge) : e.toDatum.Plain :=
  .table (by simp) (by simp [Datum.Plain.text])

theorem faithful_edge : Faithful Edge.read Edge.toDatum where
  plain := Edge.toDatum_plain
  back e := by
    have hPlain : (Datum.table _).Plain := e.toDatum_plain
    rw [Edge.toDatum, Datum.sorted, Edge.read, Reader.shape]
    rw [required_sorted _ hPlain _ rfl, required_sorted _ hPlain _ rfl]
    simp only [faithful_text.back]
    rfl

theorem DependencyGraph.toDatum_plain (g : DependencyGraph) : g.toDatum.Plain :=
  .table (by simp) (by simp [faithful_node.list.plain, faithful_edge.list.plain])

/-- A graph is read back from what is written of it, nodes and edges in
their order. -/
theorem faithful_graph : Faithful DependencyGraph.read DependencyGraph.toDatum where
  plain := DependencyGraph.toDatum_plain
  back g := by
    have hPlain : (Datum.table _).Plain := g.toDatum_plain
    rw [DependencyGraph.toDatum, Datum.sorted, DependencyGraph.read, Reader.shape]
    rw [field_sorted _ _ hPlain _ rfl, field_sorted _ _ hPlain _ rfl]
    rw [faithful_node.list.back, faithful_edge.list.back]
    rfl

theorem faithful_severity : Faithful (Reader.member Severity.all Severity.word) (fun a => .text a.word) :=
  faithful_member (by intro a; cases a <;> decide)

theorem faithful_cycleKind : Faithful (Reader.member CycleKind.all CycleKind.word) (fun a => .text a.word) :=
  faithful_member (by intro a; cases a <;> decide)

theorem Cycle.toDatum_plain (c : Cycle) : c.toDatum.Plain :=
  .table (by simp) (by simp [Datum.Plain.text, faithful_text.list.plain])

/-- A cycle is read back from what is written of it. -/
theorem faithful_cycle : Faithful Cycle.read Cycle.toDatum where
  plain := Cycle.toDatum_plain
  back c := by
    have hPlain : (Datum.table _).Plain := c.toDatum_plain
    rw [Cycle.toDatum, Datum.sorted, Cycle.read, Reader.shape]
    rw [required_sorted _ hPlain _ rfl, required_sorted _ hPlain _ rfl, required_sorted _ hPlain _ rfl]
    rw [faithful_text.list.back, faithful_severity.back, faithful_cycleKind.back]
    rfl

/-- A graph has no integers, so it can be written if its texts can. -/
theorem DependencyGraph.fits_eq_legible (g : DependencyGraph) : g.toDatum.fits = g.toDatum.legible := by
  rw [Datum.fits, g.toDatum_ranged, Bool.true_and]

/-- Whether a cycle can be written is a matter of the names in it:
it has no figures. -/
theorem Cycle.fits_eq_legible (c : Cycle) : c.toDatum.fits = c.toDatum.legible := by
  have hAll := Cycle.toDatums_ranged [c]
  rw [Datum.ranged_list, List.map_singleton, List.all_cons, List.all_nil, Bool.and_true] at hAll
  rw [Datum.fits, hAll, Bool.true_and]

namespace DependencyGraph

/-- The names of nodes in the document of a graph are strings. -/
theorem isString_of_legible {g : DependencyGraph} (hLegible : g.toDatum.legible = true) {id : Text}
    (hNode : g.HasNode id) : id.isString = true := by
  obtain ⟨n, hn, rfl⟩ := List.mem_map.mp hNode
  simp only [toDatum, Datum.legible_table, List.all_cons, List.all_nil, Datum.legible_listOf, Bool.and_eq_true,
    List.all_eq_true] at hLegible
  have hNode := hLegible.1.2 n hn
  simp only [Node.toDatum, Datum.legible_table, List.all_cons, Bool.and_eq_true, Datum.legible_text] at hNode
  exact hNode.1.2

end DependencyGraph

namespace Verification

open SourceAtlas.Action

variable {root : Path} {given : Option Config} {first second : Report} {w w' : World}

/-- The parts tell whether the graphs of two reports and their
cycles are the same. -/
structure Exact (first second : Report) (parts : List Part) : Prop where
  nil_iff : parts = [] ↔ first.graph = second.graph
  graph_iff : .graph ∈ parts ↔ first.graph ≠ second.graph
  cycles_iff : .cycles ∈ parts ↔ first.cycles ≠ second.cycles
  mem_parts : parts ∈ [[], [.graph], [.graph, .cycles]]

/-- A comparison is made of four documents, and it fails if one of them
cannot be written. -/
theorem differing_eq_ok_iff {parts : List Part} : differing first second = .ok parts ↔
    ∃ graph graph' cycles cycles', Json.document first.graph.toDatum = .ok graph ∧
      Json.document second.graph.toDatum = .ok graph' ∧ cycleTexts first = .ok cycles ∧
      cycleTexts second = .ok cycles' ∧
      parts = (if graph = graph' then [] else [.graph]) ++ (if cycles = cycles' then [] else [.cycles]) := by
  rw [differing]
  cases Json.document first.graph.toDatum <;> cases Json.document second.graph.toDatum <;>
    cases cycleTexts first <;> cases cycleTexts second <;>
    simp [bind, Except.bind, pure, Except.pure, eq_comm]

/-- Where the cycles are those of the graphs, they do not differ alone. So
the parts named tell both comparisons. -/
theorem exact_of_differing {parts : List Part} (hCycles : first.graph = second.graph → first.cycles = second.cycles)
    (hDiffering : differing first second = .ok parts) : Exact first second parts := by
  obtain ⟨graph, graph', cycles, cycles', hGraph, hGraph', hFirst, hSecond, rfl⟩ := differing_eq_ok_iff.mp hDiffering
  rw [if_congr (faithful_graph.eq_iff_of_document hGraph hGraph') rfl rfl,
    if_congr (faithful_cycle.eq_iff_of_documents hFirst hSecond) rfl rfl]
  by_cases hGraphs : first.graph = second.graph
  · have hSame := hCycles hGraphs
    constructor <;> simp [hGraphs, hSame]
  · by_cases hSame : first.cycles = second.cycles <;> constructor <;> simp [hGraphs, hSame]

/-- Where the names in the graphs are strings, the cycles of the graphs have
documents too, so the reports can be compared. -/
theorem exists_differing (hFirst : Cycle.detect first.graph = .ok first.cycles)
    (hSecond : Cycle.detect second.graph = .ok second.cycles) :
    (∃ parts, differing first second = .ok parts) ↔
      first.graph.toDatum.legible = true ∧ second.graph.toDatum.legible = true := by
  have hCycles {r : Report} (hDetect : Cycle.detect r.graph = .ok r.cycles)
      (hLegible : r.graph.toDatum.legible = true) : ∃ texts, cycleTexts r = .ok texts := by
    refine exists_mapM_eq_ok fun c hc => Json.document_eq_ok_iff.mpr ?_
    rw [c.fits_eq_legible, Cycle.toDatum_legible_iff]
    exact fun m hm => DependencyGraph.isString_of_legible hLegible (((Cycle.detect_members hDetect).1 c hc).2 m hm)
  simp only [← DependencyGraph.fits_eq_legible, ← Json.document_eq_ok_iff]
  constructor
  · rintro ⟨parts, hDiffering⟩
    obtain ⟨graph, graph', _, _, hGraph, hGraph', -⟩ := differing_eq_ok_iff.mp hDiffering
    exact ⟨⟨graph, hGraph⟩, graph', hGraph'⟩
  · rintro ⟨⟨graph, hGraph⟩, graph', hGraph'⟩
    have hLegible := Json.document_eq_ok_iff.mp ⟨graph, hGraph⟩
    have hLegible' := Json.document_eq_ok_iff.mp ⟨graph', hGraph'⟩
    rw [DependencyGraph.fits_eq_legible] at hLegible hLegible'
    obtain ⟨cycles, hTexts⟩ := hCycles hFirst hLegible
    obtain ⟨cycles', hTexts'⟩ := hCycles hSecond hLegible'
    exact ⟨_, differing_eq_ok_iff.mpr ⟨graph, graph', cycles, cycles', hGraph, hGraph', hTexts, hTexts', rfl⟩⟩

/-- There is at most one answer that is exact. -/
theorem Exact.unique {parts parts' : List Part} (exact : Exact first second parts)
    (exact' : Exact first second parts') : parts = parts' := by
  have hGraph := exact.graph_iff.trans exact'.graph_iff.symm
  have hCycles := exact.cycles_iff.trans exact'.cycles_iff.symm
  have hParts := exact.mem_parts
  have hParts' := exact'.mem_parts
  simp only [List.mem_cons, List.not_mem_nil, or_false] at hParts hParts'
  rcases hParts with rfl | rfl | rfl <;> rcases hParts' with rfl | rfl | rfl <;> simp at hGraph hCycles ⊢

/-- Name the parts in which two reports differ, if both can be written. -/
def compare (first second : Report) : Action (List Part) :=
  match differing first second with
  | .ok parts => pure parts
  | .error _ => throw .unwritable

/-- Analyse a project, let the world change, analyse it again and name the
parts that differ. -/
def amid (change : World → World) (root : Path) (given : Option Config) : Action (List Part) := do
  let first ← Analysis.run root false given
  modify change
  let second ← Analysis.run root false given
  compare first second

/-- The program lets nothing change between the two. What it compares are
two analyses of one world. -/
theorem run_eq_amid (root : Path) (given : Option Config) (w : World) :
    (run root given).on w = (amid id root given).on w := by
  rw [run, amid, on_bind, on_bind]
  rcases (Analysis.run root false given).on w with ⟨f | first, v⟩
  · rfl
  · have hNothing : (modify id : Action Unit).on v = (.ok (), v) := rfl
    dsimp only
    rw [on_bind_ok hNothing]
    rfl

/-- Comparing two reports gives the parts in which they differ
and changes nothing. -/
theorem compare_on_ok_iff {parts : List Part} :
    (compare first second).on w = (.ok parts, w') ↔ differing first second = .ok parts ∧ w = w' := by
  rw [compare]
  cases differing first second with
  | error e => exact ⟨nofun, nofun⟩
  | ok found =>
      rw [show (pure found : Action (List Part)).on w = (.ok found, w) from rfl, Prod.mk.injEq, Except.ok.injEq,
        Except.ok.injEq]

/-- An analysis, a change and another analysis come to the parts in which
the two reports differ, if both are given. -/
theorem amid_on_ok_iff {change : World → World} {parts : List Part} :
    (amid change root given).on w = (.ok parts, w') ↔
      ∃ first second v, (Analysis.run root false given).on w = (.ok first, v) ∧
        (Analysis.run root false given).on (change v) = (.ok second, w') ∧ differing first second = .ok parts := by
  constructor
  · intro hRun
    obtain ⟨first, v, hFirst, hRest⟩ := of_on_bind hRun
    obtain ⟨_, v', hChange, hRest⟩ := of_on_bind hRest
    obtain rfl : change v = v' := (Prod.mk.inj hChange).2
    obtain ⟨second, v'', hSecond, hEnd⟩ := of_on_bind hRest
    obtain ⟨hParts, rfl⟩ := compare_on_ok_iff.mp hEnd
    exact ⟨first, second, v, hFirst, hSecond, hParts⟩
  · rintro ⟨first, second, v, hFirst, hSecond, hParts⟩
    have hChange : (modify change : Action Unit).on v = (.ok (), change v) := rfl
    rw [amid, on_bind_ok hFirst, on_bind_ok hChange, on_bind_ok hSecond]
    exact compare_on_ok_iff.mpr ⟨hParts, rfl⟩

/-- However the world changes between the two analyses, a verification tells
exactly whether they came to the same graph, and names the cycles only
beside the graph. It needs graphs in which all texts are strings; these and
such cycles have documents that no other graph or cycle has. -/
theorem verification_exact (root : Path) (given : Option Config) :
    (∀ w, (run root given).on w = (amid id root given).on w) ∧
    (∀ change w parts w', (amid change root given).on w = (.ok parts, w') ↔
      ∃ first second v, (Analysis.run root false given).on w = (.ok first, v) ∧
        (Analysis.run root false given).on (change v) = (.ok second, w') ∧
        first.graph.toDatum.legible = true ∧ second.graph.toDatum.legible = true ∧ Exact first second parts) ∧
    (∀ g : DependencyGraph, g.toDatum.legible = true →
      ∃ text, ∀ g' : DependencyGraph, Json.document g'.toDatum = .ok text ↔ g' = g) ∧
    ∀ c : Cycle, c.toDatum.legible = true →
      ∃ text, ∀ c' : Cycle, Json.document c'.toDatum = .ok text ↔ c' = c := by
  refine ⟨run_eq_amid root given, ?compared, fun g hLegible => ?graph, fun c hLegible => ?cycle⟩
  case graph => exact faithful_graph.exists_document (g.fits_eq_legible.trans hLegible)
  case cycle => exact faithful_cycle.exists_document (c.fits_eq_legible.trans hLegible)
  case compared =>
    intro change w parts w'
    rw [amid_on_ok_iff]
    refine exists_congr fun first => exists_congr fun second => exists_congr fun v =>
      and_congr_right fun hFirst => and_congr_right fun hSecond => ?_
    have hDetect := (Analysis.run_showable hFirst).2
    have hDetect' := (Analysis.run_showable hSecond).2
    have hCycles : first.graph = second.graph → first.cycles = second.cycles := by
      intro hGraph
      rw [hGraph, hDetect'] at hDetect
      exact (Except.ok.inj hDetect).symm
    constructor
    · intro hDiffering
      obtain ⟨hLegible, hLegible'⟩ := (exists_differing hDetect hDetect').mp ⟨parts, hDiffering⟩
      exact ⟨hLegible, hLegible', exact_of_differing hCycles hDiffering⟩
    · rintro ⟨hLegible, hLegible', exact⟩
      obtain ⟨found, hDiffering⟩ := (exists_differing hDetect hDetect').mpr ⟨hLegible, hLegible'⟩
      rw [hDiffering, (exact_of_differing hCycles hDiffering).unique exact]

namespace Sample

/-- Two files that import each other. -/
def ring : World where
  disk := ⟨[(["p"], .directory), (["p", "a.ts"], .file (Text.Utf8.encode "import './b';") 1),
    (["p", "b.ts"], .file (Text.Utf8.encode "import './a';") 2)]⟩
  here := ⟨⟨.root, ["p"]⟩, []⟩
  watch := ⟨0, 1⟩

/-- The second file has become empty. -/
def emptied (w : World) : World := { w with disk := w.disk.put ["p", "b.ts"] (.file [] 3) }

/-- With its second file emptied the ring has another graph and no cycle. -/
theorem ring_differs : passes (fun parts _ => parts = [.graph, .cycles])
    ((amid emptied ⟨.root, ["p"]⟩ (some {})).on ring) = true := by
  decide +kernel

/-- The ring is in the first report only, and both parts differ. -/
theorem emptied_told : ∃ first second v w', (Analysis.run ⟨.root, ["p"]⟩ false (some {})).on ring = (.ok first, v) ∧
    (Analysis.run ⟨.root, ["p"]⟩ false (some {})).on (emptied v) = (.ok second, w') ∧
    Exact first second [.graph, .cycles] := by
  obtain ⟨parts, w', hRun, hParts⟩ := exists_of_passes ring_differs
  obtain rfl := of_decide_eq_true hParts
  obtain ⟨first, second, v, hFirst, hSecond, -, -, hExact⟩ :=
    ((verification_exact ⟨.root, ["p"]⟩ (some {})).2.1 emptied ring _ w').mp hRun
  exact ⟨first, second, v, w', hFirst, hSecond, hExact⟩

end Sample

end Verification

end SourceAtlas
