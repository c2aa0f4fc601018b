import SourceAtlas.Proofs.Graph.Cycles
import SourceAtlas.Report.Diagram
import SourceAtlas.Report.Markdown

/-!
Reports over records can be shown in every form, and their cycles tell whether the project is in a
grave state: a module or a service lies on a way that leads back to it through another file.
-/
namespace SourceAtlas

namespace Diagram

variable {g : DependencyGraph}

/-- Every node has a mark. -/
theorem markOf_numbers {id : Text} (hNode : g.HasNode id) : ∃ mark, markOf (numbers g) id = .ok mark := by
  rw [markOf]
  rcases hGet : Assoc.get? id (numbers g) with _ | n
  · refine absurd hNode ?_
    rw [Assoc.get?_eq_none_iff, numbers, Assoc.mem_keys_ofPairs] at hGet
    simpa [DependencyGraph.HasNode, List.mem_mapIdx, List.mem_iff_getElem] using hGet
  · exact ⟨_, rfl⟩

theorem exists_nodeLines (g : DependencyGraph) (line : Text → Text → Text) :
    ∃ lines, nodeLines g line = .ok lines := by
  refine exists_mapM_eq_ok fun n hn => ?_
  obtain ⟨mark, hMark⟩ := markOf_numbers (List.mem_map_of_mem hn : g.HasNode n.id)
  exact ⟨line mark n.id, by rw [hMark]; rfl⟩

/-- The edges of a graph can be drawn if their ends are nodes. -/
theorem exists_edgeLines (hEnds : ∀ e ∈ g.edges, g.HasNode e.source ∧ g.HasNode e.target)
    (line : Text → Text → Text) : ∃ lines, edgeLines g line = .ok lines := by
  refine exists_mapM_eq_ok fun e he => ?_
  obtain ⟨source, hSource⟩ := markOf_numbers (hEnds e he).1
  obtain ⟨target, hTarget⟩ := markOf_numbers (hEnds e he).2
  exact ⟨line source target, by rw [hSource, hTarget]; rfl⟩

/-- A graph whose edges end at nodes can be drawn as a flowchart. -/
theorem exists_mermaid (hEnds : ∀ e ∈ g.edges, g.HasNode e.source ∧ g.HasNode e.target) :
    ∃ text, mermaid g = .ok text := by
  obtain ⟨nodes, hNodes⟩ := exists_nodeLines g
    fun mark id => "  " ++ mark ++ "[\"" ++ mermaidLabel id ++ "\"]"
  obtain ⟨edges, hEdges⟩ := exists_edgeLines hEnds fun source target => "  " ++ source ++ " --> " ++ target
  rw [mermaid, hNodes, hEdges]
  exact ⟨_, rfl⟩

/-- A graph whose edges end at nodes can be drawn in DOT. -/
theorem exists_dot (hEnds : ∀ e ∈ g.edges, g.HasNode e.source ∧ g.HasNode e.target) :
    ∃ text, dot g = .ok text := by
  obtain ⟨nodes, hNodes⟩ := exists_nodeLines g
    fun mark id => "  " ++ mark ++ " [label=\"" ++ dotLabel id ++ "\"];"
  obtain ⟨edges, hEdges⟩ := exists_edgeLines hEnds
    fun source target => "  " ++ source ++ " -> " ++ target ++ ";"
  rw [dot, hNodes, hEdges]
  exact ⟨_, rfl⟩

end Diagram

theorem Metrics.mem_takeTop {α : Type} {count : Int} {xs : List α} {x : α} (hx : x ∈ takeTop count xs) :
    x ∈ xs := by
  rw [takeTop] at hx
  split at hx <;> exact List.mem_of_mem_take hx

/-- The files that are listed as imported most have a count. -/
theorem Metrics.counted (records : List Record) (g : DependencyGraph) (top : Int) :
    ∀ id ∈ (ofRecords records g top).mostImported, ∃ n, Assoc.get? id (ofRecords records g top).fanIn = some n := by
  intro id hId
  obtain ⟨p, hp, rfl⟩ := List.mem_map.mp (mem_takeTop hId)
  have hKey : p.1 ∈ (ofRecords records g top).fanIn.map Prod.fst :=
    List.mem_map_of_mem (Sorting.mem_sort.mpr (Sorting.mem_sort.mp hp))
  exact Option.ne_none_iff_exists'.mp fun hNone => Assoc.get?_eq_none_iff.mp hNone hKey

namespace Markdown

/-- The most imported files can be listed if each of them is counted. -/
theorem exists_importedLines {m : Metrics} (hCounted : ∀ id ∈ m.mostImported, ∃ n, Assoc.get? id m.fanIn = some n) :
    ∃ lines, importedLines m = .ok lines := by
  rw [importedLines]
  split
  · exact ⟨[], rfl⟩
  · refine exists_mapM_bind _ fun id hId => ?_
    obtain ⟨n, hGet⟩ := hCounted id hId
    exact ⟨[id, Datum.intText n], by rw [hGet]⟩

/-- Cycles can be listed if none of them is empty. -/
theorem exists_cycleLines {cycles : List Cycle} (hMembers : ∀ c ∈ cycles, c.members ≠ []) :
    ∃ lines, cycleLines cycles = .ok lines := by
  rw [cycleLines]
  split
  · exact ⟨_, rfl⟩
  · refine exists_mapM_bind _ fun p hp => ?_
    obtain ⟨i, hi, rfl⟩ := List.mem_mapIdx.mp hp
    rw [cycleSection]
    split
    · next hNone => exact absurd hNone (hMembers _ (List.getElem_mem hi))
    · exact ⟨_, rfl⟩

end Markdown

/-- A report from which nothing is missing that its forms show. -/
structure Report.Showable (r : Report) : Prop where
  ends : ∀ e ∈ r.graph.edges, r.graph.HasNode e.source ∧ r.graph.HasNode e.target
  counted : ∀ id ∈ r.metrics.mostImported, ∃ n, Assoc.get? id r.metrics.fanIn = some n
  members : ∀ c ∈ r.cycles, c.members ≠ []

/-- A report from which nothing is missing can be written out. -/
theorem Report.Showable.exists_markdown {r : Report} (hShowable : r.Showable) :
    ∃ text, Markdown.ofReport r = .ok text := by
  obtain ⟨imported, hImported⟩ := Markdown.exists_importedLines hShowable.counted
  obtain ⟨cycles, hCycles⟩ := Markdown.exists_cycleLines hShowable.members
  rw [Markdown.ofReport, hImported, hCycles]
  exact ⟨_, rfl⟩

/-- Its cycles can be written out by themselves. -/
theorem Report.Showable.exists_cyclesMarkdown {r : Report} (hShowable : r.Showable) :
    ∃ text, Markdown.cyclesOfReport r = .ok text := by
  obtain ⟨cycles, hCycles⟩ := Markdown.exists_cycleLines hShowable.members
  rw [Markdown.cyclesOfReport]
  split
  · exact ⟨_, rfl⟩
  · rw [hCycles]
    exact ⟨_, rfl⟩

namespace DependencyGraph

/-- A module or a service leads to another file that leads back to it. -/
def Grave (g : DependencyGraph) : Prop :=
  ∃ n ∈ g.nodes, (n.role = .module ∨ n.role = .service) ∧
    ∃ m ∈ g.nodes, m.id ≠ n.id ∧ g.Reaches n.id m.id ∧ g.Reaches m.id n.id

variable {g : DependencyGraph}

theorem exists_node_of_roleOf? {id : Text} {r : Role} (hRole : g.roleOf? id = some r) :
    ∃ n ∈ g.nodes, n.id = id ∧ n.role = r := by
  obtain ⟨n, hFind, hr⟩ := Option.map_eq_some_iff.mp hRole
  refine ⟨n, List.mem_reverse.mp (List.mem_of_find?_eq_some hFind), ?_, hr⟩
  simpa using List.find?_some hFind

/-- Where names are different a node has its own role. -/
theorem roleOf?_of_mem (hNodup : (g.nodes.map Node.id).Nodup) {n : Node} (hn : n ∈ g.nodes) :
    g.roleOf? n.id = some n.role := by
  obtain ⟨r, hRole⟩ := roleOf?_isSome (List.mem_map_of_mem hn : g.HasNode n.id)
  obtain ⟨n', hn', hId, hr⟩ := exists_node_of_roleOf? hRole
  obtain rfl := List.inj_on_of_nodup_map hNodup hn' hn hId
  rw [hRole, hr]

/-- The cycles of a graph with different names include an error exactly if
it is grave. -/
theorem error_mem_detect_iff (hNodup : (g.nodes.map Node.id).Nodup) {cycles : List Cycle}
    (hDetect : Cycle.detect g = .ok cycles) : (∃ c ∈ cycles, c.severity = .error) ↔ g.Grave := by
  rcases g.adjacency_cases with ⟨e, -, -, hError⟩ | ⟨-, m, hAdjacency, drawn⟩
  · rw [Cycle.detect, hError] at hDetect
    cases hDetect
  rw [Cycle.detect_of_drawn hAdjacency drawn] at hDetect
  obtain rfl := Except.ok.inj hDetect
  constructor
  · rintro ⟨c, hc, hSeverity⟩
    obtain ⟨members, hMembers, rfl⟩ := List.mem_map.mp hc
    have round := drawn.isRound hMembers
    have hJudged := Cycle.judged_graded g members
    obtain ⟨r, hr, u, hu, hRole⟩ : ∃ r, (r = .module ∨ r = .service) ∧ (Cycle.graded g members).Has g r := by
      rcases hJudged.severity.mp hSeverity with hKind | hKind
      · exact ⟨.module, .inl rfl, hJudged.module.mp hKind⟩
      · exact ⟨.service, .inr rfl, (hJudged.service.mp hKind).2⟩
    obtain ⟨n, hn, rfl, rfl⟩ := exists_node_of_roleOf? hRole
    obtain ⟨v, hv, hne⟩ := round.exists_other n.id
    obtain ⟨m, hm, rfl⟩ := List.mem_map.mp (drawn.hasNode_of_round round hv)
    exact ⟨n, hn, hr, m, hm, hne, (round.mem_iff n.id hu m.id).mp hv⟩
  · rintro ⟨n, hn, hr, m, -, hne, hTo, hFrom⟩
    obtain ⟨members, hMembers, hu⟩ := drawn.exists_round hne hTo hFrom
    have hJudged := Cycle.judged_graded g members
    have hRole := roleOf?_of_mem hNodup hn
    refine ⟨Cycle.graded g members, List.mem_map_of_mem hMembers, hJudged.severity.mpr ?_⟩
    by_cases hModule : (Cycle.graded g members).Has g .module
    · exact .inl (hJudged.module.mpr hModule)
    · refine .inr (hJudged.service.mpr ⟨hModule, n.id, hu, ?_⟩)
      rcases hr with hr | hr
      · exact absurd ⟨n.id, hu, hr ▸ hRole⟩ hModule
      · rw [hRole, hr]

end DependencyGraph

end SourceAtlas
