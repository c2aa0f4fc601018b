import SourceAtlas.Cycle
import SourceAtlas.Proofs.Assoc
import SourceAtlas.Proofs.Graph.Components

/-!
The cycles of a dependency graph. They can be found unless an edge leaves no node: a member of a
component of two or more has an edge of its own, so it is a node and has a role. What is found then
are the strongly connected components of two or more members, graded by the roles among them.
-/
namespace SourceAtlas

open SourceAtlas.Graph Relation

namespace DependencyGraph

def Leads (g : DependencyGraph) (u v : Text) : Prop := ⟨u, v⟩ ∈ g.edges

/-- Edges lead from one name to another in any number of
steps, none included. -/
abbrev Reaches (g : DependencyGraph) : Text → Text → Prop := ReflTransGen g.Leads

def HasNode (g : DependencyGraph) (id : Text) : Prop := id ∈ g.nodes.map Node.id

instance (g : DependencyGraph) (id : Text) : Decidable (g.HasNode id) :=
  inferInstanceAs (Decidable (id ∈ _))

/-- The role of a name: that of the last node with it. -/
def roleOf? (g : DependencyGraph) (id : Text) : Option Role :=
  (g.nodes.reverse.find? fun n => n.id = id).map Node.role

/-- The role that is looked up for a name is the one of the
last node with it. -/
theorem get?_roles (g : DependencyGraph) (id : Text) : Assoc.get? id g.roles = g.roleOf? id := by
  rw [roles, Assoc.get?_ofPairs, ← List.map_reverse, List.find?_map, Option.map_map]
  rfl

theorem roleOf?_isSome {g : DependencyGraph} {id : Text} (hNode : g.HasNode id) :
    ∃ r, g.roleOf? id = some r := by
  obtain ⟨n, hn, hId⟩ := List.mem_map.mp hNode
  rcases hFind : g.nodes.reverse.find? fun n => n.id = id with _ | m
  · exact absurd hId (by simpa using List.find?_eq_none.mp hFind n (List.mem_reverse.mpr hn))
  · exact ⟨m.role, by rw [roleOf?, hFind, Option.map_some]⟩

/-- A map of successors that has the nodes of a graph as
keys and these edges. -/
structure Drawn (g : DependencyGraph) (edges : List Edge) (m : Adjacency Text) : Prop where
  keys : ∀ id, id ∈ m.map Prod.fst ↔ g.HasNode id
  edges : ∀ u v, m.Edge u v ↔ ⟨u, v⟩ ∈ edges

variable {g : DependencyGraph}

theorem drawn_nodes (g : DependencyGraph) :
    g.Drawn [] (Assoc.ofPairs (g.nodes.map fun n => (n.id, []))) where
  keys id := by
    rw [Assoc.mem_keys_ofPairs, List.map_map]
    rfl
  edges u v := by
    rw [Adjacency.Edge, Adjacency.successors]
    rcases hGet : Assoc.get? u (Assoc.ofPairs (g.nodes.map fun n => (n.id, ([] : List Text))))
      with _ | targets
    · simp [hGet]
    · obtain ⟨n, -, hPair⟩ := List.mem_map.mp (Assoc.mem_ofPairs (Assoc.mem_of_get? hGet))
      obtain ⟨-, rfl⟩ := Prod.mk.inj hPair
      simp [hGet]

/-- An edge from a name that is no node is refused with the name, and that
is the only way in which drawing can fail. -/
theorem Drawn.addEdge_error {edges : List Edge} {m : Adjacency Text} (drawn : g.Drawn edges m)
    {e : Edge} (hStray : ¬ g.HasNode e.source) : addEdge m e = .error e.source := by
  rw [← drawn.keys, ← Assoc.get?_eq_none_iff] at hStray
  rw [addEdge, hStray]

/-- An edge from a node is drawn behind those that are there. -/
theorem Drawn.addEdge_ok {edges : List Edge} {m : Adjacency Text} (drawn : g.Drawn edges m)
    {e : Edge} (hSource : g.HasNode e.source) :
    ∃ m', addEdge m e = .ok m' ∧ g.Drawn (edges ++ [e]) m' := by
  rw [addEdge]
  rcases hGet : Assoc.get? e.source m with _ | targets
  · exact absurd ((drawn.keys _).mpr hSource) (Assoc.get?_eq_none_iff.mp hGet)
  · refine ⟨_, rfl, fun id => ?_, fun u v => ?_⟩
    · rw [Assoc.mem_keys_put, drawn.keys]
      refine ⟨?_, .inr⟩
      rintro (rfl | hOld)
      · exact hSource
      · exact hOld
    · have hOld := drawn.edges u v
      rw [Adjacency.Edge, Adjacency.successors] at hOld ⊢
      rw [List.mem_append, ← hOld, List.mem_singleton]
      by_cases hSame : u = e.source
      · subst hSame
        rw [Assoc.get?_put_self, hGet, Option.getD_some, Option.getD_some, List.mem_append,
          List.mem_singleton]
        refine or_congr_right ⟨fun hTarget => by rw [hTarget], fun hEdge => by rw [← hEdge]⟩
      · rw [Assoc.get?_put_of_ne hSame]
        refine ⟨.inl, fun hEither => hEither.resolve_right fun hEdge => hSame ?_⟩
        rw [← hEdge]

/-- Adding edges stops at the first that leaves no node. If all of them
leave a node the map is drawn in full. -/
theorem Drawn.foldlM_addEdge (edges : List Edge) {done : List Edge} {m : Adjacency Text}
    (drawn : g.Drawn done m) : match edges.find? fun e => ¬ g.HasNode e.source with
      | some e => edges.foldlM addEdge m = .error e.source
      | none => ∃ m', edges.foldlM addEdge m = .ok m' ∧ g.Drawn (done ++ edges) m' := by
  induction edges generalizing done m with
  | nil => exact ⟨m, rfl, by simpa using drawn⟩
  | cons e edges ih =>
      rw [List.foldlM_cons]
      by_cases hSource : g.HasNode e.source
      · obtain ⟨m', hStep, drawn'⟩ := drawn.addEdge_ok hSource
        have hRest := ih drawn'
        rw [List.append_assoc, List.singleton_append] at hRest
        rw [List.find?_cons_of_neg (by simpa using hSource), hStep]
        exact hRest
      · rw [List.find?_cons_of_pos (by simpa using hSource), drawn.addEdge_error hSource]
        rfl

/-- The map of successors has all nodes and all edges, or the first edge
that leaves no node stands in its way. -/
theorem adjacency_cases (g : DependencyGraph) :
    (∃ e ∈ g.edges, ¬ g.HasNode e.source ∧ g.adjacency = .error e.source) ∨
      (∀ e ∈ g.edges, g.HasNode e.source) ∧ ∃ m, g.adjacency = .ok m ∧ g.Drawn g.edges m := by
  have hFold := (drawn_nodes g).foldlM_addEdge g.edges
  rw [List.nil_append] at hFold
  rcases hFind : g.edges.find? fun e => ¬ g.HasNode e.source with _ | e <;> rw [hFind] at hFold
  · refine .inr ⟨fun e he => ?_, hFold⟩
    simpa using List.find?_eq_none.mp hFind e he
  · have hStray := List.find?_some hFind
    exact .inl ⟨e, List.mem_of_find?_eq_some hFind, by simpa using hStray, hFold⟩

/-- A map that is drawn in full has the edges of its graph, so that what is
said of its components is said of the graph. -/
theorem Drawn.edge_eq {m : Adjacency Text} (drawn : g.Drawn g.edges m) : m.Edge = g.Leads :=
  funext fun u => funext fun v => propext (drawn.edges u v)

end DependencyGraph

namespace Graph.Adjacency

variable {α : Type} [DecidableEq α] {m : Adjacency α}

/-- Whatever can be reached from elsewhere is a node. -/
theorem isNode_of_reaches {u v : α} (hne : v ≠ u) (hPath : m.Reaches u v) : m.IsNode v := by
  rcases ReflTransGen.cases_tail hPath with rfl | ⟨w, _, hEdge⟩
  · exact absurd rfl hne
  · exact Or.inr ⟨w, hEdge⟩

/-- A node that leads to another one is a key. -/
theorem isKey_of_reaches {u v : α} (hne : v ≠ u) (hPath : m.Reaches u v) : u ∈ m.map Prod.fst := by
  rcases ReflTransGen.cases_head hPath with rfl | ⟨w, hEdge, _⟩
  · exact absurd rfl hne
  · rw [Edge, successors] at hEdge
    rcases hGet : Assoc.get? u m with _ | targets
    · simp [hGet] at hEdge
    · exact List.mem_map.mpr ⟨_, Assoc.mem_of_get? hGet, rfl⟩

/-- A component holds exactly what each of its members reaches and is
reached from. -/
theorem IsCondensation.mem_iff {cs : List (List α)} (condensed : m.IsCondensation cs) {c : List α}
    (hc : c ∈ cs) {u : α} (hu : u ∈ c) (v : α) : v ∈ c ↔ m.Reaches u v ∧ m.Reaches v u := by
  have hNode {w : α} (hw : w ∈ c) : m.IsNode w :=
    (condensed.covers w).mp (List.mem_flatten.mpr ⟨c, hc, hw⟩)
  constructor
  · intro hv
    exact (condensed.together u v (hNode hu) (hNode hv)).mp ⟨c, hc, hu, hv⟩
  · rintro ⟨hTo, hFrom⟩
    by_cases hSame : v = u
    · exact hSame ▸ hu
    · obtain ⟨d, hd, hud, hvd⟩ :=
        (condensed.together u v (hNode hu) (isNode_of_reaches hSame hTo)).mpr ⟨hTo, hFrom⟩
      rwa [condensed.eq_of_mem hc hd hu hud]

end Graph.Adjacency

namespace DependencyGraph

/-- A strongly connected component of two or more members, each listed once. -/
structure IsRound (g : DependencyGraph) (members : List Text) : Prop where
  long : 2 ≤ members.length
  nodup : members.Nodup
  mem_iff : ∀ u ∈ members, ∀ v, v ∈ members ↔ g.Reaches u v ∧ g.Reaches v u

variable {g : DependencyGraph} {m : Adjacency Text} {members : List Text}

/-- The cyclic components of a map that is drawn in full are
those of the graph. -/
theorem Drawn.isRound (drawn : g.Drawn g.edges m) (hCyclic : members ∈ cyclic m) : g.IsRound members := by
  have condensed := components_isCondensation m
  obtain ⟨hc, hLong⟩ := List.mem_filter.mp hCyclic
  refine ⟨of_decide_eq_true hLong, condensed.nodup.sublist (List.sublist_flatten_of_mem hc), ?_⟩
  intro u hu v
  rw [Reaches, ← drawn.edge_eq]
  exact condensed.mem_iff hc hu v

theorem IsRound.exists_other (round : g.IsRound members) (u : Text) :
    ∃ v ∈ members, v ≠ u := by
  by_contra hNone
  push Not at hNone
  have hSub : members ⊆ [u] := fun v hv => List.mem_singleton.mpr (hNone v hv)
  have hShort := (round.nodup.subperm hSub).length_le
  have hLong := round.long
  simp only [List.length_singleton] at hShort
  omega

/-- Every member of a round has an edge of its own, so it is a node: edges
leave nodes only, wherever they lead. -/
theorem Drawn.hasNode_of_round (drawn : g.Drawn g.edges m) (round : g.IsRound members) {u : Text}
    (hu : u ∈ members) : g.HasNode u := by
  obtain ⟨v, hv, hne⟩ := round.exists_other u
  have hPath := ((round.mem_iff u hu v).mp hv).1
  rw [Reaches, ← drawn.edge_eq] at hPath
  exact (drawn.keys u).mp (Adjacency.isKey_of_reaches hne hPath)

/-- Names that reach each other are in a round, and so no cycle of the graph
is missed. -/
theorem Drawn.exists_round (drawn : g.Drawn g.edges m) {u v : Text} (hne : v ≠ u)
    (hTo : g.Reaches u v) (hFrom : g.Reaches v u) : ∃ c ∈ cyclic m, u ∈ c := by
  have condensed := components_isCondensation m
  rw [Reaches, ← drawn.edge_eq] at hTo hFrom
  obtain ⟨c, hc, hu, hv⟩ := (condensed.together u v (Adjacency.isNode_of_reaches hne.symm hFrom)
    (Adjacency.isNode_of_reaches hne hTo)).mpr ⟨hTo, hFrom⟩
  refine ⟨c, List.mem_filter.mpr ⟨hc, ?_⟩, hu⟩
  simpa using (condensed.one_lt_length_iff hc).mpr ⟨u, hu, v, hne, hTo, hFrom⟩

/-- No node is in two of the cyclic components. -/
theorem cyclic_disjoint (m : Adjacency Text) : (cyclic m).Pairwise List.Disjoint :=
  ((List.nodup_flatten.mp (components_isCondensation m).nodup).2).filter _

end DependencyGraph

namespace Cycle

/-- The role of a member, or the member itself if it has none. -/
def roleOf (roles : Assoc Text Role) (m : Text) : Except Text Role :=
  match Assoc.get? m roles with
  | some r => .ok r
  | none => .error m

def graded (g : DependencyGraph) (members : List Text) : Cycle :=
  let kind := CycleKind.ofRoles (members.filterMap g.roleOf?)
  ⟨members, kind.severity, kind⟩

theorem mapM_roleOf {g : DependencyGraph} {members : List Text} (hNodes : ∀ m ∈ members, g.HasNode m) :
    members.mapM (roleOf g.roles) = .ok (members.filterMap g.roleOf?) := by
  induction members with
  | nil => rfl
  | cons m members ih =>
      obtain ⟨r, hRole⟩ := DependencyGraph.roleOf?_isSome (hNodes m (List.mem_cons_self ..))
      have hHead : roleOf g.roles m = .ok r := by rw [roleOf, DependencyGraph.get?_roles, hRole]
      have hRest := ih fun m hm => hNodes m (List.mem_cons_of_mem _ hm)
      rw [List.mapM_cons, hHead, hRest, List.filterMap_cons_some hRole]
      rfl

/-- A cycle of nodes is graded by their roles. -/
theorem ofMembers_eq_ok {g : DependencyGraph} {members : List Text}
    (hNodes : ∀ m ∈ members, g.HasNode m) : ofMembers g.roles members = .ok (graded g members) := by
  have hSame : ofMembers g.roles members = members.mapM (roleOf g.roles) >>= fun found =>
      pure ⟨members, (CycleKind.ofRoles found).severity, CycleKind.ofRoles found⟩ := rfl
  rw [hSame, mapM_roleOf hNodes]
  rfl

/-- With a map of successors the cycles are its cyclic components, each with
the grade that the roles of its members give. -/
theorem detect_of_drawn {g : DependencyGraph} {m : Adjacency Text} (hAdjacency : g.adjacency = .ok m)
    (drawn : g.Drawn g.edges m) : detect g = .ok ((cyclic m).map (graded g)) := by
  rw [detect, hAdjacency]
  refine mapM_eq_ok_of_forall fun c hc => ofMembers_eq_ok fun u hu => ?_
  exact drawn.hasNode_of_round (drawn.isRound hc) hu

def Has (g : DependencyGraph) (c : Cycle) (r : Role) : Prop := ∃ m ∈ c.members, g.roleOf? m = some r

/-- The kind of a cycle goes by the gravest role among its members:
modules before services before components. Cycles through modules and
services are errors. -/
structure Judged (g : DependencyGraph) (c : Cycle) : Prop where
  module : c.kind = .module ↔ c.Has g .module
  service : c.kind = .service ↔ ¬ c.Has g .module ∧ c.Has g .service
  component : c.kind = .component ↔ ¬ c.Has g .module ∧ ¬ c.Has g .service ∧ c.Has g .component
  general : c.kind = .general ↔ ¬ c.Has g .module ∧ ¬ c.Has g .service ∧ ¬ c.Has g .component
  severity : c.severity = .error ↔ c.kind = .module ∨ c.kind = .service

/-- The grade of a cycle goes by the roles of its members, as it should:
first the kind, and by the kind the severity. -/
theorem judged_graded (g : DependencyGraph) (members : List Text) : (graded g members).Judged g := by
  have hHas (r : Role) : (graded g members).Has g r ↔ r ∈ members.filterMap g.roleOf? := by
    rw [Has, List.mem_filterMap]
    rfl
  have hKind : (graded g members).kind = CycleKind.ofRoles (members.filterMap g.roleOf?) := rfl
  constructor
  case severity =>
    have hSeverity : (graded g members).severity = (graded g members).kind.severity := rfl
    rw [hSeverity]
    cases (graded g members).kind <;> simp [CycleKind.severity]
  all_goals
    rw [hKind]
    simp only [hHas, CycleKind.ofRoles]
    split_ifs <;> simp_all

/-- Finding cycles fails exactly if an edge leaves no node, and never for
want of a role. What is found otherwise are the components of two or more
members, each once and judged by its roles. -/
theorem detect_sound_complete (g : DependencyGraph) : match detect g with
    | .error id => g.adjacency = .error id ∧ ∃ e ∈ g.edges, e.source = id ∧ ¬ g.HasNode id
    | .ok cycles =>
      (∀ e ∈ g.edges, g.HasNode e.source) ∧
      (∀ c ∈ cycles, g.IsRound c.members ∧ c.Judged g) ∧
      cycles.Pairwise (fun c d => c.members.Disjoint d.members) ∧
      ∀ u v, v ≠ u → g.Reaches u v → g.Reaches v u → ∃ c ∈ cycles, u ∈ c.members := by
  rcases g.adjacency_cases with ⟨e, he, hStray, hError⟩ | ⟨hSources, m, hAdjacency, drawn⟩
  · have hDetect : detect g = .error e.source := by
      rw [detect, hError]
      rfl
    rw [hDetect]
    exact ⟨hError, e, he, rfl, hStray⟩
  · rw [detect_of_drawn hAdjacency drawn]
    refine ⟨hSources, fun c hc => ?_, ?_, fun u v hne hTo hFrom => ?_⟩
    · obtain ⟨members, hMembers, rfl⟩ := List.mem_map.mp hc
      exact ⟨drawn.isRound hMembers, judged_graded g members⟩
    · exact List.pairwise_map.mpr (DependencyGraph.cyclic_disjoint m)
    · obtain ⟨members, hMembers, hu⟩ := drawn.exists_round hne hTo hFrom
      exact ⟨graded g members, List.mem_map_of_mem hMembers, hu⟩

-- An edge to a name that is no node is no hindrance.
example : detect ⟨[⟨"a", "", "", .unknown⟩, ⟨"b", "", "", .service⟩],
    [⟨"a", "b"⟩, ⟨"b", "a"⟩, ⟨"b", "x"⟩]⟩ = .ok [⟨["a", "b"], .error, .service⟩] := by decide

end Cycle

namespace DependencyGraph

/-- The first edges are those not seen before, each of them once. -/
theorem mem_firsts {seen edges : List Edge} {e : Edge} :
    e ∈ firsts seen edges ↔ e ∈ edges ∧ e ∉ seen := by
  induction edges generalizing seen with
  | nil => simp [firsts]
  | cons e' edges ih =>
      rw [firsts]
      by_cases hSeen : e' ∈ seen
      · rw [if_pos hSeen, ih]
        constructor
        · rintro ⟨he, hNew⟩
          exact ⟨List.mem_cons_of_mem _ he, hNew⟩
        · rintro ⟨he, hNew⟩
          have hOther : e ≠ e' := fun hSame => hNew (hSame ▸ hSeen)
          exact ⟨List.mem_of_ne_of_mem hOther he, hNew⟩
      · rw [if_neg hSeen, List.mem_cons, ih]
        by_cases hSame : e = e'
        · simp [hSame, hSeen]
        · simp [hSame]

/-- Imports lead from files of the project to files of the project. -/
theorem ofRecords_edges {records : List Record} {e : Edge} (he : e ∈ (ofRecords records).edges) :
    (ofRecords records).HasNode e.source ∧ (ofRecords records).HasNode e.target := by
  have hNode {r : Record} (hr : r ∈ records) : (ofRecords records).HasNode r.relativePath := by
    rw [HasNode, ofRecords, List.map_map]
    exact List.mem_map_of_mem hr
  obtain ⟨r, hr, hEdge⟩ := List.mem_flatMap.mp (mem_firsts.mp he).1
  rw [recordEdges, List.mem_filterMap] at hEdge
  obtain ⟨i, -, hTarget⟩ := hEdge
  obtain ⟨target, hGet, rfl⟩ := Option.map_eq_some_iff.mp hTarget
  refine ⟨hNode hr, ?_⟩
  obtain ⟨r', hr', hPair⟩ := List.mem_map.mp (Assoc.mem_ofPairs (Assoc.mem_of_get? hGet))
  obtain ⟨-, rfl⟩ := Prod.mk.inj hPair
  exact hNode hr'

end DependencyGraph

/-- The cycles among the files of records can always be found: the edges of
such a graph leave nodes. -/
theorem Cycle.detect_ofRecords (records : List Record) :
    ∃ cycles, detect (.ofRecords records) = .ok cycles := by
  rcases (DependencyGraph.ofRecords records).adjacency_cases with
    ⟨e, he, hStray, -⟩ | ⟨-, m, hAdjacency, drawn⟩
  · exact absurd (DependencyGraph.ofRecords_edges he).1 hStray
  · exact ⟨_, detect_of_drawn hAdjacency drawn⟩

end SourceAtlas
