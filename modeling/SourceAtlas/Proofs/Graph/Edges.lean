import SourceAtlas.Proofs.Graph.Cycles
import SourceAtlas.Proofs.Report

/-!
Which edges the graph of a list of records has. An import gives an edge exactly if it leads to the
path of a record; each edge stands where it is given first. Records may repeat paths and names.
-/
namespace SourceAtlas.DependencyGraph

theorem firsts_nodup (seen edges : List Edge) : (firsts seen edges).Nodup := by
  induction edges generalizing seen with
  | nil => simp [firsts]
  | cons e edges ih =>
      rw [firsts]
      split
      · exact ih seen
      · apply List.nodup_cons.mpr
        exact ⟨by simp [mem_firsts], ih _⟩

/-- Of two members the one that comes first stands before every occurrence
of the other. -/
theorem firsts_pairwise (seen edges : List Edge) :
    (firsts seen edges).Pairwise fun e e' => ∀ before after, edges = before ++ e' :: after → e ∈ before := by
  induction edges generalizing seen with
  | nil => simp [firsts]
  | cons e₀ edges ih =>
      -- an occurrence in the tail is preceded there, or by the head
      have hTail {seen' : List Edge} (hSeen : e₀ ∈ seen') : (firsts seen' edges).Pairwise fun e e' =>
          ∀ before after, e₀ :: edges = before ++ e' :: after → e ∈ before := by
        apply (ih seen').imp_of_mem
        intro e e' _ he' hBefore before after hSplit
        cases before with
        | nil =>
            have hHead : e₀ = e' := (List.cons.inj hSplit).1
            exact absurd (hHead ▸ hSeen) (mem_firsts.mp he').2
        | cons b before =>
            exact List.mem_cons_of_mem _ (hBefore before after (List.cons.inj hSplit).2)
      rw [firsts]
      split
      · next hSeen => exact hTail hSeen
      · apply List.pairwise_cons.mpr
        constructor
        · intro e' he' before after hSplit
          cases before with
          | nil =>
              have hHead : e₀ = e' := (List.cons.inj hSplit).1
              simp [mem_firsts, hHead] at he'
          | cons b before => simp [(List.cons.inj hSplit).1]
        · exact hTail (List.mem_cons_self ..)

/-- A path has this name among records: it is that of the last
record with the path. -/
def Names (records : List Record) (path id : Text) : Prop :=
  ∃ before r after, records = before ++ r :: after ∧ r.path = path ∧ r.relativePath = id ∧
    ∀ later ∈ after, later.path ≠ path

def idsOf (records : List Record) : Assoc Text Text :=
  Assoc.ofPairs (records.map fun r => (r.path, r.relativePath))

theorem get?_idsOf (records : List Record) (path id : Text) :
    Assoc.get? path (idsOf records) = some id ↔ Names records path id := by
  rw [idsOf, Assoc.get?_ofPairs, ← List.map_reverse, List.find?_map, Option.map_map, Option.map_eq_some_iff]
  constructor
  · rintro ⟨r, hFind, rfl⟩
    obtain ⟨hPath, later, earlier, hSplit, hOther⟩ := List.find?_eq_some_iff_append.mp hFind
    refine ⟨earlier.reverse, r, later.reverse, ?_, by simpa using hPath, rfl, by simpa using hOther⟩
    have hRecords := congrArg List.reverse hSplit
    simpa using hRecords
  · rintro ⟨before, r, after, rfl, hPath, hId, hLast⟩
    refine ⟨r, ?_, hId⟩
    apply List.find?_eq_some_iff_append.mpr
    refine ⟨by simpa using hPath, after.reverse, before.reverse, by simp, by simpa using hLast⟩

/-- An import of a record gives an edge: it leads to a file whose path a
record has. -/
structure Gives (records : List Record) (r : Record) (i : Import) (e : Edge) : Prop where
  source : e.source = r.relativePath
  kind : i.kind = .inside
  target : ∃ path, i.resolved = some path ∧ Names records path e.target

def importEdge? (ids : Assoc Text Text) (r : Record) (i : Import) : Option Edge :=
  if i.kind = .inside then (Assoc.get? (i.resolved.getD "") ids).map fun target => ⟨r.relativePath, target⟩
  else none

/-- The edges that the imports of records give, in order and with
repetitions. -/
def importEdges (ids : Assoc Text Text) (records : List Record) : List Edge :=
  records.flatMap fun r => r.imports.filterMap (importEdge? ids r)

theorem edges_ofRecords (records : List Record) :
    (ofRecords records).edges = firsts [] (importEdges (idsOf records) records) := by
  simp only [ofRecords, importEdges, idsOf]
  congr 2
  funext r
  rw [recordEdges, List.filterMap_filter]
  apply List.filterMap_congr
  intro i _
  simp [importEdge?]

variable {records : List Record}

/-- No record has the empty path, so an import that leads
nowhere gives no edge. -/
theorem importEdge?_eq_some_iff (hPaths : ∀ r ∈ records, r.path ≠ "") {r : Record} {i : Import} {e : Edge} :
    importEdge? (idsOf records) r i = some e ↔ Gives records r i e := by
  have hEmpty (id : Text) : ¬ Names records "" id := by
    rintro ⟨before, r, after, rfl, hPath, -⟩
    exact hPaths r (by simp) hPath
  rw [importEdge?]
  split
  · next hKind =>
    rw [Option.map_eq_some_iff]
    constructor
    · rintro ⟨target, hGet, rfl⟩
      rw [get?_idsOf] at hGet
      cases hResolved : i.resolved with
      | none => exact absurd (by simpa [hResolved] using hGet) (hEmpty target)
      | some path => exact ⟨rfl, hKind, path, hResolved, by simpa [hResolved] using hGet⟩
    · rintro ⟨hSource, -, path, hResolved, hNames⟩
      refine ⟨e.target, ?_, by rw [← hSource]⟩
      rw [get?_idsOf, hResolved]
      exact hNames
  · next hKind =>
    constructor
    · intro hNone
      cases hNone
    · intro hGives
      exact absurd hGives.kind hKind

/-- An edge comes before another if every import that gives the other has
one before it that gives the first, in an earlier record or in the same one. -/
def Precedes (records : List Record) (e e' : Edge) : Prop :=
  ∀ before r after earlier i later, records = before ++ r :: after → r.imports = earlier ++ i :: later →
    Gives records r i e' →
      (∃ r' ∈ before, ∃ i' ∈ r'.imports, Gives records r' i' e) ∨ ∃ i' ∈ earlier, Gives records r i' e

structure Depicts (records : List Record) (g : DependencyGraph) : Prop where
  /-- One node for each record, in order. -/
  nodes : List.Forall₂ (fun r n => n.id = r.relativePath ∧ n.path = r.path ∧ n.role = r.role) records g.nodes
  ends : ∀ e ∈ g.edges, g.HasNode e.source ∧ g.HasNode e.target
  nodup : g.edges.Nodup
  edges : ∀ e, e ∈ g.edges ↔ ∃ r ∈ records, ∃ i ∈ r.imports, Gives records r i e
  order : g.edges.Pairwise (Precedes records)

theorem ofRecords_nodes (records : List Record) :
    List.Forall₂ (fun r n => n.id = r.relativePath ∧ n.path = r.path ∧ n.role = r.role) records
      (ofRecords records).nodes := by
  rw [ofRecords, List.forall₂_map_right_iff, List.forall₂_same]
  intro r _
  exact ⟨rfl, rfl, rfl⟩

theorem mem_importEdges (hPaths : ∀ r ∈ records, r.path ≠ "") {rs : List Record} {e : Edge} :
    e ∈ importEdges (idsOf records) rs ↔ ∃ r ∈ rs, ∃ i ∈ r.imports, Gives records r i e := by
  simp only [importEdges, List.mem_flatMap, List.mem_filterMap, importEdge?_eq_some_iff hPaths]

theorem mem_edges_ofRecords (hPaths : ∀ r ∈ records, r.path ≠ "") (e : Edge) :
    e ∈ (ofRecords records).edges ↔ ∃ r ∈ records, ∃ i ∈ r.imports, Gives records r i e := by
  rw [edges_ofRecords, mem_firsts, ← mem_importEdges hPaths]
  simp

/-- Among records of different files with different names, a name is
that of one path. -/
theorem names_iff (hFiles : (records.map Record.path).Nodup) (hIds : (records.map Record.relativePath).Nodup)
    {r : Record} (hr : r ∈ records) {path : Text} : Names records path r.relativePath ↔ path = r.path := by
  constructor
  · rintro ⟨before, r', after, hSplit, hPath, hId, _⟩
    have hSame : r' = r := List.inj_on_of_nodup_map hIds (by simp [hSplit]) hr hId
    rw [← hPath, hSame]
  · intro hPath
    obtain ⟨before, after, rfl⟩ := List.append_of_mem hr
    refine ⟨before, r, after, rfl, hPath.symm, rfl, fun later hLater hSame => ?_⟩
    rw [List.map_append, List.map_cons, List.nodup_append] at hFiles
    apply (List.nodup_cons.mp hFiles.2.1).1
    rw [← hPath, ← hSame]
    exact List.mem_map_of_mem hLater

/-- Among such records there is an edge exactly if an import of the first
has the path of the second. -/
theorem mem_edges_iff (hPaths : ∀ r ∈ records, r.path ≠ "") (hFiles : (records.map Record.path).Nodup)
    (hIds : (records.map Record.relativePath).Nodup) {r t : Record} (hr : r ∈ records) (ht : t ∈ records) :
    ⟨r.relativePath, t.relativePath⟩ ∈ (ofRecords records).edges ↔
      ∃ i ∈ r.imports, i.kind = .inside ∧ i.resolved = some t.path := by
  rw [mem_edges_ofRecords hPaths]
  constructor
  · rintro ⟨r', hr', i, hi, hGives⟩
    have hSame : r' = r := List.inj_on_of_nodup_map hIds hr' hr hGives.source.symm
    obtain ⟨path, hResolved, hNames⟩ := hGives.target
    rw [names_iff hFiles hIds ht] at hNames
    exact ⟨i, hSame ▸ hi, hGives.kind, hNames ▸ hResolved⟩
  · rintro ⟨i, hi, hKind, hResolved⟩
    exact ⟨r, hr, i, hi, rfl, hKind, t.path, hResolved, (names_iff hFiles hIds ht).mpr rfl⟩

theorem edges_ofRecords_pairwise (hPaths : ∀ r ∈ records, r.path ≠ "") :
    (ofRecords records).edges.Pairwise (Precedes records) := by
  rw [edges_ofRecords]
  apply (firsts_pairwise [] _).imp
  intro e e' hFirst before r after earlier i later hRecords hImports hGives
  -- the edges of all imports before this one stand before its edge
  have hSplit : importEdges (idsOf records) records =
      (importEdges (idsOf records) before ++ earlier.filterMap (importEdge? (idsOf records) r)) ++
        e' :: (later.filterMap (importEdge? (idsOf records) r) ++ importEdges (idsOf records) after) := by
    have hEdge := (importEdge?_eq_some_iff hPaths).mpr hGives
    generalize idsOf records = ids at hEdge ⊢
    rw [hRecords, importEdges, List.flatMap_append, List.flatMap_cons, hImports, List.filterMap_append,
      List.filterMap_cons_some hEdge]
    simp [importEdges]
  have hMem := hFirst _ _ hSplit
  rw [List.mem_append, mem_importEdges hPaths, List.mem_filterMap] at hMem
  simpa only [importEdge?_eq_some_iff hPaths] using hMem

/-- The graph of records has one node for each of them and an edge for each
pair of names of which one imports the other, in order of the imports. Its
successors can be listed and it can be drawn. -/
theorem graph_depicts_records (hPaths : ∀ r ∈ records, r.path ≠ "") :
    Depicts records (ofRecords records) ∧ (∃ m, (ofRecords records).adjacency = .ok m) ∧
      (∃ text, Diagram.mermaid (ofRecords records) = .ok text) ∧
      ∃ text, Diagram.dot (ofRecords records) = .ok text := by
  have hEnds : ∀ e ∈ (ofRecords records).edges,
      (ofRecords records).HasNode e.source ∧ (ofRecords records).HasNode e.target :=
    fun e he => ofRecords_edges he
  refine ⟨⟨ofRecords_nodes records, hEnds, edges_ofRecords records ▸ firsts_nodup _ _, mem_edges_ofRecords hPaths,
    edges_ofRecords_pairwise hPaths⟩, ?_, Diagram.exists_mermaid hEnds, Diagram.exists_dot hEnds⟩
  rcases (ofRecords records).adjacency_cases with ⟨e, he, hStray, -⟩ | ⟨-, m, hAdjacency, -⟩
  · exact absurd (hEnds e he).1 hStray
  · exact ⟨m, hAdjacency⟩

namespace Sample

/-- Two records of one path; the first record imports it twice, and a file
that no record has. -/
def repeated : List Record := [
  { path := "/p/a.ts", relativePath := "a.ts", imports := [
      { source := "./b", resolved := some "/p/b.ts", kind := .inside },
      { source := "./gone", resolved := some "/p/gone.ts", kind := .inside },
      { source := "./b.ts", resolved := some "/p/b.ts", kind := .inside },
      { source := "./lost", kind := .inside }] },
  { path := "/p/b.ts", relativePath := "b.ts", imports := [
      { source := "./a", resolved := some "/p/a.ts", kind := .inside }] },
  { path := "/p/b.ts", relativePath := "again/b.ts" }]

/-- The last record of a path gives the target of its edges. -/
theorem repeated_path_depicted : (∀ r ∈ repeated, r.path ≠ "") ∧ Depicts repeated (ofRecords repeated) ∧
    (ofRecords repeated).edges = [⟨"a.ts", "again/b.ts"⟩, ⟨"b.ts", "a.ts"⟩] :=
  ⟨by decide, (graph_depicts_records (by decide)).1, by decide⟩

end Sample

end SourceAtlas.DependencyGraph
