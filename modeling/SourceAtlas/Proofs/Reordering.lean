import Mathlib.Data.Finset.Dedup
import SourceAtlas.Metrics
import SourceAtlas.Proofs.Graph.Edges

/-!
What the order of the records has no part in. Figures, edges and cycles depend on the records as a
collection: sorted lists break every tie by name, and a component is what its members reach and are
reached from, in whatever order they are searched.
-/
namespace SourceAtlas

/-- A list and its rearrangements are sorted alike if no two members may
stand either way around. -/
theorem Sorting.sort_eq_of_perm {α : Type} {before : α → α → Bool} {R : α → α → Prop} {xs ys : List α}
    (hTrans : ∀ a b c, R a b → R b c → R a c) (hBefore : ∀ a b, before a b = true → R a b)
    (hAfter : ∀ a b, before a b = false → R b a)
    (hStrict : ∀ a ∈ xs, ∀ b ∈ xs, R a b → R b a → a = b) (hPerm : xs.Perm ys) :
    sort before xs = sort before ys := by
  have hSame : (sort before xs).Perm (sort before ys) :=
    (sort_perm before xs).trans (hPerm.trans (sort_perm before ys).symm)
  apply hSame.eq_of_pairwise _ (sort_pairwise hTrans hBefore hAfter xs) (sort_pairwise hTrans hBefore hAfter ys)
  intro a b ha hb
  exact hStrict a (mem_sort.mp ha) b (hPerm.mem_iff.mpr (mem_sort.mp hb))

/-- Only the bindings matter for a sorted map that repeats no key. -/
theorem Assoc.sorted_eq_of_perm {β : Type} {m m' : Assoc Text β} (hPerm : m.Perm m')
    (hKeys : (m.map Prod.fst).Nodup) : sorted m = sorted m' := by
  apply Sorting.sort_eq_of_perm (R := fun a b => a.1 ≤ b.1) (fun a b c => le_trans)
  · intro a b hBefore
    rwa [Bool.not_eq_true', decide_eq_false_iff_not, not_lt] at hBefore
  · intro a b hAfter
    rw [Bool.not_eq_false', decide_eq_true_eq] at hAfter
    exact le_of_lt hAfter
  · intro a ha b hb hLe hGe
    exact List.inj_on_of_nodup_map hKeys ha hb (le_antisymm hLe hGe)
  · exact hPerm

namespace Metrics

/-- Of two figures with names the first may stand before the second. -/
def Ranks (a b : Int × Text) : Prop := b.1 < a.1 ∨ a.1 = b.1 ∧ a.2 ≤ b.2

theorem Ranks.trans {a b c : Int × Text} (hab : Ranks a b) (hbc : Ranks b c) : Ranks a c := by
  rcases hab with hab | ⟨hab, hNames⟩ <;> rcases hbc with hbc | ⟨hbc, hNames'⟩
  · exact .inl (hbc.trans hab)
  · exact .inl (hbc ▸ hab)
  · exact .inl (hab ▸ hbc)
  · exact .inr ⟨hab.trans hbc, hNames.trans hNames'⟩

theorem Ranks.antisymm {a b : Int × Text} (hab : Ranks a b) (hba : Ranks b a) : a.2 = b.2 := by
  rcases hab with hab | ⟨hab, hNames⟩ <;> rcases hba with hba | ⟨hba, hNames'⟩
  · exact absurd hba (lt_asymm hab)
  · exact absurd hba hab.ne
  · exact absurd hab hba.ne
  · exact le_antisymm hNames hNames'

theorem ranks_of_before {a b : Int × Text} (hBefore : ranksBefore a b = true) : Ranks a b := by
  rw [ranksBefore] at hBefore
  split at hBefore
  · next hSame =>
    rw [Bool.not_eq_true', decide_eq_false_iff_not, not_lt] at hBefore
    exact .inr ⟨hSame, hBefore⟩
  · exact .inl (by simpa using hBefore)

theorem ranks_of_not_before {a b : Int × Text} (hAfter : ranksBefore a b = false) : Ranks b a := by
  rw [ranksBefore] at hAfter
  split at hAfter
  · next hSame => exact .inr ⟨hSame.symm, le_of_lt (by simpa using hAfter)⟩
  · next hOther =>
    have hLe : a.1 ≤ b.1 := by simpa using hAfter
    exact .inl (lt_of_le_of_ne hLe hOther)

/-- Members with different names are ranked in one way, however
they stand at first. -/
theorem ranked_eq_of_perm {α : Type} (figure : α → Int × Text) {xs ys : List α} (hPerm : xs.Perm ys)
    (hNames : (xs.map fun a => (figure a).2).Nodup) :
    Sorting.sort (fun a b => ranksBefore (figure a) (figure b)) xs =
      Sorting.sort (fun a b => ranksBefore (figure a) (figure b)) ys := by
  apply Sorting.sort_eq_of_perm (R := fun a b => Ranks (figure a) (figure b))
  · exact fun a b c => Ranks.trans
  · exact fun a b => ranks_of_before
  · exact fun a b => ranks_of_not_before
  · exact fun a ha b hb hab hba => List.inj_on_of_nodup_map hNames ha hb (hab.antisymm hba)
  · exact hPerm

/-- A name is counted as often as it occurs, and not at all if it does not. -/
theorem get?_counts (names : List Text) (name : Text) :
    Assoc.get? name (counts names) = if name ∈ names then some (names.count name : Int) else none := by
  induction names using List.reverseRecOn with
  | nil => rfl
  | append_singleton names last ih =>
      have hStep : counts (names ++ [last]) = Assoc.update last 0 (· + 1) (counts names) := by
        rw [counts, List.foldl_append]
        rfl
      rw [hStep, Assoc.update]
      by_cases hSame : name = last
      · subst hSame
        rw [Assoc.get?_put_self, ih]
        by_cases hMem : name ∈ names
        · simp [hMem]
        · simp [hMem, List.count_eq_zero_of_not_mem hMem]
      · rw [Assoc.get?_put_of_ne hSame, ih]
        simp [hSame, Ne.symm hSame]

theorem nodup_counts (names : List Text) : ((counts names).map Prod.fst).Nodup := by
  induction names using List.reverseRecOn with
  | nil => exact List.nodup_nil
  | append_singleton names last ih =>
      rw [counts, List.foldl_append]
      exact Assoc.nodup_put ih last _

/-- Names are counted alike in every order, though the counts may be kept in
another one. -/
theorem counts_perm {names names' : List Text} (hPerm : names.Perm names') :
    (counts names).Perm (counts names') := by
  have hNodup (names : List Text) : (counts names).Nodup := (nodup_counts names).of_map _
  apply (List.perm_ext_iff_of_nodup (hNodup names) (hNodup names')).mpr
  rintro ⟨name, count⟩
  rw [← Assoc.get?_eq_some_iff (nodup_counts names), ← Assoc.get?_eq_some_iff (nodup_counts names'), get?_counts,
    get?_counts, hPerm.count_eq]
  simp only [hPerm.mem_iff]

/-- Counts in the order of their names do not depend on the order in which
they were counted. -/
theorem sorted_counts_eq {names names' : List Text} (hPerm : names.Perm names') :
    Assoc.sorted (counts names) = Assoc.sorted (counts names') :=
  Assoc.sorted_eq_of_perm (counts_perm hPerm) (nodup_counts names)

variable {rs rs' : List Record} {g g' : DependencyGraph}

/-- The order of records does not matter to their lines. -/
theorem totalLines_perm (hPerm : rs.Perm rs') : totalLines rs = totalLines rs' :=
  hPerm.foldr_eq' (fun _ _ _ _ _ => by omega) 0

theorem totalFunctions_perm (hPerm : rs.Perm rs') : totalFunctions rs = totalFunctions rs' :=
  hPerm.foldr_eq' (fun _ _ _ _ _ => by omega) 0

/-- The figures of records with different names do not depend on the order
of records and edges. -/
theorem ofRecords_perm (hPerm : rs.Perm rs') (hIds : (rs.map Record.relativePath).Nodup)
    (hEdges : g.edges.Perm g'.edges) (top : Int) : ofRecords rs g top = ofRecords rs' g' top := by
  have hFanIn : (fanInOf g.edges).Perm (fanInOf g'.edges) := counts_perm (hEdges.map Edge.target)
  have hSizes := ranked_eq_of_perm (fun r : Record => (r.lineCount, r.relativePath)) hPerm hIds
  have hImported := ranked_eq_of_perm (fun p : Text × Int => (p.2, p.1)) hFanIn
    (nodup_counts (g.edges.map Edge.target))
  have hRoles := sorted_counts_eq (hPerm.map fun r => r.role.word)
  have hIn : Assoc.sorted (fanInOf g.edges) = Assoc.sorted (fanInOf g'.edges) :=
    sorted_counts_eq (hEdges.map Edge.target)
  have hOut : Assoc.sorted (fanOutOf g.edges) = Assoc.sorted (fanOutOf g'.edges) :=
    sorted_counts_eq (hEdges.map Edge.source)
  simp only [ofRecords]
  rw [hSizes, hImported, hRoles, hIn, hOut, totalLines_perm hPerm, totalFunctions_perm hPerm, hPerm.length_eq]

end Metrics

namespace DependencyGraph

variable {rs rs' : List Record}

/-- The order of records without repeated paths does not matter to the node
that a path has. -/
theorem ids_perm (hPerm : rs.Perm rs') (hFiles : (rs.map Record.path).Nodup) (path : Text) :
    Assoc.get? path (idsOf rs) = Assoc.get? path (idsOf rs') := by
  have hKeys : ((rs.map fun r => (r.path, r.relativePath)).map Prod.fst).Nodup := by
    rwa [List.map_map]
  have hKeys' : ((rs'.map fun r => (r.path, r.relativePath)).map Prod.fst).Nodup :=
    ((hPerm.map _).map _).nodup_iff.mp hKeys
  rw [idsOf, idsOf, Assoc.ofPairs_of_nodup hKeys, Assoc.ofPairs_of_nodup hKeys']
  exact Assoc.get?_perm (hPerm.map _) hKeys

/-- The edges of imports depend on the nodes of paths, however
these are looked up. -/
theorem importEdges_congr {ids ids' : Assoc Text Text}
    (hIds : ∀ path, Assoc.get? path ids = Assoc.get? path ids') (rs : List Record) :
    importEdges ids rs = importEdges ids' rs := by
  have hEdge (r : Record) : importEdge? ids r = importEdge? ids' r := by
    funext i
    rw [importEdge?, importEdge?, hIds]
  simp only [importEdges, hEdge]

/-- Records of different files give the same edges in every order. -/
theorem edges_perm (hPerm : rs.Perm rs') (hFiles : (rs.map Record.path).Nodup) :
    (ofRecords rs).edges.Perm (ofRecords rs').edges := by
  rw [edges_ofRecords, edges_ofRecords, importEdges_congr (ids_perm hPerm hFiles)]
  apply (List.perm_ext_iff_of_nodup (firsts_nodup _ _) (firsts_nodup _ _)).mpr
  intro e
  rw [mem_firsts, mem_firsts, importEdges, importEdges, (hPerm.flatMap_right _).mem_iff]

/-- The role of a name is that of the record with it, wherever this stands. -/
theorem roleOf?_perm (hPerm : rs.Perm rs') (hIds : (rs.map Record.relativePath).Nodup) :
    (ofRecords rs).roleOf? = (ofRecords rs').roleOf? := by
  funext id
  have hKeys : (((ofRecords rs).nodes.map fun n => (n.id, n.role)).map Prod.fst).Nodup := by
    rw [ofRecords, List.map_map, List.map_map]
    exact hIds
  have hNodes : ((ofRecords rs).nodes.map fun n => (n.id, n.role)).Perm
      ((ofRecords rs').nodes.map fun n => (n.id, n.role)) := (hPerm.map nodeOf).map _
  have hKeys' := (hNodes.map Prod.fst).nodup_iff.mp hKeys
  rw [← get?_roles, ← get?_roles, roles, roles, Assoc.ofPairs_of_nodup hKeys, Assoc.ofPairs_of_nodup hKeys']
  exact Assoc.get?_perm hNodes hKeys

/-- What leads to what does not depend on the order of edges. -/
theorem leads_of_perm {g g' : DependencyGraph} (hEdges : g.edges.Perm g'.edges) : g.Leads = g'.Leads :=
  funext fun u => funext fun v => propext (hEdges.mem_iff (a := ⟨u, v⟩))

/-- The successors of all files of records can be listed. -/
theorem exists_drawn (rs : List Record) :
    ∃ m, (ofRecords rs).adjacency = .ok m ∧ (ofRecords rs).Drawn (ofRecords rs).edges m := by
  rcases (ofRecords rs).adjacency_cases with ⟨e, he, hStray, -⟩ | ⟨-, hDrawn⟩
  · exact absurd (ofRecords_edges he).1 hStray
  · exact hDrawn

end DependencyGraph

namespace Cycle

open SourceAtlas.Graph

/-- A cycle with its members as a set. -/
def unordered (c : Cycle) : Finset Text × Severity × CycleKind := (c.members.toFinset, c.severity, c.kind)

variable {g g' : DependencyGraph} {m m' : Adjacency Text}

/-- The kind of a cycle depends on which roles there are, and
not on how often. -/
theorem ofRoles_congr {roles roles' : List Role} (hSame : ∀ r, r ∈ roles ↔ r ∈ roles') :
    CycleKind.ofRoles roles = CycleKind.ofRoles roles' := by
  simp only [CycleKind.ofRoles, hSame]

/-- The grade of a component goes by its members as a set. -/
theorem unordered_graded (hRoles : g.roleOf? = g'.roleOf?) {members members' : List Text}
    (hMembers : members.toFinset = members'.toFinset) :
    (graded g members).unordered = (graded g' members').unordered := by
  have hKind : CycleKind.ofRoles (members.filterMap g.roleOf?) = CycleKind.ofRoles (members'.filterMap g'.roleOf?) := by
    apply ofRoles_congr
    intro r
    rw [List.mem_filterMap, List.mem_filterMap, hRoles]
    refine exists_congr fun u => and_congr_left fun _ => ?_
    rw [← List.mem_toFinset, hMembers, List.mem_toFinset]
  simp only [unordered, graded, hMembers, hKind]

/-- A component of one graph is one of every graph that leads the same way. -/
theorem exists_same_round (hLeads : g.Leads = g'.Leads) (drawn : g.Drawn g.edges m) (drawn' : g'.Drawn g'.edges m')
    {members : List Text} (hMembers : members ∈ cyclic m) :
    ∃ members' ∈ cyclic m', members'.toFinset = members.toFinset := by
  have hReaches : g.Reaches = g'.Reaches := by rw [DependencyGraph.Reaches, hLeads]
  have round := drawn.isRound hMembers
  obtain ⟨u, hu⟩ := List.exists_mem_of_length_pos (Nat.lt_of_lt_of_le Nat.zero_lt_two round.long)
  obtain ⟨v, hv, hne⟩ := round.exists_other u
  obtain ⟨hTo, hFrom⟩ := (round.mem_iff u hu v).mp hv
  rw [hReaches] at hTo hFrom
  obtain ⟨members', hMembers', hu'⟩ := drawn'.exists_round hne hTo hFrom
  refine ⟨members', hMembers', Finset.ext fun w => ?_⟩
  rw [List.mem_toFinset, List.mem_toFinset, (drawn'.isRound hMembers').mem_iff u hu' w, round.mem_iff u hu w, hReaches]

/-- No two components have the same members. -/
theorem nodup_unordered (drawn : g.Drawn g.edges m) : (((cyclic m).map (graded g)).map unordered).Nodup := by
  rw [List.map_map, List.nodup_iff_pairwise_ne, List.pairwise_map]
  apply (DependencyGraph.cyclic_disjoint m).imp_of_mem
  intro c d hc _ hDisjoint hSame
  have hLong := (drawn.isRound hc).long
  obtain ⟨u, hu⟩ := List.exists_mem_of_length_pos (Nat.lt_of_lt_of_le Nat.zero_lt_two hLong)
  have hSets : c.toFinset = d.toFinset := (Prod.mk.inj hSame).1
  have hud : u ∈ d := List.mem_toFinset.mp (hSets ▸ List.mem_toFinset.mpr hu)
  exact hDisjoint hu hud

/-- Graphs with the same edges and roles have the same cycles, found in
whatever order. -/
theorem cycles_perm (hLeads : g.Leads = g'.Leads) (hRoles : g.roleOf? = g'.roleOf?) (drawn : g.Drawn g.edges m)
    (drawn' : g'.Drawn g'.edges m') :
    (((cyclic m).map (graded g)).map unordered).Perm (((cyclic m').map (graded g')).map unordered) := by
  have hSub {g g' : DependencyGraph} {m m' : Adjacency Text} (hLeads : g.Leads = g'.Leads)
      (hRoles : g.roleOf? = g'.roleOf?) (drawn : g.Drawn g.edges m) (drawn' : g'.Drawn g'.edges m') :
      ((cyclic m).map (graded g)).map unordered ⊆ ((cyclic m').map (graded g')).map unordered := by
    intro c hc
    rw [List.map_map] at hc ⊢
    obtain ⟨members, hMembers, rfl⟩ := List.mem_map.mp hc
    obtain ⟨members', hMembers', hSame⟩ := exists_same_round hLeads drawn drawn' hMembers
    exact List.mem_map.mpr ⟨members', hMembers', unordered_graded hRoles.symm hSame⟩
  apply (List.perm_ext_iff_of_nodup (nodup_unordered drawn) (nodup_unordered drawn')).mpr
  intro c
  exact ⟨fun hc => hSub hLeads hRoles drawn drawn' hc, fun hc => hSub hLeads.symm hRoles.symm drawn' drawn hc⟩

end Cycle

/-- Of records of different files with different names the order does not
matter: the figures are identical, the edges are the same, and the same
cycles are found, of the same kinds and gravity. -/
theorem records_reorder {rs rs' : List Record} (hPerm : rs.Perm rs') (hFiles : (rs.map Record.path).Nodup)
    (hIds : (rs.map Record.relativePath).Nodup) (top : Int) :
    Metrics.ofRecords rs (.ofRecords rs) top = Metrics.ofRecords rs' (.ofRecords rs') top ∧
      (DependencyGraph.ofRecords rs).edges.Perm (DependencyGraph.ofRecords rs').edges ∧
      ∃ cycles cycles', Cycle.detect (.ofRecords rs) = .ok cycles ∧ Cycle.detect (.ofRecords rs') = .ok cycles' ∧
        (cycles.map Cycle.unordered).Perm (cycles'.map Cycle.unordered) := by
  have hEdges := DependencyGraph.edges_perm hPerm hFiles
  obtain ⟨m, hAdjacency, drawn⟩ := DependencyGraph.exists_drawn rs
  obtain ⟨m', hAdjacency', drawn'⟩ := DependencyGraph.exists_drawn rs'
  refine ⟨Metrics.ofRecords_perm hPerm hIds hEdges top, hEdges, _, _, Cycle.detect_of_drawn hAdjacency drawn,
    Cycle.detect_of_drawn hAdjacency' drawn', ?_⟩
  exact Cycle.cycles_perm (DependencyGraph.leads_of_perm hEdges) (DependencyGraph.roleOf?_perm hPerm hIds) drawn drawn'

namespace Reordering.Sample

/-- Two files that import each other, of equal size, and a third that
imports one of them. -/
def ring : List Record := [
  { path := "/p/c.ts", relativePath := "c.ts", lineCount := 9, imports := [
      { source := "./a", resolved := some "/p/a.ts", kind := .inside }] },
  { path := "/p/a.ts", relativePath := "a.ts", lineCount := 7, role := .component, imports := [
      { source := "./b", resolved := some "/p/b.ts", kind := .inside }] },
  { path := "/p/b.ts", relativePath := "b.ts", lineCount := 7, role := .service, imports := [
      { source := "./a", resolved := some "/p/a.ts", kind := .inside }] }]

/-- Read backwards, the cycle is found from its other member. -/
theorem ring_reversed : ring.Perm ring.reverse ∧ (ring.map Record.path).Nodup ∧
    (ring.map Record.relativePath).Nodup ∧
    Metrics.ofRecords ring (.ofRecords ring) 2 = Metrics.ofRecords ring.reverse (.ofRecords ring.reverse) 2 ∧
    Cycle.detect (.ofRecords ring) = .ok [⟨["a.ts", "b.ts"], .error, .service⟩] ∧
    Cycle.detect (.ofRecords ring.reverse) = .ok [⟨["b.ts", "a.ts"], .error, .service⟩] := by
  have hPerm : ring.Perm ring.reverse := (List.reverse_perm ring).symm
  have hFiles : (ring.map Record.path).Nodup := by decide
  have hIds : (ring.map Record.relativePath).Nodup := by decide
  exact ⟨hPerm, hFiles, hIds, (records_reorder hPerm hFiles hIds 2).1, by decide, by decide⟩

end Reordering.Sample

end SourceAtlas
