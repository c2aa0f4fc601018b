import SourceAtlas.Proofs.Reordering

/-!
What the figures of coupling count: for each file the files that import it and those that it imports.
The leaders of a table are as many of its rows as are asked for, and no row that is left out comes
before one of them.
-/
namespace SourceAtlas

/-- An import of the first record leads to the file of the second. -/
def Record.Imports (r t : Record) : Prop := ∃ i ∈ r.imports, i.kind = .inside ∧ i.resolved = some t.path

instance (r t : Record) : Decidable (r.Imports t) :=
  inferInstanceAs (Decidable (∃ i ∈ r.imports, i.kind = .inside ∧ i.resolved = some t.path))

namespace Metrics

/-- A row comes before another if its figure is greater, or equal and of a
lesser name. -/
def Outranks (p q : Text × Int) : Prop := q.2 < p.2 ∨ p.2 = q.2 ∧ p.1 < q.1

/-- The leaders of a table, in order. There are as many as are asked
for, unless the table has fewer rows, and they come before all rows
that are left out. -/
structure Leaders (count : Nat) (table top : Assoc Text Int) : Prop where
  rows : ∀ p ∈ top, p ∈ table
  names : (top.map Prod.fst).Nodup
  length : top.length = min count table.length
  ordered : top.Pairwise Outranks
  outrank : ∀ p ∈ top, ∀ q ∈ table, q.1 ∉ top.map Prod.fst → Outranks p q

/-- The rows of a table in order of their figures. -/
def ranked (table : Assoc Text Int) : Assoc Text Int :=
  Sorting.sort (fun p q => ranksBefore (p.2, p.1) (q.2, q.1)) table

variable {table : Assoc Text Int}

theorem ranked_perm (table : Assoc Text Int) : (ranked table).Perm table := Sorting.sort_perm _ _

/-- Rows of different names can only stand in one order: by their figures,
and by name where these are equal. -/
theorem ranked_pairwise (hNames : (table.map Prod.fst).Nodup) : (ranked table).Pairwise Outranks := by
  have hRanks : (ranked table).Pairwise fun p q => Ranks (p.2, p.1) (q.2, q.1) := by
    apply Sorting.sort_pairwise
    · exact fun p q r => Ranks.trans
    · exact fun p q => ranks_of_before
    · exact fun p q => ranks_of_not_before
  have hDistinct : (ranked table).Pairwise fun p q => p.1 ≠ q.1 :=
    List.pairwise_map.mp (((ranked_perm table).map Prod.fst).nodup_iff.mpr hNames)
  refine (hRanks.and hDistinct).imp fun hBoth => ?_
  obtain ⟨hGreater | ⟨hSame, hLe⟩, hNe⟩ := hBoth
  · exact .inl hGreater
  · exact .inr ⟨hSame, lt_of_le_of_ne hLe hNe⟩

/-- The first rows in order are the leaders: whatever is left out has no
greater figure, nor an equal one with a smaller name. -/
theorem leaders_take (hNames : (table.map Prod.fst).Nodup) (count : Nat) :
    Leaders count table ((ranked table).take count) := by
  have hPairwise := ranked_pairwise hNames
  have hTake : ((ranked table).take count).Sublist (ranked table) := List.take_sublist _ _
  refine ⟨fun p hp => (ranked_perm table).mem_iff.mp (hTake.subset hp), ?_, ?_, hPairwise.sublist hTake,
    fun p hp q hq hLeft => ?_⟩
  · exact (((ranked_perm table).map Prod.fst).nodup_iff.mpr hNames).sublist (hTake.map Prod.fst)
  · rw [List.length_take, (ranked_perm table).length_eq]
  · rw [← List.take_append_drop count (ranked table), List.pairwise_append] at hPairwise
    have hRow : q ∈ (ranked table).take count ++ (ranked table).drop count := by
      rw [List.take_append_drop]
      exact (ranked_perm table).mem_iff.mpr hq
    rcases List.mem_append.mp hRow with hKept | hDropped
    · exact absurd (List.mem_map_of_mem hKept) hLeft
    · exact hPairwise.2.2 p hp q hDropped

theorem takeTop_of_nonneg {α : Type} {top : Int} (hTop : 0 ≤ top) (xs : List α) :
    takeTop top xs = xs.take top.toNat := by rw [takeTop, if_pos hTop]

theorem get?_sorted_counts {names : List Text} {name : Text} {n : Int} :
    Assoc.get? name (Assoc.sorted (counts names)) = some n ↔ 0 < n ∧ n = names.count name := by
  have hPerm : (Assoc.sorted (counts names)).Perm (counts names) := Sorting.sort_perm _ _
  rw [Assoc.get?_perm hPerm ((hPerm.map Prod.fst).nodup_iff.mpr (nodup_counts names)), get?_counts]
  by_cases hMem : name ∈ names
  · have hPos := List.count_pos_iff.mpr hMem
    simp only [hMem, if_true, Option.some.injEq]
    omega
  · have hNone := List.count_eq_zero_of_not_mem hMem
    simp only [hMem, if_false, reduceCtorEq, false_iff]
    omega

/-- Every name is counted once for each of its places. -/
theorem sum_sorted_counts (names : List Text) :
    ((Assoc.sorted (counts names)).map Prod.snd).sum = names.length := by
  have hCounts : (counts names).Perm (names.dedup.map fun name => (name, (names.count name : Int))) := by
    apply (List.perm_ext_iff_of_nodup ((nodup_counts names).of_map _) ?_).mpr
    · rintro ⟨name, n⟩
      rw [← Assoc.get?_eq_some_iff (nodup_counts names), get?_counts]
      by_cases hMem : name ∈ names <;> simp [hMem, List.mem_dedup]
    · exact (List.nodup_dedup names).map fun _ _ hSame => (Prod.mk.inj hSame).1
  have hSorted : (Assoc.sorted (counts names)).Perm (counts names) := Sorting.sort_perm _ _
  rw [((hSorted.trans hCounts).map Prod.snd).sum_eq, List.map_map]
  simpa [Function.comp_def] using congrArg (Nat.cast (R := Int)) (List.sum_map_count_dedup_eq_length names)

section Ends

variable {edges : List Edge} {near far : Edge → Text} (hNodup : edges.Nodup)
  (hEnds : ∀ e e', near e = near e' → far e = far e' → e = e')

include hNodup hEnds

/-- Different edges with one end in common have different other ends, so
they can be counted by these. -/
theorem nodup_far (id : Text) : ((edges.filter fun e => near e == id).map far).Nodup := by
  refine List.Nodup.map_on (fun e he e' he' hSame => ?_) (hNodup.filter _)
  have hNear := (List.mem_filter.mp he).2
  have hNear' := (List.mem_filter.mp he').2
  rw [beq_iff_eq] at hNear hNear'
  exact hEnds e e' (hNear.trans hNear'.symm) hSame

omit hNodup hEnds in
variable (near far) in
theorem count_near (id : Text) :
    (edges.map near).count id = ((edges.filter fun e => near e == id).map far).length := by
  rw [List.length_map, ← List.countP_eq_length_filter, List.count, List.countP_map]
  rfl

/-- The edges at a node are as many as the nodes at their other ends. -/
theorem count_near_eq {id : Text} {others : List Text} (hOthers : others.Nodup)
    (hFar : ∀ u, u ∈ others ↔ ∃ e ∈ edges, near e = id ∧ far e = u) :
    (edges.map near).count id = others.length := by
  rw [count_near near far]
  apply List.Perm.length_eq
  apply (List.perm_ext_iff_of_nodup (nodup_far hNodup hEnds id) hOthers).mpr
  intro u
  rw [hFar, List.mem_map]
  simp [and_assoc]

end Ends

/-- The figures count the imports between records and list the
leaders among them. -/
structure Couples (records : List Record) (edges : List Edge) (count : Nat) (m : Metrics) : Prop where
  fanIn : ∀ id n, Assoc.get? id m.fanIn = some n ↔
    0 < n ∧ ∃ t ∈ records, t.relativePath = id ∧ n = records.countP fun r => r.Imports t
  fanOut : ∀ id n, Assoc.get? id m.fanOut = some n ↔
    0 < n ∧ ∃ r ∈ records, r.relativePath = id ∧ n = records.countP fun t => r.Imports t
  /-- No name has two counts. -/
  fanInNames : (m.fanIn.map Prod.fst).Nodup
  fanOutNames : (m.fanOut.map Prod.fst).Nodup
  fanInSum : (m.fanIn.map Prod.snd).sum = edges.length
  fanOutSum : (m.fanOut.map Prod.snd).sum = edges.length
  mostImported : Leaders count m.fanIn (m.mostImported.map fun id => (id, (Assoc.get? id m.fanIn).getD 0))
  largestFiles : Leaders count (records.map fun r => (r.relativePath, r.lineCount))
    (m.largestFiles.map fun f => (f.path, f.lines))

theorem nodup_sorted_counts (names : List Text) : ((Assoc.sorted (counts names)).map Prod.fst).Nodup :=
  (Assoc.sorted_keys (nodup_counts names)).imp ne_of_lt

/-- The files that are listed as imported most are the leaders
among the counts. -/
theorem leaders_mostImported (records : List Record) (g : DependencyGraph) {top : Int} (hTop : 0 ≤ top) :
    Leaders top.toNat (ofRecords records g top).fanIn ((ofRecords records g top).mostImported.map fun id =>
      (id, (Assoc.get? id (ofRecords records g top).fanIn).getD 0)) := by
  have hNames : ((ofRecords records g top).fanIn.map Prod.fst).Nodup := nodup_sorted_counts _
  have hRanked : ranked (ofRecords records g top).fanIn = ranked (fanInOf g.edges) :=
    ranked_eq_of_perm (fun p : Text × Int => (p.2, p.1)) (Sorting.sort_perm _ _) hNames
  have hListed : (ofRecords records g top).mostImported =
      ((ranked (ofRecords records g top).fanIn).take top.toNat).map Prod.fst := by
    rw [hRanked, List.map_take, ← takeTop_of_nonneg hTop]
    rfl
  -- a row of the table is found again under its name
  have hRows : (((ranked (ofRecords records g top).fanIn).take top.toNat).map Prod.fst).map (fun id =>
      (id, (Assoc.get? id (ofRecords records g top).fanIn).getD 0)) =
        (ranked (ofRecords records g top).fanIn).take top.toNat := by
    rw [List.map_map]
    refine (List.map_congr_left fun p hp => ?_).trans (List.map_id _)
    have hRow := (ranked_perm _).mem_iff.mp (List.mem_of_mem_take hp)
    simp [(Assoc.get?_eq_some_iff hNames).mpr hRow]
  rw [hListed, hRows]
  exact leaders_take hNames _

theorem leaders_largestFiles {records : List Record} (hIds : (records.map Record.relativePath).Nodup)
    (g : DependencyGraph) {top : Int} (hTop : 0 ≤ top) :
    Leaders top.toNat (records.map fun r => (r.relativePath, r.lineCount))
      ((ofRecords records g top).largestFiles.map fun f => (f.path, f.lines)) := by
  have hRanked : ranked (records.map fun r => (r.relativePath, r.lineCount)) =
      (Sorting.sort (fun a b => ranksBefore (a.lineCount, a.relativePath) (b.lineCount, b.relativePath)) records).map
        fun r => (r.relativePath, r.lineCount) := (Sorting.map_sort fun _ _ _ _ => rfl).symm
  have hListed : (ofRecords records g top).largestFiles.map (fun f => (f.path, f.lines)) =
      (ranked (records.map fun r => (r.relativePath, r.lineCount))).take top.toNat := by
    rw [hRanked, ← List.map_take, ← takeTop_of_nonneg hTop, ofRecords, List.map_map]
    rfl
  rw [hListed]
  exact leaders_take (by rwa [List.map_map]) _

section Counting

variable {records : List Record} {edges : List Edge} {near far : Edge → Text}
  {P : Record → Record → Prop} [∀ t, DecidablePred (P t)]

variable (near far) in
/-- If the edges join records of different names as a relation says, the
edges at each name are counted as the records in the relation. -/
theorem get?_ends_iff (hIds : (records.map Record.relativePath).Nodup) (hNodup : edges.Nodup)
    (hEnds : ∀ e e', near e = near e' → far e = far e' → e = e')
    (hNear : ∀ e ∈ edges, near e ∈ records.map Record.relativePath)
    (hFar : ∀ e ∈ edges, far e ∈ records.map Record.relativePath)
    (hJoined : ∀ t ∈ records, ∀ r ∈ records,
      P t r ↔ ∃ e ∈ edges, near e = t.relativePath ∧ far e = r.relativePath) {id : Text} {n : Int} :
    Assoc.get? id (Assoc.sorted (counts (edges.map near))) = some n ↔
      0 < n ∧ ∃ t ∈ records, t.relativePath = id ∧ n = records.countP fun r => P t r := by
  have hCount : ∀ t ∈ records, (edges.map near).count t.relativePath = records.countP fun r => P t r := by
    intro t ht
    rw [List.countP_eq_length_filter, ← List.length_map Record.relativePath]
    refine count_near_eq hNodup hEnds (hIds.sublist (List.filter_sublist.map _)) fun u => ?_
    constructor
    · intro hu
      obtain ⟨r, hr, rfl⟩ := List.mem_map.mp hu
      obtain ⟨hRecord, hRelated⟩ := List.mem_filter.mp hr
      exact (hJoined t ht r hRecord).mp (of_decide_eq_true hRelated)
    · rintro ⟨e, he, hThis, rfl⟩
      obtain ⟨r, hr, hOther⟩ := List.mem_map.mp (hFar e he)
      rw [← hOther]
      refine List.mem_map_of_mem (List.mem_filter.mpr ⟨hr, decide_eq_true ?_⟩)
      exact (hJoined t ht r hr).mpr ⟨e, he, hThis, hOther.symm⟩
  rw [get?_sorted_counts]
  constructor
  · rintro ⟨hPos, rfl⟩
    obtain ⟨e, he, rfl⟩ := List.mem_map.mp (List.count_pos_iff.mp (Int.natCast_pos.mp hPos))
    obtain ⟨t, ht, hThis⟩ := List.mem_map.mp (hNear e he)
    exact ⟨hPos, t, ht, hThis, by rw [← hThis, hCount t ht]⟩
  · rintro ⟨hPos, t, ht, rfl, hSame⟩
    exact ⟨hPos, by rw [hSame, hCount t ht]⟩

end Counting

/-- Of records of different files with different names, the figures count
for each name the records that import its file and those whose files it
imports, and list those that are imported most and those of the most lines. -/
theorem coupling_counted {records : List Record} (hPaths : ∀ r ∈ records, r.path ≠ "")
    (hFiles : (records.map Record.path).Nodup) (hIds : (records.map Record.relativePath).Nodup) (top : Int)
    (hTop : 1 ≤ top) :
    Couples records (DependencyGraph.ofRecords records).edges top.toNat
      (ofRecords records (DependencyGraph.ofRecords records) top) := by
  have hNodup : (DependencyGraph.ofRecords records).edges.Nodup :=
    DependencyGraph.edges_ofRecords records ▸ DependencyGraph.firsts_nodup _ _
  have hNames : (DependencyGraph.ofRecords records).nodes.map Node.id = records.map Record.relativePath := by
    rw [DependencyGraph.ofRecords, List.map_map]
    rfl
  have hSources : ∀ e ∈ (DependencyGraph.ofRecords records).edges, e.source ∈ records.map Record.relativePath :=
    fun e he => hNames ▸ (DependencyGraph.ofRecords_edges he).1
  have hTargets : ∀ e ∈ (DependencyGraph.ofRecords records).edges, e.target ∈ records.map Record.relativePath :=
    fun e he => hNames ▸ (DependencyGraph.ofRecords_edges he).2
  refine ⟨fun id n => ?fanIn, fun id n => ?fanOut, nodup_sorted_counts _, nodup_sorted_counts _, ?fanInSum, ?fanOutSum,
    leaders_mostImported records _ (by omega), leaders_largestFiles hIds _ (by omega)⟩
  case fanIn =>
    refine get?_ends_iff Edge.target Edge.source hIds hNodup (fun e e' hTarget hSource => ?_) hTargets hSources
      fun t ht r hr => ?_
    · exact Edge.mk.injEq .. ▸ ⟨hSource, hTarget⟩
    · rw [Record.Imports, ← DependencyGraph.mem_edges_iff hPaths hFiles hIds hr ht]
      constructor
      · exact fun he => ⟨_, he, rfl, rfl⟩
      · rintro ⟨e, he, hTarget, hSource⟩
        rwa [← hTarget, ← hSource]
  case fanOut =>
    refine get?_ends_iff Edge.source Edge.target hIds hNodup (fun e e' hSource hTarget => ?_) hSources hTargets
      fun r hr t ht => ?_
    · exact Edge.mk.injEq .. ▸ ⟨hSource, hTarget⟩
    · rw [Record.Imports, ← DependencyGraph.mem_edges_iff hPaths hFiles hIds hr ht]
      constructor
      · exact fun he => ⟨_, he, rfl, rfl⟩
      · rintro ⟨e, he, hSource, hTarget⟩
        rwa [← hSource, ← hTarget]
  case fanInSum =>
    rw [← List.length_map Edge.target]
    exact sum_sorted_counts _
  case fanOutSum =>
    rw [← List.length_map Edge.source]
    exact sum_sorted_counts _

namespace Sample

/-- Three files. The first imports the second twice; two are of equal size,
and two are imported by one file each. -/
def tied : List Record := [
  { path := "/p/b.ts", relativePath := "b.ts", lineCount := 9, imports := [
      { source := "./c", resolved := some "/p/c.ts", kind := .inside }] },
  { path := "/p/c.ts", relativePath := "c.ts", lineCount := 7, imports := [
      { source := "./a", resolved := some "/p/a.ts", kind := .inside },
      { source := "./gone", kind := .inside }] },
  { path := "/p/a.ts", relativePath := "a.ts", lineCount := 7, imports := [
      { source := "./b", resolved := some "/p/b.ts", kind := .inside },
      { source := "./b.ts", resolved := some "/p/b.ts", kind := .inside },
      { source := "./c", resolved := some "/p/c.ts", kind := .inside }] }]

def figures : Metrics := ofRecords tied (.ofRecords tied) 2

/-- Repeated imports count once, and ties are broken by name. -/
theorem ties_counted : (∀ r ∈ tied, r.path ≠ "") ∧ (tied.map Record.path).Nodup ∧
    (tied.map Record.relativePath).Nodup ∧ Couples tied (DependencyGraph.ofRecords tied).edges 2 figures ∧
    figures.fanIn = ([("a.ts", 1), ("b.ts", 1), ("c.ts", 2)] : Assoc Text Int) ∧
    figures.fanOut = ([("a.ts", 2), ("b.ts", 1), ("c.ts", 1)] : Assoc Text Int) ∧ figures.mostImported = ["c.ts", "a.ts"] ∧
    figures.largestFiles = [⟨"b.ts", 9⟩, ⟨"a.ts", 7⟩] := by
  have hPaths : ∀ r ∈ tied, r.path ≠ "" := by decide
  have hFiles : (tied.map Record.path).Nodup := by decide
  have hIds : (tied.map Record.relativePath).Nodup := by decide
  have hCouples := coupling_counted hPaths hFiles hIds 2 (by decide)
  exact ⟨hPaths, hFiles, hIds, hCouples, by decide, by decide, by decide, by decide⟩

end Sample

end Metrics

end SourceAtlas
