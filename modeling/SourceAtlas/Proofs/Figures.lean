import SourceAtlas.Proofs.Analysis.Coherence
import SourceAtlas.Proofs.Coupling
import SourceAtlas.Proofs.Json.Range
import SourceAtlas.Proofs.Outline.Figures
import SourceAtlas.Report.Document

/-!
How large the figures of records and reports can be, and that documents hold them. A record is bounded
by the bytes of its file; what a report counts are records, edges between them, cycles and warnings.
-/
namespace SourceAtlas

open Text

/-- A record whose figures stay within a number of bytes. -/
structure Record.Within (n : Nat) (r : Record) : Prop where
  lineCount : Bounded (n + 1) r.lineCount
  imports : ∀ i ∈ r.imports, Bounded (n + 1) i.line
  classes : ∀ c ∈ r.classes, Bounded (n + 1) c.line
  functions : ∀ f ∈ r.functions, Bounded (n + 1) f.line ∧ Bounded (n + 1) f.parameters
  members : r.functions.length + r.classes.length ≤ n

/-- Giving a file its role counts nothing more. -/
theorem Record.Within.classify {n : Nat} {r : Record} (within : r.Within n) :
    (Classification.classify r).Within n :=
  ⟨within.lineCount, within.imports, within.classes, within.functions, within.members⟩

namespace Extraction

variable {w : World} {path root : Path} {extensions : List Text} {bytes : List UInt8}

/-- A record of a failure counts lines only. -/
theorem failed_within {n lineCount : Nat} (hLines : lineCount ≤ n + 1) (fault : ExtractionFault) :
    (failed path root lineCount fault).Within n where
  lineCount := bounded_natCast hLines
  imports := by simp [failed]
  classes := by simp [failed]
  functions := by simp [failed]
  members := Nat.zero_le _

/-- What the bytes of a file say stays within their number. -/
theorem read_within (dialect : Syntax.Dialect) (bytes : List UInt8) :
    (read dialect bytes).lineCount ≤ bytes.length + 1 ∧
      ∀ o, (read dialect bytes).outline = .ok o → o.Within bytes.length := by
  rw [read]
  split
  · refine ⟨Nat.zero_le _, fun o hOutline => ?_⟩
    cases hOutline
  · next cs hDecode =>
    have hLength := Utf8.length_decode_le hDecode
    refine ⟨Nat.add_le_add_right (List.count_le_length.trans hLength) 1, fun o hOutline => ?_⟩
    dsimp only at hOutline
    split at hOutline
    · cases hOutline
    · next t hParse =>
      obtain rfl := Except.ok.inj hOutline
      obtain ⟨hImports, hClasses, hFunctions, hMembers⟩ := Outline.ofTree_within hParse
      have hMore : cs.length + 1 ≤ bytes.length + 1 := Nat.add_le_add_right hLength 1
      exact ⟨fun site hSite => (hImports site hSite).trans hMore, fun c hc => (hClasses c hc).mono hMore,
        fun f hf => (hFunctions f hf).imp (·.mono hMore) (·.mono hMore), hMembers.trans hLength⟩

/-- The figures of a record stay within the bytes of the file. -/
theorem record_within {r : Record} (hRecord : record w path root extensions bytes = .ok r) :
    r.Within bytes.length := by
  obtain ⟨hLines, hOutlines⟩ := read_within (dialectOf path) bytes
  rw [record] at hRecord
  split at hRecord
  · obtain rfl := Except.ok.inj hRecord
    exact failed_within hLines _
  · next o hOutline =>
    split at hRecord
    · cases hRecord
    · next imports hImports =>
      obtain rfl := Except.ok.inj hRecord
      have within := hOutlines o hOutline
      refine ⟨bounded_natCast hLines, fun i hi => ?_, within.classes, within.functions, within.members⟩
      obtain ⟨site, hSite, hResolve⟩ := exists_of_forall₂_right (forall₂_of_mapM hImports) hi
      rw [(resolveSite_eq_ok hResolve).2.1]
      exact bounded_natCast (within.imports site hSite)

end Extraction

namespace Metrics

/-- A count is of a name that occurs, and no more than the names. -/
theorem counts_bounded {names : List Text} {p : Text × Int} (hp : p ∈ counts names) :
    Bounded (names.count p.1) p.2 := by
  have hGet := (Assoc.get?_eq_some_iff (nodup_counts names)).mpr hp
  rw [get?_counts] at hGet
  split at hGet
  · rw [← Option.some.inj hGet]
    exact bounded_natCast (Nat.le_refl _)
  · cases hGet

/-- There are no more edges at a node than nodes at their other ends. -/
theorem count_end_le {edges : List Edge} (hNodup : edges.Nodup) {ids : List Text} {near : Edge → Text}
    (far : Edge → Text)
    (hFar : ∀ e ∈ edges, far e ∈ ids) (hEnds : ∀ e e', near e = near e' → far e = far e' → e = e') (id : Text) :
    (edges.map near).count id ≤ ids.length := by
  have hNodes : (edges.filter fun e => near e == id).map far ⊆ ids := by
    intro u hu
    obtain ⟨e, he, rfl⟩ := List.mem_map.mp hu
    exact hFar e (List.mem_of_mem_filter he)
  rw [count_near]
  exact (List.subperm_of_subset (nodup_far hNodup hEnds id) hNodes).length_le

/-- The figures of records and their graph stay within the number of records
and the lines of each. -/
structure Within (n : Nat) (m : Metrics) : Prop where
  largestFiles : ∀ f ∈ m.largestFiles, Bounded n f.lines
  roleCounts : ∀ p ∈ m.roleCounts, Bounded n p.2
  fanIn : ∀ p ∈ m.fanIn, Bounded n p.2
  fanOut : ∀ p ∈ m.fanOut, Bounded n p.2

/-- The figures over records stay within the number of records and
the lines of each. -/
theorem ofRecords_within {records : List Record} {n : Nat} (hCount : records.length ≤ n)
    (hLines : ∀ r ∈ records, Bounded n r.lineCount) (top : Int) :
    (ofRecords records (.ofRecords records) top).Within n := by
  have hEdges : (DependencyGraph.ofRecords records).edges.Nodup :=
    DependencyGraph.edges_ofRecords records ▸ DependencyGraph.firsts_nodup _ _
  have hNodes : ((DependencyGraph.ofRecords records).nodes.map Node.id).length ≤ n := by
    simpa [DependencyGraph.ofRecords] using hCount
  have hSorted {names : List Text} (hNames : ∀ name, names.count name ≤ n) :
      ∀ p ∈ Assoc.sorted (counts names), Bounded n p.2 := by
    intro p hp
    exact (counts_bounded (Sorting.mem_sort.mp hp)).mono (hNames p.1)
  refine ⟨fun f hf => ?_, ?_, ?_, ?_⟩
  · obtain ⟨r, hr, rfl⟩ := List.mem_map.mp hf
    exact hLines r (Sorting.mem_sort.mp (mem_takeTop hr))
  · refine hSorted fun name => List.count_le_length.trans ?_
    rwa [List.length_map]
  · refine hSorted fun id => (count_end_le hEdges Edge.source
      (fun e he => (DependencyGraph.ofRecords_edges he).1) (fun e e' ht hs => ?_) id).trans hNodes
    cases e
    simp_all
  · refine hSorted fun id => (count_end_le hEdges Edge.target
      (fun e he => (DependencyGraph.ofRecords_edges he).2) (fun e e' hs ht => ?_) id).trans hNodes
    cases e
    simp_all

end Metrics

/-- Cycles have members of their own, so there are no more
of them than nodes. -/
theorem Cycle.length_detect_le {g : DependencyGraph} {cycles : List Cycle} (hDetect : detect g = .ok cycles)
    (hMembers : ∀ c ∈ cycles, c.members ≠ []) : cycles.length ≤ g.nodes.length := by
  obtain ⟨hNodes, hApart⟩ := detect_members hDetect
  have hNodup : (cycles.flatMap Cycle.members).Nodup :=
    List.nodup_flatMap.mpr ⟨fun c hc => (hNodes c hc).1, hApart⟩
  have hSubset : cycles.flatMap Cycle.members ⊆ g.nodes.map Node.id := by
    intro m hm
    obtain ⟨c, hc, hm⟩ := List.mem_flatMap.mp hm
    exact (hNodes c hc).2 m hm
  calc cycles.length = (cycles.map fun _ => 1).sum := by simp
    _ ≤ (cycles.map fun c => c.members.length).sum :=
      List.sum_le_sum fun c hc => List.length_pos_iff.mpr (hMembers c hc)
    _ = (cycles.flatMap Cycle.members).length := List.length_flatMap.symm
    _ ≤ (g.nodes.map Node.id).length := (List.subperm_of_subset hNodup hSubset).length_le
    _ = g.nodes.length := List.length_map _

/-- Documents hold figures below the first that takes more than 64 bits. -/
theorem inRange_of_bounded {n : Nat} (hSmall : n < 2 ^ 64) {i : Int} (hBounded : Bounded n i) :
    Json.inRange i = true := by
  obtain ⟨hLow, hHigh⟩ := hBounded
  simp only [Json.inRange, Bool.and_eq_true, decide_eq_true_eq]
  omega

namespace Datum

@[simp]
theorem ranged_texts (ss : List Text) : (texts ss).ranged = true := by simp [texts, ranged_list]

@[simp]
theorem ranged_textOrNull (s : Option Text) : (textOrNull s).ranged = true := by cases s <;> rfl

theorem ranged_listOf {α : Type} {f : α → Datum} {xs : List α} (hEach : ∀ x ∈ xs, (f x).ranged = true) :
    (Datum.list (xs.map f)).ranged = true := by
  rw [ranged_list, List.all_map, List.all_eq_true]
  exact hEach

end Datum

section Documents

variable {n : Nat} (hSmall : n < 2 ^ 64)

include hSmall

theorem ClassInfo.toDatum_ranged {c : ClassInfo} (hLine : Bounded n c.line) : c.toDatum.ranged = true := by
  have hDecoration : ((c.decoration.map Decoration.toDatum).getD .null).ranged = true := by
    rcases c.decoration with _ | d
    · rfl
    · rcases hStandalone : d.standalone with _ | b <;>
        simp [Decoration.toDatum, Datum.ranged_table, hStandalone]
  simp [toDatum, Datum.ranged_table, hDecoration, inRange_of_bounded hSmall hLine]

/-- A record within a bound that documents hold is in range. -/
theorem Record.Within.toDatum_ranged {m : Nat} {r : Record} (within : r.Within m) (hLess : m + 1 ≤ n) :
    r.toDatum.ranged = true := by
  have hRange {i : Int} (hBounded : Bounded (m + 1) i) : Json.inRange i = true :=
    inRange_of_bounded hSmall (hBounded.mono hLess)
  have hImports : (Datum.list (r.imports.map Import.toDatum)).ranged = true :=
    Datum.ranged_listOf fun i hi => by simp [Import.toDatum, Datum.ranged_table, hRange (within.imports i hi)]
  have hExports : (Datum.list (r.exports.map Export.toDatum)).ranged = true :=
    Datum.ranged_listOf fun e _ => by simp [Export.toDatum, Datum.ranged_table]
  have hClasses : (Datum.list (r.classes.map ClassInfo.toDatum)).ranged = true :=
    Datum.ranged_listOf fun c hc => ClassInfo.toDatum_ranged hSmall ((within.classes c hc).mono hLess)
  have hFunctions : (Datum.list (r.functions.map FunctionInfo.toDatum)).ranged = true := by
    refine Datum.ranged_listOf fun f hf => ?_
    obtain ⟨hLine, hParameters⟩ := within.functions f hf
    simp [FunctionInfo.toDatum, Datum.ranged_table, hRange hLine, hRange hParameters]
  simp [toDatum, Datum.ranged_table, hImports, hExports, hClasses, hFunctions, hRange within.lineCount]

theorem Metrics.Within.toDatum_ranged {m : Metrics} (within : m.Within n) : m.toDatum.ranged = true := by
  have hFigures {fs : Assoc Text Int} (hEach : ∀ p ∈ fs, Bounded n p.2) : (figures fs).ranged = true := by
    rw [figures, Datum.ranged_table, List.all_map, List.all_eq_true]
    exact fun p hp => inRange_of_bounded hSmall (hEach p hp)
  have hLargest : (Datum.list (m.largestFiles.map fun f =>
      .table [("path", .text f.path), ("lines", .int f.lines)])).ranged = true :=
    Datum.ranged_listOf fun f hf => by
      simp [Datum.ranged_table, inRange_of_bounded hSmall (within.largestFiles f hf)]
  simp [toDatum, Datum.ranged_table, hLargest, hFigures within.roleCounts, hFigures within.fanIn, hFigures within.fanOut]

end Documents

/-- A summary whose figures stay within a bound. -/
structure Summary.Within (n : Nat) (s : Summary) : Prop where
  totalFiles : Bounded n s.totalFiles
  totalLines : Bounded n s.totalLines
  totalFunctions : Bounded n s.totalFunctions
  totalClasses : Bounded n s.totalClasses
  cacheHits : Bounded n s.cacheHits
  cacheMisses : Bounded n s.cacheMisses
  errorCycles : Bounded n s.errorCycles
  warningCycles : Bounded n s.warningCycles
  warningCount : Bounded n s.warningCount

/-- A summary within a bound that documents hold is in range. -/
theorem Summary.Within.toDatum_ranged {n : Nat} (hSmall : n < 2 ^ 64) {s : Summary} (within : s.Within n) :
    s.toDatum.ranged = true := by
  obtain ⟨hFiles, hLines, hFunctions, hClasses, hHits, hMisses, hErrors, hWarnings, hCount⟩ := within
  have hRange {i : Int} (hBounded : Bounded n i) := inRange_of_bounded hSmall hBounded
  simp [toDatum, Datum.ranged_table, hRange hFiles, hRange hLines, hRange hFunctions, hRange hClasses, hRange hHits,
    hRange hMisses, hRange hErrors, hRange hWarnings, hRange hCount]

end SourceAtlas
