import SourceAtlas.Proofs.Legibility
import SourceAtlas.Report.Diagram
import SourceAtlas.Report.Markdown

/-!
The texts that show a report. They put words and figures around what the report says, so where all
that is made of strings they are strings.
-/
namespace SourceAtlas

open Text

theorem WarningKind.heading_isString (k : WarningKind) : k.heading.isString = true := by cases k <;> rfl

/-- Replacing a sign by a string leaves a string one. -/
theorem Text.isString_replaceChar {c : Sign} {extra t : Text} (hExtra : extra.isString = true)
    (hString : t.isString = true) : (replaceChar c extra t).isString = true := by
  rw [isString, List.all_eq_true] at hExtra hString ⊢
  intro s hs
  obtain ⟨x, hx, hs⟩ := List.mem_flatMap.mp hs
  split at hs
  · exact hExtra s hs
  · exact List.mem_singleton.mp hs ▸ hString x hx

theorem Text.isString_counted (count noun : String) : (counted count noun).isString = true := by
  rw [counted]
  split <;> simp

/-- What every step on a list gives has a property if each step gives only
what has it. -/
theorem all_of_mapM {α β ε : Type} {f : α → Except ε β} {P : β → Prop} {xs : List α} {ys : List β}
    (hEach : ∀ x ∈ xs, ∀ y, f x = .ok y → P y) (hRun : xs.mapM f = .ok ys) : ∀ y ∈ ys, P y := by
  intro y hy
  obtain ⟨x, hx, hSame⟩ := exists_of_forall₂_right (forall₂_of_mapM hRun) hy
  exact hEach x hx y hSame

namespace Diagram

variable {g : DependencyGraph} {line : Text → Text → Text} {lines : List Text} {text : Text}

/-- The mark of a node in a drawing is made of a letter and digits. -/
theorem markOf_isString {ids : Assoc Text Nat} {id mark : Text} (hMark : markOf ids id = .ok mark) :
    mark.isString = true := by
  rw [markOf] at hMark
  split at hMark
  · obtain rfl := Except.ok.inj hMark
    simp
  · cases hMark

/-- The lines of nodes are strings if the names are and a line adds nothing
that is none. -/
theorem nodeLines_isString (hNodes : ∀ n ∈ g.nodes, n.id.isString = true)
    (hLine : ∀ mark id, mark.isString = true → id.isString = true → (line mark id).isString = true)
    (hLines : nodeLines g line = .ok lines) : ∀ l ∈ lines, l.isString = true := by
  refine all_of_mapM (fun n hn l hl => ?_) hLines
  cases hMark : markOf (numbers g) n.id with
  | error id =>
      rw [hMark] at hl
      cases hl
  | ok mark =>
      rw [hMark] at hl
      exact Except.ok.inj hl ▸ hLine mark n.id (markOf_isString hMark) (hNodes n hn)

/-- The lines of edges are made from marks, and so they are strings whatever
the names are. -/
theorem edgeLines_isString
    (hLine : ∀ source target, source.isString = true → target.isString = true → (line source target).isString = true)
    (hLines : edgeLines g line = .ok lines) : ∀ l ∈ lines, l.isString = true := by
  refine all_of_mapM (fun e he l hl => ?_) hLines
  cases hSource : markOf (numbers g) e.source with
  | error id =>
      rw [hSource] at hl
      cases hl
  | ok source =>
      cases hTarget : markOf (numbers g) e.target with
      | error id =>
          rw [hSource, hTarget] at hl
          cases hl
      | ok target =>
          rw [hSource, hTarget] at hl
          exact Except.ok.inj hl ▸ hLine source target (markOf_isString hSource) (markOf_isString hTarget)

theorem lineText_isString (hLines : ∀ l ∈ lines, l.isString = true) : (lineText lines).isString = true := by
  rw [lineText, isString_append, isString_intercalate (isString_ofString _), isString_ofString, Bool.and_true,
    List.all_eq_true]
  exact hLines

/-- A drawing as a flowchart is a string if the names of its nodes are. -/
theorem mermaid_isString (hNodes : ∀ n ∈ g.nodes, n.id.isString = true) (hText : mermaid g = .ok text) :
    text.isString = true := by
  obtain ⟨nodes, hNodeLines, hRest⟩ := exists_of_bind_eq_ok hText
  obtain ⟨edges, hEdgeLines, hText⟩ := exists_of_bind_eq_ok hRest
  obtain rfl := Except.ok.inj hText
  refine lineText_isString (List.forall_mem_append.mpr ⟨List.forall_mem_append.mpr ⟨by simp, ?_⟩, ?_⟩)
  · refine nodeLines_isString hNodes (fun mark id hMark hId => ?_) hNodeLines
    simp [hMark, mermaidLabel, isString_replaceChar (isString_ofString _) hId]
  · exact edgeLines_isString (fun source target hSource hTarget => by simp [hSource, hTarget]) hEdgeLines

/-- A drawing in DOT is a string if the names of its nodes are. -/
theorem dot_isString (hNodes : ∀ n ∈ g.nodes, n.id.isString = true) (hText : dot g = .ok text) :
    text.isString = true := by
  obtain ⟨nodes, hNodeLines, hRest⟩ := exists_of_bind_eq_ok hText
  obtain ⟨edges, hEdgeLines, hText⟩ := exists_of_bind_eq_ok hRest
  obtain rfl := Except.ok.inj hText
  have hLabel {id : Text} (hId : id.isString = true) : (dotLabel id).isString = true :=
    isString_replaceChar (isString_ofString _) (isString_replaceChar (isString_ofString _) hId)
  refine lineText_isString ?_
  simp only [List.forall_mem_append]
  refine ⟨⟨⟨⟨by simp, ?_⟩, by split <;> simp⟩, ?_⟩, by simp⟩
  · refine nodeLines_isString hNodes (fun mark id hMark hId => ?_) hNodeLines
    simp [hMark, hLabel hId]
  · exact edgeLines_isString (fun source target hSource hTarget => by simp [hSource, hTarget]) hEdgeLines

end Diagram

/-- A report of which every text that its forms show is a string. -/
structure Report.Legible (r : Report) : Prop where
  project : r.projectPath.isString = true
  analyzedAt : r.analyzedAt.isString = true
  roles : ∀ p ∈ r.metrics.roleCounts, p.1.isString = true
  largest : ∀ f ∈ r.metrics.largestFiles, f.path.isString = true
  imported : ∀ id ∈ r.metrics.mostImported, id.isString = true
  modules : ∀ m ∈ r.inventory.modules, m.name.isString = true ∧ m.path.isString = true
  components : ∀ c ∈ r.inventory.components,
    c.name.isString = true ∧ c.path.isString = true ∧ ∀ s ∈ c.selector, s.isString = true
  services : ∀ s ∈ r.inventory.services, s.name.isString = true ∧ s.path.isString = true
  nodes : ∀ n ∈ r.graph.nodes, n.id.isString = true
  cycles : ∀ c ∈ r.cycles, ∀ m ∈ c.members, m.isString = true
  warnings : ∀ m ∈ r.warnings, m.message.isString = true ∧ ∀ p ∈ m.path, p.isString = true

/-- A report with a legible document is legible. -/
theorem Report.legible_of_toDatum {r : Report} (hLegible : r.toDatum.legible = true) : r.Legible := by
  simp only [toDatum, Datum.legible_table, List.all_cons, List.all_nil, isString_ofString, Datum.legible_text,
    Datum.legible_int, Bool.true_and, Bool.and_true, Bool.and_eq_true, Warning.toDatums_legible_iff,
    Cycle.toDatums_legible_iff] at hLegible
  obtain ⟨hProject, hTime, -, hMetrics, hInventory, -, hGraph, hCycles, hWarnings⟩ := hLegible
  simp only [Metrics.toDatum, Metrics.figures, Datum.legible_table, List.all_cons, List.all_nil, isString_ofString,
    Datum.legible_texts, Datum.legible_float, Datum.legible_listOf, Datum.legible_text, Datum.legible_int, List.all_map,
    Function.comp_apply, Bool.true_and, Bool.and_true, Bool.and_eq_true, List.all_eq_true] at hMetrics
  simp only [Inventory.toDatum, ModuleEntry.toDatum, ComponentEntry.toDatum, ServiceEntry.toDatum, Datum.legible_table,
    List.all_cons, List.all_nil, isString_ofString, Datum.legible_listOf, Datum.legible_text, Datum.legible_textOrNull,
    Bool.true_and, Bool.and_true, Bool.and_eq_true, List.all_eq_true, Option.mem_toList] at hInventory
  simp only [DependencyGraph.toDatum, Node.toDatum, Datum.legible_table, List.all_cons, List.all_nil, isString_ofString,
    Datum.legible_listOf, Datum.legible_text, Bool.true_and, Bool.and_true, Bool.and_eq_true, List.all_eq_true] at hGraph
  obtain ⟨hLargest, hRoles, -, -, hImported⟩ := hMetrics
  obtain ⟨hModules, hComponents, hServices⟩ := hInventory
  exact ⟨hProject, hTime, hRoles, hLargest, hImported, fun m hm => ⟨(hModules m hm).1, (hModules m hm).2.1⟩,
    fun c hc => ⟨(hComponents c hc).1, (hComponents c hc).2.1, (hComponents c hc).2.2.1⟩,
    fun s hs => ⟨(hServices s hs).1, (hServices s hs).2.1⟩, fun n hn => (hGraph.1 n hn).1, hCycles, hWarnings⟩

namespace Markdown

variable {r : Report} {lines : List Text} {text : Text}

/-- Lines of which every one is a string. -/
def Plain (lines : List Text) : Prop := ∀ l ∈ lines, l.isString = true

theorem row_isString {cells : List Text} (hCells : ∀ c ∈ cells, c.isString = true) : (row cells).isString = true := by
  rw [row, isString_append, isString_append, isString_intercalate (isString_ofString _), List.all_eq_true.mpr hCells]
  simp

/-- A table of strings has lines that are strings. -/
theorem tableLines_plain {headers : List Text} {rows : List (List Text)} (hHeaders : ∀ h ∈ headers, h.isString = true)
    (hRows : ∀ cells ∈ rows, ∀ c ∈ cells, c.isString = true) : Plain (tableLines headers rows) := by
  have hRule : (Text.intercalate "|" (List.replicate headers.length "---")).isString = true := by
    rw [isString_intercalate (isString_ofString _)]
    simp
  simp only [Plain, tableLines, List.forall_mem_append, List.forall_mem_cons, List.forall_mem_map]
  exact ⟨⟨⟨row_isString hHeaders, by simp [hRule], by simp⟩, fun cells hCells => row_isString (hRows cells hCells)⟩,
    by simp⟩

/-- The lines about cycles are strings if the names of all members are. -/
theorem cycleLines_plain {cycles : List Cycle} (hCycles : ∀ c ∈ cycles, ∀ m ∈ c.members, m.isString = true)
    (hLines : cycleLines cycles = .ok lines) : Plain lines := by
  rw [cycleLines] at hLines
  split at hLines
  · obtain rfl := Except.ok.inj hLines
    simp [Plain]
  · obtain ⟨sections, hSections, hFlat⟩ := exists_of_bind_eq_ok hLines
    obtain rfl := Except.ok.inj hFlat
    simp only [Plain, List.mem_flatten, forall_exists_index, and_imp]
    rintro l s hs hl
    refine all_of_mapM (P := Plain) (fun p hp s hSection => ?_) hSections s hs l hl
    obtain ⟨i, hi, rfl⟩ := List.mem_mapIdx.mp hp
    have hMembers := hCycles _ (List.getElem_mem hi)
    rw [cycleSection] at hSection
    split at hSection
    · cases hSection
    · next first rest hFirst =>
      obtain rfl := Except.ok.inj hSection
      have hMark : (severityMark cycles[i].severity).isString = true := by cases cycles[i].severity <;> rfl
      simp only [Plain, List.forall_mem_append, List.forall_mem_cons, List.mem_mapIdx]
      refine ⟨⟨⟨?_, by simp⟩, ?_⟩, ?_, by simp⟩
      · simp [hMark, CycleKind.word_isString, countText, isString_counted]
      · rintro _ ⟨j, hj, rfl⟩
        simp [countText, hMembers _ (List.getElem_mem hj)]
      · simp [hMembers first (hFirst ▸ List.mem_cons_self ..)]

/-- The lines about warnings are strings if the messages are and the paths
they are about. -/
theorem warningLines_plain {warnings : List Warning}
    (hWarnings : ∀ m ∈ warnings, m.message.isString = true ∧ ∀ p ∈ m.path, p.isString = true) :
    Plain (warningLines warnings) := by
  rw [warningLines]
  split
  · simp [Plain]
  · simp only [Plain, List.forall_mem_append, List.forall_mem_cons, List.forall_mem_map]
    refine ⟨⟨⟨by simp [countText], by simp⟩, fun m hm => ?_⟩, by simp⟩
    obtain ⟨hMessage, hPath⟩ := hWarnings m hm
    rw [warningLine]
    cases hPlace : m.path with
    | none => simp [hMessage, WarningKind.heading_isString]
    | some p =>
        have hName := hPath p hPlace
        dsimp only
        split <;> simp [hMessage, hName, WarningKind.heading_isString]

theorem entryLines_plain {heading : Text} (hHeading : heading.isString = true) (hLines : Plain lines) :
    Plain (entryLines heading lines) := by
  simp only [Plain, entryLines, List.forall_mem_append, List.forall_mem_cons]
  exact ⟨⟨⟨by simp [hHeading, countText], by simp⟩, hLines⟩, by simp⟩

theorem importedLines_plain {m : Metrics} (hImported : ∀ id ∈ m.mostImported, id.isString = true)
    (hLines : importedLines m = .ok lines) : Plain lines := by
  rw [importedLines] at hLines
  split at hLines
  · obtain rfl := Except.ok.inj hLines
    simp [Plain]
  · obtain ⟨rows, hRows, hTable⟩ := exists_of_bind_eq_ok hLines
    obtain rfl := Except.ok.inj hTable
    refine List.forall_mem_append.mpr ⟨by simp, tableLines_plain (by simp) ?_⟩
    refine all_of_mapM (fun id hId cells hCells => ?_) hRows
    split at hCells
    · obtain rfl := Except.ok.inj hCells
      simp [hImported id hId]
    · cases hCells

/-- Of a legible report every part of the Markdown text has
strings for its lines. -/
theorem partLines_plain (hLegible : r.Legible) : Plain (summaryLines r) ∧ Plain (healthLines r.summary) ∧
    Plain (metricLines r.metrics) ∧ Plain (inventoryLines r.inventory) ∧ Plain (largestLines r.metrics) := by
  refine ⟨?summary, ?health, ?metrics, ?inventory, ?largest⟩
  case summary =>
    simp only [Plain, summaryLines, List.forall_mem_cons]
    refine ⟨by simp, by simp, by simp [hLegible.project], by simp, by simp, by simp, by simp, ?_, by simp⟩
    split <;> simp
  case health =>
    rw [healthLines]
    split <;> simp [Plain, healthyMessage]
  case metrics =>
    refine List.forall_mem_append.mpr ⟨by simp, ?_⟩
    split
    · simp
    · refine List.forall_mem_append.mpr ⟨by simp, tableLines_plain (by simp) (List.forall_mem_map.mpr fun p hp => ?_)⟩
      simp [hLegible.roles p hp]
  case inventory =>
    refine List.forall_mem_append.mpr ⟨List.forall_mem_append.mpr ⟨?_, ?_⟩, ?_⟩ <;>
      refine entryLines_plain (isString_ofString _) (List.forall_mem_map.mpr fun x hx => ?_)
    · simp [hLegible.modules x hx]
    · obtain ⟨hName, hPath, hSelector⟩ := hLegible.components x hx
      rw [componentLine]
      cases hShown : x.selector with
      | none => simp [hName, hPath]
      | some s =>
          have hString := hSelector s hShown
          dsimp only
          split <;> simp [hName, hPath, hString]
    · simp [hLegible.services x hx]
  case largest =>
    rw [largestLines]
    split
    · simp [Plain]
    · refine List.forall_mem_append.mpr ⟨by simp, tableLines_plain (by simp) (List.forall_mem_map.mpr fun f hf => ?_)⟩
      simp [hLegible.largest f hf]

/-- Plain lines make a string when they are put together. -/
theorem isString_lines (hPlain : Plain lines) : (Text.intercalate "\n" lines).isString = true := by
  rw [isString_intercalate (isString_ofString _), List.all_eq_true]
  exact hPlain

/-- The Markdown text of a legible report is a string, as all that is put
between its texts are strings. -/
theorem ofReport_isString (hLegible : r.Legible) (hText : ofReport r = .ok text) : text.isString = true := by
  obtain ⟨imported, hImported, hRest⟩ := exists_of_bind_eq_ok hText
  obtain ⟨cycles, hCycles, hRest⟩ := exists_of_bind_eq_ok hRest
  obtain rfl := Except.ok.inj hRest
  obtain ⟨hSummary, hHealth, hMetrics, hInventory, hLargest⟩ := partLines_plain hLegible
  refine isString_lines (List.forall_mem_append.mpr ⟨?_, warningLines_plain hLegible.warnings⟩)
  simp only [List.forall_mem_append]
  exact ⟨⟨⟨⟨⟨⟨⟨⟨by simp [hLegible.analyzedAt], hSummary⟩, hHealth⟩, hMetrics⟩, hInventory⟩, hLargest⟩,
    importedLines_plain hLegible.imported hImported⟩, by simp [countText]⟩, cycleLines_plain hLegible.cycles hCycles⟩

/-- So is that of its cycles. -/
theorem cyclesOfReport_isString (hLegible : r.Legible) (hText : cyclesOfReport r = .ok text) :
    text.isString = true := by
  have hShown {title cycles : List Text} (hTitle : Plain title) (hCycles : Plain cycles) :
      (Text.intercalate "\n" (title ++ cycles ++ warningLines r.warnings)).isString = true :=
    isString_lines (List.forall_mem_append.mpr
      ⟨List.forall_mem_append.mpr ⟨hTitle, hCycles⟩, warningLines_plain hLegible.warnings⟩)
  rw [cyclesOfReport] at hText
  split at hText
  · obtain rfl := Except.ok.inj hText
    exact hShown (by simp [Plain, countText]) (by simp [Plain, healthyMessage])
  · obtain ⟨cycles, hCycles, hRest⟩ := exists_of_bind_eq_ok hText
    obtain rfl := Except.ok.inj hRest
    exact hShown (by simp [Plain, countText]) (cycleLines_plain hLegible.cycles hCycles)

end Markdown

end SourceAtlas
