import SourceAtlas.Proofs.Drawing

/-!
What a Mermaid drawing shows of its graph. A label writes a quote as an entity and leaves all else as it
is, an entity that stands in a name too. So a drawing tells names apart up to entities, and it tells
graphs apart whose names hold none.
-/
namespace SourceAtlas.Diagram.Flowchart

open Number

def entity : Text := "#quot;"

def shownSigns : List Sign → List Sign
  | .char '#' :: .char 'q' :: .char 'u' :: .char 'o' :: .char 't' :: .char ';' :: rest => .char '"' :: shownSigns rest
  | c :: rest => c :: shownSigns rest
  | [] => []

/-- A name as the drawing shows it. -/
def shown (name : Text) : Text := Text.ofList (shownSigns name.toList)

/-- A name without an entity. -/
def Plain (name : Text) : Prop := Text.contains entity name = false

instance (name : Text) : Decidable (Plain name) := inferInstanceAs (Decidable (_ = _))

def labelSigns (cs : List Sign) : List Sign := cs.flatMap fun c => if c = Sign.char '"' then entity.toList else [c]

/-- A label is written sign by sign. -/
theorem mermaidLabel_toList (name : Text) : (mermaidLabel name).toList = labelSigns name.toList := by
  rw [mermaidLabel, Text.replaceChar, Text.toList_ofList]
  rfl

/-- A quote is written as an entity. -/
theorem labelSigns_quote (cs : List Sign) :
    labelSigns (Sign.char '"' :: cs) = entity.toList ++ labelSigns cs := rfl

/-- Any other sign is written as it is, so that an entity in a name
stands as it was. -/
theorem labelSigns_cons {c : Sign} (hOther : c ≠ Sign.char '"') (cs : List Sign) :
    labelSigns (c :: cs) = c :: labelSigns cs := by
  rw [labelSigns, List.flatMap_cons, if_neg hOther, List.singleton_append, labelSigns]

/-- What does not begin an entity stands in the label as in the text. -/
theorem exists_of_labelSigns {cs rest : List Sign} {c : Sign} (hLabel : labelSigns cs = c :: rest)
    (hInside : Sign.char '#' ≠ c) : ∃ more, cs = c :: more ∧ labelSigns more = rest := by
  rcases cs with _ | ⟨d, more⟩
  · cases hLabel
  · by_cases hQuote : d = Sign.char '"'
    · rw [hQuote, labelSigns_quote] at hLabel
      exact absurd (List.cons.inj hLabel).1 hInside
    · rw [labelSigns_cons hQuote] at hLabel
      obtain ⟨rfl, rfl⟩ := List.cons.inj hLabel
      exact ⟨more, rfl, rfl⟩

/-- What stands in a label without the first character of an entity stands
in the text. -/
theorem exists_append_of_labelSigns {part : List Sign} (hInside : Sign.char '#' ∉ part) {cs rest : List Sign}
    (hLabel : labelSigns cs = part ++ rest) : ∃ more, cs = part ++ more := by
  induction part generalizing cs with
  | nil => exact ⟨cs, rfl⟩
  | cons c part ih =>
      rw [List.mem_cons, not_or] at hInside
      obtain ⟨more, rfl, hMore⟩ := exists_of_labelSigns hLabel hInside.1
      obtain ⟨last, rfl⟩ := ih hInside.2 hMore
      exact ⟨last, rfl⟩

/-- An entity is read as a quote. -/
theorem shownSigns_entity (rest : List Sign) :
    shownSigns (entity.toList ++ rest) = Sign.char '"' :: shownSigns rest := rfl

/-- A sign that begins no entity is read as it is. -/
theorem shownSigns_cons {c : Sign} {rest : List Sign}
    (hOther : ∀ more, c = Sign.char '#' → rest = ("quot;" : Text).toList ++ more → False) :
    shownSigns (c :: rest) = c :: shownSigns rest := by
  rw [shownSigns]
  exact hOther

/-- A label shows its text: no entity in it comes from two neighbours. -/
theorem shownSigns_labelSigns (cs : List Sign) : shownSigns (labelSigns cs) = shownSigns cs := by
  fun_induction shownSigns cs with
  | case1 rest ih =>
      rw [← ih]
      rfl
  | case2 c rest hOther ih =>
      by_cases hQuote : c = Sign.char '"'
      · rw [hQuote, labelSigns_quote, shownSigns_entity, ih]
      · rw [labelSigns_cons hQuote, shownSigns_cons, ih]
        -- an entity that begins here stands in the text already
        intro more hHash hLabel
        have hPart : Sign.char '#' ∉ ("quot;" : Text).toList := by decide
        obtain ⟨last, hText⟩ := exists_append_of_labelSigns hPart hLabel
        exact hOther last hHash hText
  | case3 => rfl

/-- What a label shows has the same label. -/
theorem labelSigns_shownSigns (cs : List Sign) : labelSigns (shownSigns cs) = labelSigns cs := by
  fun_induction shownSigns cs with
  | case1 rest ih =>
      rw [labelSigns_quote, ih]
      rfl
  | case2 c rest _ ih =>
      rw [labelSigns, List.flatMap_cons, ← labelSigns, ih]
      rfl
  | case3 => rfl

/-- A label is shown as its name is: entities in a name are taken for quotes
all the same. -/
theorem shown_mermaidLabel (name : Text) : shown (mermaidLabel name) = shown name := by
  rw [shown, mermaidLabel_toList, shownSigns_labelSigns, shown]

/-- Names that are shown alike have one label. -/
theorem mermaidLabel_shown (name : Text) : mermaidLabel (shown name) = mermaidLabel name := by
  rw [← Text.toList_inj, mermaidLabel_toList, shown, Text.toList_ofList, labelSigns_shownSigns,
    mermaidLabel_toList]

/-- Names have one label just if they are shown alike. -/
theorem mermaidLabel_eq_iff {name name' : Text} :
    mermaidLabel name = mermaidLabel name' ↔ shown name = shown name' := by
  constructor
  · intro hLabel
    rw [← shown_mermaidLabel, hLabel, shown_mermaidLabel]
  · intro hShown
    rw [← mermaidLabel_shown, hShown, mermaidLabel_shown]

/-- A name without an entity is shown as it is. -/
theorem shown_of_plain {name : Text} (hPlain : Plain name) : shown name = name := by
  have hSigns (cs : List Sign) (hNone : Text.occursIn entity.toList cs = false) : shownSigns cs = cs := by
    fun_induction shownSigns cs with
    | case1 rest => simp [Text.occursIn, entity] at hNone
    | case2 c rest _ ih =>
        rw [Text.occursIn, Bool.or_eq_false_iff] at hNone
        rw [ih hNone.2]
    | case3 => rfl
  rw [shown, hSigns _ hPlain, Text.ofList_toList]

/-- There is no quote within a label. -/
theorem quote_notMem_labelSigns (cs : List Sign) : Sign.char '"' ∉ labelSigns cs := by
  rw [labelSigns, List.mem_flatMap]
  rintro ⟨c, -, hQuote⟩
  split at hQuote
  · revert hQuote
    decide
  · next hOther => exact hOther (List.mem_singleton.mp hQuote).symm

/-- The label up to its closing quote as it is shown, and the text
from the quote on. -/
def label (signs : List Sign) : Text × List Sign :=
  (.ofList (shownSigns (signs.takeWhile (· ≠ Sign.char '"'))), signs.dropWhile (· ≠ Sign.char '"'))

/-- The lines of a Mermaid drawing. -/
def script : Script where
  opening := "[\""
  label := mermaidLabel
  closing := "\"]"
  arrow := " --> "
  ending := ""
  read signs := some (label signs)

def heading : Text := "graph TD\n"

/-- What a drawing shows: the nodes in order, each with its number and its
name as shown, and the numbers of the ends of each edge. -/
structure Chart where
  nodes : List (Nat × Text)
  edges : List (Nat × Nat)
  deriving DecidableEq, Repr

def chart? (text : Text) : Option Chart := do
  let rest ← text.toList.dropPrefix? heading.toList
  let (nodes, rest) := many script.node? rest.length rest
  let (edges, rest) := many script.edge? rest.length rest
  if rest = [] then some ⟨nodes, edges⟩ else none

/-- A label ends at the first quote, since none stands in it. -/
theorem label_mermaidLabel (name : Text) (rest : List Sign) :
    label ((mermaidLabel name).toList ++ Sign.char '"' :: rest) = (shown name, Sign.char '"' :: rest) := by
  have hInside : ∀ c ∈ labelSigns name.toList, decide (c ≠ Sign.char '"') = true := by
    intro c hc
    refine decide_eq_true ?_
    rintro rfl
    exact quote_notMem_labelSigns _ hc
  rw [label, mermaidLabel_toList, List.takeWhile_append_of_pos hInside, List.dropWhile_append_of_pos hInside]
  simp [shown, shownSigns_labelSigns]

/-- The line of an edge ends with its second mark. -/
theorem script_edgeLine :
    (fun source target : Text => "  " ++ source ++ " --> " ++ target) = script.edgeLine := by
  funext source target
  simp [Script.edgeLine, script]

/-- The line of a node is read as its number and what is shown of its name. -/
theorem script_node? (p : Nat × Text) (rest : List Sign) :
    script.node? ((script.nodeLine (mark p.1) p.2).toList ++ Sign.char '\n' :: rest) =
      some ((p.1, shown p.2), rest) :=
  Script.node?_nodeLine (fun name rest => congrArg some (label_mermaidLabel name _)) (by decide) (by decide) p rest

/-- The line of an edge is read as the numbers of its ends. -/
theorem script_edge? (p : Nat × Nat) (rest : List Sign) :
    script.edge? ((script.edgeLine (mark p.1) (mark p.2)).toList ++ Sign.char '\n' :: rest) = some (p, rest) :=
  Script.edge?_edgeLine (by decide) (by decide) (by decide) p rest

variable {g g' : DependencyGraph} {text : Text}

def chart (g : DependencyGraph) : Chart := ⟨(numbered g).map fun p => (p.1, shown p.2), joined g⟩

def PlainNames (g : DependencyGraph) : Prop := ∀ n ∈ g.nodes, Plain n.id

instance (g : DependencyGraph) : Decidable (PlainNames g) := inferInstanceAs (Decidable (∀ n ∈ _, _))

/-- The whole text of a drawing: the heading, the nodes and the edges. -/
theorem mermaid_eq (hEnds : ∀ e ∈ g.edges, g.HasNode e.source ∧ g.HasNode e.target) :
    ∃ text, mermaid g = .ok text ∧ text.toList = heading.toList ++
      (script.nodeText (numbered g) ++ script.edgeText (joined g)) := by
  refine ⟨_, by rw [mermaid, nodeLines_eq, script_edgeLine, edgeLines_eq hEnds]; rfl, ?_⟩
  rw [lineText_toList (by simp), List.flatMap_append, List.flatMap_append, List.append_assoc]
  rfl

/-- A graph that is drawn has nodes at the ends of all edges. -/
theorem ends_of_mermaid (hMermaid : mermaid g = .ok text) :
    ∀ e ∈ g.edges, g.HasNode e.source ∧ g.HasNode e.target := by
  rw [mermaid, nodeLines_eq, script_edgeLine] at hMermaid
  rcases hEdges : edgeLines g script.edgeLine with id | lines
  · change (edgeLines g script.edgeLine >>= _) = _ at hMermaid
    rw [hEdges] at hMermaid
    cases hMermaid
  · exact ends_of_edgeLines hEdges

/-- A drawing is read as the graph as it is shown. -/
theorem chart?_mermaid (hMermaid : mermaid g = .ok text) : chart? text = some (chart g) := by
  obtain ⟨text', hMermaid', hText⟩ := mermaid_eq (ends_of_mermaid hMermaid)
  obtain rfl := Except.ok.inj (hMermaid.symm.trans hMermaid')
  have hStop : script.node? (script.edgeText (joined g)) = none := by
    rcases joined g with _ | ⟨⟨source, target⟩, more⟩
    · rfl
    · -- a line of an edge goes on with an arrow where that of a node has its label
      have hLine : script.edgeText ((source, target) :: more) = ("  " : Text).toList ++ ((mark source).toList ++
          ((" --> " : Text).toList ++ ((mark target).toList ++ Sign.char '\n' :: script.edgeText more))) := by
        simp [Script.edgeText, Script.edgeLine, script, ended]
      rw [hLine, Script.node?, List.dropPrefix?_append_of_beq _ (beq_self_eq_true _)]
      simp only [Option.bind_eq_bind, Option.bind_some]
      rw [number?_mark source (by simp [isDigit, Json.isDigit])]
      rfl
  have hNodes : many script.node? (script.nodeText (numbered g) ++ script.edgeText (joined g)).length
      (script.nodeText (numbered g) ++ script.edgeText (joined g)) =
        ((chart g).nodes, script.edgeText (joined g)) :=
    many_lines script_node? hStop rfl le_rfl
  have hEdges : many script.edge? (script.edgeText (joined g)).length (script.edgeText (joined g)) =
      (joined g, []) := by
    calc
      _ = ((joined g).map fun p => p, []) :=
        many_lines script_edge? rfl (List.append_nil _).symm le_rfl
      _ = _ := by rw [List.map_id']
  rw [chart?, hText, List.dropPrefix?_append_of_beq _ (beq_self_eq_true _)]
  simp only [Option.bind_eq_bind, Option.bind_some, hNodes, hEdges, if_true]
  rfl

/-- Names that are shown alike are drawn alike. -/
theorem nodeText_shown (ps : List (Nat × Text)) :
    script.nodeText (ps.map fun p => (p.1, shown p.2)) = script.nodeText ps := by
  have hLine (p : Nat × Text) : script.nodeLine (mark p.1) (shown p.2) = script.nodeLine (mark p.1) p.2 := by
    simp only [Script.nodeLine, script, mermaidLabel_shown]
  simp only [Script.nodeText, List.map_map, Function.comp_def, hLine]

/-- The number of a name that is no node is zero, which no node has. -/
theorem numberOf_ne_zero_iff {id : Text} : numberOf g id ≠ 0 ↔ g.HasNode id := by
  constructor
  · intro hNumber
    rw [numberOf] at hNumber
    rcases hGet : Assoc.get? id (numbers g) with _ | n
    · simp [hGet] at hNumber
    · exact hasNode_of_mark (by rw [markOf, hGet])
  · intro hNode
    obtain ⟨-, i, -, hPlace⟩ := markOf_ok (markOf_eq hNode)
    omega

/-- Whether the ends of edges are nodes shows in their numbers. -/
theorem ends_of_joined (hJoined : joined g' = joined g)
    (hEnds : ∀ e ∈ g.edges, g.HasNode e.source ∧ g.HasNode e.target) :
    ∀ e ∈ g'.edges, g'.HasNode e.source ∧ g'.HasNode e.target := by
  have hIff (h : DependencyGraph) : (∀ e ∈ h.edges, h.HasNode e.source ∧ h.HasNode e.target) ↔
      ∀ p ∈ joined h, p.1 ≠ 0 ∧ p.2 ≠ 0 := by
    rw [joined, List.forall_mem_map]
    simp only [numberOf_ne_zero_iff]
  rwa [hIff, hJoined, ← hIff]

/-- Graphs that are shown alike are drawn alike. -/
theorem mermaid_eq_of_chart (hMermaid : mermaid g = .ok text) (hChart : chart g' = chart g) :
    mermaid g' = .ok text := by
  obtain ⟨hNodes, hEdges⟩ := Chart.mk.inj hChart
  have hEnds := ends_of_mermaid hMermaid
  obtain ⟨text', hMermaid', hText'⟩ := mermaid_eq (ends_of_joined hEdges hEnds)
  obtain ⟨text'', hMermaid'', hText⟩ := mermaid_eq hEnds
  obtain rfl := Except.ok.inj (hMermaid.symm.trans hMermaid'')
  have hSame : text' = text := by
    rw [← Text.toList_inj, hText', hText, ← nodeText_shown (numbered g'), hNodes, nodeText_shown, hEdges]
  rw [hMermaid', hSame]

/-- A graph with plain names is shown as it is. -/
theorem chart_of_plain (hPlain : PlainNames g) : chart g = ⟨numbered g, joined g⟩ := by
  rw [chart, Chart.mk.injEq]
  refine ⟨?_, rfl⟩
  rw [numbered, List.map_map]
  refine List.map_congr_left fun n hn => ?_
  rw [Function.comp_apply, shown_of_plain (hPlain n hn)]

/-- Graphs have the same names and the same edges just if they have the same
numbered names and join the same numbers. -/
theorem numbered_joined_iff (hEnds : ∀ e ∈ g.edges, g.HasNode e.source ∧ g.HasNode e.target) :
    numbered g' = numbered g ∧ joined g' = joined g ↔
      g'.nodes.map Node.id = g.nodes.map Node.id ∧ g'.edges = g.edges := by
  constructor
  · rintro ⟨hNodes, hEdges⟩
    refine ⟨?_, ?_⟩
    · have hNames := congrArg (List.map Prod.snd) hNodes
      rwa [numbered, numbered, List.map_map, List.map_map] at hNames
    · have hRead := mapM_joined (ends_of_joined hEdges hEnds)
      rw [hNodes, hEdges, mapM_joined hEnds] at hRead
      exact (Option.some.inj hRead).symm
  · rintro ⟨hNames, hEdges⟩
    have hNumber : numberOf g' = numberOf g := by
      funext id
      rw [numberOf, numbers_congr hNames, numberOf]
    refine ⟨?_, by rw [joined, hEdges, hNumber, joined]⟩
    have hNumbered (h : DependencyGraph) : numbered h = (h.nodes.map Node.id).map fun id => (numberOf h id, id) := by
      rw [numbered, List.map_map]
      rfl
    rw [hNumbered, hNumbered, hNames, hNumber]

/-- What a drawing tells of its graph. -/
structure Tells (g : DependencyGraph) (text : Text) : Prop where
  /-- The names up to entities, and the edges by number, can be read, -/
  read : chart? text = some (chart g)
  /-- and just the graphs that agree in these have the drawing. -/
  same : ∀ g', mermaid g' = .ok text ↔ chart g' = chart g
  /-- Names have one label just if they agree up to entities. -/
  labels : ∀ id id', g.HasNode id → g.HasNode id' → (mermaidLabel id = mermaidLabel id' ↔ shown id = shown id')
  /-- Of plain names each has a label of its own, -/
  distinct : PlainNames g → ∀ id id', g.HasNode id → g.HasNode id' → id ≠ id' →
    mermaidLabel id ≠ mermaidLabel id'
  /-- and of graphs with plain names just those with the same names and edges have the drawing. -/
  faithful : PlainNames g → ∀ g', PlainNames g' →
    (mermaid g' = .ok text ↔ g'.nodes.map Node.id = g.nodes.map Node.id ∧ g'.edges = g.edges)

/-- A graph whose edges join nodes has a drawing, which tells the graph up
to entities in names. -/
theorem mermaid_faithful (hEnds : ∀ e ∈ g.edges, g.HasNode e.source ∧ g.HasNode e.target) :
    ∃ text, mermaid g = .ok text ∧ Tells g text := by
  obtain ⟨text, hMermaid, -⟩ := mermaid_eq hEnds
  have hSame (g' : DependencyGraph) : mermaid g' = .ok text ↔ chart g' = chart g := by
    refine ⟨fun hMermaid' => ?_, mermaid_eq_of_chart hMermaid⟩
    have hRead := chart?_mermaid hMermaid'
    rw [chart?_mermaid hMermaid] at hRead
    exact (Option.some.inj hRead).symm
  refine ⟨text, hMermaid, chart?_mermaid hMermaid, hSame, fun _ _ _ _ => mermaidLabel_eq_iff, ?_, ?_⟩
  · intro hPlain id id' hNode hNode' hOther hLabel
    obtain ⟨n, hn, rfl⟩ := List.mem_map.mp hNode
    obtain ⟨n', hn', rfl⟩ := List.mem_map.mp hNode'
    rw [mermaidLabel_eq_iff, shown_of_plain (hPlain n hn), shown_of_plain (hPlain n' hn')] at hLabel
    exact hOther hLabel
  · intro hPlain g' hPlain'
    rw [hSame, chart_of_plain hPlain, chart_of_plain hPlain', Chart.mk.injEq, numbered_joined_iff hEnds]

-- A name with an entity has the label of a name with a quote.
example : mermaidLabel "a#quot;b.ts" = mermaidLabel "a\"b.ts" := by decide

namespace Sample

/-- Names with a quote, with an entity but for its end, and with text in the
manner of a drawing. -/
def names : List Text := ["a\"b", "#quot", "d\"]\n  N1 --> N2\n"]

/-- The last file imports the first, and the second itself. -/
def quoted : DependencyGraph where
  nodes := names.map fun id => ⟨id, "/p/" ++ id, id, .unknown⟩
  edges := [⟨"d\"]\n  N1 --> N2\n", "a\"b"⟩, ⟨"#quot", "#quot"⟩]

/-- Its drawing is that of no other graph with plain names. -/
theorem quoted_told : ∃ text, mermaid quoted = .ok text ∧ chart? text = some (chart quoted) ∧
    ∀ g', PlainNames g' → mermaid g' = .ok text → g'.nodes.map Node.id = names ∧ g'.edges = quoted.edges := by
  obtain ⟨text, hMermaid, tells⟩ := mermaid_faithful (g := quoted) (by decide)
  exact ⟨text, hMermaid, tells.read, fun g' hPlain' => (tells.faithful (by decide) g' hPlain').mp⟩

end Sample

end SourceAtlas.Diagram.Flowchart
