import SourceAtlas.Proofs.Json.Scalars
import SourceAtlas.Proofs.Report

/-!
A DOT drawing shows its graph. A reader that ends a label at the first quote with no backslash before it
gets the names of the nodes and the edges back, whatever the names hold.
-/
namespace SourceAtlas.Diagram

open Number

/-- How a kind of drawing writes nodes and edges, and how a reader takes a
label off a text. -/
structure Script where
  /-- What stands between the mark of a node and its label, -/
  opening : Text
  label : Text → Text
  /-- and what stands between the label and the end of the line. -/
  closing : Text
  arrow : Text
  /-- What stands at the end of the line of an edge. -/
  ending : Text
  /-- The name that a label shows, and the text from the end of the label on. -/
  read : List Sign → Option (Text × List Sign)

def isDigit : Sign → Bool
  | .char c => Json.isDigit c
  | .byte _ => false

/-- The number in the mark of a node, and what follows the mark. -/
def number? (signs : List Sign) : Option (Nat × List Sign) :=
  (signs.dropPrefix? ("N" : Text).toList).map fun rest =>
    (Json.digitsValue ((rest.takeWhile isDigit).filterMap Sign.char?), rest.dropWhile isDigit)

/-- The line of a node: its number and its name. -/
def Script.node? (s : Script) (signs : List Sign) : Option ((Nat × Text) × List Sign) := do
  let rest ← signs.dropPrefix? ("  " : Text).toList
  let (n, rest) ← number? rest
  let rest ← rest.dropPrefix? s.opening.toList
  let (name, rest) ← s.read rest
  let rest ← rest.dropPrefix? s.closing.toList
  let rest ← rest.dropPrefix? ("\n" : Text).toList
  return ((n, name), rest)

/-- The line of an edge: the numbers of its ends. -/
def Script.edge? (s : Script) (signs : List Sign) : Option ((Nat × Nat) × List Sign) := do
  let rest ← signs.dropPrefix? ("  " : Text).toList
  let (source, rest) ← number? rest
  let rest ← rest.dropPrefix? s.arrow.toList
  let (target, rest) ← number? rest
  let rest ← rest.dropPrefix? s.ending.toList
  let rest ← rest.dropPrefix? ("\n" : Text).toList
  return ((source, target), rest)

/-- What a reader takes off the front of a text, as often as it can. -/
def many {α : Type} (read : List Sign → Option (α × List Sign)) : Nat → List Sign → List α × List Sign
  | 0, signs => ([], signs)
  | fuel + 1, signs =>
    match read signs with
    | none => ([], signs)
    | some (a, rest) =>
      let (as, last) := many read fuel rest
      (a :: as, last)

/-- The label up to its closing quote, and the text from the quote on. A
backslash keeps the sign after it. -/
def label? : List Sign → Option (List Sign × List Sign)
  | [] => none
  | .char '"' :: rest => some ([], .char '"' :: rest)
  | .char '\\' :: c :: rest => (label? rest).map fun read => (c :: read.1, read.2)
  | c :: rest => (label? rest).map fun read => (c :: read.1, read.2)

/-- The lines of a DOT drawing. -/
def dotScript : Script where
  opening := " [label=\""
  label := dotLabel
  closing := "\"];"
  arrow := " -> "
  ending := ";"
  read signs := (label? signs).map fun read => (.ofList read.1, read.2)

/-- The lines before the first node. -/
def heading : Text := "digraph Dependencies \x7b\n  rankdir=LR;\n  node [shape=box, style=rounded];\n\n"

def closing : Text := "\x7d\n"

/-- The names of the nodes in a drawing, and its edges between them. -/
def ofDot? (text : Text) : Option (List Text × List Edge) := do
  let rest ← text.toList.dropPrefix? heading.toList
  let (nodes, rest) := many dotScript.node? rest.length rest
  let rest := (rest.dropPrefix? ("\n" : Text).toList).getD rest
  let (pairs, rest) := many dotScript.edge? rest.length rest
  let edges ← pairs.mapM fun pair => do
    return (⟨← Assoc.get? pair.1 nodes, ← Assoc.get? pair.2 nodes⟩ : Edge)
  if rest = closing.toList then some (nodes.map Prod.snd, edges) else none

def escape (s : Sign) : List Sign :=
  if s = Sign.char '"' then ['\\', '"'] else if s = Sign.char '\\' then ['\\', '\\'] else [s]

/-- The label of a name is the name with each sign escaped by itself. -/
theorem dotLabel_toList (name : Text) : (dotLabel name).toList = name.toList.flatMap escape := by
  simp only [dotLabel, Text.replaceChar, Text.toList_ofList, List.flatMap_assoc]
  congr 1
  funext s
  by_cases hSlash : s = Sign.char '\\'
  · simp [escape, hSlash]
  · by_cases hQuote : s = Sign.char '"' <;> simp [escape, hSlash, hQuote]

/-- A sign that was escaped is read back as it was, before the
rest of the label. -/
theorem label?_escape (s : Sign) (rest : List Sign) :
    label? (escape s ++ rest) = (label? rest).map fun read => (s :: read.1, read.2) := by
  rw [escape]
  split_ifs with hQuote hSlash
  · rw [hQuote]
    rfl
  · rw [hSlash]
    rfl
  · rw [List.singleton_append, label?]
    · exact hQuote
    · exact fun _ _ hBackslash _ => hSlash hBackslash

/-- A label ends where its text ends. -/
theorem label?_dotLabel (name : Text) (rest : List Sign) :
    label? ((dotLabel name).toList ++ Sign.char '"' :: rest) = some (name.toList, Sign.char '"' :: rest) := by
  rw [dotLabel_toList]
  induction name.toList with
  | nil => rfl
  | cons s signs ih => rw [List.flatMap_cons, List.append_assoc, label?_escape, ih, Option.map_some]

def mark (n : Nat) : Text := "N" ++ Style.natText n

/-- The number in a mark is read back, if no digit follows it. -/
theorem number?_mark (n : Nat) {rest : List Sign} (hNext : ∀ s ∈ rest.head?, ¬ isDigit s = true) :
    number? ((mark n).toList ++ rest) = some (n, rest) := by
  have hDigits : ∀ s ∈ (Nat.toDigits 10 n).map Sign.char, isDigit s = true :=
    List.forall_mem_map.mpr fun c hc => Json.isDigit_of_mem_toDigits hc
  have hRest : rest.takeWhile isDigit = [] ∧ rest.dropWhile isDigit = rest := by
    cases rest <;> simp_all
  have hMark : (mark n).toList ++ rest =
      ("N" : Text).toList ++ ((Nat.toDigits 10 n).map Sign.char ++ rest) := by
    simp [mark, Style.natText]
  rw [hMark, number?, List.dropPrefix?_append_of_beq _ (beq_self_eq_true _), Option.map_some,
    List.takeWhile_append_of_pos hDigits, List.dropWhile_append_of_pos hDigits, hRest.1, hRest.2]
  simp [List.filterMap_map, Function.comp_def, Sign.char?, Json.digitsValue_toDigits]

namespace Script

variable {s : Script}

def nodeLine (s : Script) (mark id : Text) : Text := "  " ++ mark ++ s.opening ++ s.label id ++ s.closing

def edgeLine (s : Script) (source target : Text) : Text := "  " ++ source ++ s.arrow ++ target ++ s.ending

/-- A name is read from its label as `seen`, if the label ends where what
closes it begins. -/
def Shows (s : Script) (seen : Text → Text) : Prop :=
  ∀ name rest, s.read ((s.label name).toList ++ (s.closing.toList ++ rest)) =
    some (seen name, s.closing.toList ++ rest)

/-- The line of a node is read back as its number and what is
seen of its name. -/
theorem node?_nodeLine {seen : Text → Text} (hShows : s.Shows seen)
    (hOpening : ∀ c ∈ s.opening.toList.head?, ¬ isDigit c = true) (hSome : s.opening ≠ "")
    (p : Nat × Text) (rest : List Sign) :
    s.node? ((s.nodeLine (mark p.1) p.2).toList ++ Sign.char '\n' :: rest) = some ((p.1, seen p.2), rest) := by
  obtain ⟨n, id⟩ := p
  have hLine : (s.nodeLine (mark n) id).toList ++ Sign.char '\n' :: rest = ("  " : Text).toList ++
      ((mark n).toList ++ (s.opening.toList ++ ((s.label id).toList ++
        (s.closing.toList ++ (("\n" : Text).toList ++ rest))))) := by
    simp [nodeLine]
  have hNext : ∀ c ∈ (s.opening.toList ++ ((s.label id).toList ++
      (s.closing.toList ++ (("\n" : Text).toList ++ rest)))).head?, ¬ isDigit c = true := by
    rwa [List.head?_append_of_ne_nil _ (mt Text.toList_eq_nil_iff.mp hSome)]
  rw [hLine, node?, List.dropPrefix?_append_of_beq _ (beq_self_eq_true _)]
  simp only [Option.bind_eq_bind, Option.bind_some]
  rw [number?_mark n hNext]
  simp only [Option.bind_some]
  rw [List.dropPrefix?_append_of_beq _ (beq_self_eq_true _), Option.bind_some, hShows]
  simp only [Option.bind_some]
  rw [List.dropPrefix?_append_of_beq _ (beq_self_eq_true _), Option.bind_some,
    List.dropPrefix?_append_of_beq _ (beq_self_eq_true _)]
  rfl

/-- The line of an edge is read as the numbers of its ends, if no digit
follows either of them. -/
theorem edge?_edgeLine (hArrow : ∀ c ∈ s.arrow.toList.head?, ¬ isDigit c = true) (hSome : s.arrow ≠ "")
    (hEnding : ∀ c ∈ (s.ending ++ "\n").toList.head?, ¬ isDigit c = true) (p : Nat × Nat) (rest : List Sign) :
    s.edge? ((s.edgeLine (mark p.1) (mark p.2)).toList ++ Sign.char '\n' :: rest) = some (p, rest) := by
  obtain ⟨source, target⟩ := p
  have hLine : (s.edgeLine (mark source) (mark target)).toList ++ Sign.char '\n' :: rest =
      ("  " : Text).toList ++ ((mark source).toList ++ (s.arrow.toList ++ ((mark target).toList ++
        ((s.ending ++ "\n").toList ++ rest)))) := by
    simp [edgeLine]
  have hNext : ∀ c ∈ (s.arrow.toList ++ ((mark target).toList ++ ((s.ending ++ "\n").toList ++ rest))).head?,
      ¬ isDigit c = true := by
    rwa [List.head?_append_of_ne_nil _ (mt Text.toList_eq_nil_iff.mp hSome)]
  have hLast : ∀ c ∈ ((s.ending ++ "\n").toList ++ rest).head?, ¬ isDigit c = true := by
    rwa [List.head?_append_of_ne_nil _ (by simp)]
  rw [hLine, edge?, List.dropPrefix?_append_of_beq _ (beq_self_eq_true _)]
  simp only [Option.bind_eq_bind, Option.bind_some]
  rw [number?_mark source hNext]
  simp only [Option.bind_some]
  rw [List.dropPrefix?_append_of_beq _ (beq_self_eq_true _), Option.bind_some, number?_mark target hLast]
  simp only [Option.bind_some]
  rw [Text.toList_append, List.append_assoc, List.dropPrefix?_append_of_beq _ (beq_self_eq_true _),
    Option.bind_some, List.dropPrefix?_append_of_beq _ (beq_self_eq_true _)]
  rfl

end Script

def ended (line : Text) : List Sign := line.toList ++ [Sign.char '\n']

/-- Lines put together are the signs of each line with a
line feed behind it. -/
theorem lineText_toList {lines : List Text} (hSome : lines ≠ []) :
    (lineText lines).toList = lines.flatMap ended := by
  rw [lineText, Text.toList_append, Text.toList_intercalate]
  induction lines with
  | nil => exact absurd rfl hSome
  | cons line rest ih =>
      cases rest with
      | nil => simp [ended]
      | cons next rest =>
          have hRest := ih (by simp)
          rw [List.map_cons, List.map_cons, List.intercalate_cons_cons, ← List.map_cons, List.flatMap_cons,
            ← hRest]
          simp [ended]

/-- Lines that a reader takes one by one are taken all, up to a
text that it refuses. -/
theorem many_lines {α β : Type} {read : List Sign → Option (β × List Sign)} {line : α → Text} {seen : α → β}
    (hLine : ∀ a rest, read ((line a).toList ++ Sign.char '\n' :: rest) = some (seen a, rest)) {rest : List Sign}
    (hRest : read rest = none) {as : List α} {text : List Sign} (hText : text = (as.map line).flatMap ended ++ rest)
    {fuel : Nat} (hFuel : text.length ≤ fuel) : many read fuel text = (as.map seen, rest) := by
  induction as generalizing text fuel with
  | nil =>
      obtain rfl : text = rest := hText
      cases fuel <;> simp [many, hRest]
  | cons a as ih =>
      -- a line is not empty, so the fuel lasts for the lines after it
      have hFirst : text = (line a).toList ++ Sign.char '\n' :: ((as.map line).flatMap ended ++ rest) := by
        simp [hText, ended]
      rw [hFirst, List.length_append, List.length_cons] at hFuel
      obtain ⟨fuel, rfl⟩ := Nat.exists_eq_succ_of_ne_zero (show fuel ≠ 0 by omega)
      rw [hFirst, many, hLine]
      dsimp only
      rw [ih rfl (by omega), List.map_cons]

def Script.nodeText (s : Script) (ps : List (Nat × Text)) : List Sign :=
  (ps.map fun p => s.nodeLine (mark p.1) p.2).flatMap ended

def Script.edgeText (s : Script) (ps : List (Nat × Nat)) : List Sign :=
  (ps.map fun p => s.edgeLine (mark p.1) (mark p.2)).flatMap ended

variable {g g' : DependencyGraph} {text : Text}

def numberOf (g : DependencyGraph) (id : Text) : Nat := (Assoc.get? id (numbers g)).getD 0

/-- The names of the nodes in order, each with the number that
it is drawn with. -/
def numbered (g : DependencyGraph) : List (Nat × Text) := g.nodes.map fun n => (numberOf g n.id, n.id)

/-- A node has the mark of its number, and its number is its place. -/
theorem markOf_ok {id m : Text} (hMark : markOf (numbers g) id = .ok m) :
    m = mark (numberOf g id) ∧ ∃ i, (g.nodes[i]?).map Node.id = some id ∧ numberOf g id = i + 1 := by
  rw [markOf] at hMark
  rw [numberOf]
  rcases hGet : Assoc.get? id (numbers g) with _ | n
  · rw [hGet] at hMark
    cases hMark
  · rw [hGet] at hMark
    obtain ⟨i, hi, hPair⟩ := List.mem_mapIdx.mp (Assoc.mem_ofPairs (Assoc.mem_of_get? hGet))
    obtain ⟨rfl, rfl⟩ := Prod.mk.inj hPair
    exact ⟨(Except.ok.inj hMark).symm, i, by simp [hi], rfl⟩

/-- Only nodes have marks. -/
theorem hasNode_of_mark {id m : Text} (hMark : markOf (numbers g) id = .ok m) : g.HasNode id := by
  obtain ⟨-, i, hPlace, -⟩ := markOf_ok hMark
  obtain ⟨n, hNode, rfl⟩ := Option.map_eq_some_iff.mp hPlace
  exact List.mem_map_of_mem (List.mem_of_getElem? hNode)

/-- Every node has a mark, with its own number. -/
theorem markOf_eq {id : Text} (hNode : g.HasNode id) : markOf (numbers g) id = .ok (mark (numberOf g id)) := by
  obtain ⟨m, hMark⟩ := markOf_numbers hNode
  rw [hMark, (markOf_ok hMark).1]

/-- Nodes with one number have one name. -/
theorem numberOf_injective {id id' : Text} (hNode : g.HasNode id) (hNode' : g.HasNode id')
    (hSame : numberOf g id = numberOf g id') : id = id' := by
  obtain ⟨-, i, hId, hNumber⟩ := markOf_ok (markOf_eq hNode)
  obtain ⟨-, i', hId', hNumber'⟩ := markOf_ok (markOf_eq hNode')
  obtain rfl : i = i' := by omega
  exact Option.some.inj (hId.symm.trans hId')

/-- The name of a node is found by its number. -/
theorem get?_numbered {id : Text} (hNode : g.HasNode id) :
    Assoc.get? (numberOf g id) (numbered g) = some id := by
  rcases hGet : Assoc.get? (numberOf g id) (numbered g) with _ | id'
  · refine absurd ?_ (Assoc.get?_eq_none_iff.mp hGet)
    obtain ⟨n, hn, rfl⟩ := List.mem_map.mp hNode
    exact List.mem_map_of_mem (f := Prod.fst) (List.mem_map_of_mem hn)
  · obtain ⟨n, hn, hPair⟩ := List.mem_map.mp (Assoc.mem_of_get? hGet)
    obtain ⟨hNumber, rfl⟩ := Prod.mk.inj hPair
    rw [numberOf_injective (List.mem_map_of_mem hn) hNode hNumber]

/-- The lines of the nodes are there for every graph, numbered in order. -/
theorem nodeLines_eq (g : DependencyGraph) (line : Text → Text → Text) :
    nodeLines g line = .ok ((numbered g).map fun p => line (mark p.1) p.2) := by
  have hEach : ∀ n ∈ g.nodes, (do return line (← markOf (numbers g) n.id) n.id : Except Text Text) =
      .ok (line (mark (numberOf g n.id)) n.id) := by
    intro n hn
    rw [markOf_eq (List.mem_map_of_mem hn)]
    rfl
  rw [nodeLines, mapM_eq_ok_of_forall hEach, numbered, List.map_map]
  rfl

def joined (g : DependencyGraph) : List (Nat × Nat) :=
  g.edges.map fun e => (numberOf g e.source, numberOf g e.target)

/-- Where all edges end at nodes there is a line for each, between the marks
of its ends. -/
theorem edgeLines_eq (hEnds : ∀ e ∈ g.edges, g.HasNode e.source ∧ g.HasNode e.target)
    (line : Text → Text → Text) :
    edgeLines g line = .ok ((joined g).map fun p => line (mark p.1) (mark p.2)) := by
  rw [edgeLines, joined, List.map_map]
  refine mapM_eq_ok_of_forall fun e he => ?_
  rw [markOf_eq (hEnds e he).1, markOf_eq (hEnds e he).2]
  rfl

/-- If the lines of the edges can be written, the ends of
the edges are nodes. -/
theorem ends_of_edgeLines {line : Text → Text → Text} {lines : List Text}
    (hLines : edgeLines g line = .ok lines) : ∀ e ∈ g.edges, g.HasNode e.source ∧ g.HasNode e.target := by
  intro e he
  by_contra hStray
  suffices hError : ∃ id, edgeLines g line = .error id by
    obtain ⟨id, hError⟩ := hError
    rw [hLines] at hError
    cases hError
  refine mapM_eq_error_iff.mpr ⟨e, he, ?_⟩
  rcases hSource : markOf (numbers g) e.source with id | source
  · exact ⟨id, rfl⟩
  · rcases hTarget : markOf (numbers g) e.target with id | target
    · exact ⟨id, rfl⟩
    · exact absurd ⟨hasNode_of_mark hSource, hasNode_of_mark hTarget⟩ hStray

/-- The ends of the edges of a graph that is drawn are nodes. -/
theorem ends_of_dot (hDot : dot g = .ok text) : ∀ e ∈ g.edges, g.HasNode e.source ∧ g.HasNode e.target := by
  rw [dot, nodeLines_eq] at hDot
  rcases hEdges : edgeLines g dotScript.edgeLine with id | lines
  · change (edgeLines g dotScript.edgeLine >>= _) = _ at hDot
    rw [hEdges] at hDot
    cases hDot
  · exact ends_of_edgeLines hEdges

/-- The text between the lines of the nodes and those of the edges. -/
def gap (g : DependencyGraph) : List Sign := if g.edges.isEmpty then [] else [Sign.char '\n']

/-- The whole text of a drawing: the heading, the nodes, the edges and
the end, with what stands between. -/
theorem dot_eq (hEnds : ∀ e ∈ g.edges, g.HasNode e.source ∧ g.HasNode e.target) :
    ∃ text, dot g = .ok text ∧ text.toList = heading.toList ++
      (dotScript.nodeText (numbered g) ++ (gap g ++ (dotScript.edgeText (joined g) ++ closing.toList))) := by
  refine ⟨_, by rw [dot, nodeLines_eq, edgeLines_eq hEnds]; rfl, ?_⟩
  rw [lineText_toList (by simp), List.flatMap_append, List.flatMap_append, List.flatMap_append,
    List.flatMap_append, List.append_assoc, List.append_assoc, List.append_assoc]
  congr 1
  congr 1
  rw [gap]
  split <;> rfl

/-- The numbers of an edge's ends are looked up as the names that it had. -/
theorem mapM_joined (hEnds : ∀ e ∈ g.edges, g.HasNode e.source ∧ g.HasNode e.target) :
    ((joined g).mapM fun pair => do
      return (⟨← Assoc.get? pair.1 (numbered g), ← Assoc.get? pair.2 (numbered g)⟩ : Edge)) = some g.edges := by
  rw [joined]
  generalize hEdges : g.edges = edges at hEnds ⊢
  clear hEdges
  induction edges with
  | nil => rfl
  | cons e edges ih =>
      rw [List.map_cons, List.mapM_cons, ih fun e' he' => hEnds e' (List.mem_cons_of_mem _ he')]
      obtain ⟨hSource, hTarget⟩ := hEnds e (List.mem_cons_self ..)
      rw [get?_numbered hSource, get?_numbered hTarget]
      rfl

theorem dotScript_node? (p : Nat × Text) (rest : List Sign) :
    dotScript.node? ((dotScript.nodeLine (mark p.1) p.2).toList ++ Sign.char '\n' :: rest) = some (p, rest) := by
  have hShows : dotScript.Shows id := fun name rest => by
    show (label? ((dotLabel name).toList ++ Sign.char '"' :: (("];" : Text).toList ++ rest))).map _ = _
    rw [label?_dotLabel]
    rfl
  exact Script.node?_nodeLine hShows (by decide) (by decide) p rest

theorem dotScript_edge? (p : Nat × Nat) (rest : List Sign) :
    dotScript.edge? ((dotScript.edgeLine (mark p.1) (mark p.2)).toList ++ Sign.char '\n' :: rest) = some (p, rest) :=
  Script.edge?_edgeLine (by decide) (by decide) (by decide) p rest

/-- A drawing is read as the names of the nodes and the edges. -/
theorem ofDot?_dot (hDot : dot g = .ok text) : ofDot? text = some (g.nodes.map Node.id, g.edges) := by
  have hEnds := ends_of_dot hDot
  obtain ⟨text', hDot', hText⟩ := dot_eq hEnds
  obtain rfl := Except.ok.inj (hDot.symm.trans hDot')
  set rest := dotScript.edgeText (joined g) ++ closing.toList with hTail
  have hGap : dotScript.node? (gap g ++ rest) = none ∧
      ((gap g ++ rest).dropPrefix? ("\n" : Text).toList).getD (gap g ++ rest) = rest := by
    rw [hTail, gap, joined]
    rcases g.edges with _ | ⟨e, more⟩
    · exact ⟨rfl, rfl⟩
    · refine ⟨rfl, ?_⟩
      rw [List.isEmpty_cons, if_neg (by simp)]
      rfl
  have hNodes : many dotScript.node? (dotScript.nodeText (numbered g) ++ (gap g ++ rest)).length
      (dotScript.nodeText (numbered g) ++ (gap g ++ rest)) = (numbered g, gap g ++ rest) := by
    calc
      _ = ((numbered g).map fun p => p, gap g ++ rest) := many_lines dotScript_node? hGap.1 rfl le_rfl
      _ = _ := by rw [List.map_id']
  have hEdges : many dotScript.edge? rest.length rest = (joined g, closing.toList) := by
    calc
      _ = ((joined g).map fun p => p, closing.toList) := many_lines dotScript_edge? rfl hTail le_rfl
      _ = _ := by rw [List.map_id']
  have hJoined := mapM_joined hEnds
  simp only [Option.bind_eq_bind] at hJoined
  rw [ofDot?, hText, List.dropPrefix?_append_of_beq _ (beq_self_eq_true _)]
  simp only [Option.bind_eq_bind, Option.bind_some, hNodes, hGap.2, hEdges, hJoined, if_true]
  rw [numbered, List.map_map]
  rfl

theorem numbers_eq_of_names (g : DependencyGraph) :
    numbers g = Assoc.ofPairs ((g.nodes.map Node.id).mapIdx fun i id => (id, i + 1)) := by
  rw [numbers]
  congr 1
  exact List.ext_getElem (by simp) (by simp)

/-- The lines of the nodes depend on their names only. -/
theorem nodeLines_eq_of_names (g : DependencyGraph) (line : Text → Text → Text) :
    nodeLines g line = (g.nodes.map Node.id).mapM fun id => do return line (← markOf (numbers g) id) id := by
  rw [nodeLines, List.mapM_map]
  rfl

/-- The numbers of nodes go by their names alone. -/
theorem numbers_congr (hNames : g.nodes.map Node.id = g'.nodes.map Node.id) : numbers g = numbers g' := by
  rw [numbers_eq_of_names, numbers_eq_of_names, hNames]

/-- A drawing shows no more of the nodes than their names. -/
theorem dot_congr (hNames : g.nodes.map Node.id = g'.nodes.map Node.id) (hEdges : g.edges = g'.edges) :
    dot g = dot g' := by
  have hNumbers : numbers g = numbers g' := numbers_congr hNames
  have hNodes : ∀ line, nodeLines g line = nodeLines g' line := by
    intro line
    rw [nodeLines_eq_of_names, nodeLines_eq_of_names, hNames, hNumbers]
  have hLines : ∀ line, edgeLines g line = edgeLines g' line := by
    intro line
    rw [edgeLines, edgeLines, hEdges, hNumbers]
  rw [dot, dot, hNodes, hLines, hEdges]

/-- A graph whose edges join nodes has a drawing, from which the names of
the nodes and the edges are read, and only the graphs with the same names
and the same edges have the same drawing. -/
theorem dot_faithful (hEnds : ∀ e ∈ g.edges, g.HasNode e.source ∧ g.HasNode e.target) :
    ∃ text, dot g = .ok text ∧ ofDot? text = some (g.nodes.map Node.id, g.edges) ∧
      ∀ g', dot g' = .ok text ↔ g'.nodes.map Node.id = g.nodes.map Node.id ∧ g'.edges = g.edges := by
  obtain ⟨text, hDot, -⟩ := dot_eq hEnds
  refine ⟨text, hDot, ofDot?_dot hDot, fun g' => ⟨fun hDot' => ?_, fun ⟨hNames, hEdges⟩ => ?_⟩⟩
  · have hRead := ofDot?_dot hDot'
    rw [ofDot?_dot hDot] at hRead
    obtain ⟨hNames, hEdges⟩ := Prod.mk.inj (Option.some.inj hRead)
    exact ⟨hNames.symm, hEdges.symm⟩
  · rw [dot_congr hNames hEdges, hDot]

namespace Sample

/-- Names with a quote, with a backslash at the end, and with text in the
manner of a drawing. -/
def names : List Text := ["a\"b", "c\\", "d\"];\n  N1 -> N2;\n\x7d\n"]

/-- The last file imports the first, and the second itself. -/
def quoted : DependencyGraph where
  nodes := names.map fun id => ⟨id, "/p/" ++ id, id, .unknown⟩
  edges := [⟨"d\"];\n  N1 -> N2;\n\x7d\n", "a\"b"⟩, ⟨"c\\", "c\\"⟩]

/-- The names and edges of the sample are read back from its drawing. -/
theorem quoted_read : ∃ text, dot quoted = .ok text ∧ ofDot? text = some (names, quoted.edges) := by
  obtain ⟨text, hDot, hRead, -⟩ := dot_faithful (g := quoted) (by decide)
  exact ⟨text, hDot, hRead⟩

end Sample

end SourceAtlas.Diagram
