import SourceAtlas.Assoc

/-!
Strongly connected components by one depth-first search with an explicit list of frames. Nodes are
started in the order of the map and successors followed in their order, so the result depends on
nothing but the input.
-/
namespace SourceAtlas.Graph

variable {α : Type} [DecidableEq α]

/-- Each node with its successors in order. A successor need
not be a key itself. -/
abbrev Adjacency (α : Type) := Assoc α (List α)

def Adjacency.successors (g : Adjacency α) (v : α) : List α := (Assoc.get? v g).getD []

/-- How many successors all nodes have together. -/
def Adjacency.edgeCount (g : Adjacency α) : Nat := g.foldr (fun p n => p.2.length + n) 0

/-- A node that is being searched from: its number in order of discovery,
the least number of an open node known to be reachable from it, and the
successors still to be followed. -/
structure Frame (α : Type) where
  node : α
  number : Nat
  low : Nat
  todo : List α
  deriving DecidableEq, Repr

/-- The search between two steps. All lists have the newest first. -/
structure Search (α : Type) where
  /-- Discovered nodes with their numbers. -/
  numbers : List (α × Nat)
  /-- Discovered nodes that are in no component yet. -/
  pending : List α
  frames : List (Frame α)
  components : List (List α)
  deriving DecidableEq, Repr

namespace Search

def start : Search α := ⟨[], [], [], []⟩

def numberOf? (s : Search α) (v : α) : Option Nat := Assoc.get? v s.numbers

/-- Discover a node and begin to search from it. -/
def enter (g : Adjacency α) (v : α) (s : Search α) : Search α :=
  let n := s.numbers.length
  { s with
    numbers := (v, n) :: s.numbers
    pending := v :: s.pending
    frames := ⟨v, n, n, g.successors v⟩ :: s.frames }

/-- Lower the mark of the top frame. -/
def lower (n : Nat) : List (Frame α) → List (Frame α)
  | [] => []
  | f :: rest => { f with low := min f.low n } :: rest

/-- Close the frame of a node whose successors are all followed. A node that
reaches no older open node is the first of a component, which is made of all
nodes opened since. -/
def leave (f : Frame α) (rest : List (Frame α)) (s : Search α) : Search α :=
  let frames := lower f.low rest
  if f.low = f.number then
    { s with
      frames := frames
      pending := (s.pending.dropWhile (· ≠ f.node)).tail
      components := (f.node :: (s.pending.takeWhile (· ≠ f.node)).reverse) :: s.components }
  else { s with frames := frames }

/-- One step: follow one successor of the newest frame, or close it. -/
def step (g : Adjacency α) (s : Search α) : Search α :=
  match s.frames with
  | [] => s
  | f :: rest =>
    match f.todo with
    | [] => s.leave f rest
    | w :: more =>
      match s.numberOf? w with
      | none => enter g w { s with frames := { f with todo := more } :: rest }
      | some n =>
        let low := if w ∈ s.pending then min f.low n else f.low
        { s with frames := { f with todo := more, low := low } :: rest }

def run (g : Adjacency α) : Nat → Search α → Search α
  | 0, s => s
  | fuel + 1, s => if s.frames.isEmpty then s else run g fuel (s.step g)

/-- Steps enough for one search: each node is entered and left once, and
each edge followed once. -/
def fuel (g : Adjacency α) : Nat := g.length + 2 * g.edgeCount + 2

/-- Search from a node unless it is known already. -/
def visit (g : Adjacency α) (s : Search α) (v : α) : Search α :=
  match s.numberOf? v with
  | some _ => s
  | none => run g (fuel g) (s.enter g v)

end Search

/-- All components in the order in which they are completed, the members of
each in order of discovery. -/
def components (g : Adjacency α) : List (List α) :=
  ((Assoc.keys g).foldl (Search.visit g) Search.start).components.reverse

/-- The components of two or more members. A node that only leads
to itself is none. -/
def cyclic (g : Adjacency α) : List (List α) := (components g).filter fun c => 1 < c.length

end SourceAtlas.Graph
