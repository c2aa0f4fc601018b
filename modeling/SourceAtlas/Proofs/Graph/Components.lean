import Mathlib.Algebra.BigOperators.Group.Finset.Basic
import SourceAtlas.Proofs.Graph.Closing

/-!
The components of a graph are its strongly connected components, each emitted after those it leads
to. The search never runs out of steps before it is done, and a component that is completed is
always found among the open nodes.
-/
namespace SourceAtlas.Graph

open Relation

variable {α : Type} [DecidableEq α]

namespace Search

/-- The states that the search of a graph passes through: it starts from a
key that is not known when no frame is left, and makes steps until then. -/
inductive Reached (g : Adjacency α) : Search α → Prop where
  | start : Reached g start
  | enter {s : Search α} {v : α} (prior : Reached g s) (hIdle : s.frames = [])
      (hKey : v ∈ Assoc.keys g) (hNew : s.numberOf? v = none) : Reached g (s.enter g v)
  | step {s : Search α} (prior : Reached g s) (hBusy : s.frames ≠ []) : Reached g (s.step g)

/-- The four things that a step can do: leave the newest frame, enter a
successor, lower the mark, or pass over a closed node. -/
theorem step_cases {g : Adjacency α} {s : Search α} {f : Frame α} {rest : List (Frame α)}
    (hFrames : s.frames = f :: rest) :
    (f.todo = [] ∧ s.step g = s.leave f rest) ∨
    (∃ w more, f.todo = w :: more ∧ s.numberOf? w = none ∧
      s.step g = Search.enter g w { s with frames := { f with todo := more } :: rest }) ∨
    ∃ w more n, f.todo = w :: more ∧ s.numberOf? w = some n ∧
      s.step g = { s with frames :=
        { f with todo := more, low := if w ∈ s.pending then min f.low n else f.low } :: rest } := by
  cases hTodo : f.todo with
  | nil => exact Or.inl ⟨rfl, by simp [step, hFrames, hTodo]⟩
  | cons w more =>
      cases hKnown : s.numberOf? w with
      | none => exact Or.inr (Or.inl ⟨w, more, rfl, hKnown, by simp [step, hFrames, hTodo, hKnown]⟩)
      | some n =>
          exact Or.inr (Or.inr ⟨w, more, n, rfl, hKnown, by simp [step, hFrames, hTodo, hKnown]⟩)

/-- A step of the search keeps what holds between two steps, whichever of
the four it is. -/
theorem Inv.step {g : Adjacency α} {s : Search α} (inv : s.Steady g) (hBusy : s.frames ≠ []) :
    (s.step g).Steady g := by
  obtain ⟨f, rest, hFrames⟩ := List.exists_cons_of_ne_nil hBusy
  rcases step_cases (g := g) hFrames with
    ⟨hTodo, hStep⟩ | ⟨w, more, hTodo, hNew, hStep⟩ | ⟨w, more, n, hTodo, hKnown, hStep⟩
  · exact hStep ▸ inv.leave hFrames hTodo
  · exact hStep ▸ inv.discover hFrames hTodo hNew
  · exact hStep ▸ inv.follow hFrames hTodo hKnown

/-- The invariant holds in every state that the search passes through, by
induction on its steps. -/
theorem Reached.steady {g : Adjacency α} {s : Search α} (reached : Reached g s) : s.Steady g := by
  induction reached with
  | start => exact steady_start g
  | @enter s v prior hIdle hKey hNew ih =>
      refine Inv.enter { ih with followed := by simp [hIdle] } hNew (Or.inl hKey) ?_
      simp [hIdle]
  | step prior hBusy ih => exact ih.step hBusy

def nodes (g : Adjacency α) : Finset α := (Assoc.keys g ++ g.flatMap Prod.snd).toFinset

/-- Both ends of an edge are among the nodes, keys or not. -/
theorem mem_nodes_of_edge {g : Adjacency α} {u v : α} (hEdge : g.Edge u v) : v ∈ nodes g := by
  rw [Adjacency.Edge, Adjacency.successors] at hEdge
  cases hGet : Assoc.get? u g with
  | none => simp [hGet] at hEdge
  | some targets =>
      simp only [hGet, Option.getD_some] at hEdge
      simp only [nodes, List.mem_toFinset, List.mem_append, List.mem_flatMap]
      exact Or.inr ⟨(u, targets), Assoc.mem_of_get? hGet, hEdge⟩

theorem mem_nodes_of_isNode {g : Adjacency α} {v : α} (hNode : g.IsNode v) : v ∈ nodes g := by
  rcases hNode with hKey | ⟨u, hEdge⟩
  · simp [nodes, hKey]
  · exact mem_nodes_of_edge hEdge

/-- The steps that a node costs once it is entered: one for each successor,
and one to leave it. -/
def cost (g : Adjacency α) (v : α) : Nat := (g.successors v).length + 1

/-- The steps that all nodes cost which have no number yet. -/
def unknownCost (g : Adjacency α) (numbers : Assoc α Nat) : Nat :=
  ∑ v ∈ (nodes g).filter fun v => (Assoc.get? v numbers).isNone, cost g v

/-- The steps still to be made: those of the frames, and those of nodes that
are not known. -/
def remaining (g : Adjacency α) (s : Search α) : Nat :=
  (s.frames.map fun f => f.todo.length + 1).sum + unknownCost g s.numbers

/-- What a node was to cost passes from the unknown nodes to its frame. So
entering a node leaves as many steps as before. -/
theorem remaining_enter {g : Adjacency α} {s : Search α} {v : α} (hNode : g.IsNode v)
    (hNew : s.numberOf? v = none) : remaining g (s.enter g v) = remaining g s := by
  have hUnknown : (nodes g).filter (fun u => (s.numberOf? u).isNone) =
      insert v ((nodes g).filter fun u => ((s.enter g v).numberOf? u).isNone) := by
    ext u
    simp only [Finset.mem_filter, Finset.mem_insert, numberOf?_enter]
    by_cases hEq : v = u
    · subst hEq
      simp [hNew, mem_nodes_of_isNode hNode]
    · simp [hEq, Ne.symm hEq]
  have hOut : v ∉ (nodes g).filter fun u => ((s.enter g v).numberOf? u).isNone := by
    simp [numberOf?_enter]
  have hCost : unknownCost g s.numbers = cost g v + unknownCost g (s.enter g v).numbers := by
    change ∑ u ∈ (nodes g).filter (fun u => (s.numberOf? u).isNone), cost g u = _
    rw [hUnknown, Finset.sum_insert hOut]
    rfl
  rw [remaining, remaining, hCost]
  simp only [Search.enter, cost, List.map_cons, List.sum_cons]
  omega

omit [DecidableEq α] in
theorem sum_lower (n : Nat) (fs : List (Frame α)) :
    ((lower n fs).map fun f => f.todo.length + 1) = fs.map fun f => f.todo.length + 1 := by
  cases fs <;> rfl

/-- Each step uses up one of the remaining steps. It is by this count that
the fuel of a run is enough. -/
theorem remaining_step {g : Adjacency α} {s : Search α} (inv : s.Steady g) (hBusy : s.frames ≠ []) :
    remaining g (s.step g) + 1 = remaining g s := by
  obtain ⟨f, rest, hFrames⟩ := List.exists_cons_of_ne_nil hBusy
  rcases step_cases (g := g) hFrames with
    ⟨hTodo, hStep⟩ | ⟨w, more, hTodo, hNew, hStep⟩ | ⟨w, more, n, hTodo, hKnown, hStep⟩
  · have hNumbers : (s.step g).numbers = s.numbers := by
      rw [hStep, leave]
      split <;> rfl
    have hLeft : (s.step g).frames = lower f.low rest := by
      rw [hStep, leave]
      split <;> rfl
    rw [remaining, remaining, hLeft, sum_lower, hFrames, hNumbers]
    simp only [List.map_cons, List.sum_cons, hTodo, List.length_nil]
    omega
  · have hNode : g.IsNode w := Or.inr ⟨f.node, inv.edge_of_todo (newest_mem hFrames) hTodo⟩
    have hStill : ({ s with frames := { f with todo := more } :: rest } : Search α).numberOf? w = none :=
      hNew
    rw [hStep, remaining_enter hNode hStill]
    simp only [remaining, hFrames, hTodo, List.map_cons, List.sum_cons, List.length_cons]
    omega
  · rw [hStep]
    simp only [remaining, hFrames, hTodo, List.map_cons, List.sum_cons, List.length_cons]
    omega

/-- No node counts an edge twice, so all nodes together have no more
successors than the graph. -/
theorem sum_successors_le (g : Adjacency α) (vs : Finset α) :
    ∑ v ∈ vs, (g.successors v).length ≤ g.edgeCount := by
  induction g with
  | nil => simp [Adjacency.successors, Assoc.get?, Adjacency.edgeCount]
  | cons p rest ih =>
      obtain ⟨k, targets⟩ := p
      have hEach : ∀ v ∈ vs, (Adjacency.successors ((k, targets) :: rest) v).length ≤
          (if k = v then targets.length else 0) + (Adjacency.successors rest v).length := by
        intro v _
        by_cases hEq : k = v <;> simp [Adjacency.successors, Assoc.get?, hEq]
      have hKey : ∑ v ∈ vs, (if k = v then targets.length else 0) ≤ targets.length := by
        rw [Finset.sum_ite_eq]
        split <;> simp
      calc
        _ ≤ ∑ v ∈ vs, ((if k = v then targets.length else 0) +
              (Adjacency.successors rest v).length) := Finset.sum_le_sum hEach
        _ = ∑ v ∈ vs, (if k = v then targets.length else 0) +
              ∑ v ∈ vs, (Adjacency.successors rest v).length := Finset.sum_add_distrib
        _ ≤ targets.length + Adjacency.edgeCount rest := Nat.add_le_add hKey ih

omit [DecidableEq α] in
theorem length_flatMap_snd (g : Adjacency α) : (g.flatMap Prod.snd).length = g.edgeCount := by
  induction g with
  | nil => rfl
  | cons p rest ih => simp [Adjacency.edgeCount, ih]

/-- Entering nodes and following their edges costs no more than the fuel,
for no node is entered twice. -/
theorem sum_cost_le (g : Adjacency α) (vs : Finset α) (hNodes : vs ⊆ nodes g) :
    ∑ v ∈ vs, cost g v ≤ fuel g := by
  have hCount : vs.card ≤ g.length + g.edgeCount := by
    calc
      vs.card ≤ (nodes g).card := Finset.card_le_card hNodes
      _ ≤ (Assoc.keys g ++ g.flatMap Prod.snd).length := List.toFinset_card_le _
      _ = g.length + g.edgeCount := by rw [List.length_append, length_flatMap_snd, Assoc.keys, List.length_map]
  have hEdges := sum_successors_le g vs
  simp only [cost, Finset.sum_add_distrib, Finset.sum_const, smul_eq_mul, mul_one]
  rw [fuel]
  omega

/-- With no frame open there is no more left to do than there is fuel. -/
theorem remaining_le_fuel {g : Adjacency α} {s : Search α} (hIdle : s.frames = []) :
    remaining g s ≤ fuel g := by
  simp only [remaining, hIdle, List.map_nil, List.sum_nil, Nat.zero_add]
  exact sum_cost_le g _ (Finset.filter_subset _ _)

/-- With enough fuel a run ends with no frame left. It has then followed all
there was to follow. -/
theorem run_reached {g : Adjacency α} {n : Nat} {s : Search α} (reached : Reached g s)
    (hFuel : remaining g s ≤ n) : Reached g (run g n s) ∧ (run g n s).frames = [] := by
  induction n generalizing s with
  | zero =>
      have hIdle : s.frames = [] := by
        cases hFrames : s.frames with
        | nil => rfl
        | cons f rest => simp [remaining, hFrames] at hFuel
      exact ⟨reached, hIdle⟩
  | succ n ih =>
      rw [run]
      split
      next hIdle => exact ⟨reached, List.isEmpty_iff.mp hIdle⟩
      next hBusy =>
        have hBusy : s.frames ≠ [] := by simpa using hBusy
        have hStep := remaining_step reached.steady hBusy
        exact ih (reached.step hBusy) (by omega)

/-- A node that has a number keeps it. -/
theorem numberOf?_step_of_some {g : Adjacency α} {s : Search α} {v : α} {n : Nat}
    (hKnown : s.numberOf? v = some n) : (s.step g).numberOf? v = some n := by
  cases hFrames : s.frames with
  | nil => simpa [step, hFrames] using hKnown
  | cons f rest =>
      rcases step_cases (g := g) hFrames with
        ⟨_, hStep⟩ | ⟨w, more, _, hNew, hStep⟩ | ⟨w, more, m, _, _, hStep⟩
      · rw [hStep, leave]
        split <;> exact hKnown
      · rw [hStep, numberOf?_enter]
        split
        next hEq => simp [hEq ▸ hNew] at hKnown
        next => exact hKnown
      · rw [hStep]
        exact hKnown

/-- A number once given stays, however many steps are made after it. -/
theorem numberOf?_run_of_some {g : Adjacency α} {fuel : Nat} {s : Search α} {v : α} {n : Nat}
    (hKnown : s.numberOf? v = some n) : (run g fuel s).numberOf? v = some n := by
  induction fuel generalizing s with
  | zero => exact hKnown
  | succ fuel ih =>
      rw [run]
      split
      · exact hKnown
      · exact ih (numberOf?_step_of_some hKnown)

/-- Searching from a key ends with no frame left; the key is known then, and
so is all that was known before. -/
theorem visit_reached {g : Adjacency α} {s : Search α} {v : α} (reached : Reached g s)
    (hIdle : s.frames = []) (hKey : v ∈ Assoc.keys g) :
    Reached g (s.visit g v) ∧ (s.visit g v).frames = [] ∧
      ∀ u, u = v ∨ (s.numberOf? u).isSome → ((s.visit g v).numberOf? u).isSome := by
  cases hKnown : s.numberOf? v with
  | some n =>
      simp only [visit, hKnown]
      refine ⟨reached, hIdle, ?_⟩
      rintro u (rfl | hu)
      · simp [hKnown]
      · exact hu
  | none =>
      simp only [visit, hKnown]
      have hEnter := Reached.enter reached hIdle hKey hKnown
      have hFuel : remaining g (s.enter g v) ≤ fuel g := by
        rw [remaining_enter (Or.inl hKey) hKnown]
        exact remaining_le_fuel hIdle
      obtain ⟨hReached, hDone⟩ := run_reached hEnter hFuel
      refine ⟨hReached, hDone, fun u hu => ?_⟩
      have hEntered : ((s.enter g v).numberOf? u).isSome := by
        rw [numberOf?_enter]
        split
        · rfl
        · exact hu.resolve_left (Ne.symm ‹_›)
      obtain ⟨n, hn⟩ := Option.isSome_iff_exists.mp hEntered
      simp [numberOf?_run_of_some hn]

/-- Visiting keys one after the other comes to a state of the search,
without open frames, in which all of them are known. -/
theorem foldl_visit_reached {g : Adjacency α} (keys : List α) {s : Search α}
    (reached : Reached g s) (hIdle : s.frames = []) (hKeys : ∀ v ∈ keys, v ∈ Assoc.keys g) :
    Reached g (keys.foldl (visit g) s) ∧ (keys.foldl (visit g) s).frames = [] ∧
      ∀ u, u ∈ keys ∨ (s.numberOf? u).isSome → ((keys.foldl (visit g) s).numberOf? u).isSome := by
  induction keys generalizing s with
  | nil => exact ⟨reached, hIdle, by simp⟩
  | cons v keys ih =>
      obtain ⟨hReached, hDone, hKnown⟩ := visit_reached reached hIdle (hKeys v (List.mem_cons_self ..))
      obtain ⟨hLast, hEmpty, hAll⟩ := ih hReached hDone fun u hu => hKeys u (List.mem_cons_of_mem _ hu)
      refine ⟨hLast, hEmpty, fun u hu => hAll u ?_⟩
      rcases hu with hu | hu
      · rcases List.mem_cons.mp hu with rfl | hu
        · exact Or.inr (hKnown u (Or.inl rfl))
        · exact Or.inl hu
      · exact Or.inr (hKnown u (Or.inr hu))

/-- The search of a whole graph comes to an end that it reaches step by
step: no frame is left and every key is known. -/
theorem exists_finished (g : Adjacency α) : ∃ t, Reached g t ∧ t.frames = [] ∧
    (∀ v ∈ Assoc.keys g, (t.numberOf? v).isSome) ∧ Graph.components g = t.components.reverse := by
  obtain ⟨hReached, hDone, hKnown⟩ :=
    foldl_visit_reached (Assoc.keys g) (Reached.start (g := g)) rfl fun v hv => hv
  exact ⟨_, hReached, hDone, fun v hv => hKnown v (Or.inl hv), rfl⟩

/-- A search that is done and has found all keys has closed the
nodes of the graph. -/
theorem Inv.closed_iff_isNode {g : Adjacency α} {t : Search α} (inv : t.Steady g) (hDone : t.frames = [])
    (hKnown : ∀ u ∈ Assoc.keys g, (t.numberOf? u).isSome) {v : α} : t.Closed v ↔ g.IsNode v := by
  constructor
  · intro hv
    obtain ⟨n, hn⟩ := Option.isSome_iff_exists.mp ((inv.found_iff v).mpr (Or.inr hv))
    exact inv.found_node v n hn
  · have hPending : t.pending = [] := inv.pending_eq_nil hDone
    have hKey : ∀ u ∈ Assoc.keys g, t.Closed u := fun u hu =>
      ((inv.found_iff u).mp (hKnown u hu)).resolve_left (by simp [hPending])
    rintro (hv | ⟨u, hEdge⟩)
    · exact hKey v hv
    · exact inv.closed_successor (hKey u hEdge.key) hEdge

/-- A tail of ordered components is ordered. -/
theorem Ordered.tail {g : Adjacency α} {before cs : List (List α)}
    (ordered : Ordered g (before ++ cs)) : Ordered g cs := by
  induction before with
  | nil => exact ordered
  | cons c before ih => exact ih ordered.2

/-- Mutual reachability does not leave a component: what it reaches is
older, and nothing older reaches it. -/
theorem Ordered.mem_of_mutual {g : Adjacency α} {cs : List (List α)} (ordered : Ordered g cs)
    (hNodup : cs.flatten.Nodup) {c : List α} (hc : c ∈ cs) {u v : α} (hu : u ∈ c)
    (hTo : g.Reaches u v) (hFrom : g.Reaches v u) : v ∈ c := by
  obtain ⟨before, after, rfl⟩ := List.append_of_mem hc
  obtain ⟨d, hd, hvd⟩ := ordered.tail.reaches ⟨c, List.mem_cons_self .., hu⟩ hTo
  rcases List.mem_cons.mp hd with rfl | hd
  · exact hvd
  · have hOlder : Ordered g after := ordered.tail.2
    obtain ⟨e, he, hue⟩ := hOlder.reaches ⟨d, hd, hvd⟩ hFrom
    simp only [List.flatten_append, List.flatten_cons, List.nodup_append] at hNodup
    exact absurd rfl (hNodup.2.1.2.2 u hu u (List.mem_flatten.mpr ⟨e, he, hue⟩))

/-- No older component leads to a newer one, as its members were closed when
the newer ones were not known yet. -/
theorem Ordered.pairwise {g : Adjacency α} {cs : List (List α)} (ordered : Ordered g cs)
    (hNodup : cs.flatten.Nodup) :
    cs.Pairwise fun newer older => ∀ u ∈ older, ∀ v ∈ newer, ¬g.Edge u v := by
  induction cs with
  | nil => exact List.Pairwise.nil
  | cons c cs ih =>
      rw [List.flatten_cons, List.nodup_append] at hNodup
      refine List.pairwise_cons.mpr ⟨fun older hOlder u hu v hv hEdge => ?_, ih ordered.2 hNodup.2.1⟩
      obtain ⟨d, hd, hvd⟩ := ordered.2.successor ⟨older, hOlder, hu⟩ hEdge
      exact hNodup.2.2 v hv v (List.mem_flatten.mpr ⟨d, hd, hvd⟩) rfl

end Search

/-- Lists of nodes are the strongly connected components of a graph, each
after all those it leads to: they share no node, have all nodes, and hold
together exactly what is mutually reachable. -/
structure Adjacency.IsCondensation (g : Adjacency α) (cs : List (List α)) : Prop where
  nonempty : ∀ c ∈ cs, c ≠ []
  nodup : cs.flatten.Nodup
  covers : ∀ v, v ∈ cs.flatten ↔ g.IsNode v
  together : ∀ u v, g.IsNode u → g.IsNode v →
    ((∃ c ∈ cs, u ∈ c ∧ v ∈ c) ↔ g.Reaches u v ∧ g.Reaches v u)
  ordered : ∀ i j (hi : i < cs.length) (hj : j < cs.length), ∀ u ∈ cs[i], ∀ v ∈ cs[j],
    g.Edge u v → i ≠ j → j < i

/-- A component holds a node on a closed walk through another node. -/
def Adjacency.HasRound (g : Adjacency α) (c : List α) : Prop :=
  ∃ u ∈ c, ∃ v, v ≠ u ∧ g.Reaches u v ∧ g.Reaches v u

/-- The components that the search returns are the strongly connected
components, each after all those it leads to. -/
theorem components_isCondensation (g : Adjacency α) : g.IsCondensation (components g) := by
  obtain ⟨t, hReached, hDone, hKnown, hResult⟩ := Search.exists_finished g
  have inv := hReached.steady
  have hClosed (v : α) : t.Closed v ↔ g.IsNode v := inv.closed_iff_isNode hDone hKnown
  have hMem : ∀ c, c ∈ components g ↔ c ∈ t.components := by simp [hResult]
  have hPerm : (components g).flatten.Perm t.components.flatten := by
    rw [hResult]
    exact (List.reverse_perm _).flatten
  constructor
  case nonempty => exact fun c hc => inv.component_ne_nil c ((hMem c).mp hc)
  case nodup => exact hPerm.nodup_iff.mpr inv.components_nodup
  case covers =>
    intro v
    rw [hPerm.mem_iff, List.mem_flatten]
    exact hClosed v
  case together =>
    intro u v hu hv
    constructor
    · rintro ⟨c, hc, huc, hvc⟩
      have hc := (hMem c).mp hc
      exact ⟨inv.component_reaches c hc u huc v hvc, inv.component_reaches c hc v hvc u huc⟩
    · rintro ⟨hTo, hFrom⟩
      obtain ⟨c, hc, huc⟩ := (hClosed u).mpr hu
      exact ⟨c, (hMem c).mpr hc, huc,
        inv.components_ordered.mem_of_mutual inv.components_nodup hc huc hTo hFrom⟩
  case ordered =>
    intro i j hi hj u hu v hv hEdge hne
    have hPairwise : (components g).Pairwise fun older newer =>
        ∀ u ∈ older, ∀ v ∈ newer, ¬g.Edge u v := by
      rw [hResult, List.pairwise_reverse]
      exact inv.components_ordered.pairwise inv.components_nodup
    by_contra hLe
    exact List.pairwise_iff_getElem.mp hPairwise i j hi hj (by omega) u hu v hv hEdge

/-- Components that share a node are the same, as the lists of a
condensation are disjoint. -/
theorem Adjacency.IsCondensation.eq_of_mem {g : Adjacency α} {cs : List (List α)}
    (condensed : g.IsCondensation cs) {c d : List α} (hc : c ∈ cs) (hd : d ∈ cs) {u : α}
    (huc : u ∈ c) (hud : u ∈ d) : c = d := by
  by_contra hne
  have hDisjoint := (List.nodup_flatten.mp condensed.nodup).2
  have hSymm : Std.Symm (List.Disjoint : List α → List α → Prop) := ⟨fun _ _ h => h.symm⟩
  exact hDisjoint.forall hc hd hne huc hud

/-- A component has two members exactly if it holds a node on a closed walk
through another. -/
theorem Adjacency.IsCondensation.one_lt_length_iff {g : Adjacency α} {cs : List (List α)}
    (condensed : g.IsCondensation cs) {c : List α} (hc : c ∈ cs) :
    1 < c.length ↔ g.HasRound c := by
  have hNode : ∀ u ∈ c, g.IsNode u := fun u hu =>
    (condensed.covers u).mp (List.mem_flatten.mpr ⟨c, hc, hu⟩)
  have hNodup : c.Nodup := condensed.nodup.sublist (List.sublist_flatten_of_mem hc)
  constructor
  · intro hLong
    match c, hLong with
    | u :: v :: rest, _ =>
        have hPair := (condensed.together u v (hNode u (by simp)) (hNode v (by simp))).mp
          ⟨u :: v :: rest, hc, by simp, by simp⟩
        refine ⟨u, by simp, v, ?_, hPair⟩
        rintro rfl
        simp at hNodup
  · rintro ⟨u, hu, v, hne, hTo, hFrom⟩
    have hv : g.IsNode v := by
      rcases ReflTransGen.cases_tail hTo with rfl | ⟨w, _, hEdge⟩
      · exact absurd rfl hne
      · exact Or.inr ⟨w, hEdge⟩
    obtain ⟨d, hd, hud, hvd⟩ := (condensed.together u v (hNode u hu) hv).mpr ⟨hTo, hFrom⟩
    have hSame : d = c := condensed.eq_of_mem hd hc hud hu
    subst hSame
    match d, hu, hvd with
    | [a], hu, hvd =>
        simp only [List.mem_singleton] at hu hvd
        exact absurd (hvd.trans hu.symm) hne
    | _ :: _ :: _, _, _ => simp

open scoped Classical in
/-- The search for components does what it is for. Every component that it
completes is found among the open nodes, with its first node; it ends by
itself, with every key known; what it has found then are the strongly
connected components, each after those it leads to; and the cyclic ones are
those with a node on a closed walk through another. -/
theorem components_search_correct (g : Adjacency α) :
    (∀ s, Search.Reached g s → ∀ f ∈ s.frames, f.node ∈ s.pending) ∧
    (∃ t, Search.Reached g t ∧ t.frames = [] ∧ (∀ v ∈ Assoc.keys g, (t.numberOf? v).isSome) ∧
      components g = t.components.reverse) ∧
    g.IsCondensation (components g) ∧
    cyclic g = (components g).filter fun c => g.HasRound c := by
  refine ⟨fun s hs => hs.steady.frame_pending, Search.exists_finished g,
    components_isCondensation g, ?_⟩
  refine List.filter_congr fun c hc => ?_
  rw [decide_eq_decide]
  exact (components_isCondensation g).one_lt_length_iff hc

-- A node that is no key is a component of its own, and comes before those that lead to it.
example : components [(1, [2, 1]), (2, [1, 3, 3])] = [[3], [1, 2]] := by decide

end SourceAtlas.Graph
