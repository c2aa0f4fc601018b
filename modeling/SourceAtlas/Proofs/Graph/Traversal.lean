import SourceAtlas.Proofs.Assoc
import SourceAtlas.Proofs.Graph.Components

/-!
Depth-first search by plain recursion, and the order in which the search for components says what
it finds. The frames of that search are the recursion that is still to be done, so both discover and
finish nodes in the same order.
-/
namespace SourceAtlas.Graph

variable {α : Type} [DecidableEq α]

/-- A depth-first search so far: the nodes discovered and the nodes
finished, the newest first. -/
structure Traversal (α : Type) where
  discovered : List α := []
  finished : List α := []
  deriving DecidableEq, Repr

namespace Traversal

def discover (v : α) (t : Traversal α) : Traversal α := { t with discovered := v :: t.discovered }

def finish (v : α) (t : Traversal α) : Traversal α := { t with finished := v :: t.finished }

/-- How many keys are still to be discovered. -/
def unknown (g : Adjacency α) (t : Traversal α) : Nat :=
  ((Assoc.keys g).filter fun v => v ∉ t.discovered).length

/-- The more is discovered, the less is unknown. -/
theorem unknown_le (g : Adjacency α) {t t' : Traversal α} (hKnown : t.discovered ⊆ t'.discovered) :
    unknown g t' ≤ unknown g t := by
  refine (List.monotone_filter_right _ fun v hv => ?_).length_le
  simp only [decide_eq_true_eq] at hv ⊢
  exact fun hOld => hv (hKnown hOld)

/-- Discovering a key leaves one key less to be discovered, which is why
following nodes comes to an end. -/
theorem unknown_discover {g : Adjacency α} {t : Traversal α} {v : α} (hKey : v ∈ Assoc.keys g)
    (hNew : v ∉ t.discovered) : unknown g (t.discover v) < unknown g t := by
  have hSame : (Assoc.keys g).filter (fun u => u ∉ (t.discover v).discovered) =
      ((Assoc.keys g).filter fun u => u ∉ t.discovered).filter fun u => u ≠ v := by
    rw [List.filter_filter]
    refine List.filter_congr fun u _ => ?_
    simp [discover, not_or]
  rw [unknown, hSame, unknown]
  refine List.length_filter_lt_length_iff_exists.mpr ⟨v, ?_, by simp⟩
  exact List.mem_filter.mpr ⟨hKey, by simpa using hNew⟩

/-- Follow nodes in order, with what is known to stay discovered. A node
that is not discovered yet is discovered, its successors are followed, and
then it is finished. -/
def followFrom (g : Adjacency α) (t : Traversal α) :
    List α → { t' : Traversal α // t.discovered ⊆ t'.discovered }
  | [] => ⟨t, List.Subset.refl _⟩
  | v :: rest =>
    if v ∈ t.discovered then followFrom g t rest
    else
      let inner := followFrom g (t.discover v) (g.successors v)
      let all := followFrom g (inner.1.finish v) rest
      ⟨all.1, fun _ hu => all.2 (inner.2 (List.mem_cons_of_mem v hu))⟩
termination_by todo => (unknown g t, todo.length)
decreasing_by
  · exact Prod.Lex.right _ (Nat.lt_succ_self _)
  · next hNew =>
    by_cases hKey : v ∈ Assoc.keys g
    · exact Prod.Lex.left _ _ (unknown_discover hKey hNew)
    -- a node that is no key has no successors, and no key is discovered with it
    · rw [successors_of_not_key hKey]
      have hLe : unknown g (t.discover v) ≤ unknown g t := unknown_le g (List.subset_cons_self v _)
      exact Prod.Lex.right' _ hLe (Nat.succ_pos _)
  · have hLe : unknown g (inner.1.finish v) ≤ unknown g t :=
      unknown_le g fun _ hu => inner.2 (List.mem_cons_of_mem v hu)
    exact Prod.Lex.right' _ hLe (Nat.lt_succ_self _)

/-- Follow nodes in order by recursion. -/
def follow (g : Adjacency α) (t : Traversal α) (todo : List α) : Traversal α := (followFrom g t todo).1

theorem follow_nil (g : Adjacency α) (t : Traversal α) : follow g t [] = t := by
  rw [follow, followFrom]

/-- A node that is known is passed over. -/
theorem follow_known {g : Adjacency α} {t : Traversal α} {v : α} (hKnown : v ∈ t.discovered)
    (rest : List α) : follow g t (v :: rest) = follow g t rest := by
  rw [follow, followFrom, if_pos hKnown, follow]

/-- A node that is new is discovered, followed to its end, and finished. Its
successors come before whatever was still to be followed. -/
theorem follow_new {g : Adjacency α} {t : Traversal α} {v : α} (hNew : v ∉ t.discovered)
    (rest : List α) : follow g t (v :: rest) =
      follow g ((follow g (t.discover v) (g.successors v)).finish v) rest := by
  rw [follow, followFrom, if_neg hNew]
  rfl

/-- Nodes are followed one after the other. -/
theorem follow_cons (g : Adjacency α) (t : Traversal α) (v : α) (rest : List α) :
    follow g t (v :: rest) = follow g (follow g t [v]) rest := by
  by_cases hKnown : v ∈ t.discovered
  · rw [follow_known hKnown, follow_known hKnown, follow_nil]
  · rw [follow_new hKnown, follow_new hKnown, follow_nil]

/-- What following adds: nodes that were not discovered before, each
discovered and finished once. -/
theorem follow_adds (g : Adjacency α) (t : Traversal α) (todo : List α) :
    ∃ found left, (follow g t todo).discovered = found ++ t.discovered ∧
      (follow g t todo).finished = left ++ t.finished ∧ left.Perm found ∧
      (t.discovered.Nodup → (found ++ t.discovered).Nodup) := by
  fun_induction followFrom g t todo with
  | case1 t => exact ⟨[], [], by simp [follow_nil], by simp [follow_nil], .nil, id⟩
  | case2 t v rest hKnown ih =>
      rw [follow_known hKnown]
      exact ih
  | case3 t v rest hNew inner all ihInner ihAll =>
      obtain ⟨found, left, hFound, hLeft, hPerm, hNodup⟩ := ihInner
      obtain ⟨found', left', hFound', hLeft', hPerm', hNodup'⟩ := ihAll
      have hDiscovered : (inner.1.finish v).discovered = found ++ v :: t.discovered := hFound
      have hFinished : (inner.1.finish v).finished = v :: (left ++ t.finished) := congrArg (v :: ·) hLeft
      have hSame : follow g t (v :: rest) = follow g (inner.1.finish v) rest := follow_new hNew rest
      refine ⟨found' ++ found ++ [v], left' ++ v :: left, ?_, ?_, ?_, fun hOld => ?_⟩
      · rw [hSame, hFound', hDiscovered]
        simp
      · rw [hSame, hLeft', hFinished]
        simp
      · have hInner : (v :: left).Perm (found ++ [v]) :=
          (hPerm.cons v).trans (List.perm_append_singleton v found).symm
        rw [List.append_assoc]
        exact hPerm'.append hInner
      · have hStart : (t.discover v).discovered.Nodup := List.nodup_cons.mpr ⟨hNew, hOld⟩
        have hAll := hNodup' (hDiscovered ▸ hNodup hStart)
        rw [hDiscovered] at hAll
        simpa using hAll

/-- The number of a node in order of discovery. -/
def preorder (t : Traversal α) (v : α) : Nat := t.discovered.reverse.idxOf v

/-- The number of a node in order of finishing. -/
def postorder (t : Traversal α) (v : α) : Nat := t.finished.reverse.idxOf v

end Traversal

/-- The recursive depth-first search of a graph. It starts from the keys in
their order. -/
def traversal (g : Adjacency α) : Traversal α := Traversal.follow g {} (Assoc.keys g)

-- The third node is discovered from the first, before the second key is tried.
example : traversal [(1, [3, 2]), (2, [1])] = ⟨[2, 3, 1], [1, 2, 3]⟩ := by cbv

/-- A traversal discovers each node once, and finishes what it discovered. -/
theorem traversal_nodup (g : Adjacency α) :
    (traversal g).discovered.Nodup ∧ (traversal g).finished.Perm (traversal g).discovered := by
  obtain ⟨found, left, hFound, hLeft, hPerm, hNodup⟩ := Traversal.follow_adds g {} (Assoc.keys g)
  rw [traversal, hFound, hLeft]
  exact ⟨hNodup List.nodup_nil, hPerm.append_right _⟩

namespace Search

open Traversal

/-- The recursion that frames stand for: the newest follows what it has
still to do, its node is finished, and the next frame goes on. -/
def resume (g : Adjacency α) (t : Traversal α) : List (Frame α) → Traversal α
  | [] => t
  | f :: rest => resume g ((follow g t f.todo).finish f.node) rest

/-- A search that has come as far as a traversal. Open nodes and members of
components stand in the order of discovery, first members of components in
that of finishing. -/
structure Traced (s : Search α) (t : Traversal α) : Prop where
  known : s.numbers.map Prod.fst = t.discovered
  pending : s.pending.Sublist t.discovered
  members : ∀ c ∈ s.components, c.Sublist t.discovered.reverse
  roots : (s.components.filterMap List.head?).Sublist t.finished

variable {g : Adjacency α} {s : Search α} {t : Traversal α} {f : Frame α} {rest : List (Frame α)}

omit [DecidableEq α] in
/-- At the start neither the search nor the traversal knows a node. -/
theorem traced_start : (start : Search α).Traced {} :=
  ⟨rfl, List.Sublist.refl _, by simp [start], List.Sublist.refl _⟩

/-- A node has no number as long as it is not discovered. -/
theorem Traced.numberOf?_eq_none_iff (traced : s.Traced t) {v : α} :
    s.numberOf? v = none ↔ v ∉ t.discovered := by
  rw [numberOf?, Assoc.get?_eq_none_iff, traced.known]

/-- Entering a node of the search is discovering it in the traversal. -/
theorem Traced.enter (traced : s.Traced t) (g : Adjacency α) (v : α) :
    (s.enter g v).Traced (t.discover v) where
  known := congrArg (v :: ·) traced.known
  pending := traced.pending.cons_cons v
  members c hc := by
    refine (traced.members c hc).trans ?_
    rw [discover, List.reverse_cons]
    exact List.sublist_append_left _ _
  roots := traced.roots

omit [DecidableEq α] in
/-- What is left to do does not depend on marks. -/
theorem resume_lower (g : Adjacency α) [DecidableEq α] (t : Traversal α) (n : Nat)
    (fs : List (Frame α)) : resume g t (lower n fs) = resume g t fs := by
  cases fs <;> rfl

theorem takeWhile_append_cons {v : α} {vs : List α} (hMem : v ∈ vs) :
    vs.takeWhile (· ≠ v) ++ v :: (vs.dropWhile (· ≠ v)).tail = vs := by
  induction vs with
  | nil => cases hMem
  | cons u vs ih =>
      by_cases hEq : u = v
      · simp [hEq]
      · have hRest := ih ((List.mem_cons.mp hMem).resolve_left (Ne.symm hEq))
        simpa [hEq] using hRest

/-- Leaving a node finishes it. The component that is completed with it
takes the newest open nodes, which stand in the order of their discovery. -/
theorem Traced.leave (traced : s.Traced t) (hOpen : f.node ∈ s.pending) (rest : List (Frame α)) :
    (s.leave f rest).Traced (t.finish f.node) := by
  have hSplit := takeWhile_append_cons hOpen
  have hPending := traced.pending
  rw [← hSplit] at hPending
  rw [Search.leave]
  split
  · refine ⟨traced.known, ?_, fun c hc => ?_, traced.roots.cons_cons _⟩
    · exact ((List.sublist_cons_self _ _).trans (List.sublist_append_right _ _)).trans hPending
    · rcases List.mem_cons.mp hc with rfl | hc
      · have hNewest : (s.pending.takeWhile (· ≠ f.node) ++ [f.node]).Sublist t.discovered := by
          refine List.Sublist.trans ?_ hPending
          exact List.Sublist.append_left (List.singleton_sublist.mpr (List.mem_cons_self ..)) _
        simpa [finish] using hNewest.reverse
      · exact traced.members c hc
  · exact ⟨traced.known, traced.pending, traced.members, traced.roots.cons _⟩

/-- A step keeps up with the recursion and leaves what is still to
be done as it is. -/
theorem Traced.step (traced : s.Traced t) (inv : s.Steady g) (hBusy : s.frames ≠ []) :
    ∃ t', (s.step g).Traced t' ∧ resume g t' (s.step g).frames = resume g t s.frames := by
  obtain ⟨f, rest, hFrames⟩ := List.exists_cons_of_ne_nil hBusy
  rcases step_cases (g := g) hFrames with
    ⟨hTodo, hStep⟩ | ⟨w, more, hTodo, hNew, hStep⟩ | ⟨w, more, n, hTodo, hKnown, hStep⟩
  · have hOpen : f.node ∈ s.pending := inv.frame_pending f (newest_mem hFrames)
    refine ⟨t.finish f.node, hStep ▸ traced.leave hOpen rest, ?_⟩
    have hLeft : (s.leave f rest).frames = lower f.low rest := by
      rw [Search.leave]
      split <;> rfl
    rw [hStep, hLeft, resume_lower, hFrames, resume, hTodo, follow_nil]
  · have hUnknown : w ∉ t.discovered := traced.numberOf?_eq_none_iff.mp hNew
    have hTop : ({ s with frames := { f with todo := more } :: rest } : Search α).Traced t :=
      ⟨traced.known, traced.pending, traced.members, traced.roots⟩
    refine ⟨t.discover w, hStep ▸ hTop.enter g w, ?_⟩
    rw [hStep, hFrames]
    simp only [Search.enter, resume, hTodo, follow_new hUnknown]
  · have hDiscovered : w ∈ t.discovered := by
      by_contra hUnknown
      rw [traced.numberOf?_eq_none_iff.mpr hUnknown] at hKnown
      cases hKnown
    refine ⟨t, ?_, ?_⟩
    · rw [hStep]
      exact ⟨traced.known, traced.pending, traced.members, traced.roots⟩
    · rw [hStep, hFrames]
      simp only [resume, hTodo, follow_known hDiscovered]

/-- A run to its end does all that was still to be done, frame by frame, as
the recursive traversal does. -/
theorem Traced.run {n : Nat} (traced : s.Traced t) (reached : Reached g s)
    (hFuel : remaining g s ≤ n) : (run g n s).Traced (resume g t s.frames) := by
  induction n generalizing s t with
  | zero =>
      obtain ⟨-, hIdle⟩ := run_reached reached hFuel
      rw [Search.run] at hIdle ⊢
      rw [hIdle]
      exact traced
  | succ n ih =>
      rw [Search.run]
      split
      next hIdle =>
        rw [List.isEmpty_iff.mp hIdle]
        exact traced
      next hBusy =>
        have hBusy : s.frames ≠ [] := by simpa using hBusy
        obtain ⟨t', traced', hResume⟩ := traced.step reached.steady hBusy
        have hStep := remaining_step reached.steady hBusy
        rw [← hResume]
        exact ih traced' (reached.step hBusy) (by omega)

/-- Searching from a key is following it: nothing if it is known, and
otherwise all that is reached from it. -/
theorem Traced.visit {v : α} (traced : s.Traced t) (reached : Reached g s) (hIdle : s.frames = [])
    (hKey : v ∈ Assoc.keys g) : (s.visit g v).Traced (follow g t [v]) := by
  rw [Search.visit]
  split
  next n hKnown =>
    have hDiscovered : v ∈ t.discovered := by
      by_contra hUnknown
      rw [traced.numberOf?_eq_none_iff.mpr hUnknown] at hKnown
      cases hKnown
    rw [follow_known hDiscovered, follow_nil]
    exact traced
  next hNew =>
    have hFuel : remaining g (s.enter g v) ≤ fuel g := by
      rw [remaining_enter (Or.inl hKey) hNew]
      exact remaining_le_fuel hIdle
    have hRun := (traced.enter g v).run (reached.enter hIdle hKey hNew) hFuel
    rw [follow_new (traced.numberOf?_eq_none_iff.mp hNew), follow_nil]
    simpa only [Search.enter, hIdle, resume] using hRun

/-- Visiting keys one after the other comes as far as following them does. -/
theorem Traced.foldl_visit {keys : List α} (traced : s.Traced t) (reached : Reached g s)
    (hIdle : s.frames = []) (hKeys : ∀ v ∈ keys, v ∈ Assoc.keys g) :
    (keys.foldl (Search.visit g) s).Traced (follow g t keys) := by
  induction keys generalizing s t with
  | nil =>
      rw [follow_nil]
      exact traced
  | cons v keys ih =>
      have hKey := hKeys v (List.mem_cons_self ..)
      obtain ⟨hReached, hDone, -⟩ := visit_reached reached hIdle hKey
      rw [follow_cons]
      exact ih (traced.visit reached hIdle hKey) hReached hDone
        fun u hu => hKeys u (List.mem_cons_of_mem _ hu)

end Search

/-- Positions in a list without repetition grow along every part of it. So
what is in order by number is in order by position. -/
theorem pairwise_idxOf {vs part : List α} (hNodup : vs.Nodup) (hPart : part.Sublist vs) :
    part.Pairwise fun u v => vs.idxOf u < vs.idxOf v := by
  refine List.Pairwise.sublist hPart (List.pairwise_iff_getElem.mpr fun i j hi hj hLess => ?_)
  rwa [hNodup.idxOf_getElem i hi, hNodup.idxOf_getElem j hj]

/-- The search for components is the recursive depth-first search. That
search discovers and finishes every node once; each component lists its
members in strict order of discovery, its first member first, and components
come in the order in which their first members are finished. -/
theorem components_follow_traversal (g : Adjacency α) :
    (traversal g).discovered.Nodup ∧ (traversal g).finished.Perm (traversal g).discovered ∧
    (∀ v, v ∈ (traversal g).discovered ↔ g.IsNode v) ∧
    (∀ c ∈ components g, ∃ first others, c = first :: others ∧
      c.Pairwise (fun u v => (traversal g).preorder u < (traversal g).preorder v) ∧
      ∀ v ∈ others, (traversal g).preorder first < (traversal g).preorder v) ∧
    (components g).Pairwise fun c d => ∀ u v, c.head? = some u → d.head? = some v →
      (traversal g).postorder u < (traversal g).postorder v := by
  obtain ⟨hNodup, hPerm⟩ := traversal_nodup g
  obtain ⟨hReached, hDone, -⟩ :=
    Search.foldl_visit_reached (Assoc.keys g) (Search.Reached.start (g := g)) rfl fun v hv => hv
  have traced : ((Assoc.keys g).foldl (Search.visit g) Search.start).Traced (traversal g) :=
    Search.traced_start.foldl_visit .start rfl fun v hv => hv
  have condensed := components_isCondensation g
  have inv := hReached.steady
  refine ⟨hNodup, hPerm, fun v => ?_, fun c hc => ?_, ?_⟩
  · have hFound := inv.found_iff v
    rw [inv.pending_eq_nil hDone, ← Option.ne_none_iff_isSome] at hFound
    simp only [List.not_mem_nil, false_or] at hFound
    rw [← condensed.covers, components, List.mem_flatten, ← not_not (a := v ∈ _),
      ← traced.numberOf?_eq_none_iff, ← ne_eq, hFound]
    simp only [Search.Closed, List.mem_reverse]
  · have hSublist := traced.members c (List.mem_reverse.mp hc)
    have hOrdered := pairwise_idxOf (List.nodup_reverse.mpr hNodup) hSublist
    obtain ⟨first, others, rfl⟩ := List.exists_cons_of_ne_nil (condensed.nonempty c hc)
    exact ⟨first, others, rfl, hOrdered, (List.pairwise_cons.mp hOrdered).1⟩
  · have hRoots := pairwise_idxOf (List.nodup_reverse.mpr (hPerm.nodup_iff.mpr hNodup)) traced.roots.reverse
    rw [← List.filterMap_reverse, List.pairwise_filterMap] at hRoots
    exact hRoots.imp fun hLess u v hu hv => hLess u hu v hv

end SourceAtlas.Graph
