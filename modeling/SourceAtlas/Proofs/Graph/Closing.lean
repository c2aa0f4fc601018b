import SourceAtlas.Proofs.Graph.Search

/-!
Completing a component. When a frame with nothing to follow reaches no older open node, the nodes
opened since are the whole component of its node: none of them leads to an older open node, and
each of them leads back to it.
-/
namespace SourceAtlas.Graph.Search

open Relation

variable {α : Type} [DecidableEq α] {g : Adjacency α} {s : Search α} {f : Frame α}
  {rest : List (Frame α)}

/-- Edges do not lead out of components that are ordered: a successor is in
the same component or in one that was closed before. -/
theorem Ordered.successor {cs : List (List α)} (ordered : Ordered g cs) {u x : α}
    (hu : ∃ c ∈ cs, u ∈ c) (hEdge : g.Edge u x) : ∃ c ∈ cs, x ∈ c := by
  induction cs with
  | nil => simp at hu
  | cons c cs ih =>
      obtain ⟨hHead, hTail⟩ := ordered
      obtain ⟨d, hd, hud⟩ := hu
      rcases List.mem_cons.mp hd with rfl | hd
      · rcases hHead u hud x hEdge with hSame | ⟨c', hc', hxc'⟩
        · exact ⟨d, List.mem_cons_self .., hSame⟩
        · exact ⟨c', List.mem_cons_of_mem _ hc', hxc'⟩
      · obtain ⟨c', hc', hxc'⟩ := ih hTail ⟨d, hd, hud⟩
        exact ⟨c', List.mem_cons_of_mem _ hc', hxc'⟩

theorem Ordered.reaches {cs : List (List α)} (ordered : Ordered g cs) {u x : α}
    (hu : ∃ c ∈ cs, u ∈ c) (hPath : g.Reaches u x) : ∃ c ∈ cs, x ∈ c := by
  induction hPath with
  | refl => exact hu
  | tail _ hEdge ih => exact ordered.successor ih hEdge

theorem Inv.closed_successor {next : α → Prop} (inv : s.Inv g next) {u x : α} (hu : s.Closed u)
    (hEdge : g.Edge u x) : s.Closed x :=
  inv.components_ordered.successor hu hEdge

/-- Nothing leads from the nodes opened since the newest frame to an
older open node, if the mark of that frame is its own number. -/
theorem Inv.newest_successor (inv : s.Steady g) (hFrames : s.frames = f :: rest)
    (hTodo : f.todo = []) (hRoot : f.low = f.number) {u x : α} (hu : u ∈ s.pending)
    (hNewer : f.number ≤ s.number u) (hx : x ∈ g.successors u) :
    s.Closed x ∨ x ∈ s.pending ∧ f.number ≤ s.number x := by
  have hTop : f ∈ s.frames := newest_mem hFrames
  have hSettled : s.Settled u x := by
    by_cases hEq : f.node = u
    · subst hEq
      exact inv.settled_of_todo_nil hTop hTodo hx
    -- the frames below are of older nodes
    · have hIdle : s.Idle u := (forall_frames_iff hFrames).mpr ⟨hEq, fun b hb hNode => by
        have hNumber := inv.number_frame (mem_of_below hFrames hb)
        have hBelow := inv.number_below hFrames b hb
        rw [hNode] at hNumber
        omega⟩
      exact inv.finished u hu hIdle x hx
  rcases hSettled with hClosed | ⟨hOpen, hLow⟩
  · exact Or.inl hClosed
  · exact Or.inr ⟨hOpen, hRoot ▸ hLow f hTop (inv.owns_newest hFrames hNewer)⟩

/-- Paths from the nodes opened since the newest frame stay among them until
they come to a closed node. -/
theorem Inv.newest_reaches (inv : s.Steady g) (hFrames : s.frames = f :: rest)
    (hTodo : f.todo = []) (hRoot : f.low = f.number) {u x : α} (hu : u ∈ s.pending)
    (hNewer : f.number ≤ s.number u) (hPath : g.Reaches u x) :
    s.Closed x ∨ x ∈ s.pending ∧ f.number ≤ s.number x := by
  induction hPath with
  | refl => exact Or.inr ⟨hu, hNewer⟩
  | tail _ hEdge ih =>
      rcases ih with hClosed | ⟨hOpen, hLe⟩
      · exact Or.inl (inv.closed_successor hClosed hEdge)
      · exact inv.newest_successor hFrames hTodo hRoot hOpen hLe hEdge

/-- Each node opened since the newest frame leads back to its node, once
that frame has nothing to follow and its mark is its own number. -/
theorem Inv.newest_returns (inv : s.Steady g) (hFrames : s.frames = f :: rest)
    (hTodo : f.todo = []) (hRoot : f.low = f.number) {u : α} (hu : u ∈ s.pending)
    (hNewer : f.number ≤ s.number u) : g.Reaches u f.node := by
  induction hn : s.number u using Nat.strong_induction_on generalizing u with
  | _ n ih =>
      by_cases hIdle : s.Idle u
      · obtain ⟨x, hx, hLess, hPath⟩ := inv.returns u hu hIdle
        rcases inv.newest_reaches hFrames hTodo hRoot hu hNewer hPath with hClosed | ⟨_, hLe⟩
        · exact absurd hx (inv.closed_not_pending x hClosed)
        · exact hPath.trans (ih _ (hn ▸ hLess) hx hLe rfl)
      · simp only [Idle, not_forall, not_not] at hIdle
        obtain ⟨b, hb, rfl⟩ := hIdle
        rw [inv.number_frame hb] at hNewer
        rw [hFrames] at hb
        rcases List.mem_cons.mp hb with rfl | hb
        · exact ReflTransGen.refl
        · exact absurd (inv.number_below hFrames b hb) (Nat.not_lt.mpr hNewer)

/-- The mark of a frame is above those of all frames below it, so handing it
on changes nothing. -/
theorem Inv.lower_eq (inv : s.Steady g) (hFrames : s.frames = f :: rest)
    (hRoot : f.low = f.number) : lower f.low rest = rest := by
  cases rest with
  | nil => rfl
  | cons p rest =>
      have hLess := inv.number_below hFrames p (List.mem_cons_self ..)
      have hLow := inv.low_le p (by simp [hFrames])
      have hMin : min p.low f.low = p.low := by omega
      simp [lower, hMin]

/-- The node of a frame cuts the open nodes into those opened since and
those opened before it. -/
structure Cut (s : Search α) (f : Frame α) (newer older : List α) : Prop where
  pending_eq : s.pending = newer ++ f.node :: older
  number_node : s.number f.node = f.number
  newer_lt : ∀ u ∈ newer, f.number < s.number u
  older_lt : ∀ u ∈ older, s.number u < f.number

theorem Inv.exists_cut {next : α → Prop} (inv : s.Inv g next) (hf : f ∈ s.frames) :
    ∃ newer older, s.Cut f newer older := by
  obtain ⟨newer, older, hSplit⟩ := List.append_of_mem (inv.frame_pending f hf)
  have hSorted := inv.pending_sorted
  rw [hSplit, List.pairwise_append, List.pairwise_cons] at hSorted
  have hNumber := inv.number_frame hf
  refine ⟨newer, older, hSplit, hNumber, fun u hu => ?_, fun u hu => ?_⟩
  · exact hNumber ▸ hSorted.2.2 u hu f.node (List.mem_cons_self ..)
  · exact hNumber ▸ hSorted.2.1.1 u hu

/-- The search after the nodes `c` were taken down as a component: the nodes
`older` are still open, and the frames `fs` are left. -/
def complete (s : Search α) (c older : List α) (fs : List (Frame α)) : Search α :=
  ⟨s.numbers, older, fs, c :: s.components⟩

omit [DecidableEq α] in
theorem closed_complete {c older : List α} {fs : List (Frame α)} {v : α} :
    (s.complete c older fs).Closed v ↔ v ∈ c ∨ s.Closed v := by
  simp [complete, Closed]

section Cut

variable {newer older : List α}

/-- The component of a cut is what the search collects when
it leaves the node. -/
theorem Cut.leave_eq (cut : s.Cut f newer older) (inv : s.Steady g) (hFrames : s.frames = f :: rest)
    (hRoot : f.low = f.number) :
    s.leave f rest = s.complete (f.node :: newer.reverse) older rest := by
  have hNot : ∀ u ∈ newer, u ≠ f.node := by
    rintro u hu rfl
    exact Nat.lt_irrefl _ (cut.number_node ▸ cut.newer_lt f.node hu)
  have hTake : s.pending.takeWhile (· ≠ f.node) = newer := by
    rw [cut.pending_eq, List.takeWhile_append_of_pos (by simpa using hNot)]
    simp
  have hDrop : s.pending.dropWhile (· ≠ f.node) = f.node :: older := by
    rw [cut.pending_eq, List.dropWhile_append_of_pos (by simpa using hNot)]
    simp
  rw [Search.leave, if_pos hRoot, hTake, hDrop, inv.lower_eq hFrames hRoot]
  rfl

theorem Cut.mem_component_iff (cut : s.Cut f newer older) {u : α} :
    u ∈ f.node :: newer.reverse ↔ u ∈ s.pending ∧ f.number ≤ s.number u := by
  rw [cut.pending_eq]
  constructor
  · intro hu
    rcases List.mem_cons.mp hu with rfl | hu
    · exact ⟨by simp, cut.number_node.ge⟩
    · have hu := List.mem_reverse.mp hu
      exact ⟨by simp [hu], (cut.newer_lt u hu).le⟩
  · rintro ⟨hu, hLe⟩
    rcases List.mem_append.mp hu with hu | hu
    · simp [hu]
    · rcases List.mem_cons.mp hu with rfl | hu
      · simp
      · exact absurd (cut.older_lt u hu) (Nat.not_lt.mpr hLe)

theorem Cut.mem_older_iff (cut : s.Cut f newer older) {u : α} :
    u ∈ older ↔ u ∈ s.pending ∧ s.number u < f.number := by
  refine ⟨fun hu => ⟨by simp [cut.pending_eq, hu], cut.older_lt u hu⟩, fun ⟨hu, hLess⟩ => ?_⟩
  rw [cut.pending_eq] at hu
  rcases List.mem_append.mp hu with hu | hu
  · exact absurd (cut.newer_lt u hu) (Nat.lt_asymm hLess)
  · rcases List.mem_cons.mp hu with rfl | hu
    · exact absurd cut.number_node (Nat.ne_of_lt hLess)
    · exact hu

/-- An open node goes into the component that is closed or stays open. The
cut tells which, by the number of the newest frame. -/
theorem Cut.mem_component_or_older (cut : s.Cut f newer older) {u : α} (hu : u ∈ s.pending) :
    u ∈ f.node :: newer.reverse ∨ u ∈ older := by
  rw [cut.mem_component_iff, cut.mem_older_iff]
  rcases Nat.lt_or_ge (s.number u) f.number with hLess | hLe
  · exact Or.inr ⟨hu, hLess⟩
  · exact Or.inl ⟨hu, hLe⟩

/-- The component lists its members in order of discovery, the node of the
newest frame being the first of them. -/
theorem Cut.component_sorted (cut : s.Cut f newer older) {next : α → Prop} (inv : s.Inv g next) :
    (f.node :: newer.reverse).Pairwise fun a b => s.number a < s.number b := by
  have hSorted := inv.pending_sorted
  have hPending : s.pending = (f.node :: newer.reverse).reverse ++ older := by simp [cut.pending_eq]
  rw [hPending, List.pairwise_append] at hSorted
  exact List.pairwise_reverse.mp hSorted.1

theorem Cut.older_sorted (cut : s.Cut f newer older) {next : α → Prop} (inv : s.Inv g next) :
    older.Pairwise fun a b => s.number b < s.number a := by
  have hSorted := inv.pending_sorted
  rw [cut.pending_eq, List.pairwise_append, List.pairwise_cons] at hSorted
  exact hSorted.2.1.2

/-- The nodes of the frames below stay open: their numbers are smaller than
that of the newest frame. -/
theorem Cut.node_older (cut : s.Cut f newer older) (inv : s.Steady g) (hFrames : s.frames = f :: rest)
    {b : Frame α} (hb : b ∈ rest) : b.node ∈ older := by
  have hMem := mem_of_below hFrames hb
  refine cut.mem_older_iff.mpr ⟨inv.frame_pending b hMem, ?_⟩
  rw [inv.number_frame hMem]
  exact inv.number_below hFrames b hb

/-- An older node without a frame below had no frame before, since the node
of the frame that is closed is not among the older ones. -/
theorem Cut.idle_older (cut : s.Cut f newer older) (hFrames : s.frames = f :: rest) {u : α}
    (hu : u ∈ older) (hIdle : ∀ b ∈ rest, b.node ≠ u) : s.Idle u := by
  refine (forall_frames_iff hFrames).mpr ⟨?_, hIdle⟩
  rintro rfl
  exact Nat.lt_irrefl _ (cut.number_node ▸ cut.older_lt f.node hu)

/-- Successors that were settled still are: those in the component are
closed, and the frame that is gone did not speak for an older node. -/
theorem Cut.settled_complete (cut : s.Cut f newer older) (hFrames : s.frames = f :: rest) {u x : α}
    (hu : u ∈ older) (hSettled : s.Settled u x) :
    (s.complete (f.node :: newer.reverse) older rest).Settled u x := by
  rcases hSettled with hClosed | ⟨hx, hLow⟩
  · exact Or.inl (closed_complete.mpr (Or.inr hClosed))
  · rcases cut.mem_component_or_older hx with hx | hx
    · exact Or.inl (closed_complete.mpr (Or.inl hx))
    · refine Or.inr ⟨hx, fun b hb ⟨hLe, hOthers⟩ => ?_⟩
      refine hLow b (mem_of_below hFrames hb) ⟨hLe, ?_⟩
      exact (forall_frames_iff hFrames).mpr ⟨fun _ => cut.older_lt u hu, hOthers⟩

end Cut

/-- Taking the newest open nodes down to that of the top frame as a
component keeps the invariant. -/
theorem Inv.close (inv : s.Steady g) (hFrames : s.frames = f :: rest) (hTodo : f.todo = [])
    (hRoot : f.low = f.number) {newer older : List α} (cut : s.Cut f newer older) :
    (s.complete (f.node :: newer.reverse) older rest).Steady g := by
  have hTop : f ∈ s.frames := newest_mem hFrames
  have hMem : ∀ b ∈ rest, b ∈ s.frames := fun b hb => mem_of_below hFrames hb
  have hOpen : ∀ u ∈ older, u ∈ s.pending := fun u hu => (cut.mem_older_iff.mp hu).1
  constructor
  case number_lt => exact inv.number_lt
  case number_inj => exact inv.number_inj
  case found_node => exact inv.found_node
  case found_iff =>
    intro v
    refine (inv.found_iff v).trans ?_
    rw [closed_complete]
    constructor
    · rintro (hv | hv)
      · exact (cut.mem_component_or_older hv).elim (fun hv => Or.inr (Or.inl hv)) Or.inl
      · exact Or.inr (Or.inr hv)
    · rintro (hv | hv | hv)
      · exact Or.inl (hOpen v hv)
      · exact Or.inl (cut.mem_component_iff.mp hv).1
      · exact Or.inr hv
  case pending_sorted => exact cut.older_sorted inv
  case closed_not_pending =>
    intro v hv hOld
    rcases closed_complete.mp hv with hv | hv
    · exact absurd (cut.older_lt v hOld) (Nat.not_lt.mpr (cut.mem_component_iff.mp hv).2)
    · exact inv.closed_not_pending v hv (hOpen v hOld)
  case components_nodup =>
    refine List.nodup_append.mpr ⟨?_, inv.components_nodup, ?_⟩
    · exact (cut.component_sorted inv).imp fun hLess => ne_of_apply_ne s.number (Nat.ne_of_lt hLess)
    · rintro a ha b hb rfl
      obtain ⟨c, hc, hac⟩ := List.mem_flatten.mp hb
      exact inv.closed_not_pending a ⟨c, hc, hac⟩ (cut.mem_component_iff.mp ha).1
  case components_ordered =>
    refine ⟨fun u hu x hx => ?_, inv.components_ordered⟩
    obtain ⟨hPending, hLe⟩ := cut.mem_component_iff.mp hu
    rcases inv.newest_successor hFrames hTodo hRoot hPending hLe hx with hOld | hx
    · exact Or.inr hOld
    · exact Or.inl (cut.mem_component_iff.mpr hx)
  case component_reaches =>
    refine List.forall_mem_cons.mpr ⟨fun u hu v hv => ?_, inv.component_reaches⟩
    obtain ⟨hPending, hLe⟩ := cut.mem_component_iff.mp hu
    obtain ⟨hPending', hLe'⟩ := cut.mem_component_iff.mp hv
    exact (inv.newest_returns hFrames hTodo hRoot hPending hLe).trans
      (inv.frame_reaches f hTop v hPending' hLe')
  case component_ne_nil =>
    exact List.forall_mem_cons.mpr ⟨List.cons_ne_nil _ _, inv.component_ne_nil⟩
  case frame_number => exact fun b hb => inv.frame_number b (hMem b hb)
  case frame_pending => exact fun b hb => cut.node_older inv hFrames hb
  case frames_sorted => exact inv.below_sorted hFrames
  case frame_reaches =>
    exact fun b hb u hu hLe => inv.frame_reaches b (hMem b hb) u (hOpen u hu) hLe
  case low_le => exact fun b hb => inv.low_le b (hMem b hb)
  case low_reached =>
    intro b hb
    obtain ⟨u, hu, hLow, hPath⟩ := inv.low_reached b (hMem b hb)
    have hLe := inv.low_le b (hMem b hb)
    have hLess := inv.number_below hFrames b hb
    exact ⟨u, cut.mem_older_iff.mpr ⟨hu, by omega⟩, hLow, hPath⟩
  case returns =>
    intro u hu hIdle
    obtain ⟨x, hx, hLess, hPath⟩ := inv.returns u (hOpen u hu) (cut.idle_older hFrames hu hIdle)
    exact ⟨x, cut.mem_older_iff.mpr ⟨hx, hLess.trans (cut.older_lt u hu)⟩, hLess, hPath⟩
  case finished =>
    intro u hu hIdle x hx
    have hWasIdle := cut.idle_older hFrames hu hIdle
    exact cut.settled_complete hFrames hu (inv.finished u (hOpen u hu) hWasIdle x hx)
  case followed =>
    intro b hb
    obtain ⟨done, hDone, hAll⟩ := inv.followed b (hMem b hb)
    refine ⟨done, hDone, fun x hx => Or.inr ?_⟩
    exact cut.settled_complete hFrames (cut.node_older inv hFrames hb) ((hAll x hx).resolve_left id)

/-- Leaving a node keeps the invariant, whether or not a
component is complete. -/
theorem Inv.leave (inv : s.Steady g) (hFrames : s.frames = f :: rest) (hTodo : f.todo = []) :
    (s.leave f rest).Steady g := by
  by_cases hRoot : f.low = f.number
  · obtain ⟨newer, older, cut⟩ := inv.exists_cut (newest_mem hFrames)
    rw [cut.leave_eq inv hFrames hRoot]
    exact inv.close hFrames hTodo hRoot cut
  · rw [Search.leave, if_neg hRoot]
    exact inv.merge hFrames hTodo hRoot

end SourceAtlas.Graph.Search
