import SourceAtlas.Proofs.Graph.Cycles

/-!
How the members of a cycle lead to one another. Each member but the first has an edge from a member listed
before it, and edges among members lead from the last back to the first. One edge is enough for that where
no other member than the first is led to from two, as in a ring.
-/
namespace SourceAtlas

open Relation

namespace Graph

variable {α : Type} [DecidableEq α] {g : Adjacency α}

/-- Each node of a list but the first has an edge from a node before it. -/
def Led (g : Adjacency α) (vs : List α) : Prop :=
  ∀ before v after, vs = before ++ v :: after → before ≠ [] → ∃ u ∈ before, g.Edge u v

namespace Search

variable {s : Search α} {f : Frame α} {rest : List (Frame α)}

/-- A node opened after that of a frame has an edge from a node opened
before it and not before that of the frame. In a component this puts the
edge between members. -/
structure Guided (g : Adjacency α) (s : Search α) : Prop where
  opened : ∀ f ∈ s.frames, ∀ v ∈ s.pending, f.number < s.number v →
    ∃ u ∈ s.pending, f.number ≤ s.number u ∧ s.number u < s.number v ∧ g.Edge u v
  completed : ∀ c ∈ s.components, Led g c

theorem guided_start (g : Adjacency α) : (start : Search α).Guided g where
  opened := by simp [start]
  completed := by simp [start]

/-- Frames that stand for old ones change nothing. -/
theorem Guided.reframe {fs : List (Frame α)} (guided : s.Guided g)
    (hOld : ∀ f ∈ fs, ∃ f' ∈ s.frames, f'.number = f.number) : ({ s with frames := fs } : Search α).Guided g where
  opened f hf v hv hNewer := by
    obtain ⟨f', hf', hNumber⟩ := hOld f hf
    rw [← hNumber] at hNewer ⊢
    exact guided.opened f' hf' v hv hNewer
  completed := guided.completed

/-- A node that is discovered has an edge from a node at or after that of
the newest frame, the one whose successor it is. -/
theorem Guided.enter {next : α → Prop} {w : α} (guided : s.Guided g) (inv : s.Inv g next)
    (hNew : s.numberOf? w = none)
    (hEdge : ∀ f ∈ s.frames, ∃ u ∈ s.pending, f.number ≤ s.number u ∧ g.Edge u w) :
    (s.enter g w).Guided g where
  opened f hf v hv hNewer := by
    rcases List.mem_cons.mp hv with rfl | hv
    · rw [number_enter_self] at hNewer ⊢
      rcases List.mem_cons.mp hf with rfl | hf
      · exact absurd hNewer (Nat.lt_irrefl _)
      · obtain ⟨u, hu, hLe, hLeads⟩ := hEdge f hf
        have hOther : (s.enter g v).number u = s.number u := number_enter_of_ne (inv.ne_of_pending hNew hu)
        refine ⟨u, List.mem_cons_of_mem _ hu, by rwa [hOther], ?_, hLeads⟩
        rw [hOther]
        exact inv.number_lt_length hu
    · have hOther {u : α} (hu : u ∈ s.pending) : (s.enter g w).number u = s.number u :=
        number_enter_of_ne (inv.ne_of_pending hNew hu)
      rw [hOther hv] at hNewer ⊢
      rcases List.mem_cons.mp hf with rfl | hf
      · -- no node is newer than the one that is entered
        have hOld := inv.number_lt_length hv
        exact absurd hNewer (Nat.lt_asymm hOld)
      · obtain ⟨u, hu, hLe, hLess, hLeads⟩ := guided.opened f hf v hv hNewer
        rw [← hOther hu] at hLe hLess
        exact ⟨u, List.mem_cons_of_mem _ hu, hLe, hLess, hLeads⟩
  completed := guided.completed

/-- The nodes opened since that of a frame lead to one another, that of the
frame first. -/
theorem Guided.led (guided : s.Guided g) (inv : s.Steady g) (hf : f ∈ s.frames) {newer older : List α}
    (cut : s.Cut f newer older) : Led g (f.node :: newer.reverse) := by
  intro before v after hMembers hSome
  have hSorted := cut.component_sorted inv
  obtain ⟨hv, hLe⟩ := cut.mem_component_iff.mp (hMembers ▸ by simp : v ∈ f.node :: newer.reverse)
  -- the node comes after the first one, so it is newer
  have hNewer : f.number < s.number v := by
    obtain ⟨first, others, rfl⟩ := List.exists_cons_of_ne_nil hSome
    obtain ⟨rfl, hOthers⟩ := List.cons.inj hMembers
    rw [hOthers, List.pairwise_cons, cut.number_node] at hSorted
    exact hSorted.1 v (by simp)
  obtain ⟨u, hu, hLe, hLess, hEdge⟩ := guided.opened f hf v hv hNewer
  refine ⟨u, ?_, hEdge⟩
  -- of the nodes opened since, one with a smaller number comes before it
  have hMember := cut.mem_component_iff.mpr ⟨hu, hLe⟩
  rw [hMembers] at hMember hSorted
  rcases List.mem_append.mp hMember with hu | hu
  · exact hu
  · have hAfter := (List.pairwise_append.mp hSorted).2.1
    rcases List.mem_cons.mp hu with rfl | hu
    · exact absurd hLess (Nat.lt_irrefl _)
    · exact absurd ((List.pairwise_cons.mp hAfter).1 u hu) (Nat.lt_asymm hLess)

/-- Leaving a node takes open nodes away only together with
those that are newer. -/
theorem Guided.leave (guided : s.Guided g) (inv : s.Steady g) (hFrames : s.frames = f :: rest) :
    (s.leave f rest).Guided g := by
  have hf : f ∈ s.frames := newest_mem hFrames
  by_cases hRoot : f.low = f.number
  · obtain ⟨newer, older, cut⟩ := inv.exists_cut hf
    rw [cut.leave_eq inv hFrames hRoot]
    constructor
    case opened =>
      intro f' hf' v hv hNewer
      obtain ⟨hOpen, hOld⟩ := cut.mem_older_iff.mp hv
      obtain ⟨u, hu, hLe, hLess, hEdge⟩ :=
        guided.opened f' (mem_of_below hFrames hf') v hOpen hNewer
      exact ⟨u, cut.mem_older_iff.mpr ⟨hu, hLess.trans hOld⟩, hLe, hLess, hEdge⟩
    case completed => exact List.forall_mem_cons.mpr ⟨guided.led inv hf cut, guided.completed⟩
  · rw [Search.leave, if_neg hRoot]
    refine guided.reframe fun f' hf' => ?_
    obtain ⟨a, ha, -, hNumber, -⟩ := mem_lower hf'
    exact ⟨a, mem_of_below hFrames ha, hNumber⟩

theorem Guided.step (guided : s.Guided g) (inv : s.Steady g) (hBusy : s.frames ≠ []) : (s.step g).Guided g := by
  obtain ⟨f, rest, hFrames⟩ := List.exists_cons_of_ne_nil hBusy
  have hSame {todo : List α} {low : Nat} : ∀ f' ∈ { f with todo := todo, low := low } :: rest,
      ∃ a ∈ s.frames, a.number = f'.number := by
    rw [hFrames, List.forall_mem_cons]
    exact ⟨⟨f, List.mem_cons_self .., rfl⟩, fun f' hf' => ⟨f', List.mem_cons_of_mem _ hf', rfl⟩⟩
  rcases step_cases (g := g) hFrames with
    ⟨-, hStep⟩ | ⟨w, more, hTodo, hNew, hStep⟩ | ⟨w, more, n, -, -, hStep⟩
  · exact hStep ▸ guided.leave inv hFrames
  · have hTop : f ∈ s.frames := newest_mem hFrames
    have hAdvanced : ({ s with frames := { f with todo := more } :: rest } : Search α).Inv g (· = w) :=
      inv.retop hFrames hTodo (Nat.le_refl _) (inv.low_reached f hTop) (Or.inl rfl)
    refine hStep ▸ (guided.reframe hSame).enter hAdvanced hNew fun f' hf' => ?_
    -- the node of the newest frame is newer than those of the others
    refine ⟨f.node, inv.frame_pending f hTop, ?_, inv.edge_of_todo hTop hTodo⟩
    change f'.number ≤ s.number f.node
    rw [inv.number_frame hTop]
    exact hAdvanced.number_le_newest rfl f' hf'
  · exact hStep ▸ guided.reframe hSame

/-- The search is guided in every state that it passes through, by induction
on its steps beside the invariant. -/
theorem Reached.guided (reached : Reached g s) : s.Guided g := by
  induction reached with
  | start => exact guided_start g
  | enter prior hIdle _ hNew ih => exact ih.enter prior.steady hNew (by simp [hIdle])
  | step prior hBusy ih => exact ih.step prior.steady hBusy

end Search

theorem components_led (g : Adjacency α) : ∀ c ∈ components g, Led g c := by
  obtain ⟨t, hReached, -, -, hResult⟩ := Search.exists_finished g
  intro c hc
  rw [hResult, List.mem_reverse] at hc
  exact hReached.guided.completed c hc

end Graph

/-- From a walk that goes on to another element there is a
step to another one. -/
theorem exists_step_of_walk {α : Type} {r : α → α → Prop} {u v : α} (hWalk : ReflTransGen r u v) (hOther : u ≠ v) :
    ∃ w, w ≠ u ∧ r u w := by
  induction hWalk using ReflTransGen.head_induction_on with
  | refl => exact absurd rfl hOther
  | @head u w hStep _ ih =>
      by_cases hSame : w = u
      · exact hSame ▸ ih (hSame ▸ hOther)
      · exact ⟨w, hSame, hStep⟩

namespace DependencyGraph

variable {g : DependencyGraph} {members : List Text} {first last : Text}

instance (g : DependencyGraph) (u v : Text) : Decidable (g.Leads u v) :=
  inferInstanceAs (Decidable (_ ∈ g.edges))

/-- An edge leads from one member of a list to another. -/
def LeadsAmong (g : DependencyGraph) (members : List Text) (u v : Text) : Prop :=
  u ∈ members ∧ v ∈ members ∧ g.Leads u v

/-- No member of a list but the first is led to from two other members. -/
def LedOnce (g : DependencyGraph) (members : List Text) : Prop :=
  ∀ v ∈ members.tail, ∀ u ∈ members, ∀ u' ∈ members, u ≠ v → u' ≠ v → g.Leads u v → g.Leads u' v → u = u'

instance (g : DependencyGraph) (members : List Text) : Decidable (g.LedOnce members) :=
  inferInstanceAs (Decidable (∀ v ∈ _, _))

/-- How the members of a cycle lead to one another. -/
structure Returns (g : DependencyGraph) (members : List Text) : Prop where
  /-- Each member but the first has an edge from one that is listed before it. -/
  led : ∀ before v after, members = before ++ v :: after → before ≠ [] → ∃ u ∈ before, g.Leads u v
  /-- The last member leads back to the first by edges among members, -/
  back : ∀ first last, members.head? = some first → members.getLast? = some last →
    TransGen (g.LeadsAmong members) last first
  /-- by one edge where no member but the first is led to from two. -/
  closes : g.LedOnce members → ∀ first last, members.head? = some first → members.getLast? = some last →
    g.Leads last first

/-- Members of a round reach each other among themselves, for what lies on
the way between two members is a member. -/
theorem IsRound.reaches_among (round : g.IsRound members) {u v : Text} (hu : u ∈ members) (hv : v ∈ members) :
    ReflTransGen (g.LeadsAmong members) u v := by
  have hPath := ((round.mem_iff u hu v).mp hv).1
  induction hPath using ReflTransGen.head_induction_on with
  | refl => exact .refl
  | @head u w hEdge hPath ih =>
      have hw : w ∈ members := by
        refine (round.mem_iff u hu w).mpr ⟨.single hEdge, ?_⟩
        exact hPath.trans ((round.mem_iff u hu v).mp hv).2
      exact (ih hw).head ⟨hu, hw, hEdge⟩

theorem IsRound.first_ne_last (round : g.IsRound members) (hFirst : members.head? = some first)
    (hLast : members.getLast? = some last) : last ≠ first := by
  obtain ⟨others, rfl⟩ : ∃ others, members = first :: others := List.head?_eq_some_iff.mp hFirst
  have hLong := round.long
  rcases others with _ | ⟨v, others⟩
  · simp at hLong
  · rw [List.getLast?_cons_cons] at hLast
    rintro rfl
    exact (List.nodup_cons.mp round.nodup).1 (List.mem_of_getLast? hLast)

/-- In a round whose members are led to from earlier ones, the last leads to
the first if no other is led to from two: another member that it leads to is
led to from an earlier one, which is not the last. -/
theorem IsRound.closes (round : g.IsRound members)
    (hLed : ∀ before v after, members = before ++ v :: after → before ≠ [] → ∃ u ∈ before, g.Leads u v)
    (hOnce : g.LedOnce members) (hFirst : members.head? = some first) (hLast : members.getLast? = some last) :
    g.Leads last first := by
  have hFirstMem : first ∈ members := List.mem_of_head? hFirst
  have hLastMem : last ∈ members := List.mem_of_getLast? hLast
  obtain ⟨w, hOther, -, hw, hEdge⟩ :=
    exists_step_of_walk (round.reaches_among hLastMem hFirstMem) (round.first_ne_last hFirst hLast)
  by_contra hOpen
  obtain ⟨before, after, hSplit⟩ := List.append_of_mem hw
  have hBefore : before ≠ [] := by
    rintro rfl
    rw [hSplit, List.nil_append, List.head?_cons, Option.some.injEq] at hFirst
    exact hOpen (hFirst ▸ hEdge)
  obtain ⟨u, hu, hLeads⟩ := hLed before w after hSplit hBefore
  have hNodup := round.nodup
  rw [hSplit, List.nodup_append, List.nodup_cons] at hNodup
  have hTail : w ∈ members.tail := by
    obtain ⟨v, before, rfl⟩ := List.exists_cons_of_ne_nil hBefore
    simp [hSplit]
  have hSame : u = last := by
    refine hOnce w hTail u (by simp [hSplit, hu]) last hLastMem ?_ (Ne.symm hOther) hLeads hEdge
    exact hNodup.2.2 u hu w (List.mem_cons_self ..)
  -- the last member stands after the one that it leads to
  have hAfter : last ∈ w :: after := by
    rw [hSplit, List.getLast?_append_cons] at hLast
    exact List.mem_of_getLast? hLast
  exact hNodup.2.2 u hu last hAfter hSame

theorem Drawn.returns {m : Graph.Adjacency Text} (drawn : g.Drawn g.edges m) (hCyclic : members ∈ Graph.cyclic m) :
    g.Returns members := by
  have round := drawn.isRound hCyclic
  have hLed := Graph.components_led m members (List.mem_filter.mp hCyclic).1
  rw [Graph.Led, drawn.edge_eq] at hLed
  refine ⟨hLed, fun first last hFirst hLast => ?_, fun hOnce first last => round.closes hLed hOnce⟩
  have hWalk := round.reaches_among (List.mem_of_getLast? hLast) (List.mem_of_head? hFirst)
  exact (reflTransGen_iff_eq_or_transGen.mp hWalk).resolve_left (Ne.symm (round.first_ne_last hFirst hLast))

end DependencyGraph

namespace Cycle

/-- If every edge leaves a node, the cycles are found, and from the last
member of each edges lead back to the first. -/
theorem cycle_returns {g : DependencyGraph} (hSources : ∀ e ∈ g.edges, g.HasNode e.source) :
    ∃ cycles, detect g = .ok cycles ∧ ∀ c ∈ cycles, g.IsRound c.members ∧ g.Returns c.members := by
  rcases g.adjacency_cases with ⟨e, he, hStray, -⟩ | ⟨-, m, hAdjacency, drawn⟩
  · exact absurd (hSources e he) hStray
  · refine ⟨_, detect_of_drawn hAdjacency drawn, fun c hc => ?_⟩
    obtain ⟨members, hMembers, rfl⟩ := List.mem_map.mp hc
    exact ⟨drawn.isRound hMembers, drawn.returns hMembers⟩

-- The last member leads to the second only, which the first leads to as well.
example : detect ⟨[⟨"a", "", "", .unknown⟩, ⟨"b", "", "", .unknown⟩, ⟨"c", "", "", .unknown⟩],
    [⟨"a", "b"⟩, ⟨"b", "c"⟩, ⟨"c", "b"⟩, ⟨"b", "a"⟩]⟩ = .ok [⟨["a", "b", "c"], .warning, .general⟩] := by decide

namespace Sample

/-- Two rings through one file. -/
def petals : DependencyGraph where
  nodes := ["a", "b", "c", "d"].map fun id => ⟨id, "/p/" ++ id, id, .unknown⟩
  edges := [⟨"a", "b"⟩, ⟨"b", "c"⟩, ⟨"c", "a"⟩, ⟨"a", "d"⟩, ⟨"d", "a"⟩, ⟨"c", "c"⟩]

theorem petals_return : (∀ e ∈ petals.edges, petals.HasNode e.source) ∧
    detect petals = .ok [⟨["a", "b", "c", "d"], .warning, .general⟩] ∧
    petals.LedOnce ["a", "b", "c", "d"] ∧ petals.Leads "d" "a" := by
  have hSources : ∀ e ∈ petals.edges, petals.HasNode e.source := by decide
  have hDetect : detect petals = .ok [⟨["a", "b", "c", "d"], .warning, .general⟩] := by decide
  have hOnce : petals.LedOnce ["a", "b", "c", "d"] := by decide
  obtain ⟨cycles, hCycles, hReturns⟩ := cycle_returns hSources
  obtain rfl := Except.ok.inj (hDetect.symm.trans hCycles)
  exact ⟨hSources, hDetect, hOnce, (hReturns _ (List.mem_singleton.mpr rfl)).2.closes hOnce "a" "d" rfl rfl⟩

end Sample

end Cycle

end SourceAtlas
