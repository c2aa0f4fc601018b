import Mathlib.Logic.Relation
import Mathlib.Tactic
import SourceAtlas.Graph.Components
import SourceAtlas.Proofs.Assoc

/-!
What the search for components keeps between two steps. Reachability is that of the graph alone;
the invariant ties it to the open nodes, their numbers and the marks of the frames.
-/
namespace SourceAtlas.Graph

open Relation

variable {α : Type} [DecidableEq α]

/-- One node leads directly to another. -/
def Adjacency.Edge (g : Adjacency α) (u v : α) : Prop := v ∈ g.successors u

/-- One node leads to another in any number of steps, none included. -/
abbrev Adjacency.Reaches (g : Adjacency α) : α → α → Prop := ReflTransGen g.Edge

/-- A key, or a successor that need not be one. -/
def Adjacency.IsNode (g : Adjacency α) (v : α) : Prop := v ∈ Assoc.keys g ∨ ∃ u, g.Edge u v

theorem successors_of_not_key {g : Adjacency α} {v : α} (hKey : v ∉ Assoc.keys g) :
    g.successors v = [] := by
  rw [Adjacency.successors, Assoc.get?_eq_none_iff.mpr hKey]
  rfl

/-- A node with a successor has a list of them, so it is a key. -/
theorem Adjacency.Edge.key {g : Adjacency α} {u v : α} (hEdge : g.Edge u v) : u ∈ Assoc.keys g := by
  by_contra hKey
  rw [Adjacency.Edge, successors_of_not_key hKey] at hEdge
  cases hEdge

namespace Search

/-- The number of a node that is known; others count as zero and
are never asked for. -/
def number (s : Search α) (v : α) : Nat := (s.numberOf? v).getD 0

/-- A node stands in a component that is complete. -/
def Closed (s : Search α) (v : α) : Prop := ∃ c ∈ s.components, v ∈ c

/-- A node is no longer searched from, or not yet. -/
def Idle (s : Search α) (v : α) : Prop := ∀ f ∈ s.frames, f.node ≠ v

/-- The newest frame that is not newer than a node. Its mark speaks
for that node too. -/
def Owns (s : Search α) (f : Frame α) (u : α) : Prop :=
  f.number ≤ s.number u ∧ ∀ f' ∈ s.frames, f.number < f'.number → s.number u < f'.number

/-- A successor `x` of `u` has been taken account of: it is closed, or the
mark that speaks for `u` is no greater than its number. -/
def Settled (s : Search α) (u x : α) : Prop :=
  s.Closed x ∨ x ∈ s.pending ∧ ∀ f ∈ s.frames, s.Owns f u → f.low ≤ s.number x

/-- Edges out of a component lead to the components after it in the list,
which are older. -/
def Ordered (g : Adjacency α) : List (List α) → Prop
  | [] => True
  | c :: rest => (∀ u ∈ c, ∀ x ∈ g.successors u, x ∈ c ∨ ∃ c' ∈ rest, x ∈ c') ∧ Ordered g rest

/-- What holds between two steps. `next` is the node that is about to be
entered, which the newest frame has followed already; there is none at the
start of a step. -/
structure Inv (g : Adjacency α) (next : α → Prop) (s : Search α) : Prop where
  number_lt : ∀ v n, s.numberOf? v = some n → n < s.numbers.length
  number_inj : ∀ u v n, s.numberOf? u = some n → s.numberOf? v = some n → u = v
  found_node : ∀ v n, s.numberOf? v = some n → g.IsNode v
  found_iff : ∀ v, (s.numberOf? v).isSome ↔ v ∈ s.pending ∨ s.Closed v
  pending_sorted : s.pending.Pairwise fun a b => s.number b < s.number a
  closed_not_pending : ∀ v, s.Closed v → v ∉ s.pending
  components_nodup : s.components.flatten.Nodup
  components_ordered : Ordered g s.components
  component_reaches : ∀ c ∈ s.components, ∀ u ∈ c, ∀ v ∈ c, g.Reaches u v
  component_ne_nil : ∀ c ∈ s.components, c ≠ []
  frame_number : ∀ f ∈ s.frames, s.numberOf? f.node = some f.number
  frame_pending : ∀ f ∈ s.frames, f.node ∈ s.pending
  frames_sorted : s.frames.Pairwise fun a b => b.number < a.number
  frame_reaches : ∀ f ∈ s.frames, ∀ u ∈ s.pending, f.number ≤ s.number u → g.Reaches f.node u
  low_le : ∀ f ∈ s.frames, f.low ≤ f.number
  low_reached : ∀ f ∈ s.frames, ∃ u ∈ s.pending, s.number u = f.low ∧ g.Reaches f.node u
  returns : ∀ u ∈ s.pending, s.Idle u → ∃ x ∈ s.pending, s.number x < s.number u ∧ g.Reaches u x
  finished : ∀ u ∈ s.pending, s.Idle u → ∀ x ∈ g.successors u, s.Settled u x
  followed : ∀ f ∈ s.frames, ∃ done, g.successors f.node = done ++ f.todo ∧
    ∀ x ∈ done, next x ∨ s.Settled f.node x

/-- No node is about to be entered. -/
abbrev Steady (g : Adjacency α) (s : Search α) : Prop := s.Inv g fun _ => False

/-- At the start no node is known, and so nothing is to be kept: every part
of the invariant speaks of known nodes. -/
theorem steady_start (g : Adjacency α) : (start : Search α).Steady g where
  number_lt := by simp [start, numberOf?, Assoc.get?]
  number_inj := by simp [start, numberOf?, Assoc.get?]
  found_node := by simp [start, numberOf?, Assoc.get?]
  found_iff := by simp [start, numberOf?, Assoc.get?, Closed]
  pending_sorted := by simp [start]
  closed_not_pending := by simp [start]
  components_nodup := by simp [start]
  components_ordered := trivial
  component_reaches := by simp [start]
  component_ne_nil := by simp [start]
  frame_number := by simp [start]
  frame_pending := by simp [start]
  frames_sorted := by simp [start]
  frame_reaches := by simp [start]
  low_le := by simp [start]
  low_reached := by simp [start]
  returns := by simp [start]
  finished := by simp [start]
  followed := by simp [start]

section

variable {g : Adjacency α} {next : α → Prop} {s : Search α}

/-- A node that is pending has a number. -/
theorem Inv.pending_found (inv : s.Inv g next) {v : α} (hPending : v ∈ s.pending) :
    s.numberOf? v = some (s.number v) := by
  obtain ⟨n, hn⟩ := Option.isSome_iff_exists.mp ((inv.found_iff v).mpr (Or.inl hPending))
  simp [number, hn]

/-- A frame carries the number of its node. -/
theorem Inv.number_frame (inv : s.Inv g next) {f : Frame α} (hFrame : f ∈ s.frames) :
    s.number f.node = f.number := by
  simp [number, inv.frame_number f hFrame]

/-- The number of a pending node is one of those given so far, so the next
number is new. -/
theorem Inv.number_lt_length (inv : s.Inv g next) {v : α} (hPending : v ∈ s.pending) :
    s.number v < s.numbers.length :=
  inv.number_lt v _ (inv.pending_found hPending)

/-- What a frame is still to follow are successors of its node. -/
theorem Inv.edge_of_todo (inv : s.Inv g next) {f : Frame α} {w : α} {more : List α} (hFrame : f ∈ s.frames)
    (hTodo : f.todo = w :: more) : g.Edge f.node w := by
  obtain ⟨done, hDone, _⟩ := inv.followed f hFrame
  simp [Adjacency.Edge, hDone, hTodo]

/-- Open nodes reach older open nodes until they come to a frame, so an idle
node is never the oldest one. -/
theorem Inv.exists_frame_le (inv : s.Inv g next) {u : α} (hu : u ∈ s.pending) :
    ∃ f ∈ s.frames, f.number ≤ s.number u := by
  induction hn : s.number u using Nat.strong_induction_on generalizing u with
  | _ n ih =>
      by_cases hIdle : s.Idle u
      · obtain ⟨x, hx, hLess, _⟩ := inv.returns u hu hIdle
        obtain ⟨f, hf, hLe⟩ := ih _ (hn ▸ hLess) hx rfl
        exact ⟨f, hf, by omega⟩
      · simp only [Idle, not_forall, not_not] at hIdle
        obtain ⟨f, hf, rfl⟩ := hIdle
        exact ⟨f, hf, by rw [← hn, inv.number_frame hf]⟩

/-- Nothing is pending once there are no frames: a component is closed with
its first frame. -/
theorem Inv.pending_eq_nil (inv : s.Inv g next) (hFrames : s.frames = []) : s.pending = [] := by
  refine List.eq_nil_iff_forall_not_mem.mpr fun u hu => ?_
  obtain ⟨f, hf, _⟩ := inv.exists_frame_le hu
  simp [hFrames] at hf

section Newest

variable {f : Frame α} {rest : List (Frame α)}

omit [DecidableEq α] in
theorem newest_mem (hFrames : s.frames = f :: rest) : f ∈ s.frames :=
  hFrames ▸ List.mem_cons_self ..

omit [DecidableEq α] in
theorem mem_of_below (hFrames : s.frames = f :: rest) {b : Frame α} (hb : b ∈ rest) : b ∈ s.frames :=
  hFrames ▸ List.mem_cons_of_mem _ hb

omit [DecidableEq α] in
/-- What is shown of all frames is shown of the newest one and
of those below it. -/
theorem forall_frames_iff (hFrames : s.frames = f :: rest) {P : Frame α → Prop} :
    (∀ b ∈ s.frames, P b) ↔ P f ∧ ∀ b ∈ rest, P b := by
  rw [hFrames, List.forall_mem_cons]

/-- The frames below the newest are in order of their numbers. -/
theorem Inv.below_sorted (inv : s.Inv g next) (hFrames : s.frames = f :: rest) :
    rest.Pairwise fun a b => b.number < a.number := by
  have hSorted := inv.frames_sorted
  rw [hFrames] at hSorted
  exact (List.pairwise_cons.mp hSorted).2

/-- The newest frame has the greatest number. -/
theorem Inv.number_below (inv : s.Inv g next) (hFrames : s.frames = f :: rest) :
    ∀ b ∈ rest, b.number < f.number := by
  have hSorted := inv.frames_sorted
  rw [hFrames] at hSorted
  exact (List.pairwise_cons.mp hSorted).1

theorem Inv.number_le_newest (inv : s.Inv g next) (hFrames : s.frames = f :: rest) :
    ∀ b ∈ s.frames, b.number ≤ f.number :=
  (forall_frames_iff hFrames).mpr ⟨Nat.le_refl _, fun b hb => (inv.number_below hFrames b hb).le⟩

/-- The mark of the newest frame speaks for all nodes that are not older
than its own. -/
theorem Inv.owns_newest (inv : s.Inv g next) (hFrames : s.frames = f :: rest) {u : α}
    (hLe : f.number ≤ s.number u) : s.Owns f u :=
  ⟨hLe, fun b hb hLess => absurd (inv.number_le_newest hFrames b hb) (Nat.not_le.mpr hLess)⟩

end Newest

/-- Entering a node gives it the next number, and leaves the
numbers of all others. -/
theorem numberOf?_enter (v u : α) :
    (s.enter g v).numberOf? u = if v = u then some s.numbers.length else s.numberOf? u := by
  simp [enter, numberOf?, Assoc.get?]

theorem number_enter_self (v : α) : (s.enter g v).number v = s.numbers.length := by
  simp [number, numberOf?_enter]

theorem number_enter_of_ne {v u : α} (hne : u ≠ v) : (s.enter g v).number u = s.number u := by
  simp [number, numberOf?_enter, hne.symm]

/-- A node that is new is none of those that are pending. -/
theorem Inv.ne_of_pending (inv : s.Inv g next) {v u : α} (hNew : s.numberOf? v = none)
    (hu : u ∈ s.pending) : u ≠ v := by
  rintro rfl
  simp [inv.pending_found hu] at hNew

/-- Open nodes keep their numbers. -/
theorem Inv.number_enter (inv : s.Inv g next) {v u : α} (hNew : s.numberOf? v = none)
    (hu : u ∈ s.pending) : (s.enter g v).number u = s.number u :=
  number_enter_of_ne (inv.ne_of_pending hNew hu)

/-- A new node is newer than all others, so the frames that
own others still do. -/
theorem Inv.settled_enter (inv : s.Inv g next) {v u x : α} (hNew : s.numberOf? v = none)
    (hu : u ∈ s.pending) (hSettled : s.Settled u x) : (s.enter g v).Settled u x := by
  rcases hSettled with hClosed | ⟨hx, hLow⟩
  · exact Or.inl hClosed
  · refine Or.inr ⟨List.mem_cons_of_mem _ hx, fun f hf ⟨hLe, hOthers⟩ => ?_⟩
    rw [inv.number_enter hNew hu] at hLe
    rw [inv.number_enter hNew hx]
    rcases List.mem_cons.mp hf with rfl | hf
    · have hOld := inv.number_lt_length hu
      simp only at hLe
      omega
    · refine hLow f hf ⟨hLe, fun f' hf' hLess => ?_⟩
      exact inv.number_enter hNew hu ▸ hOthers f' (List.mem_cons_of_mem _ hf') hLess

/-- The next number is greater than that of every frame. -/
theorem Inv.frame_number_lt (inv : s.Inv g next) {f : Frame α} (hf : f ∈ s.frames) :
    f.number < s.numbers.length :=
  inv.number_lt f.node _ (inv.frame_number f hf)

/-- A new node has the greatest number, so no mark is above it, and every
edge to it is settled as soon as it is entered. -/
theorem Inv.settled_entered (inv : s.Inv g next) (v u : α) : (s.enter g v).Settled u v := by
  refine Or.inr ⟨List.mem_cons_self .., fun f hf _ => ?_⟩
  rw [number_enter_self]
  rcases List.mem_cons.mp hf with rfl | hf
  · exact Nat.le_refl _
  · exact (inv.low_le f hf).trans (inv.frame_number_lt hf).le

/-- An open node without a frame was open before the node was entered, and
had no frame then. -/
theorem idle_enter {v u : α} (hu : u ∈ (s.enter g v).pending) (hIdle : (s.enter g v).Idle u) :
    u ∈ s.pending ∧ s.Idle u := by
  obtain ⟨hne, hIdle⟩ := List.forall_mem_cons.mp hIdle
  exact ⟨(List.mem_cons.mp hu).resolve_left hne.symm, hIdle⟩

/-- Entering a node that every frame reaches keeps the invariant, and the
node is no longer about to be entered. -/
theorem Inv.enter {v : α} (inv : s.Inv g (· = v)) (hNew : s.numberOf? v = none)
    (hNode : g.IsNode v) (hReach : ∀ f ∈ s.frames, g.Reaches f.node v) : (s.enter g v).Steady g where
  number_lt u n hn := by
    rw [numberOf?_enter] at hn
    split at hn
    · simp [Search.enter, ← Option.some.inj hn]
    · exact Nat.lt_succ_of_lt (inv.number_lt u n hn)
  number_inj u w n hu hw := by
    rw [numberOf?_enter] at hu hw
    split at hu <;> split at hw
    · simp_all
    · have := inv.number_lt w n hw
      simp at hu
      omega
    · have := inv.number_lt u n hu
      simp at hw
      omega
    · exact inv.number_inj u w n hu hw
  found_node u n hn := by
    rw [numberOf?_enter] at hn
    split at hn
    · exact (by assumption : v = u) ▸ hNode
    · exact inv.found_node u n hn
  found_iff u := by
    rw [numberOf?_enter]
    have hOld := inv.found_iff u
    by_cases hEq : v = u
    · simp [Search.enter, hEq]
    · simpa [Search.enter, hEq, Ne.symm hEq, Closed] using hOld
  pending_sorted := by
    refine List.pairwise_cons.mpr ⟨fun u hu => ?_, ?_⟩
    · rw [number_enter_self, inv.number_enter hNew hu]
      exact inv.number_lt_length hu
    · refine inv.pending_sorted.imp_of_mem fun ha hb hLess => ?_
      rwa [inv.number_enter hNew ha, inv.number_enter hNew hb]
  closed_not_pending u hClosed := by
    have hFound := (inv.found_iff u).mpr (Or.inr hClosed)
    have hne : u ≠ v := by
      rintro rfl
      simp [hNew] at hFound
    simp [Search.enter, hne, inv.closed_not_pending u hClosed]
  components_nodup := inv.components_nodup
  components_ordered := inv.components_ordered
  component_reaches := inv.component_reaches
  component_ne_nil := inv.component_ne_nil
  frame_number f hf := by
    rw [numberOf?_enter]
    rcases List.mem_cons.mp hf with rfl | hf
    · simp
    · rw [if_neg (inv.ne_of_pending hNew (inv.frame_pending f hf)).symm]
      exact inv.frame_number f hf
  frame_pending f hf := by
    rcases List.mem_cons.mp hf with rfl | hf
    · exact List.mem_cons_self ..
    · exact List.mem_cons_of_mem _ (inv.frame_pending f hf)
  frames_sorted :=
    List.pairwise_cons.mpr ⟨fun f hf => inv.frame_number_lt hf, inv.frames_sorted⟩
  frame_reaches f hf u hu hLe := by
    rcases List.mem_cons.mp hu with rfl | hu
    · rcases List.mem_cons.mp hf with rfl | hf
      · exact ReflTransGen.refl
      · exact hReach f hf
    · rw [inv.number_enter hNew hu] at hLe
      rcases List.mem_cons.mp hf with rfl | hf
      · have := inv.number_lt_length hu
        simp only at hLe
        omega
      · exact inv.frame_reaches f hf u hu hLe
  low_le f hf := by
    rcases List.mem_cons.mp hf with rfl | hf
    · exact Nat.le_refl _
    · exact inv.low_le f hf
  low_reached f hf := by
    rcases List.mem_cons.mp hf with rfl | hf
    · exact ⟨v, List.mem_cons_self .., number_enter_self v, ReflTransGen.refl⟩
    · obtain ⟨u, hu, hLow, hPath⟩ := inv.low_reached f hf
      exact ⟨u, List.mem_cons_of_mem _ hu, (inv.number_enter hNew hu).trans hLow, hPath⟩
  returns u hu hIdle := by
    obtain ⟨hu, hIdle⟩ := idle_enter hu hIdle
    obtain ⟨x, hx, hLess, hPath⟩ := inv.returns u hu hIdle
    refine ⟨x, List.mem_cons_of_mem _ hx, ?_, hPath⟩
    rwa [inv.number_enter hNew hu, inv.number_enter hNew hx]
  finished u hu hIdle x hx := by
    obtain ⟨hu, hIdle⟩ := idle_enter hu hIdle
    exact inv.settled_enter hNew hu (inv.finished u hu hIdle x hx)
  followed f hf := by
    rcases List.mem_cons.mp hf with rfl | hf
    · exact ⟨[], rfl, by simp⟩
    · obtain ⟨done, hDone, hSettled⟩ := inv.followed f hf
      refine ⟨done, hDone, fun x hx => Or.inr ?_⟩
      rcases hSettled x hx with rfl | hOld
      · exact inv.settled_entered x f.node
      · exact inv.settled_enter hNew (inv.frame_pending f hf) hOld

/-- Marks that speak for `u` are only lowered, so successors that were
settled still are. -/
theorem Settled.reframe {fs : List (Frame α)} {u x : α} (hSettled : s.Settled u x)
    (hLower : ∀ b ∈ fs, ({ s with frames := fs } : Search α).Owns b u →
      ∃ a ∈ s.frames, s.Owns a u ∧ b.low ≤ a.low) :
    ({ s with frames := fs } : Search α).Settled u x := by
  rcases hSettled with hClosed | ⟨hx, hLow⟩
  · exact Or.inl hClosed
  · refine Or.inr ⟨hx, fun b hb hOwns => ?_⟩
    obtain ⟨a, ha, hOwner, hLe⟩ := hLower b hb hOwns
    exact hLe.trans (hLow a ha hOwner)

/-- The frames may be exchanged for others of the same nodes and numbers,
some left out. What the marks say has to be shown anew; a frame that is left
out must have an older open node to return to. -/
theorem Inv.reframe {next' : α → Prop} {fs : List (Frame α)} (inv : s.Inv g next)
    (hSame : ∀ b ∈ fs, ∃ a ∈ s.frames, a.node = b.node ∧ a.number = b.number)
    (hSorted : fs.Pairwise fun a b => b.number < a.number)
    (hLow : ∀ b ∈ fs, b.low ≤ b.number)
    (hReached : ∀ b ∈ fs, ∃ u ∈ s.pending, s.number u = b.low ∧ g.Reaches b.node u)
    (hReturns : ∀ a ∈ s.frames, (∀ b ∈ fs, b.node ≠ a.node) →
      ∃ x ∈ s.pending, s.number x < a.number ∧ g.Reaches a.node x)
    (hFinished : ∀ u ∈ s.pending, (∀ b ∈ fs, b.node ≠ u) → ∀ x ∈ g.successors u,
      ({ s with frames := fs } : Search α).Settled u x)
    (hFollowed : ∀ b ∈ fs, ∃ done, g.successors b.node = done ++ b.todo ∧
      ∀ x ∈ done, next' x ∨ ({ s with frames := fs } : Search α).Settled b.node x) :
    ({ s with frames := fs } : Search α).Inv g next' where
  number_lt := inv.number_lt
  number_inj := inv.number_inj
  found_node := inv.found_node
  found_iff := inv.found_iff
  pending_sorted := inv.pending_sorted
  closed_not_pending := inv.closed_not_pending
  components_nodup := inv.components_nodup
  components_ordered := inv.components_ordered
  component_reaches := inv.component_reaches
  component_ne_nil := inv.component_ne_nil
  frame_number b hb := by
    obtain ⟨a, ha, hNode, hNumber⟩ := hSame b hb
    rw [← hNode, ← hNumber]
    exact inv.frame_number a ha
  frame_pending b hb := by
    obtain ⟨a, ha, hNode, _⟩ := hSame b hb
    exact hNode ▸ inv.frame_pending a ha
  frames_sorted := hSorted
  frame_reaches b hb u hu hLe := by
    obtain ⟨a, ha, hNode, hNumber⟩ := hSame b hb
    rw [← hNode]
    exact inv.frame_reaches a ha u hu (hNumber ▸ hLe)
  low_le := hLow
  low_reached := hReached
  returns u hu hIdle := by
    by_cases hOld : s.Idle u
    · exact inv.returns u hu hOld
    · simp only [Idle, not_forall, not_not] at hOld
      obtain ⟨a, ha, rfl⟩ := hOld
      obtain ⟨x, hx, hLess, hPath⟩ := hReturns a ha hIdle
      exact ⟨x, hx, (inv.number_frame ha).symm ▸ hLess, hPath⟩
  finished := hFinished
  followed := hFollowed

/-- A frame that takes the place of the newest one, with the same number and
a mark that is no greater, speaks for the same nodes. -/
theorem owns_of_retop {f : Frame α} {rest : List (Frame α)} (f' : Frame α) (hFrames : s.frames = f :: rest)
    (hNumber : f'.number = f.number) (hLow : f'.low ≤ f.low) (u : α) :
    ∀ b ∈ f' :: rest, ({ s with frames := f' :: rest } : Search α).Owns b u →
      ∃ a ∈ s.frames, s.Owns a u ∧ b.low ≤ a.low := by
  intro b hb ⟨hLe, hOthers⟩
  obtain ⟨hTop, hBelow⟩ := List.forall_mem_cons.mp hOthers
  have hBefore : ∀ a ∈ s.frames, b.number < a.number → s.number u < a.number :=
    (forall_frames_iff hFrames).mpr ⟨hNumber ▸ hTop, hBelow⟩
  rcases List.mem_cons.mp hb with rfl | hb
  · exact ⟨f, newest_mem hFrames, ⟨hNumber ▸ hLe, hNumber ▸ hBefore⟩, hLow⟩
  · exact ⟨b, mem_of_below hFrames hb, ⟨hLe, hBefore⟩, Nat.le_refl _⟩

/-- The newest frame goes on to its next successor and may lower
its mark on the way. -/
theorem Inv.retop {next' : α → Prop} {f : Frame α} {rest : List (Frame α)} {w : α} {more : List α}
    {low : Nat} (inv : s.Steady g) (hFrames : s.frames = f :: rest) (hTodo : f.todo = w :: more)
    (hLow : low ≤ f.low) (hReached : ∃ u ∈ s.pending, s.number u = low ∧ g.Reaches f.node u)
    (hNext : next' w ∨ ({ s with frames := { f with todo := more, low := low } :: rest } :
      Search α).Settled f.node w) :
    ({ s with frames := { f with todo := more, low := low } :: rest } : Search α).Inv g next' := by
  have hTop : f ∈ s.frames := newest_mem hFrames
  have hBelow := inv.number_below hFrames
  have hLower := owns_of_retop { f with todo := more, low := low } hFrames rfl hLow
  refine inv.reframe ?_ ?_ ?_ ?_ ?_ ?_ ?_
  · refine List.forall_mem_cons.mpr ⟨⟨f, hTop, rfl, rfl⟩, fun b hb => ?_⟩
    exact ⟨b, mem_of_below hFrames hb, rfl, rfl⟩
  · exact List.pairwise_cons.mpr ⟨hBelow, inv.below_sorted hFrames⟩
  · refine List.forall_mem_cons.mpr ⟨hLow.trans (inv.low_le f hTop), fun b hb => ?_⟩
    exact inv.low_le b (mem_of_below hFrames hb)
  · refine List.forall_mem_cons.mpr ⟨hReached, fun b hb => ?_⟩
    exact inv.low_reached b (mem_of_below hFrames hb)
  -- no node has lost its frame
  · intro a ha hGone
    exact absurd rfl ((forall_frames_iff hFrames (P := fun b => b.node ≠ a.node)).mpr
      (List.forall_mem_cons.mp hGone) a ha)
  · intro u hu hIdle x hx
    have hWasIdle : s.Idle u := (forall_frames_iff hFrames).mpr (List.forall_mem_cons.mp hIdle)
    exact (inv.finished u hu hWasIdle x hx).reframe (hLower u)
  · refine List.forall_mem_cons.mpr ⟨?_, fun b hb => ?_⟩
    · obtain ⟨done, hDone, hSettled⟩ := inv.followed f hTop
      refine ⟨done ++ [w], by simp [hDone, hTodo], fun x hx => ?_⟩
      rcases List.mem_append.mp hx with hx | hx
      · exact Or.inr (((hSettled x hx).resolve_left id).reframe (hLower f.node))
      · rw [List.mem_singleton.mp hx]
        exact hNext
    · obtain ⟨done, hDone, hSettled⟩ := inv.followed b (mem_of_below hFrames hb)
      exact ⟨done, hDone, fun x hx =>
        Or.inr (((hSettled x hx).resolve_left id).reframe (hLower b.node))⟩

/-- Following a successor that is known keeps the invariant: an open one
lowers the mark. -/
theorem Inv.follow {f : Frame α} {rest : List (Frame α)} {w : α} {more : List α} {n : Nat}
    (inv : s.Steady g) (hFrames : s.frames = f :: rest) (hTodo : f.todo = w :: more)
    (hKnown : s.numberOf? w = some n) :
    ({ s with frames :=
      { f with todo := more, low := if w ∈ s.pending then min f.low n else f.low } :: rest } :
        Search α).Steady g := by
  have hTop : f ∈ s.frames := newest_mem hFrames
  have hEdge : g.Edge f.node w := inv.edge_of_todo hTop hTodo
  have hNumber : s.number w = n := by simp [number, hKnown]
  have hOld := inv.low_reached f hTop
  by_cases hOpen : w ∈ s.pending
  · simp only [hOpen, if_true]
    refine inv.retop hFrames hTodo (Nat.min_le_left _ _) ?_ (Or.inr (Or.inr ⟨hOpen, ?_⟩))
    · rcases Nat.le_total f.low n with hLe | hLe
      · rwa [Nat.min_eq_left hLe]
      · rw [Nat.min_eq_right hLe]
        exact ⟨w, hOpen, hNumber, ReflTransGen.single hEdge⟩
    · intro b hb hOwns
      have hSelf : s.number f.node = f.number := inv.number_frame hTop
      rcases List.mem_cons.mp hb with rfl | hb
      · exact (Nat.min_le_right _ _).trans hNumber.ge
      · have hLess := hOwns.2 _ (List.mem_cons_self ..) (inv.number_below hFrames b hb)
        exact absurd (hSelf ▸ hLess : f.number < f.number) (Nat.lt_irrefl _)
  · simp only [hOpen, if_false]
    have hClosed : s.Closed w := by
      have hFound := (inv.found_iff w).mp (by simp [hKnown])
      exact hFound.resolve_left hOpen
    exact inv.retop hFrames hTodo (Nat.le_refl _) hOld (Or.inr (Or.inl hClosed))

/-- Following a successor that is not known enters it. The frame it was
followed from keeps the rest of its successors. -/
theorem Inv.discover {f : Frame α} {rest : List (Frame α)} {w : α} {more : List α}
    (inv : s.Steady g) (hFrames : s.frames = f :: rest) (hTodo : f.todo = w :: more)
    (hNew : s.numberOf? w = none) :
    (Search.enter g w { s with frames := { f with todo := more } :: rest }).Steady g := by
  have hTop : f ∈ s.frames := newest_mem hFrames
  have hEdge : g.Edge f.node w := inv.edge_of_todo hTop hTodo
  have hAdvanced : ({ s with frames := { f with todo := more } :: rest } : Search α).Inv g (· = w) :=
    inv.retop hFrames hTodo (Nat.le_refl _) (inv.low_reached f hTop) (Or.inl rfl)
  refine hAdvanced.enter hNew (Or.inr ⟨f.node, hEdge⟩) fun b hb => ?_
  -- Older frames reach the newest one, which is open and newer than they are.
  have hNewest : g.Reaches b.node f.node := by
    refine hAdvanced.frame_reaches b hb f.node (inv.frame_pending f hTop) ?_
    change b.number ≤ s.number f.node
    rw [inv.number_frame hTop]
    exact hAdvanced.number_le_newest rfl b hb
  exact hNewest.tail hEdge

omit [DecidableEq α] in
/-- Lowering changes the mark of the first frame only. -/
theorem mem_lower {n : Nat} {fs : List (Frame α)} {b : Frame α} (hb : b ∈ lower n fs) :
    ∃ a ∈ fs, a.node = b.node ∧ a.number = b.number ∧ a.todo = b.todo ∧ b.low ≤ a.low ∧
      (b.low = a.low ∨ b.low = n) := by
  cases fs with
  | nil => simp [lower] at hb
  | cons p rest =>
      rcases List.mem_cons.mp hb with rfl | hb
      · refine ⟨p, List.mem_cons_self .., rfl, rfl, rfl, Nat.min_le_left _ _, ?_⟩
        simp only
        omega
      · exact ⟨b, List.mem_cons_of_mem _ hb, rfl, rfl, rfl, Nat.le_refl _, Or.inl rfl⟩

omit [DecidableEq α] in
theorem exists_mem_lower {n : Nat} {fs : List (Frame α)} {a : Frame α} (ha : a ∈ fs) :
    ∃ b ∈ lower n fs, b.node = a.node ∧ b.number = a.number := by
  cases fs with
  | nil => simp at ha
  | cons p rest =>
      rcases List.mem_cons.mp ha with rfl | ha
      · exact ⟨{ a with low := min a.low n }, List.mem_cons_self .., rfl, rfl⟩
      · exact ⟨a, List.mem_cons_of_mem _ ha, rfl, rfl⟩

omit [DecidableEq α] in
/-- Lowering the mark of the newest frame keeps the frames in their order. -/
theorem pairwise_lower {n : Nat} {fs : List (Frame α)}
    (hSorted : fs.Pairwise fun a b => b.number < a.number) :
    (lower n fs).Pairwise fun a b => b.number < a.number := by
  cases fs with
  | nil => exact hSorted
  | cons p rest => exact List.pairwise_cons.mpr (List.pairwise_cons.mp hSorted)

/-- A node is settled altogether once its frame has nothing to follow; it is
then that the frame can be closed or merged. -/
theorem Inv.settled_of_todo_nil (inv : s.Steady g) {f : Frame α} (hf : f ∈ s.frames)
    (hTodo : f.todo = []) {x : α} (hx : x ∈ g.successors f.node) : s.Settled f.node x := by
  obtain ⟨done, hDone, hSettled⟩ := inv.followed f hf
  rw [hDone, hTodo, List.append_nil] at hx
  exact (hSettled x hx).resolve_left id

/-- Once the newest frame has handed its mark to the frame below, that one
speaks for the nodes of both. -/
theorem Inv.owns_of_lower (inv : s.Inv g next) {f : Frame α} {rest : List (Frame α)}
    (hFrames : s.frames = f :: rest) (u : α) :
    ∀ b ∈ lower f.low rest, ({ s with frames := lower f.low rest } : Search α).Owns b u →
      ∃ a ∈ s.frames, s.Owns a u ∧ b.low ≤ a.low := by
  intro b hb ⟨hLe, hOthers⟩
  by_cases hu : f.number ≤ s.number u
  -- Nodes of the frame that is left fall to the frame below it.
  · refine ⟨f, newest_mem hFrames, inv.owns_newest hFrames hu, ?_⟩
    cases rest with
    | nil => simp [lower] at hb
    | cons p rest =>
        rcases List.mem_cons.mp hb with rfl | hb
        · exact Nat.min_le_right _ _
        · have hBelow := (List.pairwise_cons.mp (inv.below_sorted hFrames)).1 b hb
          have hAbove : s.number u < p.number :=
            hOthers { p with low := min p.low f.low } (List.mem_cons_self ..) hBelow
          exact absurd (hAbove.trans (inv.number_below hFrames p (List.mem_cons_self ..)))
            (Nat.not_lt.mpr hu)
  · obtain ⟨a, ha, hNode, hNumber, _, hLow, _⟩ := mem_lower hb
    refine ⟨a, mem_of_below hFrames ha, ⟨hNumber ▸ hLe, ?_⟩, hLow⟩
    refine (forall_frames_iff hFrames).mpr ⟨fun _ => Nat.not_le.mp hu, fun c hc hNewer => ?_⟩
    obtain ⟨c', hc', _, hSame⟩ := exists_mem_lower (n := f.low) hc
    exact hSame ▸ hOthers c' hc' (by omega)

/-- A frame that reaches an older open node hands its mark and its nodes to
the frame below. -/
theorem Inv.merge {f : Frame α} {rest : List (Frame α)} (inv : s.Steady g)
    (hFrames : s.frames = f :: rest) (hTodo : f.todo = []) (hOlder : f.low ≠ f.number) :
    ({ s with frames := lower f.low rest } : Search α).Steady g := by
  have hTop : f ∈ s.frames := newest_mem hFrames
  have hLess : f.low < f.number := lt_of_le_of_ne (inv.low_le f hTop) hOlder
  have hLower := inv.owns_of_lower hFrames
  obtain ⟨y, hy, hyNumber, hyPath⟩ := inv.low_reached f hTop
  refine inv.reframe ?_ (pairwise_lower (inv.below_sorted hFrames)) ?_ ?_ ?_ ?_ ?_
  · intro b hb
    obtain ⟨a, ha, hNode, hNumber, _⟩ := mem_lower hb
    exact ⟨a, mem_of_below hFrames ha, hNode, hNumber⟩
  · intro b hb
    obtain ⟨a, ha, _, hNumber, _, hLe, _⟩ := mem_lower hb
    exact hLe.trans (hNumber ▸ inv.low_le a (mem_of_below hFrames ha))
  · intro b hb
    obtain ⟨a, ha, hNode, hNumber, _, _, hLow | hLow⟩ := mem_lower hb
    · rw [hLow, ← hNode]
      exact inv.low_reached a (mem_of_below hFrames ha)
    · refine ⟨y, hy, hyNumber.trans hLow.symm, ?_⟩
      have hDown : g.Reaches a.node f.node :=
        inv.frame_reaches a (mem_of_below hFrames ha) f.node (inv.frame_pending f hTop)
          (by rw [inv.number_frame hTop]; exact (inv.number_below hFrames a ha).le)
      exact hNode ▸ hDown.trans hyPath
  · refine (forall_frames_iff hFrames).mpr ⟨fun _ => ⟨y, hy, by omega, hyPath⟩, fun a ha hGone => ?_⟩
    obtain ⟨b, hb, hNode, _⟩ := exists_mem_lower (n := f.low) ha
    exact absurd hNode (hGone b hb)
  · intro u hu hIdle x hx
    by_cases hEq : f.node = u
    · subst hEq
      exact (inv.settled_of_todo_nil hTop hTodo hx).reframe (hLower _)
    · have hWasIdle : s.Idle u := (forall_frames_iff hFrames).mpr ⟨hEq, fun a ha => by
        obtain ⟨b, hb, hNode, _⟩ := exists_mem_lower (n := f.low) ha
        exact hNode ▸ hIdle b hb⟩
      exact (inv.finished u hu hWasIdle x hx).reframe (hLower u)
  · intro b hb
    obtain ⟨a, ha, hNode, _, hTodo', _⟩ := mem_lower hb
    obtain ⟨done, hDone, hSettled⟩ := inv.followed a (mem_of_below hFrames ha)
    refine ⟨done, by rw [← hNode, ← hTodo', hDone], fun x hx => Or.inr ?_⟩
    rw [← hNode]
    exact ((hSettled x hx).resolve_left id).reframe (hLower a.node)

end

end Search

end SourceAtlas.Graph
