/-!
Sorting by insertion. Members of which neither must come first keep their order, and a closed list
is sorted by evaluation alone.
-/
namespace SourceAtlas.Sorting

variable {α β : Type}

/-- Put a value in front of the first member that it may stand before. -/
def insert (before : α → α → Bool) (a : α) : List α → List α
  | [] => [a]
  | b :: rest => if before a b then a :: b :: rest else b :: insert before a rest

def sort (before : α → α → Bool) : List α → List α
  | [] => []
  | a :: rest => insert before a (sort before rest)

theorem insert_perm (before : α → α → Bool) (a : α) (xs : List α) :
    (insert before a xs).Perm (a :: xs) := by
  induction xs with
  | nil => exact .refl _
  | cons b xs ih =>
      rw [insert]
      split
      · exact .refl _
      · exact (ih.cons b).trans (.swap a b xs)

theorem sort_perm (before : α → α → Bool) (xs : List α) : (sort before xs).Perm xs := by
  induction xs with
  | nil => exact .refl _
  | cons a xs ih => exact (insert_perm before a _).trans (ih.cons a)

@[simp]
theorem mem_sort {before : α → α → Bool} {a : α} {xs : List α} : a ∈ sort before xs ↔ a ∈ xs :=
  (sort_perm before xs).mem_iff

theorem map_insert {f : α → β} {before : α → α → Bool} {before' : β → β → Bool} {a : α} {xs : List α}
    (hSame : ∀ b ∈ xs, before' (f a) (f b) = before a b) :
    (insert before a xs).map f = insert before' (f a) (xs.map f) := by
  induction xs with
  | nil => rfl
  | cons b xs ih =>
      rw [insert, List.map_cons, insert, hSame b (List.mem_cons_self ..)]
      split
      · rfl
      · rw [List.map_cons, ih fun b hb => hSame b (List.mem_cons_of_mem _ hb)]

/-- A function that keeps the order may be applied before or after sorting. -/
theorem map_sort {f : α → β} {before : α → α → Bool} {before' : β → β → Bool} {xs : List α}
    (hSame : ∀ a ∈ xs, ∀ b ∈ xs, before' (f a) (f b) = before a b) :
    (sort before xs).map f = sort before' (xs.map f) := by
  induction xs with
  | nil => rfl
  | cons a xs ih =>
      have hRest := ih fun b hb c hc =>
        hSame b (List.mem_cons_of_mem _ hb) c (List.mem_cons_of_mem _ hc)
      rw [List.map_cons, sort, sort, ← hRest]
      exact map_insert fun b hb => hSame a (List.mem_cons_self ..) b (List.mem_cons_of_mem _ (mem_sort.mp hb))

theorem insert_pairwise {before : α → α → Bool} {R : α → α → Prop}
    (hTrans : ∀ a b c, R a b → R b c → R a c) (hBefore : ∀ a b, before a b = true → R a b)
    (hAfter : ∀ a b, before a b = false → R b a) (a : α) {xs : List α} (hSorted : xs.Pairwise R) :
    (insert before a xs).Pairwise R := by
  induction xs with
  | nil => simp [insert]
  | cons b xs ih =>
      obtain ⟨hFirst, hRest⟩ := List.pairwise_cons.mp hSorted
      rw [insert]
      split
      · next hHead =>
        have hab := hBefore a b hHead
        refine List.pairwise_cons.mpr ⟨fun c hc => ?_, hSorted⟩
        rcases List.mem_cons.mp hc with rfl | hc
        · exact hab
        · exact hTrans a b c hab (hFirst c hc)
      · next hHead =>
        refine List.pairwise_cons.mpr ⟨fun c hc => ?_, ih hRest⟩
        rcases List.mem_cons.mp ((insert_perm before a xs).mem_iff.mp hc) with rfl | hc
        · exact hAfter _ b (by simpa using hHead)
        · exact hFirst c hc

/-- A sorted list is in the order that decided which member comes first. -/
theorem sort_pairwise {before : α → α → Bool} {R : α → α → Prop}
    (hTrans : ∀ a b c, R a b → R b c → R a c) (hBefore : ∀ a b, before a b = true → R a b)
    (hAfter : ∀ a b, before a b = false → R b a) (xs : List α) : (sort before xs).Pairwise R := by
  induction xs with
  | nil => exact .nil
  | cons a xs ih => exact insert_pairwise hTrans hBefore hAfter a ih

end SourceAtlas.Sorting
