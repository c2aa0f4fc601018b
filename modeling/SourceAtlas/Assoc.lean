import SourceAtlas.Sorting
import SourceAtlas.Text.Basic

/-!
Maps that keep the order in which their keys were first put. A key stands at one place only.
-/
namespace SourceAtlas

/-- A map from keys to values in order of first insertion. -/
abbrev Assoc (α β : Type) := List (α × β)

namespace Assoc

variable {α β : Type} [DecidableEq α]

def get? (key : α) : Assoc α β → Option β
  | [] => none
  | (k, v) :: rest => if k = key then some v else get? key rest

def has (key : α) (m : Assoc α β) : Bool := (get? key m).isSome

/-- Put a value under a key: a known key keeps its place and
takes the new value. -/
def put (key : α) (value : β) : Assoc α β → Assoc α β
  | [] => [(key, value)]
  | (k, v) :: rest => if k = key then (key, value) :: rest else (k, v) :: put key value rest

/-- Change the value under a key; a new key starts from `initial`. -/
def update (key : α) (initial : β) (f : β → β) (m : Assoc α β) : Assoc α β :=
  put key (f ((get? key m).getD initial)) m

def keys (m : Assoc α β) : List α := m.map Prod.fst

/-- The map of a list of pairs: of one key the first place and the last
value count. -/
def ofPairs (pairs : List (α × β)) : Assoc α β := pairs.foldl (fun m p => put p.1 p.2 m) []

def sorted {β : Type} (m : Assoc Text β) : Assoc Text β :=
  Sorting.sort (fun a b => !(decide (b.1 < a.1))) m

theorem get?_put_self (key : α) (value : β) (m : Assoc α β) :
    get? key (put key value m) = some value := by
  induction m with
  | nil => simp [put, get?]
  | cons p rest ih =>
    obtain ⟨k, v⟩ := p
    by_cases h : k = key <;> simp [put, get?, h, ih]

theorem get?_put_of_ne {key other : α} (h : other ≠ key) (value : β) (m : Assoc α β) :
    get? other (put key value m) = get? other m := by
  induction m with
  | nil => simp [put, get?, h.symm]
  | cons p rest ih =>
    obtain ⟨k, v⟩ := p
    by_cases hk : k = key
    · subst hk
      simp [put, get?, h.symm]
    · by_cases ho : k = other
      · subst ho
        simp [put, get?, hk]
      · simp [put, get?, hk, ho, ih]

/-- What is under a key was put there with it. -/
theorem mem_of_get? {key : α} {value : β} {m : Assoc α β} (hGet : get? key m = some value) :
    (key, value) ∈ m := by
  induction m with
  | nil => simp [get?] at hGet
  | cons p rest ih =>
    obtain ⟨k, v⟩ := p
    rw [get?] at hGet
    split at hGet
    · simp_all
    · exact List.mem_cons_of_mem _ (ih hGet)

/-- A new key is put at the end. -/
theorem put_of_not_mem {key : α} {m : Assoc α β} (hNew : key ∉ m.map Prod.fst) (value : β) :
    put key value m = m ++ [(key, value)] := by
  induction m with
  | nil => rfl
  | cons p rest ih =>
    obtain ⟨k, v⟩ := p
    simp only [List.map_cons, List.mem_cons, not_or] at hNew
    rw [put, if_neg (Ne.symm hNew.1), ih hNew.2, List.cons_append]

end Assoc

end SourceAtlas
