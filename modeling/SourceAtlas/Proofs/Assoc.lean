import Mathlib.Data.List.Nodup
import Mathlib.Data.List.Perm.Basic
import SourceAtlas.Assoc
import SourceAtlas.Proofs.Text.Basic

/-!
What a map holds under a key. In a map that repeats no key this depends on the members of the list
alone and not on their order.
-/
namespace SourceAtlas

/-- Members of different keys stand in strict order of their keys once they
are sorted by them. -/
theorem Sorting.sort_strict {α : Type} {key : α → Text} {xs : List α} (hKeys : (xs.map key).Nodup) :
    ((sort (fun a b => !(decide (key b < key a))) xs).map key).Pairwise (· < ·) := by
  have hSorted : ((sort (fun a b => !(decide (key b < key a))) xs).map key).Pairwise (· ≤ ·) := by
    rw [List.pairwise_map]
    apply sort_pairwise
    · exact fun a b c => le_trans
    · intro a b hBefore
      rwa [Bool.not_eq_true', decide_eq_false_iff_not, not_lt] at hBefore
    · intro a b hAfter
      rw [Bool.not_eq_false', decide_eq_true_eq] at hAfter
      exact le_of_lt hAfter
  have hNodup := ((sort_perm (fun a b => !(decide (key b < key a))) xs).map key).nodup_iff.mpr hKeys
  exact (hSorted.and hNodup).imp fun hBoth => lt_of_le_of_ne hBoth.1 hBoth.2

end SourceAtlas

namespace SourceAtlas.Assoc

variable {α β : Type} [DecidableEq α]

/-- Nothing is found under a key exactly if it is no key of the map. -/
theorem get?_eq_none_iff {key : α} {m : Assoc α β} : get? key m = none ↔ key ∉ m.map Prod.fst := by
  induction m with
  | nil => simp [get?]
  | cons p rest ih =>
      obtain ⟨k, v⟩ := p
      by_cases hKey : k = key
      · simp [get?, hKey]
      · simp only [get?, if_neg hKey, ih, List.map_cons, List.mem_cons, not_or]
        exact ⟨fun hRest => ⟨Ne.symm hKey, hRest⟩, fun hBoth => hBoth.2⟩

/-- What is put under a key replaces what was put there before. -/
theorem put_put (key : α) (first second : β) (m : Assoc α β) :
    put key second (put key first m) = put key second m := by
  induction m with
  | nil => simp [put]
  | cons p rest ih =>
      obtain ⟨k, v⟩ := p
      by_cases hKey : k = key <;> simp [put, hKey, ih]

/-- Where no key is repeated, each binding is the one under its key. -/
theorem get?_eq_some_iff {key : α} {value : β} {m : Assoc α β} (hKeys : (m.map Prod.fst).Nodup) :
    get? key m = some value ↔ (key, value) ∈ m := by
  refine ⟨mem_of_get?, fun hMem => ?_⟩
  induction m with
  | nil => simp at hMem
  | cons p rest ih =>
      obtain ⟨k, v⟩ := p
      rw [List.map_cons, List.nodup_cons] at hKeys
      rcases List.mem_cons.mp hMem with hHead | hRest
      · obtain ⟨rfl, rfl⟩ := Prod.mk.inj hHead
        simp [get?]
      · have hOther : k ≠ key := by
          rintro rfl
          exact hKeys.1 (List.mem_map.mpr ⟨_, hRest, rfl⟩)
        rw [get?, if_neg hOther]
        exact ih hKeys.2 hRest

/-- The order of a map without repeated keys does not matter to what is
found in it. -/
theorem get?_perm {key : α} {m m' : Assoc α β} (hPerm : m.Perm m') (hKeys : (m.map Prod.fst).Nodup) :
    get? key m = get? key m' := by
  have hKeys' : (m'.map Prod.fst).Nodup := ((hPerm.map Prod.fst).nodup_iff).mp hKeys
  refine Option.ext fun value => ?_
  rw [get?_eq_some_iff hKeys, get?_eq_some_iff hKeys', hPerm.mem_iff]

theorem get?_map {γ : Type} (f : β → γ) (key : α) (m : Assoc α β) :
    get? key (m.map fun p => (p.1, f p.2)) = (get? key m).map f := by
  induction m with
  | nil => rfl
  | cons p rest ih =>
      rw [List.map_cons, get?, get?, ih]
      split <;> rfl

/-- What is under a key after many bindings was there before
or is one of them. -/
theorem mem_put {key : α} {value : β} {m : Assoc α β} {p : α × β} (hMem : p ∈ put key value m) :
    p = (key, value) ∨ p ∈ m := by
  induction m with
  | nil => simpa [put] using hMem
  | cons q rest ih =>
      rw [put] at hMem
      split at hMem
      · rcases List.mem_cons.mp hMem with hHead | hRest
        · exact .inl hHead
        · exact .inr (List.mem_cons_of_mem _ hRest)
      · rcases List.mem_cons.mp hMem with hHead | hRest
        · exact .inr (hHead ▸ List.mem_cons_self ..)
        · exact (ih hRest).imp_right (List.mem_cons_of_mem _)

theorem mem_ofPairs {pairs : List (α × β)} {p : α × β} (hMem : p ∈ ofPairs pairs) : p ∈ pairs := by
  suffices hFold : ∀ m : Assoc α β, p ∈ pairs.foldl (fun m p => put p.1 p.2 m) m → p ∈ m ∨ p ∈ pairs by
    simpa using hFold [] hMem
  clear hMem
  induction pairs with
  | nil => exact fun m hMem => .inl hMem
  | cons q pairs ih =>
      intro m hMem
      rcases ih _ hMem with hPut | hRest
      · rcases mem_put hPut with hNew | hOld
        · exact .inr (hNew ▸ List.mem_cons_self ..)
        · exact .inl hOld
      · exact .inr (List.mem_cons_of_mem _ hRest)

/-- A map kept at some keys is found unchanged at these, and has nothing at
the others. -/
theorem get?_filter (wanted : α → Bool) (key : α) (m : Assoc α β) :
    get? key (m.filter fun p => wanted p.1) = if wanted key then get? key m else none := by
  induction m with
  | nil => simp [get?]
  | cons p rest ih =>
      obtain ⟨k, v⟩ := p
      by_cases hKey : k = key
      · subst hKey
        by_cases hWanted : wanted k
        · simp [get?, hWanted]
        · simp [hWanted, ih]
      · by_cases hWanted : wanted k
        · simp [get?, hKey, hWanted, ih]
        · simp [get?, hKey, hWanted, ih]

theorem get?_filter_ne (key gone : α) (m : Assoc α β) :
    get? key (m.filter fun p => p.1 ≠ gone) = if key = gone then none else get? key m := by
  induction m with
  | nil => simp [get?]
  | cons p rest ih =>
      obtain ⟨k, v⟩ := p
      by_cases hGone : k = gone
      · subst hGone
        rw [List.filter_cons_of_neg (by simp), ih, get?]
        split_ifs <;> simp_all
      · rw [List.filter_cons_of_pos (by simpa using hGone), get?, get?, ih]
        split_ifs <;> simp_all

/-- Putting a value keeps the keys and their order; a new key comes last. -/
theorem map_fst_put (key : α) (value : β) (m : Assoc α β) :
    (put key value m).map Prod.fst =
      if key ∈ m.map Prod.fst then m.map Prod.fst else m.map Prod.fst ++ [key] := by
  induction m with
  | nil => simp [put]
  | cons p rest ih =>
      obtain ⟨k, v⟩ := p
      by_cases hKey : k = key
      · simp [put, hKey]
      · rw [put, if_neg hKey, List.map_cons, ih, List.map_cons]
        by_cases hMem : key ∈ rest.map Prod.fst
        · rw [if_pos hMem, if_pos (List.mem_cons_of_mem _ hMem)]
        · rw [if_neg hMem, if_neg (by simpa [Ne.symm hKey] using hMem), List.cons_append]

theorem nodup_put {m : Assoc α β} (hKeys : (m.map Prod.fst).Nodup) (key : α) (value : β) :
    ((put key value m).map Prod.fst).Nodup := by
  rw [map_fst_put]
  split
  · exact hKeys
  · next hNew =>
    refine List.nodup_append.mpr ⟨hKeys, List.nodup_singleton _, fun k hk k' hk' => ?_⟩
    obtain rfl := List.mem_singleton.mp hk'
    rintro rfl
    exact hNew hk

/-- Where no key is repeated, nothing else is left under the key
of a new binding. -/
theorem mem_put_of_nodup {key : α} {value : β} {m : Assoc α β} {p : α × β}
    (hKeys : (m.map Prod.fst).Nodup) (hMem : p ∈ put key value m) :
    p = (key, value) ∨ p ∈ m ∧ p.1 ≠ key := by
  by_cases hKey : p.1 = key
  · left
    have hNew := (get?_eq_some_iff (nodup_put hKeys key value)).mpr hMem
    rw [hKey, get?_put_self] at hNew
    exact Prod.ext hKey (Option.some.inj hNew).symm
  · right
    rcases mem_put hMem with rfl | hOld
    · exact absurd rfl hKey
    · exact ⟨hOld, hKey⟩

/-- The keys after putting are those before, and the one that was put. -/
theorem mem_keys_put {k key : α} {value : β} {m : Assoc α β} :
    k ∈ (put key value m).map Prod.fst ↔ k = key ∨ k ∈ m.map Prod.fst := by
  rw [map_fst_put]
  split
  · next hKnown =>
    refine ⟨.inr, ?_⟩
    rintro (rfl | hk)
    · exact hKnown
    · exact hk
  · rw [List.mem_append, List.mem_singleton, or_comm]

theorem mem_keys_ofPairs {k : α} {pairs : List (α × β)} :
    k ∈ (ofPairs pairs).map Prod.fst ↔ k ∈ pairs.map Prod.fst := by
  suffices hFold : ∀ m : Assoc α β, k ∈ (pairs.foldl (fun m p => put p.1 p.2 m) m).map Prod.fst ↔
      k ∈ m.map Prod.fst ∨ k ∈ pairs.map Prod.fst by
    simpa [ofPairs] using hFold []
  induction pairs with
  | nil => simp
  | cons p pairs ih =>
      intro m
      rw [List.foldl_cons, ih, mem_keys_put, List.map_cons, List.mem_cons]
      tauto

/-- A map made of pairs has no key twice, whatever the pairs repeat. -/
theorem nodup_ofPairs (pairs : List (α × β)) : ((ofPairs pairs).map Prod.fst).Nodup := by
  suffices hFold : ∀ m : Assoc α β, (m.map Prod.fst).Nodup →
      ((pairs.foldl (fun m p => put p.1 p.2 m) m).map Prod.fst).Nodup from hFold [] List.nodup_nil
  induction pairs with
  | nil => exact fun m hKeys => hKeys
  | cons p pairs ih => exact fun m hKeys => ih _ (nodup_put hKeys p.1 p.2)

/-- Of the pairs with one key the last counts. -/
theorem get?_ofPairs (key : α) (pairs : List (α × β)) :
    get? key (ofPairs pairs) = (pairs.reverse.find? fun p => p.1 = key).map Prod.snd := by
  suffices hFold : ∀ m : Assoc α β, get? key (pairs.foldl (fun m p => put p.1 p.2 m) m) =
      ((pairs.reverse.find? fun p => p.1 = key).map Prod.snd).or (get? key m) by
    simpa [ofPairs, get?] using hFold []
  induction pairs with
  | nil => simp
  | cons p pairs ih =>
      intro m
      rw [List.foldl_cons, ih, List.reverse_cons, List.find?_append, Option.map_or, Option.or_assoc]
      congr 1
      by_cases hKey : p.1 = key
      · subst hKey
        simp [get?_put_self]
      · simp [hKey, get?_put_of_ne (Ne.symm hKey)]

/-- Bindings of different keys are a map as they stand. -/
theorem ofPairs_of_nodup {pairs : List (α × β)}
    (hKeys : (pairs.map Prod.fst).Nodup) : ofPairs pairs = pairs := by
  suffices hFold : ∀ m : Assoc α β, ((m ++ pairs).map Prod.fst).Nodup →
      pairs.foldl (fun m p => put p.1 p.2 m) m = m ++ pairs from hFold [] hKeys
  clear hKeys
  induction pairs with
  | nil => simp
  | cons p pairs ih =>
      intro m hKeys
      have hNew : p.1 ∉ m.map Prod.fst := by
        rw [List.map_append, List.map_cons] at hKeys
        exact fun hOld => (List.nodup_append.mp hKeys).2.2 _ hOld _ (List.mem_cons_self ..) rfl
      rw [List.append_cons] at hKeys
      rw [List.foldl_cons, put_of_not_mem hNew, ih _ hKeys, ← List.append_cons]

/-- The keys of a map stand in strict order once it is sorted. -/
theorem sorted_keys {m : Assoc Text β} (hKeys : (m.map Prod.fst).Nodup) :
    ((sorted m).map Prod.fst).Pairwise (· < ·) := Sorting.sort_strict hKeys

/-- A map in strict order of its keys is sorted. -/
theorem sorted_of_ordered {m : Assoc Text β} (hOrdered : (m.map Prod.fst).Pairwise (· < ·)) : sorted m = m := by
  have hKeys : (m.map Prod.fst).Nodup := hOrdered.imp ne_of_lt
  have hPerm : (sorted m).Perm m := Sorting.sort_perm _ _
  apply hPerm.eq_of_pairwise _ (List.pairwise_map.mp (sorted_keys hKeys)) (List.pairwise_map.mp hOrdered)
  intro p q _ _ hLess hMore
  exact absurd hMore (lt_asymm hLess)

end SourceAtlas.Assoc

namespace SourceAtlas

theorem eq_ok_of_toOption {α ε : Type} {r : Except ε α} {a : α} (hResult : r.toOption = some a) : r = .ok a := by
  cases r with
  | error e => cases hResult
  | ok b => rw [Option.some.inj hResult]

/-- A list of computations fails exactly if one of them does. -/
theorem mapM_eq_error_iff {α β ε : Type} {f : α → Except ε β} {xs : List α} :
    (∃ e, xs.mapM f = .error e) ↔ ∃ x ∈ xs, ∃ e, f x = .error e := by
  induction xs with
  | nil => simp [pure, Except.pure]
  | cons x xs ih =>
      rw [List.mapM_cons]
      rcases hHead : f x with e | y
      · simp [bind, Except.bind, hHead]
      · rcases hTail : xs.mapM f with e | ys
        · rw [hTail] at ih
          simpa [bind, Except.bind, hHead] using ih
        · rw [hTail] at ih
          simpa [bind, Except.bind, hHead, pure, Except.pure] using ih

/-- A list of computations that all succeed gives all their results. -/
theorem mapM_eq_ok_of_forall {α β ε : Type} {f : α → Except ε β} {h : α → β} {xs : List α}
    (hEach : ∀ x ∈ xs, f x = .ok (h x)) : xs.mapM f = .ok (xs.map h) := by
  induction xs with
  | nil => rfl
  | cons x xs ih =>
      rw [List.mapM_cons, hEach x (List.mem_cons_self ..),
        ih fun x hx => hEach x (List.mem_cons_of_mem _ hx)]
      rfl

/-- Where each step on a list succeeds, so do all of them together. -/
theorem exists_mapM_eq_ok {α β ε : Type} {f : α → Except ε β} {xs : List α}
    (hEach : ∀ x ∈ xs, ∃ y, f x = .ok y) : ∃ ys, xs.mapM f = .ok ys := by
  rcases hMap : xs.mapM f with e | ys
  · obtain ⟨x, hx, e', hError⟩ := mapM_eq_error_iff.mp ⟨e, hMap⟩
    obtain ⟨y, hOk⟩ := hEach x hx
    rw [hError] at hOk
    cases hOk
  · exact ⟨ys, rfl⟩

theorem exists_mapM_bind {α β γ ε : Type} {f : α → Except ε β} {xs : List α} (g : List β → γ)
    (hEach : ∀ x ∈ xs, ∃ y, f x = .ok y) : ∃ z, (xs.mapM f >>= fun ys => pure (g ys)) = .ok z := by
  obtain ⟨ys, hMap⟩ := exists_mapM_eq_ok hEach
  rw [hMap]
  exact ⟨g ys, rfl⟩

/-- A computation in two steps succeeds only if both do. -/
theorem exists_of_bind_eq_ok {α β ε : Type} {x : Except ε α} {f : α → Except ε β} {b : β}
    (hRun : (x >>= f) = .ok b) : ∃ a, x = .ok a ∧ f a = .ok b := by
  cases x with
  | error e => cases hRun
  | ok a => exact ⟨a, rfl, hRun⟩

/-- Steps that agree on each member of a list agree on the list. -/
theorem mapM_congr {α β ε : Type} {f g : α → Except ε β} {xs : List α} (hSame : ∀ x ∈ xs, f x = g x) :
    xs.mapM f = xs.mapM g := by
  induction xs with
  | nil => rfl
  | cons x xs ih =>
      rw [List.mapM_cons, List.mapM_cons, hSame x (List.mem_cons_self ..),
        ih fun x hx => hSame x (List.mem_cons_of_mem _ hx)]

/-- The results of a list of computations, each with what it
was computed from. -/
theorem forall₂_of_mapM {α β ε : Type} {f : α → Except ε β} {xs : List α} {ys : List β}
    (hMap : xs.mapM f = .ok ys) : List.Forall₂ (fun x y => f x = .ok y) xs ys := by
  induction xs generalizing ys with
  | nil =>
      rw [List.mapM_nil] at hMap
      obtain rfl := Except.ok.inj hMap
      exact .nil
  | cons x xs ih =>
      rw [List.mapM_cons] at hMap
      cases hHead : f x with
      | error e =>
          rw [hHead] at hMap
          cases hMap
      | ok y =>
          cases hTail : xs.mapM f with
          | error e =>
              rw [hHead, hTail] at hMap
              cases hMap
          | ok ys =>
              rw [hHead, hTail] at hMap
              obtain rfl := Except.ok.inj hMap
              exact .cons hHead (ih hTail)

/-- Lists that are related member by member have the same image if related
members have. -/
theorem map_eq_of_forall₂ {α β γ : Type} {R : α → β → Prop} {f : α → γ} {g : β → γ} {xs : List α}
    {ys : List β} (hRelated : List.Forall₂ R xs ys) (hSame : ∀ x y, R x y → g y = f x) :
    ys.map g = xs.map f := by
  induction hRelated with
  | nil => rfl
  | cons hHead _ ih => rw [List.map_cons, List.map_cons, hSame _ _ hHead, ih]

/-- Each member of the second of two lists that are related one by one has
its counterpart in the first. -/
theorem exists_of_forall₂_right {α β : Type} {R : α → β → Prop} {xs : List α} {ys : List β}
    (hRelated : List.Forall₂ R xs ys) {y : β} (hy : y ∈ ys) : ∃ x ∈ xs, R x y := by
  induction hRelated with
  | nil => cases hy
  | cons hHead _ ih =>
      cases List.mem_cons.mp hy with
      | inl hFirst => exact ⟨_, List.mem_cons_self .., hFirst ▸ hHead⟩
      | inr hRest =>
          obtain ⟨x, hx, hxy⟩ := ih hRest
          exact ⟨x, List.mem_cons_of_mem _ hx, hxy⟩

/-- Computations that all succeed give the list they run over exactly if
each gives what it is run on. -/
theorem mapM_eq_self_iff {α ε : Type} {f : α → Except ε α} {xs : List α} :
    xs.mapM f = .ok xs ↔ ∀ x ∈ xs, f x = .ok x := by
  constructor
  · intro hMap
    exact List.forall₂_same.mp (forall₂_of_mapM hMap)
  · intro hEach
    rw [mapM_eq_ok_of_forall hEach, List.map_id']

end SourceAtlas
