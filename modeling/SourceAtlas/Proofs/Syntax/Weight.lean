import Mathlib.Algebra.GroupWithZero.Nat
import Mathlib.Algebra.Order.BigOperators.Group.List
import Mathlib.Algebra.Order.Group.Nat
import Mathlib.Data.List.Perm.Subperm
import Mathlib.Data.List.TakeWhile
import SourceAtlas.Proofs.Syntax.Derivation

/-!
How much of a source a tree accounts for. The weight of a tree is the number of words and marks in
it, and no two of them share a character, so no tree weighs more than the source has characters.
-/
namespace SourceAtlas.Syntax

namespace Tree

mutual

/-- How many words and marks a tree holds. Comments hold none. -/
def weight : Tree → Nat
  | mk l _ start stop cs =>
    if l = .phrase .comment then 0
    else if cs.isEmpty then (if start < stop then 1 else 0)
    else weightAll cs

def weightAll : List Tree → Nat
  | [] => 0
  | t :: ts => weight t + weightAll ts

end

theorem weightAll_eq_sum (ts : List Tree) : weightAll ts = (ts.map weight).sum := by
  induction ts with
  | nil => rfl
  | cons t ts ih => rw [weightAll, List.map_cons, List.sum_cons, ih]

@[simp]
theorem weightAll_append (ts us : List Tree) : weightAll (ts ++ us) = weightAll ts + weightAll us := by
  simp only [weightAll_eq_sum, List.map_append, List.sum_append]

theorem weightAll_singleton (t : Tree) : weightAll [t] = weight t := rfl

/-- Some of the trees of a forest weigh no more than all of them. -/
theorem weightAll_le_of_subperm {ts us : List Tree} (hSub : ts.Subperm us) : weightAll ts ≤ weightAll us := by
  obtain ⟨vs, hPerm, hSublist⟩ := hSub
  rw [weightAll_eq_sum, weightAll_eq_sum, ← (hPerm.map weight).sum_eq]
  exact (hSublist.map weight).sum_le_sum fun _ _ => Nat.zero_le _

/-- A tree weighs no more than a forest that it is in. -/
theorem weight_le_of_mem {t : Tree} {ts : List Tree} (ht : t ∈ ts) : weight t ≤ weightAll ts := by
  rw [← weightAll_singleton]
  exact weightAll_le_of_subperm (List.singleton_subperm_iff.mpr ht)

/-- Trees that each hold a word are no more than the words in all of them. -/
theorem length_le_weightAll {ts : List Tree} (hEach : ∀ t ∈ ts, 0 < weight t) : ts.length ≤ weightAll ts := by
  induction ts with
  | nil => exact Nat.zero_le _
  | cons t ts ih =>
      obtain ⟨ht, hts⟩ := List.forall_mem_cons.mp hEach
      have hRest := ih hts
      rw [List.length_cons, weightAll]
      omega

theorem weight_withField (f : Field) (t : Tree) : (t.withField f).weight = t.weight := by
  cases t
  simp only [withField, weight]

theorem weight_inPart (part : Option Field) (t : Tree) : (t.inPart part).weight = t.weight := by
  cases part with
  | none => rfl
  | some f => exact weight_withField f t

/-- A comment weighs nothing. -/
theorem weight_comment {t : Tree} (hComment : t.isComment = true) : t.weight = 0 := by
  obtain ⟨l, f, start, stop, cs⟩ := t
  have hLabel : l = .phrase .comment := by simpa [isComment, isKind, label] using hComment
  rw [weight, if_pos hLabel]

theorem weightAll_comments {ts : List Tree} (hComments : ∀ t ∈ ts, t.isComment = true) : weightAll ts = 0 := by
  induction ts with
  | nil => rfl
  | cons t ts ih =>
      rw [weightAll, weight_comment (hComments t (List.mem_cons_self ..)),
        ih fun u hu => hComments u (List.mem_cons_of_mem _ hu)]

/-- A phrase weighs what its children weigh. -/
theorem weight_eq_children {t : Tree} (hPhrase : t.isComment = false) (hParts : t.children ≠ []) :
    t.weight = weightAll t.children := by
  obtain ⟨l, f, start, stop, cs⟩ := t
  have hLabel : ¬ l = .phrase .comment := by simpa [isComment, isKind, label] using hPhrase
  have hEmpty : cs.isEmpty = false := by simpa [children] using hParts
  rw [weight, if_neg hLabel, if_neg (by simp [hEmpty]), children]

/-- The children of a phrase weigh no more than the phrase. -/
theorem weightAll_children_le {t : Tree} (hPhrase : t.isComment = false) : weightAll t.children ≤ t.weight := by
  by_cases hParts : t.children = []
  · rw [hParts]
    exact Nat.zero_le _
  · exact (weight_eq_children hPhrase hParts).ge

theorem weightAll_assign (f : Field) (ts : List Tree) : weightAll (assign f ts) = weightAll ts := by
  rw [assign, weightAll_eq_sum, weightAll_eq_sum, List.map_map]
  congr 1
  apply List.map_congr_left
  intro t _
  rw [Function.comp_apply]
  split
  · rfl
  · exact weight_withField f t

/-- The phrase around a forest weighs as much as the forest, or nothing. -/
theorem weightAll_enclose (k : Kind) (here : Nat) (ts : List Tree) :
    weightAll (enclose k here ts) = if k = .comment then 0 else weightAll ts := by
  have hOutside : weightAll (ts.takeWhile isComment) = 0 :=
    weightAll_comments fun t ht => List.mem_takeWhile_imp ht
  have hInside : weightAll ts = weightAll (ts.dropWhile isComment) := by
    conv_lhs => rw [← List.takeWhile_append_dropWhile (p := isComment) (l := ts)]
    rw [weightAll_append, hOutside, Nat.zero_add]
  rw [enclose, weightAll_append, hOutside, Nat.zero_add, weightAll_singleton, weight, hInside]
  by_cases hKind : k = .comment
  · rw [if_pos (by rw [hKind]), if_pos hKind]
  · rw [if_neg (by simpa using hKind), if_neg hKind]
    rcases hForest : ts.dropWhile isComment with _ | ⟨t, us⟩
    · simp [weightAll]
    · rfl

end Tree

/-- No lexeme stands at the end of the source. -/
theorem Lexeme.length_nil (l : Lexeme) : l.length [] = 0 := by
  cases l with
  | mark text notBefore =>
      rw [length]
      split
      · next hPrefix =>
        have hEmpty : text.toList = [] := by
          rw [Bool.and_eq_true, List.isPrefixOf_iff_prefix, List.prefix_nil] at hPrefix
          exact hPrefix.1
        rw [hEmpty, List.length_nil]
      · rfl
  | _ => rfl

/-- What lies between two places is read as comments in no part. -/
theorem Passes.comments {cur next : Cursor} {ts : List Tree} (hPasses : Passes cur ts next) :
    ∀ t ∈ ts, t.isComment = true ∧ t.field = none := by
  induction hPasses with
  | here => simp
  | blank _ _ ih => exact ih
  | comment _ _ ih =>
      intro t ht
      rcases List.mem_cons.mp ht with rfl | ht
      · exact ⟨rfl, rfl⟩
      · exact ih t ht

theorem Cursor.advance_length_le (cur : Cursor) (n : Nat) : (cur.advance n).rest.length ≤ cur.rest.length := by
  rw [advance, List.length_drop]
  exact Nat.sub_le _ _

/-- Going over blanks and comments leaves no more to read than there was. -/
theorem Passes.length_le {cur next : Cursor} {ts : List Tree} (hPasses : Passes cur ts next) :
    next.rest.length ≤ cur.rest.length := by
  induction hPasses with
  | here => exact Nat.le_refl _
  | blank n _ ih => exact ih.trans (Cursor.advance_length_le _ n)
  | comment n _ ih => exact ih.trans (Cursor.advance_length_le _ n)

/-- A single leaf weighs one at most. -/
theorem Lexeme.weight_leaf_le (l : Lexeme) (cur : Cursor) : (l.leaf cur).weight ≤ 1 := by
  rw [leaf, Tree.weight]
  split <;> [exact Nat.zero_le 1; skip]
  simp only [List.isEmpty_nil, if_true]
  split <;> decide

/-- A lexeme takes a character at least, so it pays for its own weight. -/
theorem Lexeme.weight_leaf_add_le {l : Lexeme} {cur : Cursor} (hLength : 0 < l.length cur.rest) :
    (l.leaf cur).weight + (cur.advance (l.length cur.rest)).rest.length ≤ cur.rest.length := by
  have hWeight := l.weight_leaf_le cur
  have hRest : 0 < cur.rest.length := by
    apply List.length_pos_iff.mpr
    intro hEmpty
    rw [hEmpty, l.length_nil] at hLength
    exact Nat.lt_irrefl 0 hLength
  rw [Cursor.advance, List.length_drop]
  omega

namespace Rule

variable {N : Type}

/-- A phrase to go on from is wrapped at most once, and only where
the flag allows it. -/
def lone : Bool → Rule N → Bool
  | ok, .seq a b => lone false a && lone ok b
  | ok, .alt a b => lone ok a && lone ok b
  | _, .many a => lone false a
  | _, .node _ a => lone false a
  | _, .field _ a => lone false a
  | ok, .choose _ a b => lone ok a && lone ok b
  | _, .grow a suffix => lone false a && lone true suffix
  | ok, .wrap _ _ _ a => ok && lone false a
  | ok, .item a => lone ok a
  | _, _ => true

theorem lone_of_false {r : Rule N} (ok : Bool) (hLone : r.lone false = true) : r.lone ok = true := by
  induction r with
  | seq a b _ ihb =>
      simp only [lone, Bool.and_eq_true] at hLone ⊢
      exact ⟨hLone.1, ihb hLone.2⟩
  | alt a b iha ihb =>
      simp only [lone, Bool.and_eq_true] at hLone ⊢
      exact ⟨iha hLone.1, ihb hLone.2⟩
  | choose guard a b _ iha ihb =>
      simp only [lone, Bool.and_eq_true] at hLone ⊢
      exact ⟨iha hLone.1, ihb hLone.2⟩
  | item a ih => exact ih hLone
  | wrap after k part a => simp [lone] at hLone
  | _ => exact hLone

end Rule

variable {N : Type} {g : N → Rule N}

/-- The weight that a phrase to go on from brings along, where
it may be wrapped. -/
def leftWeight (ok : Bool) (left : Option Tree) : Nat := if ok then (left.map Tree.weight).getD 0 else 0

/-- What is read weighs no more than the characters that were taken for it,
together with the phrase that reading went on from. -/
theorem Derives.weight_le (hGrammar : ∀ n, (g n).lone false = true) {left : Option Tree} {r : Rule N}
    {cur next : Cursor} {ts : List Tree} (derives : Derives g left r cur ts next) (ok : Bool)
    (hLone : r.lone ok = true) :
    Tree.weightAll ts + next.rest.length ≤ cur.rest.length + leftWeight ok left := by
  have hNone (ok : Bool) : leftWeight ok none = 0 := by cases ok <;> rfl
  have hPassed {cur next : Cursor} {ts : List Tree} (hPasses : Passes cur ts next) :
      Tree.weightAll ts + next.rest.length ≤ cur.rest.length := by
    rw [Tree.weightAll_comments fun t ht => (hPasses.comments t ht).1, Nat.zero_add]
    exact hPasses.length_le
  induction derives generalizing ok with
  | done | stop | fits | unfit => simp [Tree.weightAll]
  | token hPasses hLength =>
      have hComments := hPassed hPasses
      have hLeaf := Lexeme.weight_leaf_add_le hLength
      rw [Tree.weightAll_append, Tree.weightAll_singleton]
      omega
  | here hLength =>
      have hLeaf := Lexeme.weight_leaf_add_le hLength
      rw [Tree.weightAll_singleton]
      omega
  | unwritten hPasses | finish hPasses =>
      have hComments := hPassed hPasses
      omega
  | call _ ih => exact ih _ (Rule.lone_of_false ok (hGrammar _))
  | seq _ _ ihFirst ihSecond =>
      simp only [Rule.lone, Bool.and_eq_true] at hLone
      have hFirst := ihFirst _ hLone.1
      have hSecond := ihSecond _ hLone.2
      rw [Tree.weightAll_append]
      simp only [leftWeight, Bool.false_eq_true, if_false] at hFirst
      omega
  | altLeft _ ih | yes _ ih =>
      simp only [Rule.lone, Bool.and_eq_true] at hLone
      exact ih _ hLone.1
  | altRight _ ih | no _ ih =>
      simp only [Rule.lone, Bool.and_eq_true] at hLone
      exact ih _ hLone.2
  | more _ _ ihFirst ihRest =>
      have hFirst := ihFirst false hLone
      have hRest := ihRest _ hLone
      rw [Tree.weightAll_append]
      simp only [leftWeight, Bool.false_eq_true, if_false] at hFirst
      omega
  | node _ ih =>
      have hInner := ih false hLone
      rw [hNone] at hInner
      rw [Tree.weightAll_enclose]
      split <;> omega
  | field _ ih =>
      have hInner := ih false hLone
      rw [hNone] at hInner
      rw [Tree.weightAll_assign]
      omega
  | seed _ ih =>
      simp only [Rule.lone, Bool.and_eq_true] at hLone
      have hInner := ih _ hLone.1
      rw [hNone] at hInner
      omega
  | grown _ _ hLast ihShorter ihStep =>
      have hShorter := ihShorter _ hLone
      simp only [Rule.lone, Bool.and_eq_true] at hLone
      have hStep := ihStep _ hLone.2
      have hWrapped := Tree.weight_le_of_mem (List.mem_of_getLast? hLast)
      simp only [leftWeight, if_true, Option.map_some, Option.getD_some] at hStep
      rw [Tree.weightAll_append, Tree.weightAll_singleton] at hShorter ⊢
      omega
  | wrap _ ih =>
      simp only [Rule.lone, Bool.and_eq_true] at hLone
      obtain ⟨rfl, hLone⟩ := hLone
      have hInner := ih _ hLone
      rw [hNone] at hInner
      rw [Tree.weightAll_enclose]
      simp only [leftWeight, if_true, Option.map_some, Option.getD_some, Tree.weightAll, Tree.weight_inPart]
      split <;> omega
  | item _ ih => exact ih _ hLone

end SourceAtlas.Syntax
