import SourceAtlas.Proofs.Syntax.Shape

/-!
Where trees begin. Phrases and tokens begin in the order of the tree, each no earlier than reading
began and no later than it ended. Comments are left out: a phrase that is empty stands where its
rule was begun, and comments may lie between that place and the next token.
-/
namespace SourceAtlas.Syntax

/-- Places in ascending order, from one place up to another. -/
structure Placed (lo : Nat) (ns : List Nat) (hi : Nat) : Prop where
  ordered : ns.Pairwise (· ≤ ·)
  begins : ∀ n ∈ ns, lo ≤ n
  ends : ∀ n ∈ ns, n ≤ hi
  spans : lo ≤ hi

namespace Placed

variable {lo mid hi : Nat} {ns ms : List Nat}

theorem nil (hSpan : lo ≤ hi) : Placed lo [] hi := ⟨.nil, by simp, by simp, hSpan⟩

/-- Places up to one and places from it on are in order together. -/
theorem append (first : Placed lo ns mid) (second : Placed mid ms hi) : Placed lo (ns ++ ms) hi where
  ordered := List.pairwise_append.mpr
    ⟨first.ordered, second.ordered, fun n hn m hm => (first.ends n hn).trans (second.begins m hm)⟩
  begins := List.forall_mem_append.mpr ⟨first.begins, fun m hm => first.spans.trans (second.begins m hm)⟩
  ends := List.forall_mem_append.mpr ⟨fun n hn => (first.ends n hn).trans second.spans, second.ends⟩
  spans := first.spans.trans second.spans

/-- Less may lie between places that are further apart. -/
theorem widen (placed : Placed lo ns hi) {lo' hi' : Nat} {ms : List Nat} (hLow : lo' ≤ lo) (hHigh : hi ≤ hi')
    (hSub : ms.Sublist ns) : Placed lo' ms hi' where
  ordered := placed.ordered.sublist hSub
  begins m hm := hLow.trans (placed.begins m (hSub.subset hm))
  ends m hm := (placed.ends m (hSub.subset hm)).trans hHigh
  spans := hLow.trans (placed.spans.trans hHigh)

/-- There is a place between what comes first and what comes after it. -/
theorem split (placed : Placed lo (ns ++ ms) hi) : ∃ mid, Placed lo ns mid ∧ Placed mid ms hi := by
  obtain ⟨hFirst, hSecond, hOrder⟩ := List.pairwise_append.mp placed.ordered
  obtain ⟨hBegins, hBegins'⟩ := List.forall_mem_append.mp placed.begins
  obtain ⟨hEnds, hEnds'⟩ := List.forall_mem_append.mp placed.ends
  rcases ns.eq_nil_or_concat' with rfl | ⟨front, n, rfl⟩
  · exact ⟨lo, .nil (Nat.le_refl _), hSecond, hBegins', hEnds', placed.spans⟩
  · have hLast : ∀ m ∈ front ++ [n], m ≤ n := by
      obtain ⟨-, -, hBefore⟩ := List.pairwise_append.mp hFirst
      exact List.forall_mem_append.mpr ⟨fun m hm => hBefore m hm n (by simp), by simp⟩
    have hn : n ∈ front ++ [n] := List.mem_append_right _ (List.mem_singleton_self n)
    exact ⟨n, ⟨hFirst, hBegins, hLast, hBegins n hn⟩, hSecond, fun m hm => hOrder n hn m hm, hEnds', hEnds n hn⟩

/-- A phrase begins at the first of the places in it; one without a place,
where its rule began. -/
theorem cons_head (placed : Placed lo ns hi) (here : Nat) (hHere : ns = [] → lo ≤ here ∧ here ≤ hi) :
    Placed lo (ns.head?.getD here :: ns) hi := by
  cases ns with
  | nil =>
      obtain ⟨hLow, hHigh⟩ := hHere rfl
      exact ⟨List.pairwise_singleton _ _, by simpa using hLow, by simpa using hHigh, placed.spans⟩
  | cons n ns =>
      obtain ⟨hFirst, -⟩ := List.pairwise_cons.mp placed.ordered
      have hn : n ∈ n :: ns := List.mem_cons_self ..
      refine ⟨List.pairwise_cons.mpr ⟨?_, placed.ordered⟩, ?_, ?_, placed.spans⟩
      · exact List.forall_mem_cons.mpr ⟨Nat.le_refl n, hFirst⟩
      · exact List.forall_mem_cons.mpr ⟨placed.begins n hn, placed.begins⟩
      · exact List.forall_mem_cons.mpr ⟨placed.ends n hn, placed.ends⟩

end Placed

namespace Tree

mutual

/-- Where the phrases and tokens of a tree begin, in the order of the tree. -/
def starts : Tree → List Nat
  | mk l _ start _ cs => if l = .phrase .comment then [] else start :: startsAll cs

/-- Where the phrases and tokens of a forest begin, in order. -/
def startsAll : List Tree → List Nat
  | [] => []
  | t :: ts => starts t ++ startsAll ts

end

theorem startsAll_eq (ts : List Tree) : startsAll ts = ts.flatMap starts := by
  induction ts with
  | nil => rfl
  | cons t ts ih => rw [startsAll, ih, List.flatMap_cons]

@[simp]
theorem startsAll_append (ts us : List Tree) : startsAll (ts ++ us) = startsAll ts ++ startsAll us := by
  simp only [startsAll_eq, List.flatMap_append]

theorem startsAll_singleton (t : Tree) : startsAll [t] = t.starts := List.append_nil _

/-- What begins within a tree begins within the forest, in the same order. -/
theorem starts_sublist {t : Tree} {ts : List Tree} (ht : t ∈ ts) : t.starts.Sublist (startsAll ts) := by
  obtain ⟨before, after, rfl⟩ := List.append_of_mem ht
  rw [startsAll_append, startsAll]
  exact (List.sublist_append_left ..).trans (List.sublist_append_right ..)

theorem starts_withField (f : Field) (t : Tree) : (t.withField f).starts = t.starts := by
  cases t
  rw [withField, starts, starts]

theorem starts_inPart (part : Option Field) (t : Tree) : (t.inPart part).starts = t.starts := by
  cases part with
  | none => rfl
  | some f => exact starts_withField f t

/-- Neither phrase nor token begins in a comment. -/
theorem starts_comment {t : Tree} (hComment : t.isComment = true) : t.starts = [] := by
  obtain ⟨l, f, start, stop, cs⟩ := t
  have hLabel : l = .phrase .comment := by simpa [isComment, isKind, label] using hComment
  rw [starts, if_pos hLabel]

/-- What is no comment begins where its text begins. -/
theorem starts_phrase {t : Tree} (hPhrase : t.isComment = false) : t.starts = t.start :: startsAll t.children := by
  obtain ⟨l, f, start, stop, cs⟩ := t
  have hLabel : ¬ l = .phrase .comment := by simpa [isComment, isKind, label] using hPhrase
  rw [starts, if_neg hLabel]
  rfl

theorem startsAll_comments {ts : List Tree} (hComments : ∀ t ∈ ts, t.isComment = true) : startsAll ts = [] := by
  rw [startsAll_eq, List.flatMap_eq_nil_iff]
  exact fun t ht => starts_comment (hComments t ht)

/-- Reading trees into a part moves nothing. -/
theorem startsAll_assign (f : Field) (ts : List Tree) : startsAll (assign f ts) = startsAll ts := by
  rw [assign, startsAll_eq, startsAll_eq, List.flatMap_map]
  congr 1
  funext t
  split
  · rfl
  · exact starts_withField f t

theorem startsAll_dropWhile (ts : List Tree) : startsAll (ts.dropWhile isComment) = startsAll ts := by
  conv_rhs => rw [← List.takeWhile_append_dropWhile (p := isComment) (l := ts)]
  rw [startsAll_append, startsAll_comments fun t ht => List.mem_takeWhile_imp ht, List.nil_append]

/-- The phrase around a forest begins where the first tree in it begins. -/
theorem startsAll_enclose {k : Kind} (hKind : k ≠ .comment) (here : Nat) (ts : List Tree) :
    startsAll (enclose k here ts) = (startsAll ts).head?.getD here :: startsAll ts := by
  have hLabel : ¬ Label.phrase k = .phrase .comment := by simpa using hKind
  rw [enclose, startsAll_append, startsAll_comments fun t ht => List.mem_takeWhile_imp ht, List.nil_append,
    startsAll_singleton, starts, if_neg hLabel, startsAll_dropWhile]
  congr 1
  rw [← startsAll_dropWhile]
  cases hForest : ts.dropWhile isComment with
  | nil => rfl
  | cons t us =>
      have hPhrase : t.isComment = false := by
        have hHead := List.head?_dropWhile_not isComment ts
        rw [hForest, List.head?_cons] at hHead
        simpa using hHead
      rw [startsAll, starts_phrase hPhrase]
      rfl

/-- Where something has a weight outside of some parts, a
phrase or token begins. -/
theorem startsAll_ne_nil {out : List Field} {ts : List Tree} (hWeighty : Weighty out ts) : startsAll ts ≠ [] := by
  obtain ⟨t, ht, hWeight, -⟩ := hWeighty
  intro hEmpty
  have hNone := hEmpty ▸ starts_sublist ht
  rw [starts_phrase (isComment_of_weight hWeight)] at hNone
  cases hNone

end Tree

variable {N : Type} {g : N → Rule N}

/-- The exam that a grammar passes if phrases are never comments, and if
whatever wraps a phrase holds a word or mark besides. -/
def anchored (table : N → Bool) : Exam N where
  leaf _ := true
  node k _ := k != .comment
  field _ _ := true
  wrap k _ a := k != .comment && a.holds table []

theorem Passes.offset_le {cur next : Cursor} {ts : List Tree} (hPasses : Passes cur ts next) :
    cur.offset ≤ next.offset := by
  induction hPasses with
  | here => exact Nat.le_refl _
  | blank n _ ih | comment n _ ih => exact (Nat.le_add_right _ n).trans ih

/-- The comments between two places hold nothing that would
have to be in order. -/
theorem Passes.placed {cur next : Cursor} {ts : List Tree} (hPasses : Passes cur ts next) :
    Placed cur.offset (Tree.startsAll ts) next.offset := by
  rw [Tree.startsAll_comments fun t ht => (hPasses.comments t ht).1]
  exact .nil hPasses.offset_le

/-- A leaf stands where it was read, before anything that is read after it. -/
theorem Lexeme.placed_leaf (l : Lexeme) (cur : Cursor) :
    Placed cur.offset (Tree.startsAll [l.leaf cur]) (cur.advance (l.length cur.rest)).offset := by
  have hSpan : cur.offset ≤ (cur.advance (l.length cur.rest)).offset := Nat.le_add_right ..
  have hAt : Placed cur.offset [cur.offset] (cur.advance (l.length cur.rest)).offset :=
    ⟨List.pairwise_singleton _ _, by simp, by simpa using hSpan, hSpan⟩
  refine hAt.widen (Nat.le_refl _) (Nat.le_refl _) ?_
  rw [Tree.startsAll_singleton, Lexeme.leaf, Tree.starts]
  split
  · exact List.nil_sublist _
  · exact List.Sublist.refl _

/-- What is read begins in order, from where reading began to where it
ended. Where a phrase is gone on from, each tree alone is in order from
where that phrase began. -/
theorem Derives.placed {table : N → Bool} (hLones : ∀ n, (g n).lone false = true)
    (hAnchored : ∀ n, (g n).passes (anchored table) = true)
    (hTable : ∀ n, table n = true → (g n).holds table [] = true) {left : Option Tree} {r : Rule N}
    {cur next : Cursor} {ts : List Tree} (derives : Derives g left r cur ts next) (ok : Bool)
    (hLone : r.lone ok = true) (hPasses : r.passes (anchored table) = true) :
    cur.offset ≤ next.offset ∧ (ok = false → Placed cur.offset (Tree.startsAll ts) next.offset) ∧
      ∀ lo, ∀ p ∈ left, Placed lo p.starts cur.offset → ∀ t ∈ ts, Placed lo t.starts next.offset := by
  have hWhole {left : Option Tree} {cur next : Cursor} {ts : List Tree} (ok : Bool)
      (placed : Placed cur.offset (Tree.startsAll ts) next.offset) :
      cur.offset ≤ next.offset ∧ (ok = false → Placed cur.offset (Tree.startsAll ts) next.offset) ∧
        ∀ lo, ∀ p ∈ left, Placed lo p.starts cur.offset → ∀ t ∈ ts, Placed lo t.starts next.offset :=
    ⟨placed.spans, fun _ => placed,
      fun lo p _ hp t ht => placed.widen hp.spans (Nat.le_refl _) (Tree.starts_sublist ht)⟩
  induction derives generalizing ok with
  | done | stop | fits | unfit => exact hWhole ok (.nil (Nat.le_refl _))
  | token hComments _ =>
      refine hWhole ok ?_
      rw [Tree.startsAll_append]
      exact hComments.placed.append (Lexeme.placed_leaf _ _)
  | here _ => exact hWhole ok (Lexeme.placed_leaf _ _)
  | unwritten hComments | finish hComments => exact hWhole ok hComments.placed
  | call _ ih => exact ih _ (Rule.lone_of_false ok (hLones _)) (hAnchored _)
  | seq _ _ ihFirst ihSecond =>
      simp only [Rule.lone, Rule.passes, Bool.and_eq_true] at hLone hPasses
      have hFirst := (ihFirst _ hLone.1 hPasses.1).2.1 rfl
      obtain ⟨hSpan, hSecond, hEach⟩ := ihSecond _ hLone.2 hPasses.2
      refine ⟨hFirst.spans.trans hSpan, fun hOk => ?_, fun lo p hLeft hp t ht => ?_⟩
      · rw [Tree.startsAll_append]
        exact hFirst.append (hSecond hOk)
      · rcases List.mem_append.mp ht with ht | ht
        · exact hFirst.widen hp.spans hSpan (Tree.starts_sublist ht)
        · exact hEach lo p hLeft (hp.widen (Nat.le_refl _) hFirst.spans (List.Sublist.refl _)) t ht
  | altLeft _ ih | yes _ ih =>
      simp only [Rule.lone, Rule.passes, Bool.and_eq_true] at hLone hPasses
      exact ih _ hLone.1 hPasses.1
  | altRight _ ih | no _ ih =>
      simp only [Rule.lone, Rule.passes, Bool.and_eq_true] at hLone hPasses
      exact ih _ hLone.2 hPasses.2
  | more _ _ ihFirst ihRest =>
      refine hWhole ok ?_
      rw [Tree.startsAll_append]
      exact ((ihFirst false hLone hPasses).2.1 rfl).append ((ihRest false hLone hPasses).2.1 rfl)
  | node _ ih =>
      simp only [Rule.passes, Bool.and_eq_true] at hPasses
      have hInner := (ih false hLone hPasses.2).2.1 rfl
      refine hWhole ok ?_
      rw [Tree.startsAll_enclose (bne_iff_ne.mp hPasses.1)]
      exact hInner.cons_head _ fun _ => ⟨Nat.le_refl _, hInner.spans⟩
  | field _ ih =>
      simp only [Rule.passes, Bool.and_eq_true] at hPasses
      refine hWhole ok ?_
      rw [Tree.startsAll_assign]
      exact (ih false hLone hPasses.2).2.1 rfl
  | seed _ ih =>
      simp only [Rule.lone, Rule.passes, Bool.and_eq_true] at hLone hPasses
      exact hWhole ok ((ih _ hLone.1 hPasses.1).2.1 rfl)
  | grown _ step hLast ihShorter ihStep =>
      have hShorter := (ihShorter false hLone hPasses).2.1 rfl
      simp only [Rule.lone, Rule.passes, Bool.and_eq_true] at hLone hPasses
      rw [Tree.startsAll_append, Tree.startsAll_singleton] at hShorter
      obtain ⟨mid, hBefore, hPhrase⟩ := hShorter.split
      have hWrapped := (ihStep _ hLone.2 hPasses.2).2.2 mid _ rfl hPhrase _ (List.mem_of_getLast? hLast)
      refine hWhole ok ?_
      rw [Tree.startsAll_append, Tree.startsAll_singleton]
      exact hBefore.append hWrapped
  | @wrap phrase _ k part a cur next ts inner ih =>
      simp only [Rule.lone, Rule.passes, anchored, Bool.and_eq_true] at hLone hPasses
      obtain ⟨rfl, hLone⟩ := hLone
      obtain ⟨⟨hKind, hHolds⟩, hPasses⟩ := hPasses
      have hInner := (ih _ hLone hPasses).2.1 rfl
      refine ⟨hInner.spans, fun hOk => absurd hOk.symm Bool.false_ne_true, fun lo p hLeft hp t ht => ?_⟩
      obtain rfl := Option.some.inj hLeft
      have hBoth := hp.append hInner
      have hAll := hBoth.cons_head phrase.start fun hEmpty =>
        absurd (List.append_eq_nil_iff.mp hEmpty).2 (Tree.startsAll_ne_nil (inner.weighty hTable hHolds))
      refine hAll.widen (Nat.le_refl _) (Nat.le_refl _) ?_
      have hStarts := Tree.startsAll_enclose (bne_iff_ne.mp hKind) phrase.start (phrase.inPart part :: ts)
      rw [Tree.startsAll, Tree.starts_inPart] at hStarts
      rw [← hStarts]
      exact Tree.starts_sublist ht
  | item _ ih => exact ih _ hLone hPasses

end SourceAtlas.Syntax
