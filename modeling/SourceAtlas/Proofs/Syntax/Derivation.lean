import Mathlib.Data.List.Basic
import SourceAtlas.Syntax.Rule

/-!
What rules read, without the order in which the reader tries them. Every success of the reader is a
derivation, and what is proved of all trees that can be derived holds of all trees it gives. The
relation leaves out why a choice fell as it did, so it derives more than the reader reads.
-/
namespace SourceAtlas.Syntax

def commentTree (start stop : Nat) : Tree := .mk (.phrase .comment) none start stop []

/-- Blanks and comments lie between two places; the comments become trees. -/
inductive Passes : Cursor → List Tree → Cursor → Prop
  | here (cur : Cursor) : Passes cur [] cur
  | blank {cur next : Cursor} {ts : List Tree} (n : Nat) (rest : Passes (cur.advance n) ts next) :
      Passes cur ts next
  | comment {cur next : Cursor} {ts : List Tree} (n : Nat) (rest : Passes (cur.advance n) ts next) :
      Passes cur (commentTree cur.offset (cur.advance n).offset :: ts) next

/-- Blanks and comments are passed over as far as they go, and the
comments are kept. -/
theorem extras_passes (steps : List Char) (cur : Cursor) :
    Passes cur (extras steps cur).1 (extras steps cur).2 := by
  induction steps generalizing cur with
  | nil => exact .here cur
  | cons _ steps ih =>
      rw [extras]
      apply Passes.blank
      split
      · exact .here _
      · exact .comment _ (ih _)

theorem skipExtras_passes (cur : Cursor) : Passes cur cur.skipExtras.1 cur.skipExtras.2 :=
  extras_passes cur.rest cur

/-- A semicolon that is not written takes up nothing but what lies between. -/
theorem readUnwritten_passes {around : Around} {afterExpression signature : Bool} {steps : List Char}
    {before ts : List Tree} {cur next : Cursor}
    (hRead : (readUnwritten around afterExpression signature steps before cur).result = some (ts, next)) :
    ∃ comments, ts = before ++ comments ∧ Passes cur comments next := by
  have hAccept {before : List Tree} {cur : Cursor}
      (hAccepted : (Outcome.accept before cur).result = some (ts, next)) :
      ∃ comments, ts = before ++ comments ∧ Passes cur comments next := by
    obtain ⟨rfl, rfl⟩ := Prod.mk.inj (Option.some.inj hAccepted)
    exact ⟨[], (List.append_nil _).symm, .here _⟩
  induction steps generalizing before cur with
  | nil =>
      rw [readUnwritten] at hRead
      split at hRead
      · exact hAccept hRead
      · cases hRead
  | cons _ steps ih =>
      rw [readUnwritten] at hRead
      split at hRead
      · exact hAccept hRead
      · dsimp only at hRead
        split at hRead
        · cases hRead
        · obtain ⟨comments, rfl, hPasses⟩ := ih hRead
          exact ⟨_, List.append_assoc .., .blank _ (.comment _ hPasses)⟩

/-- The tree of a lexeme at a place. -/
def Lexeme.leaf (l : Lexeme) (cur : Cursor) : Tree :=
  .mk l.label none cur.offset (cur.advance (l.length cur.rest)).offset []

/-- A phrase in the part that a rule gives it, if it gives one. -/
def Tree.inPart (part : Option Field) (t : Tree) : Tree :=
  match part with
  | some f => t.withField f
  | none => t

variable {N : Type}

/-- What a rule may read from one place to another, as trees. The first tree
is the phrase to go on from, if there is one. -/
inductive Derives (g : N → Rule N) : Option Tree → Rule N → Cursor → List Tree → Cursor → Prop
  | done {left : Option Tree} {cur : Cursor} : Derives g left .done cur [] cur
  | token {left : Option Tree} {l : Lexeme} {cur mid : Cursor} {comments : List Tree}
      (hPasses : Passes cur comments mid) (hLength : 0 < l.length mid.rest) :
      Derives g left (.token l) cur (comments ++ [l.leaf mid]) (mid.advance (l.length mid.rest))
  | here {left : Option Tree} {l : Lexeme} {cur : Cursor} (hLength : 0 < l.length cur.rest) :
      Derives g left (.here l) cur [l.leaf cur] (cur.advance (l.length cur.rest))
  | unwritten {left : Option Tree} {afterExpression signature : Bool} {cur next : Cursor} {ts : List Tree}
      (hPasses : Passes cur ts next) : Derives g left (.unwritten afterExpression signature) cur ts next
  | finish {left : Option Tree} {cur next : Cursor} {ts : List Tree} (hPasses : Passes cur ts next) :
      Derives g left .finish cur ts next
  | call {left : Option Tree} {n : N} {cur next : Cursor} {ts : List Tree}
      (inner : Derives g left (g n) cur ts next) : Derives g left (.call n) cur ts next
  | seq {left : Option Tree} {a b : Rule N} {cur mid next : Cursor} {ts us : List Tree}
      (first : Derives g left a cur ts mid) (second : Derives g left b mid us next) :
      Derives g left (.seq a b) cur (ts ++ us) next
  | altLeft {left : Option Tree} {a b : Rule N} {cur next : Cursor} {ts : List Tree}
      (inner : Derives g left a cur ts next) : Derives g left (.alt a b) cur ts next
  | altRight {left : Option Tree} {a b : Rule N} {cur next : Cursor} {ts : List Tree}
      (inner : Derives g left b cur ts next) : Derives g left (.alt a b) cur ts next
  | stop {left : Option Tree} {a : Rule N} {cur : Cursor} : Derives g left (.many a) cur [] cur
  | more {left : Option Tree} {a : Rule N} {cur mid next : Cursor} {ts us : List Tree}
      (first : Derives g left a cur ts mid) (rest : Derives g left (.many a) mid us next) :
      Derives g left (.many a) cur (ts ++ us) next
  | node {left : Option Tree} {k : Kind} {a : Rule N} {cur next : Cursor} {ts : List Tree}
      (inner : Derives g none a cur ts next) :
      Derives g left (.node k a) cur (Tree.enclose k cur.offset ts) next
  | field {left : Option Tree} {f : Field} {a : Rule N} {cur next : Cursor} {ts : List Tree}
      (inner : Derives g none a cur ts next) : Derives g left (.field f a) cur (Tree.assign f ts) next
  | fits {left : Option Tree} {a : Rule N} {cur : Cursor} : Derives g left (.ahead a) cur [] cur
  | unfit {left : Option Tree} {a : Rule N} {cur : Cursor} : Derives g left (.unless a) cur [] cur
  | yes {left : Option Tree} {guard a b : Rule N} {cur next : Cursor} {ts : List Tree}
      (inner : Derives g left a cur ts next) : Derives g left (.choose guard a b) cur ts next
  | no {left : Option Tree} {guard a b : Rule N} {cur next : Cursor} {ts : List Tree}
      (inner : Derives g left b cur ts next) : Derives g left (.choose guard a b) cur ts next
  | seed {left : Option Tree} {a suffix : Rule N} {cur next : Cursor} {ts : List Tree}
      (inner : Derives g none a cur ts next) : Derives g left (.grow a suffix) cur ts next
  | grown {left : Option Tree} {a suffix : Rule N} {cur mid next : Cursor} {before ts : List Tree}
      {last wrapped : Tree} (shorter : Derives g left (.grow a suffix) cur (before ++ [last]) mid)
      (step : Derives g (some last) suffix mid ts next) (hLast : ts.getLast? = some wrapped) :
      Derives g left (.grow a suffix) cur (before ++ [wrapped]) next
  | wrap {phrase : Tree} {after : List Kind} {k : Kind} {part : Option Field} {a : Rule N}
      {cur next : Cursor} {ts : List Tree} (inner : Derives g none a cur ts next) :
      Derives g (some phrase) (.wrap after k part a) cur
        (Tree.enclose k phrase.start (phrase.inPart part :: ts)) next
  | item {left : Option Tree} {a : Rule N} {cur next : Cursor} {ts : List Tree}
      (inner : Derives g left a cur ts next) : Derives g left (.item a) cur ts next

@[simp]
theorem Outcome.result_since (o : Outcome) (s : Stuck) : (o.since s).result = o.result := rfl

theorem Outcome.result_mapTrees {f : List Tree → List Tree} {o : Outcome} {ts : List Tree} {cur : Cursor}
    (hResult : (o.mapTrees f).result = some (ts, cur)) : ∃ us, o.result = some (us, cur) ∧ ts = f us := by
  obtain ⟨⟨us, c⟩, hOutcome, hPair⟩ := Option.map_eq_some_iff.mp hResult
  obtain ⟨rfl, rfl⟩ := Prod.mk.inj hPair
  exact ⟨us, hOutcome, rfl⟩

/-- An outcome that is no success has no result. -/
theorem Outcome.result_of_refused {o : Outcome}
    (hRefused : ∀ ts cur stuck, o = ⟨some (ts, cur), stuck⟩ → False) : o.result = none := by
  rcases o with ⟨_ | ⟨ts, cur⟩, stuck⟩
  · rfl
  · exact (hRefused ts cur stuck rfl).elim

/-- A lexeme that is read takes up at least a sign and adds one leaf. -/
theorem readLexeme_result {around : Around} {l : Lexeme} {before ts : List Tree} {cur next : Cursor}
    (hRead : (readLexeme around l before cur).result = some (ts, next)) :
    0 < l.length cur.rest ∧ ts = before ++ [l.leaf cur] ∧ next = cur.advance (l.length cur.rest) := by
  rw [readLexeme] at hRead
  dsimp only at hRead
  split at hRead
  · cases hRead
  · next hLength =>
    obtain ⟨rfl, rfl⟩ := Prod.mk.inj (Option.some.inj hRead)
    exact ⟨Nat.pos_of_ne_zero hLength, rfl, rfl⟩

section Soundness

variable {g : N → Rule N}

/-- The reader with this fuel reads only what can be derived. -/
def Sound (g : N → Rule N) (fuel : Nat) : Prop :=
  ∀ (around : Around) (rule : Rule N) (cur : Cursor) (ts : List Tree) (next : Cursor),
    (Rule.run g fuel around rule cur).result = some (ts, next) → Derives g around.left rule cur ts next

/-- As many readings of a rule as succeed make a reading of its repetition. -/
theorem runMany_derives {fuel : Nat} (hSound : ∀ n ≤ fuel, Sound g n) {around : Around} {a : Rule N}
    {found : List (List Tree)} {stuck : Stuck} {cur next : Cursor} {ts : List Tree}
    (hRun : (Rule.runMany g fuel around a found stuck cur).result = some (ts, next)) :
    ∃ us, ts = found.reverse.flatten ++ us ∧ Derives g around.left (.many a) cur us next := by
  have hStop {found : List (List Tree)} {stuck : Stuck} {cur : Cursor}
      (hResult : (Outcome.mk (some (found.reverse.flatten, cur)) stuck).result = some (ts, next)) :
      ∃ us, ts = found.reverse.flatten ++ us ∧ Derives g around.left (.many a) cur us next := by
    obtain ⟨rfl, rfl⟩ := Prod.mk.inj (Option.some.inj hResult)
    exact ⟨[], (List.append_nil _).symm, .stop⟩
  induction fuel generalizing found stuck cur with
  | zero =>
      rw [Rule.runMany] at hRun
      exact hStop hRun
  | succ fuel ih =>
      rw [Rule.runMany] at hRun
      split at hRun
      · next trees mid more hStep =>
        split at hRun
        · exact hStop hRun
        · have hFirst := hSound fuel (Nat.le_succ _) around a cur trees mid (by rw [hStep])
          obtain ⟨us, rfl, hRest⟩ := ih (fun n hn => hSound n (Nat.le_succ_of_le hn)) hRun
          refine ⟨trees ++ us, by simp, .more hFirst hRest⟩
      · exact hStop hRun

/-- Suffixes are read one after the other, each going on
from the tree before. -/
theorem runGrow_derives {fuel : Nat} (hSound : ∀ n ≤ fuel, Sound g n) {around : Around} {seed suffix : Rule N}
    {before ts : List Tree} {last : Tree} {stuck : Stuck} {start cur next : Cursor}
    (hGrown : Derives g around.left (.grow seed suffix) start (before ++ [last]) cur)
    (hRun : (Rule.runGrow g fuel around suffix before last stuck cur).result = some (ts, next)) :
    Derives g around.left (.grow seed suffix) start ts next := by
  induction fuel generalizing last stuck cur with
  | zero =>
      obtain ⟨rfl, rfl⟩ := Prod.mk.inj (Option.some.inj hRun)
      exact hGrown
  | succ fuel ih =>
      rw [Rule.runGrow] at hRun
      split at hRun
      · next trees mid more hStep =>
        split at hRun
        · next wrapped hLast =>
          have hSuffix := hSound fuel (Nat.le_succ _) { around with left := some last } suffix cur trees mid
            (by rw [hStep])
          exact ih (fun n hn => hSound n (Nat.le_succ_of_le hn)) (.grown hGrown hSuffix hLast) hRun
        · obtain ⟨rfl, rfl⟩ := Prod.mk.inj (Option.some.inj hRun)
          exact hGrown
      · obtain ⟨rfl, rfl⟩ := Prod.mk.inj (Option.some.inj hRun)
        exact hGrown

section Step

variable {fuel : Nat} {around : Around} {cur next : Cursor} {ts : List Tree}

/-- What is read by two rules in sequence is derived from both. -/
theorem Sound.seq (hRule : Sound g fuel) {a b : Rule N}
    (hRun : (Rule.run g (fuel + 1) around (.seq a b) cur).result = some (ts, next)) :
    Derives g around.left (.seq a b) cur ts next := by
  rw [Rule.run] at hRun
  split at hRun
  · next before mid stuck hFirst =>
    obtain ⟨us, hSecond, rfl⟩ := Outcome.result_mapTrees hRun
    exact .seq (hRule _ _ _ _ _ (by rw [hFirst])) (hRule _ _ _ _ _ hSecond)
  · next hRefused =>
    rw [Outcome.result_of_refused hRefused] at hRun
    cases hRun

theorem Sound.grow (hSound : ∀ n ≤ fuel, Sound g n) {seed suffix : Rule N}
    (hRun : (Rule.run g (fuel + 1) around (.grow seed suffix) cur).result = some (ts, next)) :
    Derives g around.left (.grow seed suffix) cur ts next := by
  rw [Rule.run] at hRun
  split at hRun
  · next trees mid stuck hSeed =>
    have hStart := hSound fuel (Nat.le_refl _) { around with left := none } seed cur trees mid
      (by rw [hSeed])
    split at hRun
    · next last hLast =>
      have hTrees : trees.dropLast ++ [last] = trees := List.dropLast_append_getLast? _ hLast
      exact runGrow_derives hSound (.seed (hTrees.symm ▸ hStart)) hRun
    · obtain ⟨rfl, rfl⟩ := Prod.mk.inj (Option.some.inj hRun)
      exact .seed hStart
  · next hRefused =>
    rw [Outcome.result_of_refused hRefused] at hRun
    cases hRun

/-- What is read within a wrapping is derived as wrapped. -/
theorem Sound.wrap (hRule : Sound g fuel) {after : List Kind} {k : Kind} {part : Option Field} {a : Rule N}
    (hRun : (Rule.run g (fuel + 1) around (.wrap after k part a) cur).result = some (ts, next)) :
    Derives g around.left (.wrap after k part a) cur ts next := by
  rw [Rule.run] at hRun
  rcases hLeft : around.left with _ | phrase
  · rw [hLeft] at hRun
    cases hRun
  · rw [hLeft] at hRun
    dsimp only at hRun
    split at hRun
    · obtain ⟨us, hInner, rfl⟩ := Outcome.result_mapTrees hRun
      have hWrap : Derives g (some phrase) (.wrap after k part a) cur
          (Tree.enclose k phrase.start (phrase.inPart part :: us)) next := .wrap (hRule _ _ _ _ _ hInner)
      cases phrase
      cases part <;> exact hWrap
    · cases hRun

end Step

/-- One more step of fuel: a case for every form of rule. -/
theorem sound_succ {fuel : Nat} (hSound : ∀ n ≤ fuel, Sound g n) : Sound g (fuel + 1) := by
  have hRule := hSound fuel (Nat.le_refl _)
  intro around rule cur ts next hRun
  cases rule with
  | done =>
      obtain ⟨rfl, rfl⟩ := Prod.mk.inj (Option.some.inj hRun)
      exact .done
  | token l =>
      obtain ⟨hLength, rfl, rfl⟩ := readLexeme_result hRun
      exact .token (skipExtras_passes cur) hLength
  | here l =>
      obtain ⟨hLength, rfl, rfl⟩ := readLexeme_result hRun
      exact .here hLength
  | unwritten afterExpression signature =>
      obtain ⟨comments, rfl, hPasses⟩ := readUnwritten_passes hRun
      exact .unwritten hPasses
  | finish =>
      rw [Rule.run] at hRun
      dsimp only at hRun
      split at hRun
      · obtain ⟨rfl, rfl⟩ := Prod.mk.inj (Option.some.inj hRun)
        exact .finish (skipExtras_passes cur)
      · cases hRun
  | call n => exact .call (hRule _ _ _ _ _ hRun)
  | seq a b => exact hRule.seq hRun
  | alt a b =>
      rw [Rule.run] at hRun
      split at hRun
      · exact .altRight (hRule _ _ _ _ _ hRun)
      · exact .altLeft (hRule _ _ _ _ _ hRun)
  | many a =>
      obtain ⟨us, rfl, hMany⟩ := runMany_derives hSound hRun
      exact hMany
  | node k a =>
      obtain ⟨us, hInner, rfl⟩ := Outcome.result_mapTrees hRun
      exact .node (hRule _ _ _ _ _ hInner)
  | field f a =>
      obtain ⟨us, hInner, rfl⟩ := Outcome.result_mapTrees hRun
      exact .field (hRule _ _ _ _ _ hInner)
  | ahead a =>
      rw [Rule.run] at hRun
      split at hRun
      · obtain ⟨rfl, rfl⟩ := Prod.mk.inj (Option.some.inj hRun)
        exact .fits
      · cases hRun
  | «unless» a =>
      rw [Rule.run] at hRun
      split at hRun
      · cases hRun
      · obtain ⟨rfl, rfl⟩ := Prod.mk.inj (Option.some.inj hRun)
        exact .unfit
  | choose guard a b =>
      rw [Rule.run] at hRun
      split at hRun
      · exact .yes (hRule _ _ _ _ _ hRun)
      · exact .no (hRule _ _ _ _ _ hRun)
  | grow seed suffix => exact Sound.grow hSound hRun
  | wrap after k part a => exact hRule.wrap hRun
  | item a =>
      exact .item (hRule { around with origin := cur.skipExtras.2.offset } a cur ts next hRun)

/-- Whatever the reader reads with any fuel can be derived. -/
theorem run_derives (fuel : Nat) : Sound g fuel := by
  suffices hAll : ∀ n ≤ fuel, Sound g n from hAll fuel (Nat.le_refl _)
  induction fuel with
  | zero =>
      intro n hn around rule cur ts next hRun
      rw [Nat.le_zero.mp hn] at hRun
      cases hRun
  | succ fuel ih =>
      intro n hn
      rcases Nat.le_succ_iff.mp hn with hn | rfl
      · exact ih n hn
      · exact sound_succ ih

/-- What is read of a whole text is derived from its beginning. -/
theorem read_derives {r : Rule N} {cs : List Char} {ts : List Tree} (hRead : r.read g cs = .ok ts) :
    ∃ next, Derives g none r ⟨cs, 0⟩ ts next := by
  rw [Rule.read] at hRead
  split at hRead
  · next trees next hRun =>
    obtain rfl := Except.ok.inj hRead
    exact ⟨next, run_derives _ _ _ _ _ _ hRun⟩
  · cases hRead

end Soundness

end SourceAtlas.Syntax
