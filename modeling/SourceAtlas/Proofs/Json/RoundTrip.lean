import Mathlib.Data.List.DropRight
import SourceAtlas.Proofs.Json.Scalars

/-!
A written document is read back as the datum it was written from, with the fields of each table in
order of their keys. This holds for data without doubles and moments whose tables repeat no key.
-/
namespace SourceAtlas

namespace Datum

/-- The data whose text determines them: no doubles, no moments, no key
twice in a table. -/
inductive Plain : Datum → Prop where
  | null : Plain .null
  | bool (b : Bool) : Plain (.bool b)
  | int (n : Int) : Plain (.int n)
  | text (t : Text) : Plain (.text t)
  | list {items : List Datum} (hItems : ∀ d ∈ items, Plain d) : Plain (.list items)
  | table {fields : List (Text × Datum)} (hKeys : (fields.map Prod.fst).Nodup)
      (hFields : ∀ p ∈ fields, Plain p.2) : Plain (.table fields)

mutual

/-- The datum with the fields of each table in order of their keys. -/
def sorted : Datum → Datum
  | .null => .null
  | .bool b => .bool b
  | .int n => .int n
  | .float x => .float x
  | .text s => .text s
  | .moment m => .moment m
  | .list items => .list (sortedItems items)
  | .table fields => .table (Json.sortFields (sortedFields fields))

def sortedItems : List Datum → List Datum
  | [] => []
  | d :: rest => sorted d :: sortedItems rest

/-- Every value of a table sorted, in the order of the table. -/
def sortedFields : List (Text × Datum) → List (Text × Datum)
  | [] => []
  | (k, d) :: rest => (k, sorted d) :: sortedFields rest

end

theorem sortedItems_eq_map (items : List Datum) : sortedItems items = items.map sorted := by
  induction items with
  | nil => rw [sortedItems, List.map_nil]
  | cons d rest ih => rw [sortedItems, List.map_cons, ih]

theorem sortedFields_eq_map (fields : List (Text × Datum)) :
    sortedFields fields = fields.map fun p => (p.1, p.2.sorted) := by
  induction fields with
  | nil => rw [sortedFields, List.map_nil]
  | cons p rest ih => rw [sortedFields, List.map_cons, ih]

end Datum

namespace Json

/-- A text from which a datum is read, after any blanks and before anything
that may follow a value. The length of the text is enough fuel. -/
def Reads (text : List Char) (d : Datum) : Prop :=
  ∀ blanks rest fuel, (∀ c ∈ blanks, isBlank c = true) → Stops rest → text.length ≤ fuel →
    value .asDouble fuel (blanks ++ text ++ rest) = .ok (d, rest)

/-- A text with a first character that is no blank is read as what `value`
makes of it. -/
theorem Reads.of_cons {c : Char} {cs : List Char} {d : Datum} (hBlank : isBlank c = false)
    (hValue : ∀ rest fuel, Stops rest → cs.length ≤ fuel →
      value .asDouble (fuel + 1) (c :: cs ++ rest) = .ok (d, rest)) : Reads (c :: cs) d := by
  intro blanks rest fuel hBlanks hStops hFuel
  obtain ⟨fuel, rfl⟩ : ∃ k, fuel = k + 1 :=
    Nat.exists_eq_succ_of_ne_zero (by rw [List.length_cons] at hFuel; omega)
  rw [← hValue rest fuel hStops (by simpa using hFuel), List.append_assoc, value, value,
    skipBlanks_append hBlanks (by simp [hBlank]),
    show skipBlanks (c :: cs ++ rest) = c :: cs ++ rest from
      skipBlanks_append (by simp : ∀ c ∈ [], isBlank c = true) (by simp [hBlank])]

/-- The quoted form of a string is read as the string. -/
theorem reads_quote {t : Text} (hString : t.isString = true) : Reads (quote t) (.text t) := by
  obtain ⟨s, rfl⟩ := Text.isString_iff.mp hString
  rw [quote_ofString]
  refine Reads.of_cons (by decide) fun rest fuel _ _ => ?_
  simp only [List.cons_append, List.append_assoc, List.nil_append]
  rw [value, show skipBlanks ('"' :: (s.toList.flatMap escapeChar ++ '"' :: rest)) =
    '"' :: (s.toList.flatMap escapeChar ++ '"' :: rest) from rfl]
  simp only [stringTail_quoted]
  rfl

theorem isBlank_of_number {c : Char} (hc : c = '-' ∨ isDigit c = true) : isBlank c = false := by
  rcases hc with rfl | hDigit
  · decide
  · by_contra hBlank
    simp only [isBlank, Bool.not_eq_false, Bool.or_eq_true, decide_eq_true_eq] at hBlank
    rcases hBlank with ((rfl | rfl) | rfl) | rfl <;> exact absurd hDigit (by decide)

/-- What begins with a digit or a sign is read as a number. -/
theorem value_of_number {c : Char} (cs : List Char) (fuel : Nat) (hc : c = '-' ∨ isDigit c = true) :
    value .asDouble (fuel + 1) (c :: cs) = number .asDouble (c :: cs) := by
  rw [value, show skipBlanks (c :: cs) = c :: cs from List.dropWhile_cons_of_neg
    (by simp [isBlank_of_number hc])]
  split
  all_goals first
    | rfl
    | next hHead =>
      obtain ⟨rfl, -⟩ := List.cons.inj hHead
      exact absurd hc (by decide)
    | next hHead => exact absurd hHead (List.cons_ne_nil _ _)

/-- An integer in the range of documents is read from its digits as it was. -/
theorem reads_intText {n : Int} (hRange : inRange n) : Reads (Datum.intText n).toList (.int n) := by
  have hHead : ∃ c cs, (Datum.intText n).toList = c :: cs ∧ (c = '-' ∨ isDigit c = true) := by
    rw [Datum.intText]
    split
    · exact ⟨'-', (Number.Style.natText n.natAbs).toList, by simp, .inl rfl⟩
    · cases hDigits : Nat.toDigits 10 n.natAbs with
      | nil => exact absurd hDigits Nat.toDigits_ne_nil
      | cons c cs =>
          refine ⟨c, cs, by simp [Number.Style.natText, hDigits], .inr ?_⟩
          exact isDigit_of_mem_toDigits (hDigits ▸ List.mem_cons_self : c ∈ Nat.toDigits 10 n.natAbs)
  obtain ⟨c, cs, hText, hc⟩ := hHead
  rw [hText]
  refine Reads.of_cons (isBlank_of_number hc) fun rest fuel hStops _ => ?_
  rw [List.cons_append, value_of_number _ _ hc, ← List.cons_append, ← hText,
    number_intText hRange hStops]

theorem skipBlanks_idem (cs : List Char) : skipBlanks (skipBlanks cs) = skipBlanks cs := by
  exact List.dropWhile_idempotent ..

/-- A value that is read is read without the blanks in front of it as well. -/
theorem value_skipBlanks (large : LargeIntegers) (fuel : Nat) (cs : List Char) {r : Datum × List Char}
    (hValue : value large fuel cs = .ok r) : value large fuel (skipBlanks cs) = .ok r := by
  cases fuel with
  | zero => simp [value, refuse] at hValue
  | succ fuel =>
      rw [value] at hValue ⊢
      rwa [skipBlanks_idem]

theorem items_skipBlanks (large : LargeIntegers) (fuel : Nat) (done : List Datum) (cs : List Char)
    {r : Datum × List Char} (hItems : items large fuel done cs = .ok r) :
    items large fuel done (skipBlanks cs) = .ok r := by
  cases fuel with
  | zero => simp [items, refuse] at hItems
  | succ fuel =>
      rw [items] at hItems ⊢
      cases hValue : value large fuel cs with
      | error f => simp [hValue, bind, Except.bind] at hItems
      | ok p =>
          rw [value_skipBlanks _ _ _ hValue]
          rwa [hValue] at hItems

/-- A text that begins with a closing bracket is no value. -/
theorem value_closing (large : LargeIntegers) (fuel : Nat) (rest : List Char) :
    value large fuel (']' :: rest) = refuse (']' :: rest) := by
  cases fuel with
  | zero => rw [value]
  | succ fuel =>
      rw [value]
      simp [skipBlanks, isBlank, number, isDigit]

/-- Items with commas between them are read up to the closing bracket.
Blanks may follow a comma, and a line break comes before the bracket. -/
theorem items_texts {texts : List (List Char)} {data : List Datum}
    (hReads : List.Forall₂ Reads texts data) (hSome : texts ≠ []) {sep close : List Char}
    (hSep : ∀ c ∈ sep, isBlank c = true) (hClose : ∀ c ∈ '\n' :: close, isBlank c = true)
    {lead : List Char} (hLead : ∀ c ∈ lead, isBlank c = true) {fuel : Nat}
    (hFuel : (texts.map fun t => t.length + 1).sum ≤ fuel) (done : List Datum) (rest : List Char) :
    items .asDouble fuel done
        (lead ++ List.intercalate (',' :: sep) texts ++ '\n' :: close ++ ']' :: rest) =
      .ok (.list (done.reverse ++ data), rest) := by
  induction hReads generalizing lead fuel done with
  | nil => exact absurd rfl hSome
  | @cons t d texts data hRead hReads ih =>
      rw [List.map_cons, List.sum_cons] at hFuel
      obtain ⟨fuel, rfl⟩ : ∃ k, fuel = k + 1 := Nat.exists_eq_succ_of_ne_zero (by omega)
      rw [items]
      cases hReads with
      | nil =>
          have hValue := hRead lead ('\n' :: close ++ ']' :: rest) fuel hLead (by simp [Stops])
            (by omega)
          have hText : lead ++ List.intercalate (',' :: sep) [t] ++ '\n' :: close ++ ']' :: rest =
              lead ++ t ++ ('\n' :: close ++ ']' :: rest) := by
            simp
          rw [hText, hValue]
          simp only [bind, Except.bind]
          rw [skipBlanks_append hClose (by simp [isBlank])]
          simp [pure, Except.pure]
      | @cons t' d' texts data hRead' hReads =>
          obtain ⟨tail, hTail⟩ : ∃ tail, tail = sep ++ List.intercalate (',' :: sep) (t' :: texts) ++
            '\n' :: close ++ ']' :: rest := ⟨_, rfl⟩
          have hText : lead ++ List.intercalate (',' :: sep) (t :: t' :: texts) ++ '\n' :: close ++
              ']' :: rest = lead ++ t ++ ',' :: tail := by
            rw [List.intercalate_cons_cons, hTail]
            simp
          have hRest : ((t' :: texts).map fun t => t.length + 1).sum ≤ fuel := by omega
          rw [hText, hRead lead (',' :: tail) fuel hLead (by simp [Stops]) (by omega)]
          simp only [bind, Except.bind]
          rw [show skipBlanks (',' :: tail) = ',' :: tail from rfl]
          simp only [hTail, ih (List.cons_ne_nil _ _) hSep hRest (d :: done)]
          simp

/-- A key and the text of its value as a field of a table. -/
def fieldText (p : Text × List Char) : List Char := quote p.1 ++ ':' :: ' ' :: p.2

/-- What follows a field: another one, or the end of the table. -/
def fieldsAfter (fuel : Nat) (done : List (Text × Datum)) (cs : List Char) :
    Except ReadFault (Datum × List Char) :=
  match skipBlanks cs with
  | ',' :: rest => fields .asDouble fuel done rest
  | '}' :: rest => .ok (.table done, rest)
  | rest => refuse rest

/-- One field is read, whatever follows it. -/
theorem fields_one {lead t after : List Char} {k : Text} {d : Datum} {done : List (Text × Datum)}
    (hLead : ∀ c ∈ lead, isBlank c = true) (hString : k.isString = true) (hRead : Reads t d)
    (hStops : Stops after) (hNew : k ∉ done.map Prod.fst) {fuel : Nat} (hFuel : t.length ≤ fuel) :
    fields .asDouble (fuel + 1) done (lead ++ fieldText (k, t) ++ after) =
      fieldsAfter fuel (done ++ [(k, d)]) after := by
  obtain ⟨s, rfl⟩ := Text.isString_iff.mp hString
  have hText : lead ++ fieldText (.ofString s, t) ++ after =
      lead ++ '"' :: (s.toList.flatMap escapeChar ++ '"' :: ':' :: ([' '] ++ t ++ after)) := by
    simp [fieldText, quote_ofString]
  rw [hText, fields, skipBlanks_append hLead (by simp [isBlank])]
  simp only [stringTail_quoted, bind, Except.bind]
  rw [show skipBlanks (':' :: ([' '] ++ t ++ after)) = ':' :: ([' '] ++ t ++ after) from rfl]
  simp only [hRead [' '] after fuel (by simp [isBlank]) hStops hFuel]
  rw [Datum.put, Assoc.put_of_not_mem hNew]
  rfl

/-- Fields with commas between them are read up to the closing brace. -/
theorem fields_texts {texts : List (Text × List Char)} {data : List (Text × Datum)}
    (hReads : List.Forall₂ (fun t d => t.1 = d.1 ∧ d.1.isString = true ∧ Reads t.2 d.2) texts data) (hSome : texts ≠ [])
    {sep close : List Char} (hSep : ∀ c ∈ sep, isBlank c = true)
    (hClose : ∀ c ∈ '\n' :: close, isBlank c = true) {lead : List Char}
    (hLead : ∀ c ∈ lead, isBlank c = true) {fuel : Nat}
    (hFuel : (texts.map fun t => (fieldText t).length + 1).sum ≤ fuel)
    {done : List (Text × Datum)} (hKeys : ((done ++ data).map Prod.fst).Nodup) (rest : List Char) :
    fields .asDouble fuel done
        (lead ++ List.intercalate (',' :: sep) (texts.map fieldText) ++ '\n' :: close ++ '}' :: rest) =
      .ok (.table (done ++ data), rest) := by
  induction hReads generalizing lead fuel done with
  | nil => exact absurd rfl hSome
  | @cons t d texts data hRead hReads ih =>
      obtain ⟨k, t⟩ := t
      obtain ⟨k', d⟩ := d
      obtain ⟨rfl, hString, hRead⟩ : k = k' ∧ k'.isString = true ∧ Reads t d := hRead
      rw [List.map_cons, List.sum_cons] at hFuel
      have hLength : t.length < (fieldText (k, t)).length := by
        simp only [fieldText, List.length_append, List.length_cons]
        omega
      obtain ⟨fuel, rfl⟩ : ∃ n, fuel = n + 1 := Nat.exists_eq_succ_of_ne_zero (by omega)
      have hNew : k ∉ done.map Prod.fst := by
        rw [List.map_append, List.map_cons, List.nodup_append] at hKeys
        exact fun hMem => hKeys.2.2 k hMem k (List.mem_cons_self ..) rfl
      have hField (after : List Char) (hStops : Stops after) :
          fields .asDouble (fuel + 1) done (lead ++ fieldText (k, t) ++ after) =
            fieldsAfter fuel (done ++ [(k, d)]) after :=
        fields_one hLead hString hRead hStops hNew (by omega)
      cases hReads with
      | nil =>
          have hText : lead ++ List.intercalate (',' :: sep) ([(k, t)].map fieldText) ++ '\n' :: close ++
              '}' :: rest = lead ++ fieldText (k, t) ++ ('\n' :: close ++ '}' :: rest) := by
            simp
          rw [hText, hField _ (by simp [Stops]), fieldsAfter, skipBlanks_append hClose (by simp [isBlank])]
          simp
      | @cons t' d' texts data hRead' hReads =>
          obtain ⟨tail, hTail⟩ : ∃ tail, tail = sep ++
            List.intercalate (',' :: sep) ((t' :: texts).map fieldText) ++
            '\n' :: close ++ '}' :: rest := ⟨_, rfl⟩
          have hText : lead ++ List.intercalate (',' :: sep) (((k, t) :: t' :: texts).map fieldText) ++
              '\n' :: close ++ '}' :: rest = lead ++ fieldText (k, t) ++ ',' :: tail := by
            rw [List.map_cons, List.map_cons, List.intercalate_cons_cons, ← List.map_cons, hTail]
            simp
          have hRest : ((t' :: texts).map fun t => (fieldText t).length + 1).sum ≤ fuel := by omega
          have hKeys' : ((done ++ [(k, d)] ++ d' :: data).map Prod.fst).Nodup := by
            simpa using hKeys
          rw [hText, hField _ (by simp [Stops]), fieldsAfter,
            show skipBlanks (',' :: tail) = ',' :: tail from rfl]
          simp only [hTail, ih (List.cons_ne_nil _ _) hSep hRest hKeys']
          simp

/-- What stands after an opening bracket is read as the items of a list. -/
theorem value_list {fuel : Nat} {cs : List Char} {r : Datum × List Char}
    (hItems : items .asDouble fuel [] cs = .ok r) : value .asDouble (fuel + 1) ('[' :: cs) = .ok r := by
  have hSkipped := items_skipBlanks _ _ _ _ hItems
  rw [value, show skipBlanks ('[' :: cs) = '[' :: cs from rfl]
  simp only
  split
  next rest hClosing =>
    -- a list of items does not begin with a closing bracket
    rw [hClosing] at hSkipped
    cases fuel with
    | zero => simp [items, refuse] at hSkipped
    | succ fuel => simp [items, value_closing, refuse, bind, Except.bind] at hSkipped
  next => exact hSkipped

/-- What stands after an opening brace is read as the fields of a table. -/
theorem value_table {fuel : Nat} {cs : List Char} {r : Datum × List Char}
    (hFields : fields .asDouble fuel [] cs = .ok r) :
    value .asDouble (fuel + 1) ('{' :: cs) = .ok r := by
  cases fuel with
  | zero => simp [fields, refuse] at hFields
  | succ fuel =>
      rw [value, show skipBlanks ('{' :: cs) = '{' :: cs from rfl]
      simp only
      split
      next rest hClosing =>
        rw [fields, hClosing] at hFields
        simp [refuse] at hFields
      next =>
        rw [fields] at hFields ⊢
        rwa [skipBlanks_idem]

theorem isBlank_of_mem_newline (depth : Nat) : ∀ c ∈ newline depth, isBlank c = true := by
  intro c hc
  rcases List.mem_cons.mp hc with rfl | hc
  · decide
  · rw [List.eq_of_mem_replicate hc]
    decide

/-- A block with items: each on a line of its own, with a comma at the end
of all but the last. -/
theorem block_of_ne_nil (o c : Char) (depth : Nat) {texts : List (List Char)} (hSome : texts ≠ []) :
    block o c depth texts = o :: (newline (depth + 1) ++
      List.intercalate (',' :: newline (depth + 1)) texts ++ newline depth ++ [c]) := by
  rw [block, if_neg (by simpa using hSome)]

/-- The texts of a list are those of its items, one by one. -/
theorem renderItems_forall₂ {depth : Nat} {data : List Datum} {texts : List (List Char)}
    (hRender : renderItems depth data = .ok texts) :
    List.Forall₂ (fun d t => render depth d = .ok t) data texts := by
  induction data generalizing texts with
  | nil =>
      rw [renderItems, Except.ok.injEq] at hRender
      exact hRender ▸ .nil
  | cons d data ih =>
      rw [renderItems] at hRender
      cases hHead : render depth d with
      | error f => simp [hHead, bind, Except.bind] at hRender
      | ok t =>
          cases hTail : renderItems depth data with
          | error f => simp [hHead, hTail, bind, Except.bind] at hRender
          | ok ts =>
              simp only [hHead, hTail, bind, Except.bind, pure, Except.pure, Except.ok.injEq] at hRender
              exact hRender ▸ .cons hHead (ih hTail)

/-- The texts of a table are its keys with the texts of its
values, one by one. -/
theorem renderFields_forall₂ {depth : Nat} {fields : List (Text × Datum)}
    {texts : List (Text × List Char)} (hRender : renderFields depth fields = .ok texts) :
    List.Forall₂ (fun p t => t.1 = p.1 ∧ p.1.isString = true ∧ render depth p.2 = .ok t.2) fields texts := by
  induction fields generalizing texts with
  | nil =>
      rw [renderFields, Except.ok.injEq] at hRender
      exact hRender ▸ .nil
  | cons p fields ih =>
      rw [renderFields] at hRender
      split at hRender
      case isFalse => cases hRender
      next hString =>
      cases hHead : render depth p.2 with
      | error f => simp [hHead, bind, Except.bind] at hRender
      | ok t =>
          cases hTail : renderFields depth fields with
          | error f => simp [hHead, hTail, bind, Except.bind] at hRender
          | ok ts =>
              simp only [hHead, hTail, bind, Except.bind, pure, Except.pure, Except.ok.injEq] at hRender
              exact hRender ▸ .cons ⟨rfl, hString, hHead⟩ (ih hTail)

theorem forall₂_flip_of_mem {α β : Type} {R : α → β → Prop} {S : β → α → Prop} {xs : List α}
    {ys : List β} (hRelated : List.Forall₂ R xs ys) (hEach : ∀ x ∈ xs, ∀ y, R x y → S y x) :
    List.Forall₂ S ys xs := by
  induction hRelated with
  | nil => exact .nil
  | cons hHead _ ih =>
      refine .cons (hEach _ (List.mem_cons_self ..) _ hHead) (ih fun x hx => ?_)
      exact hEach x (List.mem_cons_of_mem _ hx)

/-- Sorting by keys keeps fields beside their partners of the same keys. -/
theorem sortFields_forall₂ {α β : Type} {R : Text × α → Text × β → Prop}
    (hSame : ∀ x y, R x y → x.1 = y.1) {xs : List (Text × α)} {ys : List (Text × β)}
    (hRelated : List.Forall₂ R xs ys) : List.Forall₂ R (sortFields xs) (sortFields ys) := by
  obtain ⟨zs, rfl, rfl, hzs⟩ : ∃ zs : List ((Text × α) × (Text × β)), zs.map Prod.fst = xs ∧
      zs.map Prod.snd = ys ∧ ∀ z ∈ zs, R z.1 z.2 := by
    refine ⟨xs.zip ys, List.map_fst_zip hRelated.length_eq.le,
      List.map_snd_zip hRelated.length_eq.ge, fun z hz => ?_⟩
    exact (List.forall₂_iff_zip.mp hRelated).2 hz
  let before (a b : (Text × α) × (Text × β)) : Bool := !(decide (b.1.1 < a.1.1))
  have hFst : sortFields (zs.map Prod.fst) = (Sorting.sort before zs).map Prod.fst := by
    refine (Sorting.map_sort fun a _ b _ => ?_).symm
    rfl
  have hSnd : sortFields (zs.map Prod.snd) = (Sorting.sort before zs).map Prod.snd := by
    refine (Sorting.map_sort fun a ha b hb => ?_).symm
    rw [← hSame _ _ (hzs a ha), ← hSame _ _ (hzs b hb)]
  rw [hFst, hSnd, List.forall₂_map_left_iff, List.forall₂_map_right_iff, List.forall₂_same]
  intro z hz
  exact hzs z (Sorting.mem_sort.mp hz)

/-- Sorting the fields of a table makes no key occur twice. -/
theorem sortFields_keys_nodup {α : Type} {fields : List (Text × α)}
    (hKeys : (fields.map Prod.fst).Nodup) : ((sortFields fields).map Prod.fst).Nodup :=
  (((Sorting.sort_perm _ fields).map Prod.fst).nodup_iff).mpr hKeys

/-- The words for nothing and for truth values are read as such. -/
theorem reads_word (c : Char) (cs : List Char) {d : Datum} (hBlank : isBlank c = false)
    (hValue : ∀ fuel rest, value .asDouble (fuel + 1) (c :: cs ++ rest) =
      literal (c :: cs) d (c :: cs ++ rest)) : Reads (c :: cs) d := by
  refine Reads.of_cons hBlank fun rest fuel _ _ => ?_
  rw [hValue, literal, if_pos (List.isPrefixOf_iff_prefix.mpr (List.prefix_append _ _)),
    List.drop_left]

/-- Texts with something between them are together as long as the texts
alone, with room for one more each but the last. -/
theorem sum_length_le_intercalate {sep : List Char} (hSep : sep ≠ []) (texts : List (List Char)) :
    (texts.map fun t => t.length + 1).sum ≤ (List.intercalate sep texts).length + 1 := by
  have hPos := List.length_pos_iff.mpr hSep
  induction texts with
  | nil => simp
  | cons t texts ih =>
      cases texts with
      | nil => simp
      | cons t' texts =>
          rw [List.map_cons, List.sum_cons, List.intercalate_cons_cons]
          simp only [List.length_append]
          omega

/-- A block of texts from which the items are read is read as
the list of them. -/
theorem reads_list (depth : Nat) {texts : List (List Char)} {data : List Datum}
    (hReads : List.Forall₂ Reads texts data) : Reads (block '[' ']' depth texts) (.list data) := by
  by_cases hSome : texts = []
  · subst hSome
    cases hReads
    refine Reads.of_cons (by decide) fun rest fuel _ _ => ?_
    simp [value, skipBlanks, isBlank]
  · rw [block_of_ne_nil _ _ depth hSome]
    refine Reads.of_cons (by decide) fun rest fuel _ hFuel => ?_
    have hLead := isBlank_of_mem_newline (depth + 1)
    have hEnough : (texts.map fun t => t.length + 1).sum ≤ fuel := by
      have hSum := sum_length_le_intercalate (List.cons_ne_nil ',' (newline (depth + 1))) texts
      simp only [List.length_append, List.length_cons] at hFuel
      omega
    have hItems := items_texts hReads hSome hLead (isBlank_of_mem_newline depth) hLead hEnough [] rest
    rw [List.cons_append, value_list (by simpa [newline] using hItems)]

/-- A block of keys with texts from which their values are read is read as
the table, if no key occurs twice. -/
theorem reads_table (depth : Nat) {texts : List (Text × List Char)} {data : List (Text × Datum)}
    (hReads : List.Forall₂ (fun t d => t.1 = d.1 ∧ d.1.isString = true ∧ Reads t.2 d.2) texts data)
    (hKeys : (data.map Prod.fst).Nodup) :
    Reads (block '{' '}' depth (texts.map fieldText)) (.table data) := by
  by_cases hSome : texts = []
  · subst hSome
    cases hReads
    refine Reads.of_cons (by decide) fun rest fuel _ _ => ?_
    simp [value, skipBlanks, isBlank]
  · rw [block_of_ne_nil _ _ depth (by simpa using hSome)]
    refine Reads.of_cons (by decide) fun rest fuel _ hFuel => ?_
    have hLead := isBlank_of_mem_newline (depth + 1)
    have hEnough : (texts.map fun t => (fieldText t).length + 1).sum ≤ fuel := by
      have hSum := sum_length_le_intercalate (List.cons_ne_nil ',' (newline (depth + 1)))
        (texts.map fieldText)
      rw [List.map_map] at hSum
      simp only [List.length_append, List.length_cons] at hFuel
      simp only [Function.comp_def] at hSum
      omega
    have hFields := fields_texts hReads hSome hLead (isBlank_of_mem_newline depth) hLead hEnough
      (by simpa using hKeys : (([] ++ data).map Prod.fst).Nodup) rest
    rw [List.cons_append, value_table (by simpa [newline] using hFields)]

/-- A rendered datum is read back with its tables sorted. -/
theorem reads_render {d : Datum} (hPlain : d.Plain) {depth : Nat} {text : List Char}
    (hRender : render depth d = .ok text) : Reads text d.sorted := by
  induction hPlain generalizing depth text with
  | null =>
      rw [render, Except.ok.injEq] at hRender
      subst hRender
      exact reads_word 'n' ['u', 'l', 'l'] (by decide) fun _ _ => by
        simp [value, skipBlanks, isBlank, Datum.sorted]
  | bool b =>
      cases b with
      | true =>
          rw [render, Except.ok.injEq] at hRender
          subst hRender
          exact reads_word 't' ['r', 'u', 'e'] (by decide) fun _ _ => by
            simp [value, skipBlanks, isBlank, Datum.sorted]
      | false =>
          rw [render, Except.ok.injEq] at hRender
          subst hRender
          exact reads_word 'f' ['a', 'l', 's', 'e'] (by decide) fun _ _ => by
            simp [value, skipBlanks, isBlank, Datum.sorted]
  | int n =>
      rw [render] at hRender
      split at hRender
      next hRange => exact Except.ok.inj hRender ▸ reads_intText hRange
      next => cases hRender
  | text t =>
      rw [render] at hRender
      split at hRender
      next hString => exact Except.ok.inj hRender ▸ reads_quote hString
      next => cases hRender
  | @list items hItems ih =>
      rw [render] at hRender
      cases hTexts : renderItems (depth + 1) items with
      | error f => simp [hTexts, bind, Except.bind] at hRender
      | ok texts =>
          simp only [hTexts, bind, Except.bind, pure, Except.pure, Except.ok.injEq] at hRender
          subst hRender
          rw [Datum.sorted, Datum.sortedItems_eq_map]
          refine reads_list depth ?_
          rw [List.forall₂_map_right_iff]
          exact forall₂_flip_of_mem (renderItems_forall₂ hTexts) fun d hd t hText => ih d hd hText
  | @table fields hKeys hFields ih =>
      rw [render] at hRender
      cases hTexts : renderFields (depth + 1) fields with
      | error f => simp [hTexts, bind, Except.bind] at hRender
      | ok texts =>
          simp only [hTexts, bind, Except.bind, pure, Except.pure, Except.ok.injEq] at hRender
          subst hRender
          rw [Datum.sorted, Datum.sortedFields_eq_map]
          refine reads_table depth (sortFields_forall₂ (fun _ _ hPair => hPair.1) ?_)
            (sortFields_keys_nodup ?_)
          · rw [List.forall₂_map_right_iff]
            refine forall₂_flip_of_mem (renderFields_forall₂ hTexts) fun p hp t hText => ?_
            exact ⟨hText.1, hText.2.1, ih p hp hText.2.2⟩
          · simpa [Function.comp_def] using hKeys

/-- A document is parsed to the datum it was written from, with
its tables sorted. -/
theorem parse_document {d : Datum} (hPlain : d.Plain) {text : List Char}
    (hDocument : document d = .ok text) : parse .asDouble text = .ok d.sorted := by
  have hRead := reads_render hPlain hDocument [] [] (text.length + 1) (by simp)
    (by simp [Stops]) (by omega)
  rw [List.nil_append, List.append_nil] at hRead
  rw [parse, hRead]
  simp [skipBlanks]

end Json

end SourceAtlas
