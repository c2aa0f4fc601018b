import SourceAtlas.Proofs.Assoc
import SourceAtlas.Proofs.Cache.Loading
import SourceAtlas.Proofs.Legibility

/-!
What is read of a JSON text is made of strings, whatever the text says, and so is every cache document
that is read of one. What was loaded can be written again unless it has an integer of too many bits.
-/
namespace SourceAtlas

open Schema Text

namespace Json

/-- What is read up to the closing quote of a string is a string: an escape
that names half a pair is refused. -/
theorem stringTail_isString {fuel : Nat} {done cs : List Char} {t : Text} {rest : List Char}
    (hTail : stringTail fuel done cs = .ok (t, rest)) : t.isString = true := by
  induction fuel generalizing done cs with
  | zero => cases hTail
  | succ fuel ih =>
      unfold stringTail at hTail
      split at hTail
      · cases hTail
      · obtain ⟨rfl, rfl⟩ := Prod.mk.inj (Except.ok.inj hTail)
        exact isString_ofChars _
      · split at hTail
        · exact ih hTail
        · cases hTail
      · split at hTail
        · exact ih hTail
        · cases hTail
      · split at hTail
        · cases hTail
        · exact ih hTail

/-- What is read, if anything is, is made of strings. -/
def ReadsStrings (result : Except ReadFault (Datum × List Char)) : Prop :=
  ∀ d rest, result = .ok (d, rest) → d.legible = true

/-- A reading that comes to a fault reads nothing. -/
theorem readsStrings_error (f : ReadFault) : ReadsStrings (.error f) := by
  intro d rest hSame
  cases hSame

theorem readsStrings_refuse (cs : List Char) : ReadsStrings (refuse cs) := readsStrings_error _

theorem readsStrings_ok {d : Datum} (hd : d.legible = true) (rest : List Char) : ReadsStrings (.ok (d, rest)) := by
  intro d' rest' hSame
  obtain ⟨rfl, -⟩ := Prod.mk.inj (Except.ok.inj hSame)
  exact hd

/-- A choice between two readings reads strings if both do. -/
theorem ReadsStrings.ite {p : Prop} [Decidable p] {a b : Except ReadFault (Datum × List Char)} (ha : ReadsStrings a) (hb : ReadsStrings b) :
    ReadsStrings (if p then a else b) := by
  split <;> assumption

/-- A number with a fraction is read as a number or refused,
and holds no text. -/
theorem readsStrings_fractional (large : LargeIntegers) (x : Number.Double) (cs rest : List Char) :
    ReadsStrings (fractional large x cs rest) := by
  unfold fractional
  split
  · exact readsStrings_refuse _
  · exact readsStrings_ok rfl _

/-- A number is read without any text, small, large or with a fraction. -/
theorem readsStrings_number (large : LargeIntegers) (cs : List Char) : ReadsStrings (number large cs) := by
  unfold number
  dsimp only
  refine .ite (readsStrings_refuse _) (.ite (readsStrings_refuse _) (.ite (.ite (readsStrings_ok rfl _) ?_) ?_))
  · exact readsStrings_fractional _ _ _ _
  · exact readsStrings_fractional _ _ _ _

theorem readsStrings_literal (word : List Char) {value : Datum} (hValue : value.legible = true) (cs : List Char) :
    ReadsStrings (literal word value cs) :=
  .ite (readsStrings_ok hValue _) (readsStrings_refuse _)

/-- Every value that is read is made of strings. The induction is
on the fuel, and the items and fields before the one that is read
are known to be so. -/
theorem reads_legible (large : LargeIntegers) (fuel : Nat) :
    (∀ cs, ReadsStrings (value large fuel cs)) ∧
    (∀ done cs, (∀ x ∈ done, x.legible = true) → ReadsStrings (items large fuel done cs)) ∧
    ∀ done cs, (∀ p ∈ done, p.1.isString = true ∧ p.2.legible = true) → ReadsStrings (fields large fuel done cs) := by
  induction fuel with
  | zero => exact ⟨fun cs => readsStrings_refuse cs, fun _ cs _ => readsStrings_refuse cs, fun _ cs _ => readsStrings_refuse cs⟩
  | succ fuel ih =>
      obtain ⟨hValues, hItems, hFields⟩ := ih
      refine ⟨fun cs => ?value, fun done cs hDone => ?items, fun done cs hDone => ?fields⟩
      case value =>
        rw [value]
        split
        · exact readsStrings_refuse _
        · next after _ =>
          cases hTail : stringTail after.length.succ [] after with
          | error f => exact readsStrings_error f
          | ok found => exact readsStrings_ok (d := .text found.1) (stringTail_isString hTail) _
        · split
          · exact readsStrings_ok rfl _
          · exact hItems [] _ (by simp)
        · split
          · exact readsStrings_ok rfl _
          · exact hFields [] _ (by simp)
        · exact readsStrings_literal _ rfl _
        · exact readsStrings_literal _ rfl _
        · exact readsStrings_literal _ rfl _
        · exact readsStrings_number large _
      case items =>
        rw [items]
        cases hFirst : value large fuel cs with
        | error f => exact readsStrings_error f
        | ok found =>
            obtain ⟨v, rest⟩ := found
            have hMore : ∀ x ∈ v :: done, x.legible = true :=
              List.forall_mem_cons.mpr ⟨hValues cs _ _ hFirst, hDone⟩
            dsimp only [bind, Except.bind]
            split
            · exact hItems _ _ hMore
            · refine readsStrings_ok ?_ _
              rw [Datum.legible_list, List.all_reverse, List.all_eq_true]
              exact hMore
            · exact readsStrings_refuse _
      case fields =>
        rw [fields]
        split
        case h_2 => exact readsStrings_refuse _
        next after _ =>
        cases hKey : stringTail after.length.succ [] after with
        | error f => exact readsStrings_error f
        | ok found =>
            obtain ⟨key, rest⟩ := found
            dsimp only [bind, Except.bind]
            split
            case h_2 => exact readsStrings_refuse _
            next rest _ =>
            cases hFirst : value large fuel rest with
            | error f => exact readsStrings_error f
            | ok found =>
                obtain ⟨v, rest⟩ := found
                have hMore : ∀ p ∈ Datum.put key v done, p.1.isString = true ∧ p.2.legible = true := by
                  intro p hp
                  rcases Assoc.mem_put hp with rfl | hOld
                  · exact ⟨stringTail_isString hKey, hValues _ _ _ hFirst⟩
                  · exact hDone p hOld
                dsimp only
                split
                · exact hFields _ _ hMore
                · refine readsStrings_ok ?_ _
                  rw [Datum.legible_table, List.all_eq_true]
                  exact fun p hp => Bool.and_eq_true_iff.mpr (hMore p hp)
                · exact readsStrings_refuse _

/-- A JSON text says nothing that is not made of strings, whichever way its
large integers are read. -/
theorem parse_legible {large : LargeIntegers} {cs : List Char} {d : Datum} (hParse : parse large cs = .ok d) :
    d.legible = true := by
  rw [parse] at hParse
  split at hParse
  · next v rest hRead =>
    split at hParse
    · exact Except.ok.inj hParse ▸ (reads_legible large _).1 _ _ _ hRead
    · cases hParse
  · cases hParse

end Json

namespace Schema

variable {α β : Type}

/-- A reader makes values with a property of legible data. -/
def Reader.Gives (read : Reader α) (P : α → Prop) : Prop :=
  ∀ d, d.legible = true → ∀ a, read d = .valid a → P a

def Checked.Ensures (P : α → Prop) (c : Checked α) : Prop := ∀ a, c = .valid a → P a

theorem Checked.ensures_any (c : Checked α) : c.Ensures fun _ => True := fun _ _ => trivial

/-- Of what is not valid nothing has to be shown. -/
theorem Checked.ensures_invalid (P : α → Prop) (faults : List Fault) : (Checked.invalid faults).Ensures P := by
  intro a ha
  cases ha

/-- A property carried through a function holds of what the function makes
of a valid value. -/
theorem Checked.Ensures.map {P : α → Prop} {Q : β → Prop} {f : α → β} {c : Checked α} (hc : c.Ensures P)
    (hf : ∀ a, P a → Q (f a)) : (f <$> c).Ensures Q := by
  cases c with
  | invalid faults => exact Checked.ensures_invalid _ _
  | valid a =>
      intro b hb
      obtain rfl := Checked.valid.inj hb
      exact hf a (hc a rfl)

/-- A property of two checked values together is ensured if the first gives
functions that carry the property of the second on. -/
theorem Checked.Ensures.seq {P : α → Prop} {Q : β → Prop} {f : Checked (α → β)} {c : Checked α}
    (hc : c.Ensures P) (hf : f.Ensures fun g => ∀ a, P a → Q (g a)) : (f <*> c).Ensures Q := by
  cases f with
  | invalid faults => cases c <;> exact Checked.ensures_invalid Q _
  | valid g =>
      cases c with
      | invalid faults => exact Checked.ensures_invalid _ _
      | valid a =>
          intro b hb
          obtain rfl := Checked.valid.inj hb
          exact hf g rfl a (hc a rfl)

theorem Checked.Ensures.under {P : α → Prop} {c : Checked α} (hc : c.Ensures P) (key : Text) :
    (c.under key).Ensures P := by
  cases c with
  | invalid faults => exact Checked.ensures_invalid _ _
  | valid a => exact hc

namespace Reader

variable {read : Reader α} {P : α → Prop}

theorem gives_text : text.Gives fun t => t.isString = true := by
  intro d hd t hRead
  cases d with
  | text s => exact Checked.valid.inj hRead ▸ hd
  | _ => cases hRead

/-- A value that may be missing has the property that its reader gives, if
it is there. -/
theorem Gives.optional (hRead : read.Gives P) : (Reader.optional read).Gives fun o => ∀ a ∈ o, P a := by
  intro d hd o hValid
  unfold Reader.optional at hValid
  split at hValid
  · obtain rfl := Checked.valid.inj hValid
    simp
  · have hSome : (some <$> read d).Ensures fun o => ∀ a ∈ o, P a :=
      Checked.Ensures.map (hRead d hd) fun a ha b hb => Option.some.inj hb ▸ ha
    exact hSome o hValid

/-- The items of a list have the property that their reader gives, when they
are read from legible data. -/
theorem Gives.items (hRead : read.Gives P) {items : List Datum} (hItems : ∀ d ∈ items, d.legible = true) (i : Nat) :
    (Reader.itemsFrom read i items).Ensures fun as => ∀ a ∈ as, P a := by
  induction items generalizing i with
  | nil =>
      intro as hValid
      obtain rfl := Checked.valid.inj hValid
      simp
  | cons d items ih =>
      obtain ⟨hFirst, hRest⟩ := List.forall_mem_cons.mp hItems
      have hOne : ((read d).under (Number.Style.natText i)).Ensures P :=
        Checked.Ensures.under (hRead d hFirst) _
      exact (ih hRest (i + 1)).seq (hOne.map fun a ha as has => List.forall_mem_cons.mpr ⟨ha, has⟩)

theorem Gives.list (hRead : read.Gives P) : (Reader.list read).Gives fun as => ∀ a ∈ as, P a := by
  intro d hd as hValid
  cases d with
  | list items =>
      rw [Datum.legible_list, List.all_eq_true] at hd
      exact hRead.items hd 0 as hValid
  | _ => cases hValid

/-- A shape read from the fields of a table gives what its fields do:
anything that is no table is refused. -/
theorem gives_shape {read : Fields → Checked α}
    (hRead : ∀ fields, (Datum.table fields).legible = true → (read fields).Ensures P) : (shape read).Gives P := by
  intro d hd a hValid
  cases d with
  | table fields => exact hRead fields hd a hValid
  | _ => cases hValid

end Reader

variable {read : Reader α} {P : α → Prop} {fields : Fields}

/-- The value that a key of a legible table has is legible. -/
theorem legible_of_lookup (hFields : (Datum.table fields).legible = true) {key : Text} {d : Datum}
    (hLookup : Datum.lookup key fields = some d) : d.legible = true := by
  rw [Datum.legible_table, List.all_eq_true] at hFields
  exact (Bool.and_eq_true_iff.mp (hFields _ (Assoc.mem_of_get? hLookup))).2

/-- A field that has to be there ensures what its reader gives, since it is
legible as the table is. -/
theorem ensures_required (hRead : read.Gives P) (hFields : (Datum.table fields).legible = true) (key : Text) :
    (required key read fields).Ensures P := by
  rw [required]
  cases hLookup : Datum.lookup key fields with
  | none => exact Checked.ensures_invalid P _
  | some d => exact Checked.Ensures.under (hRead d (legible_of_lookup hFields hLookup)) key

/-- A field with a default ensures what its reader gives if the default has
the property too. -/
theorem ensures_field (hRead : read.Gives P) (hFields : (Datum.table fields).legible = true) (key : Text)
    {default : α} (hDefault : P default) : (field key default read fields).Ensures P := by
  rw [field]
  cases hLookup : Datum.lookup key fields with
  | none => exact fun a ha => Checked.valid.inj ha ▸ hDefault
  | some d => exact Checked.Ensures.under (hRead d (legible_of_lookup hFields hLookup)) key

end Schema

theorem Import.read_legible : Import.read.Gives Import.Legible := by
  refine Reader.gives_shape fun fs hfs => ?_
  exact (Checked.ensures_any _).seq <| (Checked.ensures_any _).seq <|
    (ensures_field Reader.gives_text.list hfs "names" (by simp)).seq <| (Checked.ensures_any _).seq <|
    (Checked.ensures_any _).seq <| (ensures_field Reader.gives_text.optional hfs "resolved" (by simp)).seq <|
    (ensures_required Reader.gives_text hfs "source").map
      fun source hSource resolved hResolved kind _ form _ names hNames line _ group _ =>
        ⟨hSource, hResolved, hNames⟩

theorem Export.read_legible : Export.read.Gives fun e => e.name.isString = true := by
  refine Reader.gives_shape fun fs hfs => ?_
  exact (Checked.ensures_any _).seq <|
    (ensures_required Reader.gives_text hfs "name").map fun name hName kind _ => hName

theorem FunctionInfo.read_legible : FunctionInfo.read.Gives fun f => f.name.isString = true := by
  refine Reader.gives_shape fun fs hfs => ?_
  exact (Checked.ensures_any _).seq <| (Checked.ensures_any _).seq <| (Checked.ensures_any _).seq <|
    (Checked.ensures_any _).seq <|
    (ensures_required Reader.gives_text hfs "name").map fun name hName kind _ parameters _ isAsync _ line _ => hName

theorem Decoration.read_legible : Decoration.read.Gives Decoration.Legible := by
  refine Reader.gives_shape fun fs hfs => ?_
  have hTexts (key : Text) : (field key [] (Reader.list Reader.text) fs).Ensures fun ts => ∀ t ∈ ts, t.isString = true :=
    ensures_field Reader.gives_text.list hfs key (by simp)
  have hText (key : Text) : (field key none (Reader.optional Reader.text) fs).Ensures fun o => ∀ t ∈ o, t.isString = true :=
    ensures_field Reader.gives_text.optional hfs key (by simp)
  exact (hTexts "providers").seq <| (hTexts "declarations").seq <| (hTexts "exports").seq <|
    (hTexts "imports").seq <| (hText "pipe_name").seq <| (hText "provided_in").seq <|
    (Checked.ensures_any _).seq <| (hTexts "style_urls").seq <| (hText "template_url").seq <|
    (hText "selector").seq <| (ensures_required Reader.gives_text hfs "decorator").map
      fun decorator hDecorator selector hSelector templateUrl hTemplate styleUrls hStyles standalone _ providedIn
        hProvided pipeName hPipe imports hImports exports hExports declarations hDeclarations providers hProviders =>
        ⟨hDecorator, hSelector, hTemplate, hStyles, hProvided, hPipe, hImports, hExports, hDeclarations, hProviders⟩

theorem ClassInfo.read_legible : ClassInfo.read.Gives ClassInfo.Legible := by
  refine Reader.gives_shape fun fs hfs => ?_
  exact (Checked.ensures_any _).seq <| (ensures_field Decoration.read_legible.optional hfs "metadata" (by simp)).seq <|
    (ensures_field Reader.gives_text.list hfs "decorators" (by simp)).seq <|
    (ensures_field Reader.gives_text.optional hfs "extends" (by simp)).seq <|
    (ensures_field Reader.gives_text.list hfs "implements" (by simp)).seq <|
    (ensures_required Reader.gives_text hfs "name").map
      fun name hName implements hImplements super hSuper decorators hDecorators decoration hDecoration line _ =>
        ⟨hName, hImplements, hSuper, hDecorators, hDecoration⟩

/-- A record that is read from legible data is legible in all its parts. -/
theorem Record.read_legible : Record.read.Gives Record.Legible := by
  refine Reader.gives_shape fun fs hfs => ?_
  exact (ensures_field Reader.gives_text.optional hfs "parse_error" (by simp)).seq <| (Checked.ensures_any _).seq <|
    (ensures_field Reader.gives_text hfs "role_label" (by simp)).seq <| (Checked.ensures_any _).seq <|
    (ensures_field FunctionInfo.read_legible.list hfs "functions" (by simp)).seq <|
    (ensures_field ClassInfo.read_legible.list hfs "classes" (by simp)).seq <|
    (ensures_field Export.read_legible.list hfs "exports" (by simp)).seq <|
    (ensures_field Import.read_legible.list hfs "imports" (by simp)).seq <|
    (ensures_field Reader.gives_text.list hfs "annotations" (by simp)).seq <| (Checked.ensures_any _).seq <|
    (ensures_required Reader.gives_text hfs "relative_path").seq <|
    (ensures_required Reader.gives_text hfs "path").map
      fun path hPath relative hRelative lineCount _ annotations hAnnotations imports hImports exports hExports
        classes hClasses functions hFunctions role _ label hLabel confidence _ failure hFailure =>
        ⟨hPath, hRelative, hAnnotations, hImports, hExports, hClasses, hFunctions, hLabel, hFailure⟩

structure CacheEntry.Legible (e : CacheEntry) : Prop where
  path : e.path.isString = true
  digest : e.digest.isString = true
  record : e.record.Legible

/-- An entry has a legible document just when its texts are strings, those
of its record included. -/
theorem CacheEntry.toDatum_legible_iff {e : CacheEntry} : e.toDatum.legible = true ↔ e.Legible := by
  simp only [toDatum, Datum.legible_table, List.all_cons, List.all_nil, isString_ofString, Datum.legible_text,
    Datum.legible_int, Bool.true_and, Bool.and_true, Bool.and_eq_true, Record.toDatum_legible_iff]
  constructor
  · rintro ⟨hPath, hDigest, hRecord⟩
    exact ⟨hPath, hDigest, hRecord⟩
  · rintro ⟨hPath, hDigest, hRecord⟩
    exact ⟨hPath, hDigest, hRecord⟩

theorem CacheEntry.read_legible : CacheEntry.read.Gives CacheEntry.Legible := by
  refine Reader.gives_shape fun fs hfs => ?_
  exact (ensures_required Record.read_legible hfs "record").seq <| (Checked.ensures_any _).seq <|
    (ensures_required Reader.gives_text hfs "digest").seq <|
    (ensures_required Reader.gives_text hfs "path").map
      fun path hPath digest hDigest mtime _ record hRecord => ⟨hPath, hDigest, hRecord⟩

/-- A cache document of which every text is a string. -/
structure CacheDocument.Legible (doc : CacheDocument) : Prop where
  projectPath : doc.projectPath.isString = true
  createdAt : doc.createdAt.isString = true
  updatedAt : doc.updatedAt.isString = true
  entries : ∀ e ∈ doc.entries, e.Legible

/-- A cache document that is read from legible data is
legible, entry by entry. -/
theorem CacheDocument.read_legible : CacheDocument.read.Gives CacheDocument.Legible := by
  refine Reader.gives_shape fun fs hfs => ?_
  exact (ensures_field CacheEntry.read_legible.list hfs "entries" (by simp)).seq <|
    (ensures_required Reader.gives_text hfs "updated_at").seq <|
    (ensures_required Reader.gives_text hfs "created_at").seq <|
    (ensures_required Reader.gives_text hfs "project_path").seq <| (Checked.ensures_any _).map
      fun version _ project hProject created hCreated updated hUpdated entries hEntries =>
        ⟨hProject, hCreated, hUpdated, hEntries⟩

/-- A cache document can be written exactly if 64 bits hold its integers and
its texts are strings. -/
theorem CacheDocument.fits_iff {doc : CacheDocument} : doc.toDatum.fits = true ↔
    Json.inRange doc.version = true ∧ (∀ e ∈ doc.entries, e.toDatum.ranged = true) ∧ doc.Legible := by
  have hEntries : (Datum.list (doc.entries.map CacheEntry.toDatum)).legible = true ↔ ∀ e ∈ doc.entries, e.Legible := by
    rw [Datum.legible_listOf, List.all_eq_true]
    exact forall₂_congr fun e _ => CacheEntry.toDatum_legible_iff
  simp only [Datum.fits, toDatum, Datum.ranged_table, Datum.legible_table, List.all_cons, List.all_nil,
    isString_ofString, Datum.legible_text, Datum.legible_int, Datum.ranged_text, Datum.ranged_int, Bool.true_and,
    Bool.and_true, Bool.and_eq_true, hEntries, Datum.ranged_list, List.all_map, List.all_eq_true, Function.comp_apply]
  constructor
  · rintro ⟨⟨hVersion, hRanged⟩, hProject, hCreated, hUpdated, hEach⟩
    exact ⟨hVersion, hRanged, hProject, hCreated, hUpdated, hEach⟩
  · rintro ⟨hVersion, hRanged, hLegible⟩
    exact ⟨⟨hVersion, hRanged⟩, hLegible.projectPath, hLegible.createdAt, hLegible.updatedAt, hLegible.entries⟩

namespace Cache

/-- Whatever bytes are read as a document, all its texts are strings: bytes
that are no UTF-8 are refused, and so are escapes that name half a pair. -/
theorem datum?_legible {bytes : List UInt8} {d : Datum} (hDatum : datum? bytes = some d) : d.legible = true := by
  rw [datum?] at hDatum
  split at hDatum
  · next cs _ =>
    cases hParse : Json.parse .asDouble cs with
    | error f => simp [hParse, Except.toOption] at hDatum
    | ok d' =>
        rw [hParse] at hDatum
        obtain rfl := Option.some.inj hDatum
        exact Json.parse_legible hParse
  · cases hDatum

/-- Whatever bytes hold a document, every text in it is a string, and so
nothing in it but its integers can keep it from being written again. -/
theorem Holds.legible {version : Int} {bytes : List UInt8} {doc : CacheDocument} (hHolds : Holds version bytes doc) :
    doc.Legible := by
  obtain ⟨fields, hDatum, -, hRead⟩ := hHolds
  exact CacheDocument.read_legible _ (datum?_legible hDatum) doc hRead

/-- A cache that is loaded was first made at a time whose text is a string,
if any is known. -/
theorem createdAt_isString {c c' : Cache} {found : Bool} {w w' : World} (hNone : c.createdAt = none)
    (hLoad : c.load.on w = (.ok (c', found), w')) : ∀ t ∈ c'.createdAt, t.isString = true := by
  have hOutcome := load_outcome hLoad
  cases found with
  | false => simp [hOutcome.dated.2 rfl, hNone]
  | true =>
      obtain ⟨-, bytes, doc, hFile, hHolds⟩ := hOutcome.found_iff.mp rfl
      rw [hOutcome.dated.1 rfl bytes doc hFile hHolds]
      exact fun t ht => Option.some.inj ht ▸ hHolds.legible.createdAt

end Cache

end SourceAtlas
