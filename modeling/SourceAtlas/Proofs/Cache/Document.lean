import SourceAtlas.Cache.Document
import SourceAtlas.Proofs.Assoc
import SourceAtlas.Proofs.Json.RoundTrip

/-!
Records and cache documents survive writing and reading. A writer and a reader belong together if
the written data are plain and are read back from their sorted form.
-/
namespace SourceAtlas.Schema

variable {α : Type}

/-- What `write` makes of a value is plain, and `read` gives the value back. -/
structure Faithful (read : Reader α) (write : α → Datum) : Prop where
  plain : ∀ a, (write a).Plain
  back : ∀ a, read (write a).sorted = .valid a

theorem faithful_text : Faithful Reader.text Datum.text where
  plain := Datum.Plain.text
  back s := by rw [Datum.sorted]; rfl

theorem faithful_integer : Faithful Reader.integer Datum.int where
  plain := Datum.Plain.int
  back n := by rw [Datum.sorted]; rfl

theorem faithful_boolean : Faithful Reader.boolean Datum.bool where
  plain := Datum.Plain.bool
  back b := by rw [Datum.sorted]; rfl

/-- Members of a closed set are told apart by their words. -/
theorem faithful_member {all : List α} {word : α → Text}
    (hFind : ∀ a, all.find? (fun b => word b = word a) = some a) :
    Faithful (Reader.member all word) (fun a => .text (word a)) where
  plain a := .text _
  back a := by
    rw [Datum.sorted, Reader.member, hFind]

/-- A list written item by item is read back item by item, whatever index
the items are counted from. -/
theorem itemsFrom_map {read : Reader α} {write : α → Datum} (hFaithful : Faithful read write)
    (i : Nat) (as : List α) :
    Reader.itemsFrom read i (as.map fun a => (write a).sorted) = .valid as := by
  induction as generalizing i with
  | nil => rfl
  | cons a as ih =>
      rw [List.map_cons, Reader.itemsFrom, hFaithful.back, ih]
      rfl

/-- Lists are read back faithfully if their items are. -/
theorem Faithful.list {read : Reader α} {write : α → Datum} (hFaithful : Faithful read write) :
    Faithful (Reader.list read) (fun as => .list (as.map write)) where
  plain as := .list (by simpa using fun a _ => hFaithful.plain a)
  back as := by
    rw [Datum.sorted, Datum.sortedItems_eq_map, List.map_map, Reader.list]
    exact itemsFrom_map hFaithful 0 as

theorem faithful_texts : Faithful (Reader.list Reader.text) Datum.texts := faithful_text.list

/-- A value that may be missing is read back faithfully, if no value that is
there is written as null. -/
theorem Faithful.optional {read : Reader α} {write : α → Datum} (hFaithful : Faithful read write)
    (hSome : ∀ a, (write a).sorted ≠ .null) :
    Faithful (Reader.optional read) (fun a => (a.map write).getD .null) where
  plain a := by
    cases a with
    | none => exact .null
    | some a => exact hFaithful.plain a
  back a := by
    cases a with
    | none => rw [Option.map_none, Option.getD_none, Datum.sorted]; rfl
    | some a =>
        have hBack := hFaithful.back a
        have hNotNull := hSome a
        rw [Option.map_some, Option.getD_some]
        cases hDatum : (write a).sorted with
        | null => exact absurd hDatum hNotNull
        | _ =>
            rw [hDatum] at hBack
            rw [Reader.optional, hBack]
            · rfl
            · simp

theorem faithful_textOrNull : Faithful (Reader.optional Reader.text) Datum.textOrNull := by
  have hOptional := faithful_text.optional fun s => by rw [Datum.sorted]; simp
  have hSame : Datum.textOrNull = fun s => (s.map Datum.text).getD .null := by
    funext s
    cases s <;> rfl
  exact hSame ▸ hOptional

/-- Sorting a table does not change what is under a key, as long as no key
occurs twice. -/
theorem lookup_sorted {fields : Fields} (hKeys : (fields.map Prod.fst).Nodup) (key : Text) :
    Datum.lookup key (Json.sortFields (Datum.sortedFields fields)) =
      (Datum.lookup key fields).map Datum.sorted := by
  have hKeys' : ((Datum.sortedFields fields).map Prod.fst).Nodup := by
    rw [Datum.sortedFields_eq_map, List.map_map]
    exact hKeys
  have hPerm := (Sorting.sort_perm (fun a b => !(decide (b.1 < a.1))) (Datum.sortedFields fields)).symm
  rw [Datum.lookup, Json.sortFields, ← Assoc.get?_perm hPerm hKeys', Datum.sortedFields_eq_map,
    Assoc.get?_map]
  rfl

theorem keys_nodup_of_plain {fields : Fields} (hPlain : (Datum.table fields).Plain) :
    (fields.map Prod.fst).Nodup := by
  cases hPlain with
  | table hKeys _ => exact hKeys

/-- A field of a sorted table is read from the datum that was put there,
with its faults under the key if it does not fit. -/
theorem required_sorted (read : Reader α) {fields : Fields} (hPlain : (Datum.table fields).Plain)
    (key : Text) {d : Datum} (hLookup : Datum.lookup key fields = some d) :
    required key read (Json.sortFields (Datum.sortedFields fields)) = (read d.sorted).under key := by
  rw [required, lookup_sorted (keys_nodup_of_plain hPlain), hLookup, Option.map_some]

/-- A field is found in the sorted fields of a plain table where it was,
with its own value sorted: sorting changes the order of the keys, and no key
occurs twice. -/
theorem field_sorted (initial : α) (read : Reader α) {fields : Fields}
    (hPlain : (Datum.table fields).Plain) (key : Text) {d : Datum}
    (hLookup : Datum.lookup key fields = some d) :
    field key initial read (Json.sortFields (Datum.sortedFields fields)) =
      (read d.sorted).under key := by
  rw [field, lookup_sorted (keys_nodup_of_plain hPlain), hLookup, Option.map_some]

end SourceAtlas.Schema

namespace SourceAtlas

open Schema

theorem faithful_importKind :
    Faithful (Reader.member ImportKind.all ImportKind.word) (fun a => .text a.word) :=
  faithful_member (by intro a; cases a <;> decide)

theorem faithful_importForm :
    Faithful (Reader.member ImportForm.all ImportForm.word) (fun a => .text a.word) :=
  faithful_member (by intro a; cases a <;> decide)

theorem faithful_importGroup :
    Faithful (Reader.member ImportGroup.all ImportGroup.word) (fun a => .text a.word) :=
  faithful_member (by intro a; cases a <;> decide)

theorem faithful_exportKind :
    Faithful (Reader.member ExportKind.all ExportKind.word) (fun a => .text a.word) :=
  faithful_member (by intro a; cases a <;> decide)

theorem faithful_functionKind :
    Faithful (Reader.member FunctionKind.all FunctionKind.word) (fun a => .text a.word) :=
  faithful_member (by intro a; cases a <;> decide)

theorem faithful_role : Faithful (Reader.member Role.all Role.word) (fun a => .text a.word) :=
  faithful_member (by intro a; cases a <;> decide)

theorem faithful_confidence :
    Faithful (Reader.member Confidence.all Confidence.word) (fun a => .text a.word) :=
  faithful_member (by intro a; cases a <;> decide)

/-- What is written of an import is plain: its keys are distinct. -/
theorem Import.toDatum_plain (i : Import) : i.toDatum.Plain :=
  .table (by simp) (by simp [Datum.Plain.text, Datum.Plain.int, faithful_textOrNull.plain,
    faithful_texts.plain])

/-- An import is read back from what is written of it, with its kind, form
and group read from their words. -/
theorem faithful_import : Faithful Import.read Import.toDatum where
  plain := Import.toDatum_plain
  back i := by
    have hPlain : (Datum.table _).Plain := i.toDatum_plain
    rw [Import.toDatum, Datum.sorted, Import.read, Reader.shape]
    rw [required_sorted _ hPlain _ rfl, field_sorted _ _ hPlain _ rfl,
      required_sorted _ hPlain _ rfl, field_sorted _ _ hPlain _ rfl, field_sorted _ _ hPlain _ rfl,
      field_sorted _ _ hPlain _ rfl, field_sorted _ _ hPlain _ rfl]
    rw [faithful_text.back, faithful_textOrNull.back, faithful_importKind.back,
      faithful_importForm.back, faithful_texts.back, faithful_integer.back,
      faithful_importGroup.back]
    rfl

theorem Export.toDatum_plain (e : Export) : e.toDatum.Plain :=
  .table (by simp) (by simp [Datum.Plain.text])

theorem faithful_export : Faithful Export.read Export.toDatum where
  plain := Export.toDatum_plain
  back e := by
    have hPlain : (Datum.table _).Plain := e.toDatum_plain
    rw [Export.toDatum, Datum.sorted, Export.read, Reader.shape]
    rw [required_sorted _ hPlain _ rfl, required_sorted _ hPlain _ rfl]
    rw [faithful_text.back, faithful_exportKind.back]
    rfl

theorem Decoration.toDatum_plain (d : Decoration) : d.toDatum.Plain := by
  have hStandalone := (faithful_boolean.optional fun b => by simp [Datum.sorted]).plain d.standalone
  exact .table (by simp) (by simp [Datum.Plain.text, faithful_textOrNull.plain, faithful_texts.plain,
    hStandalone])

theorem faithful_decoration : Faithful Decoration.read Decoration.toDatum where
  plain := Decoration.toDatum_plain
  back d := by
    have hStandalone := (faithful_boolean.optional fun b => by simp [Datum.sorted]).back d.standalone
    have hPlain : (Datum.table _).Plain := d.toDatum_plain
    rw [Decoration.toDatum, Datum.sorted, Decoration.read, Reader.shape]
    rw [required_sorted _ hPlain _ rfl, field_sorted _ _ hPlain _ rfl,
      field_sorted _ _ hPlain _ rfl, field_sorted _ _ hPlain _ rfl, field_sorted _ _ hPlain _ rfl,
      field_sorted _ _ hPlain _ rfl, field_sorted _ _ hPlain _ rfl, field_sorted _ _ hPlain _ rfl,
      field_sorted _ _ hPlain _ rfl, field_sorted _ _ hPlain _ rfl, field_sorted _ _ hPlain _ rfl]
    rw [faithful_text.back, hStandalone]
    simp only [faithful_textOrNull.back, faithful_texts.back]
    rfl

theorem ClassInfo.toDatum_plain (c : ClassInfo) : c.toDatum.Plain := by
  have hDecoration := (faithful_decoration.optional fun d => by
    simp [Decoration.toDatum, Datum.sorted]).plain c.decoration
  exact .table (by simp) (by simp [Datum.Plain.text, Datum.Plain.int, faithful_textOrNull.plain,
    faithful_texts.plain, hDecoration])

/-- A class is read back from what is written of it, with the list of its
decorators. -/
theorem faithful_classInfo : Faithful ClassInfo.read ClassInfo.toDatum where
  plain := ClassInfo.toDatum_plain
  back c := by
    have hDecoration := (faithful_decoration.optional fun d => by
      simp [Decoration.toDatum, Datum.sorted]).back c.decoration
    have hPlain : (Datum.table _).Plain := c.toDatum_plain
    rw [ClassInfo.toDatum, Datum.sorted, ClassInfo.read, Reader.shape]
    rw [required_sorted _ hPlain _ rfl, field_sorted _ _ hPlain _ rfl,
      field_sorted _ _ hPlain _ rfl, field_sorted _ _ hPlain _ rfl, field_sorted _ _ hPlain _ rfl,
      field_sorted _ _ hPlain _ rfl]
    rw [faithful_text.back, faithful_textOrNull.back, hDecoration, faithful_integer.back]
    simp only [faithful_texts.back]
    rfl

theorem FunctionInfo.toDatum_plain (f : FunctionInfo) : f.toDatum.Plain :=
  .table (by simp) (by simp [Datum.Plain.text, Datum.Plain.int, Datum.Plain.bool])

theorem faithful_functionInfo : Faithful FunctionInfo.read FunctionInfo.toDatum where
  plain := FunctionInfo.toDatum_plain
  back f := by
    have hPlain : (Datum.table _).Plain := f.toDatum_plain
    rw [FunctionInfo.toDatum, Datum.sorted, FunctionInfo.read, Reader.shape]
    rw [required_sorted _ hPlain _ rfl, required_sorted _ hPlain _ rfl,
      field_sorted _ _ hPlain _ rfl, field_sorted _ _ hPlain _ rfl, field_sorted _ _ hPlain _ rfl]
    rw [faithful_text.back, faithful_functionKind.back, faithful_boolean.back]
    simp only [faithful_integer.back]
    rfl

theorem Record.toDatum_plain (r : Record) : r.toDatum.Plain :=
  .table (by simp) (by simp [Datum.Plain.text, Datum.Plain.int, faithful_textOrNull.plain,
    faithful_texts.plain, faithful_import.list.plain, faithful_export.list.plain,
    faithful_classInfo.list.plain, faithful_functionInfo.list.plain])

/-- A record is read back from what is written of it, from the lists of its
imports and exports to its classes and functions. -/
theorem faithful_record : Faithful Record.read Record.toDatum where
  plain := Record.toDatum_plain
  back r := by
    have hPlain : (Datum.table _).Plain := r.toDatum_plain
    rw [Record.toDatum, Datum.sorted, Record.read, Reader.shape]
    rw [required_sorted _ hPlain _ rfl, required_sorted _ hPlain _ rfl,
      field_sorted _ _ hPlain _ rfl, field_sorted _ _ hPlain _ rfl, field_sorted _ _ hPlain _ rfl,
      field_sorted _ _ hPlain _ rfl, field_sorted _ _ hPlain _ rfl, field_sorted _ _ hPlain _ rfl,
      field_sorted _ _ hPlain _ rfl, field_sorted _ _ hPlain _ rfl, field_sorted _ _ hPlain _ rfl,
      field_sorted _ _ hPlain _ rfl]
    rw [faithful_integer.back, faithful_texts.back, faithful_import.list.back,
      faithful_export.list.back, faithful_classInfo.list.back, faithful_functionInfo.list.back,
      faithful_role.back, faithful_confidence.back, faithful_textOrNull.back]
    simp only [faithful_text.back]
    rfl

theorem CacheEntry.toDatum_plain (e : CacheEntry) : e.toDatum.Plain :=
  .table (by simp) (by simp [Datum.Plain.text, Datum.Plain.int, faithful_record.plain])

/-- An entry of a cache is read back with its digest, its
time and its record. -/
theorem faithful_cacheEntry : Faithful CacheEntry.read CacheEntry.toDatum where
  plain := CacheEntry.toDatum_plain
  back e := by
    have hPlain : (Datum.table _).Plain := e.toDatum_plain
    rw [CacheEntry.toDatum, Datum.sorted, CacheEntry.read, Reader.shape]
    rw [required_sorted _ hPlain _ rfl, required_sorted _ hPlain _ rfl,
      required_sorted _ hPlain _ rfl, required_sorted _ hPlain _ rfl]
    rw [faithful_integer.back, faithful_record.back]
    simp only [faithful_text.back]
    rfl

namespace CacheDocument

theorem toDatum_plain (d : CacheDocument) : d.toDatum.Plain :=
  .table (by simp) (by simp [Datum.Plain.text, Datum.Plain.int, faithful_cacheEntry.list.plain])

/-- The document of a cache is read back from what is written of it, key by
key and entry by entry. -/
theorem faithful : Faithful read toDatum where
  plain := toDatum_plain
  back d := by
    have hPlain : (Datum.table _).Plain := d.toDatum_plain
    rw [toDatum, Datum.sorted, read, Reader.shape]
    rw [field_sorted _ _ hPlain _ rfl, required_sorted _ hPlain _ rfl,
      required_sorted _ hPlain _ rfl, required_sorted _ hPlain _ rfl, field_sorted _ _ hPlain _ rfl]
    rw [faithful_integer.back, faithful_cacheEntry.list.back]
    simp only [faithful_text.back]
    rfl

/-- A document is taken back from its sorted form by its own
version and by no other. -/
theorem ofDatum_sorted (d : CacheDocument) (version : Int) :
    ofDatum version d.toDatum.sorted =
      if d.version = version then .ok d else .error (.otherVersion (.int d.version)) := by
  have hVersion : d.toDatum.sorted.field? "version" = some (.int d.version) := by
    have hPlain : (Datum.table _).Plain := d.toDatum_plain
    rw [toDatum, Datum.sorted, Datum.field?, lookup_sorted (keys_nodup_of_plain hPlain)]
    simp [Datum.lookup, Assoc.get?, Datum.sorted]
  obtain ⟨fields, hTable⟩ : ∃ fields, d.toDatum.sorted = .table fields :=
    ⟨_, by rw [toDatum, Datum.sorted]⟩
  have hRead := faithful.back d
  rw [hTable] at hVersion hRead ⊢
  by_cases hSame : d.version = version <;> simp [ofDatum, hVersion, hRead, equalsInteger, hSame]

end CacheDocument

end SourceAtlas
