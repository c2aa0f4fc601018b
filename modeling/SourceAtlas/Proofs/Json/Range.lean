import SourceAtlas.Json.Writer

/-!
Which data can be written. Everything has a JSON text but an integer that 64 bits do not hold, and a
text with bytes that are no characters.
-/
namespace SourceAtlas

namespace Datum

mutual

/-- Whether 64 bits hold every integer of a datum. -/
def ranged : Datum → Bool
  | .int n => Json.inRange n
  | .list items => rangedItems items
  | .table fields => rangedFields fields
  | _ => true

def rangedItems : List Datum → Bool
  | [] => true
  | d :: rest => ranged d && rangedItems rest

def rangedFields : List (Text × Datum) → Bool
  | [] => true
  | (_, d) :: rest => ranged d && rangedFields rest

end

mutual

def legible : Datum → Bool
  | .text t => t.isString
  | .list items => legibleItems items
  | .table fields => legibleFields fields
  | _ => true

def legibleItems : List Datum → Bool
  | [] => true
  | d :: rest => legible d && legibleItems rest

/-- Whether every key of a table is a string, and every value legible. -/
def legibleFields : List (Text × Datum) → Bool
  | [] => true
  | (k, d) :: rest => k.isString && legible d && legibleFields rest

end

@[simp]
theorem ranged_text (t : Text) : (Datum.text t).ranged = true := rfl

@[simp]
theorem ranged_int (n : Int) : (Datum.int n).ranged = Json.inRange n := rfl

@[simp]
theorem ranged_bool (b : Bool) : (Datum.bool b).ranged = true := rfl

@[simp]
theorem ranged_float (x : Number.Double) : (Datum.float x).ranged = true := rfl

@[simp]
theorem ranged_null : Datum.null.ranged = true := rfl

@[simp]
theorem legible_text (t : Text) : (Datum.text t).legible = t.isString := rfl

@[simp]
theorem legible_int (n : Int) : (Datum.int n).legible = true := rfl

@[simp]
theorem legible_bool (b : Bool) : (Datum.bool b).legible = true := rfl

@[simp]
theorem legible_float (x : Number.Double) : (Datum.float x).legible = true := rfl

@[simp]
theorem legible_null : Datum.null.legible = true := rfl

theorem ranged_list (items : List Datum) : (Datum.list items).ranged = items.all ranged := by
  rw [ranged]
  induction items with
  | nil => rfl
  | cons d rest ih => rw [rangedItems, List.all_cons, ih]

theorem ranged_table (fields : List (Text × Datum)) :
    (Datum.table fields).ranged = fields.all fun p => p.2.ranged := by
  rw [ranged]
  induction fields with
  | nil => rfl
  | cons p rest ih => rw [rangedFields, List.all_cons, ih]

theorem legible_list (items : List Datum) : (Datum.list items).legible = items.all legible := by
  rw [legible]
  induction items with
  | nil => rfl
  | cons d rest ih => rw [legibleItems, List.all_cons, ih]

theorem legible_table (fields : List (Text × Datum)) :
    (Datum.table fields).legible = fields.all fun p => p.1.isString && p.2.legible := by
  rw [legible]
  induction fields with
  | nil => rfl
  | cons p rest ih => rw [legibleFields, List.all_cons, ih]

/-- Whether a document can hold every integer and every text of a datum. -/
def fits (d : Datum) : Bool := d.ranged && d.legible

end Datum

namespace Json

mutual

/-- At every depth a datum can be written exactly if it is
ranged and legible. -/
theorem render_isOk : ∀ (depth : Nat) (d : Datum), (render depth d).isOk = (d.ranged && d.legible)
  | _, .null => rfl
  | _, .bool true => rfl
  | _, .bool false => rfl
  | _, .float _ => rfl
  | _, .moment _ => rfl
  | depth, .text t => by
      rw [render, Datum.ranged_text, Datum.legible_text]
      cases t.isString <;> rfl
  | depth, .int n => by
      rw [render, Datum.ranged_int, Datum.legible_int]
      cases inRange n <;> rfl
  | depth, .list items => by
      rw [render, Datum.ranged, Datum.legible, ← renderItems_isOk (depth + 1) items]
      cases renderItems (depth + 1) items <;> rfl
  | depth, .table fields => by
      rw [render, Datum.ranged, Datum.legible, ← renderFields_isOk (depth + 1) fields]
      cases renderFields (depth + 1) fields <;> rfl

/-- The items of a list can be written exactly if all of them are in range
and legible. -/
theorem renderItems_isOk : ∀ (depth : Nat) (items : List Datum),
    (renderItems depth items).isOk = (Datum.rangedItems items && Datum.legibleItems items)
  | _, [] => rfl
  | depth, d :: rest => by
      have hBoth : (d.ranged && Datum.rangedItems rest && (d.legible && Datum.legibleItems rest)) =
          ((render depth d).isOk && (renderItems depth rest).isOk) := by
        rw [render_isOk depth d, renderItems_isOk depth rest]
        ac_rfl
      rw [renderItems, Datum.rangedItems, Datum.legibleItems, hBoth]
      cases render depth d <;> cases renderItems depth rest <;> rfl

/-- The fields of a table can be written exactly if all their values are in
range, and all keys and values legible. -/
theorem renderFields_isOk : ∀ (depth : Nat) (fields : List (Text × Datum)),
    (renderFields depth fields).isOk = (Datum.rangedFields fields && Datum.legibleFields fields)
  | _, [] => rfl
  | depth, (k, d) :: rest => by
      have hAll : (d.ranged && Datum.rangedFields rest &&
          (k.isString && d.legible && Datum.legibleFields rest)) =
            (k.isString && ((render depth d).isOk && (renderFields depth rest).isOk)) := by
        rw [render_isOk depth d, renderFields_isOk depth rest]
        ac_rfl
      rw [renderFields, Datum.rangedFields, Datum.legibleFields, hAll]
      cases k.isString <;> cases render depth d <;> cases renderFields depth rest <;> rfl

end

/-- A datum has a document exactly if it fits. -/
theorem document_eq_ok_iff {d : Datum} : (∃ text, document d = .ok text) ↔ d.fits = true := by
  rw [document, Datum.fits, ← render_isOk 0 d]
  cases render 0 d <;> simp [Except.isOk, Except.toBool]

end Json

end SourceAtlas
