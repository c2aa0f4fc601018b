import SourceAtlas.Proofs.Scan

/-!
Directories and what stands in them. A path that ends at an entry goes through the directory of the
entry, and where the directory is known the entry under a name decides what the path leads to.
-/
namespace SourceAtlas

open Scan

theorem intercalate_grows {α : Type} (separator : List α) (xss : List (List α)) (xs : List α) :
    List.intercalate separator xss <+: List.intercalate separator (xss ++ [xs]) := by
  induction xss with
  | nil => exact List.nil_prefix
  | cons ys yss ih =>
      cases yss with
      | nil =>
          rw [List.intercalate_singleton, List.singleton_append, List.intercalate_cons_cons, List.append_assoc]
          exact List.prefix_append _ _
      | cons zs yss =>
          rw [List.cons_append, List.cons_append, List.intercalate_cons_cons, List.intercalate_cons_cons]
          exact (List.prefix_append_right_inj _).mpr ih

/-- A path that goes on is no shorter. -/
theorem Path.size_text_child (p : Path) (n : Text) :
    Text.Utf8.size p.text ≤ max 1 (Text.Utf8.size (child p n).text) := by
  have hPrefix : (p.anchor.text ++ Text.intercalate "/" p.parts).toList <+:
      (p.anchor.text ++ Text.intercalate "/" (p.parts ++ [n])).toList := by
    simp only [Text.toList_append, Text.toList_intercalate, List.map_append]
    exact (List.prefix_append_right_inj _).mpr (intercalate_grows _ _ _)
  by_cases hEmpty : p.anchor.text ++ Text.intercalate "/" p.parts = ""
  · rw [Path.text, if_pos hEmpty]
    exact le_max_left 1 _
  · obtain ⟨rest, hRest⟩ := hPrefix
    have hLonger : p.anchor.text ++ Text.intercalate "/" (p.parts ++ [n]) ≠ "" := by
      intro hNone
      rw [hNone, Text.toList_empty, List.append_eq_nil_iff, Text.toList_eq_nil_iff] at hRest
      exact hEmpty hRest.1
    rw [Path.text, if_neg hEmpty, child, Path.text, if_neg hLonger]
    apply le_max_of_le_right
    simp only [Text.Utf8.size, ← hRest, List.flatMap_append, List.length_append]
    exact Nat.le_add_right _ _

namespace Disk

variable {d d' : Disk} {followLast : Bool} {links : Nat} {here place : Place} {names : List Text}
  {n : Text} {item : Item} {a : Arrival} {p : Path}

/-- Every entry stands in a directory. -/
def Grounded (d : Disk) : Prop := ∀ e ∈ d.entries, d.isDirectoryAt e.1.dropLast = true

instance (d : Disk) : Decidable d.Grounded := inferInstanceAs (Decidable (∀ e ∈ d.entries, _))

theorem Grounded.directory (hGrounded : d.Grounded) (hFind : d.find? (place ++ [n]) = some item) :
    d.find? place = some .directory := by
  rw [find?, if_neg (by simp)] at hFind
  have hDirectory := hGrounded _ (Assoc.mem_of_get? hFind)
  rw [List.dropLast_concat, isDirectoryAt, decide_eq_true_eq] at hDirectory
  exact hDirectory

def arrivalAt (d : Disk) (place : Place) : Arrival :=
  match d.find? place with
  | some item => .found place item
  | none => .absent place

theorem arrivalAt_place (d : Disk) (place : Place) : (d.arrivalAt place).place = place := by
  rw [arrivalAt]
  split <;> rfl

theorem arrivalAt_found (hFind : d.find? place = some item) : d.arrivalAt place = .found place item := by
  rw [arrivalAt, hFind]

theorem arrivalAt_absent (hFind : d.find? place = none) : d.arrivalAt place = .absent place := by
  rw [arrivalAt, hFind]

namespace Leads

theorem stay (hDirectory : d.isDirectoryAt here = true) :
    Leads d followLast links here [] (.found here .directory) :=
  .here (by simpa [isDirectoryAt] using hDirectory)

/-- A path to an entry goes through the directory of the entry. -/
theorem unsnoc (hLeads : Leads d false links here (names ++ [n]) a) (hName : n ≠ "..") :
    Text.Utf8.size n ≤ longestName ∧ ∃ directory, a.place = directory ++ [n] ∧
      Leads d true links here names (.found directory .directory) := by
  generalize hAll : names ++ [n] = all at hLeads
  generalize hStop : false = follow at hLeads
  induction hLeads generalizing names with
  | here => simp at hAll
  | @up links here rest a hDirectory _ ih =>
      rcases names with _ | ⟨m, names⟩
      · exact absurd (List.cons.inj hAll).1 hName
      · obtain ⟨rfl, hRest⟩ := List.cons.inj hAll
        obtain ⟨hSize, directory, hPlace, hUp⟩ := ih hRest
        exact ⟨hSize, directory, hPlace, .up hDirectory hUp⟩
  | @absent links here name hDirectory _ hSize _ =>
      obtain ⟨rfl, rfl⟩ : names = [] ∧ n = name := by simpa [List.append_eq_cons_iff] using hAll
      exact ⟨hSize, here, rfl, stay hDirectory⟩
  | @last links here name target hDirectory _ hSize _ _ =>
      obtain ⟨rfl, rfl⟩ : names = [] ∧ n = name := by simpa [List.append_eq_cons_iff] using hAll
      exact ⟨hSize, here, rfl, stay hDirectory⟩
  | @link links here name target rest a hDirectory hName' hSize' hFind hGo _ ih =>
      rcases names with _ | ⟨m, names⟩
      · -- a last link is not followed
        cases hStop.trans (hGo (List.cons.inj hAll).2.symm)
      · obtain ⟨rfl, hRest⟩ := List.cons.inj hAll
        obtain ⟨hSize, directory, hPlace, hOn⟩ := @ih ((Path.parse target).parts ++ names)
          (by rw [List.append_assoc, ← hRest]; rfl)
        exact ⟨hSize, directory, hPlace, .link hDirectory hName' hSize' hFind (fun _ => rfl) hOn⟩
  | @down links here name rest item a hDirectory hName' hSize' hFind hItem hRest ih =>
      rcases names with _ | ⟨m, names⟩
      · obtain ⟨rfl, rfl⟩ := List.cons.inj hAll
        cases hRest
        exact ⟨hSize', here, rfl, stay hDirectory⟩
      · obtain ⟨rfl, hTail⟩ := List.cons.inj hAll
        obtain ⟨hSize, directory, hPlace, hOn⟩ := ih hTail
        exact ⟨hSize, directory, hPlace, .down hDirectory hName' hSize' hFind hItem hOn⟩

/-- What stands under a name in a directory is what the path that goes on by
the name leads to. -/
theorem child (hLeads : Leads d true links here names (.found place .directory)) (hName : n ≠ "..")
    (hSize : Text.Utf8.size n ≤ longestName) :
    Leads d false links here (names ++ [n]) (d.arrivalAt (place ++ [n])) := by
  rcases hFind : d.find? (place ++ [n]) with _ | item
  · have hDirectory : d.isDirectoryAt place = true := by
      rw [isDirectoryAt, decide_eq_true_eq]
      exact hLeads.atEnd
    rw [arrivalAt_absent hFind]
    exact hLeads.append (fun _ => .absent hDirectory hName hSize hFind) (by simp)
  · rw [arrivalAt_found hFind]
    exact hLeads.snoc hName hSize hFind

end Leads

/-- Where an entry is looked for, its directory is found. -/
theorem locate_parent (hLocate : d.locate false (Scan.child p n) = .ok a) (hName : n ≠ "..") :
    ∃ directory, a.place = directory ++ [n] ∧ d.locate true p = .ok (.found directory .directory) := by
  obtain ⟨hNul, hSize, hLeads⟩ := locate_eq_ok_iff.mp hLocate
  obtain ⟨-, directory, hPlace, hUp⟩ := hLeads.unsnoc hName
  refine ⟨directory, hPlace, locate_eq_ok_iff.mpr ⟨?_, ?_, hUp⟩⟩
  · rw [Scan.child, List.any_append, Bool.or_eq_false_iff] at hNul
    exact hNul.1
  · have hLimit : 1 < pathLimit := by decide
    exact (p.size_text_child n).trans_lt (max_lt hLimit hSize)

/-- On every disk on which a path leads to a directory, the entry under a
name is found if the system takes the longer path. -/
theorem locate_child (hDirectory : d.locate true p = .ok (.found place .directory)) (hName : n ≠ "..")
    (hTaken : d'.locate false (Scan.child p n) = .ok a) :
    d.locate false (Scan.child p n) = .ok (d.arrivalAt (place ++ [n])) := by
  obtain ⟨hNul, hSize, hLeads⟩ := locate_eq_ok_iff.mp hTaken
  obtain ⟨-, -, hUp⟩ := locate_eq_ok_iff.mp hDirectory
  exact locate_eq_ok_iff.mpr ⟨hNul, hSize, hUp.child hName (hLeads.unsnoc hName).1⟩

end Disk

end SourceAtlas
