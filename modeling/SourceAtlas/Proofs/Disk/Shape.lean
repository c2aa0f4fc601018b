import SourceAtlas.Proofs.Disk.Canonical

/-!
The shape of a disk: its directories, its links and the places of its files. What the files hold does not
decide where a path leads.
-/
namespace SourceAtlas

def Item.shape : Item → Item
  | .file _ _ => .file [] 0
  | .directory => .directory
  | .link target => .link target

namespace Disk

def Arrival.shape : Arrival → Arrival
  | .found place item => .found place item.shape
  | .absent place => .absent place

/-- A disk with empty files. -/
def shape (d : Disk) : Disk := ⟨d.entries.map fun e => (e.1, e.2.shape)⟩

variable {d d' : Disk} {place : Place} {followLast : Bool}

/-- At each place of the shape there is what the disk has there, without
what a file holds. -/
theorem find?_shape (d : Disk) (place : Place) : d.shape.find? place = (d.find? place).map Item.shape := by
  rw [find?, find?]
  split
  · rfl
  · exact Assoc.get?_map Item.shape place d.entries

theorem isDirectoryAt_shape (d : Disk) (place : Place) : d.shape.isDirectoryAt place = d.isDirectoryAt place := by
  rw [isDirectoryAt, isDirectoryAt, find?_shape]
  rcases d.find? place with _ | (_ | _ | _) <;> simp [Item.shape]

theorem linkCount_shape (d : Disk) : d.shape.linkCount = d.linkCount := by
  rw [linkCount, linkCount, shape, List.filter_map, List.length_map]
  congr 1
  apply List.filter_congr
  rintro ⟨place, _ | _ | _⟩ _ <;> rfl

/-- Writing into a file does not change the shape. -/
theorem shape_put {bytes bytes' : List UInt8} {mtime mtime' : Int}
    (hFile : d.find? place = some (.file bytes mtime)) :
    (d.put place (.file bytes' mtime')).shape = d.shape := by
  obtain ⟨entries⟩ := d
  rw [find?] at hFile
  split at hFile
  · cases hFile
  · simp only [shape, put, mk.injEq]
    induction entries with
    | nil => cases hFile
    | cons e rest ih =>
        obtain ⟨key, item⟩ := e
        rw [Assoc.put]
        rw [Assoc.get?] at hFile
        split at hFile
        · next hKey =>
          obtain rfl := Option.some.inj hFile
          simp [hKey, Item.shape]
        · next hKey => simp [hKey, ih hFile]

section Lead

variable (d : Disk) (followLast : Bool)

/-- Following names leads to the same place whatever files hold, if
following links does. -/
theorem followNames_shape {onLink onLink' : Place → List Text → Except Refusal Arrival}
    (hLink : ∀ here names, onLink' here names = (onLink here names).map Arrival.shape) (here : Place)
    (names : List Text) : followNames d.shape followLast onLink' here names =
      (followNames d followLast onLink here names).map Arrival.shape := by
  induction names generalizing here with
  | nil =>
      rw [followNames, followNames, find?_shape]
      cases d.find? here <;> rfl
  | cons name rest ih =>
      rw [followNames, followNames, isDirectoryAt_shape]
      by_cases hDirectory : (!d.isDirectoryAt here) = true
      · rw [if_pos hDirectory, if_pos hDirectory]
        rfl
      rw [if_neg hDirectory, if_neg hDirectory]
      by_cases hUp : name = ".."
      · rw [if_pos hUp, if_pos hUp, ih]
      rw [if_neg hUp, if_neg hUp]
      by_cases hLong : longestName < Text.Utf8.size name
      · rw [if_pos hLong, if_pos hLong]
        rfl
      rw [if_neg hLong, if_neg hLong]
      simp only [find?_shape]
      rcases d.find? (here ++ [name]) with _ | (_ | _ | target)
      · cases rest <;> rfl
      · exact ih _
      · exact ih _
      · by_cases hStop : (rest.isEmpty && !followLast) = true
        · simp only [Option.map_some, Item.shape, hStop, if_true]
          rfl
        · simp only [Option.map_some, Item.shape, hStop]
          exact hLink _ _

/-- A path leads to the same place whatever files hold. -/
theorem locate_shape (p : Path) : d.shape.locate followLast p = (d.locate followLast p).map Arrival.shape := by
  have hFollow (links : Nat) : ∀ here names, follow d.shape followLast links here names =
      (follow d followLast links here names).map Arrival.shape := by
    induction links with
    | zero => exact d.followNames_shape followLast fun _ _ => rfl
    | succ links ih => exact d.followNames_shape followLast ih
  rw [locate, locate]
  split_ifs
  · rfl
  · rfl
  · exact hFollow _ _ _

/-- A question that does not depend on what a file holds
has the same answer. -/
theorem test_shape {ask : Item → Bool} (hAsk : ∀ item, ask item.shape = ask item) (p : Path) :
    d.shape.test followLast ask p = d.test followLast ask p := by
  rw [test, test, entry, entry, locate_shape]
  rcases d.locate followLast p with r | (⟨place, item⟩ | place)
  · rfl
  · simp [Except.map, Arrival.shape, hAsk]
  · rfl

theorem isFile_shape (p : Path) : d.shape.isFile p = d.isFile p := by
  apply test_shape
  rintro (_ | _ | _) <;> rfl

/-- Finding the canonical form of names asks for links and directories only. -/
theorem canonicalNames_shape (onLink : Known → Place → List Text → Canonical) (known : Known) (here : Place)
    (names : List Text) : canonicalNames d.shape onLink known here names = canonicalNames d onLink known here names := by
  have hItem : ∀ p, d.shape.itemAt? p = (d.itemAt? p).map Item.shape := by
    intro p
    rw [itemAt?, itemAt?, isDirectoryAt_shape, find?_shape]
    split <;> rfl
  induction names generalizing known here with
  | nil => rfl
  | cons name rest ih =>
      rw [canonicalNames, canonicalNames]
      simp only [hItem, ih]
      rcases d.itemAt? (here ++ [name]) with _ | (_ | _ | target) <;> rfl

/-- The canonical form of a path does not depend on what files hold. -/
theorem canonical_shape (p : Path) : d.shape.canonical p = d.canonical p := by
  have hFrom (depth : Nat) : d.shape.canonicalFrom depth = d.canonicalFrom depth := by
    induction depth with
    | zero =>
        funext known here names
        exact d.canonicalNames_shape _ known here names
    | succ depth ih =>
        funext known here names
        rw [canonicalFrom, canonicalFrom, ih]
        exact d.canonicalNames_shape _ known here names
  rw [canonical, canonical, linkCount_shape, hFrom]
  simp only [locate_shape]
  split_ifs
  · rfl
  · rcases d.locate true _ with r | a <;> rfl

end Lead

section Same

variable (hShape : d'.shape = d.shape) {p : Path}

include hShape

theorem find?_of_shape {item : Item} (hFind : d.find? place = some item) : ∃ item', d'.find? place = some item' := by
  have hSame := d'.find?_shape place
  rw [hShape, find?_shape, hFind] at hSame
  obtain ⟨item', hItem, -⟩ := Option.map_eq_some_iff.mp hSame.symm
  exact ⟨item', hItem⟩

/-- On disks of one shape a path leads to the same place, and to the same
kind of item there. -/
theorem locate_found_of_shape {item : Item} (hLocate : d.locate followLast p = .ok (.found place item)) :
    ∃ item', d'.locate followLast p = .ok (.found place item') ∧ item'.shape = item.shape := by
  have hSame := d'.locate_shape followLast p
  rw [hShape, locate_shape, hLocate] at hSame
  rcases hLater : d'.locate followLast p with r | (⟨place', item'⟩ | place') <;> rw [hLater] at hSame
  · cases hSame
  · obtain ⟨rfl, hItem⟩ := Arrival.found.inj (Except.ok.inj hSame)
    exact ⟨item', rfl, hItem.symm⟩
  · cases hSame

/-- On disks of one shape a path leads to the same directory. -/
theorem locate_directory_of_shape (hLocate : d.locate followLast p = .ok (.found place .directory)) :
    d'.locate followLast p = .ok (.found place .directory) := by
  obtain ⟨_ | _ | _, hLater, hItem⟩ := locate_found_of_shape hShape hLocate
  · cases hItem
  · exact hLater
  · cases hItem

theorem locate_error_of_shape {r : Refusal} (hLocate : d.locate followLast p = .error r) :
    d'.locate followLast p = .error r := by
  have hSame := d'.locate_shape followLast p
  rw [hShape, locate_shape, hLocate] at hSame
  rcases hLater : d'.locate followLast p with r' | a <;> rw [hLater] at hSame
  · exact congrArg _ (Except.error.inj hSame).symm
  · cases hSame

/-- Disks of one shape have the same canonical forms. -/
theorem canonical_of_shape (p : Path) : d'.canonical p = d.canonical p := by
  rw [← canonical_shape, hShape, canonical_shape]

theorem isFile_of_shape (p : Path) : d'.isFile p = d.isFile p := by
  rw [← isFile_shape, hShape, isFile_shape]

end Same

end Disk

end SourceAtlas
