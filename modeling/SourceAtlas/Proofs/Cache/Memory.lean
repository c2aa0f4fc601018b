import Mathlib.Data.Set.Card
import SourceAtlas.Proofs.Cache.RoundTrip

/-!
A cache is a map with one snapshot. Whatever is done to it, in whatever order, its entries are those
of an abstract map, and its file keeps the map as it was when it was last saved.
-/
namespace SourceAtlas

namespace Disk

variable {d : Disk} {place : Place} {item : Item} {p : Path}

theorem find?_of_erase {q : Place} {i : Item} (hPlace : place ≠ []) (hFind : (d.erase place).find? q = some i) :
    d.find? q = some i := by
  rw [find?_erase hPlace] at hFind
  split at hFind
  · cases hFind
  · exact hFind

/-- Only the entry that was taken away is missing, for every other place has
what it had. -/
theorem eq_of_find?_erase {q : Place} {i : Item} (hPlace : place ≠ []) (hFind : d.find? q = some i)
    (hNone : (d.erase place).find? q = none) : q = place := by
  rw [find?_erase hPlace] at hNone
  split at hNone
  · next hEq => exact hEq
  · rw [hFind] at hNone
    cases hNone

/-- Once what a path ends at is taken away, the path leads to nothing, even
through a link. -/
theorem Leads.absent_of_erase {links : Nat} {here : Place} {names : List Text} {a : Arrival}
    (hLeads : Leads d false links here names (.found place item)) (hPlace : place ≠ [])
    (hErased : Leads (d.erase place) true links here names a) : a = .absent place := by
  have hGone : (d.erase place).find? place = none := by rw [find?_erase hPlace, if_pos rfl]
  generalize hArrival : Arrival.found place item = b at hLeads
  -- both walks take the same turns until one of them needs what is gone
  induction hLeads with
  | here hFind =>
      obtain ⟨rfl, rfl⟩ := Arrival.found.inj hArrival
      cases hErased with
      | here hFind' => rw [hGone] at hFind'; cases hFind'
  | absent => cases hArrival
  | up hDirectory hRest ih =>
      cases hErased with
      | up _ hRest' => exact ih hRest' hArrival
      | last _ _ _ _ hStop => cases hStop
      | absent _ hName _ _ => exact absurd rfl hName
      | link _ hName _ _ _ _ => exact absurd rfl hName
      | down _ hName _ _ _ _ => exact absurd rfl hName
  | last hDirectory hName hSize hFind hStop =>
      obtain ⟨rfl, rfl⟩ := Arrival.found.inj hArrival
      cases hErased with
      | up => exact absurd rfl hName
      | last _ _ _ _ hStop => cases hStop
      | absent => rfl
      | link _ _ _ hFind' _ _ => rw [hGone] at hFind'; cases hFind'
      | down _ _ _ hFind' _ _ => rw [hGone] at hFind'; cases hFind'
  | link hDirectory hName hSize hFind hGo hRest ih =>
      cases hErased with
      | up => exact absurd rfl hName
      | last _ _ _ _ hStop => cases hStop
      | absent => cases hGo rfl
      | link _ _ _ hFind' _ hRest' =>
          obtain rfl := Item.link.inj (Option.some.inj (hFind.symm.trans (find?_of_erase hPlace hFind')))
          exact ih hRest' hArrival
      | down _ _ _ hFind' hItem _ =>
          exact absurd (Option.some.inj (hFind.symm.trans (find?_of_erase hPlace hFind'))).symm (hItem _)
  | down hDirectory hName hSize hFind hItem hRest ih =>
      cases hErased with
      | up => exact absurd rfl hName
      | last _ _ _ _ hStop => cases hStop
      | absent _ _ _ hNone => rw [eq_of_find?_erase hPlace hFind hNone]
      | link _ _ _ hFind' _ _ =>
          exact absurd (Option.some.inj (hFind.symm.trans (find?_of_erase hPlace hFind'))) (hItem _)
      | down _ _ _ _ _ hRest' => exact ih hRest' hArrival

/-- Once the entry that an unfollowed path leads to is taken away, the path
leads to nothing, with links followed as well. -/
theorem locate_erase_ne_found (hEntry : d.entry false p = .ok (place, item)) (hPlace : place ≠ [])
    (q : Place) (i : Item) : (d.erase place).locate true p ≠ .ok (.found q i) := by
  intro hLocate
  have hLeads := (locate_eq_ok_iff.mp (entry_eq_ok_iff.mp hEntry)).2.2
  cases hLeads.absent_of_erase hPlace (locate_eq_ok_iff.mp hLocate).2.2

/-- Where a path has no entry of its own it does not lead to one. -/
theorem locate_ne_found (hEntry : ∀ e, d.entry false p ≠ .ok e) (q : Place) (i : Item) :
    d.locate true p ≠ .ok (.found q i) := by
  intro hLocate
  obtain ⟨place, item, hUnfollowed, -⟩ := locate_unfollowed hLocate
  exact hEntry _ (entry_eq_ok_iff.mpr hUnfollowed)

/-- A path whose own entry is a directory leads to no file. -/
theorem locate_ne_file (hEntry : d.entry false p = .ok (place, .directory)) (q : Place) (bytes : List UInt8)
    (mtime : Int) : d.locate true p ≠ .ok (.found q (.file bytes mtime)) := by
  intro hLocate
  obtain ⟨place', item, hUnfollowed, hSame⟩ := locate_unfollowed hLocate
  rw [entry_eq_ok_iff.mp hEntry] at hUnfollowed
  obtain ⟨rfl, rfl⟩ := Arrival.found.inj (Except.ok.inj hUnfollowed)
  rcases hSame with rfl | ⟨target, hLink⟩
  · have hDirectory := find?_of_locate (entry_eq_ok_iff.mp hEntry)
    rw [find?_of_locate hLocate] at hDirectory
    cases hDirectory
  · cases hLink

end Disk

namespace Cache

open SourceAtlas.Action

/-- What is remembered of a file: its record and the content
it was made from. -/
structure Binding where
  fingerprint : Fingerprint
  record : Record

/-- A map from paths to bindings, and the map as it was last saved. -/
structure Memory where
  current : Text → Option Binding
  kept : Option (Text → Option Binding)

/-- What can be done to a cache. Something may also happen
elsewhere in the world. -/
inductive Operation where
  | put (path : Path) (record : Record) (f : Fingerprint)
  | prune (keep : List Path)
  | clear
  | save
  | load
  | unchanged (path : Path) (f : Fingerprint)
  | get (path : Path) (f : Fingerprint)
  | elsewhere (change : World → World)

inductive Reply where
  | done
  | flag (b : Bool)
  | count (n : Nat)
  | found (record : Option Record)
  /-- The operation stopped with a failure. -/
  | stopped
  deriving DecidableEq

namespace Memory

/-- The memory after an operation. -/
def after (m : Memory) : Operation → Memory
  | .put path record f => { m with current := Function.update m.current path.text (some ⟨f, record⟩) }
  | .prune keep =>
    { m with current := fun key => if key ∈ keep.map Path.text then m.current key else none }
  | .clear => ⟨fun _ => none, none⟩
  | .save => { m with kept := some m.current }
  | .load => { m with current := m.kept.getD fun _ => none }
  | .unchanged _ _ => m
  | .get _ _ => m
  | .elsewhere _ => m

/-- The record that the memory has of a file with this fingerprint: it was
made from the same content, which was not older. -/
def Has (m : Memory) (path : Path) (f : Fingerprint) (record : Record) : Prop :=
  ∃ digest mtime, m.current path.text = some ⟨⟨digest, mtime⟩, record⟩ ∧ f.digest = digest ∧ f.mtime ≤ mtime

/-- The replies that an operation may give. -/
def Answers (m : Memory) : Operation → Reply → Prop
  | .put _ _ _, reply => reply = .done
  | .prune keep, reply => reply = .count {key | m.current key ≠ none ∧ key ∉ keep.map Path.text}.ncard
  | .clear, reply => m.kept ≠ none → reply = .flag true
  | .save, reply => reply = .done
  | .load, reply => reply = .flag true ↔ m.kept ≠ none
  | .unchanged path f, reply => ∃ same, reply = .flag same ∧ (same = true ↔ ∃ record, m.Has path f record)
  | .get path f, reply => ∃ found, reply = .found found ∧ ∀ record, found = some record ↔ m.Has path f record
  | .elsewhere _, reply => reply = .done

/-- The replies that operations may give one after the other. -/
def Answered : Memory → List Operation → List Reply → Prop
  | _, [], replies => replies = []
  | m, op :: ops, replies => ∃ reply rest, replies = reply :: rest ∧ m.Answers op reply ∧
      Answered (m.after op) ops rest

end Memory

/-- A cache and the world that its file is in. -/
structure State where
  cache : Cache
  world : World

namespace Operation

/-- What an operation does, with all fingerprints given. -/
def perform (c : Cache) : Operation → Action (Cache × Reply)
  | .put path record f => do return (← c.remember path record (some f), .done)
  | .prune keep => do
    let (c, count) ← c.prune keep
    return (c, .count count)
  | .clear => do return (c.emptied, .flag (← c.remove))
  | .save => do return (← c.save, .done)
  | .load => do
    let (c, found) ← c.load
    return (c, .flag found)
  | .unchanged path f => do return (c, .flag (← c.lookUp path (some f)).isSome)
  | .get path f => do return (c, .found ((← c.lookUp path (some f)).map CacheEntry.record))
  | .elsewhere change => do
    modify change
    return (c, .done)

/-- The cache that is left when an operation stops. -/
def left (c : Cache) : Operation → Cache
  | .clear => c.emptied
  | .load => c.forgotten
  | _ => c

def step (op : Operation) (s : State) : Reply × State :=
  match (op.perform s.cache).on s.world with
  | (.ok (c, reply), w) => (reply, ⟨c, w⟩)
  | (.error _, w) => (.stopped, ⟨op.left s.cache, w⟩)

/-- Saving succeeds on a straight path, what is loaded can be opened, and
nothing else touches the file of the cache. -/
def Fair (s : State) : Operation → Prop
  | .save => (∃ c w, s.cache.save.on s.world = (.ok c, w)) ∧
      (s.cache.prepared s.world).disk.Straight ((s.cache.prepared s.world).here.join s.cache.file)
  | .load => s.world.OpenAt (s.world.here.join s.cache.file).text
  | .elsewhere change => (change s.world).disk.locate true ((change s.world).here.join s.cache.file) =
      s.world.disk.locate true (s.world.here.join s.cache.file)
  | _ => True

end Operation

namespace State

/-- Operations one after the other: their replies and the state
after all of them. -/
def run : State → List Operation → List Reply × State
  | s, [] => ([], s)
  | s, op :: ops =>
    let (reply, s) := op.step s
    let (replies, s) := run s ops
    (reply :: replies, s)

/-- Each operation is fair when it is its turn. -/
def AllFair : State → List Operation → Prop
  | _, [] => True
  | s, op :: ops => op.Fair s ∧ AllFair (op.step s).2 ops

end State

def bindings (entries : Assoc Text CacheEntry) (key : Text) : Option Binding :=
  (Assoc.get? key entries).map fun e => ⟨⟨e.digest, e.mtime⟩, e.record⟩

/-- The entries that the file of a cache keeps, if it can be used. -/
def keeps? (c : Cache) (w : World) : Option (Assoc Text CacheEntry) :=
  match w.disk.locate true (w.here.join c.file) with
  | .ok (.found _ (.file bytes _)) =>
    match c.readBytes bytes with
    | .usable doc => some (c.ofDocument doc).entries
    | _ => none
  | _ => none

def State.memory (s : State) : Memory := ⟨bindings s.cache.entries, (s.cache.keeps? s.world).map bindings⟩

/-- What the file of a cache keeps depends on the cache by its file name and
version only, and on the world by what the file name leads to. -/
theorem keeps?_congr {c c' : Cache} {w w' : World} (hFile : c'.file = c.file)
    (hVersion : c'.version = c.version)
    (hLocate : w'.disk.locate true (w'.here.join c.file) = w.disk.locate true (w.here.join c.file)) :
    c'.keeps? w' = c.keeps? w := by
  have hRead (bytes : List UInt8) : c'.readBytes bytes = c.readBytes bytes := by
    rw [readBytes, readBytes, hFile, hVersion]
  rw [keeps?, keeps?, hFile, hLocate]
  simp only [hRead]
  rfl

theorem keeps?_looked {c : Cache} {w w' : World} (hLooked : w.Looked w') : c.keeps? w' = c.keeps? w :=
  keeps?_congr rfl rfl (by rw [hLooked.disk, hLooked.here])

/-- A cache whose file name leads to no file keeps nothing. -/
theorem keeps?_of_no_file {c : Cache} {w : World}
    (hNone : ∀ place bytes mtime, w.disk.locate true (w.here.join c.file) ≠ .ok (.found place (.file bytes mtime))) :
    c.keeps? w = none := by
  rw [keeps?]
  split
  · next place bytes mtime hLocate => exact absurd hLocate (hNone place bytes mtime)
  · rfl

section Entries

variable {c : Cache}

theorem bindings_nil : bindings [] = fun _ => none := rfl

theorem Keyed.emptied (c : Cache) : c.emptied.Keyed := ⟨by simp [Cache.emptied], by simp [Cache.emptied]⟩

/-- Putting a record into a cache binds the text of its path and leaves
every other binding alone. -/
theorem bindings_put (path : Path) (record : Record) (f : Fingerprint) :
    bindings (c.put path record f).entries =
      Function.update (bindings c.entries) path.text (some ⟨f, record⟩) := by
  funext key
  by_cases hKey : key = path.text
  · subst hKey
    rw [Function.update_self, bindings, Cache.put, Assoc.get?_put_self]
    rfl
  · rw [Function.update_of_ne hKey, bindings, bindings, Cache.put, Assoc.get?_put_of_ne hKey]

/-- Putting a record in keeps the keys distinct, since an entry of the same
key is replaced. -/
theorem Keyed.put (hKeyed : c.Keyed) (path : Path) (record : Record) (f : Fingerprint) :
    (c.put path record f).Keyed where
  path p hp := by
    rcases Assoc.mem_put hp with rfl | hp
    · rfl
    · exact hKeyed.path p hp
  nodup := Assoc.nodup_put hKeyed.nodup _ _

/-- Keeping some paths only forgets the binding of every text that is none
of theirs, and touches no other. -/
theorem bindings_keepOnly (keep : List Path) (key : Text) :
    bindings (c.keepOnly keep).entries key =
      if key ∈ keep.map Path.text then bindings c.entries key else none := by
  rw [bindings, keepOnly, Assoc.get?_filter, bindings]
  by_cases hKeep : key ∈ keep.map Path.text
  · simp [hKeep]
  · simp [hKeep]

theorem Keyed.keepOnly (hKeyed : c.Keyed) (keep : List Path) : (c.keepOnly keep).Keyed where
  path p hp := hKeyed.path p (List.mem_filter.mp hp).1
  nodup := hKeyed.nodup.sublist (List.filter_sublist.map Prod.fst)

theorem bindings_ne_none_iff {entries : Assoc Text CacheEntry} {key : Text} :
    bindings entries key ≠ none ↔ key ∈ entries.map Prod.fst := by
  rw [bindings, Ne, Option.map_eq_none_iff, Assoc.get?_eq_none_iff, not_not]

/-- As many entries are pruned as there are keys outside those to keep, no
key being counted twice. -/
theorem Keyed.staleCount_eq (hKeyed : c.Keyed) (keep : List Path) :
    c.staleCount keep = {key | bindings c.entries key ≠ none ∧ key ∉ keep.map Path.text}.ncard := by
  have hStale : {key | bindings c.entries key ≠ none ∧ key ∉ keep.map Path.text} =
      (((c.entries.map Prod.fst).filter fun key => !(keep.map Path.text).contains key).toFinset : Set Text) := by
    ext key
    simp only [Set.mem_ofPred_eq, bindings_ne_none_iff, List.coe_toFinset, List.mem_filter]
    simp
  rw [hStale, Set.ncard_coe_finset, List.toFinset_card_of_nodup (hKeyed.nodup.filter _), List.filter_map,
    List.length_map, staleCount, Cache.keepOnly]
  have hLength := List.length_eq_length_filter_add (l := c.entries) fun p => (keep.map Path.text).contains p.1
  simp only [Function.comp_def]
  omega

/-- Looking a record up with a fingerprint at hand reads nothing of the
world and leaves it as it was. -/
theorem lookUp_on (c : Cache) (path : Path) (f : Fingerprint) (w : World) :
    (c.lookUp path (some f)).on w = (.ok (c.current? path f), w) := by
  rw [lookUp]
  cases hGet : Assoc.get? path.text c.entries with
  | none =>
      simp only [Assoc.has, hGet, Cache.current?]
      rfl
  | some e =>
      simp only [Assoc.has, hGet]
      rfl

/-- The entry of an unchanged file is the binding that fits its fingerprint:
it has the digest, and a time that is not earlier. -/
theorem current?_eq_some {path : Path} {f : Fingerprint} {record : Record} (kept : Option (Text → Option Binding)) :
    (c.current? path f).map CacheEntry.record = some record ↔
      (Memory.mk (bindings c.entries) kept).Has path f record := by
  simp only [Cache.current?, Memory.Has, bindings]
  cases hGet : Assoc.get? path.text c.entries with
  | none => simp
  | some e =>
      simp only [Option.map_some, Option.some.injEq, Binding.mk.injEq, Fingerprint.mk.injEq,
        CacheEntry.isCurrent]
      by_cases hCurrent : f.mtime ≤ e.mtime ∧ f.digest = e.digest
      · simp [hCurrent]
      · simp only [← Bool.decide_and, decide_eq_true_eq, if_neg hCurrent]
        constructor
        · intro hFound
          cases hFound
        · rintro ⟨digest, mtime, ⟨⟨rfl, rfl⟩, -⟩, hDigest, hTime⟩
          exact absurd ⟨hTime, hDigest⟩ hCurrent

end Entries

section File

variable {c : Cache} {w : World}

/-- Removing that is refused changes nothing, and the failure is passed on. -/
theorem remove_refused {f : Failure} (hRefused : (removeFile c.file).on w = (.error f, w)) :
    ∃ result, c.remove.on w = (result, w) := by
  have hAttempt := on_attempt (removeFile c.file) w
  rw [hRefused] at hAttempt
  cases f with
  | system e =>
      rw [remove, on_bind_ok hAttempt]
      dsimp only
      split
      · exact ⟨_, rfl⟩
      · exact ⟨_, rfl⟩
  | _ =>
      rw [remove, on_bind_error hAttempt]
      exact ⟨_, rfl⟩

/-- After removing, the file of a cache keeps nothing. If it kept something
before, it was there. -/
theorem remove_on (c : Cache) (w : World) : ∃ result w', c.remove.on w = (result, w') ∧
    c.keeps? w' = none ∧ (c.keeps? w ≠ none → result = .ok true) := by
  have hRemove := removeFile_on c.file w
  rcases hEntry : w.disk.entry false (w.here.join c.file) with r | ⟨place, item⟩
  · obtain ⟨f, hRefuse⟩ := refuseBy_on r c.file w (α := Unit)
    rw [hEntry] at hRemove
    obtain ⟨result, hResult⟩ := remove_refused (hRemove.trans hRefuse)
    have hNone : c.keeps? w = none := keeps?_of_no_file fun q bytes mtime =>
      Disk.locate_ne_found (fun e hOk => by rw [hEntry] at hOk; cases hOk) q _
    exact ⟨result, w, hResult, hNone, fun hKeeps => absurd hNone hKeeps⟩
  · have hGone (hItem : item ≠ .directory)
        (hErase : (removeFile c.file).on w = (.ok (), { w with disk := w.disk.erase place })) :
        ∃ result w', c.remove.on w = (result, w') ∧ c.keeps? w' = none ∧
          (c.keeps? w ≠ none → result = .ok true) := by
      have hPlace : place ≠ [] := by
        rintro rfl
        exact hItem (Option.some.inj (Disk.find?_of_locate (Disk.entry_eq_ok_iff.mp hEntry))).symm
      have hAttempt := on_attempt (removeFile c.file) w
      rw [hErase] at hAttempt
      have hLog := looks_log .info .caching ("Removed cache " ++ c.file.text)
        { w with disk := w.disk.erase place }
      refine ⟨_, _, by rw [remove, on_bind_ok hAttempt]; rfl, ?_, fun _ => rfl⟩
      refine (keeps?_looked hLog).trans (keeps?_of_no_file fun q bytes mtime => ?_)
      exact Disk.locate_erase_ne_found hEntry hPlace q _
    rw [hEntry] at hRemove
    cases item with
    | directory =>
        obtain ⟨result, hResult⟩ := remove_refused hRemove
        have hNone : c.keeps? w = none := keeps?_of_no_file (Disk.locate_ne_file hEntry)
        exact ⟨result, w, hResult, hNone, fun hKeeps => absurd hNone hKeeps⟩
    | file bytes mtime => exact hGone (by simp) hRemove
    | link target => exact hGone (by simp) hRemove

/-- After saving, the file keeps the bindings of the cache, which is what
loading gives back. -/
theorem save_keeps {c' : Cache} {w' : World} (hKeyed : c.Keyed) (hSave : c.save.on w = (.ok c', w'))
    (hStraight : (c.prepared w).disk.Straight ((c.prepared w).here.join c.file)) :
    (∃ time, c' = { c with createdAt := time }) ∧
      (c.keeps? w').map bindings = some (bindings c.entries) := by
  obtain ⟨time, text, place, hText, hLocate, rfl⟩ := save_located hSave hStraight
  have hSorted := Assoc.sorted_keys hKeyed.nodup
  have hEntries : (c.ofDocument (c.toDocument time)).entries = Assoc.sorted c.entries := by
    rw [ofDocument, hKeyed.toDocument_entries, Assoc.ofPairs_of_nodup (hSorted.imp ne_of_lt)]
  have hKeeps : c.keeps? w' = some (Assoc.sorted c.entries) := by
    rw [keeps?, hLocate]
    dsimp only
    rw [readBytes_document hText, if_pos (show (c.toDocument time).version = c.version from rfl)]
    exact congrArg some hEntries
  refine ⟨⟨_, rfl⟩, ?_⟩
  rw [hKeeps, Option.map_some]
  congr 1
  funext key
  rw [bindings, bindings, Assoc.get?_perm (show (Assoc.sorted c.entries).Perm c.entries from
    Sorting.sort_perm _ _) (hSorted.imp ne_of_lt)]

/-- What a cache keeps in a file are the entries of the document read from
its bytes, if the document can be read and has the version of the cache. -/
theorem keeps?_on_file {place : Place} {bytes : List UInt8} {mtime : Int}
    (hLocate : w.disk.locate true (w.here.join c.file) = .ok (.found place (.file bytes mtime))) :
    c.keeps? w = match c.readBytes bytes with
      | .usable doc => some (c.ofDocument doc).entries
      | _ => none := by
  rw [keeps?, hLocate]

/-- A cache made from a document is keyed, whatever the document repeats: a
later entry of a key takes the place of an earlier one. -/
theorem Keyed.ofDocument (c : Cache) (doc : CacheDocument) : (c.ofDocument doc).Keyed where
  path p hp := by
    obtain ⟨e, -, rfl⟩ := List.mem_map.mp (Assoc.mem_ofPairs hp)
    rfl
  nodup := Assoc.nodup_ofPairs _

end File

/-- An operation does to the cache what it does to the memory. -/
structure Refines (op : Operation) (s : State) : Prop where
  memory : (op.step s).2.memory = s.memory.after op
  answers : s.memory.Answers op (op.step s).1
  keyed : (op.step s).2.cache.Keyed

section Steps

variable {s : State} {op : Operation}

/-- An operation that gives a reply refines the memory if its reply
is one that the memory may give and if its cache and file stand for
the memory after it. -/
theorem Refines.of_result {c : Cache} (reply : Reply) {w : World}
    (hPerform : (op.perform s.cache).on s.world = (.ok (c, reply), w))
    (hFile : c.file = s.cache.file) (hVersion : c.version = s.cache.version)
    (hCurrent : bindings c.entries = (s.memory.after op).current)
    (hKept : (s.cache.keeps? w).map bindings = (s.memory.after op).kept)
    (hAnswers : s.memory.Answers op reply) (hKeyed : c.Keyed) : Refines op s := by
  have hStep : op.step s = (reply, ⟨c, w⟩) := by rw [Operation.step, hPerform]
  constructor
  · rw [hStep, State.memory, hCurrent, keeps?_congr hFile hVersion rfl, hKept]
  · rw [hStep]
    exact hAnswers
  · rw [hStep]
    exact hKeyed

/-- An operation that stops refines the memory as well, by the cache that is
left and the file as it is then. -/
theorem Refines.of_failure {f : Failure} {w : World}
    (hPerform : (op.perform s.cache).on s.world = (.error f, w))
    (hCurrent : bindings (op.left s.cache).entries = (s.memory.after op).current)
    (hKept : (s.cache.keeps? w).map bindings = (s.memory.after op).kept)
    (hAnswers : s.memory.Answers op .stopped) (hKeyed : (op.left s.cache).Keyed) : Refines op s := by
  have hStep : op.step s = (.stopped, ⟨op.left s.cache, w⟩) := by rw [Operation.step, hPerform]
  have hFile : (op.left s.cache).file = s.cache.file := by cases op <;> rfl
  have hVersion : (op.left s.cache).version = s.cache.version := by cases op <;> rfl
  constructor
  · rw [hStep, State.memory, hCurrent, keeps?_congr hFile hVersion rfl, hKept]
  · rw [hStep]
    exact hAnswers
  · rw [hStep]
    exact hKeyed

/-- Putting a record in does to the bindings of the cache what it does to
the memory, and touches no file. -/
theorem put_refines (hKeyed : s.cache.Keyed) (path : Path) (record : Record) (f : Fingerprint) :
    Refines (.put path record f) s := by
  apply Refines.of_result .done (c := s.cache.put path record f) (w := s.world) rfl rfl rfl
  · exact bindings_put path record f
  · rfl
  · rfl
  · exact hKeyed.put path record f

/-- Pruning forgets in the cache what it forgets in the memory,
and touches no file. -/
theorem prune_refines (hKeyed : s.cache.Keyed) (keep : List Path) : Refines (.prune keep) s := by
  obtain ⟨w, hLooked, hPrune⟩ := s.cache.prune_on keep s.world
  have hPerform : ((Operation.prune keep).perform s.cache).on s.world =
      (.ok (s.cache.keepOnly keep, .count (s.cache.staleCount keep)), w) := by
    rw [Operation.perform, on_bind_ok hPrune]
    rfl
  apply Refines.of_result (.count (s.cache.staleCount keep)) hPerform rfl rfl
  · funext key
    exact bindings_keepOnly keep key
  · rw [keeps?_looked hLooked]
    rfl
  · exact congrArg Reply.count (hKeyed.staleCount_eq keep)
  · exact hKeyed.keepOnly keep

/-- Clearing forgets what is in the cache and what its file keeps. -/
theorem clear_refines (s : State) : Refines .clear s := by
  obtain ⟨result, w, hRemove, hNone, hThere⟩ := s.cache.remove_on s.world
  have hKept : (s.cache.keeps? w).map bindings = none := by
    rw [hNone]
    rfl
  have hKeeps : s.memory.kept ≠ none → result = .ok true := by
    intro hSome
    apply hThere
    intro hEmpty
    exact hSome (by rw [State.memory, hEmpty]; rfl)
  cases result with
  | error f =>
      apply Refines.of_failure (f := f) (w := w)
      · rw [Operation.perform, on_bind_error hRemove]
      · rfl
      · exact hKept
      · intro hSome
        cases hKeeps hSome
      · exact Keyed.emptied s.cache
  | ok there =>
      apply Refines.of_result (.flag there) (c := s.cache.emptied) (w := w)
      · rw [Operation.perform, on_bind_ok hRemove]
        rfl
      · rfl
      · rfl
      · rfl
      · exact hKept
      · intro hSome
        rw [Except.ok.inj (hKeeps hSome)]
      · exact Keyed.emptied s.cache

/-- A fair save leaves a file that keeps just the bindings of the cache, for
loading what was written gives the entries back. -/
theorem save_refines (hKeyed : s.cache.Keyed) (hFair : Operation.save.Fair s) : Refines .save s := by
  obtain ⟨⟨c, w, hSave⟩, hStraight⟩ := hFair
  obtain ⟨⟨time, rfl⟩, hKept⟩ := save_keeps hKeyed hSave hStraight
  apply Refines.of_result .done (c := { s.cache with createdAt := time }) (w := w)
  · rw [Operation.perform, on_bind_ok hSave]
    rfl
  · rfl
  · rfl
  · rfl
  · exact hKept
  · rfl
  · exact ⟨hKeyed.path, hKeyed.nodup⟩

/-- Loading refines if it gives the entries that the file keeps, and none
where it keeps none. -/
theorem load_refines_of {c : Cache} {found : Bool} {w : World} (hLoad : s.cache.load.on s.world = (.ok (c, found), w))
    (hFile : c.file = s.cache.file) (hVersion : c.version = s.cache.version) (hKeyed : c.Keyed)
    (hKept : s.cache.keeps? s.world = if found then some c.entries else none)
    (hEntries : found = false → c.entries = []) : Refines .load s := by
  have hLooked := looks_load s.cache s.world
  rw [hLoad] at hLooked
  apply Refines.of_result (.flag found) (c := c) (w := w)
  · rw [Operation.perform, on_bind_ok hLoad]
    rfl
  · exact hFile
  · exact hVersion
  · cases found with
    | true => simp [Memory.after, State.memory, hKept]
    | false => simp [Memory.after, State.memory, hKept, hEntries, bindings_nil]
  · rw [keeps?_looked hLooked]
    rfl
  · cases found with
    | true => simp [Memory.Answers, State.memory, hKept]
    | false => simp [Memory.Answers, State.memory, hKept]
  · exact hKeyed

theorem forgotten_keyed (c : Cache) : c.forgotten.Keyed := ⟨by simp [forgotten], by simp [forgotten]⟩

/-- Where the path of the file cannot even be asked about, no
file was ever saved. -/
theorem load_refines_of_error {e : Errno} (hTest : s.world.disk.isFile (s.world.here.join s.cache.file) = .error e) :
    Refines .load s := by
  have hNone : s.cache.keeps? s.world = none := by
    rw [keeps?, (Disk.test_eq_error_iff.mp hTest).2]
  apply Refines.of_failure (f := .system ⟨e, s.cache.file.text, none⟩) (w := s.world)
  · rw [Operation.perform, on_bind_error (load_on_error hTest)]
  · simp [Memory.after, State.memory, hNone, Operation.left, forgotten, bindings_nil]
  · rfl
  · simp [Memory.Answers, State.memory, hNone]
  · exact forgotten_keyed s.cache

/-- Where there is no file to load, the cache comes to be empty, as the
memory does that was never saved. -/
theorem load_refines_of_absent (hTest : s.world.disk.isFile (s.world.here.join s.cache.file) = .ok false) :
    Refines .load s := by
  have hNone : s.cache.keeps? s.world = none := by
    apply keeps?_of_no_file
    intro place bytes mtime hLocate
    rw [Disk.isFile, Disk.test_of_locate hLocate] at hTest
    cases hTest
  obtain ⟨w, hLoad⟩ := load_on_absent hTest
  exact load_refines_of hLoad rfl rfl (forgotten_keyed s.cache) hNone fun _ => rfl

/-- A fair load replaces the bindings of the cache by those that its file
keeps, or by none when the file cannot be used. -/
theorem load_refines (hFair : Operation.load.Fair s) : Refines .load s := by
  rcases hTest : s.world.disk.isFile (s.world.here.join s.cache.file) with e | b
  · exact load_refines_of_error hTest
  · cases b with
    | true =>
        obtain ⟨place, bytes, mtime, hLocate⟩ := Disk.found_of_isFile hTest
        obtain ⟨w, hLoad⟩ := load_on_file hFair hLocate
        have hKept := keeps?_on_file hLocate
        have hForgotten := forgotten_keyed s.cache
        rcases hRead : s.cache.readBytes bytes with doc | message | message <;> rw [hRead] at hLoad hKept
        · exact load_refines_of hLoad rfl rfl (Keyed.ofDocument _ doc) hKept nofun
        · exact load_refines_of hLoad rfl rfl hForgotten hKept fun _ => rfl
        · exact load_refines_of hLoad rfl rfl ⟨hForgotten.path, hForgotten.nodup⟩ hKept fun _ => rfl
    | false => exact load_refines_of_absent hTest

/-- Whether a file is unchanged is answered by its fingerprint against the
binding of its path. -/
theorem unchanged_refines (hKeyed : s.cache.Keyed) (path : Path) (f : Fingerprint) :
    Refines (.unchanged path f) s := by
  apply Refines.of_result (.flag (s.cache.current? path f).isSome) (c := s.cache) (w := s.world)
  · rw [Operation.perform, on_bind_ok (s.cache.lookUp_on path f s.world)]
    rfl
  · rfl
  · rfl
  · rfl
  · rfl
  · refine ⟨_, rfl, ?_⟩
    rw [← Option.isSome_map (f := CacheEntry.record), Option.isSome_iff_exists]
    exact exists_congr fun record => current?_eq_some _
  · exact hKeyed

/-- The record that is given for a path is the one bound to it, if the
fingerprints agree. -/
theorem get_refines (hKeyed : s.cache.Keyed) (path : Path) (f : Fingerprint) : Refines (.get path f) s := by
  apply Refines.of_result (.found ((s.cache.current? path f).map CacheEntry.record)) (c := s.cache)
    (w := s.world)
  · rw [Operation.perform, on_bind_ok (s.cache.lookUp_on path f s.world)]
    rfl
  · rfl
  · rfl
  · rfl
  · rfl
  · exact ⟨_, rfl, fun record => current?_eq_some _⟩
  · exact hKeyed

/-- A change elsewhere in the world that leaves the file of the cache alone
changes nothing that is remembered. -/
theorem elsewhere_refines (hKeyed : s.cache.Keyed) {change : World → World}
    (hFair : (Operation.elsewhere change).Fair s) : Refines (.elsewhere change) s := by
  apply Refines.of_result .done (c := s.cache) (w := change s.world) rfl rfl rfl
  · rfl
  · rw [keeps?_congr rfl rfl hFair]
    rfl
  · rfl
  · exact hKeyed

/-- One operation on a keyed cache, if it is fair at its turn, does to the
memory what the memory's own operation does, and its reply is one that the
memory may give. -/
theorem step_refines (hKeyed : s.cache.Keyed) (hFair : op.Fair s) : Refines op s := by
  cases op with
  | put path record f => exact put_refines hKeyed path record f
  | prune keep => exact prune_refines hKeyed keep
  | clear => exact clear_refines s
  | save => exact save_refines hKeyed hFair
  | load => exact load_refines hFair
  | unchanged path f => exact unchanged_refines hKeyed path f
  | get path f => exact get_refines hKeyed path f
  | elsewhere change => exact elsewhere_refines hKeyed hFair

end Steps

/-- Whatever is done to a cache, its entries and its file are those of
the abstract map, the replies are the map's, and every entry stands
under its own path. -/
theorem cache_refines_map {s : State} {ops : List Operation} (hKeyed : s.cache.Keyed)
    (hFair : s.AllFair ops) :
    (s.run ops).2.memory = ops.foldl Memory.after s.memory ∧ s.memory.Answered ops (s.run ops).1 ∧
      (s.run ops).2.cache.Keyed := by
  induction ops generalizing s with
  | nil => exact ⟨rfl, rfl, hKeyed⟩
  | cons op ops ih =>
      have hStep := step_refines hKeyed hFair.1
      obtain ⟨hMemory, hAnswered, hAfter⟩ := ih hStep.keyed hFair.2
      rw [hStep.memory] at hMemory hAnswered
      exact ⟨hMemory, ⟨_, _, rfl, hStep.answers, hAnswered⟩, hAfter⟩

namespace Sample

def first : Path := ⟨.none, ["a"]⟩

def second : Path := ⟨.root, ["c"]⟩

def content : Fingerprint := ⟨"d", 7⟩

theorem openAt_of_locks {w : World} (hLocks : w.locks.isEmpty = true) (key : Text) : w.OpenAt key := by
  intro n hLock
  rw [List.isEmpty_iff.mp hLocks] at hLock
  cases hLock

def visited : State := ⟨kept, before⟩

/-- One entry is saved; another takes its place, but only until
the file is loaded. -/
def errands : List Operation := [
  .put first (recordOf "a") content, .save, .put second (recordOf "c") content, .prune [second], .load,
  .get first ⟨"d", 6⟩]

/-- The first entry alone can be saved in the sample's world, so that the
file is there to be loaded. -/
theorem first_saved :
    passes (fun _ _ => true) ((kept.put first (recordOf "a") content).save.on before) = true := by
  decide +kernel

/-- Every errand is fair at its turn: the file can be written where it
stands, and it is opened when it is loaded. -/
theorem errands_fair : visited.AllFair errands := by
  have hSave : Operation.save.Fair ⟨kept.put first (recordOf "a") content, before⟩ := by
    obtain ⟨c, w, hSave, -⟩ := exists_of_passes first_saved
    exact ⟨⟨c, w, hSave⟩, kept_straight⟩
  refine ⟨trivial, ?_, trivial, trivial, ?_, trivial, trivial⟩
  · exact hSave
  · apply openAt_of_locks
    decide +kernel

/-- What was saved comes back with all that was there before, and what was
not saved is gone. -/
theorem errands_refined : visited.cache.Keyed ∧ visited.AllFair errands ∧
    visited.memory.Answered errands (visited.run errands).1 ∧ (visited.run errands).2.cache.Keyed ∧
    (visited.run errands).2.memory.current "a" = some ⟨content, recordOf "a"⟩ ∧
    (visited.run errands).2.memory.current "/c" = none := by
  obtain ⟨hMemory, hAnswered, hKeyed⟩ := cache_refines_map kept_keyed errands_fair
  refine ⟨kept_keyed, errands_fair, hAnswered, hKeyed, ?_, ?_⟩
  · rw [hMemory]
    rfl
  · rw [hMemory]
    rfl

/-- A lock that refuses once. -/
def locking (w : World) : World := { w with locks := [("/p/loop/kept", 1)] }

def crookedErrands : List Operation := [.put first (recordOf "a") content, .save, .load]

def lockedErrands : List Operation := [.put first (recordOf "a") content, .save, .elsewhere locking, .load]

theorem current_of_empty {s : State} (hEmpty : s.cache.entries.isEmpty = true) (key : Text) :
    s.memory.current key = none := by
  show bindings s.cache.entries key = none
  rw [List.isEmpty_iff.mp hEmpty, bindings_nil]

/-- Saving replaces the link that the path of the first cache goes through,
and a lock keeps the file of the second from being read: what was saved does
not come back. -/
theorem saved_entries_lost :
    (crooked.Keyed ∧ (State.run ⟨crooked, before⟩ crookedErrands).1 = [.done, .done, .flag false] ∧
      (State.run ⟨crooked, before⟩ crookedErrands).2.memory.current "a" = none ∧
      (crookedErrands.foldl Memory.after (State.memory ⟨crooked, before⟩)).current "a" =
        some ⟨content, recordOf "a"⟩) ∧
    kept.Keyed ∧ (visited.run lockedErrands).1 = [.done, .done, .done, .flag false] ∧
      (visited.run lockedErrands).2.memory.current "a" = none ∧
      (lockedErrands.foldl Memory.after visited.memory).current "a" = some ⟨content, recordOf "a"⟩ := by
  refine ⟨⟨⟨by decide, by decide⟩, by decide +kernel, ?_, rfl⟩, kept_keyed, by decide +kernel, ?_, rfl⟩
  · apply current_of_empty
    decide +kernel
  · apply current_of_empty
    decide +kernel

end Sample

end Cache

end SourceAtlas
