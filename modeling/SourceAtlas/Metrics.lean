import SourceAtlas.Cycle
import SourceAtlas.Record.Document

/-!
Figures of a project: sizes, roles, and how strongly files hang together.
-/
namespace SourceAtlas

open Number Schema

structure FileSize where
  path : Text
  lines : Int
  deriving DecidableEq, Repr

structure Metrics where
  averageFunctions : Double := .zero false
  averageLines : Double := .zero false
  largestFiles : List FileSize := []
  roleCounts : Assoc Text Int := []
  fanIn : Assoc Text Int := []
  fanOut : Assoc Text Int := []
  mostImported : List Text := []
  deriving DecidableEq, Repr

namespace Metrics

/-- How often each name occurs, in order of first occurrence. -/
def counts (names : List Text) : Assoc Text Int :=
  names.foldl (fun m n => Assoc.update n 0 (· + 1) m) []

def fanInOf (edges : List Edge) : Assoc Text Int := counts (edges.map Edge.target)

def fanOutOf (edges : List Edge) : Assoc Text Int := counts (edges.map Edge.source)

/-- The first members of a list. A negative count leaves so
many out at the end. -/
def takeTop {α : Type} (count : Int) (xs : List α) : List α :=
  if 0 ≤ count then xs.take count.toNat else xs.take (xs.length - count.natAbs)

/-- Greater figures first, then by name. -/
def ranksBefore (a b : Int × Text) : Bool :=
  if a.1 = b.1 then !(decide (b.2 < a.2)) else b.1 < a.1

def totalLines (records : List Record) : Int := records.foldr (fun r n => r.lineCount + n) 0

def totalFunctions (records : List Record) : Nat :=
  records.foldr (fun r n => r.functions.length + n) 0

def totalClasses (records : List Record) : Nat :=
  records.foldr (fun r n => r.classes.length + n) 0

/-- The figures of records and the graph over them. -/
def ofRecords (records : List Record) (g : DependencyGraph) (top : Int) : Metrics :=
  let bySize := Sorting.sort (fun a b =>
    ranksBefore (a.lineCount, a.relativePath) (b.lineCount, b.relativePath)) records
  let fanIn := fanInOf g.edges
  let byFanIn := Sorting.sort (fun a b => ranksBefore (a.2, a.1) (b.2, b.1)) fanIn
  { averageFunctions := Double.average (totalFunctions records) records.length
    averageLines := Double.average (totalLines records) records.length
    largestFiles := (takeTop top bySize).map fun r => ⟨r.relativePath, r.lineCount⟩
    roleCounts := Assoc.sorted (counts (records.map fun r => r.role.word))
    fanIn := Assoc.sorted fanIn
    fanOut := Assoc.sorted (fanOutOf g.edges)
    mostImported := takeTop top (Assoc.keys byFanIn) }

def figures (m : Assoc Text Int) : Datum := .table (m.map fun p => (p.1, .int p.2))

def toDatum (m : Metrics) : Datum := .table [
  ("average_functions_per_file", .float m.averageFunctions),
  ("average_lines_per_file", .float m.averageLines),
  ("largest_files", .list (m.largestFiles.map fun f =>
    .table [("path", .text f.path), ("lines", .int f.lines)])),
  ("role_counts", figures m.roleCounts),
  ("fan_in", figures m.fanIn),
  ("fan_out", figures m.fanOut),
  ("most_imported", Datum.texts m.mostImported)]

def readFileSize : Reader FileSize := Reader.shape fun fs =>
  FileSize.mk <$> required "path" Reader.text fs <*> required "lines" Reader.integer fs

def read : Reader Metrics := Reader.shape fun fs =>
  Metrics.mk <$> field "average_functions_per_file" (.zero false) Reader.number fs
    <*> field "average_lines_per_file" (.zero false) Reader.number fs
    <*> field "largest_files" [] (Reader.list readFileSize) fs
    <*> field "role_counts" [] (Reader.map Reader.integer) fs
    <*> field "fan_in" [] (Reader.map Reader.integer) fs
    <*> field "fan_out" [] (Reader.map Reader.integer) fs
    <*> field "most_imported" [] (Reader.list Reader.text) fs

end Metrics

end SourceAtlas
