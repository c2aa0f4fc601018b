import SourceAtlas.Inventory
import SourceAtlas.Metrics

/-!
The report of an analysis: all records with the graph, the cycles and the figures over them.
-/
namespace SourceAtlas

open Schema

/-- Where a problem came up that the analysis went on from. -/
inductive WarningKind where
  | scan | extraction | cache
  deriving DecidableEq, Repr

namespace WarningKind

def all : List WarningKind := [scan, extraction, cache]

def word : WarningKind → Text
  | scan => "scan"
  | extraction => "extraction"
  | cache => "cache"

/-- The word as headings show it. -/
def heading : WarningKind → Text
  | scan => "SCAN"
  | extraction => "EXTRACTION"
  | cache => "CACHE"

end WarningKind

structure Warning where
  kind : WarningKind
  message : Text
  path : Option Text := none
  deriving DecidableEq, Repr

structure CacheUse where
  enabled : Bool
  hits : Int := 0
  misses : Int := 0
  deriving DecidableEq, Repr

structure Summary where
  totalFiles : Int
  totalLines : Int
  totalFunctions : Int
  totalClasses : Int
  cacheEnabled : Bool
  cacheHits : Int := 0
  cacheMisses : Int := 0
  errorCycles : Int := 0
  warningCycles : Int := 0
  warningCount : Int := 0
  healthy : Bool := true
  deriving DecidableEq, Repr

namespace Summary

/-- The headline counts. A project without cycles and warnings is healthy. -/
def ofParts (records : List Record) (cycles : List Cycle) (warnings : List Warning)
    (use : CacheUse) : Summary :=
  let errors := (cycles.filter fun c => c.severity = .error).length
  { totalFiles := records.length
    totalLines := Metrics.totalLines records
    totalFunctions := Metrics.totalFunctions records
    totalClasses := Metrics.totalClasses records
    cacheEnabled := use.enabled
    cacheHits := use.hits
    cacheMisses := use.misses
    errorCycles := errors
    warningCycles := cycles.length - errors
    warningCount := warnings.length
    healthy := cycles.isEmpty && warnings.isEmpty }

def toDatum (s : Summary) : Datum := .table [
  ("total_files", .int s.totalFiles),
  ("total_lines", .int s.totalLines),
  ("total_functions", .int s.totalFunctions),
  ("total_classes", .int s.totalClasses),
  ("cache_enabled", .bool s.cacheEnabled),
  ("cache_hits", .int s.cacheHits),
  ("cache_misses", .int s.cacheMisses),
  ("error_cycles", .int s.errorCycles),
  ("warning_cycles", .int s.warningCycles),
  ("warning_count", .int s.warningCount),
  ("healthy", .bool s.healthy)]

def read : Reader Summary := Reader.shape fun fs =>
  Summary.mk <$> required "total_files" Reader.integer fs
    <*> required "total_lines" Reader.integer fs
    <*> required "total_functions" Reader.integer fs
    <*> required "total_classes" Reader.integer fs
    <*> required "cache_enabled" Reader.boolean fs
    <*> field "cache_hits" 0 Reader.integer fs
    <*> field "cache_misses" 0 Reader.integer fs
    <*> field "error_cycles" 0 Reader.integer fs
    <*> field "warning_cycles" 0 Reader.integer fs
    <*> field "warning_count" 0 Reader.integer fs
    <*> field "healthy" true Reader.boolean fs

end Summary

namespace Warning

def toDatum (w : Warning) : Datum := .table [
  ("category", .text w.kind.word),
  ("message", .text w.message),
  ("path", Datum.textOrNull w.path)]

def read : Reader Warning := Reader.shape fun fs =>
  Warning.mk <$> required "category" (Reader.member WarningKind.all WarningKind.word) fs
    <*> required "message" Reader.text fs
    <*> field "path" none (Reader.optional Reader.text) fs

end Warning

/-- The complete result of one analysis. -/
structure Report where
  version : Int := 1
  projectPath : Text
  analyzedAt : Text
  summary : Summary
  metrics : Metrics := {}
  inventory : Inventory := {}
  files : List Record := []
  graph : DependencyGraph := {}
  cycles : List Cycle := []
  warnings : List Warning := []
  deriving DecidableEq, Repr

namespace Report

def hasErrorCycles (r : Report) : Bool := r.cycles.any fun c => c.severity = .error

def toDatum (r : Report) : Datum := .table [
  ("schema_version", .int r.version),
  ("project_path", .text r.projectPath),
  ("analyzed_at", .text r.analyzedAt),
  ("summary", r.summary.toDatum),
  ("metrics", r.metrics.toDatum),
  ("inventory", r.inventory.toDatum),
  ("files", .list (r.files.map Record.toDatum)),
  ("graph", r.graph.toDatum),
  ("cycles", .list (r.cycles.map Cycle.toDatum)),
  ("warnings", .list (r.warnings.map Warning.toDatum))]

def read : Reader Report := Reader.shape fun fs =>
  Report.mk <$> field "schema_version" 1 Reader.integer fs
    <*> required "project_path" Reader.text fs
    <*> required "analyzed_at" Reader.text fs
    <*> required "summary" Summary.read fs
    <*> field "metrics" {} Metrics.read fs
    <*> field "inventory" {} Inventory.read fs
    <*> field "files" [] (Reader.list Record.read) fs
    <*> field "graph" {} DependencyGraph.read fs
    <*> field "cycles" [] (Reader.list Cycle.read) fs
    <*> field "warnings" [] (Reader.list Warning.read) fs

end Report

end SourceAtlas
