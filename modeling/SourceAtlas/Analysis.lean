import SourceAtlas.Cache.Store
import SourceAtlas.Classification
import SourceAtlas.Config
import SourceAtlas.Extraction
import SourceAtlas.Report.Basic
import SourceAtlas.Scan.Basic

/-!
The analysis of a project: scan, extract or remember, build the graph, find its cycles, sum up.
Trouble with single files and directories and with the cache becomes a warning in the report.
-/
namespace SourceAtlas.Analysis

open Number

def scanOptions (c : Config) : ScanOptions :=
  ⟨c.extensions, c.excludeDirs, c.testSuffixes, c.exclude, c.respectIgnore, c.nestedIgnore⟩

/-- The bytes of a file and their fingerprint, if it can be read. -/
def readFingerprinted (path : Path) : Action (Option (List UInt8 × Fingerprint)) := do
  let read : Action (List UInt8 × Fingerprint) := do
    let mtime ← Action.modified path
    let bytes ← Action.readBytes path
    return (bytes, .ofBytes bytes mtime)
  match ← Action.attempt read with
  | .ok found => return some found
  | .error e =>
    Action.log .debug .analysis ("Cannot fingerprint " ++ path.text ++ ": " ++ e.message)
    return none

/-- The records of files so far, with the cache and how it was used. -/
structure Progress where
  cache : Option Cache
  records : List Record := []
  hits : Nat := 0
  misses : Nat := 0

/-- The remembered record of a file that has not changed. -/
def remembered? (cache : Option Cache) (path : Path)
    (content : Option (List UInt8 × Fingerprint)) : Option Record := do
  (← cache).get? path (← content).2

/-- Add the record of one file: the remembered one with its imports looked
up again, or a new one, which is remembered if the file could be read. -/
def addFile (root : Path) (extensions : List Text) (p : Progress) (path : Path) :
    Action Progress := do
  let content ← readFingerprinted path
  match remembered? p.cache path content with
  | some r =>
    Action.log .debug .analysis ("Cache hit: " ++ path.text)
    match Resolution.refresh (← get) extensions r with
    | .error e => throw (.system e)
    | .ok r => return { p with records := p.records ++ [r], hits := p.hits + 1 }
  | none =>
    let r ← Extraction.extract path root extensions (content.map Prod.fst)
    let cache := match p.cache, content with
      | some c, some (_, f) => some (c.put path r f)
      | c, _ => c
    return { p with cache := cache, records := p.records ++ [r], misses := p.misses + 1 }

def scanWarnings (s : Scan) : List Warning :=
  s.faults.map fun f => ⟨.scan, f.message, some f.path⟩

def extractionWarnings (records : List Record) : List Warning :=
  records.filterMap fun r => r.failure.map fun m => ⟨.extraction, m, some r.relativePath⟩

/-- Open the cache of a project; a file that cannot be used gives a warning. -/
def openCache (root : Path) (config : Config) : Action (Cache × List Warning) := do
  let (cache, _) ← Cache.load { file := ← config.cacheFile root, project := root }
  match cache.problem with
  | some m => return (cache, [⟨.cache, m, some cache.file.text⟩])
  | none => return (cache, [])

/-- Save the cache for these files; a refusal of the system gives a warning. -/
def saveCache (cache : Cache) (files : List Path) : Action (List Warning) := do
  let (cache, _) ← cache.prune files
  match ← Action.attempt cache.save with
  | .ok _ => return []
  | .error e =>
    Action.log .warning .analysis ("Cannot write cache " ++ cache.file.text ++ ": " ++ e.message)
    return [⟨.cache, "Cannot write cache: " ++ e.message, some cache.file.text⟩]

/-- A share in percent with one decimal place. -/
def percentText (part whole : Nat) : Text := (Double.ofRatio false (100 * part) whole).fixed 1

/-- Save the cache if there is one, and log how much it helped. -/
def finishCache (p : Progress) (files : List Path) : Action (List Warning) := do
  match p.cache with
  | none => return []
  | some cache =>
    let warnings ← saveCache cache files
    let total := p.records.length
    if total ≠ 0 then
      Action.log .info .analysis ("Cache hit rate: " ++ Style.natText p.hits ++ "/" ++
        Style.natText total ++ " (" ++ percentText p.hits total ++ "%)")
    return warnings

def findCycles (g : DependencyGraph) : Action (List Cycle) := do
  match Cycle.detect g with
  | .error id => throw (.missingNode id)
  | .ok cycles =>
    Action.log .debug .cycles ("Detected " ++ Style.natText cycles.length ++ " cycles")
    return cycles

def reportOf (root : Path) (config : Config) (now : Text) (records : List Record)
    (graph : DependencyGraph) (cycles : List Cycle) (warnings : List Warning) (use : CacheUse) :
    Report :=
  { projectPath := root.text
    analyzedAt := now
    summary := .ofParts records cycles warnings use
    metrics := .ofRecords records graph config.top
    inventory := .ofRecords records
    files := records
    graph := graph
    cycles := cycles
    warnings := warnings }

/-- Analyse a project. Without a configuration that of the
project is loaded. -/
def run (root : Path) (useCache : Bool) (given : Option Config) : Action Report := do
  let root ← Action.resolve root
  let config ← match given with
    | some c => pure c
    | none => Config.load root
  let (_, scan) ← Scan.project (scanOptions config) root
  Action.log .info .analysis
    ("Found " ++ Style.natText scan.files.length ++ " source files under " ++ root.text)
  let (cache, loadWarnings) ← if useCache then do
      let (cache, warnings) ← openCache root config
      pure (some cache, warnings)
    else pure (none, [])
  let progress ← scan.files.foldlM (addFile root config.extensions) { cache := cache }
  let records := progress.records.map Classification.classify
  let graph := DependencyGraph.ofRecords records
  let cycles ← findCycles graph
  let saveWarnings ← finishCache progress scan.files
  Action.log .info .analysis ("Graph has " ++ Style.natText graph.nodes.length ++ " nodes, " ++
    Style.natText graph.edges.length ++ " edges and " ++ Style.natText cycles.length ++ " cycles")
  let warnings :=
    scanWarnings scan ++ loadWarnings ++ extractionWarnings progress.records ++ saveWarnings
  let use : CacheUse := ⟨cache.isSome, progress.hits, progress.misses⟩
  return reportOf root config (← Action.now) records graph cycles warnings use

/-- Remove the cache of a project; the answer is whether there was one. -/
def clearCache (root : Path) (given : Option Config) : Action Bool := do
  let root ← Action.resolve root
  let config ← match given with
    | some c => pure c
    | none => Config.load root
  Cache.remove { file := ← config.cacheFile root, project := root }

end SourceAtlas.Analysis
