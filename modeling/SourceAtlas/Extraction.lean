import SourceAtlas.Outline.Basic
import SourceAtlas.Resolution
import SourceAtlas.Syntax.Grammar

/-!
From a source file to its record. A file that cannot be read, decoded or parsed has a record too,
which says why nothing was extracted.
-/
namespace SourceAtlas

open Syntax Text

/-- Why nothing was extracted from a file. -/
inductive ExtractionFault where
  | unreadable (e : Errno)
  | undecodable (f : Utf8.Fault)
  | unparsable (line : Nat)
  deriving DecidableEq, Repr

def ExtractionFault.message (path : Path) : ExtractionFault → Text
  | .unreadable e => "Cannot read " ++ path.text ++ ": " ++ e.words
  | .undecodable f => "Cannot decode " ++ path.text ++ " as UTF-8: " ++ f.message
  | .unparsable line =>
    "Parse error in " ++ path.text ++ " near line " ++ Number.Style.natText line

/-- What the bytes of a file say: how many lines they have, and the outline. -/
structure Reading where
  lineCount : Nat
  outline : Except ExtractionFault Outline

namespace Extraction

/-- Files with this suffix may hold markup. -/
def dialectOf (path : Path) : Dialect := if path.suffix = ".tsx" then .markup else .plain

/-- Read the bytes of a file. One mark at the start is no content. -/
def read (dialect : Dialect) (bytes : List UInt8) : Reading :=
  match Utf8.decode (Utf8.dropMark bytes) with
  | .error f => ⟨0, .error (.undecodable f)⟩
  | .ok cs =>
    ⟨cs.count '\n' + 1,
      match parse dialect cs with
      | .error line => .error (.unparsable line)
      | .ok tree => .ok (Outline.ofTree (Source.ofList cs) tree)⟩

/-- Look up what an import statement leads to. -/
def resolveSite (w : World) (path : Path) (extensions : List Text) (s : ImportSite) :
    Except SystemError Import :=
  match Resolution.classify w path extensions s.source with
  | .error e => .error e
  | .ok (kind, resolved) =>
    .ok ⟨s.source, resolved, kind, s.form, s.names, s.line, Resolution.groupOf s.source⟩

/-- The record of a file from which nothing was extracted. -/
def failed (path root : Path) (lineCount : Nat) (fault : ExtractionFault) : Record :=
  ⟨path.text, path.relativeText root, lineCount, [], [], [], [], [], .unknown, "Unknown", .low,
    some (fault.message path)⟩

def record (w : World) (path root : Path) (extensions : List Text) (bytes : List UInt8) :
    Except SystemError Record :=
  let reading := read (dialectOf path) bytes
  match reading.outline with
  | .error fault => .ok (failed path root reading.lineCount fault)
  | .ok outline =>
    match outline.imports.mapM (resolveSite w path extensions) with
    | .error e => .error e
    | .ok imports =>
      .ok ⟨path.text, path.relativeText root, reading.lineCount, outline.annotations, imports,
        outline.exports, outline.classes, outline.functions, .unknown, "Unknown", .low, none⟩

/-- Extract a file whose bytes may have been read before. A failure to
extract is logged. -/
def extract (path root : Path) (extensions : List Text) (bytes : Option (List UInt8)) :
    Action Record := do
  let content ← match bytes with
    | some bytes => pure (Except.ok bytes)
    | none => Action.attempt (Action.readBytes path)
  let r ← match content with
    | .error e => pure (failed path root 0 (.unreadable e.errno))
    | .ok bytes =>
      match record (← get) path root extensions bytes with
      | .ok r => pure r
      | .error e => throw (.system e)
  match r.failure with
  | some message => Action.log .warning .extraction message
  | none => pure ()
  return r

end Extraction

end SourceAtlas
