import SourceAtlas.Record.Basic
import SourceAtlas.Schema.Reader

/-!
Records as data and back. Every field is written, absent ones as null; reading takes the default
of a field that is not there and ignores fields it does not know.
-/
namespace SourceAtlas

open Schema

namespace Datum

def texts (ss : List Text) : Datum := .list (ss.map .text)

def textOrNull : Option Text → Datum
  | some s => .text s
  | none => .null

end Datum

namespace Import

def toDatum (i : Import) : Datum := .table [
  ("source", .text i.source),
  ("resolved", Datum.textOrNull i.resolved),
  ("kind", .text i.kind.word),
  ("specifier", .text i.form.word),
  ("names", Datum.texts i.names),
  ("line", .int i.line),
  ("category", .text i.group.word)]

def read : Reader Import := Reader.shape fun fs =>
  Import.mk <$> required "source" Reader.text fs
    <*> field "resolved" none (Reader.optional Reader.text) fs
    <*> required "kind" (Reader.member ImportKind.all ImportKind.word) fs
    <*> field "specifier" .sideEffect (Reader.member ImportForm.all ImportForm.word) fs
    <*> field "names" [] (Reader.list Reader.text) fs
    <*> field "line" 0 Reader.integer fs
    <*> field "category" .thirdParty (Reader.member ImportGroup.all ImportGroup.word) fs

end Import

namespace Export

def toDatum (e : Export) : Datum := .table [
  ("name", .text e.name),
  ("kind", .text e.kind.word)]

def read : Reader Export := Reader.shape fun fs =>
  Export.mk <$> required "name" Reader.text fs
    <*> required "kind" (Reader.member ExportKind.all ExportKind.word) fs

end Export

namespace Decoration

def toDatum (d : Decoration) : Datum := .table [
  ("decorator", .text d.decorator),
  ("selector", Datum.textOrNull d.selector),
  ("template_url", Datum.textOrNull d.templateUrl),
  ("style_urls", Datum.texts d.styleUrls),
  ("standalone", (d.standalone.map Datum.bool).getD .null),
  ("provided_in", Datum.textOrNull d.providedIn),
  ("pipe_name", Datum.textOrNull d.pipeName),
  ("imports", Datum.texts d.imports),
  ("exports", Datum.texts d.exports),
  ("declarations", Datum.texts d.declarations),
  ("providers", Datum.texts d.providers)]

def read : Reader Decoration := Reader.shape fun fs =>
  Decoration.mk <$> required "decorator" Reader.text fs
    <*> field "selector" none (Reader.optional Reader.text) fs
    <*> field "template_url" none (Reader.optional Reader.text) fs
    <*> field "style_urls" [] (Reader.list Reader.text) fs
    <*> field "standalone" none (Reader.optional Reader.boolean) fs
    <*> field "provided_in" none (Reader.optional Reader.text) fs
    <*> field "pipe_name" none (Reader.optional Reader.text) fs
    <*> field "imports" [] (Reader.list Reader.text) fs
    <*> field "exports" [] (Reader.list Reader.text) fs
    <*> field "declarations" [] (Reader.list Reader.text) fs
    <*> field "providers" [] (Reader.list Reader.text) fs

end Decoration

namespace ClassInfo

def toDatum (c : ClassInfo) : Datum := .table [
  ("name", .text c.name),
  ("implements", Datum.texts c.implements),
  ("extends", Datum.textOrNull c.extends?),
  ("decorators", Datum.texts c.decorators),
  ("metadata", (c.decoration.map Decoration.toDatum).getD .null),
  ("line", .int c.line)]

def read : Reader ClassInfo := Reader.shape fun fs =>
  ClassInfo.mk <$> required "name" Reader.text fs
    <*> field "implements" [] (Reader.list Reader.text) fs
    <*> field "extends" none (Reader.optional Reader.text) fs
    <*> field "decorators" [] (Reader.list Reader.text) fs
    <*> field "metadata" none (Reader.optional Decoration.read) fs
    <*> field "line" 0 Reader.integer fs

end ClassInfo

namespace FunctionInfo

def toDatum (f : FunctionInfo) : Datum := .table [
  ("name", .text f.name),
  ("kind", .text f.kind.word),
  ("parameters", .int f.parameters),
  ("is_async", .bool f.isAsync),
  ("line", .int f.line)]

def read : Reader FunctionInfo := Reader.shape fun fs =>
  FunctionInfo.mk <$> required "name" Reader.text fs
    <*> required "kind" (Reader.member FunctionKind.all FunctionKind.word) fs
    <*> field "parameters" 0 Reader.integer fs
    <*> field "is_async" false Reader.boolean fs
    <*> field "line" 0 Reader.integer fs

end FunctionInfo

namespace Record

def toDatum (r : Record) : Datum := .table [
  ("path", .text r.path),
  ("relative_path", .text r.relativePath),
  ("line_count", .int r.lineCount),
  ("annotations", Datum.texts r.annotations),
  ("imports", .list (r.imports.map Import.toDatum)),
  ("exports", .list (r.exports.map Export.toDatum)),
  ("classes", .list (r.classes.map ClassInfo.toDatum)),
  ("functions", .list (r.functions.map FunctionInfo.toDatum)),
  ("role", .text r.role.word),
  ("role_label", .text r.roleLabel),
  ("confidence", .text r.confidence.word),
  ("parse_error", Datum.textOrNull r.failure)]

def read : Reader Record := Reader.shape fun fs =>
  Record.mk <$> required "path" Reader.text fs
    <*> required "relative_path" Reader.text fs
    <*> field "line_count" 0 Reader.integer fs
    <*> field "annotations" [] (Reader.list Reader.text) fs
    <*> field "imports" [] (Reader.list Import.read) fs
    <*> field "exports" [] (Reader.list Export.read) fs
    <*> field "classes" [] (Reader.list ClassInfo.read) fs
    <*> field "functions" [] (Reader.list FunctionInfo.read) fs
    <*> field "role" .unknown (Reader.member Role.all Role.word) fs
    <*> field "role_label" "Unknown" Reader.text fs
    <*> field "confidence" .low (Reader.member Confidence.all Confidence.word) fs
    <*> field "parse_error" none (Reader.optional Reader.text) fs

end Record

end SourceAtlas
