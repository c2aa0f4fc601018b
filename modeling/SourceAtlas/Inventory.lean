import SourceAtlas.Record.Document

/-!
The building blocks of an application that decorators declare: modules, components, services.
-/
namespace SourceAtlas

open Schema

structure ModuleEntry where
  name : Text
  path : Text
  declarations : List Text := []
  imports : List Text := []
  exports : List Text := []
  providers : List Text := []
  deriving DecidableEq, Repr

structure ComponentEntry where
  name : Text
  path : Text
  selector : Option Text := none
  templateUrl : Option Text := none
  styleUrls : List Text := []
  standalone : Bool := false
  deriving DecidableEq, Repr

structure ServiceEntry where
  name : Text
  path : Text
  providedIn : Option Text := none
  deriving DecidableEq, Repr

structure Inventory where
  modules : List ModuleEntry := []
  components : List ComponentEntry := []
  services : List ServiceEntry := []
  deriving DecidableEq, Repr

namespace Inventory

/-- The classes of all records that have a decoration, each with its record. -/
def decorated (records : List Record) : List (Record × ClassInfo × Decoration) :=
  records.flatMap fun r => r.classes.filterMap fun c => c.decoration.map fun d => (r, c, d)

def moduleOf (x : Record × ClassInfo × Decoration) : Option ModuleEntry :=
  let (r, c, d) := x
  if d.decorator = "NgModule" then
    some ⟨c.name, r.relativePath, d.declarations, d.imports, d.exports, d.providers⟩
  else none

def componentOf (x : Record × ClassInfo × Decoration) : Option ComponentEntry :=
  let (r, c, d) := x
  if d.decorator = "Component" then
    some ⟨c.name, r.relativePath, d.selector, d.templateUrl, d.styleUrls, d.standalone.getD false⟩
  else none

/-- An injectable class is a service where its file has that role. -/
def serviceOf (x : Record × ClassInfo × Decoration) : Option ServiceEntry :=
  let (r, c, d) := x
  if d.decorator = "Injectable" && r.role = .service then
    some ⟨c.name, r.relativePath, d.providedIn⟩
  else none

/-- The building blocks in the order of records and classes. -/
def ofRecords (records : List Record) : Inventory :=
  let found := decorated records
  ⟨found.filterMap moduleOf, found.filterMap componentOf, found.filterMap serviceOf⟩

end Inventory

namespace ModuleEntry

def toDatum (m : ModuleEntry) : Datum := .table [
  ("name", .text m.name),
  ("path", .text m.path),
  ("declarations", Datum.texts m.declarations),
  ("imports", Datum.texts m.imports),
  ("exports", Datum.texts m.exports),
  ("providers", Datum.texts m.providers)]

def read : Reader ModuleEntry := Reader.shape fun fs =>
  ModuleEntry.mk <$> required "name" Reader.text fs
    <*> required "path" Reader.text fs
    <*> field "declarations" [] (Reader.list Reader.text) fs
    <*> field "imports" [] (Reader.list Reader.text) fs
    <*> field "exports" [] (Reader.list Reader.text) fs
    <*> field "providers" [] (Reader.list Reader.text) fs

end ModuleEntry

namespace ComponentEntry

def toDatum (c : ComponentEntry) : Datum := .table [
  ("name", .text c.name),
  ("path", .text c.path),
  ("selector", Datum.textOrNull c.selector),
  ("template_url", Datum.textOrNull c.templateUrl),
  ("style_urls", Datum.texts c.styleUrls),
  ("standalone", .bool c.standalone)]

def read : Reader ComponentEntry := Reader.shape fun fs =>
  ComponentEntry.mk <$> required "name" Reader.text fs
    <*> required "path" Reader.text fs
    <*> field "selector" none (Reader.optional Reader.text) fs
    <*> field "template_url" none (Reader.optional Reader.text) fs
    <*> field "style_urls" [] (Reader.list Reader.text) fs
    <*> field "standalone" false Reader.boolean fs

end ComponentEntry

namespace ServiceEntry

def toDatum (s : ServiceEntry) : Datum := .table [
  ("name", .text s.name),
  ("path", .text s.path),
  ("provided_in", Datum.textOrNull s.providedIn)]

def read : Reader ServiceEntry := Reader.shape fun fs =>
  ServiceEntry.mk <$> required "name" Reader.text fs
    <*> required "path" Reader.text fs
    <*> field "provided_in" none (Reader.optional Reader.text) fs

end ServiceEntry

namespace Inventory

def toDatum (i : Inventory) : Datum := .table [
  ("modules", .list (i.modules.map ModuleEntry.toDatum)),
  ("components", .list (i.components.map ComponentEntry.toDatum)),
  ("services", .list (i.services.map ServiceEntry.toDatum))]

def read : Reader Inventory := Reader.shape fun fs =>
  Inventory.mk <$> field "modules" [] (Reader.list ModuleEntry.read) fs
    <*> field "components" [] (Reader.list ComponentEntry.read) fs
    <*> field "services" [] (Reader.list ServiceEntry.read) fs

end Inventory

end SourceAtlas
