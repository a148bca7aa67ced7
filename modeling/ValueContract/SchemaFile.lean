import ValueContract.Catalog.Basic
import ValueContract.Document.Grammar
import ValueContract.Event
import ValueContract.Settings

namespace ValueContract

structure MemberTable where
  name : String
  type : String
  deriving DecidableEq, Repr

structure MethodTable where
  name : String
  returns : Option String := none
  parameters : List MemberTable := []
  deriving DecidableEq, Repr

structure EntityTable where
  name : String
  fields : List MemberTable := []
  methods : List MethodTable := []
  deriving DecidableEq, Repr

structure SchemaFile where
  generator : Option Settings := none
  entities : List EntityTable := []
  deriving DecidableEq, Repr

/-! ### Tables of a document -/

namespace Document.Item

/-- The items under `keys`, each if it is there. A table has no other keys. An array stands for a
table by its order: its elements go to the keys one by one, and elements beyond are ignored. -/
def select? (keys : List String) : Item → Option (List (Option Item))
  | table _ entries =>
    if entries.all (keys.contains ·.1) then some (keys.map (Table.item? entries)) else none
  | item => do
    let elements ← item.elements?
    return keys.zipIdx.map fun (_, position) ↦ elements[position]?

/-- A variant by its name, with what it holds: a text, or a table with that name as its one key. -/
def variant? : Item → Option (String × Option Item)
  | text name => some (name, none)
  | table _ [(name, held)] => some (name, some held)
  | _ => none

def isVacant : Option Item → Bool
  | none | some (array []) | some (table _ []) | some (tables []) => true
  | _ => false

def orElse {α : Type} (read : Item → Option α) (fallback : α) : Option Item → Option α
  | none => some fallback
  | some item => read item

def list? {α : Type} (read : Item → Option α) (item : Item) : Option (List α) := do
  (← item.elements?).mapM read

end Document.Item

open Document (Item Table)

def Language.ofItem? (item : Item) : Option Language := do
  let (name, held) ← item.variant?
  if Item.isVacant held then Language.ofName? name else none

def Indent.ofItem? (item : Item) : Option Indent := do
  match ← item.variant? with
  | ("tab", held) => if Item.isVacant held then some .tab else none
  | ("spaces", some (.integer width)) =>
    if 0 ≤ width ∧ width < 256 then some (.spaces (.ofNat width.toNat)) else none
  | _ => none

def Settings.ofItem? (item : Item) : Option Settings := do
  match ← item.select? ["language", "marker", "indent", "include_prefix"] with
  | [language, marker, indent, includePath] =>
    let standard : Settings := {}
    return {
      language := ← Item.orElse Language.ofItem? standard.language language
      marker := ← Item.orElse Item.text? standard.marker marker
      indent := ← Item.orElse Indent.ofItem? standard.indent indent
      includePath := ← Item.orElse Item.text? standard.includePath includePath }
  | _ => none

def MemberTable.ofItem? (item : Item) : Option MemberTable := do
  match ← item.select? ["name", "type"] with
  | [some name, some type] => return ⟨← name.text?, ← type.text?⟩
  | _ => none

def MethodTable.ofItem? (item : Item) : Option MethodTable := do
  match ← item.select? ["name", "returns", "parameters"] with
  | [some name, returns, parameters] =>
    return {
      name := ← name.text?
      returns := ← Item.orElse (some <$> ·.text?) none returns
      parameters := ← Item.orElse (Item.list? MemberTable.ofItem?) [] parameters }
  | _ => none

def EntityTable.ofItem? (item : Item) : Option EntityTable := do
  match ← item.select? ["name", "fields", "methods"] with
  | [some name, fields, methods] =>
    return {
      name := ← name.text?
      fields := ← Item.orElse (Item.list? MemberTable.ofItem?) [] fields
      methods := ← Item.orElse (Item.list? MethodTable.ofItem?) [] methods }
  | _ => none

def SchemaFile.ofTable? (t : Table) : Option SchemaFile := do
  match ← (Item.table .header t).select? ["generator", "entity"] with
  | [generator, entities] =>
    return {
      generator := ← Item.orElse (some <$> Settings.ofItem? ·) none generator
      entities := ← Item.orElse (Item.list? EntityTable.ofItem?) [] entities }
  | _ => none

/-! ### Entities -/

namespace EntityTable

variable (t : EntityTable)

def typeAt (place text : String) : Except SchemaError TypeExpr :=
  (TypeExpr.parse text).mapError (.invalidType t.name place)

def field (f : MemberTable) : Except SchemaError (String × TypeExpr) := do
  return (f.name, ← t.typeAt f.name f.type)

def parameter (method : String) (p : MemberTable) : Except SchemaError Parameter := do
  return ⟨p.name, ← t.typeAt (method ++ "." ++ p.name) p.type⟩

/-- A method that says nothing of what it returns returns `void`. -/
def method (m : MethodTable) : Except SchemaError Method := do
  let returns ← m.returns.elim (.ok (.primitive .void)) (t.typeAt m.name)
  let parameters ← m.parameters.mapM (t.parameter m.name)
  return { name := m.name, returns, parameters }

/-- All types are read before any name is checked. -/
def toEntity : Except SchemaError Entity := do
  let fields ← t.fields.mapM t.field
  let methods ← t.methods.mapM t.method
  (← Entity.define t.name fields).withMethods methods

def declareIn (c : Catalog) : Except SchemaError Catalog := do
  let e ← t.toEntity
  return (← c.declare e).2

end EntityTable

namespace SchemaFile

def settings (f : SchemaFile) : Settings := f.generator.getD {}

def toCatalog (f : SchemaFile) : Except SchemaError Catalog :=
  f.entities.foldlM (fun c t ↦ t.declareIn c) .empty

/-- A catalogue of what could be declared so far, and what was rejected, each with its name. -/
structure Partial where
  catalog : Catalog := .empty
  rejected : List (String × SchemaError) := []

def Partial.add (p : Partial) (t : EntityTable) : Partial :=
  match t.declareIn p.catalog with
  | .ok catalog => { p with catalog }
  | .error error => { p with rejected := p.rejected ++ [(t.name, error)] }

def toPartial (f : SchemaFile) : Partial :=
  f.entities.foldl Partial.add {}

def Partial.errors (p : Partial) : List SchemaError := p.rejected.map (·.2)

def Partial.events (p : Partial) : List Event :=
  p.rejected.map fun (name, error) ↦ .rejected name error

inductive LoadError
  | unreadable
  | malformed
  | schema (error : SchemaError)
  deriving DecidableEq, Repr

def parse (text : String) : Except LoadError SchemaFile :=
  match Document.read text >>= ofTable? with
  | some file => .ok file
  | none => .error .malformed

def parseEvents (text : String) : List Event :=
  match parse text with
  | .ok file => [.parsed file.entities.length]
  | .error _ => []

/-- The catalogue and the settings of a file by its content, none if there is no such file. A
schema is text in UTF-8. -/
def load (content : Option ByteArray) : Except LoadError (Catalog × Settings) :=
  match content >>= String.fromUTF8? with
  | none => .error .unreadable
  | some text => do
    let file ← parse text
    return (← file.toCatalog.mapError .schema, file.settings)

end SchemaFile

end ValueContract
