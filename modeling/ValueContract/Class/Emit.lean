import ValueContract.Catalog.Resolve
import ValueContract.Class.Refusal
import ValueContract.Class.Unit
import ValueContract.Event

namespace ValueContract

def Entity.types (e : Entity) : List TypeExpr :=
  e.fields.map (·.ty) ++ e.methods.flatMap (·.types)

structure Requirements where
  includes : List String := []
  entities : List String := []
  deriving DecidableEq, Repr

namespace Requirements

def addInclude (r : Requirements) (line : String) : Requirements :=
  { r with includes := Name.insertSorted line r.includes }

def addEntity (r : Requirements) (name : String) : Requirements :=
  { r with entities := Name.insertSorted name r.entities }

/-- Adds what one type calls for. An entity does not need itself. -/
def collect (owner : String) (r : Requirements) : TypeExpr → Requirements
  | .list inner => collect owner (r.addInclude "#include <vector>") inner
  | .entity name => if name = owner then r else r.addEntity name
  | .primitive kind =>
    match kind.category with
    | .integer => r.addInclude "#include <stdint.h>"
    | .text => r.addInclude "#include <string>"
    | .float | .boolean | .void => r

def ofEntity (e : Entity) : Requirements :=
  e.types.foldl (collect e.name) {}

end Requirements

namespace ClassUnit

variable (s : Settings) (e : Entity)

def checkNames : Except EmitError Unit :=
  match Reserved.clash? e with
  | some clash => .error (.reservedName e.name clash.member clash.name s.language)
  | none => .ok ()

def checkMarker : Except EmitError Unit :=
  match Marker.fault? s.marker with
  | some fault => .error (.invalidMarker e.name fault)
  | none => .ok ()

def storageOf : TypeExpr → Except Primitive Storage
  | .entity target => .ok (.owned target)
  | ty => do return .held (← ty.spelling) (← ty.zeroSpelling)

def classField (f : Field) : Except EmitError ClassField :=
  match storageOf f.ty with
  | .error kind => .error (.unsupportedPrimitive e.name f.name kind s.language)
  | .ok storage => .ok ⟨f.name, storage⟩

def classFields : Except EmitError (List ClassField) := do
  checkNames s e
  checkMarker s e
  e.fields.mapM (classField s e)

def customMethod (m : Method) : Except EmitError CustomMethod :=
  (CustomMethod.ofMethod e.name m).mapError
    (.unsupportedPrimitive e.name m.name · s.language)

def includesOf : List String := (Requirements.ofEntity e).includes

def dependenciesOf : List String := (Requirements.ofEntity e).entities

def assemble (fields : List ClassField) (methods : List CustomMethod) : ClassUnit where
  entity := e.name
  settings := s
  includes := includesOf e
  dependencies := dependenciesOf e
  fields := fields
  members := MemberRole.all.map (Member.contract e.name fields)
  methods := methods

/-- The entity has to be resolved already. -/
def ofEntity : Traced (Except EmitError ClassUnit) :=
  match classFields s e with
  | .error error => ⟨.error error, []⟩
  | .ok fields =>
    ⟨assemble s e fields <$> e.methods.mapM (customMethod s e),
      MemberRole.all.map (.rendering · e.name)⟩

end ClassUnit

structure Outcome where
  entity : String
  result : Except EmitError ClassUnit

structure Report where
  outcomes : List Outcome

namespace Report

def units (r : Report) : List ClassUnit :=
  r.outcomes.filterMap (·.result.toOption)

def failures (r : Report) : List EmitError :=
  r.outcomes.filterMap fun o ↦
    match o.result with
    | .error error => some error
    | .ok _ => none

def isComplete (r : Report) : Bool := r.failures.isEmpty

def outcome? (r : Report) (entity : String) : Option Outcome :=
  r.outcomes.find? (·.entity = entity)

end Report

namespace Catalog

variable (c : Catalog) (s : Settings)

def emitTraced (name : String) : Traced (Except EmitError ClassUnit) :=
  match c.resolve name with
  | .error error => ⟨.error (.schema error), []⟩
  | .ok e =>
    let unit := ClassUnit.ofEntity s e
    ⟨unit.result, .emitting name e.fields.length s.language :: unit.events⟩

def emit (name : String) : Except EmitError ClassUnit :=
  (c.emitTraced s name).result

/-- The events of one entity in a batch: a failure is noted and does not stop the others. -/
def batchEvents (name : String) : List Event :=
  (c.emitTraced s name).events ++
    match c.emit s name with
    | .error error => [.skipping name error]
    | .ok _ => []

def emitAll : Report :=
  ⟨c.names.map fun name ↦ ⟨name, c.emit s name⟩⟩

def emitAllTraced : Traced Report :=
  ⟨c.emitAll s, c.names.flatMap (c.batchEvents s) ++
    [.emitted (c.emitAll s).units.length c.names.length]⟩

end Catalog

end ValueContract
