import ValueContract.Catalog.Closure
import ValueContract.Catalog.Cycle

namespace ValueContract.Catalog

variable (c : Catalog)

def unresolvedFields (e : Entity) : List SchemaError :=
  (e.references.filter fun r ↦ !c.contains r.2).map fun r ↦ .unresolvedType e.name r.1 r.2

/-- A method only names its types, so they have to exist but their closure is not walked. -/
def unresolvedMethods (e : Entity) : List SchemaError :=
  (e.methodReferences.filter fun r ↦ !c.contains r.2).map fun r ↦
    .unresolvedMethodType e.name r.1 r.2

def resolve (name : String) : Except SchemaError Entity :=
  match c.find? name with
  | none => .error (.unknownEntity name)
  | some e =>
    match c.checkClosure e, c.unresolvedMethods e, (c.findCycle name []).cycle? with
    | .error fault, _, _ => .error fault
    | .ok _, fault :: _, _ => .error fault
    | .ok _, [], some path => .error (.compositionCycle name path)
    | .ok _, [], none => .ok e

structure Survey where
  done : List String := []
  reported : List (List String) := []
  errors : List SchemaError := []
  deriving DecidableEq, Repr

/-- A cycle is reported unless one through the same entities was. -/
def surveyEntity (s : Survey) (e : Entity) : Survey :=
  match c.findCycle e.name s.done with
  | ⟨none, done⟩ => { s with done }
  | ⟨some path, done⟩ =>
    let members := Name.sorted path
    if members ∈ s.reported then { s with done }
    else ⟨done, members :: s.reported,
      s.errors ++ [.compositionCycle (path.headD e.name) path]⟩

def survey (entities : List Entity) : Survey :=
  entities.foldl c.surveyEntity {}

def check : List SchemaError :=
  (c.entities.flatMap fun e ↦ c.unresolvedFields e ++ c.unresolvedMethods e) ++
    (c.survey c.entities).errors

end ValueContract.Catalog
