import ValueContract.TypeExpr

namespace ValueContract

structure Field where
  name : String
  ty : TypeExpr
  order : Nat
  deriving DecidableEq, Repr

structure Parameter where
  name : String
  ty : TypeExpr
  deriving DecidableEq, Repr

structure Method where
  name : String
  returns : TypeExpr := .primitive .void
  parameters : List Parameter := []
  deriving DecidableEq, Repr

structure Entity where
  name : String
  fields : List Field
  methods : List Method
  deriving DecidableEq, Repr

namespace Method

def types (m : Method) : List TypeExpr :=
  m.returns :: m.parameters.map (·.ty)

def references (m : Method) : List String :=
  m.types.filterMap TypeExpr.referenced?

end Method

namespace Entity

def field? (e : Entity) (name : String) : Option Field :=
  e.fields.find? (·.name = name)

def method? (e : Entity) (name : String) : Option Method :=
  e.methods.find? (·.name = name)

/-- Each field that names an entity, list elements included, with the entity it names. -/
def references (e : Entity) : List (String × String) :=
  e.fields.filterMap fun f ↦ f.ty.referenced?.map (f.name, ·)

def directReferences (e : Entity) : List (String × String) :=
  e.fields.filterMap fun f ↦ f.ty.direct?.map (f.name, ·)

/-- The entities held by value, field after field. -/
def directTargets (e : Entity) : List String :=
  e.fields.filterMap (·.ty.direct?)

def methodReferences (e : Entity) : List (String × String) :=
  e.methods.flatMap fun m ↦ m.references.map (m.name, ·)

end Entity

end ValueContract
