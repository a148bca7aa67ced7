import ValueContract.Class.Refusal
import ValueContract.Class.Member

namespace ValueContract

inductive Level
  | trace | debug | info | warn
  deriving DecidableEq, Repr

def Level.name : Level → String
  | .trace => "TRACE"
  | .debug => "DEBUG"
  | .info => "INFO"
  | .warn => "WARN"

inductive Event
  | parsed (entities : Nat)
  | rejected (entity : String) (error : SchemaError)
  | emitting (entity : String) (fields : Nat) (language : Language)
  | rendering (role : MemberRole) (entity : String)
  | skipping (entity : String) (error : EmitError)
  | emitted (units entities : Nat)
  deriving DecidableEq, Repr

namespace Event

def level : Event → Level
  | parsed _ | rejected _ _ | emitting _ _ _ => .debug
  | rendering _ _ => .trace
  | skipping _ _ => .warn
  | emitted _ _ => .info

def text : Event → String
  | parsed entities => s!"parsed schema source with {entities} entities"
  | rejected entity error => s!"rejected entity '{entity}': {error.message}"
  | emitting entity fields language =>
    s!"emitting '{entity}' ({fields} fields) as {language.name}"
  | rendering role entity => s!"rendering {role.name} of '{entity}'"
  | skipping entity error => s!"skipping '{entity}': {error.message}"
  | emitted units entities => s!"emitted {units} of {entities} entities"

end Event

/-- A result with the events on the way to it. -/
structure Traced (α : Type) where
  result : α
  events : List Event := []

end ValueContract
