import ValueContract.Class.Emit

namespace ValueContract

abbrev Logged := StateM (List Event)

def Logged.write (event : Event) : Logged Unit :=
  modify (· ++ [event])

/-- A computation with a log that an error can end. -/
abbrev Attempt := ExceptT EmitError Logged

namespace Attempt

variable {α : Type}

def check (result : Except EmitError α) : Attempt α :=
  .mk (pure result)

def perform (step : Logged α) : Attempt α :=
  .lift step

end Attempt

namespace ClassUnit

variable (s : Settings) (e : Entity)

def memberLogged (fields : List ClassField) (role : MemberRole) : Logged Member := do
  Logged.write (.rendering role e.name)
  return Member.contract e.name fields role

/-- All members are rendered before the first method is looked at. -/
def ofEntityLogged : Attempt ClassUnit := do
  Attempt.check (checkNames s e)
  Attempt.check (checkMarker s e)
  let fields ← Attempt.check (e.fields.mapM (classField s e))
  let members ← Attempt.perform (MemberRole.all.mapM (memberLogged e fields))
  let methods ← Attempt.check (e.methods.mapM (customMethod s e))
  return {
    entity := e.name
    settings := s
    includes := includesOf e
    dependencies := dependenciesOf e
    fields, members, methods }

end ClassUnit

namespace Catalog

variable (c : Catalog) (s : Settings)

def emitLogged (name : String) : Attempt ClassUnit := do
  let e ← Attempt.check ((c.resolve name).mapError .schema)
  Attempt.perform (Logged.write (.emitting name e.fields.length s.language))
  ClassUnit.ofEntityLogged s e

def outcomeLogged (name : String) : Logged Outcome := do
  let result ← (c.emitLogged s name).run
  match result with
  | .error error => Logged.write (.skipping name error)
  | .ok _ => pure ()
  return ⟨name, result⟩

def emitAllLogged : Logged Report := do
  let outcomes ← c.names.mapM (c.outcomeLogged s)
  let report : Report := ⟨outcomes⟩
  Logged.write (.emitted report.units.length report.outcomes.length)
  return report

end Catalog

end ValueContract
