import ValueContract.Catalog.Resolve
import ValueContract.Value.Basic

namespace ValueContract.Catalog

variable (c : Catalog)

/-- The slots for `fields` of the entity `owner`. The trail holds the entities under construction,
which a resolved entity never meets again. -/
def zeroSlots (owner : String) (trail : List String) :
    List Field → Except ValueError (List (Slot Value))
  | [] => .ok []
  | f :: fields =>
    (match f.ty with
      | .entity target =>
        if _ht : target ∈ trail then
          .error (.schema (.compositionCycle owner (cycleAt trail target)))
        else
          match _hf : c.find? target with
          | none => .error (.schema (.unresolvedType owner f.name target))
          | some e =>
            (fun slots ↦ .entity ⟨e.name, slots⟩) <$>
              zeroSlots e.name (target :: trail) e.fields
      | ty =>
        match Value.zero? ty with
        | some zero => .ok zero
        | none => .error (.unsupportedPrimitive owner f.name (ty.primitive?.getD .void))) >>=
      fun value ↦ (⟨f.name, f.ty, value⟩ :: ·) <$> zeroSlots owner trail fields
termination_by fields => (c.unseen ([·.name]) trail, fields.length)
decreasing_by
  · exact Prod.Lex.left _ _ (unseen_cons_add_le ([·.name]) _hf _ht)
  · exact Prod.Lex.right _ (Nat.lt_succ_self _)

def zeroInstance (name : String) : Except ValueError Instance :=
  match c.resolve name with
  | .error error => .error (.schema error)
  | .ok e => do
    let slots ← c.zeroSlots e.name [e.name] e.fields
    return ⟨e.name, slots⟩

inductive Halt
  | fault (error : ValueError)
  | tooDeep
  deriving DecidableEq, Repr

def buildValue (build : Entity → Except Halt Instance) (owner : String) (f : Field) :
    Except Halt Value :=
  match f.ty with
  | .entity target =>
    match c.find? target with
    | none => .error (.fault (.schema (.unresolvedType owner f.name target)))
    | some e => .entity <$> build e
  | ty =>
    match Value.zero? ty with
    | some zero => .ok zero
    | none => .error (.fault (.unsupportedPrimitive owner f.name (ty.primitive?.getD .void)))

def buildSlot (build : Entity → Except Halt Instance) (owner : String) (f : Field) :
    Except Halt (Slot Value) :=
  (⟨f.name, f.ty, ·⟩) <$> c.buildValue build owner f

/-- Default construction by calls that nest, with nothing to tell which entities are under
construction. At most `depth` calls are under way at a time. -/
def build : Nat → Entity → Except Halt Instance
  | 0, _ => .error .tooDeep
  | depth + 1, e => (⟨e.name, ·⟩) <$> e.fields.mapM (c.buildSlot (build depth) e.name)

def buildDefault (depth : Nat) (name : String) : Except Halt Instance :=
  match c.resolve name with
  | .error error => .error (.fault (.schema error))
  | .ok e => c.build depth e

end ValueContract.Catalog
