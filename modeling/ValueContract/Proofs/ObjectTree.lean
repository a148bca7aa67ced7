import ValueContract.Proofs.ClassExecution
import ValueContract.Proofs.TypedStorage

namespace ValueContract

/-- What a field has of an object is a pointer to it, and anything else is in the field itself. -/
def Datum.inField : Datum → Datum
  | object type members => pointer (object type members)
  | d => d

mutual

def Value.datum : Value → Datum
  | .int n => .integer n.toInt
  | .uint n => .integer n.toNat
  | .float x => .float x
  | .bool b => .bool b
  | .text s => .text s
  | .list items => .vector (Value.data items)
  | .entity i => Record.object i
termination_by structural v => v

def Value.data : List Value → List Datum
  | [] => []
  | v :: items => v.datum :: Value.data items
termination_by structural items => items

def Record.object : Record Value → Datum
  | ⟨entity, slots⟩ => .object entity (Record.members slots)
termination_by structural i => i

def Record.members : List (Slot Value) → List (String × Datum)
  | [] => []
  | ⟨name, _, value⟩ :: slots => (name, value.datum.inField) :: Record.members slots
termination_by structural slots => slots

end

variable {c : Catalog} {ty : TypeExpr} {name : String} {v : Value} {i j : Instance}
  {slots : List (Slot Value)} {fields : List Field}

theorem Value.data_eq (items : List Value) : Value.data items = items.map Value.datum := by
  induction items with
  | nil => rfl
  | cons v items ih => rw [data, ih, List.map_cons]

theorem Record.members_eq (slots : List (Slot Value)) :
    Record.members slots = slots.map fun slot ↦ (slot.name, slot.value.datum.inField) := by
  induction slots with
  | nil => rfl
  | cons slot slots ih => rw [members, ih, List.map_cons]

theorem Record.names_members (slots : List (Slot Value)) :
    (Record.members slots).map Prod.fst = slots.map (·.name) := by
  simp [members_eq, Function.comp_def]

theorem Value.inField_entity (i : Instance) :
    (Value.entity i).datum.inField = .pointer (Value.entity i).datum := by
  obtain ⟨entity, slots⟩ := i
  rfl

theorem Value.exists_entity (h : v.Fits (.entity name)) : ∃ i : Instance, v = .entity i := by
  cases v with
  | entity i => exact ⟨i, rfl⟩
  | _ => exact h.elim

theorem Value.inField_datum (h : v.Fits ty) (hne : ∀ entity, ty ≠ .entity entity) :
    v.datum.inField = v.datum := by
  cases v with
  | entity i =>
    cases ty with
    | entity name => exact absurd rfl (hne name)
    | primitive kind => exact h.elim
    | list inner => exact h.elim
  | _ => rfl

theorem Record.lookup_members (h : ((members slots).map Prod.fst).Nodup) : ∀ slot ∈ slots,
    (members slots).lookup slot.name = some slot.value.datum.inField := by
  intro slot hs
  refine Datum.lookup_of_mem h ?_
  rw [members_eq]
  exact List.mem_map_of_mem hs

theorem Datum.ofZero?_vector (text : String) :
    Datum.ofZero? ("std::vector<" ++ text ++ ">" ++ "()") = some (.vector []) := by
  have hne : ∀ zero : String, ¬"std::v".toList <+: zero.toList →
      "std::vector<" ++ text ++ ">" ++ "()" ≠ zero := by
    rintro _ hp rfl
    exact hp ⟨"ector<".toList ++ text.toList ++ ">()".toList, by simp⟩
  have hopens : "std::vector<".toList <+: ("std::vector<" ++ text ++ ">" ++ "()").toList :=
    ⟨text.toList ++ ">()".toList, by simp⟩
  have hcloses : ">()".toList <:+ ("std::vector<" ++ text ++ ">" ++ "()").toList :=
    ⟨"std::vector<".toList ++ text.toList, by simp⟩
  rw [ofZero?, if_neg (hne _ (by decide)), if_neg, if_neg (hne _ (by decide)),
    if_neg (hne _ (by decide)), if_pos ⟨hopens, hcloses⟩]
  exact not_or.2 ⟨hne _ (by decide), hne _ (by decide)⟩

theorem Value.ofZero?_eq {zero : String} (hz : Value.zero? ty = some v)
    (hs : ty.zeroSpelling = .ok zero) : Datum.ofZero? zero = some v.datum.inField := by
  cases ty with
  | primitive kind =>
    cases kind <;> cases hz <;> cases hs <;> rfl
  | entity name => cases hz
  | list inner =>
    simp only [TypeExpr.zeroSpelling, TypeExpr.spelling, bind_eq_ok_iff] at hs
    obtain ⟨_, ⟨text, -, hs⟩, hs'⟩ := hs
    cases hs
    cases hs'
    rw [zero?] at hz
    split at hz
    · cases hz
    · cases hz
      exact Datum.ofZero?_vector text

/-- The instance has the fields of the entity, and these hold values of their types. -/
structure Record.IsOf (i : Instance) (e : Entity) : Prop where
  entity : i.entity = e.name
  shape : Record.shape i.slots = e.fields.map fun f ↦ (f.name, f.ty)
  fits : ∀ slot ∈ i.slots, slot.value.Fits slot.ty

theorem Record.IsOf.sameShape {e : Entity} (hi : i.IsOf e) (hj : j.IsOf e) : i.sameShape j :=
  sameShape_iff.2 ⟨hi.entity.trans hj.entity.symm, hi.shape.trans hj.shape.symm⟩

theorem Record.IsOf.object_eq {e : Entity} (h : i.IsOf e) :
    i.object = .object e.name (Record.members i.slots) := by
  obtain ⟨entity, slots⟩ := i
  obtain rfl : entity = e.name := h.entity
  rfl

theorem Record.IsOf.equal_eq {e : Entity} (hi : i.IsOf e) (hj : j.IsOf e) :
    i.equal j = Record.equalSlots i.slots j.slots := by
  obtain ⟨entity, slots⟩ := i
  obtain ⟨entity', slots'⟩ := j
  have hentity : entity = entity' := hi.entity.trans hj.entity.symm
  simp [Record.equal, hentity]

namespace Catalog

/-- The instances inside the value are such as the catalogue declares. -/
def Conforms (c : Catalog) (v : Value) : Prop :=
  ∀ i, v.Contains i → ∃ e, c.find? i.entity = some e ∧ i.IsOf e

theorem conforms_entity_iff : c.Conforms (.entity i) ↔
    (∃ e, c.find? i.entity = some e ∧ i.IsOf e) ∧ ∀ slot ∈ i.slots, c.Conforms slot.value :=
  Value.forall_contains_entity_iff

theorem conforms_list_iff {items : List Value} :
    c.Conforms (.list items) ↔ ∀ v ∈ items, c.Conforms v :=
  Value.forall_contains_list_iff

theorem Zeroed.isOf {e : Entity} (hf : c.find? i.entity = some e)
    (hz : c.Zeroed e.fields i.slots) : i.IsOf e :=
  ⟨(name_of_find? hf).symm, hz.shape_eq, fun slot hs ↦ (hz.fits slot hs).2⟩

theorem conforms_zeroInstance (h : c.zeroInstance name = .ok i) : c.Conforms (.entity i) := by
  intro j hj
  obtain ⟨e, hf, hz⟩ := zeroed_of_contains h j hj
  exact ⟨e, hf, hz.isOf hf⟩

end Catalog

end ValueContract
