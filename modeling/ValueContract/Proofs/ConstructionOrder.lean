import ValueContract.Proofs.DefaultConstruction
import ValueContract.Value.Zero

namespace ValueContract

inductive Value.IsZero : TypeExpr → Value → Prop
  | signed {kind : Primitive} (h : kind ∈ [.i8, .i16, .i32, .i64]) :
      IsZero (.primitive kind) (.int 0)
  | unsigned {kind : Primitive} (h : kind ∈ [.u8, .u16, .u32, .u64]) :
      IsZero (.primitive kind) (.uint 0)
  | float {kind : Primitive} (h : kind ∈ [.f32, .f64]) : IsZero (.primitive kind) (.float ⟨0⟩)
  | bool : IsZero (.primitive .bool) (.bool false)
  | text : IsZero (.primitive .string) (.text "")
  | list {inner : TypeExpr} (h : inner.primitive? ≠ some .void) : IsZero (.list inner) (.list [])

theorem Value.zero?_eq_some_iff {ty : TypeExpr} {v : Value} :
    Value.zero? ty = some v ↔ IsZero ty v := by
  constructor
  · intro h
    cases ty with
    | primitive kind =>
      cases kind <;> cases h
      case i8.refl | i16.refl | i32.refl | i64.refl => exact .signed (by decide)
      case u8.refl | u16.refl | u32.refl | u64.refl => exact .unsigned (by decide)
      case f32.refl | f64.refl => exact .float (by decide)
      case bool.refl => exact .bool
      case string.refl => exact .text
    | entity name => cases h
    | list inner =>
      rw [zero?] at h
      split at h
      · cases h
      · next hv =>
        cases h
        exact .list hv
  · intro h
    cases h with
    | @signed kind h | @unsigned kind h | @float kind h =>
      cases kind <;> simp_all [zero?, Primitive.category, Primitive.isSigned, Binary64.zero]
    | bool | text => rfl
    | list h => exact if_neg h

namespace Catalog

open Relation

variable {c : Catalog} {name owner target : String} {trail : List String} {fields : List Field}
  {f : Field} {e : Entity} {depth : Nat}

theorem mapM_buildSlot_cons {make : Entity → Except Halt Instance}
    (hvalue : c.buildValue make owner f = (c.zeroValue owner trail f).mapError .fault)
    (hrest : fields.mapM (c.buildSlot make owner) =
      (c.zeroSlots owner trail fields).mapError .fault) :
    (f :: fields).mapM (c.buildSlot make owner) =
      (c.zeroSlots owner trail (f :: fields)).mapError .fault := by
  rw [List.mapM_cons, buildSlot, hvalue, hrest, zeroSlots_cons]
  cases c.zeroValue owner trail f with
  | error fault => rfl
  | ok value => cases c.zeroSlots owner trail fields <;> rfl

theorem buildValue_plain {make : Entity → Except Halt Instance}
    (ht : ∀ target, f.ty ≠ .entity target) :
    c.buildValue make owner f = (c.zeroValue owner trail f).mapError .fault := by
  obtain ⟨name, ty, order⟩ := f
  cases ty with
  | entity target => exact absurd rfl (ht target)
  | primitive kind =>
    simp only [buildValue, zeroValue]
    cases Value.zero? (.primitive kind) <;> rfl
  | list inner =>
    simp only [buildValue, zeroValue]
    cases Value.zero? (.list inner) <;> rfl

theorem build_succ (depth : Nat) (e : Entity) : c.build (depth + 1) e =
    (fun slots ↦ ⟨e.name, slots⟩) <$> e.fields.mapM (c.buildSlot (c.build depth) e.name) :=
  rfl

theorem buildValue_entity (ht : f.ty = .entity target) (hm : target ∉ trail)
    (hf : c.find? target = some e)
    (hinner : e.fields.mapM (c.buildSlot (c.build depth) target) =
      (c.zeroSlots target (target :: trail) e.fields).mapError .fault) :
    c.buildValue (c.build (depth + 1)) owner f = (c.zeroValue owner trail f).mapError .fault := by
  rw [zeroValue_entity ht hm hf, buildValue, ht]
  simp only [hf, build_succ, name_of_find? hf, hinner]
  cases c.zeroSlots target (target :: trail) e.fields <;> rfl

/-- Calls that may nest as deep as there are entities not yet under construction are enough. -/
theorem mapM_buildSlot_eq (h : c.Underway owner trail) (hf : c.find? owner = some e)
    (hs : fields ⊆ e.fields) : ∀ depth, c.unseen ([·.name]) trail ≤ depth →
      fields.mapM (c.buildSlot (c.build depth) owner) =
        (c.zeroSlots owner trail fields).mapError .fault := by
  refine h.induction (motive := fun owner trail fields ↦ ∀ depth,
    c.unseen ([·.name]) trail ≤ depth → fields.mapM (c.buildSlot (c.build depth) owner) =
      (c.zeroSlots owner trail fields).mapError .fault) ?_ ?_ ?_ hf hs
  · intro owner trail depth _
    rw [zeroSlots]
    rfl
  · intro owner trail f fields e _ _ ht ih depth hd
    exact mapM_buildSlot_cons (buildValue_plain ht) (ih depth hd)
  · intro owner trail f fields target e _ ht hm hf ihe ih depth hd
    have hlt : c.unseen ([·.name]) (target :: trail) + 1 ≤ c.unseen ([·.name]) trail :=
      unseen_cons_add_le ([·.name]) hf hm
    obtain ⟨depth, rfl⟩ : ∃ less, depth = less + 1 := ⟨depth - 1, by omega⟩
    exact mapM_buildSlot_cons (buildValue_entity ht hm hf (ihe depth (by omega))) (ih _ hd)

theorem buildDefault_eq (c : Catalog) (name : String) (hd : c.entities.length ≤ depth) :
    c.buildDefault depth name = (c.zeroInstance name).mapError .fault := by
  rw [buildDefault, zeroInstance]
  cases hr : c.resolve name with
  | error error => rfl
  | ok e =>
    have hf := find?_of_resolve hr
    have hlt : c.unseen ([·.name]) [name] + 1 ≤ c.unseen ([·.name]) [] :=
      unseen_cons_add_le ([·.name]) hf List.not_mem_nil
    have hall : c.unseen ([·.name]) [] = c.entities.length := by simp [unseen]
    obtain ⟨depth, rfl⟩ : ∃ less, depth = less + 1 := ⟨depth - 1, by omega⟩
    have hslots := mapM_buildSlot_eq (Underway.start hr) hf (fun _ ↦ id) depth (by omega)
    simp only [build_succ, name_of_find? hf, hslots]
    cases c.zeroSlots name [name] e.fields <;> rfl

theorem build_ne_schema (hf : c.find? name = some e)
    (hd : ∀ other, ReflTransGen c.Holds name other → other ∈ c.names) (error : SchemaError) :
    c.build depth e ≠ .error (.fault (.schema error)) := by
  induction depth generalizing name e with
  | zero => simp [build]
  | succ depth ih =>
    rw [build_succ, ne_eq, map_eq_error_iff]
    intro h
    obtain ⟨f, hfield, hslot⟩ := exists_of_mapM_eq_error h
    rw [buildSlot, map_eq_error_iff, buildValue] at hslot
    split at hslot
    · next target ht =>
      have hh : c.Holds name target := ⟨_, hf, f, hfield, ht⟩
      split at hslot
      · next hn => exact find?_eq_none_iff.1 hn (hd target (.single hh))
      · next e' hf' =>
        exact ih hf' (fun other ho ↦ hd other (.head hh ho)) (map_eq_error_iff.1 hslot)
    · split at hslot <;> cases hslot

/-- The fields met in the order of declaration, those of an entity right after the field that holds
it, each with the entity it belongs to. -/
inductive Tour (c : Catalog) : String → List Field → List (String × Field) → Prop
  | nil {owner : String} : Tour c owner [] []
  | plain {owner : String} {f : Field} {fields : List Field} {rest : List (String × Field)}
      (ht : ∀ target, f.ty ≠ .entity target) (h : Tour c owner fields rest) :
      Tour c owner (f :: fields) ((owner, f) :: rest)
  | entity {owner target : String} {f : Field} {fields : List Field} {e : Entity}
      {inner rest : List (String × Field)} (ht : f.ty = .entity target)
      (hf : c.find? target = some e) (hi : Tour c target e.fields inner)
      (h : Tour c owner fields rest) : Tour c owner (f :: fields) ((owner, f) :: inner ++ rest)

def firstVoid? (tour : List (String × Field)) : Option (String × Field) :=
  tour.find? fun visit ↦ visit.2.ty.primitive? = some .void

def voidError (visit : String × Field) : ValueError :=
  .unsupportedPrimitive visit.1 visit.2.name .void

theorem firstVoid?_append (first second : List (String × Field)) :
    firstVoid? (first ++ second) = (firstVoid? first).or (firstVoid? second) :=
  List.find?_append

structure EndsAt {α : Type} (outcome : Except ValueError α) (tour : List (String × Field)) :
    Prop where
  void : ∀ visit, firstVoid? tour = some visit → outcome = .error (voidError visit)
  clear : firstVoid? tour = none → ∃ a, outcome = .ok a

namespace EndsAt

variable {α β : Type} {outcome : Except ValueError α} {tour first second : List (String × Field)}

theorem map (g : α → β) (h : EndsAt outcome tour) : EndsAt (g <$> outcome) tour := by
  refine ⟨?_, ?_⟩
  · intro visit hv
    rw [h.void visit hv]
    rfl
  · intro hn
    obtain ⟨a, rfl⟩ := h.clear hn
    exact ⟨g a, rfl⟩

theorem bind {next : α → Except ValueError β} (h : EndsAt outcome first)
    (hnext : ∀ a, EndsAt (next a) second) : EndsAt (outcome >>= next) (first ++ second) := by
  cases hv : firstVoid? first with
  | some visit =>
    have happend : firstVoid? (first ++ second) = some visit := by
      rw [firstVoid?_append, hv, Option.some_or]
    rw [h.void visit hv]
    refine ⟨?_, ?_⟩
    · intro other ho
      cases happend.symm.trans ho
      rfl
    · intro hn
      cases happend.symm.trans hn
  | none =>
    have happend : firstVoid? (first ++ second) = firstVoid? second := by
      rw [firstVoid?_append, hv, Option.none_or]
    obtain ⟨a, rfl⟩ := h.clear hv
    refine ⟨?_, ?_⟩
    · intro visit hs
      exact (hnext a).void visit (happend.symm.trans hs)
    · intro hn
      exact (hnext a).clear (happend.symm.trans hn)

theorem eq_error_iff (h : EndsAt outcome tour) {fault : ValueError} : outcome = .error fault ↔
    ∃ visit, firstVoid? tour = some visit ∧ fault = voidError visit := by
  constructor
  · rintro rfl
    cases hv : firstVoid? tour with
    | none =>
      obtain ⟨a, ha⟩ := h.clear hv
      cases ha
    | some visit =>
      cases h.void visit hv
      exact ⟨visit, rfl, rfl⟩
  · rintro ⟨visit, hv, rfl⟩
    exact h.void visit hv

end EndsAt

theorem endsAt_zeroValue_plain (ht : ∀ target, f.ty ≠ .entity target) :
    EndsAt (c.zeroValue owner trail f) [(owner, f)] := by
  have hcases := c.zeroValue_cases owner trail f
  generalize c.zeroValue owner trail f = outcome at hcases
  cases hcases with
  | @plain zero hz =>
    have hv : f.ty.primitive? ≠ some .void := by
      intro hv
      rw [Value.zero?_eq_none_iff.2 (.inr hv)] at hz
      cases hz
    exact ⟨by simp [firstVoid?, hv], fun _ ↦ ⟨zero, rfl⟩⟩
  | void hv => exact ⟨by simp [firstVoid?, hv, voidError], by simp [firstVoid?, hv]⟩
  | cycle hty | dangling hty | entity hty => exact absurd hty (ht _)

theorem exists_tour (h : c.Underway owner trail) (hf : c.find? owner = some e)
    (hs : fields ⊆ e.fields) :
    ∃ tour, c.Tour owner fields tour ∧ EndsAt (c.zeroSlots owner trail fields) tour := by
  refine h.induction (motive := fun owner trail fields ↦ ∃ tour, c.Tour owner fields tour ∧
    EndsAt (c.zeroSlots owner trail fields) tour) ?_ ?_ ?_ hf hs
  · intro owner trail
    refine ⟨[], .nil, ?_⟩
    rw [zeroSlots]
    exact ⟨by simp [firstVoid?], fun _ ↦ ⟨[], rfl⟩⟩
  · intro owner trail f fields e _ _ ht ih
    obtain ⟨rest, hrest, hends⟩ := ih
    refine ⟨(owner, f) :: rest, .plain ht hrest, ?_⟩
    rw [zeroSlots_cons]
    exact (endsAt_zeroValue_plain ht).bind fun value ↦ hends.map _
  · intro owner trail f fields target e _ ht hm hf ihe ih
    obtain ⟨inner, hinner, hbelow⟩ := ihe
    obtain ⟨rest, hrest, hends⟩ := ih
    refine ⟨(owner, f) :: inner ++ rest, .entity ht hf hinner hrest, ?_⟩
    rw [zeroSlots_cons]
    have hvalue : EndsAt (c.zeroValue owner trail f) ((owner, f) :: inner) := by
      have hskip : firstVoid? ((owner, f) :: inner) = firstVoid? inner := by
        simp [firstVoid?, ht]
      rw [zeroValue_entity ht hm hf]
      refine ⟨?_, ?_⟩ <;> rw [hskip]
      · exact (hbelow.map _).void
      · exact (hbelow.map _).clear
    exact hvalue.bind fun value ↦ hends.map _

/-- Construction by nested calls ends, with the same outcome as soon as calls may nest as deep as
there are entities. It succeeds if and only if the entity resolves and none of those it holds, and
these hold, has a field of type `void`; then every field has its zero, all the way down. If it fails
for a resolved entity, then for the first field of type `void` on the tour through its fields, and
never for an entity that is missing. -/
theorem zeroInstance_decides (c : Catalog) (name : String) :
    (∀ depth, c.entities.length ≤ depth →
      c.buildDefault depth name = (c.zeroInstance name).mapError .fault) ∧
    ((∃ i, c.zeroInstance name = .ok i) ↔ (∃ e, c.resolve name = .ok e) ∧
      ∀ other, ReflTransGen c.Holds name other → c.Storable other) ∧
    (∀ i, c.zeroInstance name = .ok i →
      ∃ e, c.find? name = some e ∧ i.entity = name ∧ c.Zeroed e.fields i.slots) ∧
    (∀ ty v, Value.zero? ty = some v ↔ Value.IsZero ty v) ∧
    (∀ error, c.resolve name = .error error → c.zeroInstance name = .error (.schema error)) ∧
    ∀ e, c.resolve name = .ok e →
      (∃ tour, c.Tour name e.fields tour ∧ ∀ fault, c.zeroInstance name = .error fault ↔
        ∃ visit, firstVoid? tour = some visit ∧ fault = voidError visit) ∧
      ∀ depth error, c.build depth e ≠ .error (.fault (.schema error)) := by
  refine ⟨fun depth ↦ c.buildDefault_eq name, ?_, fun i ↦ zeroed_of_zeroInstance,
    fun ty v ↦ Value.zero?_eq_some_iff, ?_, ?_⟩
  · constructor
    · rintro ⟨i, hi⟩
      cases hr : c.resolve name with
      | error error => simp [zeroInstance, hr] at hi
      | ok e => exact ⟨⟨e, rfl⟩, (exists_zeroInstance_iff hr).1 ⟨i, hi⟩⟩
    · rintro ⟨⟨e, hr⟩, hs⟩
      exact (exists_zeroInstance_iff hr).2 hs
  · intro error hr
    rw [zeroInstance, hr]
  · intro e hr
    have hunderway := Underway.start hr
    have hf := find?_of_resolve hr
    obtain ⟨tour, htour, hends⟩ := exists_tour hunderway hf fun _ ↦ id
    refine ⟨⟨tour, htour, fun fault ↦ ?_⟩, fun depth ↦ build_ne_schema hf hunderway.declared⟩
    rw [zeroInstance_of_resolve hr, map_eq_error_iff]
    exact hends.eq_error_iff

end Catalog

end ValueContract
