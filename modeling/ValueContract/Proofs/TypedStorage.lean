import Mathlib.Logic.Function.Basic
import ValueContract.Proofs.Copying
import ValueContract.Proofs.DefaultConstruction
import ValueContract.Proofs.Definition
import ValueContract.Proofs.FieldWrite

namespace ValueContract

open Relation

variable {v w : Value} {i j : Instance} {ty : TypeExpr} {kind : Primitive} {m : Int}

namespace Primitive

def width? : Primitive → Option Nat
  | .i8 | .u8 => some 8
  | .i16 | .u16 => some 16
  | .i32 | .u32 => some 32
  | .i64 | .u64 => some 64
  | _ => none

/-- The integers that so many bits can tell apart, half of them negative in a signed kind. -/
def Covers (kind : Primitive) (m : Int) : Prop :=
  ∃ width, kind.width? = some width ∧
    if kind.isSigned then -Nat.pow 2 (width - 1) ≤ m ∧ m < Nat.pow 2 (width - 1)
    else 0 ≤ m ∧ m < Nat.pow 2 width

theorem covers_iff_range? :
    kind.Covers m ↔ ∃ bounds, kind.range? = some bounds ∧ bounds.1 ≤ m ∧ m ≤ bounds.2 := by
  cases kind <;> simp [Covers, range?, width?, isSigned] <;> omega

theorem toInt_ofInt (hs : kind.isSigned) (h : kind.Covers m) : (Int64.ofInt m).toInt = m := by
  obtain ⟨⟨least, greatest⟩, hr, hl, hg⟩ := covers_iff_range?.1 h
  have hword : -0x8000000000000000 ≤ least ∧ greatest ≤ 0x7FFFFFFFFFFFFFFF := by
    cases kind <;> cases hr <;> simp_all [isSigned]
  exact Int64.toInt_ofInt_of_le (by omega) (by omega)

theorem isUnsigned_of_covers (hs : ¬kind.isSigned) (h : kind.Covers m) : kind.isUnsigned := by
  obtain ⟨width, hw, -⟩ := h
  cases kind <;> simp_all [width?, isSigned, isUnsigned]

theorem toNat_ofNat (hs : ¬kind.isSigned) (h : kind.Covers m) :
    ((UInt64.ofNat m.toNat).toNat : Int) = m := by
  obtain ⟨⟨least, greatest⟩, hr, hl, hg⟩ := covers_iff_range?.1 h
  have hword : 0 ≤ least ∧ greatest ≤ 0xFFFFFFFFFFFFFFFF := by
    cases kind <;> cases hr <;> simp_all [isSigned]
  have hlt : m.toNat < UInt64.size := by
    rw [UInt64.size]
    omega
  rw [UInt64.toNat_ofNat_of_lt' hlt]
  omega

end Primitive

namespace Value

def FitsKind (kind : Primitive) : Value → Prop
  | .int n => kind.isSigned ∧ kind.Covers n.toInt
  | .uint n => kind.isUnsigned ∧ kind.Covers n.toNat
  | .float x => kind = .f64 ∨ kind = .f32 ∧ ∃ y : Binary32, x = y.widen
  | .bool _ => kind = .bool
  | .text _ => kind = .string
  | .list _ | .entity _ => False

/-- A field of the type can hold the value. Of an instance only the entity's name counts here. -/
def Fits : TypeExpr → Value → Prop
  | .primitive kind, v => v.FitsKind kind
  | .list inner, .list items => ∀ v ∈ items, Fits inner v
  | .entity name, .entity i => i.entity = name
  | _, _ => False

theorem fitsKind_of_ofInteger? (h : ofInteger? kind m = some w) :
    w.FitsKind kind ∧ w.integer? = some m := by
  unfold ofInteger? at h
  split at h
  · cases h
  · next least greatest hr =>
    split at h
    · next hm =>
      have hrange : kind.Covers m := Primitive.covers_iff_range?.2 ⟨(least, greatest), hr, hm⟩
      cases h
      split
      · next hs =>
        have hint := Primitive.toInt_ofInt hs hrange
        exact ⟨⟨hs, by rwa [hint]⟩, congrArg some hint⟩
      · next hs =>
        have hnat := Primitive.toNat_ofNat hs hrange
        exact ⟨⟨Primitive.isUnsigned_of_covers hs hrange, by rwa [hnat]⟩, congrArg some hnat⟩
    · cases h

theorem fitsKind_of_coercePrimitive (h : coercePrimitive kind v = some w) : w.FitsKind kind := by
  unfold coercePrimitive at h
  split at h
  · obtain ⟨m, -, hm⟩ := Option.bind_eq_some_iff.1 h
    exact (fitsKind_of_ofInteger? hm).1
  · cases h
    cases kind <;> simp_all [Primitive.category, FitsKind]
  · cases h
    cases kind <;> simp_all [Primitive.category, FitsKind]
  · cases h
    cases kind <;> simp_all [Primitive.category, FitsKind]
  · cases h

theorem fits_of_coerce (h : v.coerce ty = some w) : w.Fits ty := by
  induction ty generalizing v w with
  | primitive kind => exact fitsKind_of_coercePrimitive (by simpa [coerce] using h)
  | entity name =>
    cases v with
    | entity i =>
      rw [coerce] at h
      split at h
      · next hn =>
        cases h
        exact hn
      · cases h
    | _ => cases h
  | list inner ih =>
    cases v with
    | list items =>
      obtain ⟨stored, hs, rfl⟩ := Option.map_eq_some_iff.1 h
      intro w hw
      obtain ⟨v, -, hv⟩ := exists_of_forall₂_right (mapM_eq_some_iff.1 hs) hw
      exact ih hv
    | _ => cases h

theorem not_contains_of_fitsKind (h : v.FitsKind kind) : ¬v.Contains i := by
  rintro (_ | _ | _) <;> exact h

theorem contains_of_coerce (h : v.coerce ty = some w) (hw : w.Contains i) : v.Contains i := by
  induction ty generalizing v w with
  | primitive kind => exact absurd hw (not_contains_of_fitsKind (fits_of_coerce h))
  | entity name =>
    cases v with
    | entity j =>
      rw [coerce] at h
      split at h
      · cases h
        exact hw
      · cases h
    | _ => cases h
  | list inner ih =>
    cases v with
    | list items =>
      obtain ⟨stored, hs, rfl⟩ := Option.map_eq_some_iff.1 h
      cases hw with
      | item hm hc =>
        obtain ⟨v, hv, hvw⟩ := exists_of_forall₂_right (mapM_eq_some_iff.1 hs) hm
        exact .item hv (ih hvw hc)
    | _ => cases h

theorem fitsKind_of_zero? (h : Value.zero? (.primitive kind) = some v) : v.FitsKind kind := by
  have hzero : Binary64.zero = Binary32.widen ⟨0⟩ := by decide
  cases kind <;> cases h <;>
    simp [FitsKind, Primitive.isSigned, Primitive.isUnsigned, Primitive.Covers, Primitive.width?]
  exact ⟨_, hzero⟩

theorem fits_of_zero? (h : Value.zero? ty = some v) : v.Fits ty ∧ ∀ i, ¬v.Contains i := by
  cases ty with
  | primitive kind =>
    have hfits := fitsKind_of_zero? h
    exact ⟨hfits, fun i ↦ not_contains_of_fitsKind hfits⟩
  | entity name => cases h
  | list inner =>
    rw [zero?] at h
    split at h
    · cases h
    · cases h
      refine ⟨by simp [Fits], ?_⟩
      rintro i (_ | _ | ⟨hv, _⟩)
      cases hv

end Value

/-- The instance has no field twice, and its fields hold values of their types. -/
structure Record.WellTyped (i : Instance) : Prop where
  nodup : (i.slots.map (·.name)).Nodup
  storable : ∀ slot ∈ i.slots, slot.ty.primitive? ≠ some .void
  fits : ∀ slot ∈ i.slots, slot.value.Fits slot.ty

def Value.Typed (v : Value) : Prop :=
  ∀ i, v.Contains i → i.WellTyped

namespace Value

theorem typed_entity_iff :
    (entity i).Typed ↔ i.WellTyped ∧ ∀ slot ∈ i.slots, slot.value.Typed :=
  forall_contains_entity_iff

theorem Typed.of_coerce (hv : v.Typed) (h : v.coerce ty = some w) : w.Typed :=
  fun i hi ↦ hv i (contains_of_coerce h hi)

end Value

theorem Record.typed_put {field : String} {slot : Slot Value} (h : (Value.entity i).Typed)
    (hs : i.slot field = .ok slot) (hw : w.Fits slot.ty) (ht : w.Typed) :
    (Value.entity (i.put field w)).Typed := by
  obtain ⟨before, after, hslots, hput⟩ := exists_put hs
  obtain ⟨hi, hinner⟩ := Value.typed_entity_iff.1 h
  rw [hput, Value.typed_entity_iff]
  have hnames := hi.nodup
  have hstorable := hi.storable
  have hfits := hi.fits
  rw [hslots] at hnames hstorable hfits hinner
  simp only [List.forall_mem_append, List.forall_mem_cons] at hstorable hfits hinner
  refine ⟨⟨by simpa using hnames, ?_, ?_⟩, ?_⟩ <;>
    simp only [List.forall_mem_append, List.forall_mem_cons]
  · exact hstorable
  · exact ⟨hfits.1, hw, hfits.2.2⟩
  · exact ⟨hinner.1, ht, hinner.2.2⟩

theorem Record.typed_modifyAt {change : Instance → Except ValueError Instance} {path : List String}
    (hchange : ∀ {i j : Instance}, (Value.entity i).Typed → change i = .ok j →
      (Value.entity j).Typed ∧ j.entity = i.entity)
    (h : (Value.entity i).Typed) (hm : i.modifyAt change path = .ok j) :
    (Value.entity j).Typed ∧ j.entity = i.entity := by
  induction path generalizing i j with
  | nil => exact hchange h hm
  | cons field path ih =>
    obtain ⟨slot, inner, inner', hs, hv, hrest, rfl⟩ := modifyAt_cons_eq_ok hm
    have hmem : slot ∈ i.slots := List.mem_of_find?_eq_some (slot_eq_ok_iff.1 hs)
    obtain ⟨hi, hinner⟩ := Value.typed_entity_iff.1 h
    obtain ⟨ht, hname⟩ := ih (hv ▸ hinner slot hmem) hrest
    refine ⟨typed_put h hs ?_ ht, rfl⟩
    -- the field holds an entity of the same name as before
    have hfits := hi.fits slot hmem
    rw [hv] at hfits
    cases hty : slot.ty with
    | entity name =>
      rw [hty] at hfits
      exact hname.trans hfits
    | primitive kind => simp [hty, Value.Fits, Value.FitsKind] at hfits
    | list ty => simp [hty, Value.Fits] at hfits

theorem Record.typed_set {field : String} (h : (Value.entity i).Typed) (hv : v.Typed)
    (hs : i.set field v = .ok j) : (Value.entity j).Typed ∧ j.entity = i.entity := by
  obtain ⟨slot, stored, hslot, hc, rfl⟩ := set_eq_ok hs
  exact ⟨typed_put h hslot (Value.fits_of_coerce hc) (hv.of_coerce hc), rfl⟩

theorem Record.typed_copyTo (h : (Value.entity i).Typed) {k : Instance} (hc : i.copyTo j = .ok k) :
    (Value.entity k).Typed ∧ k.entity = j.entity := by
  obtain ⟨hshape, rfl⟩ := copyTo_eq_ok_iff.1 hc
  exact ⟨h, (sameShape_iff.1 hshape).1⟩

namespace Catalog

variable {c : Catalog} {fields : List Field} {slots : List (Slot Value)} {name : String}

theorem Zeroed.shape_eq (h : c.Zeroed fields slots) :
    Record.shape slots = fields.map fun f ↦ (f.name, f.ty) := by
  induction h with
  | nil => rfl
  | plain _ _ ih | entity _ _ _ _ _ ih => simpa [Record.shape] using ih

theorem names_eq_of_shape_eq (h : Record.shape slots = fields.map fun f ↦ (f.name, f.ty)) :
    slots.map (·.name) = fields.map (·.name) := by
  simpa [Record.shape, Function.comp_def] using congrArg (List.map Prod.fst) h

theorem Zeroed.fits (h : c.Zeroed fields slots) :
    ∀ slot ∈ slots, slot.ty.primitive? ≠ some .void ∧ slot.value.Fits slot.ty := by
  induction h with
  | nil => simp
  | @plain f fields slots zero hz _ ih =>
    refine List.forall_mem_cons.2 ⟨⟨?_, (Value.fits_of_zero? hz).1⟩, ih⟩
    intro hv
    simp [Value.zero?_eq_none_iff.2 (.inr hv)] at hz
  | entity ht _ _ _ _ ih =>
    exact List.forall_mem_cons.2 ⟨⟨by simp [ht], by simp [ht, Value.Fits]⟩, ih⟩

theorem Zeroed.of_contains (h : c.Zeroed fields slots) : ∀ slot ∈ slots, ∀ i : Instance,
    slot.value.Contains i → ∃ e, c.find? i.entity = some e ∧ c.Zeroed e.fields i.slots := by
  induction h with
  | nil => simp
  | plain hz _ ih =>
    refine List.forall_mem_cons.2 ⟨fun i hi ↦ ?_, ih⟩
    exact absurd hi ((Value.fits_of_zero? hz).2 i)
  | entity _ hf hz _ ihi ih =>
    exact List.forall_mem_cons.2 ⟨Value.forall_contains_entity_iff.2 ⟨⟨_, hf, hz⟩, ihi⟩, ih⟩

theorem zeroed_of_contains (h : c.zeroInstance name = .ok i) : ∀ j : Instance,
    (Value.entity i).Contains j → ∃ e, c.find? j.entity = some e ∧ c.Zeroed e.fields j.slots := by
  obtain ⟨e, hf, rfl, hz⟩ := zeroed_of_zeroInstance h
  exact Value.forall_contains_entity_iff.2 ⟨⟨e, hf, hz⟩, hz.of_contains⟩

theorem typed_zeroInstance (hc : c.Built) (h : c.zeroInstance name = .ok i) :
    (Value.entity i).Typed := by
  intro j hj
  obtain ⟨e, hf, hz⟩ := zeroed_of_contains h j hj
  have hnodup := (hc.defined_of_find? hf).namedFields.2
  rw [← names_eq_of_shape_eq hz.shape_eq] at hnodup
  exact ⟨hnodup, fun slot hs ↦ (hz.fits slot hs).1, fun slot hs ↦ (hz.fits slot hs).2⟩

end Catalog

abbrev Variables := String → Option Instance

namespace Variables

variable {vars vars' : Variables} {var : String}

def Holds (vars : Variables) (i : Instance) : Prop :=
  ∃ var root, vars var = some root ∧ (Value.entity root).Contains i

/-- The values that can be put together from what the variables hold. -/
inductive Available (vars : Variables) : Value → Prop
  | int (n : Int64) : Available vars (.int n)
  | uint (n : UInt64) : Available vars (.uint n)
  | float (x : Binary64) : Available vars (.float x)
  | bool (b : Bool) : Available vars (.bool b)
  | text (s : String) : Available vars (.text s)
  | list {items : List Value} (h : ∀ v ∈ items, Available vars v) : Available vars (.list items)
  | entity {i : Instance} (h : vars.Holds i) : Available vars (.entity i.clone)
  | field {i : Instance} {slot : Slot Value} (h : vars.Holds i) (hs : slot ∈ i.slots) :
      Available vars slot.value.clone

/-- One operation on the variables. Instances come from any catalogue that can be built, and an
instance may be read wherever it stands and written at the end of any path. -/
inductive Step (vars : Variables) : Variables → Prop
  | create {c : Catalog} {name : String} {i : Instance} (var : String) (hc : c.Built)
      (h : c.zeroInstance name = .ok i) : Step vars (Function.update vars var (some i))
  | set {root root' : Instance} {path : List String} {field : String} {v : Value} (var : String)
      (hv : vars.Available v) (hr : vars var = some root)
      (h : root.setAt path field v = .ok root') : Step vars (Function.update vars var (some root'))
  | copyTo {source root root' : Instance} {path : List String} (var : String)
      (hs : vars.Holds source) (hr : vars var = some root)
      (h : root.modifyAt (source.copyTo ·) path = .ok root') :
      Step vars (Function.update vars var (some root'))
  | assign {source root root' : Instance} {path : List String} (var : String)
      (hs : vars.Holds source) (hr : vars var = some root)
      (h : root.modifyAt (·.assign source) path = .ok root') :
      Step vars (Function.update vars var (some root'))
  | clone {source : Instance} (var : String) (hs : vars.Holds source) :
      Step vars (Function.update vars var (some source.clone))

def Typed (vars : Variables) : Prop :=
  ∀ var root, vars var = some root → (Value.entity root).Typed

theorem Holds.of_contains (h : vars.Holds i) (hj : (Value.entity i).Contains j) :
    vars.Holds j := by
  obtain ⟨var, root, hr, hi⟩ := h
  exact ⟨var, root, hr, hi.trans hj⟩

theorem Typed.of_holds (h : vars.Typed) (hi : vars.Holds i) : (Value.entity i).Typed := by
  intro j hj
  obtain ⟨var, root, hr, hj⟩ := hi.of_contains hj
  exact h var root hr j hj

/-- Values are put together from clones, so there is no instance in them that is not held. -/
theorem Available.holds (hv : vars.Available v) (hi : v.Contains i) : vars.Holds i := by
  induction hv with
  | list _ ih =>
    cases hi with
    | item hm hi => exact ih _ hm hi
  | entity hj =>
    rw [Record.clone_eq] at hi
    exact hj.of_contains hi
  | field hj hs =>
    rw [(Value.copy_eq _).2] at hi
    exact hj.of_contains (.slot hs hi)
  | _ => cases hi

theorem Typed.of_available (h : vars.Typed) (hv : vars.Available v) : v.Typed :=
  fun i hi ↦ h.of_holds (hv.holds hi) i (.here i)

theorem holds_update {root : Instance}
    (h : Holds (Function.update vars var (some root)) i) :
    vars.Holds i ∨ (Value.entity root).Contains i := by
  obtain ⟨other, root', hr, hi⟩ := h
  by_cases ho : other = var
  · subst ho
    rw [Function.update_self] at hr
    cases hr
    exact .inr hi
  · rw [Function.update_of_ne ho] at hr
    exact .inl ⟨other, root', hr, hi⟩

theorem Typed.update {root : Instance} (h : vars.Typed) (hr : (Value.entity root).Typed) :
    Typed (Function.update vars var (some root)) := by
  intro other root' hr' i hi
  rcases holds_update ⟨other, root', hr', hi⟩ with hi | hi
  · exact h.of_holds hi i (.here i)
  · exact hr i hi

theorem Step.typed (h : Step vars vars') (hv : vars.Typed) : vars'.Typed := by
  cases h with
  | create var hc hz => exact hv.update (Catalog.typed_zeroInstance hc hz)
  | set var ha hr hs =>
    have hvalue := hv.of_available ha
    exact hv.update (Record.typed_modifyAt (fun hi ↦ Record.typed_set hi hvalue) (hv _ _ hr) hs).1
  | copyTo var hsource hr hs | assign var hsource hr hs =>
    have htyped := hv.of_holds hsource
    exact hv.update (Record.typed_modifyAt (fun _ ↦ Record.typed_copyTo htyped) (hv _ _ hr) hs).1
  | clone var hsource =>
    rw [Record.clone_eq]
    exact hv.update (hv.of_holds hsource)

theorem typed_of_run (h : ReflTransGen Step (fun _ ↦ none) vars) : vars.Typed := by
  induction h with
  | refl => exact nofun
  | tail _ hstep ih => exact hstep.typed ih

/-- Whatever is done to instances, each of them has no field twice, no field of type `void` and in
each field a value of its type, at any depth. -/
theorem typed_storage (h : ReflTransGen Step (fun _ ↦ none) vars) (hi : vars.Holds i) :
    (i.slots.map (·.name)).Nodup ∧
      ∀ slot ∈ i.slots, slot.ty.primitive? ≠ some .void ∧ slot.value.Fits slot.ty := by
  have hw := (typed_of_run h).of_holds hi i (.here i)
  exact ⟨hw.nodup, fun slot hs ↦ ⟨hw.storable slot hs, hw.fits slot hs⟩⟩

def planar : Catalog where
  entities :=
    [⟨"Point", [⟨"x", .primitive .u8, 0⟩], []⟩, ⟨"Shape", [⟨"centre", .entity "Point", 0⟩], []⟩]

def spatial : Catalog where
  entities := [⟨"Point", [⟨"height", .primitive .f32, 0⟩], []⟩]

def planarPoint : Instance := ⟨"Point", [⟨"x", .primitive .u8, .uint 0⟩]⟩

def spatialPoint : Instance := ⟨"Point", [⟨"height", .primitive .f32, .float .zero⟩]⟩

def shapeAround (centre : Instance) : Instance :=
  ⟨"Shape", [⟨"centre", .entity "Point", .entity centre⟩]⟩

theorem planar_built : planar.Built := by
  have hpoint : Entity.define "Point" [("x", .primitive .u8)] = .ok planar.entities[0] := rfl
  have hshape : Entity.define "Shape" [("centre", .entity "Point")] = .ok planar.entities[1] := rfl
  exact .declare (.declare .empty (.define hpoint) rfl) (.define hshape) rfl

theorem spatial_built : spatial.Built := by
  have hpoint : Entity.define "Point" [("height", .primitive .f32)] = .ok spatial.entities[0] := rfl
  exact .declare .empty (.define hpoint) rfl

theorem zeroInstance_spatial : spatial.zeroInstance "Point" = .ok spatialPoint := by
  have hr : spatial.resolve "Point" = .ok ⟨"Point", [⟨"height", .primitive .f32, 0⟩], []⟩ := by
    decide +kernel
  rw [Catalog.zeroInstance_of_resolve hr, Catalog.zeroSlots_cons, Catalog.zeroSlots]
  rfl

theorem zeroInstance_planar : planar.zeroInstance "Shape" = .ok (shapeAround planarPoint) := by
  have hr : planar.resolve "Shape" = .ok ⟨"Shape", [⟨"centre", .entity "Point", 0⟩], []⟩ := by
    decide +kernel
  have hf : planar.find? "Point" = some ⟨"Point", [⟨"x", .primitive .u8, 0⟩], []⟩ := by decide
  rw [Catalog.zeroInstance_of_resolve hr, Catalog.zeroSlots_cons, Catalog.zeroSlots]
  simp only [Catalog.zeroValue, hf]
  rw [if_neg (by decide), Catalog.zeroSlots_cons, Catalog.zeroSlots]
  rfl

/-- A spatial point may take the place of a planar one, since only its entity's name is looked at,
and it stays a spatial point there. -/
theorem typed_storage_mixed : ∃ vars : Variables, ReflTransGen Step (fun _ ↦ none) vars ∧
    vars "shape" = some (shapeAround spatialPoint) ∧ vars.Holds spatialPoint ∧
      (spatialPoint.slots.map (·.name)).Nodup ∧
      ∀ slot ∈ spatialPoint.slots,
        slot.ty.primitive? ≠ some .void ∧ slot.value.Fits slot.ty := by
  let start : Variables := fun _ ↦ none
  let withPoint : Variables := Function.update start "point" (some spatialPoint)
  let withShape : Variables :=
    Function.update withPoint "shape" (some (shapeAround planarPoint))
  let mixed : Variables :=
    Function.update withShape "shape" (some (shapeAround spatialPoint))
  have hpoint : withShape.Holds spatialPoint := ⟨"point", spatialPoint, rfl, .here _⟩
  have hset : (shapeAround planarPoint).setAt [] "centre" (.entity spatialPoint.clone) =
      .ok (shapeAround spatialPoint) := rfl
  have hrun : ReflTransGen Step start mixed :=
    .tail (.tail (.single (.create "point" spatial_built zeroInstance_spatial))
      (.create "shape" planar_built zeroInstance_planar))
      (.set "shape" (.entity hpoint) rfl hset)
  have hheld : mixed.Holds spatialPoint :=
    ⟨"shape", shapeAround spatialPoint, rfl, .slot List.mem_cons_self (.here _)⟩
  exact ⟨mixed, hrun, rfl, hheld, typed_storage hrun hheld⟩

end Variables

end ValueContract
