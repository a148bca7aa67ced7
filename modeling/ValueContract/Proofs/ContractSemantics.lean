import Mathlib.Data.Set.Finite.List
import Mathlib.Order.Filter.AtTopBot.Basic
import Mathlib.Order.Filter.Finite
import ValueContract.Proofs.GeneratedClass
import ValueContract.Proofs.ObjectTree

namespace ValueContract

open Relation Filter

variable {c : Catalog} {s : Settings} {e : Entity} {u : ClassUnit} {ty : TypeExpr}
  {name : String} {storage : Storage} {v w : Value} {i j : Instance}
  {slots source target : List (Slot Value)} {fields : List Field} {gs : List ClassField}
  {before after this that : List (String × Datum)}

/-- A run has the result whenever its calls may nest deep enough. -/
def Yields {α : Type} (run : Nat → Option α) (result : α) : Prop :=
  ∀ᶠ fuel in atTop, run fuel = some result

theorem eventually_succ {P Q : Nat → Prop} (h : ∀ᶠ fuel in atTop, P fuel)
    (hs : ∀ fuel, P fuel → Q (fuel + 1)) : ∀ᶠ fuel in atTop, Q fuel := by
  obtain ⟨bound, hb⟩ := eventually_atTop.1 h
  refine eventually_atTop.2 ⟨bound + 1, fun fuel hf ↦ ?_⟩
  obtain ⟨more, rfl⟩ := Nat.exists_eq_add_of_le' hf
  exact hs (more + bound) (hb _ (Nat.le_add_left bound more))

def Primitive.valueName (kind : Primitive) : String :=
  if kind.isSigned then "int"
  else if kind.isUnsigned then "uint"
  else
    match kind.category with
    | .boolean => "bool"
    | .text => "string"
    | _ => "float"

theorem Value.describe_of_fitsKind {kind : Primitive} (h : v.FitsKind kind) :
    v.describe = kind.valueName := by
  cases v with
  | int n => simp [describe, Primitive.valueName, h.1]
  | uint n =>
    obtain ⟨hu, -⟩ := h
    cases kind <;> simp [Primitive.isUnsigned] at hu <;> rfl
  | float x => obtain rfl | ⟨rfl, -⟩ := h <;> rfl
  | bool b | text s =>
    cases h
    rfl
  | list | entity => exact h.elim

namespace Program

variable {p : Program} {fuel : Nat}

theorem initialise_zero {create : String → Option Datum} {d : Datum}
    (hk : ClassUnit.Keeps ty storage) (hz : Value.zero? ty = some v)
    (hb : name ∉ before.map Prod.fst) :
    initialise create (before ++ (name, d) :: after) (Member.initialise ⟨name, storage⟩) =
      some (before ++ (name, v.datum.inField) :: after) := by
  cases hk with
  | owned => cases hz
  | held _ _ hzero =>
    simp [Member.initialise, initialise, Value.ofZero?_eq hz hzero, Datum.store?_append hb]

theorem initialise_new {create : String → Option Datum} {d : Datum}
    (hk : ClassUnit.Keeps (.entity i.entity) storage) (hi : create i.entity = some i.object)
    (hb : name ∉ before.map Prod.fst) :
    initialise create (before ++ (name, d) :: after) (Member.initialise ⟨name, storage⟩) =
      some (before ++ (name, (Value.entity i).datum.inField) :: after) := by
  cases hk with
  | owned =>
    rw [Value.inField_entity]
    simp [Member.initialise, initialise, hi, Datum.store?_append hb, Value.datum]
  | held hne => exact absurd rfl (hne i.entity)

/-- A value of the type is copied as it should, to a new place and, if it is an object, over the
object that `w` stands for. -/
def Copies (p : Program) (ty : TypeExpr) (v w : Value) (fuel : Nat) : Prop :=
  p.duplicate fuel v.datum = some v.datum ∧
    ∀ entity, ty = .entity entity → p.copyTo fuel v.datum w.datum = some v.datum

theorem Copies.copyLine_eq (h : p.Copies ty v w fuel) (hk : ClassUnit.Keeps ty storage)
    (hv : v.Fits ty) (hw : w.Fits ty) (ht : this.lookup name = some v.datum.inField)
    (hb : name ∉ before.map Prod.fst) :
    copyLine (p.duplicate fuel) (p.copyTo fuel) this
      (before ++ (name, w.datum.inField) :: after) (Member.copyField ⟨name, storage⟩) =
      some (before ++ (name, v.datum.inField) :: after) := by
  cases hk with
  | @owned entity =>
    obtain ⟨i, rfl⟩ := Value.exists_entity hv
    obtain ⟨j, rfl⟩ := Value.exists_entity hw
    rw [Value.inField_entity] at ht
    simp [Member.copyField, ClassField.isOwned, copyLine, Value.inField_entity, ht,
      Datum.lookup_append hb, Datum.target?, h.2 entity rfl, Datum.store?_append hb]
  | held hne =>
    rw [Value.inField_datum hv hne] at ht ⊢
    simp [Member.copyField, ClassField.isOwned, copyLine, ht, h.1, Datum.store?_append hb]

theorem compare_eq {equal : Datum → Datum → Option Bool} (hk : ClassUnit.Keeps ty storage)
    (hv : v.Fits ty) (hw : w.Fits ty) (hthis : this.lookup name = some v.datum.inField)
    (hthat : that.lookup name = some w.datum.inField) :
    compare equal this that (Member.compareField ⟨name, storage⟩) = equal v.datum w.datum := by
  cases hk with
  | owned =>
    obtain ⟨i, rfl⟩ := Value.exists_entity hv
    obtain ⟨j, rfl⟩ := Value.exists_entity hw
    rw [Value.inField_entity] at hthis hthat
    simp [Member.compareField, ClassField.isOwned, compare, hthis, hthat, Datum.target?]
  | held hne =>
    rw [Value.inField_datum hv hne] at hthis
    rw [Value.inField_datum hw hne] at hthat
    simp [Member.compareField, ClassField.isOwned, compare, hthis, hthat]

inductive Aligned : (source target : List (Slot Value)) → List ClassField → Prop
  | nil : Aligned [] [] []
  | cons {name : String} {ty : TypeExpr} {v w : Value} {storage : Storage}
      {source target : List (Slot Value)} {gs : List ClassField} (hk : ClassUnit.Keeps ty storage)
      (h : Aligned source target gs) :
      Aligned (⟨name, ty, v⟩ :: source) (⟨name, ty, w⟩ :: target) (⟨name, storage⟩ :: gs)

theorem aligned_of_shape
    (hk : List.Forall₂ (fun f g ↦ g.name = f.name ∧ ClassUnit.Keeps f.ty g.storage) fields gs)
    (hs : Record.shape source = fields.map fun f ↦ (f.name, f.ty))
    (ht : Record.shape target = fields.map fun f ↦ (f.name, f.ty)) :
    Aligned source target gs := by
  induction hk generalizing source target with
  | nil =>
    obtain rfl := List.map_eq_nil_iff.1 hs
    obtain rfl := List.map_eq_nil_iff.1 ht
    exact .nil
  | @cons f g fields gs hfg _ ih =>
    obtain ⟨⟨name, ty, v⟩, source, rfl, hslot, hsource⟩ := List.map_eq_cons_iff.1 hs
    obtain ⟨⟨name', ty', w⟩, target, rfl, hslot', htarget⟩ := List.map_eq_cons_iff.1 ht
    obtain ⟨gname, storage⟩ := g
    obtain ⟨rfl, hkeeps⟩ := hfg
    cases hslot
    cases hslot'
    exact .cons hkeeps (ih hsource htarget)

theorem Aligned.writes (h : Aligned source target gs)
    (hthis : ∀ slot ∈ source, this.lookup slot.name = some slot.value.datum.inField)
    (hs : ∀ slot ∈ source, slot.value.Fits slot.ty) (ht : ∀ slot ∈ target, slot.value.Fits slot.ty)
    (hc : ∀ slot ∈ source, ∀ slot' ∈ target, slot'.ty = slot.ty →
      ∀ᶠ fuel in atTop, p.Copies slot.ty slot.value slot'.value fuel) :
    ∀ᶠ fuel in atTop, Writes (copyLine (p.duplicate fuel) (p.copyTo fuel) this)
      (gs.map Member.copyField) (Record.members target) (Record.members source) := by
  induction h with
  | nil => exact .of_forall fun _ ↦ .nil
  | cons hk _ ih =>
    obtain ⟨hfirst, hthis⟩ := List.forall_mem_cons.1 hthis
    obtain ⟨hv, hs⟩ := List.forall_mem_cons.1 hs
    obtain ⟨hw, ht⟩ := List.forall_mem_cons.1 ht
    have hvw := hc _ List.mem_cons_self _ List.mem_cons_self rfl
    have hrest := ih hthis hs ht fun slot hm slot' hm' ↦
      hc slot (List.mem_cons_of_mem _ hm) slot' (List.mem_cons_of_mem _ hm')
    filter_upwards [hvw, hrest] with fuel hvw hrest
    exact .cons (fun before after hb ↦ hvw.copyLine_eq hk hv hw hfirst hb) hrest

theorem Aligned.allM_compare (h : Aligned source target gs)
    (hthis : ∀ slot ∈ source, this.lookup slot.name = some slot.value.datum.inField)
    (hthat : ∀ slot ∈ target, that.lookup slot.name = some slot.value.datum.inField)
    (hs : ∀ slot ∈ source, slot.value.Fits slot.ty) (ht : ∀ slot ∈ target, slot.value.Fits slot.ty)
    (he : ∀ slot ∈ source, ∀ slot' ∈ target, slot'.ty = slot.ty →
      Yields (p.equal · slot.value.datum slot'.value.datum) (slot.value.equal slot'.value)) :
    Yields (fun fuel ↦ (gs.map Member.compareField).allM (compare (p.equal fuel) this that))
      (Record.equalSlots source target) := by
  induction h with
  | nil => exact .of_forall fun _ ↦ rfl
  | @cons name ty v w storage source target gs hk _ ih =>
    obtain ⟨hfirst, hthis⟩ := List.forall_mem_cons.1 hthis
    obtain ⟨hfirst', hthat⟩ := List.forall_mem_cons.1 hthat
    obtain ⟨hv, hs⟩ := List.forall_mem_cons.1 hs
    obtain ⟨hw, ht⟩ := List.forall_mem_cons.1 ht
    have hvw := he _ List.mem_cons_self _ List.mem_cons_self rfl
    have hrest := ih hthis hthat hs ht fun slot hm slot' hm' ↦
      he slot (List.mem_cons_of_mem _ hm) slot' (List.mem_cons_of_mem _ hm')
    filter_upwards [hvw, hrest] with fuel hvw hrest
    rw [List.map_cons, List.allM, compare_eq hk hv hw hfirst hfirst', hvw, hrest]
    cases hequal : v.equal w <;> simp [Record.equalSlots, hequal]

theorem allM_zip {xs ys : List Value} (hl : xs.length = ys.length)
    (h : ∀ x ∈ xs, ∀ y ∈ ys, Yields (p.equal · x.datum y.datum) (x.equal y)) :
    Yields (fun fuel ↦ ((xs.map Value.datum).zip (ys.map Value.datum)).allM fun xy ↦
      p.equal fuel xy.1 xy.2) (Value.equalItems xs ys) := by
  induction xs generalizing ys with
  | nil =>
    obtain rfl := List.length_eq_zero_iff.1 hl.symm
    exact .of_forall fun _ ↦ rfl
  | cons x xs ih =>
    cases ys with
    | nil => cases hl
    | cons y ys =>
      have hfirst := h x List.mem_cons_self y List.mem_cons_self
      have hrest := ih (Nat.succ.inj hl) fun x hx y hy ↦
        h x (List.mem_cons_of_mem _ hx) y (List.mem_cons_of_mem _ hy)
      filter_upwards [hfirst, hrest] with fuel hfirst hrest
      rw [List.map_cons, List.map_cons, List.zip_cons_cons, List.allM, hfirst, hrest]
      cases hxy : x.equal y <;> simp [Value.equalItems, hxy]

theorem equalItems_of_length_ne {xs ys : List Value} (h : xs.length ≠ ys.length) :
    Value.equalItems xs ys = false := by
  induction xs generalizing ys with
  | nil =>
    cases ys with
    | nil => exact absurd rfl h
    | cons => rfl
  | cons x xs ih =>
    cases ys with
    | nil => rfl
    | cons y ys => simp [Value.equalItems, ih fun heq ↦ h (congrArg Nat.succ heq)]

theorem equal_list {xs ys : List Value}
    (h : ∀ x ∈ xs, ∀ y ∈ ys, Yields (p.equal · x.datum y.datum) (x.equal y)) :
    Yields (p.equal · (Value.list xs).datum (Value.list ys).datum)
      ((Value.list xs).equal (.list ys)) := by
  simp only [Value.datum, Value.data_eq, Value.equal]
  by_cases hl : xs.length = ys.length
  · refine eventually_succ (allM_zip hl h) fun fuel hall ↦ ?_
    simp only [equal, List.length_map, if_pos hl, hall]
  · refine eventually_succ (.of_forall fun _ ↦ trivial) fun fuel _ ↦ ?_
    simp only [equal, List.length_map, if_neg hl, equalItems_of_length_ne hl]

theorem equal_scalar {kind : Primitive} (hv : v.FitsKind kind)
    (hw : w.FitsKind kind) : p.equal fuel v.datum w.datum = some (v.equal w) := by
  have hsame : v.describe = w.describe :=
    (Value.describe_of_fitsKind hv).trans (Value.describe_of_fitsKind hw).symm
  cases v with
  | int m =>
    cases w with
    | int n => simp [Value.datum, equal, Value.equal, Int64.toInt_inj]
    | list | entity => exact hw.elim
    | _ => simp [Value.describe] at hsame
  | uint m =>
    cases w with
    | uint n => simp only [Value.datum, equal, Value.equal, Int.natCast_inj, UInt64.toNat_inj]
    | list | entity => exact hw.elim
    | _ => simp [Value.describe] at hsame
  | float x =>
    cases w with
    | float y => simp [Value.datum, equal, Value.equal]
    | list | entity => exact hw.elim
    | _ => simp [Value.describe] at hsame
  | bool a =>
    cases w with
    | bool b => simp [Value.datum, equal, Value.equal]
    | list | entity => exact hw.elim
    | _ => simp [Value.describe] at hsame
  | text a =>
    cases w with
    | text b => simp [Value.datum, equal, Value.equal]
    | list | entity => exact hw.elim
    | _ => simp [Value.describe] at hsame
  | list | entity => exact hv.elim

end Program

namespace Catalog

/-- The entity that the type names, if any, is emitted with all that it refers to. -/
def Supports (c : Catalog) (s : Settings) (ty : TypeExpr) : Prop :=
  ∀ name, ty.referenced? = some name → c.EmitsAll s name

theorem EmitsAll.supports (h : c.EmitsAll s name) (hf : c.find? name = some e) :
    ∀ f ∈ e.fields, c.Supports s f.ty :=
  fun f hm _ ho ↦ h.of_refers ⟨e, hf, f, hm, TypeExpr.referenced?_eq_some_iff.1 ho⟩

theorem Generated.nodup_members (hg : c.Generated s e u)
    (h : Record.shape slots = e.fields.map fun f ↦ (f.name, f.ty)) :
    ((Record.members slots).map Prod.fst).Nodup := by
  rw [Record.names_members, names_eq_of_shape_eq h]
  exact hg.nodup

theorem construct_of_writes (hg : c.Generated s e u) (hz : c.Zeroed e.fields slots)
    (hw : ∀ᶠ fuel in atTop, Program.Writes
      (Program.initialise ((c.classes s).construct fuel)) (u.fields.map Member.initialise) u.blank
      (Record.members slots)) :
    Yields ((c.classes s).construct · e.name) (Record.object ⟨e.name, slots⟩) := by
  refine eventually_succ hw fun fuel hw ↦ ?_
  simp only [Program.construct_succ hg.unit hg.constructs,
    hw.foldlM_eq (hg.nodup_members hz.shape_eq)]
  rfl

theorem writes_of_zeroed (hc : c.Built) (hz : c.Zeroed fields slots)
    (hs : ∀ f ∈ fields, c.Supports s f.ty)
    (hk : List.Forall₂ (fun f g ↦ g.name = f.name ∧ ClassUnit.Keeps f.ty g.storage) fields gs) :
    ∀ᶠ fuel in atTop, Program.Writes (Program.initialise ((c.classes s).construct fuel))
      (gs.map Member.initialise) (gs.map fun g ↦ (g.name, .unset)) (Record.members slots) := by
  induction hz generalizing gs with
  | nil =>
    cases hk
    exact .of_forall fun _ ↦ .nil
  | plain hz _ ih =>
    obtain ⟨-, hs⟩ := List.forall_mem_cons.1 hs
    obtain ⟨⟨_, storage⟩, gs, ⟨rfl, hkeeps⟩, hgs, rfl⟩ := List.forall₂_cons_left_iff.1 hk
    filter_upwards [ih hs hgs] with fuel hrest
    exact .cons (fun _ _ hb ↦ Program.initialise_zero hkeeps hz hb) hrest
  | @entity f fields slots inner target e ht hf hi _ ihi ih =>
    obtain ⟨hsf, hs⟩ := List.forall_mem_cons.1 hs
    obtain ⟨⟨_, storage⟩, gs, ⟨rfl, hkeeps⟩, hgs, rfl⟩ := List.forall₂_cons_left_iff.1 hk
    have hall : c.EmitsAll s target := hsf target (by rw [ht]; rfl)
    obtain ⟨e', u, rfl, hg⟩ := hall.exists_generated hc
    cases hg.found.symm.trans hf
    have hnew := construct_of_writes hg hi (ihi (hall.supports hf) hg.fields)
    rw [ht] at hkeeps
    filter_upwards [hnew, ih hs hgs] with fuel hnew hrest
    exact .cons (fun _ _ hb ↦ Program.initialise_new hkeeps hnew hb) hrest

theorem EmitsAll.exists_zeroInstance (hc : c.Built) (h : c.EmitsAll s name) :
    ∃ z : Instance, c.zeroInstance name = .ok z ∧ z.entity = name ∧
      Yields ((c.classes s).construct · name) z.object ∧ c.Conforms (.entity z) := by
  obtain ⟨e, u, rfl, hg⟩ := h.exists_generated hc
  have hstorable : ∀ other, ReflTransGen c.Holds e.name other → c.Storable other := by
    intro other ho
    obtain ⟨u, hu⟩ := h other (refers_of_reaches ho)
    exact storable_of_emit hu
  obtain ⟨z, hz⟩ := (exists_zeroInstance_iff hg.resolved).2 hstorable
  obtain ⟨e', hf, hname, hzeroed⟩ := zeroed_of_zeroInstance hz
  cases hg.found.symm.trans hf
  refine ⟨z, hz, hname, ?_, conforms_zeroInstance hz⟩
  have hwrites := writes_of_zeroed hc hzeroed (h.supports hf) hg.fields
  have hnew := construct_of_writes hg hzeroed hwrites
  rwa [← hname] at hnew ⊢

theorem Generated.isOf (hg : c.Generated s e u) (h : c.Conforms (.entity i))
    (hname : i.entity = e.name) : i.IsOf e := by
  obtain ⟨e', hf, hi⟩ := h i (.here i)
  rw [hname] at hf
  cases hg.found.symm.trans hf
  exact hi

theorem Generated.supports (hg : c.Generated s e u) (hall : c.EmitsAll s e.name) (hi : i.IsOf e) :
    ∀ slot ∈ i.slots, c.Supports s slot.ty := by
  intro slot hs
  have hcolumn : (slot.name, slot.ty) ∈ Record.shape i.slots := List.mem_map_of_mem hs
  rw [hi.shape] at hcolumn
  obtain ⟨f, hf, heq⟩ := List.mem_map.1 hcolumn
  rw [← (Prod.mk.inj heq).2]
  exact hall.supports hg.found f hf

theorem Generated.copyTo_yields (hg : c.Generated s e u) (hi : i.IsOf e) (hj : j.IsOf e)
    (hc : ∀ slot ∈ i.slots, ∀ slot' ∈ j.slots, slot'.ty = slot.ty →
      ∀ᶠ fuel in atTop, (c.classes s).Copies slot.ty slot.value slot'.value fuel) :
    Yields ((c.classes s).copyTo · i.object j.object) i.object := by
  have haligned := Program.aligned_of_shape hg.fields hi.shape hj.shape
  have hnodup := hg.nodup_members hi.shape
  have hwrites := haligned.writes (Record.lookup_members hnodup) hi.fits hj.fits hc
  rw [hi.object_eq, hj.object_eq]
  refine eventually_succ hwrites fun fuel hw ↦ ?_
  simp only [Program.copyTo_succ hg.unit hg.copies, hw.foldlM_eq hnodup]
  rfl

theorem Generated.equal_yields (hg : c.Generated s e u) (hi : i.IsOf e) (hj : j.IsOf e)
    (he : ∀ slot ∈ i.slots, ∀ slot' ∈ j.slots, slot'.ty = slot.ty →
      Yields ((c.classes s).equal · slot.value.datum slot'.value.datum)
        (slot.value.equal slot'.value)) :
    Yields ((c.classes s).equal · i.object j.object) (i.equal j) := by
  have haligned := Program.aligned_of_shape hg.fields hi.shape hj.shape
  have hall := haligned.allM_compare (Record.lookup_members (hg.nodup_members hi.shape))
    (Record.lookup_members (hg.nodup_members hj.shape)) hi.fits hj.fits he
  rw [hi.object_eq, hj.object_eq, hi.equal_eq hj]
  refine eventually_succ hall fun fuel hall ↦ ?_
  simp only [Program.equal_succ hg.unit hg.compares, hall]

theorem copies_of_conforms (hc : c.Built) (v : Value) : ∀ ty, c.Supports s ty → v.Fits ty →
    c.Conforms v → ∀ w : Value, w.Fits ty → c.Conforms w →
      ∀ᶠ fuel in atTop, (c.classes s).Copies ty v w fuel := by
  induction v with
  | list items ih =>
    intro ty hs hv hcv w _ _
    cases ty with
    | list inner =>
      have hitems : ∀ v ∈ items,
          ∀ᶠ fuel in atTop, (c.classes s).Copies inner v v fuel := fun v hm ↦
        have hconf := conforms_list_iff.1 hcv v hm
        ih v hm inner hs (hv v hm) hconf v (hv v hm) hconf
      refine eventually_succ ((eventually_all_finite items.finite_toSet).2 hitems)
        fun fuel hall ↦ ⟨?_, nofun⟩
      have hmap : (items.map Value.datum).mapM ((c.classes s).duplicate fuel) =
          some (items.map Value.datum) := by
        rw [mapM_eq_some_iff, List.forall₂_same]
        intro d hd
        obtain ⟨v, hm, rfl⟩ := List.mem_map.1 hd
        exact (hall v hm).1
      rw [Value.datum, Value.data_eq, Program.duplicate, hmap]
      rfl
    | primitive kind => exact hv.elim
    | entity name => exact hv.elim
  | entity i ih =>
    intro ty hs hv hcv w hw hcw
    cases ty with
    | entity name =>
      obtain rfl : i.entity = name := hv
      have hall : c.EmitsAll s i.entity := hs i.entity rfl
      obtain ⟨e, u, hname, hg⟩ := hall.exists_generated hc
      have hi : i.IsOf e := hg.isOf hcv hname.symm
      have hcopy : ∀ j : Instance, c.Conforms (.entity j) → j.entity = i.entity →
          Yields ((c.classes s).copyTo · i.object j.object) i.object := by
        intro j hcj hname'
        have hj : j.IsOf e := hg.isOf hcj (hname'.trans hname.symm)
        refine hg.copyTo_yields hi hj fun slot hm slot' hm' hty ↦ ?_
        exact ih slot hm slot.ty (hg.supports (hname ▸ hall) hi slot hm) (hi.fits slot hm)
          ((conforms_entity_iff.1 hcv).2 slot hm) slot'.value (hty ▸ hj.fits slot' hm')
          ((conforms_entity_iff.1 hcj).2 slot' hm')
      obtain ⟨j, rfl⟩ := Value.exists_entity hw
      -- the copy constructor starts from a new object and copies over it
      obtain ⟨z, -, hz, hnew, hcz⟩ := hall.exists_zeroInstance hc
      obtain ⟨m, hm, hd⟩ := hg.member
      have hduplicate : Yields ((c.classes s).duplicate · i.object) i.object := by
        have hover := hcopy z hcz hz
        rw [← hname] at hnew
        rw [hi.object_eq] at hover ⊢
        refine eventually_succ (hnew.and hover) fun fuel hrun ↦ ?_
        simp only [Program.duplicate_succ hg.unit hm hd hg.clones, hrun.1, Option.bind_eq_bind,
          Option.bind_some, hrun.2]
      filter_upwards [hduplicate, hcopy j hcw hw] with fuel hduplicate hcopy
      exact ⟨hduplicate, fun _ _ ↦ hcopy⟩
    | primitive kind => exact hv.elim
    | list inner => exact hv.elim
  | _ =>
    intro ty hs hv hcv w hw hcw
    refine .of_forall fun fuel ↦ ⟨by simp [Value.datum, Program.duplicate], ?_⟩
    rintro entity rfl
    exact hv.elim

theorem equal_of_conforms (hc : c.Built) (v : Value) : ∀ ty, c.Supports s ty → v.Fits ty →
    c.Conforms v → ∀ w : Value, w.Fits ty → c.Conforms w →
      Yields ((c.classes s).equal · v.datum w.datum) (v.equal w) := by
  induction v with
  | list xs ih =>
    intro ty hs hv hcv w hw hcw
    cases ty with
    | list inner =>
      cases w with
      | list ys =>
        refine Program.equal_list fun x hx y hy ↦ ?_
        exact ih x hx inner hs (hv x hx) (conforms_list_iff.1 hcv x hx) y (hw y hy)
          (conforms_list_iff.1 hcw y hy)
      | _ => exact hw.elim
    | primitive kind => exact hv.elim
    | entity name => exact hv.elim
  | entity i ih =>
    intro ty hs hv hcv w hw hcw
    cases ty with
    | entity name =>
      obtain ⟨j, rfl⟩ := Value.exists_entity hw
      obtain rfl : i.entity = name := hv
      have hall : c.EmitsAll s i.entity := hs i.entity rfl
      obtain ⟨e, u, hname, hg⟩ := hall.exists_generated hc
      have hi : i.IsOf e := hg.isOf hcv hname.symm
      have hj : j.IsOf e := hg.isOf hcw (hw.trans hname.symm)
      have hequal := hg.equal_yields hi hj fun slot hm slot' hm' hty ↦
        ih slot hm slot.ty (hg.supports (hname ▸ hall) hi slot hm) (hi.fits slot hm)
          ((conforms_entity_iff.1 hcv).2 slot hm) slot'.value (hty ▸ hj.fits slot' hm')
          ((conforms_entity_iff.1 hcw).2 slot' hm')
      simpa only [Value.datum, Value.equal] using hequal
    | primitive kind => exact hv.elim
    | list inner => exact hv.elim
  | _ =>
    intro ty hs hv hcv w hw hcw
    cases ty with
    | primitive kind => exact .of_forall fun _ ↦ Program.equal_scalar hv hw
    | entity name => exact hv.elim
    | list inner => exact hv.elim

/-- The value model keeps the contract of the generated classes. Where an entity and all that it
refers to are emitted, its default constructor yields its zero instance, and for instances of it
that conform to the catalogue `copy_to` and `operator==` do what copying and equality do. -/
theorem instances_realise_classes (hc : c.Built) (h : c.EmitsAll s name) :
    (∃ z, c.zeroInstance name = .ok z ∧ Yields ((c.classes s).construct · name) z.object) ∧
    ∀ a b : Instance, a.entity = name → b.entity = name →
      c.Conforms (.entity a) → c.Conforms (.entity b) →
      (∃ b', a.copyTo b = .ok b' ∧
        Yields ((c.classes s).copyTo · a.object b.object) b'.object) ∧
      Yields ((c.classes s).equal · a.object b.object) (a.equal b) := by
  constructor
  · obtain ⟨z, hz, -, hnew, -⟩ := h.exists_zeroInstance hc
    exact ⟨z, hz, hnew⟩
  · rintro a b rfl hb hca hcb
    have hs : c.Supports s (.entity a.entity) := by
      rintro _ ⟨⟩
      exact h
    obtain ⟨e, u, hname, hg⟩ := h.exists_generated hc
    have hsame := (hg.isOf hca hname.symm).sameShape (hg.isOf hcb (hb.trans hname.symm))
    have hcopies := copies_of_conforms hc (.entity a) _ hs rfl hca (.entity b) hb hcb
    have hequal := equal_of_conforms hc (.entity a) _ hs rfl hca (.entity b) hb hcb
    refine ⟨⟨a, Record.copyTo_eq_ok_iff.2 ⟨hsame, rfl⟩, ?_⟩, ?_⟩
    · exact hcopies.mono fun fuel hcopy ↦ hcopy.2 _ rfl
    · simpa only [Value.datum, Value.equal] using hequal

def polygons : Catalog where
  entities :=
    [⟨"Polygon", [⟨"centre", .entity "Point", 0⟩, ⟨"corners", .list (.entity "Point"), 1⟩], []⟩,
      ⟨"Point", [⟨"x", .primitive .f32, 0⟩], []⟩]

def pointAt (x : Binary32) : Instance := ⟨"Point", [⟨"x", .primitive .f32, .float x.widen⟩]⟩

def polygonAt (corners : List Binary32) : Instance :=
  ⟨"Polygon", [⟨"centre", .entity "Point", .entity (pointAt ⟨0⟩)⟩,
    ⟨"corners", .list (.entity "Point"), .list (corners.map fun x ↦ .entity (pointAt x))⟩]⟩

theorem polygons_built : polygons.Built := by
  have hpolygon : Entity.define "Polygon"
      [("centre", .entity "Point"), ("corners", .list (.entity "Point"))] =
      .ok polygons.entities[0] := rfl
  have hpoint : Entity.define "Point" [("x", .primitive .f32)] = .ok polygons.entities[1] := rfl
  exact .declare (.declare .empty (.define hpolygon) rfl) (.define hpoint) rfl

theorem polygons_emitsAll : polygons.EmitsAll {} "Polygon" :=
  emitsAll_of_names (by decide +kernel) (by decide)

theorem conforms_pointAt (x : Binary32) : polygons.Conforms (.entity (pointAt x)) := by
  refine conforms_entity_iff.2 ⟨⟨polygons.entities[1], rfl, rfl, rfl, ?_⟩, ?_⟩
  · simp [pointAt, Value.Fits, Value.FitsKind]
  · rintro slot hs i hi
    cases List.mem_singleton.1 hs
    cases hi

theorem conforms_polygonAt (corners : List Binary32) :
    polygons.Conforms (.entity (polygonAt corners)) := by
  refine conforms_entity_iff.2 ⟨⟨polygons.entities[0], rfl, rfl, rfl, ?_⟩, ?_⟩
  · simp [polygonAt, pointAt, Value.Fits]
  · simp [polygonAt, conforms_pointAt, conforms_list_iff]

/-- A corner that is not a number is copied and makes a polygon unequal to itself. -/
theorem polygon_with_nan_realised :
    (∃ b', (polygonAt [.nan]).copyTo (polygonAt []) = .ok b' ∧
      Yields ((polygons.classes {}).copyTo · (polygonAt [.nan]).object (polygonAt []).object)
        b'.object) ∧
    Yields ((polygons.classes {}).equal · (polygonAt [.nan]).object (polygonAt [.nan]).object)
      false := by
  obtain ⟨-, h⟩ := instances_realise_classes polygons_built polygons_emitsAll
  obtain ⟨hcopy, -⟩ := h (polygonAt [.nan]) (polygonAt []) rfl rfl (conforms_polygonAt _)
    (conforms_polygonAt _)
  obtain ⟨-, hequal⟩ := h (polygonAt [.nan]) (polygonAt [.nan]) rfl rfl (conforms_polygonAt _)
    (conforms_polygonAt _)
  have hfalse : (polygonAt [.nan]).equal (polygonAt [.nan]) = false := by decide
  exact ⟨hcopy, hfalse ▸ hequal⟩

end Catalog

end ValueContract
