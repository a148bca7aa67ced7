import ValueContract.Class.Emit
import ValueContract.Proofs.Fallible
import ValueContract.Proofs.Resolution

namespace ValueContract

variable {c : Catalog} {s : Settings} {e : Entity} {u : ClassUnit} {name : String}

namespace Entity

/-- The type is that of a field, or stands in the signature of a method. -/
inductive Mentions (e : Entity) : TypeExpr → Prop
  | field {f : Field} (h : f ∈ e.fields) : Mentions e f.ty
  | returned {m : Method} (h : m ∈ e.methods) : Mentions e m.returns
  | parameter {m : Method} {p : Parameter} (h : m ∈ e.methods) (hp : p ∈ m.parameters) :
      Mentions e p.ty

variable {ty : TypeExpr} {m : Method}

theorem Mentions.of_mem_types (hm : m ∈ e.methods) (ht : ty ∈ m.types) : e.Mentions ty := by
  rcases List.mem_cons.1 ht with rfl | ht
  · exact .returned hm
  · obtain ⟨p, hp, rfl⟩ := List.mem_map.1 ht
    exact .parameter hm hp

theorem Mentions.field_or_signature (h : e.Mentions ty) :
    (∃ f ∈ e.fields, f.ty = ty) ∨ ∃ m ∈ e.methods, ty ∈ m.types := by
  cases h with
  | field hf => exact .inl ⟨_, hf, rfl⟩
  | returned hm => exact .inr ⟨_, hm, List.mem_cons_self⟩
  | parameter hm hp => exact .inr ⟨_, hm, List.mem_cons_of_mem _ (List.mem_map_of_mem hp)⟩

theorem mem_types_iff : ty ∈ e.types ↔ e.Mentions ty := by
  rw [types, List.mem_append, List.mem_map, List.mem_flatMap]
  constructor
  · rintro (⟨f, hf, rfl⟩ | ⟨m, hm, ht⟩)
    · exact .field hf
    · exact .of_mem_types hm ht
  · exact Mentions.field_or_signature

end Entity

namespace TypeExpr

@[simp] theorem primitive?_list (inner : TypeExpr) : (list inner).primitive? = inner.primitive? :=
  rfl

@[simp] theorem primitive?_entity (name : String) : (entity name).primitive? = none := rfl

theorem primitive?_ne_void_of_spelling {ty : TypeExpr} {text : String}
    (h : ty.spelling = .ok text) : ty.primitive? ≠ some .void := by
  induction ty generalizing text with
  | primitive kind =>
    rintro ⟨⟩
    cases h
  | entity name => simp
  | list inner ih =>
    rw [spelling, bind_eq_ok_iff] at h
    obtain ⟨text, ht, -⟩ := h
    exact ih ht

end TypeExpr

namespace ClassUnit

structure IsOf (u : ClassUnit) (s : Settings) (e : Entity) : Prop where
  entity : u.entity = e.name
  clash : Reserved.clash? e = none
  fields : List.Forall₂ (fun f g ↦ g.name = f.name ∧ storageOf f.ty = .ok g.storage)
    e.fields u.fields
  members : u.members = MemberRole.all.map (Member.contract e.name u.fields)

theorem checkNames_eq_ok (h : checkNames s e = .ok ()) : Reserved.clash? e = none := by
  unfold checkNames at h
  split at h
  · cases h
  · next hn => exact hn

theorem classField_eq_ok {f : Field} {g : ClassField} (h : classField s e f = .ok g) :
    g.name = f.name ∧ storageOf f.ty = .ok g.storage := by
  unfold classField at h
  split at h
  · cases h
  · next storage hs =>
    cases h
    exact ⟨rfl, hs⟩

theorem ofEntity_eq_ok (h : (ofEntity s e).result = .ok u) : ∃ fields methods,
    classFields s e = .ok fields ∧ e.methods.mapM (customMethod s e) = .ok methods ∧
      u = assemble s e fields methods := by
  unfold ofEntity at h
  split at h
  · cases h
  · next fields hf =>
    obtain ⟨methods, hm, rfl⟩ := map_eq_ok_iff.1 h
    exact ⟨fields, methods, hf, hm, rfl⟩

theorem isOf_of_ofEntity (h : (ofEntity s e).result = .ok u) : u.IsOf s e := by
  obtain ⟨fields, methods, hf, -, rfl⟩ := ofEntity_eq_ok h
  simp only [classFields, bind_eq_ok_iff] at hf
  obtain ⟨_, hn, _, -, hf⟩ := hf
  refine ⟨rfl, checkNames_eq_ok hn, ?_, rfl⟩
  exact (mapM_eq_ok_iff.1 hf).imp fun _ _ ↦ classField_eq_ok

/-- Settings show in the error of a method only, so not in the methods of a unit. -/
theorem mapM_ofMethod_of_ofEntity (h : (ofEntity s e).result = .ok u) :
    e.methods.mapM (CustomMethod.ofMethod e.name) = .ok u.methods := by
  obtain ⟨fields, methods, -, hm, rfl⟩ := ofEntity_eq_ok h
  rw [mapM_eq_ok_iff] at hm ⊢
  exact hm.imp fun _ _ ↦ mapError_eq_ok_iff.1

theorem primitive?_ne_void_of_storageOf {ty : TypeExpr} {storage : Storage}
    (h : storageOf ty = .ok storage) : ty.primitive? ≠ some .void := by
  unfold storageOf at h
  split at h
  · simp
  · obtain ⟨text, ht, -⟩ := bind_eq_ok_iff.1 h
    exact TypeExpr.primitive?_ne_void_of_spelling ht

theorem IsOf.primitive?_ne_void (h : u.IsOf s e) {f : Field} (hf : f ∈ e.fields) :
    f.ty.primitive? ≠ some .void := by
  obtain ⟨g, -, -, hs⟩ := exists_of_forall₂ h.fields hf
  exact primitive?_ne_void_of_storageOf hs

end ClassUnit

namespace Catalog

theorem ofEntity_of_emit (h : c.emit s name = .ok u) :
    ∃ e, c.resolve name = .ok e ∧ (ClassUnit.ofEntity s e).result = .ok u := by
  unfold emit emitTraced at h
  split at h
  · cases h
  · next e hr => exact ⟨e, hr, h⟩

theorem emit_eq_ok (h : c.emit s name = .ok u) : ∃ e, c.resolve name = .ok e ∧ u.IsOf s e := by
  obtain ⟨e, hr, hu⟩ := ofEntity_of_emit h
  exact ⟨e, hr, ClassUnit.isOf_of_ofEntity hu⟩

theorem methods_eq_of_emit {s' : Settings} {u' : ClassUnit} (h : c.emit s name = .ok u)
    (h' : c.emit s' name = .ok u') : u.methods = u'.methods := by
  obtain ⟨e, hr, hu⟩ := ofEntity_of_emit h
  obtain ⟨e', hr', hu'⟩ := ofEntity_of_emit h'
  cases hr.symm.trans hr'
  have hm := ClassUnit.mapM_ofMethod_of_ofEntity hu
  have hm' := ClassUnit.mapM_ofMethod_of_ofEntity hu'
  exact Except.ok.inj (hm.symm.trans hm')

end Catalog

end ValueContract
