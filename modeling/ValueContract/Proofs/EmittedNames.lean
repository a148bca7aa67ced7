import ValueContract.Proofs.Definition
import ValueContract.Proofs.Emission
import ValueContract.Proofs.StatementReading

namespace ValueContract

variable {c : Catalog} {s : Settings} {e e' : Entity} {u : ClassUnit} {name : String}

namespace Entity

def memberNames (e : Entity) : List String :=
  e.fields.map (·.name) ++ e.methods.map (·.name)

structure NamedMembers (e : Entity) : Prop where
  methods : ∀ m ∈ e.methods, Name.isIdentifier m.name
  parameters : ∀ m ∈ e.methods, ∀ p ∈ m.parameters, Name.isIdentifier p.name
  nodup : e.memberNames.Nodup

theorem isIdentifier_of_checkParameters {owner method : String} {seen : List String}
    {parameters : List Parameter} (h : checkParameters owner method seen parameters = .ok ()) :
    ∀ p ∈ parameters, Name.isIdentifier p.name := by
  fun_induction checkParameters owner method seen parameters with
  | case1 => simp
  | case2 | case3 => cases h
  | case4 seen p rest hn hm ih =>
    exact List.forall_mem_cons.2 ⟨Name.fault?_eq_none_iff.1 hn, ih h⟩

theorem NamedMembers.addMethod {m : Method} (he : e.NamedMembers) (h : e.addMethod m = .ok e') :
    e'.NamedMembers := by
  obtain ⟨hname, hfresh, hparameters, rfl⟩ := addMethod_eq_ok h
  refine ⟨?_, ?_, ?_⟩
  · simpa [or_imp, forall_and] using ⟨he.methods, hname⟩
  · simpa [or_imp, forall_and] using ⟨he.parameters, isIdentifier_of_checkParameters hparameters⟩
  · have hnot : m.name ∉ e.memberNames := by simpa [memberNames] using hfresh
    rw [memberNames, List.map_append, ← List.append_assoc, List.map_singleton,
      List.nodup_append_comm]
    exact List.nodup_cons.2 ⟨hnot, he.nodup⟩

theorem Defined.namedMembers (h : e.Defined) : e.NamedMembers := by
  apply h.invariant
  · intro name pairs e h
    have hfields := (Defined.define h).namedFields.2
    obtain ⟨-, fields, -, rfl⟩ := define_eq_ok h
    exact ⟨by simp, by simp, by simpa [memberNames] using hfields⟩
  · intro e m e' he h
    exact he.addMethod h

/-- Every name that the class of the entity spells can be echoed. -/
structure Plain (e : Entity) : Prop where
  name : Name.isFree e.name
  fields : ∀ f ∈ e.fields, Name.isFree f.name
  methods : ∀ m ∈ e.methods, Name.isFree m.name
  parameters : ∀ m ∈ e.methods, ∀ p ∈ m.parameters, Name.isIdentifier p.name
  types : ∀ ty ∈ e.types, ∀ other, ty.referenced? = some other → Name.isFree other
  nodup : e.memberNames.Nodup
  not_mem : e.name ∉ e.memberNames

end Entity

namespace Reserved

theorem isTaken_eq_false_iff : isTaken e name = false ↔ isReserved name = false ∧ name ≠ e.name := by
  simp [isTaken]

theorem fieldClash?_eq_none_iff {f : Field} : fieldClash? e f = none ↔
    isTaken e f.name = false ∧ ∀ other, f.ty.referenced? = some other → isReserved other = false := by
  unfold fieldClash?
  split
  · simp_all
  · cases f.ty.referenced? <;> simp_all [Option.filter]

theorem methodClash?_eq_none_iff {m : Method} : methodClash? e m = none ↔
    isTaken e m.name = false ∧ (∀ p ∈ m.parameters, isKeyword p.name = false) ∧
      ∀ other ∈ m.references, isReserved other = false := by
  unfold methodClash?
  split
  · simp_all
  · next ht =>
    split
    · next p hp =>
      have hmem := List.mem_of_find?_eq_some hp
      have hkey := List.find?_some hp
      simp only [reduceCtorEq, false_iff, not_and]
      intro _ hall
      simp [hall p hmem] at hkey
    · next hp => simp_all

theorem clash?_eq_none_iff : clash? e = none ↔ isReserved e.name = false ∧
    (∀ f ∈ e.fields, fieldClash? e f = none) ∧ ∀ m ∈ e.methods, methodClash? e m = none := by
  unfold clash?
  split
  · simp_all
  · split
    · next clash hf =>
      obtain ⟨f, hmem, hclash⟩ := List.exists_of_findSome?_eq_some hf
      simp only [reduceCtorEq, false_iff, not_and]
      intro _ hall
      simp [hall f hmem] at hclash
    · simp_all

end Reserved

namespace TypeExpr

def isTypeChar (c : Char) : Bool :=
  Name.isPart c || c == ':' || c == '<' || c == '>'

theorem isTypeChar_of_isIdentifier {char : Char} (h : Name.isIdentifier name)
    (hc : char ∈ name.toList) : isTypeChar char := by
  simp [isTypeChar, Name.isPart_of_isIdentifier h hc]

theorem isTypeChar_of_mem_spelling {ty : TypeExpr} {text : String} {char : Char}
    (h : ∀ other, ty.referenced? = some other → Name.isFree other)
    (hs : ty.spelling = .ok text) (hc : char ∈ text.toList) : isTypeChar char := by
  induction ty generalizing text char with
  | primitive kind =>
    have hall : ∀ kind : Primitive, ∀ text, kind.spelling? = some text →
        text.toList.all isTypeChar := by
      intro kind text ht
      cases kind <;> cases ht <;> decide
    cases hk : kind.spelling? with
    | none => simp [spelling, hk] at hs
    | some spelled =>
      simp only [spelling, hk, Option.elim_some, Except.ok.injEq] at hs
      exact List.all_eq_true.1 (hall kind text (hs ▸ hk)) char hc
  | entity name =>
    cases hs
    exact isTypeChar_of_isIdentifier (Name.isIdentifier_of_isFree (h name rfl)) hc
  | list inner ih =>
    rw [spelling, bind_eq_ok_iff] at hs
    obtain ⟨text, ht, hs⟩ := hs
    cases hs
    simp only [String.toList_append, List.mem_append] at hc
    obtain (hc | hc) | hc := hc
    · have hopen : "std::vector<".toList.all isTypeChar := by decide
      exact List.all_eq_true.1 hopen char hc
    · exact ih h ht hc
    · have hclose : ">".toList.all isTypeChar := by decide
      exact List.all_eq_true.1 hclose char hc

end TypeExpr

namespace ClassUnit

def memberNames (u : ClassUnit) : List String :=
  u.fields.map (·.name) ++ u.methods.map (·.name)

theorem name_of_ofMethod {type : String} {m : Method} {custom : CustomMethod}
    (h : CustomMethod.ofMethod type m = .ok custom) : custom.type = type ∧ custom.name = m.name := by
  simp only [CustomMethod.ofMethod, bind_eq_ok_iff] at h
  obtain ⟨returned, -, parameters, -, h⟩ := h
  cases h
  exact ⟨rfl, rfl⟩

theorem memberNames_eq (h : (ofEntity s e).result = .ok u) : u.memberNames = e.memberNames := by
  have hfields := map_eq_map_of_forall₂ (isOf_of_ofEntity h).fields fun f g hfg ↦ hfg.1.symm
  have hmethods := map_eq_map_of_forall₂ (mapM_eq_ok_iff.1 (mapM_ofMethod_of_ofEntity h))
    fun m custom hm ↦ (name_of_ofMethod hm).2.symm
  rw [memberNames, Entity.memberNames, hfields, hmethods]

end ClassUnit

namespace Catalog

open Relation

theorem Built.isIdentifier_of_mem_names (hc : c.Built) (h : name ∈ c.names) :
    Name.isIdentifier name := by
  obtain ⟨e, he, rfl⟩ := List.mem_map.1 h
  exact (hc.defined he).isIdentifier_name

theorem mem_names_of_types (h : c.resolve name = .ok e) {ty : TypeExpr} {other : String}
    (ht : ty ∈ e.types) (ho : ty.referenced? = some other) : other ∈ c.names := by
  have hf := find?_of_resolve h
  obtain ⟨-, hclosure, hsignatures, -⟩ := exists_resolve_eq_ok_iff.1 ⟨e, h⟩
  rcases List.mem_append.1 ht with ht | ht
  · obtain ⟨f, hfield, rfl⟩ := List.mem_map.1 ht
    exact hclosure other (.single ⟨e, hf, f, hfield, TypeExpr.referenced?_eq_some_iff.1 ho⟩)
  · obtain ⟨m, hm, hty⟩ := List.mem_flatMap.1 ht
    exact hsignatures e hf other
      (Entity.signatureNames_iff.2 ⟨m, hm, ty, hty, TypeExpr.referenced?_eq_some_iff.1 ho⟩)

theorem not_isReserved_of_types (h : Reserved.clash? e = none) {ty : TypeExpr} {other : String}
    (ht : ty ∈ e.types) (ho : ty.referenced? = some other) : Reserved.isReserved other = false := by
  obtain ⟨-, hfields, hmethods⟩ := Reserved.clash?_eq_none_iff.1 h
  rcases List.mem_append.1 ht with ht | ht
  · obtain ⟨f, hf, rfl⟩ := List.mem_map.1 ht
    exact (Reserved.fieldClash?_eq_none_iff.1 (hfields f hf)).2 other ho
  · obtain ⟨m, hm, hty⟩ := List.mem_flatMap.1 ht
    obtain ⟨-, -, hrefs⟩ := Reserved.methodClash?_eq_none_iff.1 (hmethods m hm)
    exact hrefs other (List.mem_filterMap.2 ⟨ty, hty, ho⟩)

/-- What is emitted spells free names only. -/
theorem plain_of_emit (hc : c.Built) (h : c.emit s name = .ok u) :
    ∃ e, c.resolve name = .ok e ∧ (ClassUnit.ofEntity s e).result = .ok u ∧ e.Plain := by
  obtain ⟨e, hr, hu⟩ := ofEntity_of_emit h
  have hclash := (ClassUnit.isOf_of_ofEntity hu).clash
  obtain ⟨hname, hfields, hmethods⟩ := Reserved.clash?_eq_none_iff.1 hclash
  have hdefined := hc.defined_of_find? (find?_of_resolve hr)
  have hnamed := hdefined.namedMembers
  have hfield : ∀ f ∈ e.fields, Reserved.isTaken e f.name = false := fun f hf ↦
    (Reserved.fieldClash?_eq_none_iff.1 (hfields f hf)).1
  have hmethod : ∀ m ∈ e.methods, Reserved.isTaken e m.name = false := fun m hm ↦
    (Reserved.methodClash?_eq_none_iff.1 (hmethods m hm)).1
  refine ⟨e, hr, hu, ?_, ?_, ?_, hnamed.parameters, ?_, hnamed.nodup, ?_⟩
  · simp [Name.isFree, hdefined.isIdentifier_name, hname]
  · intro f hf
    obtain ⟨hfree, -⟩ := Reserved.isTaken_eq_false_iff.1 (hfield f hf)
    simp [Name.isFree, hdefined.namedFields.1 f hf, hfree]
  · intro m hm
    obtain ⟨hfree, -⟩ := Reserved.isTaken_eq_false_iff.1 (hmethod m hm)
    simp [Name.isFree, hnamed.methods m hm, hfree]
  · intro ty ht other ho
    have hident := hc.isIdentifier_of_mem_names (mem_names_of_types hr ht ho)
    simp [Name.isFree, hident, not_isReserved_of_types hclash ht ho]
  · intro hm
    rcases List.mem_append.1 hm with hm | hm
    · obtain ⟨f, hf, heq⟩ := List.mem_map.1 hm
      exact (Reserved.isTaken_eq_false_iff.1 (hfield f hf)).2 heq
    · obtain ⟨m, hmem, heq⟩ := List.mem_map.1 hm
      exact (Reserved.isTaken_eq_false_iff.1 (hmethod m hmem)).2 heq

end Catalog

end ValueContract
