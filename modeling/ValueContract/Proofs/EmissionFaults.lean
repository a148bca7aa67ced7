import ValueContract.Proofs.EmittedNames
import ValueContract.Proofs.FirstFault
import ValueContract.Proofs.MarkerBlock
import ValueContract.Proofs.NearestFault

namespace ValueContract

variable {e : Entity} {f : Field} {m : Method} {name : String}

namespace TypeExpr

variable {ty : TypeExpr} {kind : Primitive}

theorem spelling_eq_error_iff :
    ty.spelling = .error kind ↔ ty.element = .primitive .void ∧ Primitive.void = kind := by
  induction ty with
  | primitive other => cases other <;> simp [spelling, Primitive.spelling?, element, eq_comm]
  | entity name => simp [spelling, element]
  | list inner ih => simp [spelling, element, bind_eq_error_iff, pure, Except.pure, ih]

theorem zeroSpelling_eq_error_iff :
    ty.zeroSpelling = .error kind ↔ ty.element = .primitive .void ∧ Primitive.void = kind := by
  cases ty with
  | primitive other =>
    cases other <;>
      simp [zeroSpelling, Primitive.zeroSpelling?, Primitive.category, element, eq_comm]
  | entity name | list inner =>
    rw [← spelling_eq_error_iff]
    simp [zeroSpelling, bind_eq_error_iff, pure, Except.pure]

/-- A type has no zero just where it has no spelling. -/
theorem spelled_eq_error_iff {α : Type} {spell : String → String → α} :
    (do return spell (← ty.spelling) (← ty.zeroSpelling)) = .error kind ↔
      ty.element = .primitive .void ∧ Primitive.void = kind := by
  simp only [bind_eq_error_iff, spelling_eq_error_iff, zeroSpelling_eq_error_iff, pure,
    Except.pure, reduceCtorEq, and_false, exists_false, or_false]
  constructor
  · rintro (h | ⟨-, -, h⟩) <;> exact h
  · exact .inl

end TypeExpr

namespace Reserved

variable {clash : Clash}

/-- A keyword, or a name that every class binds itself. -/
def Forbidden (name : String) : Prop :=
  name ∈ keywords ∨ name ∈ ["copy_to", "clone", "other"]

def Taken (e : Entity) (name : String) : Prop :=
  Forbidden name ∨ name = e.name

/-- The name for which a field is refused: its own or, if that is fine, that of an entity. -/
def FieldClash (e : Entity) (f : Field) (name : String) : Prop :=
  (Taken e f.name ∧ name = f.name) ∨
    (¬Taken e f.name ∧ f.ty.element = .entity name ∧ Forbidden name)

/-- The name for which a method is refused: its own, or that of a parameter, or that of an entity,
in this order. -/
def MethodClash (e : Entity) (m : Method) (name : String) : Prop :=
  (Taken e m.name ∧ name = m.name) ∨
    (¬Taken e m.name ∧
      ((∃ p, FirstWith (·.name ∈ keywords) m.parameters p ∧ name = p.name) ∨
        ((∀ p ∈ m.parameters, p.name ∉ keywords) ∧ FirstWith Forbidden m.references name)))

inductive FirstClash (e : Entity) : Clash → Prop
  | entity (h : Forbidden e.name) : FirstClash e ⟨none, e.name⟩
  | field {f : Field} {name : String} (he : ¬Forbidden e.name)
      (hf : FirstWith (fun f ↦ ∃ name, FieldClash e f name) e.fields f) (h : FieldClash e f name) :
      FirstClash e ⟨some f.name, name⟩
  | method {m : Method} {name : String} (he : ¬Forbidden e.name)
      (hf : ∀ f ∈ e.fields, ¬∃ name, FieldClash e f name)
      (hm : FirstWith (fun m ↦ ∃ name, MethodClash e m name) e.methods m)
      (h : MethodClash e m name) : FirstClash e ⟨some m.name, name⟩

theorem isKeyword_iff : isKeyword name ↔ name ∈ keywords := by
  simp [isKeyword]

theorem isReserved_iff : isReserved name ↔ Forbidden name := by
  simp [isReserved, isKeyword, Forbidden, boundNames]

theorem isTaken_iff : isTaken e name ↔ Taken e name := by
  simp [isTaken, Taken, isReserved_iff]

theorem fieldClash?_eq_some_iff : fieldClash? e f = some clash ↔
    ∃ name, FieldClash e f name ∧ ⟨some f.name, name⟩ = clash := by
  unfold fieldClash?
  split
  · next h =>
    rw [isTaken_iff] at h
    simp [FieldClash, h]
  · next h =>
    rw [isTaken_iff] at h
    simp only [FieldClash, h, false_and, not_false_eq_true, true_and, false_or,
      Option.map_eq_some_iff, Option.filter_eq_some_iff, TypeExpr.referenced?_eq_some_iff,
      isReserved_iff]

theorem methodClash?_eq_some_iff : methodClash? e m = some clash ↔
    ∃ name, MethodClash e m name ∧ ⟨some m.name, name⟩ = clash := by
  have hparameter : ∀ p, m.parameters.find? (isKeyword ·.name) = some p ↔
      FirstWith (·.name ∈ keywords) m.parameters p := fun p ↦
    find?_eq_some_iff_firstWith fun _ ↦ isKeyword_iff
  have hreference : ∀ other, m.references.find? isReserved = some other ↔
      FirstWith Forbidden m.references other := fun other ↦
    find?_eq_some_iff_firstWith fun _ ↦ isReserved_iff
  have hnone : m.parameters.find? (isKeyword ·.name) = none ↔
      ∀ p ∈ m.parameters, p.name ∉ keywords := by
    simp [isKeyword]
  simp only [MethodClash, ← hparameter, ← hreference, ← hnone]
  unfold methodClash?
  split
  · next h =>
    rw [isTaken_iff] at h
    simp [h]
  · next h =>
    rw [isTaken_iff] at h
    split
    · next p hp => simp [h, hp]
    · next hp => simp [h, hp]

theorem findSome?_fieldClash?_iff : e.fields.findSome? (fieldClash? e) = some clash ↔
    ∃ f name, FirstWith (fun f ↦ ∃ name, FieldClash e f name) e.fields f ∧ FieldClash e f name ∧
      ⟨some f.name, name⟩ = clash :=
  findSome?_eq_some_iff_firstWith fun _ _ ↦ fieldClash?_eq_some_iff

theorem findSome?_methodClash?_iff : e.methods.findSome? (methodClash? e) = some clash ↔
    ∃ m name, FirstWith (fun m ↦ ∃ name, MethodClash e m name) e.methods m ∧
      MethodClash e m name ∧ ⟨some m.name, name⟩ = clash :=
  findSome?_eq_some_iff_firstWith fun _ _ ↦ methodClash?_eq_some_iff

theorem findSome?_fieldClash?_eq_none_iff : e.fields.findSome? (fieldClash? e) = none ↔
    ∀ f ∈ e.fields, ¬∃ name, FieldClash e f name := by
  have hnone : ∀ f, fieldClash? e f = none ↔ ¬∃ name, FieldClash e f name := by
    intro f
    simp [Option.eq_none_iff_forall_ne_some, fieldClash?_eq_some_iff]
  simp only [List.findSome?_eq_none_iff, hnone]

theorem clash?_eq_some_iff : clash? e = some clash ↔ FirstClash e clash := by
  constructor
  · intro h
    unfold clash? at h
    split at h
    · next hr =>
      cases h
      exact .entity (isReserved_iff.1 hr)
    · next hr =>
      rw [isReserved_iff] at hr
      split at h
      · next first hf =>
        cases h
        obtain ⟨f, name, hfirst, hclash, rfl⟩ := findSome?_fieldClash?_iff.1 hf
        exact .field hr hfirst hclash
      · next hf =>
        obtain ⟨m, name, hfirst, hclash, rfl⟩ := findSome?_methodClash?_iff.1 h
        exact .method hr (findSome?_fieldClash?_eq_none_iff.1 hf) hfirst hclash
  · intro h
    unfold clash?
    cases h with
    | entity he => rw [if_pos (isReserved_iff.2 he)]
    | field he hf h =>
      rw [if_neg (isReserved_iff.not.2 he), findSome?_fieldClash?_iff.2 ⟨_, _, hf, h, rfl⟩]
    | method he hf hm h =>
      rw [if_neg (isReserved_iff.not.2 he), findSome?_fieldClash?_eq_none_iff.2 hf]
      exact findSome?_methodClash?_iff.2 ⟨_, _, hm, h, rfl⟩

end Reserved

open Reserved

/-- The marker shows something, and no line of it runs on into the next. -/
def Marker.Usable (marker : String) : Prop :=
  (∃ char ∈ marker.toList, ¬Text.isBlankChar char) ∧
    ∀ line ∈ Text.lines marker, line.toList.getLast? ≠ some '\\'

def Marker.Unusable (marker : String) : MarkerFault → Prop
  | .blank => ∀ char ∈ marker.toList, Text.isBlankChar char
  | .splicedLine => (∃ char ∈ marker.toList, ¬Text.isBlankChar char) ∧
      ∃ line ∈ Text.lines marker, line.toList.getLast? = some '\\'

theorem Marker.fault?_eq_some_iff {marker : String} {fault : MarkerFault} :
    fault? marker = some fault ↔ Unusable marker fault := by
  have hblank : Text.isBlank marker ↔ ∀ char ∈ marker.toList, Text.isBlankChar char := by
    simp [Text.isBlank]
  have hspliced : (Text.lines marker).any (Text.endsWith "\\") ↔
      ∃ line ∈ Text.lines marker, line.toList.getLast? = some '\\' := by
    simp [Text.endsWith_backslash_iff]
  unfold fault?
  split
  · next h =>
    have hall := hblank.1 h
    cases fault with
    | blank => exact iff_of_true rfl hall
    | splicedLine =>
      refine iff_of_false (by simp) ?_
      intro hunusable
      obtain ⟨⟨char, hc, hshown⟩, -⟩ := hunusable
      exact hshown (hall char hc)
  · next h =>
    have hshown : ∃ char ∈ marker.toList, ¬Text.isBlankChar char := by
      simpa [Text.isBlank] using h
    have hnot : ¬Unusable marker .blank := mt hblank.2 h
    split
    · next hs =>
      cases fault with
      | blank => exact iff_of_false (by simp) hnot
      | splicedLine => exact iff_of_true rfl ⟨hshown, hspliced.1 hs⟩
    · next hs =>
      cases fault with
      | blank => exact iff_of_false (by simp) hnot
      | splicedLine => exact iff_of_false (by simp) fun hunusable ↦ hs (hspliced.2 hunusable.2)

theorem Marker.fault?_eq_none_iff_usable {marker : String} :
    fault? marker = none ↔ Usable marker := by
  simp [fault?_eq_none_iff, Usable, Text.isBlank, ← Text.endsWith_backslash_iff]

/-- Some type of the signature cannot be spelled. Only a method that returns nothing at all may
mention `void`. -/
def Method.Voided (m : Method) : Prop :=
  (m.returns.element = .primitive .void ∧ m.returns ≠ .primitive .void) ∨
    ∃ p ∈ m.parameters, p.ty.element = .primitive .void

namespace Entity

structure NamesAllowed (e : Entity) : Prop where
  entity : ¬Forbidden e.name
  members : ∀ name ∈ e.memberNames, ¬Forbidden name ∧ name ≠ e.name
  parameters : ∀ m ∈ e.methods, ∀ p ∈ m.parameters, p.name ∉ keywords
  targets : ∀ ty, e.Mentions ty → ∀ other, ty.element = .entity other → ¬Forbidden other

structure Emittable (e : Entity) (marker : String) : Prop where
  names : e.NamesAllowed
  marker : Marker.Usable marker
  fields : ∀ f ∈ e.fields, f.ty.element ≠ .primitive .void
  methods : ∀ m ∈ e.methods, ¬m.Voided

/-- Why a resolved entity is refused. Each fault is reported only if those before it are absent. -/
inductive Refused (s : Settings) (e : Entity) : EmitError → Prop
  | reserved {clash : Clash} (h : FirstClash e clash) :
      Refused s e (.reservedName e.name clash.member clash.name s.language)
  | marker {fault : MarkerFault} (hn : e.NamesAllowed) (h : Marker.Unusable s.marker fault) :
      Refused s e (.invalidMarker e.name fault)
  | field {f : Field} (hn : e.NamesAllowed) (hm : Marker.Usable s.marker)
      (h : FirstWith (·.ty.element = .primitive .void) e.fields f) :
      Refused s e (.unsupportedPrimitive e.name f.name .void s.language)
  | method {m : Method} (hn : e.NamesAllowed) (hm : Marker.Usable s.marker)
      (hf : ∀ f ∈ e.fields, f.ty.element ≠ .primitive .void)
      (h : FirstWith Method.Voided e.methods m) :
      Refused s e (.unsupportedPrimitive e.name m.name .void s.language)

theorem namesAllowed_iff : e.NamesAllowed ↔ clash? e = none := by
  have hforbidden : ∀ name, isReserved name = false ↔ ¬Forbidden name := by
    simp [← isReserved_iff]
  have hkeyword : ∀ name, isKeyword name = false ↔ name ∉ keywords := by
    simp [← isKeyword_iff]
  simp only [clash?_eq_none_iff, fieldClash?_eq_none_iff, methodClash?_eq_none_iff,
    isTaken_eq_false_iff, hforbidden, hkeyword, TypeExpr.referenced?_eq_some_iff]
  constructor
  · intro h
    refine ⟨h.entity, fun f hf ↦ ⟨?_, h.targets f.ty (.field hf)⟩,
      fun m hm ↦ ⟨?_, h.parameters m hm, ?_⟩⟩
    · exact h.members f.name (List.mem_append_left _ (List.mem_map_of_mem hf))
    · exact h.members m.name (List.mem_append_right _ (List.mem_map_of_mem hm))
    · intro other ho
      obtain ⟨ty, ht, ho⟩ := List.mem_filterMap.1 ho
      exact h.targets ty (.of_mem_types hm ht) other (TypeExpr.referenced?_eq_some_iff.1 ho)
  · intro h
    obtain ⟨hname, hfields, hmethods⟩ := h
    refine ⟨hname, ?_, fun m hm ↦ (hmethods m hm).2.1, ?_⟩
    · intro name hn
      rcases List.mem_append.1 hn with hn | hn
      · obtain ⟨f, hf, rfl⟩ := List.mem_map.1 hn
        exact (hfields f hf).1
      · obtain ⟨m, hm, rfl⟩ := List.mem_map.1 hn
        exact (hmethods m hm).1
    · intro ty ht other ho
      rcases ht.field_or_signature with ⟨f, hf, rfl⟩ | ⟨m, hm, ht⟩
      · exact (hfields f hf).2 other ho
      · have href : other ∈ m.references :=
          List.mem_filterMap.2 ⟨ty, ht, TypeExpr.referenced?_eq_some_iff.2 ho⟩
        exact (hmethods m hm).2.2 other href

end Entity

namespace CustomMethod

variable {ty : TypeExpr} {kind : Primitive} {p : Parameter} {type : String}

theorem returnedOf_eq_error_iff : returnedOf ty = .error kind ↔
    (ty.element = .primitive .void ∧ ty ≠ .primitive .void) ∧ Primitive.void = kind := by
  unfold returnedOf
  split
  · next h => simp [h]
  · next h =>
    rw [TypeExpr.spelled_eq_error_iff]
    simp [h]

theorem parameterOf_eq_error_iff (p : Parameter) (kind : Primitive) :
    parameterOf p = .error kind ↔ p.ty.element = .primitive .void ∧ Primitive.void = kind := by
  unfold parameterOf parameterDeclarator
  split
  · next h => simp [h, TypeExpr.element, bind, Except.bind, pure, Except.pure]
  · simp [bind_eq_error_iff, TypeExpr.spelling_eq_error_iff, pure, Except.pure]

theorem ofMethod_eq_error_iff : ofMethod type m = .error kind ↔ m.Voided ∧ Primitive.void = kind := by
  have hparameters : m.parameters.mapM parameterOf = .error kind ↔
      (∃ p ∈ m.parameters, p.ty.element = .primitive .void) ∧ Primitive.void = kind := by
    rw [mapM_eq_error_iff parameterOf_eq_error_iff, exists_and_right, exists_firstWith_iff]
  have hreturned : ∀ kind, returnedOf m.returns = .error kind ↔ _ := fun _ ↦
    returnedOf_eq_error_iff
  simp only [ofMethod, bind_eq_error_iff, hparameters, Method.Voided, pure, Except.pure,
    reduceCtorEq, and_false, exists_false, or_false]
  cases hr : returnedOf m.returns with
  | error other =>
    obtain ⟨hvoid, rfl⟩ := (hreturned other).1 hr
    simp [hvoid]
  | ok returned =>
    have hvoid : ¬(m.returns.element = .primitive .void ∧ m.returns ≠ .primitive .void) := by
      intro h
      have herror := (hreturned .void).2 ⟨h, rfl⟩
      rw [hr] at herror
      cases herror
    simp [hvoid]

end CustomMethod

namespace ClassUnit

variable {s : Settings} {error : EmitError} {ty : TypeExpr} {kind : Primitive}

theorem storageOf_eq_error_iff :
    storageOf ty = .error kind ↔ ty.element = .primitive .void ∧ Primitive.void = kind := by
  unfold storageOf
  split
  · simp [TypeExpr.element]
  · exact TypeExpr.spelled_eq_error_iff

theorem classField_eq_error_iff (f : Field) (error : EmitError) : classField s e f = .error error ↔
    f.ty.element = .primitive .void ∧
      EmitError.unsupportedPrimitive e.name f.name .void s.language = error := by
  unfold classField
  split
  · next kind h =>
    obtain ⟨hvoid, rfl⟩ := storageOf_eq_error_iff.1 h
    simp [hvoid]
  · next storage h =>
    have hvoid : f.ty.element ≠ .primitive .void := by
      intro hvoid
      rw [storageOf_eq_error_iff.2 ⟨hvoid, rfl⟩] at h
      cases h
    simp [hvoid]

theorem customMethod_eq_error_iff (m : Method) (error : EmitError) :
    customMethod s e m = .error error ↔
      m.Voided ∧ EmitError.unsupportedPrimitive e.name m.name .void s.language = error := by
  simp [customMethod, mapError_eq_error_iff, CustomMethod.ofMethod_eq_error_iff]

theorem checkNames_eq_error_iff : checkNames s e = .error error ↔ ∃ clash, FirstClash e clash ∧
    EmitError.reservedName e.name clash.member clash.name s.language = error := by
  simp only [← clash?_eq_some_iff]
  unfold checkNames
  split <;> simp_all

theorem checkNames_eq_ok_iff {answer : Unit} : checkNames s e = .ok answer ↔ e.NamesAllowed := by
  rw [Entity.namesAllowed_iff]
  unfold checkNames
  split <;> simp_all

theorem checkMarker_eq_error_iff : checkMarker s e = .error error ↔
    ∃ fault, Marker.Unusable s.marker fault ∧ EmitError.invalidMarker e.name fault = error := by
  simp only [← Marker.fault?_eq_some_iff]
  unfold checkMarker
  split <;> simp_all

theorem checkMarker_eq_ok_iff {answer : Unit} :
    checkMarker s e = .ok answer ↔ Marker.Usable s.marker := by
  rw [← Marker.fault?_eq_none_iff_usable]
  unfold checkMarker
  split <;> simp_all

theorem result_ofEntity (s : Settings) (e : Entity) : (ofEntity s e).result = do
    checkNames s e
    checkMarker s e
    let fields ← e.fields.mapM (classField s e)
    let methods ← e.methods.mapM (customMethod s e)
    return assemble s e fields methods := by
  unfold ofEntity classFields
  cases checkNames s e with
  | error fault => rfl
  | ok _ =>
    cases checkMarker s e with
    | error fault => rfl
    | ok _ => cases e.fields.mapM (classField s e) <;> rfl

theorem exists_fields_iff : (∃ fields, e.fields.mapM (classField s e) = .ok fields) ↔
    ∀ f ∈ e.fields, f.ty.element ≠ .primitive .void :=
  exists_mapM_eq_ok_iff classField_eq_error_iff

theorem exists_methods_iff : (∃ methods, e.methods.mapM (customMethod s e) = .ok methods) ↔
    ∀ m ∈ e.methods, ¬m.Voided :=
  exists_mapM_eq_ok_iff customMethod_eq_error_iff

theorem ofEntity_eq_error_iff : (ofEntity s e).result = .error error ↔ e.Refused s error := by
  simp only [result_ofEntity, bind_eq_error_iff, checkNames_eq_error_iff, checkNames_eq_ok_iff,
    checkMarker_eq_error_iff, checkMarker_eq_ok_iff, mapM_eq_error_iff classField_eq_error_iff,
    mapM_eq_error_iff customMethod_eq_error_iff, pure, Except.pure, reduceCtorEq, and_false,
    exists_false, or_false]
  constructor
  · intro h
    rcases h with ⟨clash, h, rfl⟩ | ⟨_, hn, ⟨fault, h, rfl⟩ | ⟨_, hm, h⟩⟩
    · exact .reserved h
    · exact .marker hn h
    · rcases h with ⟨f, h, rfl⟩ | ⟨fields, hf, m, h, rfl⟩
      · exact .field hn hm h
      · exact .method hn hm (exists_fields_iff.1 ⟨fields, hf⟩) h
  · intro h
    cases h with
    | reserved h => exact .inl ⟨_, h, rfl⟩
    | marker hn h => exact .inr ⟨(), hn, .inl ⟨_, h, rfl⟩⟩
    | field hn hm h => exact .inr ⟨(), hn, .inr ⟨(), hm, .inl ⟨_, h, rfl⟩⟩⟩
    | method hn hm hf h =>
      obtain ⟨fields, hf⟩ := exists_fields_iff.2 hf
      exact .inr ⟨(), hn, .inr ⟨(), hm, .inr ⟨fields, hf, _, h, rfl⟩⟩⟩

theorem exists_ofEntity_eq_ok_iff :
    (∃ u, (ofEntity s e).result = .ok u) ↔ e.Emittable s.marker := by
  simp only [result_ofEntity, bind_eq_ok_iff, checkNames_eq_ok_iff, checkMarker_eq_ok_iff]
  constructor
  · intro h
    obtain ⟨u, _, hn, _, hm, fields, hf, methods, hmethods, -⟩ := h
    exact ⟨hn, hm, exists_fields_iff.1 ⟨fields, hf⟩, exists_methods_iff.1 ⟨methods, hmethods⟩⟩
  · intro h
    obtain ⟨fields, hf⟩ := exists_fields_iff.2 h.fields
    obtain ⟨methods, hm⟩ := exists_methods_iff.2 h.methods
    exact ⟨_, (), h.names, (), h.marker, fields, hf, methods, hm, rfl⟩

end ClassUnit

namespace Catalog

variable {c : Catalog} {s : Settings} {fault : SchemaError}

/-- What a structural fault says about the entity, and which of its members it names. -/
def Blames (c : Catalog) (name : String) : SchemaError → Prop
  | .unknownEntity owner => owner = name ∧ name ∉ c.names
  | .unresolvedType owner field target => c.NearestDangling name owner field target
  | .unresolvedMethodType owner method target => owner = name ∧ ∃ e m, c.find? name = some e ∧
      FirstWith (fun m ↦ ∃ other ∈ m.references, other ∉ c.names) e.methods m ∧
      m.name = method ∧ FirstWith (· ∉ c.names) m.references target
  | .compositionCycle owner _ => owner = name ∧ c.Endless name
  | _ => False

theorem firstWith_of_unresolvedMethods {rest : List SchemaError}
    (h : c.unresolvedMethods e = fault :: rest) : ∃ m target,
      FirstWith (fun m ↦ ∃ other ∈ m.references, other ∉ c.names) e.methods m ∧
      FirstWith (· ∉ c.names) m.references target ∧
      .unresolvedMethodType e.name m.name target = fault := by
  obtain ⟨r, refs, hrefs, rfl, -⟩ := List.map_eq_cons_iff.1 h
  have hfirst : FirstWith (fun r ↦ r.2 ∉ c.names) e.methodReferences r :=
    (filter_eq_cons_iff_firstWith (by simp [contains])).1 ⟨refs, hrefs⟩
  obtain ⟨m, hm, hr⟩ := firstWith_flatMap_iff.1 hfirst
  obtain ⟨target, ht, rfl⟩ := firstWith_map_iff.1 hr
  refine ⟨m, target, ?_, ht, rfl⟩
  simpa using hm

theorem blames_of_resolve (h : c.resolve name = .error fault) : c.Blames name fault := by
  unfold resolve at h
  split at h
  · next hf =>
    cases h
    exact ⟨rfl, find?_eq_none_iff.1 hf⟩
  · next e hf =>
    split at h
    · next fault hw =>
      cases h
      have hnearest := layerAnswer_checkClosure hf
      rw [hw] at hnearest
      obtain ⟨owner, field, target, rfl, hnearest⟩ := hnearest
      exact hnearest
    · next fault rest _ hs =>
      cases h
      obtain ⟨m, target, hm, ht, rfl⟩ := firstWith_of_unresolvedMethods hs
      exact ⟨name_of_find? hf, e, m, hf, hm, rfl, ht⟩
    · next path _ _ hp =>
      cases h
      exact ⟨rfl, endless_of_lasso ((findCycle_eq_some_iff c.noneEndless_nil).1 hp)⟩
    · cases h

/-- Emission succeeds if and only if the entity resolves, its names are allowed, the marker can be
used, and all its types can be spelled. When it fails, the first of these that does not hold decides
the error, which names the first member at fault. -/
theorem emit_decides (c : Catalog) (s : Settings) (name : String) :
    ((∃ u, c.emit s name = .ok u) ↔ ∃ e, c.resolve name = .ok e ∧ e.Emittable s.marker) ∧
    ∀ error, c.emit s name = .error error ↔
      (∃ fault, c.resolve name = .error fault ∧ c.Blames name fault ∧ error = .schema fault) ∨
        ∃ e, c.resolve name = .ok e ∧ e.name = name ∧ e.Refused s error := by
  unfold emit emitTraced
  cases hr : c.resolve name with
  | error fault =>
    have hblames := blames_of_resolve hr
    simp [hblames, eq_comm]
  | ok e =>
    have hname : e.name = name := name_of_find? (find?_of_resolve hr)
    simp only [ClassUnit.exists_ofEntity_eq_ok_iff, ClassUnit.ofEntity_eq_error_iff]
    simp [hname]

end Catalog

end ValueContract
