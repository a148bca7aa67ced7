import ValueContract.Proofs.EmittedNames
import ValueContract.Proofs.Requirements

namespace ValueContract

variable {c : Catalog} {s : Settings} {e : Entity} {u : ClassUnit} {name other : String}

def Primitive.integerTypes : List String :=
  (all.filter (·.category = .integer)).filterMap (·.spelling?)

namespace ClassUnit

def declaredNames (u : ClassUnit) : List String :=
  u.entity :: u.memberNames

/-- The types that the class spells and does not declare, as far as they are plain names. -/
def foreignTypes (u : ClassUnit) : List String :=
  u.dependencies ++ Primitive.integerTypes

theorem mem_dependenciesOf_iff : other ∈ dependenciesOf e ↔
    other ≠ e.name ∧ ∃ ty ∈ e.types, ty.referenced? = some other := by
  simp only [dependenciesOf, Requirements.mem_entities_ofEntity, Entity.mem_types_iff,
    TypeExpr.referenced?_eq_some_iff]

theorem dependencies_eq (h : (ofEntity s e).result = .ok u) : u.dependencies = dependenciesOf e := by
  obtain ⟨fields, methods, -, -, rfl⟩ := ofEntity_eq_ok h
  rfl

theorem exists_type_of_dependency (h : (ofEntity s e).result = .ok u)
    (hd : other ∈ u.dependencies) : ∃ ty ∈ e.types, ty.referenced? = some other := by
  rw [dependencies_eq h, mem_dependenciesOf_iff] at hd
  exact hd.2

end ClassUnit

/-- What is spelled otherwise than an integer type is a keyword or no name at all. -/
theorem Primitive.category_of_isFree {kind : Primitive} (h : kind.spelling? = some name)
    (hn : Name.isFree name) : kind.category = .integer := by
  have hall : ∀ kind : Primitive, ∀ name, kind.spelling? = some name →
      kind.category ≠ .integer → Name.isFree name = false := by
    intro kind name hs hc
    cases kind <;> cases hs <;> first | exact absurd rfl hc | decide
  by_contra hc
  simp [hall kind name h hc] at hn

namespace Catalog

/-- Exactly two kinds of names hide a type that the class uses: a member named like an entity that
the class names, at any list depth in a field or a signature, and a class or a member named like an
integer type. Nothing is named like the class itself, and no other primitive type can be hidden. -/
theorem hidden_types (hc : c.Built) (h : c.emit s name = .ok u) :
    ∃ e, c.resolve name = .ok e ∧
      (∀ other, other ∈ u.declaredNames ∧ other ∈ u.foreignTypes ↔
        (other ∈ e.memberNames ∧ ∃ ty ∈ e.types, ty.referenced? = some other) ∨
          (other ∈ e.name :: e.memberNames ∧ other ∈ Primitive.integerTypes)) ∧
      u.entity ∉ u.memberNames ∧ u.entity ∉ u.dependencies ∧
      ∀ kind other, Primitive.spelling? kind = some other → other ∈ u.declaredNames →
        kind.category = .integer := by
  obtain ⟨e, hr, hu, hplain⟩ := plain_of_emit hc h
  have hentity : u.entity = e.name := (ClassUnit.isOf_of_ofEntity hu).entity
  have hmembers : u.memberNames = e.memberNames := ClassUnit.memberNames_eq hu
  have hdependencies : ∀ other, other ∈ u.dependencies ↔
      other ≠ e.name ∧ ∃ ty ∈ e.types, ty.referenced? = some other := fun other ↦ by
    rw [ClassUnit.dependencies_eq hu, ClassUnit.mem_dependenciesOf_iff]
  refine ⟨e, hr, ?_, ?_, ?_, ?_⟩
  · intro other
    have hne : other ∈ e.memberNames → other ≠ e.name := by
      rintro hm rfl
      exact hplain.not_mem hm
    simp only [ClassUnit.declaredNames, ClassUnit.foreignTypes, hentity, hmembers, List.mem_cons,
      List.mem_append, hdependencies]
    constructor
    · rintro ⟨hd, ⟨hother, ht⟩ | hi⟩
      · exact .inl ⟨hd.resolve_left hother, ht⟩
      · exact .inr ⟨hd, hi⟩
    · rintro (⟨hm, ht⟩ | ⟨hd, hi⟩)
      · exact ⟨.inr hm, .inl ⟨hne hm, ht⟩⟩
      · exact ⟨hd, .inr hi⟩
  · rw [hentity, hmembers]
    exact hplain.not_mem
  · rw [hdependencies, hentity]
    exact fun h ↦ h.1 rfl
  · intro kind other hs hm
    refine Primitive.category_of_isFree hs ?_
    simp only [ClassUnit.declaredNames, hentity, hmembers, Entity.memberNames, List.mem_cons,
      List.mem_append, List.mem_map] at hm
    obtain rfl | ⟨f, hf, rfl⟩ | ⟨m, hm, rfl⟩ := hm
    · exact hplain.name
    · exact hplain.fields f hf
    · exact hplain.methods m hm

def scenery : Catalog where
  entities :=
    [⟨"Point3", [⟨"x", .primitive .f32, 0⟩], []⟩,
      ⟨"Scene", [⟨"Point3", .entity "Point3", 0⟩, ⟨"int32_t", .list (.primitive .i32), 1⟩], []⟩]

theorem scenery_built : scenery.Built := by
  have hpoint : Entity.define "Point3" [("x", .primitive .f32)] = .ok scenery.entities[0] := rfl
  have hscene : Entity.define "Scene"
      [("Point3", .entity "Point3"), ("int32_t", .list (.primitive .i32))] =
      .ok scenery.entities[1] := rfl
  exact .declare (.declare .empty (.define hpoint) rfl) (.define hscene) rfl

theorem scenery_hidden_types : ∃ u, scenery.emit {} "Scene" = .ok u ∧
    (∀ other, other ∈ u.declaredNames ∧ other ∈ u.foreignTypes ↔
      other = "Point3" ∨ other = "int32_t") ∧ u.entity ∉ u.memberNames := by
  obtain ⟨u, hu⟩ : ∃ u, scenery.emit {} "Scene" = .ok u := exists_eq_ok (by decide +kernel)
  obtain ⟨e, hr, hiff, hmembers, -⟩ := hidden_types scenery_built hu
  have hscene : scenery.resolve "Scene" = .ok scenery.entities[1] := by decide +kernel
  cases hscene.symm.trans hr
  have hnames : scenery.entities[1].memberNames = ["Point3", "int32_t"] := rfl
  refine ⟨u, hu, fun other ↦ (hiff other).trans ⟨?_, ?_⟩, hmembers⟩
  · rintro (⟨hm, -⟩ | ⟨hm, hi⟩)
    · simpa [hnames] using hm
    · rcases List.mem_cons.1 hm with rfl | hm
      · exact absurd hi (by decide)
      · simpa [hnames] using hm
  · rintro (rfl | rfl)
    · exact .inl ⟨by decide, .entity "Point3", by decide, rfl⟩
    · exact .inr (by decide)

/-- In the class of a scene `new Point3()` stands for the field, not for the entity. -/
theorem field_hides_its_type : ∃ u, scenery.emit {} "Scene" = .ok u ∧
    u.fields.map (·.declaration) = ["Point3 *Point3;", "std::vector<int32_t> int32_t;"] ∧
    ¬∀ other ∈ u.declaredNames, other ∉ u.foreignTypes := by
  have hcheck : (fun u : ClassUnit ↦ (u.fields.map (·.declaration),
        u.declaredNames.any (u.foreignTypes.contains ·))) <$> scenery.emit {} "Scene" =
      .ok (["Point3 *Point3;", "std::vector<int32_t> int32_t;"], true) := by
    decide +kernel
  obtain ⟨u, hu, hshown⟩ := map_eq_ok_iff.1 hcheck
  obtain ⟨hfields, hhides⟩ := Prod.mk.inj hshown
  refine ⟨u, hu, hfields, fun hall ↦ ?_⟩
  obtain ⟨other, hd, hf⟩ := List.any_eq_true.1 hhides
  exact hall other hd (List.contains_iff_mem.1 hf)

end Catalog

end ValueContract
