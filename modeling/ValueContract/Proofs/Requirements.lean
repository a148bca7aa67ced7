import ValueContract.Proofs.ByteOrder
import ValueContract.Proofs.Emission
import ValueContract.Proofs.SortedNames
import ValueContract.Proofs.TypeText

namespace ValueContract

variable {ty : TypeExpr} {line owner other : String} {e : Entity} {r : Requirements}

namespace TypeExpr

/-- The include lines that a type calls for. -/
inductive CallsFor : TypeExpr → String → Prop
  | integer {ty : TypeExpr} {kind : Primitive} (h : ty.element = .primitive kind)
      (hk : kind ∈ [.i8, .i16, .i32, .i64, .u8, .u16, .u32, .u64]) :
      CallsFor ty "#include <stdint.h>"
  | text {ty : TypeExpr} (h : ty.element = .primitive .string) : CallsFor ty "#include <string>"
  | list {inner : TypeExpr} : CallsFor (.list inner) "#include <vector>"

theorem callsFor_primitive_iff {kind : Primitive} : (primitive kind).CallsFor line ↔
    (line = "#include <stdint.h>" ∧ kind.category = .integer) ∨
      (line = "#include <string>" ∧ kind.category = .text) := by
  constructor
  · intro h
    cases h with
    | integer h hk =>
      cases h
      refine .inl ⟨rfl, ?_⟩
      cases kind <;> simp_all [Primitive.category]
    | text h =>
      cases h
      exact .inr ⟨rfl, rfl⟩
  · rintro (⟨rfl, hk⟩ | ⟨rfl, hk⟩)
    · exact .integer rfl (by cases kind <;> simp_all [Primitive.category])
    · cases kind <;> simp [Primitive.category] at hk
      exact .text rfl

theorem not_callsFor_entity {name : String} : ¬(entity name).CallsFor line := by
  intro h
  cases h with
  | integer h | text h => cases h

theorem callsFor_list_iff {inner : TypeExpr} :
    (list inner).CallsFor line ↔ line = "#include <vector>" ∨ inner.CallsFor line := by
  constructor
  · intro h
    cases h with
    | integer h hk => exact .inr (.integer h hk)
    | text h => exact .inr (.text h)
    | list => exact .inl rfl
  · rintro (rfl | h)
    · exact .list
    · cases h with
      | integer h hk => exact .integer h hk
      | text h => exact .text h
      | list => exact .list

theorem exists_layers_iff : (∃ layers, ty = list^[layers] (.entity other)) ↔
    ty.element = .entity other := by
  constructor
  · rintro ⟨layers, rfl⟩
    exact element_iterate_list layers _
  · intro h
    exact ⟨ty.depth, by rw [← h, iterate_list_element]⟩

end TypeExpr

namespace Requirements

variable {types : List TypeExpr}

theorem mem_entities_collect : other ∈ (collect owner r ty).entities ↔
    other ∈ r.entities ∨ (other ≠ owner ∧ ty.element = .entity other) := by
  induction ty generalizing r with
  | primitive kind =>
    cases kind <;> simp [collect, Primitive.category, addInclude, TypeExpr.element]
  | entity name =>
    simp only [collect, TypeExpr.element, TypeExpr.entity.injEq]
    split
    · next h =>
      subst h
      simp +contextual [eq_comm]
    · next h =>
      simp only [addEntity, Name.mem_insertSorted]
      constructor
      · rintro (rfl | hm)
        · exact .inr ⟨h, rfl⟩
        · exact .inl hm
      · rintro (hm | ⟨-, rfl⟩)
        · exact .inr hm
        · exact .inl rfl
  | list inner ih => rw [collect, ih, addInclude, TypeExpr.element]

theorem mem_includes_collect : line ∈ (collect owner r ty).includes ↔
    line ∈ r.includes ∨ ty.CallsFor line := by
  induction ty generalizing r with
  | primitive kind =>
    have hcalls : (TypeExpr.primitive kind).CallsFor line ↔ _ := TypeExpr.callsFor_primitive_iff
    cases kind <;> simp_all [collect, Primitive.category, addInclude, Name.mem_insertSorted, or_comm]
  | entity name =>
    simp only [collect, addEntity, TypeExpr.not_callsFor_entity, or_false]
    split <;> rfl
  | list inner ih =>
    rw [collect, ih, addInclude, Name.mem_insertSorted, TypeExpr.callsFor_list_iff,
      or_left_comm, or_assoc]

structure Increasing (r : Requirements) : Prop where
  includes : r.includes.Pairwise (· < ·)
  entities : r.entities.Pairwise (· < ·)

theorem Increasing.addInclude (h : r.Increasing) (line : String) : (r.addInclude line).Increasing :=
  ⟨Name.pairwise_insertSorted h.includes, h.entities⟩

theorem Increasing.collect (h : r.Increasing) (owner : String) (ty : TypeExpr) :
    (collect owner r ty).Increasing := by
  induction ty generalizing r with
  | primitive kind =>
    rw [Requirements.collect]
    split
    · exact h.addInclude _
    · exact h.addInclude _
    · exact h
    · exact h
    · exact h
  | entity name =>
    rw [Requirements.collect]
    split
    · exact h
    · exact ⟨h.includes, Name.pairwise_insertSorted h.entities⟩
  | list inner ih => exact ih (h.addInclude _)

theorem Increasing.foldl (h : r.Increasing) (owner : String) (types : List TypeExpr) :
    (types.foldl (Requirements.collect owner) r).Increasing := by
  induction types generalizing r with
  | nil => exact h
  | cons ty types ih => exact ih (h.collect owner ty)

theorem mem_entities_foldl : other ∈ (types.foldl (collect owner) r).entities ↔
    other ∈ r.entities ∨ (other ≠ owner ∧ ∃ ty ∈ types, ty.element = .entity other) := by
  induction types generalizing r with
  | nil => simp
  | cons ty types ih =>
    rw [List.foldl_cons, ih, mem_entities_collect, List.exists_mem_cons_iff, or_assoc, and_or_left]

theorem mem_includes_foldl : line ∈ (types.foldl (collect owner) r).includes ↔
    line ∈ r.includes ∨ ∃ ty ∈ types, ty.CallsFor line := by
  induction types generalizing r with
  | nil => simp
  | cons ty types ih =>
    rw [List.foldl_cons, ih, mem_includes_collect, List.exists_mem_cons_iff, or_assoc]

theorem increasing_ofEntity (e : Entity) : (ofEntity e).Increasing :=
  Increasing.foldl ⟨.nil, .nil⟩ e.name e.types

theorem mem_entities_ofEntity : other ∈ (ofEntity e).entities ↔
    other ≠ e.name ∧ ∃ ty, e.Mentions ty ∧ ty.element = .entity other := by
  simp [ofEntity, mem_entities_foldl, Entity.mem_types_iff]

theorem mem_includes_ofEntity :
    line ∈ (ofEntity e).includes ↔ ∃ ty, e.Mentions ty ∧ ty.CallsFor line := by
  simp [ofEntity, mem_includes_foldl, Entity.mem_types_iff]

end Requirements

namespace Catalog

/-- A class depends on the other entities that stand under any number of list layers in its fields
and signatures, and includes what the types there call for. Both lists are strictly increasing, byte
by byte. -/
theorem requirements_exact {c : Catalog} {s : Settings} {name : String} {u : ClassUnit}
    (h : c.emit s name = .ok u) : ∃ e, c.resolve name = .ok e ∧
      (∀ other, other ∈ u.dependencies ↔ other ≠ name ∧
        ∃ ty, e.Mentions ty ∧ ∃ layers, ty = TypeExpr.list^[layers] (.entity other)) ∧
      u.dependencies.Pairwise (fun a b ↦ Text.bytes a < Text.bytes b) ∧
      (∀ line, line ∈ u.includes ↔ ∃ ty, e.Mentions ty ∧ ty.CallsFor line) ∧
      u.includes.Pairwise (fun a b ↦ Text.bytes a < Text.bytes b) := by
  obtain ⟨e, hr, hu⟩ := ofEntity_of_emit h
  obtain ⟨fields, methods, -, -, rfl⟩ := ClassUnit.ofEntity_eq_ok hu
  have hname : e.name = name := name_of_find? (find?_of_resolve hr)
  have hincreasing := Requirements.increasing_ofEntity e
  refine ⟨e, hr, ?_, ?_, ?_, ?_⟩
  · intro other
    simp only [TypeExpr.exists_layers_iff, ← hname]
    exact Requirements.mem_entities_ofEntity
  · exact hincreasing.entities.imp Text.bytes_lt_bytes
  · exact fun line ↦ Requirements.mem_includes_ofEntity
  · exact hincreasing.includes.imp Text.bytes_lt_bytes

/-- A gallery mentions itself, a list of lists of entities, and integers in a signature only. -/
def galleries : Catalog where
  entities :=
    [⟨"Gallery", [⟨"walls", .list (.list (.entity "Picture")), 0⟩, ⟨"open", .primitive .bool, 1⟩],
        [⟨"merge", .primitive .void, [⟨"from", .entity "Gallery"⟩]⟩,
          ⟨"by", .list (.entity "Picture"),
            [⟨"artist", .entity "Artist"⟩, ⟨"year", .primitive .u16⟩]⟩]⟩,
      ⟨"Picture", [], []⟩, ⟨"Artist", [], []⟩]

theorem galleries_requirements : ∃ u, galleries.emit {} "Gallery" = .ok u ∧
    u.dependencies = ["Artist", "Picture"] ∧
    u.includes = ["#include <stdint.h>", "#include <vector>"] ∧
    u.dependencies.Pairwise (fun a b ↦ Text.bytes a < Text.bytes b) ∧
    "Gallery" ∉ u.dependencies := by
  have hshown : (fun u : ClassUnit ↦ (u.dependencies, u.includes)) <$>
      galleries.emit {} "Gallery" =
      .ok (["Artist", "Picture"], ["#include <stdint.h>", "#include <vector>"]) := by
    decide +kernel
  obtain ⟨u, hu, hlists⟩ := map_eq_ok_iff.1 hshown
  obtain ⟨hdependencies, hincludes⟩ := Prod.mk.inj hlists
  obtain ⟨e, -, hmem, hpairwise, -⟩ := requirements_exact hu
  refine ⟨u, hu, hdependencies, hincludes, hpairwise, ?_⟩
  rw [hmem]
  exact fun h ↦ h.1 rfl

end Catalog

end ValueContract
