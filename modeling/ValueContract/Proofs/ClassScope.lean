import ValueContract.Proofs.EmissionFaults
import ValueContract.Proofs.EmittedNames

namespace ValueContract

variable {c : Catalog} {s : Settings} {e e' : Entity} {u : ClassUnit} {name : String}

namespace Entity

theorem nodup_of_checkParameters {owner method : String} {seen : List String}
    {parameters : List Parameter} (h : checkParameters owner method seen parameters = .ok ()) :
    (parameters.map (·.name)).Nodup ∧ ∀ p ∈ parameters, p.name ∉ seen := by
  fun_induction checkParameters owner method seen parameters with
  | case1 => simp
  | case2 | case3 => cases h
  | case4 seen p rest _ hseen ih =>
    obtain ⟨hnodup, hfresh⟩ := ih h
    refine ⟨List.nodup_cons.2 ⟨?_, hnodup⟩, List.forall_mem_cons.2 ⟨hseen, ?_⟩⟩
    · intro hmem
      obtain ⟨q, hq, heq⟩ := List.mem_map.1 hmem
      exact hfresh q hq (heq ▸ List.mem_cons_self)
    · intro q hq hmem
      exact hfresh q hq (List.mem_cons_of_mem _ hmem)

theorem Defined.nodup_parameters (h : e.Defined) :
    ∀ m ∈ e.methods, (m.parameters.map (·.name)).Nodup := by
  apply h.invariant
  · intro name pairs e h
    obtain ⟨-, fields, -, rfl⟩ := define_eq_ok h
    exact List.forall_mem_nil _
  · intro e m e' he h
    obtain ⟨-, -, hparameters, rfl⟩ := addMethod_eq_ok h
    refine List.forall_mem_append.2 ⟨he, List.forall_mem_singleton.2 ?_⟩
    exact (nodup_of_checkParameters hparameters).1

theorem Defined.isIdentifier_of_memberNames (h : e.Defined) :
    ∀ name ∈ e.memberNames, Name.isIdentifier name := by
  intro name hn
  rcases List.mem_append.1 hn with hn | hn
  · obtain ⟨f, hf, rfl⟩ := List.mem_map.1 hn
    exact h.namedFields.1 f hf
  · obtain ⟨m, hm, rfl⟩ := List.mem_map.1 hn
    exact h.namedMembers.methods m hm

theorem NamesAllowed.not_forbidden (h : e.NamesAllowed) :
    ∀ name ∈ e.name :: e.memberNames, ¬Reserved.Forbidden name := by
  refine List.forall_mem_cons.2 ⟨h.entity, ?_⟩
  intro name hn
  exact (h.members name hn).1

theorem NamesAllowed.nodup_scope (h : e.NamesAllowed) (hm : e.memberNames.Nodup) :
    ("copy_to" :: "clone" :: e.name :: e.memberNames).Nodup := by
  have hcopy : "copy_to" ∉ e.name :: e.memberNames := by
    intro hmem
    exact h.not_forbidden _ hmem (.inr (by decide))
  have hclone : "clone" ∉ e.name :: e.memberNames := by
    intro hmem
    exact h.not_forbidden _ hmem (.inr (by decide))
  have hname : e.name ∉ e.memberNames := by
    intro hmem
    exact (h.members _ hmem).2 rfl
  refine List.nodup_cons.2 ⟨?_, List.nodup_cons.2 ⟨hclone, List.nodup_cons.2 ⟨hname, hm⟩⟩⟩
  rw [List.mem_cons, not_or]
  exact ⟨by decide, hcopy⟩

end Entity

namespace MemberRole

theorem filter_isIdentifier_contract {type : String} (fields : List ClassField)
    (h : Name.isIdentifier type) :
    (all.map fun role ↦ (Member.contract type fields role).name).filter Name.isIdentifier =
      [type, type, "copy_to", "clone"] := by
  have hdestructor : Name.isIdentifier ("~" ++ type) = false := by
    simp [Name.isIdentifier, Name.isStart, String.toList_append]
  have hcopy : Name.isIdentifier "copy_to" := by decide
  have hclone : Name.isIdentifier "clone" := by decide
  have hoperators : ["operator==", "operator!=", "operator="].filter Name.isIdentifier = [] := by
    decide
  calc (all.map fun role ↦ (Member.contract type fields role).name).filter Name.isIdentifier
      = ([type, type, "~" ++ type, "copy_to", "clone"] ++
          ["operator==", "operator!=", "operator="]).filter Name.isIdentifier := rfl
    _ = [type, type, "copy_to", "clone"] := by
      rw [List.filter_append, hoperators]
      simp [h, hdestructor, hcopy, hclone]

end MemberRole

namespace ClassUnit

/-- The names that are declared in the class do not clash, and neither do those of the parameters
of a method. -/
structure Scoped (u : ClassUnit) : Prop where
  contract : (u.members.map (·.name)).filter Name.isIdentifier =
    [u.entity, u.entity, "copy_to", "clone"]
  nodup : ("copy_to" :: "clone" :: u.entity :: u.memberNames).Nodup
  identifiers : ∀ name ∈ "copy_to" :: "clone" :: u.entity :: u.memberNames, Name.isIdentifier name
  allowed : ∀ name ∈ u.entity :: u.memberNames, name ∉ Reserved.keywords ∧ name ≠ "other"
  nodup_parameters : ∀ m ∈ u.methods, (m.parameters.map (·.2)).Nodup
  parameters : ∀ m ∈ u.methods, ∀ name ∈ m.parameters.map (·.2),
    Name.isIdentifier name ∧ name ∉ Reserved.keywords

theorem parameterNames_of_ofMethod {type : String} {m : Method} {custom : CustomMethod}
    (h : CustomMethod.ofMethod type m = .ok custom) :
    custom.parameters.map (·.2) = m.parameters.map (·.name) := by
  simp only [CustomMethod.ofMethod, bind_eq_ok_iff] at h
  obtain ⟨returned, -, parameters, hp, h⟩ := h
  cases h
  refine (map_eq_map_of_forall₂ (mapM_eq_ok_iff.1 hp) ?_).symm
  intro p declared h
  simp only [CustomMethod.parameterOf, bind_eq_ok_iff] at h
  obtain ⟨declarator, -, h⟩ := h
  cases h
  rfl

theorem scoped_of_ofEntity (he : e.Defined) (h : (ofEntity s e).result = .ok u) : u.Scoped := by
  have hu : u.IsOf s e := isOf_of_ofEntity h
  have hnamed : e.NamedMembers := he.namedMembers
  have hallowed : e.NamesAllowed := Entity.namesAllowed_iff.2 hu.clash
  have hmethod : ∀ custom ∈ u.methods, ∃ m ∈ e.methods,
      custom.parameters.map (·.2) = m.parameters.map (·.name) := by
    intro custom hc
    have hmethods := mapM_eq_ok_iff.1 (mapM_ofMethod_of_ofEntity h)
    obtain ⟨m, hm, hof⟩ := exists_of_forall₂_right hmethods hc
    exact ⟨m, hm, parameterNames_of_ofMethod hof⟩
  constructor
  case contract =>
    rw [hu.members, hu.entity, List.map_map]
    exact MemberRole.filter_isIdentifier_contract u.fields he.isIdentifier_name
  case nodup =>
    rw [memberNames_eq h, hu.entity]
    exact hallowed.nodup_scope hnamed.nodup
  case identifiers =>
    rw [memberNames_eq h, hu.entity]
    exact List.forall_mem_cons.2 ⟨by decide, List.forall_mem_cons.2 ⟨by decide,
      List.forall_mem_cons.2 ⟨he.isIdentifier_name, he.isIdentifier_of_memberNames⟩⟩⟩
  case allowed =>
    rw [memberNames_eq h, hu.entity]
    intro name hn
    have hforbidden := hallowed.not_forbidden name hn
    exact ⟨fun hkey ↦ hforbidden (.inl hkey), fun hother ↦ hforbidden (.inr (by simp [hother]))⟩
  case nodup_parameters =>
    intro custom hc
    obtain ⟨m, hm, hnames⟩ := hmethod custom hc
    rw [hnames]
    exact he.nodup_parameters m hm
  case parameters =>
    intro custom hc
    obtain ⟨m, hm, hnames⟩ := hmethod custom hc
    rw [hnames, List.forall_mem_map]
    intro p hp
    exact ⟨hnamed.parameters m hm p hp, hallowed.parameters m hm p hp⟩

end ClassUnit

namespace Catalog

/-- Names never clash in a class that is emitted, and they are those of the entity. -/
theorem scoped_of_emit (he : e.Defined) (hf : c.find? name = some e)
    (h : c.emit s name = .ok u) : u.Scoped ∧
    u.entity = e.name ∧ u.fields.map (·.name) = e.fields.map (·.name) ∧
    u.methods.map (fun m ↦ (m.name, m.parameters.map (·.2))) =
      e.methods.map (fun m ↦ (m.name, m.parameters.map (·.name))) := by
  obtain ⟨e', hr, hu⟩ := ofEntity_of_emit h
  cases hf.symm.trans (find?_of_resolve hr)
  have hof : u.IsOf s e := ClassUnit.isOf_of_ofEntity hu
  refine ⟨ClassUnit.scoped_of_ofEntity he hu, hof.entity, ?_, ?_⟩
  · exact (map_eq_map_of_forall₂ hof.fields fun f g hfg ↦ hfg.1.symm).symm
  · refine (map_eq_map_of_forall₂ (mapM_eq_ok_iff.1
      (ClassUnit.mapM_ofMethod_of_ofEntity hu)) ?_).symm
    intro m custom hm
    rw [(ClassUnit.name_of_ofMethod hm).2, ClassUnit.parameterNames_of_ofMethod hm]

/-- Parameters may be called like members, or `other`, but not like one another. -/
def counter : Entity where
  name := "Counter"
  fields := [⟨"total", .primitive .u32, 0⟩, ⟨"history", .list (.primitive .u32), 1⟩]
  methods :=
    [⟨"add", .primitive .void, [⟨"other", .entity "Counter"⟩, ⟨"total", .primitive .u32⟩]⟩,
      ⟨"reset", .primitive .bool, [⟨"clone", .primitive .bool⟩]⟩]

theorem counter_defined : counter.Defined := by
  have hfields : Entity.define "Counter"
      [("total", .primitive .u32), ("history", .list (.primitive .u32))] =
      .ok { counter with methods := [] } := rfl
  have hmethods : Entity.withMethods { counter with methods := [] } counter.methods =
      .ok counter := rfl
  exact .withMethods (.define hfields) hmethods

theorem counter_scoped : ∃ u, Catalog.emit ⟨[counter]⟩ {} "Counter" = .ok u ∧
    u.memberNames = ["total", "history", "add", "reset"] ∧ u.Scoped := by
  have hnames : (·.memberNames) <$> Catalog.emit ⟨[counter]⟩ {} "Counter" =
      .ok ["total", "history", "add", "reset"] := by
    decide +kernel
  obtain ⟨u, hu, hmembers⟩ := map_eq_ok_iff.1 hnames
  exact ⟨u, hu, hmembers, (scoped_of_emit counter_defined rfl hu).1⟩

end Catalog

end ValueContract
