import Mathlib.Data.List.Nodup
import ValueContract.Proofs.MarkerBlock
import ValueContract.Proofs.NameCapture

namespace ValueContract

theorem filter_eq_singleton {α β : Type} [DecidableEq β] {f : α → β} {items : List α} {a : α}
    (h : (items.map f).Nodup) (ha : a ∈ items) : items.filter (f · = f a) = [a] := by
  obtain ⟨before, after, rfl⟩ := List.append_of_mem ha
  rw [List.map_append, List.map_cons, List.nodup_middle, ← List.map_append, List.nodup_cons] at h
  have hother : ∀ b ∈ before ++ after, f b ≠ f a := fun b hb heq ↦
    h.1 (heq ▸ List.mem_map_of_mem hb)
  obtain ⟨hbefore, hafter⟩ := List.forall_mem_append.1 hother
  rw [List.filter_append, List.filter_cons_of_pos (by simp),
    List.filter_eq_nil_iff.2 (by simpa using hbefore),
    List.filter_eq_nil_iff.2 (by simpa using hafter), List.nil_append]

namespace ClassUnit

variable {u : ClassUnit} {entity other ending ending' : String}

def fileEndings : List String := [".hpp", "_generated_impl.cpp", "_custom_impl.cpp"]

theorem fileNames_eq (u : ClassUnit) : u.fileNames = fileEndings.map (u.entity ++ ·) := rfl

/-- No ending is the end of another one, so a name of a file tells the entity and the ending. -/
theorem append_ending_inj (he : ending ∈ fileEndings) (he' : ending' ∈ fileEndings)
    (h : entity ++ ending = other ++ ending') : entity = other ∧ ending = ending' := by
  have hends : ∀ a ∈ fileEndings, ∀ b ∈ fileEndings, a.toList <:+ b.toList → a = b := by decide
  have hchars : entity.toList ++ ending.toList = other.toList ++ ending'.toList := by
    rw [← String.toList_append, h, String.toList_append]
  have hleft : ending.toList <:+ entity.toList ++ ending.toList := List.suffix_append _ _
  have hright : ending'.toList <:+ entity.toList ++ ending.toList := hchars ▸ List.suffix_append _ _
  have heq : ending = ending' := by
    rcases List.suffix_or_suffix_of_suffix hleft hright with hsuffix | hsuffix
    · exact hends ending he ending' he' hsuffix
    · exact (hends ending' he' ending he hsuffix).symm
  subst heq
  exact ⟨String.toList_inj.1 (List.append_cancel_right hchars), rfl⟩

theorem nodup_fileNames {units : List ClassUnit} (h : (units.map (·.entity)).Nodup) :
    (units.flatMap (·.fileNames)).Nodup := by
  rw [List.nodup_flatMap]
  constructor
  · intro u _
    rw [fileNames_eq]
    refine List.Nodup.map_on ?_ (by decide)
    intro a ha b hb heq
    exact (append_ending_inj ha hb heq).2
  · refine (List.pairwise_map.1 h).imp ?_
    intro u v hne name hu hv
    simp only [fileNames_eq, List.mem_map] at hu hv
    obtain ⟨a, ha, rfl⟩ := hu
    obtain ⟨b, hb, heq⟩ := hv
    exact hne (append_ending_inj hb ha heq).1.symm

theorem exists_print_group (u : ClassUnit) (after lines : List Line) :
    ∃ rest, u.print (group [] after lines) = u.print lines ++ rest := by
  unfold group
  split
  · next h => exact ⟨"", by simp [h]⟩
  · exact ⟨u.print after, by rw [List.nil_append, print_append]⟩

def forwardDeclaration (v : ClassUnit) : String := "class " ++ v.entity ++ ";"

def inclusion (s : Settings) (v : ClassUnit) : String :=
  "#include \"" ++ s.includePath ++ v.headerName ++ "\""

section Targets

variable {targets : List ClassUnit} (h : u.dependencies = targets.map (·.entity))
include h

theorem print_dependencies : u.print (u.dependencies.map fun d ↦ ⟨0, "class " ++ d ++ ";"⟩) =
    Text.unlines (targets.map forwardDeclaration) := by
  rw [h, List.map_map, ← print_flush u, List.map_map]
  rfl

theorem includeBlock_eq : includeBlock u.settings u.entity u.dependencies =
    Text.unlines ((u :: targets).map (inclusion u.settings)) := by
  rw [← print_includeLines_eq, includeLines, h, ← print_flush u, List.map_cons, List.map_cons,
    List.map_cons, List.map_map, List.map_map]
  rfl

theorem exists_header_eq (hm : Text.isBlank u.settings.marker = false) : ∃ rest, u.header =
    "#pragma once\n" ++ Marker.block u.settings.marker ++ Text.unlines u.includes ++ "\n" ++
      Text.unlines (targets.map forwardDeclaration) ++ rest := by
  obtain ⟨more, hmore⟩ : ∃ more, u.headerLines =
      [⟨0, "#pragma once"⟩] ++ u.commentLines ++ u.includes.map (⟨0, ·⟩) ++ [⟨0, ""⟩] ++
        group [] [⟨0, ""⟩] (u.dependencies.map fun d ↦ ⟨0, "class " ++ d ++ ";"⟩) ++ more := by
    simp only [headerLines, List.append_assoc, List.cons_append]
    exact ⟨_, rfl⟩
  obtain ⟨rest, hrest⟩ :=
    exists_print_group u [⟨0, ""⟩] (u.dependencies.map fun d ↦ ⟨0, "class " ++ d ++ ";"⟩)
  refine ⟨rest ++ u.print more, ?_⟩
  simp only [header, hmore, print_append, hrest, print_dependencies h, print_flush,
    print_commentLines_eq hm]
  simp only [String.append_assoc]
  rfl

theorem exists_implementation_eq (hm : Text.isBlank u.settings.marker = false) :
    ∃ rest, u.implementation = Marker.block u.settings.marker ++ "\n" ++
      Text.unlines ((u :: targets).map (inclusion u.settings)) ++ "\n" ++ rest := by
  rw [← includeBlock_eq h]
  exact ⟨_, implementation_eq hm⟩

theorem exists_customFile_eq : ∃ rest, u.customFile none =
    Text.unlines ((u :: targets).map (inclusion u.settings)) ++ rest := by
  rw [← includeBlock_eq h, ← print_includeLines_eq]
  exact CustomMethod.exists_foldl_appendStub_eq _ _ _

end Targets

end ClassUnit

namespace Catalog

variable {c : Catalog} {s : Settings} {name : String} {u v : ClassUnit}

theorem entity_of_emit (h : c.emit s name = .ok u) : u.entity = name := by
  obtain ⟨e, hr, hu⟩ := emit_eq_ok h
  rw [hu.entity, name_of_find? (find?_of_resolve hr)]

theorem mem_names_of_emit (h : c.emit s name = .ok u) : name ∈ c.names := by
  obtain ⟨e, hr, -⟩ := emit_eq_ok h
  exact exists_find?_iff.1 ⟨e, find?_of_resolve hr⟩

theorem mem_names_of_dependencies (h : c.emit s name = .ok u) {d : String}
    (hd : d ∈ u.dependencies) : d ∈ c.names := by
  obtain ⟨e, hr, hu⟩ := ofEntity_of_emit h
  obtain ⟨ty, ht, ho⟩ := ClassUnit.exists_type_of_dependency hu hd
  exact mem_names_of_types hr ht ho

theorem mem_units_iff : u ∈ (c.emitAll s).units ↔ c.emit s u.entity = .ok u := by
  simp only [emitAll, Report.units, List.filterMap_map, List.mem_filterMap, Function.comp_apply]
  constructor
  · rintro ⟨name, hn, hu⟩
    cases h : c.emit s name with
    | error fault => simp [h, Except.toOption] at hu
    | ok v =>
      rw [h] at hu
      cases hu
      rwa [entity_of_emit h]
  · intro h
    exact ⟨u.entity, mem_names_of_emit h, by rw [h]; rfl⟩

/-- The units come in the order of the declarations, without the entities that fail. -/
theorem entities_units (c : Catalog) (s : Settings) :
    (c.emitAll s).units.map (·.entity) = c.names.filter fun name ↦ (c.emit s name).isOk := by
  simp only [emitAll, Report.units, List.filterMap_map]
  induction c.names with
  | nil => rfl
  | cons name names ih =>
    cases h : c.emit s name with
    | error fault =>
      rw [List.filterMap_cons_none (by simp [h, Except.toOption]), ih,
        List.filter_cons_of_neg (by simp [h, Except.isOk, Except.toBool])]
    | ok u =>
      rw [List.filterMap_cons_some (b := u) (by simp [h, Except.toOption]), List.map_cons, ih,
        entity_of_emit h, List.filter_cons_of_pos (by simp [h, Except.isOk, Except.toBool])]

theorem nodup_units (hc : c.Reachable) : ((c.emitAll s).units.map (·.entity)).Nodup := by
  rw [entities_units]
  exact (reachable_iff_nodup.1 hc).filter _

theorem emit_of_isComplete (h : (c.emitAll s).isComplete) (hn : name ∈ c.names) :
    ∃ u, c.emit s name = .ok u := by
  cases he : c.emit s name with
  | ok u => exact ⟨u, rfl⟩
  | error fault =>
    have hfault : fault ∈ (c.emitAll s).failures :=
      List.mem_filterMap.2 ⟨⟨name, c.emit s name⟩, List.mem_map_of_mem hn, by rw [he]⟩
    rw [Report.isComplete, List.isEmpty_iff] at h
    rw [h] at hfault
    cases hfault

theorem exists_targets (hc : c.Reachable) (h : (c.emitAll s).isComplete)
    (hu : c.emit s name = .ok u) : ∃ targets, List.Forall₂
      (fun d v ↦ (c.emitAll s).units.filter (·.entity = d) = [v]) u.dependencies targets := by
  apply exists_forall₂
  intro d hd
  obtain ⟨v, hv⟩ := emit_of_isComplete h (mem_names_of_dependencies hu hd)
  have hentity := entity_of_emit hv
  subst hentity
  exact ⟨v, filter_eq_singleton (nodup_units hc) (mem_units_iff.2 hv)⟩

theorem outcome?_emitAll (h : name ∈ c.names) :
    (c.emitAll s).outcome? name = some ⟨name, c.emit s name⟩ := by
  unfold Report.outcome?
  cases hf : (c.emitAll s).outcomes.find? (·.entity = name) with
  | none =>
    have hmem : ⟨name, c.emit s name⟩ ∈ (c.emitAll s).outcomes :=
      List.mem_map.2 ⟨name, h, rfl⟩
    simpa using List.find?_eq_none.1 hf _ hmem
  | some o =>
    obtain ⟨other, -, rfl⟩ := List.mem_map.1 (List.mem_of_find?_eq_some hf)
    have hname : other = name := by simpa using List.find?_some hf
    rw [hname]

theorem outcome?_eq_none (h : name ∉ c.names) : (c.emitAll s).outcome? name = none := by
  rw [Report.outcome?, List.find?_eq_none]
  intro o ho
  obtain ⟨other, hother, rfl⟩ := List.mem_map.1 ho
  have hne : other ≠ name := fun heq ↦ h (heq ▸ hother)
  simpa using hne

theorem idOf?_eq_some {id : EntityId} (h : c.idOf? name = some id) :
    ∃ e, c.entities[id.index]? = some e ∧ e.name = name := by
  obtain ⟨i, hi, rfl⟩ := Option.map_eq_some_iff.1 h
  obtain ⟨hlt, hname, -⟩ := List.findIdx?_eq_some_iff_getElem.1 hi
  exact ⟨c.entities[i], List.getElem?_eq_getElem hlt, by simpa using hname⟩

theorem idOf?_eq_none_iff : c.idOf? name = none ↔ name ∉ c.names := by
  simp [idOf?, names, List.findIdx?_eq_none_iff]

/-- The outcome of an entity stands where the entity was declared. -/
theorem outcome?_eq_bind (c : Catalog) (s : Settings) (name : String) :
    (c.emitAll s).outcome? name = (c.idOf? name).bind ((c.emitAll s).outcomes[·.index]?) := by
  cases hid : c.idOf? name with
  | none => rw [outcome?_eq_none (idOf?_eq_none_iff.1 hid), Option.bind_none]
  | some id =>
    obtain ⟨e, he, rfl⟩ := idOf?_eq_some hid
    have hm : e.name ∈ c.names := List.mem_map_of_mem (List.mem_of_getElem? he)
    have hplace : (c.emitAll s).outcomes[id.index]? = some ⟨e.name, c.emit s e.name⟩ := by
      simp [emitAll, names, he]
    rw [outcome?_emitAll hm, Option.bind_some, hplace]

/-- In a complete batch every dependency of a unit has exactly one unit, and these are what the
files of the unit declare and include. In any batch no two files share a name, and the outcome of an
entity is found where the entity was declared. -/
theorem batch_closed (hc : c.Reachable) (s : Settings) :
    ((c.emitAll s).isComplete → ∀ u ∈ (c.emitAll s).units, ∃ targets,
      List.Forall₂ (fun d v ↦ (c.emitAll s).units.filter (·.entity = d) = [v])
        u.dependencies targets ∧
      (∃ rest, u.header =
        "#pragma once\n" ++ Marker.block s.marker ++ Text.unlines u.includes ++ "\n" ++
          Text.unlines (targets.map fun v ↦ "class " ++ v.entity ++ ";") ++ rest) ∧
      (∃ rest, u.implementation = Marker.block s.marker ++ "\n" ++
        Text.unlines ((u :: targets).map fun v ↦
          "#include \"" ++ s.includePath ++ v.headerName ++ "\"") ++ "\n" ++ rest) ∧
      ∃ rest, u.customFile none = Text.unlines ((u :: targets).map fun v ↦
        "#include \"" ++ s.includePath ++ v.headerName ++ "\"") ++ rest) ∧
    ((c.emitAll s).units.flatMap (·.fileNames)).Nodup ∧
    ∀ name, (c.emitAll s).outcome? name =
      (c.idOf? name).bind ((c.emitAll s).outcomes[·.index]?) ∧
      (name ∈ c.names → (c.emitAll s).outcome? name = some ⟨name, c.emit s name⟩) := by
  refine ⟨?_, ClassUnit.nodup_fileNames (nodup_units hc), fun name ↦
    ⟨outcome?_eq_bind c s name, outcome?_emitAll⟩⟩
  intro hcomplete u hu
  have hemit := mem_units_iff.1 hu
  obtain ⟨targets, htargets⟩ := exists_targets hc hcomplete hemit
  obtain ⟨rfl, hfault⟩ := settings_of_emit hemit
  obtain ⟨hblank, -⟩ := Marker.fault?_eq_none_iff.1 hfault
  have hentities : u.dependencies = targets.map (·.entity) := by
    rw [← List.map_id u.dependencies]
    apply map_eq_map_of_forall₂ htargets
    intro d v hv
    have hmem := List.mem_filter.1 (hv ▸ List.mem_singleton_self v)
    exact (of_decide_eq_true hmem.2).symm
  exact ⟨targets, htargets, ClassUnit.exists_header_eq hentities hblank,
    ClassUnit.exists_implementation_eq hentities hblank, ClassUnit.exists_customFile_eq hentities⟩

/-- One entity is named like a file of another. -/
def atlas : Catalog where
  entities :=
    [⟨"Map", [⟨"marks", .list (.entity "Mark"), 0⟩],
        [⟨"merge", .entity "Map_custom_impl", [⟨"base", .entity "Map"⟩]⟩]⟩,
      ⟨"Mark", [⟨"x", .primitive .i32, 0⟩], []⟩,
      ⟨"Map_custom_impl", [⟨"source", .entity "Mark", 0⟩], []⟩]

theorem atlas_closed : (atlas.emitAll {}).isComplete ∧ ∃ u ∈ (atlas.emitAll {}).units,
    u.dependencies = ["Map_custom_impl", "Mark"] ∧
    (∀ d ∈ u.dependencies, ∃ v, (atlas.emitAll {}).units.filter (·.entity = d) = [v]) ∧
    ((atlas.emitAll {}).units.flatMap (·.fileNames)).Nodup := by
  have hc : atlas.Reachable := reachable_iff_nodup.2 (by decide)
  have hcomplete : (atlas.emitAll {}).isComplete := by decide +kernel
  have hshown : (·.dependencies) <$> atlas.emit {} "Map" = .ok ["Map_custom_impl", "Mark"] := by
    decide +kernel
  obtain ⟨u, hu, hdependencies⟩ := map_eq_ok_iff.1 hshown
  have hmem : u ∈ (atlas.emitAll {}).units := by rwa [mem_units_iff, entity_of_emit hu]
  obtain ⟨hclosed, hnames, -⟩ := batch_closed hc {}
  obtain ⟨targets, htargets, -⟩ := hclosed hcomplete u hmem
  refine ⟨hcomplete, u, hmem, hdependencies, fun d hd ↦ ?_, hnames⟩
  obtain ⟨v, -, hv⟩ := exists_of_forall₂ htargets hd
  exact ⟨v, hv⟩

end Catalog

end ValueContract
