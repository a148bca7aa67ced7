import ValueContract.Proofs.GeneratedClass
import ValueContract.Proofs.LineSubject

namespace ValueContract

namespace ClassField

variable {g : ClassField}

def constructed (g : ClassField) : String :=
  match g.storage with
  | .owned entity => g.name ++ " = new " ++ entity ++ "();"
  | .held _ zero => g.name ++ " = " ++ zero ++ ";"

def copied (g : ClassField) : String :=
  if g.isOwned then g.name ++ "->copy_to(*other." ++ g.name ++ ");"
  else "other." ++ g.name ++ " = " ++ g.name ++ ";"

theorem lines_initialise (g : ClassField) : (Member.initialise g).lines = [⟨0, g.constructed⟩] := by
  obtain ⟨name, storage⟩ := g
  cases storage <;> rfl

theorem lines_copyField (g : ClassField) : (Member.copyField g).lines = [⟨0, g.copied⟩] := by
  unfold Member.copyField copied
  split <;> rfl

theorem subject_constructed (h : (Member.initialise g).Readable) :
    Statement.subject g.constructed = g.name := by
  have hf := ClassUnit.isFree_of_readable h
  unfold constructed
  split <;> exact Statement.subject_eq hf (c := ' ') rfl (by simp; rfl)

theorem subject_copied (h : Name.isFree g.name) : Statement.subject g.copied = g.name := by
  unfold copied
  split
  · exact Statement.subject_eq h (c := '-') rfl (by simp; rfl)
  · exact Statement.subject_copyValue h

theorem assigned?_constructed (h : (Member.initialise g).Readable) :
    Statement.assigned? g.constructed = some g.name := by
  obtain ⟨name, storage⟩ := g
  cases storage with
  | owned entity => exact Statement.assigned?_allocate h.1 h.2
  | held type zero => exact Statement.assigned?_setZero h.1 h.2

theorem isOwned_of_assigned? {field : String} (h : Name.isFree g.name)
    (ha : Statement.assigned? g.copied = some field) : g.isOwned = false ∧ g.name = field := by
  unfold copied at ha
  split at ha
  · rw [Statement.assigned?_copyPointee h] at ha
    cases ha
  · next howned =>
    rw [Statement.assigned?_copyValue h] at ha
    cases ha
    exact ⟨by simpa using howned, rfl⟩

end ClassField

namespace ClassUnit

variable {u : ClassUnit} {g : ClassField} {role : MemberRole} {type : String}

def bodyTexts (u : ClassUnit) (role : MemberRole) : List String :=
  ((u.member? role).elim [] (·.bodyLines u.entity)).map (·.text)

def declarations (u : ClassUnit) : List String :=
  u.fields.map (·.declaration)

def conjuncts (u : ClassUnit) : List String :=
  (u.bodyTexts .equality).flatMap Statement.conjuncts

theorem bodyTexts_eq (hm : u.members = MemberRole.all.map (Member.contract type u.fields)) :
    u.bodyTexts role =
      ((Member.contract type u.fields role).body.flatMap (·.lines)).map (·.text) := by
  rw [bodyTexts, member?_eq hm, Option.elim_some, Member.bodyLines_eq, List.map_map]
  rfl

theorem bodyTexts_eq_map {α : Type} {items : List α} {statement : α → Statement}
    {text : α → String} (hm : u.members = MemberRole.all.map (Member.contract type u.fields))
    (hb : (Member.contract type u.fields role).body = items.map statement)
    (hl : ∀ item, (statement item).lines = [⟨0, text item⟩]) :
    u.bodyTexts role = items.map text := by
  rw [bodyTexts_eq hm, hb, List.flatMap_map, List.map_flatMap, List.map_eq_flatMap]
  simp [hl]

def declaredName (declaration : String) : String :=
  Statement.trailing (String.ofList declaration.toList.dropLast)

theorem declaredName_declaration (h : Name.isFree g.name) : declaredName g.declaration = g.name := by
  have hlead : g.declarator.lead.toList.getLast?.all (!Name.isPart ·) := by
    unfold ClassField.declarator
    split <;> simp [Declarator.lead] <;> decide
  have htext : g.declaration.toList = (g.declarator.lead ++ g.name).toList ++ [';'] :=
    String.toList_append
  rw [declaredName, htext, List.dropLast_concat, String.ofList_toList,
    Statement.trailing_append _ h hlead]

/-- The members of the contract over fields with free names, no two of them the same. -/
structure Orderly (u : ClassUnit) (type : String) : Prop where
  named : Name.isFree type
  members : u.members = MemberRole.all.map (Member.contract type u.fields)
  readable : ∀ g ∈ u.fields, (Member.initialise g).Readable
  nodup : (u.fields.map (·.name)).Nodup

namespace Orderly

theorem free (h : u.Orderly type) (hg : g ∈ u.fields) : Name.isFree g.name :=
  isFree_of_readable (h.readable g hg)

theorem free_comparison (h : u.Orderly type) :
    ∀ c ∈ u.fields.map Member.compareField, Name.isFree c.field := by
  simpa [field_compareField] using fun g hg ↦ h.free hg

theorem constructor_eq (h : u.Orderly type) :
    u.bodyTexts .defaultConstructor = u.fields.map (·.constructed) :=
  bodyTexts_eq_map h.members rfl ClassField.lines_initialise

theorem destructor_eq (h : u.Orderly type) : u.bodyTexts .destructor =
    (u.fields.filter (·.isOwned)).map fun g ↦ "delete " ++ g.name ++ ";" :=
  bodyTexts_eq_map h.members rfl fun _ ↦ rfl

theorem copyTo_eq (h : u.Orderly type) : u.bodyTexts .copyTo = u.fields.map (·.copied) :=
  bodyTexts_eq_map h.members rfl ClassField.lines_copyField

theorem equality_eq (h : u.Orderly type) : u.bodyTexts .equality =
    ["return " ++ Statement.conjunction (u.fields.map Member.compareField) ++ ";"] :=
  bodyTexts_eq h.members

theorem conjuncts_eq (h : u.Orderly type) (hne : u.fields ≠ []) :
    u.conjuncts = u.fields.map fun g ↦ (Member.compareField g).text := by
  rw [conjuncts, h.equality_eq, List.flatMap_singleton,
    Statement.conjuncts_returnEqual (by simpa using hne) h.free_comparison, List.map_map]
  rfl

theorem conjuncts_eq_true (h : u.Orderly type) (hnil : u.fields = []) : u.conjuncts = ["true"] := by
  rw [conjuncts, h.equality_eq, hnil]
  decide

theorem declaredNames_eq (h : u.Orderly type) :
    u.declarations.map declaredName = u.fields.map (·.name) := by
  rw [declarations, List.map_map]
  exact List.map_congr_left fun g hg ↦ declaredName_declaration (h.free hg)

theorem subject_constructor (h : u.Orderly type) :
    (u.bodyTexts .defaultConstructor).map Statement.subject = u.fields.map (·.name) := by
  rw [h.constructor_eq, List.map_map]
  exact List.map_congr_left fun g hg ↦ ClassField.subject_constructed (h.readable g hg)

theorem subject_destructor (h : u.Orderly type) : (u.bodyTexts .destructor).map Statement.subject =
    (u.fields.filter (·.isOwned)).map (·.name) := by
  rw [h.destructor_eq, List.map_map]
  exact List.map_congr_left fun g hg ↦
    Statement.subject_release (h.free (List.mem_filter.1 hg).1)

theorem subject_copyTo (h : u.Orderly type) :
    (u.bodyTexts .copyTo).map Statement.subject = u.fields.map (·.name) := by
  rw [h.copyTo_eq, List.map_map]
  exact List.map_congr_left fun g hg ↦ ClassField.subject_copied (h.free hg)

theorem subject_conjuncts (h : u.Orderly type) (hne : u.fields ≠ []) :
    u.conjuncts.map Statement.subject = u.fields.map (·.name) := by
  rw [h.conjuncts_eq hne, List.map_map]
  refine List.map_congr_left fun g hg ↦ ?_
  have hfree : Name.isFree (Member.compareField g).field := by
    rw [field_compareField]
    exact h.free hg
  rw [Function.comp_apply, Statement.subject_comparison hfree, field_compareField]

/-- Only the default constructor and, for a field held by value, `copy_to` assign to a field. -/
theorem exists_field_of_assigned? {field line : String} (h : u.Orderly type)
    (hl : line ∈ u.bodyTexts role) (ha : Statement.assigned? line = some field) :
    ∃ g ∈ u.fields, g.name = field ∧
      (role = .defaultConstructor ∧ line = g.constructed ∨ g.isOwned = false) := by
  have hplain : ∀ lines : List String, (∀ line ∈ lines, Statement.assigned? line = none) →
      line ∉ lines := by
    intro lines hnone hm
    simp [hnone line hm] at ha
  cases role with
  | defaultConstructor =>
    rw [h.constructor_eq] at hl
    obtain ⟨g, hg, rfl⟩ := List.mem_map.1 hl
    rw [ClassField.assigned?_constructed (h.readable g hg)] at ha
    cases ha
    exact ⟨g, hg, rfl, .inl ⟨rfl, rfl⟩⟩
  | copyTo =>
    rw [h.copyTo_eq] at hl
    obtain ⟨g, hg, rfl⟩ := List.mem_map.1 hl
    obtain ⟨howned, hname⟩ := ClassField.isOwned_of_assigned? (h.free hg) ha
    exact ⟨g, hg, hname, .inr howned⟩
  | destructor =>
    rw [h.destructor_eq] at hl
    refine absurd hl (hplain _ fun line hm ↦ ?_)
    obtain ⟨g, hg, rfl⟩ := List.mem_map.1 hm
    exact Statement.assigned?_release (h.free (List.mem_filter.1 hg).1)
  | equality =>
    rw [h.equality_eq] at hl
    refine absurd hl (hplain _ ?_)
    simpa using Statement.assigned?_returnEqual h.free_comparison
  | clone =>
    have hclone : u.bodyTexts .clone = [type ++ " clone;", "copy_to(clone);", "return clone;"] :=
      bodyTexts_eq h.members
    rw [hclone] at hl
    refine absurd hl (hplain _ ?_)
    simpa [Statement.assigned?_declareClone h.named] using by decide
  | copyConstructor =>
    have hbody : u.bodyTexts .copyConstructor = ["other.copy_to(*this);"] := bodyTexts_eq h.members
    exact absurd (hbody ▸ hl) (hplain _ (by decide))
  | inequality =>
    have hbody : u.bodyTexts .inequality = ["return !(*this == other);"] := bodyTexts_eq h.members
    exact absurd (hbody ▸ hl) (hplain _ (by decide))
  | assignment =>
    have hbody : u.bodyTexts .assignment = ["if (this == &other)", "\x7b", "return *this;", "\x7d",
        "other.copy_to(*this);", "return *this;"] := bodyTexts_eq h.members
    exact absurd (hbody ▸ hl) (hplain _ (by decide))

end Orderly

theorem count_eq_one {texts : List String} {text : String} (read : String → String)
    (h : (texts.map read).Nodup) (ht : text ∈ texts) : texts.count text = 1 :=
  List.count_eq_one_of_mem (List.Nodup.of_map read h) ht

/-- The class owns what the field points to: it is allocated, released, copied into and compared
once each, and the pointer is never taken from another object. -/
structure Owns (u : ClassUnit) (field entity : String) : Prop where
  declared : u.declarations.count (entity ++ " *" ++ field ++ ";") = 1
  constructed : (u.bodyTexts .defaultConstructor).count (field ++ " = new " ++ entity ++ "();") = 1
  released : (u.bodyTexts .destructor).count ("delete " ++ field ++ ";") = 1
  copied : (u.bodyTexts .copyTo).count (field ++ "->copy_to(*other." ++ field ++ ");") = 1
  compared : u.conjuncts.count ("*" ++ field ++ " == *other." ++ field) = 1
  assigned : ∀ role, ∀ line ∈ u.bodyTexts role, Statement.assigned? line = some field →
    role = .defaultConstructor ∧ line = field ++ " = new " ++ entity ++ "();"

/-- The field is a value of the object, and nothing is released for it. -/
structure HoldsValue (u : ClassUnit) (field type zero : String) : Prop where
  declared : u.declarations.count (type ++ " " ++ field ++ ";") = 1
  constructed : (u.bodyTexts .defaultConstructor).count (field ++ " = " ++ zero ++ ";") = 1
  released : ∀ line ∈ u.bodyTexts .destructor, Statement.subject line ≠ field
  copied : (u.bodyTexts .copyTo).count ("other." ++ field ++ " = " ++ field ++ ";") = 1
  compared : u.conjuncts.count (field ++ " == other." ++ field) = 1

namespace Orderly

theorem eq_of_name (h : u.Orderly type) {g' : ClassField} (hg : g ∈ u.fields) (hg' : g' ∈ u.fields)
    (hn : g.name = g'.name) : g = g' :=
  List.inj_on_of_nodup_map h.nodup hg hg' hn

theorem count_declaration (h : u.Orderly type) (hg : g ∈ u.fields) :
    u.declarations.count g.declaration = 1 :=
  count_eq_one declaredName (h.declaredNames_eq ▸ h.nodup) (List.mem_map_of_mem hg)

theorem count_constructed (h : u.Orderly type) (hg : g ∈ u.fields) :
    (u.bodyTexts .defaultConstructor).count g.constructed = 1 :=
  count_eq_one Statement.subject (h.subject_constructor ▸ h.nodup)
    (h.constructor_eq ▸ List.mem_map_of_mem hg)

theorem count_copied (h : u.Orderly type) (hg : g ∈ u.fields) :
    (u.bodyTexts .copyTo).count g.copied = 1 :=
  count_eq_one Statement.subject (h.subject_copyTo ▸ h.nodup)
    (h.copyTo_eq ▸ List.mem_map_of_mem hg)

theorem count_compared (h : u.Orderly type) (hg : g ∈ u.fields) :
    u.conjuncts.count (Member.compareField g).text = 1 := by
  have hne : u.fields ≠ [] := List.ne_nil_of_mem hg
  refine count_eq_one Statement.subject (h.subject_conjuncts hne ▸ h.nodup) ?_
  rw [h.conjuncts_eq hne]
  exact List.mem_map.2 ⟨g, hg, rfl⟩

theorem owns {name entity : String} (h : u.Orderly type) (hg : ⟨name, .owned entity⟩ ∈ u.fields) :
    u.Owns name entity where
  declared := (h.count_declaration hg :)
  constructed := (h.count_constructed hg :)
  released := by
    refine count_eq_one Statement.subject ?_ ?_
    · rw [h.subject_destructor]
      exact h.nodup.sublist (List.filter_sublist.map _)
    · rw [h.destructor_eq]
      exact List.mem_map.2 ⟨_, List.mem_filter.2 ⟨hg, rfl⟩, rfl⟩
  copied := (h.count_copied hg :)
  compared := (h.count_compared hg :)
  assigned role line hl ha := by
    obtain ⟨g, hmem, hname, hline⟩ := h.exists_field_of_assigned? hl ha
    obtain rfl := h.eq_of_name hmem hg hname
    rcases hline with ⟨rfl, rfl⟩ | howned
    · exact ⟨rfl, rfl⟩
    · cases howned

theorem holdsValue {name valueType zero : String} (h : u.Orderly type)
    (hg : ⟨name, .held valueType zero⟩ ∈ u.fields) : u.HoldsValue name valueType zero where
  declared := (h.count_declaration hg :)
  constructed := (h.count_constructed hg :)
  released line hl hs := by
    have hname : name ∈ (u.fields.filter (·.isOwned)).map (·.name) := by
      rw [← h.subject_destructor, ← hs]
      exact List.mem_map_of_mem hl
    obtain ⟨g, hmem, hn⟩ := List.mem_map.1 hname
    obtain ⟨hmem, howned⟩ := List.mem_filter.1 hmem
    obtain rfl := h.eq_of_name hmem hg hn
    cases howned
  copied := (h.count_copied hg :)
  compared := (h.count_compared hg :)

end Orderly

variable {s : Settings} {e : Entity}

theorem fieldNames_eq (h : (ofEntity s e).result = .ok u) :
    u.fields.map (·.name) = e.fields.map (·.name) :=
  (map_eq_map_of_forall₂ (keeps_of_ofEntity h) fun _ _ hfg ↦ hfg.1.symm).symm

theorem ownedNames_eq (h : (ofEntity s e).result = .ok u) :
    (u.fields.filter (·.isOwned)).map (·.name) = e.directReferences.map (·.1) := by
  have hkeeps := keeps_of_ofEntity h
  unfold Entity.directReferences
  generalize e.fields = fields, u.fields = classFields at hkeeps ⊢
  induction hkeeps with
  | nil => rfl
  | @cons f g fields classFields hfg _ ih =>
    obtain ⟨hname, hk⟩ := hfg
    obtain ⟨name, ty, order⟩ := f
    obtain ⟨_, storage⟩ := g
    subst hname
    cases hk with
    | owned => simpa [ClassField.isOwned, TypeExpr.direct?] using ih
    | held hne =>
      have hdirect : ty.direct? = none := by
        cases ty with
        | entity entity => exact absurd rfl (hne entity)
        | primitive | list => rfl
      simpa [ClassField.isOwned, hdirect] using ih

theorem orderly_of_plain (h : (ofEntity s e).result = .ok u) (hp : e.Plain) : u.Orderly e.name where
  named := hp.name
  members := (isOf_of_ofEntity h).members
  readable := readable_of_plain h hp
  nodup := by
    rw [fieldNames_eq h]
    exact hp.nodup.of_append_left

end ClassUnit

namespace Catalog

variable {c : Catalog} {s : Settings} {name : String} {u : ClassUnit}

/-- A field is owned if it is an entity and held by value if not, and never both. The declarations,
the bodies and the comparisons go through the fields in the order of their declaration, with one
line each, the destructor through those that are owned. -/
theorem ownership_balanced (hc : c.Built) (h : c.emit s name = .ok u) :
    ∃ e, c.resolve name = .ok e ∧
      (∀ f ∈ e.fields, (∀ entity, f.ty = .entity entity → u.Owns f.name entity) ∧
        ((∀ entity, f.ty ≠ .entity entity) → ∃ type zero, f.ty.spelling = .ok type ∧
          f.ty.zeroSpelling = .ok zero ∧ u.HoldsValue f.name type zero) ∧
        ∀ entity type zero, u.Owns f.name entity → ¬u.HoldsValue f.name type zero) ∧
      (e.fields.map (·.name)).Nodup ∧
      u.declarations.map ClassUnit.declaredName = e.fields.map (·.name) ∧
      (u.bodyTexts .defaultConstructor).map Statement.subject = e.fields.map (·.name) ∧
      (u.bodyTexts .destructor).map Statement.subject = e.directReferences.map (·.1) ∧
      (u.bodyTexts .copyTo).map Statement.subject = e.fields.map (·.name) ∧
      (u.bodyTexts .equality).length = 1 ∧ (e.fields = [] → u.conjuncts = ["true"]) ∧
      (e.fields ≠ [] → u.conjuncts.map Statement.subject = e.fields.map (·.name)) := by
  obtain ⟨e, hr, hu, hp⟩ := plain_of_emit hc h
  have ho := ClassUnit.orderly_of_plain hu hp
  have hnames := ClassUnit.fieldNames_eq hu
  have hempty : e.fields = [] ↔ u.fields = [] := by
    rw [← List.map_eq_nil_iff (f := Field.name), ← hnames, List.map_eq_nil_iff]
  refine ⟨e, hr, ?_, hnames ▸ ho.nodup, hnames ▸ ho.declaredNames_eq,
    hnames ▸ ho.subject_constructor, ?_, hnames ▸ ho.subject_copyTo, ?_, ?_, ?_⟩
  · intro f hf
    obtain ⟨g, hg, hname, hk⟩ := exists_of_forall₂ (ClassUnit.keeps_of_ofEntity hu) hf
    obtain ⟨_, storage⟩ := g
    subst hname
    refine ⟨?_, ?_, ?_⟩
    · intro entity hty
      rw [hty] at hk
      cases hk with
      | owned => exact ho.owns hg
      | held hne => exact absurd rfl (hne entity)
    · intro hne
      generalize f.ty = ty at hk hne ⊢
      cases hk with
      | owned => exact absurd rfl (hne _)
      | held _ ht hz => exact ⟨_, _, ht, hz, ho.holdsValue hg⟩
    · intro entity type zero howns hholds
      have hline : "delete " ++ f.name ++ ";" ∈ u.bodyTexts .destructor :=
        List.count_pos_iff.1 (by rw [howns.released]; exact Nat.one_pos)
      exact hholds.released _ hline (Statement.subject_release (hp.fields f hf))
  · rw [ho.subject_destructor, ClassUnit.ownedNames_eq hu]
  · rw [ho.equality_eq, List.length_singleton]
  · exact fun hnil ↦ ho.conjuncts_eq_true (hempty.1 hnil)
  · exact fun hne ↦ hnames ▸ ho.subject_conjuncts (mt hempty.2 hne)

def rooms : Catalog where
  entities :=
    [⟨"Door", [], []⟩,
      ⟨"Room", [⟨"label", .primitive .string, 0⟩, ⟨"door", .entity "Door", 1⟩,
        ⟨"hatches", .list (.entity "Door"), 2⟩], []⟩]

theorem rooms_built : rooms.Built := by
  have hdoor : Entity.define "Door" [] = .ok rooms.entities[0] := rfl
  have hroom : Entity.define "Room" [("label", .primitive .string), ("door", .entity "Door"),
      ("hatches", .list (.entity "Door"))] = .ok rooms.entities[1] := rfl
  exact .declare (.declare .empty (.define hdoor) rfl) (.define hroom) rfl

theorem room_ownership_balanced : ∃ u, rooms.emit {} "Room" = .ok u ∧ u.Owns "door" "Door" ∧
    u.HoldsValue "hatches" "std::vector<Door>" "std::vector<Door>()" ∧
    (u.bodyTexts .destructor).map Statement.subject = ["door"] ∧
    u.conjuncts.map Statement.subject = ["label", "door", "hatches"] := by
  obtain ⟨u, hu⟩ : ∃ u, rooms.emit {} "Room" = .ok u := exists_eq_ok (by decide +kernel)
  have hroom : rooms.resolve "Room" = .ok rooms.entities[1] := by decide +kernel
  obtain ⟨e, hr, hfields, -, -, -, hdestructor, -, -, -, hconjuncts⟩ :=
    ownership_balanced rooms_built hu
  cases hroom.symm.trans hr
  obtain ⟨hdoor, -⟩ := hfields ⟨"door", .entity "Door", 1⟩ (by decide)
  obtain ⟨-, hhatches, -⟩ := hfields ⟨"hatches", .list (.entity "Door"), 2⟩ (by decide)
  obtain ⟨type, zero, ht, hz, hholds⟩ := hhatches nofun
  cases ht
  cases hz
  exact ⟨u, hu, hdoor "Door" rfl, hholds, hdestructor, hconjuncts (by decide)⟩

end Catalog

end ValueContract
