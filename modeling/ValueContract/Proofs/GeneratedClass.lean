import ValueContract.Proofs.ClassExecution
import ValueContract.Proofs.EmittedNames

namespace ValueContract

variable {c : Catalog} {s : Settings} {e : Entity} {u : ClassUnit} {f : Field} {g : ClassField}
  {ty : TypeExpr} {name other text : String}

namespace TypeExpr

theorem not_mem_spelling (h : ∀ other, ty.referenced? = some other → Name.isFree other)
    (hs : ty.spelling = .ok text) : ' ' ∉ text.toList := by
  intro hm
  have hchar : isTypeChar ' ' := isTypeChar_of_mem_spelling h hs hm
  cases hchar

theorem not_mem_zeroSpelling (h : ∀ other, ty.referenced? = some other → Name.isFree other)
    (hs : ty.zeroSpelling = .ok text) : ' ' ∉ text.toList := by
  cases ty with
  | primitive kind =>
    cases kind <;> cases hs <;> decide
  | entity name | list inner =>
    rw [zeroSpelling, bind_eq_ok_iff] at hs
    obtain ⟨text, ht, hs⟩ := hs
    cases hs
    simpa using not_mem_spelling h ht
    nofun

end TypeExpr

namespace ClassUnit

inductive Keeps : TypeExpr → Storage → Prop
  | owned {entity : String} : Keeps (.entity entity) (.owned entity)
  | held {ty : TypeExpr} {type zero : String} (hne : ∀ entity, ty ≠ .entity entity)
      (ht : ty.spelling = .ok type) (hz : ty.zeroSpelling = .ok zero) : Keeps ty (.held type zero)

theorem keeps_of_storageOf {storage : Storage} (h : storageOf ty = .ok storage) :
    Keeps ty storage := by
  unfold storageOf at h
  split at h
  · cases h
    exact .owned
  · next hne =>
    simp only [bind_eq_ok_iff] at h
    obtain ⟨type, ht, zero, hz, h⟩ := h
    cases h
    exact .held hne ht hz

theorem Keeps.readable {storage : Storage} (h : Keeps ty storage) (hn : Name.isFree name)
    (hr : ∀ other, ty.referenced? = some other → Name.isFree other) :
    (Member.initialise ⟨name, storage⟩).Readable := by
  cases h with
  | owned => exact ⟨hn, hr _ rfl⟩
  | held _ _ hz => exact ⟨hn, TypeExpr.not_mem_zeroSpelling hr hz⟩

theorem keeps_of_ofEntity (h : (ofEntity s e).result = .ok u) :
    List.Forall₂ (fun f g ↦ g.name = f.name ∧ Keeps f.ty g.storage) e.fields u.fields :=
  (isOf_of_ofEntity h).fields.imp fun _ _ hfg ↦ ⟨hfg.1, keeps_of_storageOf hfg.2⟩

theorem readable_of_plain (h : (ofEntity s e).result = .ok u) (hp : e.Plain) :
    ∀ g ∈ u.fields, (Member.initialise g).Readable := by
  intro g hg
  obtain ⟨f, hf, hname, hk⟩ := exists_of_forall₂_right (keeps_of_ofEntity h) hg
  have hty : f.ty ∈ e.types := List.mem_append_left _ (List.mem_map_of_mem hf)
  exact hk.readable (hname ▸ hp.fields f hf) (hp.types f.ty hty)

theorem isFree_of_readable (h : (Member.initialise g).Readable) : Name.isFree g.name := by
  obtain ⟨name, storage⟩ := g
  cases storage <;> exact h.1

theorem readable_copyField (h : Name.isFree g.name) : (Member.copyField g).Readable := by
  unfold Member.copyField
  split <;> exact h

theorem field_compareField (g : ClassField) : (Member.compareField g).field = g.name := by
  unfold Member.compareField
  split <;> rfl

theorem member?_eq (hm : u.members = MemberRole.all.map (Member.contract name u.fields))
    (role : MemberRole) : u.member? role = some (Member.contract name u.fields role) := by
  rw [member?, hm]
  cases role <;> rfl

theorem body?_eq (hm : u.members = MemberRole.all.map (Member.contract name u.fields))
    {role : MemberRole} {body : List Statement}
    (hb : (Member.contract name u.fields role).body = body) (h : ∀ st ∈ body, st.Readable) :
    u.body? role = some body := by
  rw [body?, member?_eq hm, Option.bind_eq_bind, Option.bind_some, Member.bodyLines_eq, hb,
    mapM_read?_eq h]

end ClassUnit

namespace Catalog

open Relation

def classes (c : Catalog) (s : Settings) : Program :=
  fun name ↦ (c.emit s name).toOption

/-- The entity and all that it refers to, directly or not, are emitted. -/
def EmitsAll (c : Catalog) (s : Settings) (name : String) : Prop :=
  ∀ other, ReflTransGen c.Refers name other → ∃ u, c.emit s other = .ok u

/-- The class of an entity together with what its bodies are read as. -/
structure Generated (c : Catalog) (s : Settings) (e : Entity) (u : ClassUnit) : Prop where
  resolved : c.resolve e.name = .ok e
  unit : c.classes s e.name = some u
  nodup : (e.fields.map (·.name)).Nodup
  fields : List.Forall₂ (fun f g ↦ g.name = f.name ∧ ClassUnit.Keeps f.ty g.storage)
    e.fields u.fields
  constructs : u.body? .defaultConstructor = some (u.fields.map Member.initialise)
  copies : u.body? .copyTo = some (u.fields.map Member.copyField)
  compares : u.body? .equality = some [.returnEqual (u.fields.map Member.compareField)]
  member : ∃ m, u.member? .copyConstructor = some m ∧ m.delegates
  clones : u.body? .copyConstructor = some [.copyFromOther]

theorem Generated.found (hg : c.Generated s e u) : c.find? e.name = some e :=
  find?_of_resolve hg.resolved

theorem EmitsAll.of_refers (h : c.EmitsAll s name) (hr : c.Refers name other) :
    c.EmitsAll s other :=
  fun further hf ↦ h further (.head hr hf)

/-- A catalogue without failures emits whatever is referred to. -/
theorem emitsAll_of_names (h : ∀ other ∈ c.names, (c.emit s other).isOk) (hn : name ∈ c.names) :
    c.EmitsAll s name := by
  obtain ⟨u, hu⟩ := exists_eq_ok (h name hn)
  obtain ⟨e, hr, -⟩ := emit_eq_ok hu
  obtain ⟨-, hclosed, -⟩ := exists_resolve_eq_ok_iff.1 ⟨e, hr⟩
  exact fun other ho ↦ exists_eq_ok (h other (hclosed other ho))

theorem EmitsAll.exists_generated (hc : c.Built) (h : c.EmitsAll s name) :
    ∃ e u, e.name = name ∧ c.Generated s e u := by
  obtain ⟨u, hu⟩ := h name .refl
  obtain ⟨e, hr, hentity, hplain⟩ := plain_of_emit hc hu
  have hof := ClassUnit.isOf_of_ofEntity hentity
  have hf := find?_of_resolve hr
  obtain rfl := name_of_find? hf
  have hnamed := (hc.defined_of_find? hf).namedFields
  have hread := ClassUnit.readable_of_plain hentity hplain
  have hname : ∀ g ∈ u.fields, Name.isFree g.name := fun g hg ↦
    ClassUnit.isFree_of_readable (hread g hg)
  refine ⟨e, u, rfl, ⟨hr, ?_, hnamed.2, ClassUnit.keeps_of_ofEntity hentity, ?_, ?_, ?_, ?_, ?_⟩⟩
  · simp [classes, hu, Except.toOption]
  · exact ClassUnit.body?_eq hof.members rfl (by simpa using hread)
  · refine ClassUnit.body?_eq hof.members rfl ?_
    simpa using fun g hg ↦ ClassUnit.readable_copyField (hname g hg)
  · refine ClassUnit.body?_eq hof.members rfl ?_
    simpa [Statement.Readable, ClassUnit.field_compareField] using hname
  · exact ⟨_, ClassUnit.member?_eq hof.members .copyConstructor, rfl⟩
  · exact ClassUnit.body?_eq hof.members rfl (by simp [Statement.Readable])

end Catalog

end ValueContract
