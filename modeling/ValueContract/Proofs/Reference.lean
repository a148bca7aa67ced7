import Mathlib.Data.List.Induction
import Mathlib.Data.List.Nodup
import Mathlib.Logic.Relation
import ValueContract.Catalog.Resolve

namespace ValueContract

/-- Where some results split, the items that they come from do. -/
theorem exists_split_of_filterMap {α β : Type} {f : α → Option β} {items : List α}
    {before after : List β} {b : β} (h : items.filterMap f = before ++ b :: after) :
    ∃ front a back, items = front ++ a :: back ∧ f a = some b ∧
      ∀ x ∈ front, ∀ y, f x = some y → y ∈ before := by
  obtain ⟨early, late, rfl, rfl, hlate⟩ := List.filterMap_eq_append_iff.1 h
  obtain ⟨plain, a, back, rfl, hplain, ha, -⟩ := List.filterMap_eq_cons_iff.1 hlate
  refine ⟨early ++ plain, a, back, by rw [List.append_assoc], ha, ?_⟩
  intro x hx y hy
  rcases List.mem_append.1 hx with hx | hx
  · exact List.mem_filterMap.2 ⟨x, hx, hy⟩
  · simp [hplain x hx] at hy

theorem TypeExpr.referenced?_eq_some_iff {ty : TypeExpr} {name : String} :
    ty.referenced? = some name ↔ ty.element = .entity name := by
  unfold referenced?
  split <;> simp_all

theorem TypeExpr.direct?_eq_some_iff {ty : TypeExpr} {name : String} :
    ty.direct? = some name ↔ ty = .entity name := by
  cases ty <;> simp [direct?]

namespace Entity

variable {e : Entity} {other : String}

/-- A signature of the entity names another, at any list depth. -/
inductive SignatureNames (e : Entity) (other : String) : Prop
  | returned {m : Method} (hm : m ∈ e.methods) (ht : m.returns.element = .entity other)
  | parameter {m : Method} {p : Parameter} (hm : m ∈ e.methods) (hp : p ∈ m.parameters)
      (ht : p.ty.element = .entity other)

theorem exists_mem_references_iff : (∃ field, (field, other) ∈ e.references) ↔
    ∃ f ∈ e.fields, f.ty.element = .entity other := by
  simp [references, TypeExpr.referenced?_eq_some_iff]

theorem mem_directTargets_iff :
    other ∈ e.directTargets ↔ ∃ f ∈ e.fields, f.ty = .entity other := by
  simp [directTargets, TypeExpr.direct?_eq_some_iff]

theorem signatureNames_iff : e.SignatureNames other ↔
    ∃ m ∈ e.methods, ∃ ty ∈ m.types, ty.element = .entity other := by
  simp only [Method.types, List.mem_cons, List.mem_map]
  constructor
  · intro h
    cases h with
    | @returned m hm ht => exact ⟨m, hm, m.returns, .inl rfl, ht⟩
    | @parameter m p hm hp ht => exact ⟨m, hm, p.ty, .inr ⟨p, hp, rfl⟩, ht⟩
  · rintro ⟨m, hm, ty, rfl | ⟨p, hp, rfl⟩, ht⟩
    · exact .returned hm ht
    · exact .parameter hm hp ht

theorem exists_mem_methodReferences_iff :
    (∃ method, (method, other) ∈ e.methodReferences) ↔ e.SignatureNames other := by
  simp [methodReferences, Method.references, signatureNames_iff, TypeExpr.referenced?_eq_some_iff]

end Entity

namespace Catalog

open Relation

inductive Reachable : Catalog → Prop
  | empty : Reachable .empty
  | declare {c d : Catalog} {e : Entity} {id : EntityId} :
      Reachable c → c.declare e = .ok (id, d) → Reachable d

variable {c : Catalog} {name other : String} {e : Entity}

theorem names_concat (entities : List Entity) (e : Entity) :
    names ⟨entities ++ [e]⟩ = names ⟨entities⟩ ++ [e.name] := by
  simp [names]

theorem reachable_iff_nodup : c.Reachable ↔ c.names.Nodup := by
  constructor
  · intro h
    induction h with
    | empty => exact List.nodup_nil
    | @declare c d e id _ hd ih =>
      unfold Catalog.declare at hd
      split at hd
      · cases hd
      · next hn =>
        cases hd
        rw [contains_iff] at hn
        rw [names_concat]
        exact List.nodup_append_comm.1 (List.nodup_cons.2 ⟨hn, ih⟩)
  · intro h
    obtain ⟨entities⟩ := c
    induction entities using List.reverseRecOn with
    | nil => exact .empty
    | append_singleton entities e ih =>
      rw [names_concat, List.nodup_append_comm, List.singleton_append, List.nodup_cons] at h
      have hd : Catalog.declare ⟨entities⟩ e = .ok (⟨entities.length⟩, ⟨entities ++ [e]⟩) := by
        simp [Catalog.declare, contains_iff, h.1]
      exact .declare (ih h.2) hd

theorem find?_of_mem (hc : c.names.Nodup) (he : e ∈ c.entities) : c.find? e.name = some e := by
  obtain ⟨e', hf⟩ := exists_find?_iff.2 (List.mem_map_of_mem he)
  rw [hf, List.inj_on_of_nodup_map hc (List.mem_of_find?_eq_some hf) he (name_of_find? hf)]

theorem find?_eq_of_perm {d : Catalog} (hc : c.names.Nodup) (h : d.entities.Perm c.entities) :
    d.find? name = c.find? name := by
  have hn : d.names.Perm c.names := h.map _
  cases hf : c.find? name with
  | none =>
    rw [find?_eq_none_iff] at hf ⊢
    exact fun hm ↦ hf (hn.mem_iff.1 hm)
  | some e =>
    have he := h.mem_iff.2 (List.mem_of_find?_eq_some hf)
    exact name_of_find? hf ▸ find?_of_mem (hn.nodup_iff.2 hc) he

/-- A field of the first entity names the second, at any list depth. -/
def Refers (c : Catalog) (name other : String) : Prop :=
  ∃ e, c.find? name = some e ∧ ∃ f ∈ e.fields, f.ty.element = .entity other

/-- A field of the first entity holds the second by value. -/
def Holds (c : Catalog) (name other : String) : Prop :=
  ∃ e, c.find? name = some e ∧ ∃ f ∈ e.fields, f.ty = .entity other

theorem refers_iff_references (h : c.find? name = some e) :
    c.Refers name other ↔ ∃ field, (field, other) ∈ e.references := by
  simp [Refers, h, Entity.exists_mem_references_iff]

theorem holds_iff_directTargets (h : c.find? name = some e) :
    c.Holds name other ↔ other ∈ e.directTargets := by
  simp [Holds, h, Entity.mem_directTargets_iff]

theorem Holds.refers (h : c.Holds name other) : c.Refers name other := by
  obtain ⟨e, hf, f, hfield, ht⟩ := h
  exact ⟨e, hf, f, hfield, by simp [ht, TypeExpr.element]⟩

theorem refers_of_reaches (h : ReflTransGen c.Holds name other) :
    ReflTransGen c.Refers name other :=
  ReflTransGen.mono (fun _ _ ↦ Holds.refers) _ _ h

def ClosureDeclared (c : Catalog) (name : String) : Prop :=
  ∀ other, ReflTransGen c.Refers name other → other ∈ c.names

def SignaturesDeclared (c : Catalog) (name : String) : Prop :=
  ∀ e, c.find? name = some e → ∀ other, e.SignatureNames other → other ∈ c.names

/-- A cycle of holding can be reached, so a value of the entity would never end. -/
def Endless (c : Catalog) (name : String) : Prop :=
  ∃ other, ReflTransGen c.Holds name other ∧ TransGen c.Holds other other

theorem Endless.of_cycle (h : TransGen c.Holds name name) : c.Endless name :=
  ⟨name, .refl, h⟩

theorem Endless.of_holds (h : c.Holds name other) (ho : c.Endless other) : c.Endless name := by
  obtain ⟨last, hr, hl⟩ := ho
  exact ⟨last, .head h hr, hl⟩

theorem Endless.exists_holds (h : c.Endless name) :
    ∃ other, c.Holds name other ∧ c.Endless other := by
  obtain ⟨last, hr, hl⟩ := h
  rcases hr.cases_head with rfl | ⟨other, ho, hr⟩
  · obtain ⟨other, ho, hr⟩ := TransGen.head'_iff.1 hl
    exact ⟨other, ho, name, hr, hl⟩
  · exact ⟨other, ho, last, hr, hl⟩

theorem not_endless_of_find?_eq_none (h : c.find? name = none) : ¬c.Endless name := by
  intro he
  obtain ⟨other, ⟨e, hf, _⟩, _⟩ := he.exists_holds
  simp [h] at hf

def NoneEndless (c : Catalog) (names : List String) : Prop :=
  ∀ name ∈ names, ¬c.Endless name

theorem noneEndless_nil (c : Catalog) : c.NoneEndless [] :=
  List.forall_mem_nil _

/-- The first endless entity that `name` holds, field after field. -/
def FirstEndless (c : Catalog) (name other : String) : Prop :=
  ∃ e before f after, c.find? name = some e ∧ e.fields = before ++ f :: after ∧
    (∀ g ∈ before, ∀ held, g.ty = .entity held → ¬c.Endless held) ∧
    f.ty = .entity other ∧ c.Endless other

theorem firstEndless_congr {d : Catalog} (h : ∀ name, d.find? name = c.find? name) :
    d.FirstEndless = c.FirstEndless := by
  have hholds : d.Holds = c.Holds := by
    funext name other
    rw [Holds, Holds, h]
  have hendless : d.Endless = c.Endless := by
    funext name
    rw [Endless, Endless, hholds]
  funext name other
  rw [FirstEndless, FirstEndless, h, hendless]

theorem FirstEndless.holds (h : c.FirstEndless name other) : c.Holds name other := by
  obtain ⟨e, before, f, after, hf, hfields, -, ht, -⟩ := h
  exact ⟨e, hf, f, by simp [hfields], ht⟩

theorem FirstEndless.endless (h : c.FirstEndless name other) : c.Endless name := by
  obtain ⟨e, before, f, after, -, -, -, -, ho⟩ := id h
  exact .of_holds h.holds ho

theorem rightUnique_firstEndless (c : Catalog) : Relator.RightUnique c.FirstEndless := by
  intro name other other' h h'
  obtain ⟨e, before, f, after, hf, hd, hb, ht, ho⟩ := h
  obtain ⟨e', before', f', after', hf', hd', hb', ht', ho'⟩ := h'
  cases hf.symm.trans hf'
  rw [hd] at hd'
  -- of two different splits the longer one would pass by an endless entity
  rcases List.append_eq_append_iff.1 hd' with ⟨gap, rfl, hg⟩ | ⟨gap, rfl, hg⟩
  · cases gap with
    | nil =>
      cases (List.cons.inj hg).1
      exact TypeExpr.entity.inj (ht.symm.trans ht')
    | cons x gap =>
      cases (List.cons.inj hg).1
      exact absurd ho (hb' f (by simp) other ht)
  · cases gap with
    | nil =>
      cases (List.cons.inj hg).1
      exact TypeExpr.entity.inj (ht.symm.trans ht')
    | cons x gap =>
      cases (List.cons.inj hg).1
      exact absurd ho' (hb f' (by simp) other' ht')

theorem firstEndless_of_directTargets {before after : List String} (hf : c.find? name = some e)
    (hd : e.directTargets = before ++ other :: after) (hb : c.NoneEndless before)
    (ho : c.Endless other) : c.FirstEndless name other := by
  obtain ⟨front, f, back, hfields, ht, hfront⟩ := exists_split_of_filterMap hd
  refine ⟨e, front, f, back, hf, hfields, ?_, TypeExpr.direct?_eq_some_iff.1 ht, ho⟩
  intro g hg held hheld
  exact hb held (hfront g hg held (TypeExpr.direct?_eq_some_iff.2 hheld))

end Catalog

end ValueContract
