import ValueContract.Proofs.Emission
import ValueContract.Value.Zero

namespace ValueContract

theorem Value.zero?_eq_none_iff {ty : TypeExpr} :
    Value.zero? ty = none ↔ (∃ name, ty = .entity name) ∨ ty.primitive? = some .void := by
  cases ty with
  | primitive kind =>
    cases kind <;> simp [zero?, Primitive.category, TypeExpr.primitive?, TypeExpr.element]
  | entity name => simp [zero?]
  | list inner => simp [zero?]

namespace Catalog

open Relation

variable {c : Catalog} {name other owner target : String} {trail : List String}
  {fields : List Field} {slots : List (Slot Value)} {f : Field} {e : Entity}

def zeroValue (c : Catalog) (owner : String) (trail : List String) (f : Field) :
    Except ValueError Value :=
  match f.ty with
  | .entity target =>
    if target ∈ trail then .error (.schema (.compositionCycle owner (cycleAt trail target)))
    else
      match c.find? target with
      | none => .error (.schema (.unresolvedType owner f.name target))
      | some e =>
        (fun slots ↦ .entity ⟨e.name, slots⟩) <$> c.zeroSlots e.name (target :: trail) e.fields
  | ty =>
    match Value.zero? ty with
    | some zero => .ok zero
    | none => .error (.unsupportedPrimitive owner f.name (ty.primitive?.getD .void))

theorem zeroSlots_cons : c.zeroSlots owner trail (f :: fields) =
    c.zeroValue owner trail f >>= fun value ↦
      (⟨f.name, f.ty, value⟩ :: ·) <$> c.zeroSlots owner trail fields := by
  rw [zeroSlots]
  congr 1
  obtain ⟨name, ty, order⟩ := f
  cases ty with
  | primitive kind | list inner => rfl
  | entity target =>
    simp only [zeroValue]
    split
    · rfl
    · split <;> next h => rw [h]

inductive ZeroValue (c : Catalog) (owner : String) (trail : List String) (f : Field) :
    Except ValueError Value → Prop
  | plain {zero : Value} (hz : Value.zero? f.ty = some zero) : ZeroValue c owner trail f (.ok zero)
  | void (hv : f.ty.primitive? = some .void) :
      ZeroValue c owner trail f (.error (.unsupportedPrimitive owner f.name .void))
  | cycle {target : String} (ht : f.ty = .entity target) (hm : target ∈ trail) :
      ZeroValue c owner trail f
        (.error (.schema (.compositionCycle owner (cycleAt trail target))))
  | dangling {target : String} (ht : f.ty = .entity target) (hf : c.find? target = none) :
      ZeroValue c owner trail f (.error (.schema (.unresolvedType owner f.name target)))
  | entity {target : String} {e : Entity} (ht : f.ty = .entity target) (hm : target ∉ trail)
      (hf : c.find? target = some e) : ZeroValue c owner trail f
        ((fun slots ↦ .entity ⟨target, slots⟩) <$> c.zeroSlots target (target :: trail) e.fields)

theorem zeroValue_cases (c : Catalog) (owner : String) (trail : List String) (f : Field) :
    c.ZeroValue owner trail f (c.zeroValue owner trail f) := by
  unfold zeroValue
  split
  · next target ht =>
    split
    · next hm => exact .cycle ht hm
    · next hm =>
      split
      · next hf => exact .dangling ht hf
      · next e hf =>
        rw [name_of_find? hf]
        exact .entity ht hm hf
  · next hne =>
    split
    · next zero hz => exact .plain hz
    · next hz =>
      rcases Value.zero?_eq_none_iff.1 hz with ⟨target, ht⟩ | hv
      · exact absurd ht (hne target)
      · rw [hv]
        exact .void hv

/-- The slots are those of the fields in their order, each at the zero of its type and each entity
built the same way. -/
inductive Zeroed (c : Catalog) : List Field → List (Slot Value) → Prop
  | nil : Zeroed c [] []
  | plain {f : Field} {fields : List Field} {slots : List (Slot Value)} {zero : Value}
      (hz : Value.zero? f.ty = some zero) (h : Zeroed c fields slots) :
      Zeroed c (f :: fields) (⟨f.name, f.ty, zero⟩ :: slots)
  | entity {f : Field} {fields : List Field} {slots inner : List (Slot Value)} {target : String}
      {e : Entity} (ht : f.ty = .entity target) (hf : c.find? target = some e)
      (hi : Zeroed c e.fields inner) (h : Zeroed c fields slots) :
      Zeroed c (f :: fields) (⟨f.name, f.ty, .entity ⟨target, inner⟩⟩ :: slots)

theorem zeroed_of_zeroSlots (h : c.zeroSlots owner trail fields = .ok slots) :
    c.Zeroed fields slots := by
  induction owner, trail, fields using zeroSlots.induct c generalizing slots with
  | case1 =>
    rw [zeroSlots] at h
    cases h
    exact .nil
  | case2 owner trail f fields ihe ihf =>
    rw [zeroSlots_cons, bind_eq_ok_iff] at h
    obtain ⟨value, hv, h⟩ := h
    obtain ⟨rest, hr, rfl⟩ := map_eq_ok_iff.1 h
    have hcases := c.zeroValue_cases owner trail f
    generalize c.zeroValue owner trail f = outcome at hv hcases
    cases hcases with
    | plain hz =>
      cases hv
      exact .plain hz (ihf hr)
    | entity ht hm hf =>
      obtain ⟨inner, hi, rfl⟩ := map_eq_ok_iff.1 hv
      obtain rfl := name_of_find? hf
      exact .entity ht hf (ihe _ hm _ hf hi) (ihf hr)
    | void | cycle | dangling => cases hv

def HasVoid (c : Catalog) (name field : String) : Prop :=
  ∃ e, c.find? name = some e ∧ ∃ f ∈ e.fields, f.name = field ∧ f.ty.primitive? = some .void

def Storable (c : Catalog) (name : String) : Prop :=
  ∀ field, ¬c.HasVoid name field

theorem storable_of_fields (hf : c.find? name = some e)
    (h : ∀ f ∈ e.fields, f.ty.primitive? ≠ some .void ∧
      ∀ target, f.ty = .entity target → ∀ other, ReflTransGen c.Holds target other →
        c.Storable other) (hr : ReflTransGen c.Holds name other) : c.Storable other := by
  rcases hr.cases_head with rfl | ⟨next, hn, hr⟩
  · rintro field ⟨e', hf', f, hfield, -, hv⟩
    cases hf.symm.trans hf'
    exact (h f hfield).1 hv
  · obtain ⟨e', hf', f, hfield, ht⟩ := hn
    cases hf.symm.trans hf'
    exact (h f hfield).2 next ht other hr

theorem Zeroed.storable (h : c.Zeroed fields slots) : ∀ f ∈ fields,
    f.ty.primitive? ≠ some .void ∧
      ∀ target, f.ty = .entity target → ∀ other, ReflTransGen c.Holds target other →
        c.Storable other := by
  induction h with
  | nil => simp
  | @plain f fields slots zero hz _ ih =>
    refine List.forall_mem_cons.2 ⟨⟨?_, ?_⟩, ih⟩
    · intro hv
      simp [Value.zero?_eq_none_iff.2 (.inr hv)] at hz
    · intro target ht
      simp [ht, Value.zero?] at hz
  | @entity f fields slots inner target e ht hf _ _ ihi ih =>
    refine List.forall_mem_cons.2 ⟨⟨by simp [ht], ?_⟩, ih⟩
    intro target' ht' other ho
    cases ht.symm.trans ht'
    exact storable_of_fields hf ihi ho

/-- The fault is a field without a value, of `name` or of an entity that it leads to. -/
def VoidFault (c : Catalog) (name : String) (fault : ValueError) : Prop :=
  ∃ owner field, fault = .unsupportedPrimitive owner field .void ∧
    ReflTransGen c.Holds name owner ∧ c.HasVoid owner field

theorem VoidFault.of_holds {fault : ValueError} (hh : c.Holds name other)
    (h : c.VoidFault other fault) : c.VoidFault name fault := by
  obtain ⟨owner, field, rfl, hr, hv⟩ := h
  exact ⟨owner, field, rfl, .head hh hr, hv⟩

/-- The entities on the trail are under construction for the sake of `owner`, and what it leads to
is declared and comes to an end. -/
structure Underway (c : Catalog) (owner : String) (trail : List String) : Prop where
  trail : ∀ t ∈ trail, ReflTransGen c.Holds t owner
  declared : ∀ other, ReflTransGen c.Holds owner other → other ∈ c.names
  finite : ¬c.Endless owner

namespace Underway

theorem start (h : c.resolve name = .ok e) : c.Underway name [name] := by
  obtain ⟨-, hc, -, he⟩ := exists_resolve_eq_ok_iff.1 ⟨e, h⟩
  refine ⟨?_, fun other ho ↦ hc other (refers_of_reaches ho), he⟩
  intro t ht
  cases List.mem_singleton.1 ht
  exact .refl

theorem not_mem (h : c.Underway owner trail) (hh : c.Holds owner target) : target ∉ trail := by
  intro hm
  exact h.finite (.of_cycle (.head' hh (h.trail target hm)))

theorem exists_find? (h : c.Underway owner trail) (hh : c.Holds owner target) :
    ∃ e, c.find? target = some e :=
  exists_find?_iff.2 (h.declared target (.single hh))

theorem enter (h : c.Underway owner trail) (hh : c.Holds owner target) :
    c.Underway target (target :: trail) := by
  refine ⟨?_, fun other ho ↦ h.declared other (.head hh ho), fun he ↦ h.finite (.of_holds hh he)⟩
  intro t ht
  rcases List.mem_cons.1 ht with rfl | ht
  · exact .refl
  · exact (h.trail t ht).tail hh

/-- Construction meets fields that hold no entity, and entities that are declared and not under
construction. -/
theorem induction {motive : String → List String → List Field → Prop}
    (nil : ∀ owner trail, motive owner trail [])
    (plain : ∀ owner trail f fields e, c.find? owner = some e → f ∈ e.fields →
      (∀ target, f.ty ≠ .entity target) → motive owner trail fields →
      motive owner trail (f :: fields))
    (entity : ∀ owner trail f fields target e, c.Holds owner target → f.ty = .entity target →
      target ∉ trail → c.find? target = some e → motive target (target :: trail) e.fields →
      motive owner trail fields → motive owner trail (f :: fields))
    (h : c.Underway owner trail) (hf : c.find? owner = some e) (hs : fields ⊆ e.fields) :
    motive owner trail fields := by
  induction owner, trail, fields using zeroSlots.induct c generalizing e with
  | case1 owner trail => exact nil owner trail
  | case2 owner trail f fields ihe ihf =>
    obtain ⟨hfield, hs⟩ := List.cons_subset.1 hs
    have hrest := ihf h hf hs
    by_cases hty : ∃ target, f.ty = .entity target
    · obtain ⟨target, hty⟩ := hty
      have hh : c.Holds owner target := ⟨_, hf, f, hfield, hty⟩
      obtain ⟨e', hf'⟩ := h.exists_find? hh
      have hm := h.not_mem hh
      obtain rfl := name_of_find? hf'
      exact entity owner trail f fields _ e' hh hty hm hf'
        (ihe _ hm e' hf' (h.enter hh) hf' (fun _ ↦ id)) hrest
    · exact plain owner trail f fields e hf hfield (not_exists.1 hty) hrest

end Underway

theorem zeroValue_entity (ht : f.ty = .entity target) (hm : target ∉ trail)
    (hf : c.find? target = some e) : c.zeroValue owner trail f =
      (fun slots ↦ .entity ⟨target, slots⟩) <$>
        c.zeroSlots target (target :: trail) e.fields := by
  rw [zeroValue, ht]
  simp only [hm, ↓reduceIte, hf, name_of_find? hf]

theorem voidFault_of_zeroSlots {fault : ValueError} (h : c.Underway owner trail)
    (hf : c.find? owner = some e) (hs : fields ⊆ e.fields)
    (herror : c.zeroSlots owner trail fields = .error fault) : c.VoidFault owner fault := by
  revert herror
  refine h.induction (motive := fun owner trail fields ↦
    c.zeroSlots owner trail fields = .error fault → c.VoidFault owner fault) ?_ ?_ ?_ hf hs
  · intro owner trail herror
    rw [zeroSlots] at herror
    cases herror
  · intro owner trail f fields e hf hfield ht ih herror
    rw [zeroSlots_cons, bind_eq_error_iff] at herror
    rcases herror with herror | ⟨value, -, herror⟩
    · have hcases := c.zeroValue_cases owner trail f
      generalize c.zeroValue owner trail f = outcome at herror hcases
      cases hcases with
      | plain => cases herror
      | void hv =>
        cases herror
        exact ⟨owner, f.name, rfl, .refl, e, hf, f, hfield, rfl, hv⟩
      | cycle hty | dangling hty | entity hty => exact absurd hty (ht _)
    · exact ih (map_eq_error_iff.1 herror)
  · intro owner trail f fields target e hh ht hm hf ihe ih herror
    rw [zeroSlots_cons, zeroValue_entity ht hm hf, bind_eq_error_iff] at herror
    rcases herror with herror | ⟨value, -, herror⟩
    · exact .of_holds hh (ihe (map_eq_error_iff.1 herror))
    · exact ih (map_eq_error_iff.1 herror)

theorem zeroInstance_of_resolve (h : c.resolve name = .ok e) : c.zeroInstance name =
    (fun slots ↦ ⟨name, slots⟩) <$> c.zeroSlots name [name] e.fields := by
  rw [zeroInstance, h]
  simp only [name_of_find? (find?_of_resolve h)]
  rfl

theorem voidFault_of_zeroInstance {fault : ValueError} (h : c.resolve name = .ok e)
    (hz : c.zeroInstance name = .error fault) : c.VoidFault name fault := by
  rw [zeroInstance_of_resolve h, map_eq_error_iff] at hz
  exact voidFault_of_zeroSlots (.start h) (find?_of_resolve h) (fun _ ↦ id) hz

theorem zeroed_of_zeroInstance {i : Instance} (h : c.zeroInstance name = .ok i) :
    ∃ e, c.find? name = some e ∧ i.entity = name ∧ c.Zeroed e.fields i.slots := by
  cases hr : c.resolve name with
  | error fault => simp [zeroInstance, hr] at h
  | ok e =>
    rw [zeroInstance_of_resolve hr, map_eq_ok_iff] at h
    obtain ⟨slots, hs, rfl⟩ := h
    exact ⟨e, find?_of_resolve hr, rfl, zeroed_of_zeroSlots hs⟩

theorem exists_zeroInstance_iff (h : c.resolve name = .ok e) :
    (∃ i, c.zeroInstance name = .ok i) ↔
      ∀ other, ReflTransGen c.Holds name other → c.Storable other := by
  constructor
  · rintro ⟨i, hi⟩ other hr
    obtain ⟨e, hf, -, hz⟩ := zeroed_of_zeroInstance hi
    exact storable_of_fields hf hz.storable hr
  · intro hs
    cases hz : c.zeroInstance name with
    | ok i => exact ⟨i, rfl⟩
    | error fault =>
      obtain ⟨owner, field, -, hr, hv⟩ := voidFault_of_zeroInstance h hz
      exact absurd hv (hs owner hr field)

variable {s : Settings} {u : ClassUnit}

theorem storable_of_emit (h : c.emit s name = .ok u) : c.Storable name := by
  obtain ⟨e, hr, hu⟩ := emit_eq_ok h
  rintro field ⟨e', hf, f, hfield, -, hv⟩
  cases (find?_of_resolve hr).symm.trans hf
  exact hu.primitive?_ne_void hfield hv

/-- An emitted entity has a zero instance if and only if the entities that it holds, and those
that these hold, have no field of type `void`. Construction never fails in any other way. -/
theorem zeroInstance_of_emit (h : c.emit s name = .ok u) :
    ((∃ i, c.zeroInstance name = .ok i) ↔
      ∀ other, TransGen c.Holds name other → c.Storable other) ∧
    ∀ fault, c.zeroInstance name = .error fault → ∃ owner field,
      fault = .unsupportedPrimitive owner field .void ∧ TransGen c.Holds name owner ∧
        c.HasVoid owner field := by
  obtain ⟨e, hr, -⟩ := emit_eq_ok h
  have hown := storable_of_emit h
  constructor
  · rw [exists_zeroInstance_iff hr]
    constructor
    · exact fun hs other ho ↦ hs other ho.to_reflTransGen
    · intro hs other ho
      rcases reflTransGen_iff_eq_or_transGen.1 ho with rfl | ho
      · exact hown
      · exact hs other ho
  · intro fault hz
    obtain ⟨owner, field, rfl, ho, hv⟩ := voidFault_of_zeroInstance hr hz
    rcases reflTransGen_iff_eq_or_transGen.1 ho with rfl | ho
    · exact absurd hv (hown field)
    · exact ⟨owner, field, rfl, ho, hv⟩

/-- The field that has no value is one level below the entity that is emitted. -/
def hollow : Catalog where
  entities :=
    [⟨"Box", [⟨"inner", .entity "Hole", 0⟩], []⟩,
      ⟨"Hole", [⟨"nothing", .primitive .void, 0⟩], []⟩]

theorem exists_emit_hollow : ∃ u, hollow.emit {} "Box" = .ok u :=
  exists_eq_ok (by decide +kernel)

theorem not_exists_zeroInstance_hollow : ¬∃ i, hollow.zeroInstance "Box" = .ok i := by
  have hr : hollow.resolve "Box" = .ok ⟨"Box", [⟨"inner", .entity "Hole", 0⟩], []⟩ := by
    decide +kernel
  rw [exists_zeroInstance_iff hr]
  intro hs
  have hh : hollow.Holds "Box" "Hole" := ⟨_, rfl, by decide⟩
  exact hs "Hole" (.single hh) "nothing" ⟨_, rfl, _, List.mem_cons_self, rfl, rfl⟩

theorem emitted_without_zeroInstance : hollow.Reachable ∧
    (∃ u, hollow.emit {} "Box" = .ok u) ∧ ¬∃ i, hollow.zeroInstance "Box" = .ok i :=
  ⟨reachable_iff_nodup.2 (by decide), exists_emit_hollow, not_exists_zeroInstance_hollow⟩

theorem hollow_fault_below : ∃ owner field,
    hollow.zeroInstance "Box" = .error (.unsupportedPrimitive owner field .void) ∧
      TransGen hollow.Holds "Box" owner ∧ hollow.HasVoid owner field := by
  obtain ⟨u, hu⟩ := exists_emit_hollow
  cases hz : hollow.zeroInstance "Box" with
  | ok i => exact absurd ⟨i, hz⟩ not_exists_zeroInstance_hollow
  | error fault =>
    obtain ⟨owner, field, rfl, ho, hv⟩ := (zeroInstance_of_emit hu).2 fault hz
    exact ⟨owner, field, rfl, ho, hv⟩

end Catalog

end ValueContract
