import ValueContract.Catalog.Indexed
import ValueContract.Proofs.Reference

namespace ValueContract

theorem Catalog.byId?_concat_iff {entities : List Entity} {e other : Entity} {id : EntityId} :
    byId? ⟨entities ++ [e]⟩ id = some other ↔
      byId? ⟨entities⟩ id = some other ∨ id = ⟨entities.length⟩ ∧ e = other := by
  obtain ⟨i⟩ := id
  simp only [byId?, EntityId.mk.injEq]
  rcases Nat.lt_trichotomy i entities.length with hi | hi | hi
  · rw [List.getElem?_append_left hi]
    simp [Nat.ne_of_lt hi]
  · subst hi
    simp
  · have hlen : (entities ++ [e]).length ≤ i := by
      rw [List.length_append, List.length_singleton]
      omega
    rw [List.getElem?_eq_none hlen, List.getElem?_eq_none (by omega)]
    simp [Nat.ne_of_gt hi]

namespace IndexedCatalog

variable {c : IndexedCatalog} {name : String} {e other : Entity} {id : EntityId}

def InStep (c : IndexedCatalog) : Prop :=
  ∀ name id, c.idOf? name = some id ↔ ∃ e, c.byId? id = some e ∧ e.name = name

theorem inStep_empty : InStep {} := by
  intro name id
  simp [idOf?, Catalog.byId?]

theorem declare_of_contains (h : c.contains e.name) :
    c.declare e = (.error (.duplicateEntity e.name), c) :=
  if_pos h

theorem declare_of_not_contains (h : ¬c.contains e.name) :
    c.declare e = (.ok ⟨c.entities.length⟩,
      ⟨⟨c.entities ++ [e]⟩, (e.name, ⟨c.entities.length⟩) :: c.index⟩) :=
  if_neg h

theorem byId?_declare (h : c.byId? id = some other) : (c.declare e).2.byId? id = some other := by
  by_cases hc : c.contains e.name
  · rwa [declare_of_contains hc]
  · rw [declare_of_not_contains hc]
    exact Catalog.byId?_concat_iff.2 (.inl h)

theorem byId?_declareAll (h : c.byId? id = some e) (calls : List Entity) :
    (c.declareAll calls).byId? id = some e := by
  induction calls generalizing c with
  | nil => exact h
  | cons call calls ih => exact ih (byId?_declare h)

theorem byId?_of_declare_eq_ok (h : (c.declare e).1 = .ok id) :
    (c.declare e).2.byId? id = some e := by
  by_cases hc : c.contains e.name
  · rw [declare_of_contains hc] at h
    cases h
  · rw [declare_of_not_contains hc] at h ⊢
    cases h
    exact Catalog.byId?_concat_iff.2 (.inr ⟨rfl, rfl⟩)

theorem of_declare_eq_error {fault : SchemaError} (h : (c.declare e).1 = .error fault) :
    fault = .duplicateEntity e.name ∧ (c.declare e).2 = c := by
  by_cases hc : c.contains e.name
  · rw [declare_of_contains hc] at h ⊢
    cases h
    exact ⟨rfl, rfl⟩
  · rw [declare_of_not_contains hc] at h
    cases h

namespace InStep

theorem mem_names_iff (h : c.InStep) : name ∈ c.names ↔ ∃ id, c.idOf? name = some id := by
  simp only [h name, Catalog.names, List.mem_map]
  constructor
  · rintro ⟨e, he, hn⟩
    obtain ⟨i, hi⟩ := List.mem_iff_getElem?.1 he
    exact ⟨⟨i⟩, e, hi, hn⟩
  · rintro ⟨id, e, he, hn⟩
    exact ⟨e, List.mem_of_getElem? he, hn⟩

theorem contains_iff (h : c.InStep) : c.contains name ↔ name ∈ c.names := by
  rw [h.mem_names_iff, contains, Option.isSome_iff_exists]

theorem declare_eq_error_iff (h : c.InStep) :
    (c.declare e).1 = .error (.duplicateEntity e.name) ↔ e.name ∈ c.names := by
  rw [← h.contains_iff]
  by_cases hc : c.contains e.name
  · simp [declare_of_contains hc, hc]
  · simp [declare_of_not_contains hc, hc]

theorem declare (h : c.InStep) (e : Entity) : (c.declare e).2.InStep := by
  by_cases hc : c.contains e.name
  · rwa [declare_of_contains hc]
  · have hnew : ∀ id other, c.byId? id = some other → other.name ≠ e.name := by
      intro id other ho hn
      rw [contains, (h e.name id).2 ⟨other, ho, hn⟩] at hc
      exact hc rfl
    rw [declare_of_not_contains hc]
    intro name id
    simp only [idOf?, List.lookup_cons, Catalog.byId?_concat_iff]
    by_cases hn : name = e.name
    · subst hn
      rw [beq_self_eq_true, Option.some_inj]
      constructor
      · intro hid
        exact ⟨e, .inr ⟨hid.symm, rfl⟩, rfl⟩
      · rintro ⟨other, ho | ⟨hid, -⟩, hn⟩
        · exact absurd hn (hnew id other ho)
        · exact hid.symm
    · rw [beq_eq_false_iff_ne.2 hn, ← idOf?, h name id]
      apply exists_congr
      intro other
      constructor
      · exact fun ho ↦ ⟨.inl ho.1, ho.2⟩
      · rintro ⟨ho | ⟨-, rfl⟩, ho'⟩
        · exact ⟨ho, ho'⟩
        · exact absurd ho'.symm hn

theorem declareAll (h : c.InStep) (calls : List Entity) : (c.declareAll calls).InStep := by
  induction calls generalizing c with
  | nil => exact h
  | cons call calls ih => exact ih (h.declare call)

theorem find_eq (h : c.InStep) (name : String) :
    c.find name = .ok ((c.idOf? name).bind c.byId?) := by
  unfold find
  split
  · next hid => rw [hid, Option.bind_none]
  · next id hid =>
    obtain ⟨e, he, -⟩ := (h name id).1 hid
    rw [hid, Option.bind_some, he]

theorem bind_byId?_eq_some_iff (h : c.InStep) :
    (c.idOf? name).bind c.byId? = some e ↔ e ∈ c.entities ∧ e.name = name := by
  rw [Option.bind_eq_some_iff]
  constructor
  · rintro ⟨id, hid, he⟩
    obtain ⟨other, ho, hn⟩ := (h name id).1 hid
    cases he.symm.trans ho
    exact ⟨List.mem_of_getElem? he, hn⟩
  · rintro ⟨he, hn⟩
    obtain ⟨i, hi⟩ := List.mem_iff_getElem?.1 he
    exact ⟨⟨i⟩, (h name ⟨i⟩).2 ⟨e, hi, hn⟩, hi⟩

theorem nodup_names (h : c.InStep) : c.names.Nodup := by
  rw [List.nodup_iff_getElem?_ne_getElem?]
  intro i j hij hj heq
  have hj : j < c.entities.length := by simpa [Catalog.names] using hj
  have hi : i < c.entities.length := by omega
  have hname : c.entities[i].name = c.entities[j].name := by
    simpa [Catalog.names, List.getElem?_eq_getElem hi, List.getElem?_eq_getElem hj] using heq
  -- one name would lead to both places
  have hfirst := (h _ ⟨i⟩).2 ⟨_, List.getElem?_eq_getElem hi, hname⟩
  have hsecond := (h _ ⟨j⟩).2 ⟨_, List.getElem?_eq_getElem hj, rfl⟩
  cases hfirst.symm.trans hsecond
  omega

theorem find_eq_find? (h : c.InStep) (name : String) :
    c.find name = .ok (c.toCatalog.find? name) := by
  rw [h.find_eq]
  congr 1
  ext e
  rw [h.bind_byId?_eq_some_iff]
  constructor
  · rintro ⟨he, rfl⟩
    exact Catalog.find?_of_mem h.nodup_names he
  · intro hf
    exact ⟨List.mem_of_find?_eq_some hf, Catalog.name_of_find? hf⟩

/-- The catalogue without the index answers and grows in the same way. -/
theorem toCatalog_declare (h : c.InStep) (e : Entity) : c.toCatalog.declare e =
    (fun id ↦ (id, (c.declare e).2.toCatalog)) <$> (c.declare e).1 := by
  by_cases hc : c.contains e.name
  · have hn : c.toCatalog.contains e.name := Catalog.contains_iff.2 (h.contains_iff.1 hc)
    rw [declare_of_contains hc, Catalog.declare, if_pos hn]
    rfl
  · have hn : ¬c.toCatalog.contains e.name := fun hn ↦
      hc (h.contains_iff.2 (Catalog.contains_iff.1 hn))
    rw [declare_of_not_contains hc, Catalog.declare, if_neg hn]
    rfl

end InStep

/-- After any declarations, taken and refused, the index gives a place for a name if and only if the
entity at that place has it. All look-ups agree and none leads astray; a declaration is refused if
and only if its name is there, and changes nothing then; and what was declared is found at its place
from then on. -/
theorem lookups_agree (calls : List Entity) :
    let c := declareAll {} calls
    c.names.Nodup ∧
    (∀ name i, c.idOf? name = some ⟨i⟩ ↔ ∃ e, c.entities[i]? = some e ∧ e.name = name) ∧
    (∀ name, c.find name = .ok ((c.idOf? name).bind c.byId?) ∧
      c.find name = .ok (c.entities.find? (·.name = name)) ∧
      (c.contains name ↔ name ∈ c.names)) ∧
    (∀ e ∈ c.entities, c.find e.name = .ok (some e)) ∧
    (∀ e, ((c.declare e).1 = .error (.duplicateEntity e.name) ↔ e.name ∈ c.names) ∧
      (∀ fault, (c.declare e).1 = .error fault →
        fault = .duplicateEntity e.name ∧ (c.declare e).2 = c) ∧
      ∀ id, (c.declare e).1 = .ok id → ∀ later,
        ((c.declare e).2.declareAll later).byId? id = some e ∧
        ((c.declare e).2.declareAll later).idOf? e.name = some id) ∧
    c.toCatalog.Reachable ∧
    ∀ e, c.toCatalog.declare e =
      (fun id ↦ (id, (c.declare e).2.toCatalog)) <$> (c.declare e).1 := by
  intro c
  have hc : c.InStep := inStep_empty.declareAll calls
  refine ⟨hc.nodup_names, fun name i ↦ hc name ⟨i⟩, fun name ↦
    ⟨hc.find_eq name, hc.find_eq_find? name, hc.contains_iff⟩, ?_, ?_,
    Catalog.reachable_iff_nodup.2 hc.nodup_names, hc.toCatalog_declare⟩
  · intro e he
    rw [hc.find_eq_find?, Catalog.find?_of_mem hc.nodup_names he]
  · intro e
    refine ⟨hc.declare_eq_error_iff, fun fault ↦ of_declare_eq_error, fun id hid later ↦ ?_⟩
    have hplace := byId?_declareAll (byId?_of_declare_eq_ok hid) later
    exact ⟨hplace, ((hc.declare e).declareAll later e.name id).2 ⟨e, hplace, rfl⟩⟩

end IndexedCatalog

end ValueContract
