import ValueContract.Proofs.Definition
import ValueContract.Proofs.FirstFault
import ValueContract.SchemaFile

namespace ValueContract.SchemaFile

variable {c d : Catalog} {t : EntityTable} {tables : List EntityTable} {fault : SchemaError}
  {rejected : List (String × SchemaError)}

theorem add_of_ok (h : t.declareIn c = .ok d) : Partial.add ⟨c, rejected⟩ t = ⟨d, rejected⟩ := by
  simp [Partial.add, h]

theorem add_of_error (h : t.declareIn c = .error fault) :
    Partial.add ⟨c, rejected⟩ t = ⟨c, rejected ++ [(t.name, fault)]⟩ := by
  simp [Partial.add, h]

theorem prefix_rejected_foldl (c : Catalog) (rejected : List (String × SchemaError)) :
    rejected <+: (tables.foldl Partial.add ⟨c, rejected⟩).rejected := by
  induction tables generalizing c rejected with
  | nil => exact List.prefix_rfl
  | cons t tables ih =>
    rw [List.foldl_cons]
    cases ht : t.declareIn c with
    | ok d =>
      rw [add_of_ok ht]
      exact ih d rejected
    | error fault =>
      rw [add_of_error ht]
      exact (List.prefix_append _ _).trans (ih c _)

theorem foldl_add_of_ok (h : tables.foldlM (fun c t ↦ t.declareIn c) c = .ok d) :
    tables.foldl Partial.add ⟨c, rejected⟩ = ⟨d, rejected⟩ := by
  induction tables generalizing c with
  | nil =>
    cases h
    rfl
  | cons t tables ih =>
    rw [List.foldlM_cons, bind_eq_ok_iff] at h
    obtain ⟨next, hnext, h⟩ := h
    rw [List.foldl_cons, add_of_ok hnext]
    exact ih h

theorem prefix_foldl_add_of_error (h : tables.foldlM (fun c t ↦ t.declareIn c) c = .error fault)
    (rejected : List (String × SchemaError)) : ∃ name, rejected ++ [(name, fault)] <+:
      (tables.foldl Partial.add ⟨c, rejected⟩).rejected := by
  induction tables generalizing c with
  | nil => cases h
  | cons t tables ih =>
    rw [List.foldlM_cons, bind_eq_error_iff] at h
    rw [List.foldl_cons]
    rcases h with h | ⟨next, hnext, h⟩
    · -- from here on the lenient way goes alone
      rw [add_of_error h]
      exact ⟨t.name, prefix_rejected_foldl c _⟩
    · rw [add_of_ok hnext]
      exact ih h

/-- Loading strictly succeeds if and only if nothing is rejected, and gives the same catalogue then;
it fails if and only if something is rejected, with the first of the faults. -/
theorem strict_iff_lenient (f : SchemaFile) :
    (∀ c, f.toCatalog = .ok c ↔ f.toPartial.catalog = c ∧ f.toPartial.errors = []) ∧
    ∀ fault, f.toCatalog = .error fault ↔ ∃ rest, f.toPartial.errors = fault :: rest := by
  cases h : f.toCatalog with
  | ok d =>
    have hpartial : f.toPartial = ⟨d, []⟩ := foldl_add_of_ok h
    simp [hpartial, Partial.errors]
  | error first =>
    obtain ⟨name, rest, hrest⟩ := prefix_foldl_add_of_error h []
    have herrors : f.toPartial.errors = first :: rest.map (·.2) := by
      rw [Partial.errors, toPartial, ← hrest]
      rfl
    simp [herrors]

def Taken (tables : List EntityTable) (name : String) : Prop :=
  ∃ t ∈ tables, t.name = name ∧ t.toEntity.isOk

instance (tables : List EntityTable) (name : String) : Decidable (Taken tables name) :=
  inferInstanceAs (Decidable (∃ t ∈ tables, t.name = name ∧ t.toEntity.isOk))

/-- The entity of a table after the earlier ones, or why there is none. -/
def verdict (earlier : List EntityTable) (t : EntityTable) : Except SchemaError Entity :=
  match t.toEntity with
  | .error fault => .error fault
  | .ok e => if Taken earlier t.name then .error (.duplicateEntity t.name) else .ok e

def verdicts (tables : List EntityTable) : List (Except SchemaError Entity) :=
  (withEarlier tables).map fun p ↦ verdict p.1 p.2

def fault? {ε α : Type} : Except ε α → Option ε
  | .ok _ => none
  | .error fault => some fault

theorem length_verdicts (tables : List EntityTable) : (verdicts tables).length = tables.length := by
  rw [verdicts, List.length_map, length_withEarlier]

theorem length_filterMap_toOption_add {ε α : Type} (results : List (Except ε α)) :
    (results.filterMap Except.toOption).length + (results.filterMap fault?).length =
      results.length := by
  induction results with
  | nil => rfl
  | cons result results ih =>
    cases result <;>
      simp only [List.filterMap_cons, Except.toOption, fault?, List.length_cons, ← ih] <;>
      omega

theorem filterMap_verdicts_concat {α : Type} {f : Except SchemaError Entity → Option α} :
    (verdicts (tables ++ [t])).filterMap f =
      (verdicts tables).filterMap f ++ (f (verdict tables t)).toList := by
  rw [verdicts, withEarlier_concat, List.map_append, List.filterMap_append]
  cases h : f (verdict tables t) <;> simp [verdicts, h]

theorem name_of_toEntity {e : Entity} (h : t.toEntity = .ok e) : e.name = t.name := by
  simp only [EntityTable.toEntity, bind_eq_ok_iff] at h
  obtain ⟨fields, -, methods, -, defined, hdefine, h⟩ := h
  obtain ⟨-, fields, -, rfl⟩ := Entity.define_eq_ok hdefine
  refine Entity.withMethods_invariant (P := fun e ↦ e.name = t.name) ?_ rfl h
  intro e m e' he hadd
  obtain ⟨-, -, -, rfl⟩ := Entity.addMethod_eq_ok hadd
  exact he

/-- The names of the catalogue are all that a table needs to know of those before it. -/
theorem declareIn_eq (hc : ∀ name, name ∈ c.names ↔ Taken tables name) (t : EntityTable) :
    t.declareIn c = (fun e ↦ ⟨c.entities ++ [e]⟩) <$> verdict tables t := by
  cases ht : t.toEntity with
  | error fault =>
    rw [EntityTable.declareIn, verdict, ht]
    rfl
  | ok e =>
    have hname : e.name = t.name := name_of_toEntity ht
    have hcontains : c.contains t.name ↔ Taken tables t.name := Catalog.contains_iff.trans (hc _)
    have hdeclare : t.declareIn c = Prod.snd <$> c.declare e := by
      rw [EntityTable.declareIn, ht]
      rfl
    rw [hdeclare, Catalog.declare, hname]
    by_cases h : Taken tables t.name
    · have hverdict : verdict tables t = .error (.duplicateEntity t.name) := by
        simp [verdict, ht, h]
      rw [if_pos (hcontains.2 h), hverdict]
      rfl
    · have hverdict : verdict tables t = .ok e := by simp [verdict, ht, h]
      rw [if_neg (mt hcontains.1 h), hverdict]
      rfl

/-- The state of lenient loading after some tables: each of them is accounted for by its verdict. -/
structure Accounts (p : Partial) (tables : List EntityTable) : Prop where
  kept : p.catalog.entities = (verdicts tables).filterMap Except.toOption
  errors : p.errors = (verdicts tables).filterMap fault?
  names : ∀ name, name ∈ p.catalog.names ↔ Taken tables name

theorem taken_concat_iff {name : String} :
    Taken (tables ++ [t]) name ↔ Taken tables name ∨ (t.name = name ∧ t.toEntity.isOk) := by
  simp [Taken, or_and_right, exists_or]

theorem taken_concat_of_error {name : String} (h : verdict tables t = .error fault) :
    Taken (tables ++ [t]) name ↔ Taken tables name := by
  rw [taken_concat_iff, or_iff_left_of_imp]
  rintro ⟨rfl, hok⟩
  obtain ⟨e, ht⟩ := exists_eq_ok hok
  by_contra hfree
  simp [verdict, ht, hfree] at h

theorem taken_concat_of_ok {name : String} {e : Entity} (h : verdict tables t = .ok e) :
    Taken (tables ++ [t]) name ↔ Taken tables name ∨ name = e.name := by
  cases ht : t.toEntity with
  | error fault => simp [verdict, ht] at h
  | ok e' =>
    have hkept : e' = e := by
      by_cases htaken : Taken tables t.name <;> simp_all [verdict]
    rw [taken_concat_iff, ht, ← hkept, name_of_toEntity ht, eq_comm]
    simp [Except.isOk, Except.toBool]

theorem Accounts.add {p : Partial} (h : Accounts p tables) (t : EntityTable) :
    Accounts (p.add t) (tables ++ [t]) := by
  obtain ⟨c, rejected⟩ := p
  have hdeclare := declareIn_eq h.names t
  have hkept : c.entities = _ := h.kept
  have herrors : rejected.map (·.2) = _ := h.errors
  cases hv : verdict tables t with
  | error fault =>
    rw [hv] at hdeclare
    rw [add_of_error hdeclare]
    constructor
    case kept =>
      rw [filterMap_verdicts_concat, hv, ← hkept]
      simp [Except.toOption]
    case errors =>
      rw [filterMap_verdicts_concat, hv, ← herrors]
      simp [Partial.errors, fault?]
    case names =>
      intro name
      rw [taken_concat_of_error hv, ← h.names]
  | ok e =>
    rw [hv] at hdeclare
    rw [add_of_ok hdeclare]
    constructor
    case kept =>
      rw [filterMap_verdicts_concat, hv, ← hkept]
      simp [Except.toOption]
    case errors =>
      rw [filterMap_verdicts_concat, hv, ← herrors]
      simp [Partial.errors, fault?]
    case names =>
      intro name
      rw [taken_concat_of_ok hv, ← h.names]
      simp [Catalog.names]

theorem accounts_foldl (tables : List EntityTable) :
    Accounts (tables.foldl Partial.add {}) tables := by
  induction tables using List.reverseRecOn with
  | nil => exact ⟨rfl, rfl, by simp [Taken, Catalog.names, Catalog.empty]⟩
  | append_singleton tables t ih =>
    rw [List.foldl_append]
    exact ih.add t

/-- Every table has its verdict. The catalogue has the entities of the tables that are kept, in file
order, and the errors are those of the other tables, in file order as well. -/
theorem tables_accounted (f : SchemaFile) :
    f.toPartial.catalog.entities = (verdicts f.entities).filterMap Except.toOption ∧
    f.toPartial.errors = (verdicts f.entities).filterMap fault? ∧
    f.toPartial.catalog.entities.length + f.toPartial.errors.length = f.entities.length := by
  have haccounts : Accounts f.toPartial f.entities := accounts_foldl f.entities
  refine ⟨haccounts.kept, haccounts.errors, ?_⟩
  rw [haccounts.kept, haccounts.errors, length_filterMap_toOption_add, length_verdicts]

end ValueContract.SchemaFile
