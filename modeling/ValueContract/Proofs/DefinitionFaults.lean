import ValueContract.Proofs.Definition
import ValueContract.Proofs.FirstFault

namespace ValueContract.Entity

variable {owner name : String} {clash : String → SchemaError} {taken taken' names : List String}
  {fields : List (String × TypeExpr)} {m : Method} {methods : List Method}

def memberFaults (owner : String) (clash : String → SchemaError) (taken : List String)
    (name : String) : List SchemaError :=
  (Name.fault? name).toList.map (.invalidName owner (some name)) ++
    if name ∈ taken then [clash name] else []

def scopeFaults (owner : String) (clash : String → SchemaError) (taken names : List String) :
    List SchemaError :=
  (withEarlier names).flatMap fun (earlier, name) ↦
    memberFaults owner clash (taken ++ earlier) name

/-- Each method has a scope of its own for its parameters. -/
def parameterFaults (owner : String) (m : Method) : List SchemaError :=
  scopeFaults owner (.duplicateParameter owner m.name) [] (m.parameters.map (·.name))

def methodFaults (owner : String) (taken : List String) (methods : List Method) :
    List SchemaError :=
  (withEarlier methods).flatMap fun (earlier, m) ↦
    memberFaults owner (.duplicateMethod owner) (taken ++ earlier.map (·.name)) m.name ++
      parameterFaults owner m

/-- Every fault of a definition: of the entity's own name, of the fields and of the methods. Each
name is checked against those before it, whatever is wrong with those. -/
def definitionFaults (name : String) (fields : List (String × TypeExpr)) (methods : List Method) :
    List SchemaError :=
  (Name.fault? name).toList.map (.invalidName name none) ++
    (scopeFaults name (.duplicateField name) [] (fields.map (·.1)) ++
      methodFaults name (fields.map (·.1)) methods)

theorem scopeFaults_cons : scopeFaults owner clash taken (name :: names) =
    memberFaults owner clash taken name ++ scopeFaults owner clash (taken ++ [name]) names := by
  simp [scopeFaults, flatMap_withEarlier_cons]

theorem methodFaults_cons : methodFaults owner taken (m :: methods) =
    memberFaults owner (.duplicateMethod owner) taken m.name ++
      (parameterFaults owner m ++ methodFaults owner (taken ++ [m.name]) methods) := by
  simp [methodFaults, flatMap_withEarlier_cons]

theorem scopeFaults_congr (h : ∀ name, name ∈ taken ↔ name ∈ taken') :
    scopeFaults owner clash taken names = scopeFaults owner clash taken' names := by
  simp only [scopeFaults, memberFaults, List.mem_append, h]

/-- One round of each loop: the name is checked, and only then what comes after it. -/
theorem unlessFaulty_memberFaults_append {α : Type} {a : α} {more : List SchemaError} :
    unlessFaulty (memberFaults owner clash taken name ++ more) a =
      match Name.fault? name with
      | some fault => .error (.invalidName owner (some name) fault)
      | none => if name ∈ taken then .error (clash name) else unlessFaulty more a := by
  cases hf : Name.fault? name with
  | some fault => simp [memberFaults, hf, unlessFaulty]
  | none => by_cases hm : name ∈ taken <;> simp [memberFaults, hf, hm, unlessFaulty]

theorem checkParameters_eq (owner method : String) (seen : List String)
    (parameters : List Parameter) : checkParameters owner method seen parameters =
      unlessFaulty (scopeFaults owner (.duplicateParameter owner method) seen
        (parameters.map (·.name))) () := by
  induction parameters generalizing seen with
  | nil => rfl
  | cons p parameters ih =>
    -- the names seen are kept in another order, which makes no difference
    have hseen : ∀ name, name ∈ seen ++ [p.name] ↔ name ∈ p.name :: seen := by simp [or_comm]
    rw [List.map_cons, scopeFaults_cons, unlessFaulty_memberFaults_append,
      scopeFaults_congr hseen, ← ih]
    cases hf : Name.fault? p.name <;> simp only [checkParameters, hf]

def placed (start : Nat) (fields : List (String × TypeExpr)) : List Field :=
  (fields.zipIdx start).map fun p ↦ ⟨p.1.1, p.1.2, p.2⟩

theorem map_placed {α : Type} (f : String × TypeExpr → α) (start : Nat)
    (fields : List (String × TypeExpr)) :
    (placed start fields).map (fun g ↦ f (g.name, g.ty)) = fields.map f := by
  calc (placed start fields).map (fun g ↦ f (g.name, g.ty))
      = ((fields.zipIdx start).map Prod.fst).map f := by
        rw [placed, List.map_map, List.map_map]
        rfl
    _ = fields.map f := by rw [List.zipIdx_map_fst]

theorem names_placed (start : Nat) (fields : List (String × TypeExpr)) :
    (placed start fields).map (·.name) = fields.map (·.1) :=
  map_placed (·.1) start fields

theorem defineFields_eq (owner : String) (defined : List Field)
    (fields : List (String × TypeExpr)) : defineFields owner defined fields =
      unlessFaulty (scopeFaults owner (.duplicateField owner) (defined.map (·.name))
        (fields.map (·.1))) (defined ++ placed defined.length fields) := by
  induction fields generalizing defined with
  | nil => simp [defineFields, scopeFaults, withEarlier, placed, unlessFaulty]
  | cons f fields ih =>
    have hnames : (defined ++ [(⟨f.1, f.2, defined.length⟩ : Field)]).map (·.name) =
        defined.map (·.name) ++ [f.1] := by simp
    have hplaced : defined ++ placed defined.length (f :: fields) =
        defined ++ [⟨f.1, f.2, defined.length⟩] ++ placed (defined.length + 1) fields := by
      simp [placed]
    rw [List.map_cons, scopeFaults_cons, unlessFaulty_memberFaults_append, hplaced, ← hnames]
    cases hf : Name.fault? f.1 <;> simp [defineFields, hf, ih]

theorem addMethod_eq (e : Entity) (m : Method) : e.addMethod m =
    unlessFaulty (memberFaults e.name (.duplicateMethod e.name)
      (e.fields.map (·.name) ++ e.methods.map (·.name)) m.name ++ parameterFaults e.name m)
      { e with methods := e.methods ++ [m] } := by
  have hchecked : (checkParameters e.name m.name [] m.parameters >>= fun _ ↦
      .ok { e with methods := e.methods ++ [m] }) =
        unlessFaulty (parameterFaults e.name m) { e with methods := e.methods ++ [m] } := by
    rw [checkParameters_eq, ← parameterFaults]
    cases parameterFaults e.name m <;> rfl
  rw [unlessFaulty_memberFaults_append, addMethod, ← hchecked]
  simp only [List.mem_append]
  cases Name.fault? m.name <;> rfl

theorem withMethods_eq (e : Entity) (methods : List Method) : e.withMethods methods =
    unlessFaulty (methodFaults e.name (e.fields.map (·.name) ++ e.methods.map (·.name)) methods)
      { e with methods := e.methods ++ methods } := by
  induction methods generalizing e with
  | nil => simp [withMethods, methodFaults, withEarlier, unlessFaulty, pure, Except.pure]
  | cons m methods ih =>
    rw [withMethods, List.foldlM_cons, addMethod_eq, methodFaults_cons, ← List.append_assoc]
    apply unlessFaulty_bind
    have hnext := ih { e with methods := e.methods ++ [m] }
    simpa [withMethods] using hnext

theorem define_withMethods_eq (name : String) (fields : List (String × TypeExpr))
    (methods : List Method) : define name fields >>= (·.withMethods methods) =
      unlessFaulty (definitionFaults name fields methods) ⟨name, placed 0 fields, methods⟩ := by
  have hmethods : Entity.withMethods ⟨name, placed 0 fields, []⟩ methods =
      unlessFaulty (methodFaults name (fields.map (·.1)) methods)
        ⟨name, placed 0 fields, methods⟩ := by
    simpa [names_placed] using withMethods_eq ⟨name, placed 0 fields, []⟩ methods
  have hmembers : (defineFields name [] fields >>= fun fields ↦
      Entity.withMethods ⟨name, fields, []⟩ methods) =
        unlessFaulty (scopeFaults name (.duplicateField name) [] (fields.map (·.1)) ++
          methodFaults name (fields.map (·.1)) methods) ⟨name, placed 0 fields, methods⟩ := by
    rw [defineFields_eq]
    exact unlessFaulty_bind hmethods
  rw [define, definitionFaults]
  cases Name.fault? name with
  | some fault => rfl
  | none =>
    rw [bind_assoc]
    exact hmembers

/-- Every name is an identifier, and no two names of one scope are the same. -/
structure WellNamed (name : String) (fields : List (String × TypeExpr)) (methods : List Method) :
    Prop where
  entity : Name.isIdentifier name
  field_names : ∀ f ∈ fields, Name.isIdentifier f.1
  nodup_fields : (fields.map (·.1)).Nodup
  method_names : ∀ m ∈ methods, Name.isIdentifier m.name
  nodup_methods : (methods.map (·.name)).Nodup
  disjoint : ∀ m ∈ methods, ∀ f ∈ fields, m.name ≠ f.1
  parameter_names : ∀ m ∈ methods, ∀ p ∈ m.parameters, Name.isIdentifier p.name
  nodup_parameters : ∀ m ∈ methods, (m.parameters.map (·.name)).Nodup

theorem memberFaults_eq_nil_iff :
    memberFaults owner clash taken name = [] ↔ Name.isIdentifier name ∧ name ∉ taken := by
  rw [memberFaults, List.append_eq_nil_iff, List.map_eq_nil_iff, Option.toList_eq_nil_iff,
    Name.fault?_eq_none_iff]
  by_cases hm : name ∈ taken <;> simp [hm]

theorem scopeFaults_eq_nil_iff : scopeFaults owner clash taken names = [] ↔
    (∀ name ∈ names, Name.isIdentifier name) ∧ names.Nodup ∧ ∀ name ∈ names, name ∉ taken := by
  induction names generalizing taken with
  | nil => simp [scopeFaults, withEarlier]
  | cons name names ih =>
    rw [scopeFaults_cons, List.append_eq_nil_iff, memberFaults_eq_nil_iff, ih]
    grind

theorem parameterFaults_eq_nil_iff : parameterFaults owner m = [] ↔
    (∀ p ∈ m.parameters, Name.isIdentifier p.name) ∧ (m.parameters.map (·.name)).Nodup := by
  simp [parameterFaults, scopeFaults_eq_nil_iff]

theorem methodFaults_eq_nil_iff : methodFaults owner taken methods = [] ↔
    (∀ m ∈ methods, Name.isIdentifier m.name) ∧ (methods.map (·.name)).Nodup ∧
      (∀ m ∈ methods, m.name ∉ taken) ∧ ∀ m ∈ methods, parameterFaults owner m = [] := by
  induction methods generalizing taken with
  | nil => simp [methodFaults, withEarlier]
  | cons m methods ih =>
    rw [methodFaults_cons, List.append_eq_nil_iff, List.append_eq_nil_iff, memberFaults_eq_nil_iff,
      ih]
    grind

theorem definitionFaults_eq_nil_iff :
    definitionFaults name fields methods = [] ↔ WellNamed name fields methods := by
  have hname : (Name.fault? name).toList.map (.invalidName name none) = ([] : List SchemaError) ↔
      Name.isIdentifier name := by
    rw [List.map_eq_nil_iff, Option.toList_eq_nil_iff, Name.fault?_eq_none_iff]
  rw [definitionFaults, List.append_eq_nil_iff, List.append_eq_nil_iff, hname,
    scopeFaults_eq_nil_iff, methodFaults_eq_nil_iff]
  simp only [parameterFaults_eq_nil_iff, List.forall_mem_map]
  constructor
  · rintro ⟨hname, ⟨hfields, hdistinct, -⟩, hmethods, hmethods', hapart, hparameters⟩
    constructor
    case disjoint =>
      intro m hm f hf heq
      exact hapart m hm (heq ▸ List.mem_map_of_mem hf)
    case parameter_names => exact fun m hm ↦ (hparameters m hm).1
    case nodup_parameters => exact fun m hm ↦ (hparameters m hm).2
    all_goals assumption
  · intro h
    refine ⟨h.entity, ⟨h.field_names, h.nodup_fields, by simp⟩, h.method_names, h.nodup_methods,
      ?_, fun m hm ↦ ⟨h.parameter_names m hm, h.nodup_parameters m hm⟩⟩
    intro m hm hmem
    obtain ⟨f, hf, heq⟩ := List.mem_map.1 hmem
    exact h.disjoint m hm f hf heq.symm

/-- A definition with methods succeeds if and only if its names are identifiers and distinct in each
scope. The entity then has the fields and methods as they were given, each field with its place, and
otherwise the first of all faults is reported. -/
theorem definition_decides (name : String) (fields : List (String × TypeExpr))
    (methods : List Method) :
    (∀ e, define name fields >>= (·.withMethods methods) = .ok e ↔
      WellNamed name fields methods ∧
        e = ⟨name, fields.zipIdx.map fun p ↦ ⟨p.1.1, p.1.2, p.2⟩, methods⟩) ∧
    ∀ fault, define name fields >>= (·.withMethods methods) = .error fault ↔
      (definitionFaults name fields methods).head? = some fault := by
  rw [define_withMethods_eq]
  constructor
  · intro e
    rw [unlessFaulty_eq_ok_iff, definitionFaults_eq_nil_iff, placed]
  · intro fault
    rw [unlessFaulty_eq_error_iff]

end ValueContract.Entity
