import ValueContract.Proofs.DefinitionFaults
import ValueContract.Proofs.TypeText
import ValueContract.SchemaFile

namespace ValueContract

/-- A text that should be a type, with the place under which a fault of it is reported. -/
structure PlacedText where
  place : String
  text : String
  deriving DecidableEq, Repr

def PlacedText.Malformed (p : PlacedText) : Prop :=
  ∃ fault, TypeExpr.parse p.text = .error fault

instance (p : PlacedText) : Decidable p.Malformed :=
  decidable_of_iff ((TypeExpr.parse p.text).isOk = false) <| by
    unfold PlacedText.Malformed
    cases TypeExpr.parse p.text <;> simp [Except.isOk, Except.toBool]

theorem PlacedText.exists_type {p : PlacedText} (h : ¬p.Malformed) :
    ∃ ty, TypeExpr.parse p.text = .ok ty :=
  exists_ok_iff.2 fun fault hf ↦ h ⟨fault, hf⟩

def Method.table (m : Method) : MethodTable where
  name := m.name
  returns := some m.returns.text
  parameters := m.parameters.map fun p ↦ ⟨p.name, p.ty.text⟩

def Entity.table (e : Entity) : EntityTable where
  name := e.name
  fields := e.fields.map fun f ↦ ⟨f.name, f.ty.text⟩
  methods := e.methods.map (·.table)

namespace MethodTable

def explicit (m : MethodTable) : MethodTable :=
  { m with returns := some (m.returns.getD "void") }

/-- The texts of a signature, what is returned first. -/
def typeTexts (m : MethodTable) : List PlacedText :=
  m.returns.toList.map (⟨m.name, ·⟩) ++
    m.parameters.map fun p ↦ ⟨m.name ++ "." ++ p.name, p.type⟩

/-- The method has the names of the table and the types of its texts. -/
structure Reads (m : MethodTable) (n : Method) : Prop where
  name : n.name = m.name
  returns : TypeExpr.parse (m.returns.getD "void") = .ok n.returns
  parameters : List.Forall₂ (fun p q ↦ q.name = p.name ∧ TypeExpr.parse p.type = .ok q.ty)
    m.parameters n.parameters

theorem Reads.table_eq {m : MethodTable} {n : Method} (h : m.Reads n) : n.table = m.explicit := by
  have hparameters : m.parameters.map id = n.parameters.map fun q ↦ ⟨q.name, q.ty.text⟩ := by
    apply map_eq_map_of_forall₂ h.parameters
    rintro p q ⟨hname, hty⟩
    rw [id, hname, TypeExpr.text_of_parse hty]
  rw [List.map_id] at hparameters
  rw [Method.table, explicit, h.name, TypeExpr.text_of_parse h.returns, ← hparameters]

end MethodTable

namespace EntityTable

def explicit (t : EntityTable) : EntityTable :=
  { t with methods := t.methods.map (·.explicit) }

def typeTexts (t : EntityTable) : List PlacedText :=
  t.fields.map (fun f ↦ ⟨f.name, f.type⟩) ++ t.methods.flatMap (·.typeTexts)

structure Reads (t : EntityTable) (fields : List (String × TypeExpr)) (methods : List Method) :
    Prop where
  fields : List.Forall₂ (fun f g ↦ g.1 = f.name ∧ TypeExpr.parse f.type = .ok g.2) t.fields fields
  methods : List.Forall₂ MethodTable.Reads t.methods methods

variable {t : EntityTable} {f : MemberTable} {m : MethodTable} {p : PlacedText} {e : Entity}
  {fields : List (String × TypeExpr)} {methods : List Method} {place text : String}
  {ty : TypeExpr} {fault : TypeFault}

theorem parse_void : TypeExpr.parse "void" = .ok (.primitive .void) := by
  have htext : "void" = (TypeExpr.primitive .void).text := rfl
  rw [htext]
  exact TypeExpr.parse_text_iff.2 (.inl ⟨.void, rfl⟩)

theorem typeAt_eq_ok_iff : t.typeAt place text = .ok ty ↔ TypeExpr.parse text = .ok ty :=
  mapError_eq_ok_iff

theorem typeAt_eq_error (h : TypeExpr.parse text = .error fault) :
    t.typeAt place text = .error (.invalidType t.name place fault) :=
  mapError_eq_error_iff.2 ⟨fault, h, rfl⟩

theorem field_eq_ok_iff {g : String × TypeExpr} :
    t.field f = .ok g ↔ g.1 = f.name ∧ TypeExpr.parse f.type = .ok g.2 := by
  simp only [field, bind_eq_ok_iff, typeAt_eq_ok_iff]
  constructor
  · rintro ⟨ty, hty, ⟨⟩⟩
    exact ⟨rfl, hty⟩
  · rintro ⟨hname, hty⟩
    exact ⟨g.2, hty, by rw [← hname]; rfl⟩

theorem parameter_eq_ok_iff {method : String} {q : Parameter} :
    t.parameter method f = .ok q ↔ q.name = f.name ∧ TypeExpr.parse f.type = .ok q.ty := by
  simp only [parameter, bind_eq_ok_iff, typeAt_eq_ok_iff]
  constructor
  · rintro ⟨ty, hty, ⟨⟩⟩
    exact ⟨rfl, hty⟩
  · rintro ⟨hname, hty⟩
    exact ⟨q.ty, hty, by rw [← hname]; rfl⟩

theorem returns_eq (t : EntityTable) (m : MethodTable) :
    m.returns.elim (.ok (.primitive .void)) (t.typeAt m.name) =
      t.typeAt m.name (m.returns.getD "void") := by
  cases m.returns with
  | none => exact (typeAt_eq_ok_iff.2 parse_void).symm
  | some text => rfl

theorem method_eq_ok_iff {n : Method} : t.method m = .ok n ↔ m.Reads n := by
  simp only [method, returns_eq, bind_eq_ok_iff, typeAt_eq_ok_iff, mapM_eq_ok_iff,
    parameter_eq_ok_iff]
  constructor
  · rintro ⟨returns, hr, parameters, hp, ⟨⟩⟩
    exact ⟨rfl, hr, hp⟩
  · intro h
    exact ⟨n.returns, h.returns, n.parameters, h.parameters, by rw [← h.name]; rfl⟩

theorem reads_iff : t.Reads fields methods ↔
    t.fields.mapM t.field = .ok fields ∧ t.methods.mapM t.method = .ok methods := by
  simp only [mapM_eq_ok_iff, field_eq_ok_iff, method_eq_ok_iff]
  exact ⟨fun h ↦ ⟨h.fields, h.methods⟩, fun h ↦ ⟨h.1, h.2⟩⟩

theorem toEntity_of_reads (h : t.Reads fields methods) :
    t.toEntity = Entity.define t.name fields >>= (·.withMethods methods) := by
  obtain ⟨hfields, hmethods⟩ := reads_iff.1 h
  rw [toEntity, hfields, hmethods]
  rfl

theorem exists_reads_of_toEntity (h : t.toEntity = .ok e) :
    ∃ fields methods, t.Reads fields methods := by
  simp only [toEntity, bind_eq_ok_iff] at h
  obtain ⟨fields, hfields, methods, hmethods, -⟩ := h
  exact ⟨fields, methods, reads_iff.2 ⟨hfields, hmethods⟩⟩

theorem exists_field (h : ¬(⟨f.name, f.type⟩ : PlacedText).Malformed) : ∃ g, t.field f = .ok g := by
  obtain ⟨ty, hty⟩ := PlacedText.exists_type h
  exact ⟨(f.name, ty), field_eq_ok_iff.2 ⟨rfl, hty⟩⟩

theorem exists_parameter {method : String}
    (h : ¬(⟨method ++ "." ++ f.name, f.type⟩ : PlacedText).Malformed) :
    ∃ q, t.parameter method f = .ok q := by
  obtain ⟨ty, hty⟩ := PlacedText.exists_type h
  exact ⟨⟨f.name, ty⟩, parameter_eq_ok_iff.2 ⟨rfl, hty⟩⟩

theorem exists_returns (h : ∀ text ∈ m.returns, ¬(⟨m.name, text⟩ : PlacedText).Malformed) :
    ∃ ty, m.returns.elim (.ok (.primitive .void)) (t.typeAt m.name) = .ok ty := by
  simp only [returns_eq, typeAt_eq_ok_iff]
  cases hr : m.returns with
  | none => exact ⟨.primitive .void, parse_void⟩
  | some text => exact PlacedText.exists_type (h text hr)

theorem exists_method (h : ∀ p ∈ m.typeTexts, ¬p.Malformed) : ∃ n, t.method m = .ok n := by
  simp only [MethodTable.typeTexts, List.forall_mem_append, List.forall_mem_map,
    Option.mem_toList] at h
  obtain ⟨hreturns, hparameters⟩ := h
  obtain ⟨returns, hr⟩ := exists_returns (t := t) hreturns
  obtain ⟨parameters, hp⟩ := exists_mapM fun f hf ↦ exists_parameter (t := t) (hparameters f hf)
  exact ⟨_, bind_eq_ok_iff.2 ⟨returns, hr, bind_eq_ok_iff.2 ⟨parameters, hp, rfl⟩⟩⟩

theorem exists_fields (h : ∀ f ∈ t.fields, ¬(⟨f.name, f.type⟩ : PlacedText).Malformed) :
    ∃ fields, t.fields.mapM t.field = .ok fields :=
  exists_mapM fun f hf ↦ exists_field (h f hf)

theorem exists_reads (h : ∀ p ∈ t.typeTexts, ¬p.Malformed) :
    ∃ fields methods, t.Reads fields methods := by
  simp only [typeTexts, List.forall_mem_append, List.forall_mem_map, List.forall_mem_flatMap] at h
  obtain ⟨fields, hfields⟩ := exists_fields h.1
  obtain ⟨methods, hmethods⟩ := exists_mapM fun m hm ↦ exists_method (t := t) (h.2 m hm)
  exact ⟨fields, methods, reads_iff.2 ⟨hfields, hmethods⟩⟩

theorem method_eq_error (h : FirstWith PlacedText.Malformed m.typeTexts p)
    (hp : TypeExpr.parse p.text = .error fault) :
    t.method m = .error (.invalidType t.name p.place fault) := by
  rw [method, bind_eq_error_iff]
  rcases firstWith_append_iff.1 h with h | ⟨hreturns, h⟩
  · obtain ⟨text, htext, rfl⟩ := firstWith_map_iff.1 h
    rw [Option.mem_toList.1 htext.mem.1]
    exact .inl (typeAt_eq_error hp)
  · obtain ⟨returns, hr⟩ := exists_returns (t := t) (by simpa using hreturns)
    obtain ⟨f, hf, rfl⟩ := firstWith_map_iff.1 h
    have hparameters : m.parameters.mapM (t.parameter m.name) =
        .error (.invalidType t.name (m.name ++ "." ++ f.name) fault) :=
      mapM_eq_error_of_firstWith (fun _ ↦ exists_parameter) hf
        (bind_eq_error_iff.2 (.inl (typeAt_eq_error hp)))
    exact .inr ⟨returns, hr, bind_eq_error_iff.2 (.inl hparameters)⟩

theorem toEntity_eq_error (h : FirstWith PlacedText.Malformed t.typeTexts p)
    (hp : TypeExpr.parse p.text = .error fault) :
    t.toEntity = .error (.invalidType t.name p.place fault) := by
  rw [toEntity, bind_eq_error_iff]
  rcases firstWith_append_iff.1 h with h | ⟨hfields, h⟩
  · obtain ⟨f, hf, rfl⟩ := firstWith_map_iff.1 h
    exact .inl (mapM_eq_error_of_firstWith (fun _ ↦ exists_field) hf
      (bind_eq_error_iff.2 (.inl (typeAt_eq_error hp))))
  · obtain ⟨fields, hread⟩ := exists_fields (t := t) (by simpa using hfields)
    obtain ⟨m, hm, hfirst⟩ := firstWith_flatMap_iff.1 h
    have hmethods : t.methods.mapM t.method = .error (.invalidType t.name p.place fault) := by
      refine mapM_eq_error_of_firstWith (fun other hother ↦ ?_) hm (method_eq_error hfirst hp)
      exact exists_method fun q hq hmalformed ↦ hother ⟨q, hq, hmalformed⟩
    exact .inr ⟨fields, hread, bind_eq_error_iff.2 (.inl hmethods)⟩

theorem table_of_reads (h : t.Reads fields methods) :
    Entity.table ⟨t.name, Entity.placed 0 fields, methods⟩ = t.explicit := by
  have hfields : t.fields.map id = fields.map fun g ↦ ⟨g.1, g.2.text⟩ := by
    apply map_eq_map_of_forall₂ h.fields
    rintro f g ⟨hname, hty⟩
    rw [id, hname, TypeExpr.text_of_parse hty]
  have hmethods : t.methods.map (·.explicit) = methods.map (·.table) :=
    map_eq_map_of_forall₂ h.methods fun _ _ hm ↦ hm.table_eq.symm
  have hplaced : (Entity.placed 0 fields).map (fun f ↦ (⟨f.name, f.ty.text⟩ : MemberTable)) =
      t.fields := by
    rw [← List.map_id t.fields, hfields]
    exact Entity.map_placed (fun g ↦ (⟨g.1, g.2.text⟩ : MemberTable)) 0 fields
  rw [Entity.table, explicit, hmethods, hplaced]

theorem method_explicit (t : EntityTable) (m : MethodTable) :
    t.explicit.method m.explicit = t.method m := by
  rw [method, method, returns_eq t m]
  rfl

theorem toEntity_explicit (t : EntityTable) : t.explicit.toEntity = t.toEntity := by
  have hmethods : t.explicit.methods.mapM t.explicit.method = t.methods.mapM t.method := by
    rw [explicit, List.mapM_map]
    exact congrArg t.methods.mapM (funext t.method_explicit)
  rw [toEntity, hmethods]
  rfl

theorem table_of_toEntity (h : t.toEntity = .ok e) : e.table = t.explicit := by
  obtain ⟨fields, methods, hread⟩ := exists_reads_of_toEntity h
  rw [toEntity_of_reads hread, Entity.define_withMethods_eq, unlessFaulty_eq_ok_iff] at h
  rw [h.2, table_of_reads hread]

/-- An entity that was built from a table is written as that table, but for what a method returns,
which is `void` if the table does not say, and the table so written gives the entity again. If some
text is no type the first one is reported with its place, whatever is wrong with the names. If all
are types, the entity is defined from what was read. -/
theorem table_read_back (t : EntityTable) :
    (∀ e, t.toEntity = .ok e → e.table = t.explicit ∧ e.table.toEntity = .ok e) ∧
    ((∃ p ∈ t.typeTexts, p.Malformed) →
      ∃ p fault, FirstWith PlacedText.Malformed t.typeTexts p ∧
        TypeExpr.parse p.text = .error fault ∧
        t.toEntity = .error (.invalidType t.name p.place fault)) ∧
    ((∀ p ∈ t.typeTexts, ¬p.Malformed) →
      ∃ fields methods, t.Reads fields methods ∧
        t.toEntity = Entity.define t.name fields >>= (·.withMethods methods)) := by
  refine ⟨?_, ?_, ?_⟩
  · intro e he
    have htable := table_of_toEntity he
    exact ⟨htable, by rw [htable, toEntity_explicit, he]⟩
  · intro h
    obtain ⟨p, hp⟩ := exists_firstWith_iff.2 h
    obtain ⟨fault, hfault⟩ := hp.mem.2
    exact ⟨p, fault, hp, hfault, toEntity_eq_error hp hfault⟩
  · intro h
    obtain ⟨fields, methods, hread⟩ := exists_reads h
    exact ⟨fields, methods, hread, toEntity_of_reads hread⟩

def gauge : EntityTable where
  name := "Gauge"
  fields := [⟨"levels", "f64[][]"⟩, ⟨"owner", "Person"⟩]
  methods := [{ name := "reset", parameters := [⟨"by", "Person[]"⟩] },
    { name := "join", returns := some "Gauge", parameters := [⟨"other", "Gauge"⟩] }]

/-- No name is an identifier, two fields share one, and two of the types are no types. -/
def crackedGauge : EntityTable where
  name := "1Gauge"
  fields := [⟨"level-1", "f64"⟩, ⟨"level-1", "f64[]"⟩]
  methods := [{ name := "re set", parameters := [⟨"b.y", "[]"⟩] },
    { name := "join", returns := some "Gauge[" }]

theorem gauge_read_back :
    (∃ e, gauge.toEntity = .ok e ∧ e.table = gauge.explicit ∧ e.table.toEntity = .ok e) ∧
    (∃ fields methods, gauge.Reads fields methods ∧
      gauge.toEntity = Entity.define "Gauge" fields >>= (·.withMethods methods)) ∧
    ∃ p, FirstWith PlacedText.Malformed crackedGauge.typeTexts p ∧ p.place = "re set.b.y" ∧
      TypeExpr.parse p.text = .error .empty := by
  obtain ⟨hback, -, hread⟩ := table_read_back gauge
  obtain ⟨-, hfirst, -⟩ := table_read_back crackedGauge
  obtain ⟨e, he⟩ : ∃ e, gauge.toEntity = .ok e := exists_eq_ok (by decide +kernel)
  obtain ⟨p, fault, hp, hfault, herror⟩ := hfirst (by decide +kernel)
  have hshown : crackedGauge.toEntity = .error (.invalidType "1Gauge" "re set.b.y" .empty) := by
    decide +kernel
  rw [hshown] at herror
  injection herror with herror
  injection herror with _ hplace hempty
  exact ⟨⟨e, he, hback e he⟩, hread (by decide +kernel), p, hp, hplace.symm, hempty ▸ hfault⟩

end EntityTable

end ValueContract
