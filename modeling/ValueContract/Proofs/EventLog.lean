import ValueContract.Class.Log
import ValueContract.Proofs.Batch
import ValueContract.Proofs.EmissionFaults

namespace ValueContract

namespace Logged

variable {α β : Type} {x : Logged α} {f : α → Logged β} {a : α} {b : β}
  {events more : List Event}

/-- The computation comes to the result and adds the events to whatever log it starts from. -/
def Writes (x : Logged α) (a : α) (events : List Event) : Prop :=
  ∀ log, x.run log = (a, log ++ events)

theorem writes_pure (a : α) : Writes (pure a) a [] := by
  intro log
  rw [List.append_nil]
  rfl

theorem writes_write (event : Event) : Writes (write event) () [event] := by
  intro log
  rfl

theorem Writes.bind (hx : Writes x a events) (hf : Writes (f a) b more) :
    Writes (x >>= f) b (events ++ more) := by
  intro log
  rw [StateT.run_bind, hx log]
  exact (hf _).trans (by rw [List.append_assoc])

theorem Writes.mapM {g : α → β} {written : α → List Event} {as : List α}
    (h : ∀ a ∈ as, Writes (f a) (g a) (written a)) :
    Writes (as.mapM f) (as.map g) (as.flatMap written) := by
  induction as with
  | nil => exact writes_pure []
  | cons a as ih =>
    obtain ⟨ha, h⟩ := List.forall_mem_cons.1 h
    rw [List.mapM_cons]
    have hrest := (ih h).bind (f := fun bs ↦ pure (g a :: bs)) (writes_pure _)
    rw [List.append_nil] at hrest
    exact ha.bind hrest

end Logged

open Logged (Writes)

namespace Attempt

variable {α β : Type} {x : Attempt α} {f : α → Attempt β} {a : α} {outcome : Except EmitError β}
  {error : EmitError} {events more : List Event}

theorem writes_bind_ok (hx : Writes x.run (.ok a) events) (hf : Writes (f a).run outcome more) :
    Writes (x >>= f).run outcome (events ++ more) := by
  rw [ExceptT.run_bind]
  exact hx.bind hf

theorem writes_bind_error (hx : Writes x.run (.error error) events) :
    Writes (x >>= f).run (.error error) events := by
  rw [ExceptT.run_bind, ← List.append_nil events]
  exact hx.bind (Logged.writes_pure _)

theorem writes_check_ok (hf : Writes (f a).run outcome more) :
    Writes (check (.ok a) >>= f).run outcome more :=
  writes_bind_ok (Logged.writes_pure _) hf

theorem writes_check_error : Writes (check (.error error) >>= f).run (.error error) [] :=
  writes_bind_error (Logged.writes_pure _)

theorem writes_perform {step : Logged α} (h : Writes step a events)
    (hf : Writes (f a).run outcome more) :
    Writes (perform step >>= f).run outcome (events ++ more) := by
  refine writes_bind_ok (fun log ↦ ?_) hf
  rw [perform, ExceptT.run_lift, StateT.run_map, h log]
  rfl

end Attempt

namespace ClassUnit

variable {s : Settings} {e : Entity} {fields : List ClassField}

theorem writes_members (e : Entity) (fields : List ClassField) :
    Writes (MemberRole.all.mapM (memberLogged e fields))
      (MemberRole.all.map (Member.contract e.name fields))
      (MemberRole.all.map (.rendering · e.name)) := by
  rw [List.map_eq_flatMap (f := (Event.rendering · e.name))]
  exact Writes.mapM fun role _ ↦ (Logged.writes_write _).bind (Logged.writes_pure _)

theorem writes_ofEntityLogged (s : Settings) (e : Entity) :
    Writes (ofEntityLogged s e).run (ofEntity s e).result (ofEntity s e).events := by
  unfold ofEntityLogged ofEntity classFields
  cases checkNames s e with
  | error error => exact Attempt.writes_check_error
  | ok _ =>
    refine Attempt.writes_check_ok ?_
    cases checkMarker s e with
    | error error => exact Attempt.writes_check_error
    | ok _ =>
      refine Attempt.writes_check_ok ?_
      cases e.fields.mapM (classField s e) with
      | error error => exact Attempt.writes_check_error
      | ok fields =>
        refine Attempt.writes_check_ok ?_
        -- the members are in the log, whatever becomes of the methods
        refine Attempt.writes_perform (writes_members e fields) ?_
        cases e.methods.mapM (customMethod s e) with
        | error error => exact Attempt.writes_check_error
        | ok methods => exact Attempt.writes_check_ok (Logged.writes_pure _)

theorem exists_classFields_iff : (∃ fields, classFields s e = .ok fields) ↔
    e.NamesAllowed ∧ Marker.Usable s.marker ∧ ∀ f ∈ e.fields, f.ty.element ≠ .primitive .void := by
  simp only [classFields, bind_eq_ok_iff, checkNames_eq_ok_iff, checkMarker_eq_ok_iff,
    ← exists_fields_iff (s := s)]
  constructor
  · rintro ⟨fields, _, hn, _, hm, hf⟩
    exact ⟨hn, hm, fields, hf⟩
  · rintro ⟨hn, hm, fields, hf⟩
    exact ⟨fields, (), hn, (), hm, hf⟩

end ClassUnit

namespace Event

variable {level other : Level} {events : List Event}

def atLevel (level : Level) (events : List Event) : List Event :=
  events.filter (·.level = level)

theorem atLevel_append (level : Level) (events more : List Event) :
    atLevel level (events ++ more) = atLevel level events ++ atLevel level more :=
  List.filter_append _ _

theorem atLevel_eq_nil (h : ∀ event ∈ events, event.level ≠ level) : atLevel level events = [] :=
  List.filter_eq_nil_iff.2 (by simpa using h)

theorem atLevel_of_level (h : ∀ event ∈ events, event.level = other) :
    atLevel level events = if other = level then events else [] := by
  split
  case isTrue heq =>
    subst heq
    exact List.filter_eq_self.2 (by simpa using h)
  case isFalse hne => exact atLevel_eq_nil fun event he ↦ h event he ▸ hne

end Event

theorem Report.length_units (r : Report) :
    r.units.length = r.outcomes.countP (·.result.isOk) := by
  rw [units, List.length_filterMap_eq_countP]
  congr 1
  funext o
  cases o.result <;> rfl

namespace Catalog

open Event (atLevel)

variable {c : Catalog} {s : Settings} {name : String} {e : Entity}

theorem writes_emitLogged (c : Catalog) (s : Settings) (name : String) :
    Writes (c.emitLogged s name).run (c.emit s name) (c.emitTraced s name).events := by
  unfold emitLogged emit emitTraced
  cases c.resolve name with
  | error fault => exact Attempt.writes_check_error
  | ok e =>
    refine Attempt.writes_check_ok ?_
    exact Attempt.writes_perform (Logged.writes_write _) (ClassUnit.writes_ofEntityLogged s e)

theorem writes_outcomeLogged (c : Catalog) (s : Settings) (name : String) :
    Writes (c.outcomeLogged s name) ⟨name, c.emit s name⟩ (c.batchEvents s name) := by
  unfold outcomeLogged batchEvents
  refine (c.writes_emitLogged s name).bind ?_
  cases c.emit s name with
  | error error => exact (Logged.writes_write _).bind (Logged.writes_pure _)
  | ok u => exact Logged.writes_pure _

theorem writes_emitAllLogged (c : Catalog) (s : Settings) :
    Writes (c.emitAllLogged s) (c.emitAllTraced s).result (c.emitAllTraced s).events := by
  have houtcomes : Writes (c.names.mapM (c.outcomeLogged s)) (c.emitAll s).outcomes
      (c.names.flatMap (c.batchEvents s)) := Writes.mapM fun name _ ↦ c.writes_outcomeLogged s name
  have hlength : (c.emitAll s).outcomes.length = c.names.length := List.length_map _
  unfold emitAllTraced
  rw [← hlength]
  exact houtcomes.bind ((Logged.writes_write _).bind (Logged.writes_pure _))

/-- The emission of the entity comes as far as its members. -/
def Renders (c : Catalog) (s : Settings) (name : String) : Prop :=
  ∃ e, c.resolve name = .ok e ∧ e.NamesAllowed ∧ Marker.Usable s.marker ∧
    ∀ f ∈ e.fields, f.ty.element ≠ .primitive .void

theorem renders_iff (h : c.resolve name = .ok e) :
    c.Renders s name ↔ ∃ fields, ClassUnit.classFields s e = .ok fields := by
  simp [Renders, h, ClassUnit.exists_classFields_iff]

/-- The events are what a batch has to say of one entity. -/
structure Accounted (c : Catalog) (s : Settings) (name : String) (block : List Event) : Prop where
  ordered : block = atLevel .debug block ++ atLevel .trace block ++ atLevel .warn block
  announced : ∀ e, c.resolve name = .ok e →
    atLevel .debug block = [.emitting name e.fields.length s.language]
  unannounced : ∀ fault, c.resolve name = .error fault → atLevel .debug block = []
  rendered : c.Renders s name → atLevel .trace block =
    [.rendering .defaultConstructor name, .rendering .copyConstructor name,
      .rendering .destructor name, .rendering .copyTo name, .rendering .clone name,
      .rendering .equality name, .rendering .inequality name, .rendering .assignment name]
  unrendered : ¬c.Renders s name → atLevel .trace block = []
  warned : ∀ error, c.emit s name = .error error →
    atLevel .warn block = [.skipping name error]
  unwarned : ∀ u, c.emit s name = .ok u → atLevel .warn block = []

theorem Accounted.level_ne_info {block : List Event} (h : c.Accounted s name block) :
    ∀ event ∈ block, event.level ≠ .info := by
  intro event he hlevel
  rw [h.ordered] at he
  simp [atLevel, hlevel] at he

section Parts

variable (c s name)

def announcement : List Event :=
  match c.resolve name with
  | .ok e => [.emitting name e.fields.length s.language]
  | .error _ => []

def renderings : List Event :=
  match c.resolve name with
  | .ok e => (ClassUnit.ofEntity s e).events
  | .error _ => []

def warning : List Event :=
  match c.emit s name with
  | .ok _ => []
  | .error error => [.skipping name error]

theorem batchEvents_eq : c.batchEvents s name =
    c.announcement s name ++ c.renderings s name ++ c.warning s name := by
  unfold batchEvents announcement renderings warning emitTraced
  cases c.resolve name <;> cases c.emit s name <;> rfl

theorem level_announcement : ∀ event ∈ c.announcement s name, event.level = .debug := by
  unfold announcement
  cases c.resolve name <;> simp [Event.level]

theorem level_warning : ∀ event ∈ c.warning s name, event.level = .warn := by
  unfold warning
  cases c.emit s name <;> simp [Event.level]

theorem level_renderings : ∀ event ∈ c.renderings s name, event.level = .trace := by
  unfold renderings ClassUnit.ofEntity
  split
  · split <;> simp [Event.level]
  · simp

end Parts

theorem renderings_of_renders (h : c.Renders s name) :
    c.renderings s name = MemberRole.all.map (.rendering · name) := by
  obtain ⟨e, hr, hchecks⟩ := h
  obtain ⟨fields, hf⟩ := ClassUnit.exists_classFields_iff.2 hchecks
  have hname : e.name = name := name_of_find? (find?_of_resolve hr)
  simp only [renderings, hr, ClassUnit.ofEntity, hf, hname]

theorem renderings_of_not_renders (h : ¬c.Renders s name) : c.renderings s name = [] := by
  cases hr : c.resolve name with
  | error fault => simp only [renderings, hr]
  | ok e =>
    cases hf : ClassUnit.classFields s e with
    | error fault => simp only [renderings, hr, ClassUnit.ofEntity, hf]
    | ok fields => exact absurd ((renders_iff hr).2 ⟨fields, hf⟩) h

/-- The three parts of a block are its three levels. -/
theorem atLevel_batchEvents (c : Catalog) (s : Settings) (name : String) :
    atLevel .debug (c.batchEvents s name) = c.announcement s name ∧
    atLevel .trace (c.batchEvents s name) = c.renderings s name ∧
    atLevel .warn (c.batchEvents s name) = c.warning s name := by
  rw [batchEvents_eq]
  simp only [Event.atLevel_append, Event.atLevel_of_level (c.level_announcement s name),
    Event.atLevel_of_level (c.level_renderings s name),
    Event.atLevel_of_level (c.level_warning s name)]
  simp

theorem accounted_batchEvents (c : Catalog) (s : Settings) (name : String) :
    c.Accounted s name (c.batchEvents s name) := by
  obtain ⟨hdebug, htrace, hwarn⟩ := c.atLevel_batchEvents s name
  constructor
  case ordered => rw [hdebug, htrace, hwarn, batchEvents_eq]
  case announced =>
    intro e hr
    simp only [hdebug, announcement, hr]
  case unannounced =>
    intro fault hr
    simp only [hdebug, announcement, hr]
  case rendered => exact fun h ↦ htrace.trans (renderings_of_renders h)
  case unrendered => exact fun h ↦ htrace.trans (renderings_of_not_renders h)
  case warned =>
    intro error he
    simp only [hwarn, warning, he]
  case unwarned =>
    intro u hu
    simp only [hwarn, warning, hu]

theorem events_emitAllTraced (c : Catalog) (s : Settings) : (c.emitAllTraced s).events =
    (c.names.map (c.batchEvents s)).flatten ++
      [.emitted ((c.emitAll s).outcomes.countP (·.result.isOk)) c.entities.length] := by
  have hlength : c.names.length = c.entities.length := List.length_map _
  rw [emitAllTraced, Report.length_units, hlength, List.flatMap_def]

/-- The log of a batch has a block for each entity in the order of declaration, and at its end, as
the only event of its level, how many entities were emitted of how many. In its block an entity is
announced if and only if it resolves, its members are rendered if and only if moreover its names,
the marker and the types of its fields are in order, and an error comes last if and only if there is
one. -/
theorem log_accounted (c : Catalog) (s : Settings) :
    (c.emitAllLogged s).run [] = (c.emitAll s, (c.emitAllTraced s).events) ∧
    ∃ blocks total, List.Forall₂ (c.Accounted s) c.names blocks ∧
      total = .emitted ((c.emitAll s).outcomes.countP (·.result.isOk)) c.entities.length ∧
      (c.emitAllTraced s).events = blocks.flatten ++ [total] ∧
      atLevel .info (c.emitAllTraced s).events = [total] := by
  have hevents := c.events_emitAllTraced s
  refine ⟨c.writes_emitAllLogged s [], _, _, ?_, rfl, hevents, ?_⟩
  · exact List.forall₂_map_right_iff.2 (List.forall₂_same.2 fun name _ ↦
      c.accounted_batchEvents s name)
  · have hblocks : ∀ event ∈ (c.names.map (c.batchEvents s)).flatten, event.level ≠ .info := by
      intro event he
      obtain ⟨block, hb, he⟩ := List.mem_flatten.1 he
      obtain ⟨name, -, rfl⟩ := List.mem_map.1 hb
      exact (c.accounted_batchEvents s name).level_ne_info event he
    rw [hevents, Event.atLevel_append, Event.atLevel_eq_nil hblocks]
    rfl

/-- The first entity has a method that cannot be spelled, the second a field, and the third holds
itself. -/
def blunders : Catalog where
  entities :=
    [⟨"Lamp", [⟨"lit", .primitive .bool, 0⟩],
        [⟨"dim", .primitive .void, [⟨"by", .primitive .void⟩]⟩]⟩,
      ⟨"Void", [⟨"nothing", .list (.primitive .void), 0⟩], []⟩,
      ⟨"Knot", [⟨"end", .entity "Knot", 0⟩], []⟩]

example : (blunders.emitAllTraced {}).events =
    [.emitting "Lamp" 1 .cpp,
      .rendering .defaultConstructor "Lamp", .rendering .copyConstructor "Lamp",
      .rendering .destructor "Lamp", .rendering .copyTo "Lamp", .rendering .clone "Lamp",
      .rendering .equality "Lamp", .rendering .inequality "Lamp", .rendering .assignment "Lamp",
      .skipping "Lamp" (.unsupportedPrimitive "Lamp" "dim" .void .cpp),
      .emitting "Void" 1 .cpp,
      .skipping "Void" (.unsupportedPrimitive "Void" "nothing" .void .cpp),
      .skipping "Knot" (.schema (.compositionCycle "Knot" ["Knot", "Knot"])),
      .emitted 0 3] := by
  decide +kernel

end Catalog

end ValueContract
