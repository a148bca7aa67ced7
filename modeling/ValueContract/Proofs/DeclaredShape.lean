import ValueContract.Proofs.TypedStorage

namespace ValueContract

open Relation

namespace Record

variable {i j k source : Instance} {v : Value} {field : String} {slot : Slot Value}
  {path : List String}

theorem sameShape_put (hs : i.slot field = .ok slot) : i.sameShape (i.put field v) := by
  obtain ⟨before, after, hslots, hput⟩ := exists_put hs
  rw [sameShape_iff, hput, hslots]
  exact ⟨rfl, by simp [shape]⟩

theorem contains_put (hs : i.slot field = .ok slot)
    (h : (Value.entity (i.put field v)).Contains k) :
    i.sameShape k ∨ (Value.entity i).Contains k ∨ v.Contains k := by
  cases h with
  | here => exact .inl (sameShape_put hs)
  | slot hm hk =>
    obtain ⟨before, after, hslots, hput⟩ := exists_put hs
    simp only [hput, List.mem_append, List.mem_cons] at hm
    rcases hm with hm | rfl | hm
    · exact .inr (.inl (.slot (by simp [hslots, hm]) hk))
    · exact .inr (.inr hk)
    · exact .inr (.inl (.slot (by simp [hslots, hm]) hk))

def ShapeIn (k : Instance) (v : Value) : Prop :=
  ∃ k', v.Contains k' ∧ k'.sameShape k

theorem ShapeIn.of_contains (h : v.Contains k) : k.ShapeIn v :=
  ⟨k, h, sameShape_iff.2 ⟨rfl, rfl⟩⟩

theorem shapeIn_modifyAt {change : Instance → Except ValueError Instance}
    (hm : i.modifyAt change path = .ok j) (hk : (Value.entity j).Contains k) :
    k.ShapeIn (.entity i) ∨ ∃ inner inner', (Value.entity i).Contains inner ∧
      change inner = .ok inner' ∧ (Value.entity inner').Contains k := by
  induction path generalizing i j with
  | nil => exact .inr ⟨i, j, .here i, hm, hk⟩
  | cons field path ih =>
    obtain ⟨slot, inner, inner', hs, hv, hrest, rfl⟩ := modifyAt_cons_eq_ok hm
    have hmem : slot ∈ i.slots := List.mem_of_find?_eq_some (slot_eq_ok_iff.1 hs)
    have hinner {k : Instance} (h : (Value.entity inner).Contains k) :
        (Value.entity i).Contains k := .slot hmem (hv ▸ h)
    rcases contains_put hs hk with hshape | hk | hk
    · exact .inl ⟨i, .here i, hshape⟩
    · exact .inl (.of_contains hk)
    · rcases ih hrest hk with ⟨k', hk', hshape⟩ | ⟨target, target', ht, hchange, hk⟩
      · exact .inl ⟨k', hinner hk', hshape⟩
      · exact .inr ⟨target, target', hinner ht, hchange, hk⟩

theorem shapeIn_setAt (h : i.setAt path field v = .ok j) (hk : (Value.entity j).Contains k) :
    k.ShapeIn (.entity i) ∨ v.Contains k := by
  rcases shapeIn_modifyAt h hk with hshape | ⟨inner, inner', hi, hset, hk⟩
  · exact .inl hshape
  · obtain ⟨slot, stored, hs, hc, rfl⟩ := set_eq_ok hset
    rcases contains_put hs hk with hshape | hk | hk
    · exact .inl ⟨inner, hi, hshape⟩
    · exact .inl (.of_contains (hi.trans hk))
    · exact .inr (Value.contains_of_coerce hc hk)

theorem shapeIn_copyAt (h : i.modifyAt source.copyTo path = .ok j)
    (hk : (Value.entity j).Contains k) :
    k.ShapeIn (.entity i) ∨ (Value.entity source).Contains k := by
  rcases shapeIn_modifyAt h hk with hshape | ⟨inner, inner', -, hcopy, hk⟩
  · exact .inl hshape
  · obtain ⟨-, rfl⟩ := copyTo_eq_ok_iff.1 hcopy
    exact .inr hk

theorem contains_of_follow (h : i.follow path = .ok j) : (Value.entity i).Contains j := by
  induction path generalizing i with
  | nil =>
    cases h
    exact .here _
  | cons field path ih =>
    obtain ⟨inner, hn, h⟩ := follow_cons_eq_ok h
    obtain ⟨slot, hs, hv⟩ := nested_eq_ok hn
    have hmem : slot ∈ i.slots := List.mem_of_find?_eq_some (slot_eq_ok_iff.1 hs)
    exact .slot hmem (hv ▸ ih h)

end Record

namespace Catalog

variable {c d : Catalog} {i j : Instance}

/-- The fields of the instance are those declared for its entity, in their order. -/
def Describes (c : Catalog) (i : Instance) : Prop :=
  ∃ e, c.find? i.entity = some e ∧ Record.shape i.slots = e.fields.map fun f ↦ (f.name, f.ty)

theorem Describes.of_sameShape (h : c.Describes i) (hs : i.sameShape j) : c.Describes j := by
  obtain ⟨e, hf, he⟩ := h
  obtain ⟨hentity, hshape⟩ := Record.sameShape_iff.1 hs
  exact ⟨e, hentity ▸ hf, hshape ▸ he⟩

theorem Describes.sameShape_iff (hi : c.Describes i) (hj : c.Describes j) :
    i.sameShape j ↔ i.entity = j.entity := by
  rw [Record.sameShape_iff]
  constructor
  · exact And.left
  · intro hentity
    obtain ⟨e, hf, hi⟩ := hi
    obtain ⟨e', hf', hj⟩ := hj
    rw [hentity] at hf
    cases hf.symm.trans hf'
    exact ⟨hentity, hi.trans hj.symm⟩

theorem Describes.of_declare {e : Entity} {id : EntityId} (h : c.Describes i)
    (hd : c.declare e = .ok (id, d)) : d.Describes i := by
  obtain ⟨e', hf, hshape⟩ := h
  unfold declare at hd
  split at hd
  · cases hd
  · cases hd
    refine ⟨e', ?_, hshape⟩
    rw [find?] at hf ⊢
    rw [List.find?_append, hf, Option.some_or]

theorem describes_zeroInstance {name : String} (h : c.zeroInstance name = .ok i)
    (hj : (Value.entity i).Contains j) : c.Describes j := by
  obtain ⟨e, hf, hz⟩ := zeroed_of_contains h j hj
  exact ⟨e, hf, hz.shape_eq⟩

end Catalog

structure Session where
  catalog : Catalog := .empty
  vars : Variables := fun _ ↦ none

namespace Session

variable {s s' : Session} {i j : Instance}

def store (s : Session) (var : String) (i : Instance) : Session :=
  { s with vars := Function.update s.vars var (some i) }

/-- One operation of a session. Instances come from its catalogue as it is at the time; they are
read wherever they stand and written at the end of any path. -/
inductive Step (s : Session) : Session → Prop
  | declare {c : Catalog} {e : Entity} {id : EntityId}
      (h : s.catalog.declare e = .ok (id, c)) : Step s { s with catalog := c }
  | create {name : String} {i : Instance} (var : String)
      (h : s.catalog.zeroInstance name = .ok i) : Step s (s.store var i)
  | set {root root' : Instance} {path : List String} {field : String} {v : Value} (var : String)
      (hv : s.vars.Available v) (hr : s.vars var = some root)
      (h : root.setAt path field v = .ok root') : Step s (s.store var root')
  | copyTo {source root root' : Instance} {path : List String} (var : String)
      (hs : s.vars.Holds source) (hr : s.vars var = some root)
      (h : root.modifyAt source.copyTo path = .ok root') : Step s (s.store var root')
  | assign {source root root' : Instance} {path : List String} (var : String)
      (hs : s.vars.Holds source) (hr : s.vars var = some root)
      (h : root.modifyAt (·.assign source) path = .ok root') : Step s (s.store var root')
  | clone {source : Instance} (var : String) (hs : s.vars.Holds source) :
      Step s (s.store var source.clone)

def Described (s : Session) : Prop :=
  ∀ i, s.vars.Holds i → s.catalog.Describes i

theorem Described.store {var : String} {root : Instance} (h : s.Described)
    (hr : ∀ i, (Value.entity root).Contains i → s.catalog.Describes i) :
    (s.store var root).Described := by
  intro i hi
  rcases Variables.holds_update hi with hi | hi
  · exact h i hi
  · exact hr i hi

theorem Described.of_shapeIn {var : String} {root : Instance} (h : s.Described)
    (hr : s.vars var = some root) (hi : i.ShapeIn (.entity root)) : s.catalog.Describes i := by
  obtain ⟨k, hk, hshape⟩ := hi
  exact (h k ⟨var, root, hr, hk⟩).of_sameShape hshape

theorem Step.described (h : Step s s') (hs : s.Described) : s'.Described := by
  cases h with
  | declare hd => exact fun i hi ↦ (hs i hi).of_declare hd
  | create var hz => exact hs.store fun i ↦ Catalog.describes_zeroInstance hz
  | set var hv hr hset =>
    apply hs.store
    intro i hi
    rcases Record.shapeIn_setAt hset hi with hshape | hi
    · exact hs.of_shapeIn hr hshape
    · exact hs i (hv.holds hi)
  | copyTo var hsource hr hcopy | assign var hsource hr hcopy =>
    apply hs.store
    intro i hi
    rcases Record.shapeIn_copyAt hcopy hi with hshape | hi
    · exact hs.of_shapeIn hr hshape
    · exact hs i (hsource.of_contains hi)
  | clone var hsource =>
    rw [Record.clone_eq]
    exact hs.store fun i hi ↦ hs i (hsource.of_contains hi)

theorem described_of_run (h : ReflTransGen Step {} s) : s.Described := by
  induction h with
  | refl =>
    intro i hi
    obtain ⟨var, root, hr, -⟩ := hi
    cases hr
  | tail _ hstep ih => exact hstep.described ih

theorem Described.exists_copyTo_eq_error_iff (h : s.Described) (hi : s.vars.Holds i)
    (hj : s.vars.Holds j) : (∃ fault, i.copyTo j = .error fault) ↔ i.entity ≠ j.entity := by
  rw [ne_eq, ← (h i hi).sameShape_iff (h j hj)]
  unfold Record.copyTo
  split <;> simp [*]

/-- At any time of a session every instance has just the fields that are declared for its entity.
So copying and assigning, also in place at the end of a path, fail if and only if the entities are
different ones. -/
theorem declared_shape (h : ReflTransGen Step {} s) :
    (∀ i, s.vars.Holds i → ∃ e, s.catalog.find? i.entity = some e ∧
      Record.shape i.slots = e.fields.map fun f ↦ (f.name, f.ty)) ∧
    ∀ i, s.vars.Holds i →
      (∀ j, s.vars.Holds j →
        ((∃ fault, i.copyTo j = .error fault) ↔ i.entity ≠ j.entity) ∧
        ((∃ fault, j.assign i = .error fault) ↔ i.entity ≠ j.entity)) ∧
      ∀ var root path j, s.vars var = some root → root.follow path = .ok j →
        ((∃ fault, root.modifyAt i.copyTo path = .error fault) ↔ i.entity ≠ j.entity) ∧
        ((∃ fault, root.modifyAt (·.assign i) path = .error fault) ↔ i.entity ≠ j.entity) := by
  have hs := described_of_run h
  refine ⟨hs, fun i hi ↦ ⟨fun j hj ↦ ?_, fun var root path j hr hpath ↦ ?_⟩⟩
  · have hfails := hs.exists_copyTo_eq_error_iff hi hj
    exact ⟨hfails, hfails⟩
  · have hj : s.vars.Holds j := ⟨var, root, hr, Record.contains_of_follow hpath⟩
    have hfails := hs.exists_copyTo_eq_error_iff hi hj
    rw [← hfails]
    exact ⟨Record.exists_modifyAt_eq_error_iff hpath, Record.exists_modifyAt_eq_error_iff hpath⟩

def tracks : Catalog where
  entities :=
    [⟨"Point", [⟨"x", .primitive .u8, 0⟩], []⟩,
      ⟨"Track", [⟨"start", .entity "Point", 0⟩, ⟨"rest", .list (.entity "Point"), 1⟩], []⟩]

def label : Entity := ⟨"Label", [⟨"text", .primitive .string, 0⟩], []⟩

def pointAt (x : UInt64) : Instance := ⟨"Point", [⟨"x", .primitive .u8, .uint x⟩]⟩

def trackThrough (start : Instance) (rest : List Instance) : Instance :=
  ⟨"Track", [⟨"start", .entity "Point", .entity start⟩,
    ⟨"rest", .list (.entity "Point"), .list (rest.map .entity)⟩]⟩

theorem zeroInstance_tracks : tracks.zeroInstance "Track" = .ok (trackThrough (pointAt 0) []) := by
  have hr : tracks.resolve "Track" = .ok ⟨"Track",
      [⟨"start", .entity "Point", 0⟩, ⟨"rest", .list (.entity "Point"), 1⟩], []⟩ := by
    decide +kernel
  have hf : tracks.find? "Point" = some ⟨"Point", [⟨"x", .primitive .u8, 0⟩], []⟩ := rfl
  rw [Catalog.zeroInstance_of_resolve hr, Catalog.zeroSlots_cons, Catalog.zeroSlots_cons,
    Catalog.zeroSlots]
  simp only [Catalog.zeroValue, hf]
  rw [if_neg (by decide), Catalog.zeroSlots_cons, Catalog.zeroSlots]
  rfl

def created : Session :=
  Session.store { catalog := tracks } "track" (trackThrough (pointAt 0) [])

def moved : Session :=
  (created.store "point" (pointAt 0)).store "point" (pointAt 7)

def extended : Session :=
  { moved.store "track" (trackThrough (pointAt 0) [pointAt 7]) with
    catalog := ⟨tracks.entities ++ [label]⟩ }

theorem run_moved : ReflTransGen Step {} moved := by
  have hpoint : Catalog.declare .empty tracks.entities[0] = .ok (⟨0⟩, ⟨[tracks.entities[0]]⟩) := rfl
  have htrack : Catalog.declare ⟨[tracks.entities[0]]⟩ tracks.entities[1] = .ok (⟨1⟩, tracks) := rfl
  have hstart : created.vars.Holds (pointAt 0) :=
    ⟨"track", trackThrough (pointAt 0) [], rfl, .slot List.mem_cons_self (.here _)⟩
  have hset : (pointAt 0).setAt [] "x" (.int 7) = .ok (pointAt 7) := rfl
  have hcreated : ReflTransGen Step {} created :=
    .tail (.tail (.single (.declare hpoint)) (.declare htrack))
      (.create "track" zeroInstance_tracks)
  exact .tail (.tail hcreated (.clone "point" hstart)) (.set "point" (.int 7) rfl hset)

theorem run_extended : ReflTransGen Step {} extended := by
  have hpoint : moved.vars.Holds (pointAt 7) := ⟨"point", pointAt 7, rfl, .here _⟩
  have hrest : moved.vars.Available (.list [.entity (pointAt 7).clone]) :=
    .list (List.forall_mem_singleton.2 (.entity hpoint))
  have hset : (trackThrough (pointAt 0) []).setAt [] "rest" (.list [.entity (pointAt 7).clone]) =
      .ok (trackThrough (pointAt 0) [pointAt 7]) := rfl
  have hlabel : tracks.declare label = .ok (⟨2⟩, ⟨tracks.entities ++ [label]⟩) := rfl
  exact .tail (.tail run_moved (.set "track" hrest rfl hset)) (.declare hlabel)

/-- A point that was put into the list of a track is as declared, also after more was declared. It
can be copied over the start of the track, and the track cannot be copied over it. -/
theorem declared_shape_in_list : ReflTransGen Step {} extended ∧
    extended.vars.Holds (pointAt 7) ∧ extended.catalog.Describes (pointAt 7) ∧
    (¬∃ fault, (trackThrough (pointAt 0) [pointAt 7]).modifyAt (pointAt 7).copyTo ["start"] =
      .error fault) ∧
    ∃ fault, (trackThrough (pointAt 0) [pointAt 7]).copyTo (pointAt 7) = .error fault := by
  have htrack : extended.vars "track" = some (trackThrough (pointAt 0) [pointAt 7]) := rfl
  have hheld : extended.vars.Holds (pointAt 7) :=
    ⟨"track", _, htrack, .slot (List.mem_cons_of_mem _ List.mem_cons_self)
      (.item List.mem_cons_self (.here _))⟩
  obtain ⟨hshape, hcopy⟩ := declared_shape run_extended
  refine ⟨run_extended, hheld, hshape _ hheld, ?_, ?_⟩
  · rw [((hcopy _ hheld).2 "track" _ ["start"] (pointAt 0) htrack rfl).1]
    exact absurd rfl
  · rw [((hcopy _ ⟨"track", _, htrack, .here _⟩).1 _ hheld).1]
    decide

end Session

end ValueContract
