import Mathlib.Data.List.Forall2
import ValueContract.Proofs.Copying

namespace ValueContract

variable {x y z : Binary64} {u v w : Value} {i j k : Instance}

namespace Binary64

theorem equal_iff : x.equal y ↔
    ¬x.isNaN ∧ ¬y.isNaN ∧ (x = y ∨ x.magnitude = 0 ∧ y.magnitude = 0) := by
  have hbits : x.bits = y.bits ↔ x = y := by
    cases x
    cases y
    simp
  simp [equal, hbits, and_assoc]

theorem equal_symm (h : x.equal y) : y.equal x := by
  rw [equal_iff] at h ⊢
  obtain ⟨hx, hy, h⟩ := h
  exact ⟨hy, hx, h.imp Eq.symm And.symm⟩

theorem equal_trans (h : x.equal y) (h' : y.equal z) : x.equal z := by
  rw [equal_iff] at h h' ⊢
  obtain ⟨hx, -, rfl | hzero⟩ := h
  · exact h'
  · obtain ⟨hy, hz, rfl | hzero'⟩ := h'
    · exact ⟨hx, hy, .inr hzero⟩
    · exact ⟨hx, hz, .inr ⟨hzero.1, hzero'.2⟩⟩

theorem equal_self_iff : x.equal x ↔ ¬x.isNaN := by
  simp [equal_iff]

end Binary64

section Forall₂

variable {α : Type} {R : α → α → Prop} {as bs cs : List α}

theorem forall₂_symm (hs : ∀ a ∈ as, ∀ b, R a b → R b a) (h : List.Forall₂ R as bs) :
    List.Forall₂ R bs as := by
  induction h with
  | nil => exact .nil
  | cons hab _ ih =>
    obtain ⟨hfirst, hrest⟩ := List.forall_mem_cons.1 hs
    exact .cons (hfirst _ hab) (ih hrest)

theorem forall₂_trans (ht : ∀ a ∈ as, ∀ b c, R a b → R b c → R a c) (h : List.Forall₂ R as bs)
    (h' : List.Forall₂ R bs cs) : List.Forall₂ R as cs := by
  induction h generalizing cs with
  | nil => exact h'
  | cons hab _ ih =>
    obtain ⟨hfirst, hrest⟩ := List.forall_mem_cons.1 ht
    cases h' with
    | cons hbc h' => exact .cons (hfirst _ _ hab hbc) (ih hrest h')

end Forall₂

/-- A number somewhere inside the value is a not-a-number. -/
inductive Value.HasNaN : Value → Prop
  | float {x : Binary64} (h : x.isNaN) : HasNaN (.float x)
  | item {items : List Value} {v : Value} (hv : v ∈ items) (h : v.HasNaN) : HasNaN (.list items)
  | slot {i : Instance} {slot : Slot Value} (hs : slot ∈ i.slots) (h : slot.value.HasNaN) :
      HasNaN (.entity i)

namespace Value

theorem hasNaN_float_iff : (float x).HasNaN ↔ x.isNaN := by
  constructor
  · intro h
    cases h with
    | float h => exact h
  · exact .float

theorem hasNaN_list_iff {items : List Value} : (list items).HasNaN ↔ ∃ v ∈ items, v.HasNaN := by
  constructor
  · intro h
    cases h with
    | item hv h => exact ⟨_, hv, h⟩
  · intro h
    obtain ⟨v, hv, h⟩ := h
    exact .item hv h

theorem hasNaN_entity_iff : (entity i).HasNaN ↔ ∃ slot ∈ i.slots, slot.value.HasNaN := by
  constructor
  · intro h
    cases h with
    | slot hs h => exact ⟨_, hs, h⟩
  · intro h
    obtain ⟨slot, hs, h⟩ := h
    exact .slot hs h

end Value

def Slot.Agrees (s t : Slot Value) : Prop :=
  s.name = t.name ∧ s.value.equal t.value

theorem Record.equalSlots_iff {slots slots' : List (Slot Value)} :
    equalSlots slots slots' ↔ List.Forall₂ Slot.Agrees slots slots' := by
  induction slots generalizing slots' with
  | nil => cases slots' <;> simp [equalSlots]
  | cons slot slots ih => cases slots' <;> simp [equalSlots, Slot.Agrees, ih]

theorem Record.equal_iff : i.equal j ↔
    i.entity = j.entity ∧ List.Forall₂ Slot.Agrees i.slots j.slots := by
  obtain ⟨entity, slots⟩ := i
  obtain ⟨entity', slots'⟩ := j
  simp [equal, equalSlots_iff]

namespace Value

theorem equalItems_iff {xs ys : List Value} :
    equalItems xs ys ↔ List.Forall₂ (fun x y ↦ x.equal y) xs ys := by
  induction xs generalizing ys with
  | nil => cases ys <;> simp [equalItems]
  | cons x xs ih => cases ys <;> simp [equalItems, ih]

theorem equal_symm (h : v.equal w) : w.equal v := by
  induction v generalizing w with
  | float x =>
    cases w with
    | float y => exact Binary64.equal_symm h
    | _ => cases h
  | list xs ih =>
    cases w with
    | list ys =>
      rw [equal, equalItems_iff] at h ⊢
      exact forall₂_symm (fun x hx y ↦ ih x hx) h
    | _ => cases h
  | entity i ih =>
    cases w with
    | entity j =>
      rw [equal, Record.equal_iff] at h ⊢
      obtain ⟨hentity, hslots⟩ := h
      refine ⟨hentity.symm, forall₂_symm ?_ hslots⟩
      intro s hs t hst
      exact ⟨hst.1.symm, ih s hs hst.2⟩
    | _ => cases h
  | int n | uint n | bool b | text s =>
    cases w <;> simp [equal] at h ⊢
    exact h.symm

theorem equal_trans (h : u.equal v) (h' : v.equal w) : u.equal w := by
  induction u generalizing v w with
  | float x =>
    cases v with
    | float y =>
      cases w with
      | float z => exact Binary64.equal_trans h h'
      | _ => cases h'
    | _ => cases h
  | list xs ih =>
    cases v with
    | list ys =>
      cases w with
      | list zs =>
        rw [equal, equalItems_iff] at h h' ⊢
        exact forall₂_trans (fun x hx y z ↦ ih x hx) h h'
      | _ => cases h'
    | _ => cases h
  | entity i ih =>
    cases v with
    | entity j =>
      cases w with
      | entity k =>
        rw [equal, Record.equal_iff] at h h' ⊢
        refine ⟨h.1.trans h'.1, forall₂_trans ?_ h.2 h'.2⟩
        intro r hr s t hrs hst
        exact ⟨hrs.1.trans hst.1, ih r hr hrs.2 hst.2⟩
      | _ => cases h'
    | _ => cases h
  | int n | uint n | bool b | text s =>
    cases v <;> simp [equal] at h
    exact h ▸ h'

theorem equal_self_iff : v.equal v ↔ ¬v.HasNaN := by
  induction v with
  | float x => rw [hasNaN_float_iff, equal, Binary64.equal_self_iff]
  | list items ih =>
    rw [hasNaN_list_iff, equal, equalItems_iff, List.forall₂_same]
    simp only [not_exists, not_and]
    exact forall₂_congr ih
  | entity i ih =>
    rw [hasNaN_entity_iff, equal, Record.equal_iff, List.forall₂_same]
    simp only [true_and, not_exists, not_and, Slot.Agrees]
    exact forall₂_congr ih
  | _ =>
    simp only [equal, decide_true, true_iff]
    exact nofun

end Value

namespace Record

theorem equal_entity : (Value.entity i).equal (.entity j) = i.equal j := by
  rw [Value.equal]

theorem equal_symm (h : i.equal j) : j.equal i := by
  rw [← equal_entity] at h ⊢
  exact Value.equal_symm h

theorem equal_trans (h : i.equal j) (h' : j.equal k) : i.equal k := by
  rw [← equal_entity] at h h' ⊢
  exact Value.equal_trans h h'

theorem equal_self_iff : i.equal i ↔ ¬(Value.entity i).HasNaN := by
  rw [← equal_entity, Value.equal_self_iff]

end Record

/-- Equality is a partial equivalence on values and on instances. What is equal to itself, and to
its clone, is just what holds no not-a-number. -/
theorem equality_laws :
    (∀ v w : Value, v.equal w → w.equal v) ∧
    (∀ u v w : Value, u.equal v → v.equal w → u.equal w) ∧
    (∀ v : Value, v.equal v ↔ ¬v.HasNaN) ∧
    (∀ i j : Instance, i.equal j → j.equal i) ∧
    (∀ i j k : Instance, i.equal j → j.equal k → i.equal k) ∧
    ∀ i : Instance, (i.equal i ↔ ¬(Value.entity i).HasNaN) ∧
      (i.clone.equal i ↔ ¬(Value.entity i).HasNaN) := by
  refine ⟨fun _ _ ↦ Value.equal_symm, fun _ _ _ ↦ Value.equal_trans, fun _ ↦ Value.equal_self_iff,
    fun _ _ ↦ Record.equal_symm, fun _ _ _ ↦ Record.equal_trans, fun i ↦ ?_⟩
  rw [Record.clone_eq]
  exact ⟨Record.equal_self_iff, Record.equal_self_iff⟩

def Binary64.negativeZero : Binary64 := ⟨0x8000000000000000⟩

def Record.series (samples : List Binary64) : Instance :=
  ⟨"Series", [⟨"samples", .list (.primitive .f64), .list (samples.map .float)⟩]⟩

/-- The zeros of both signs are equal in either order, and a sample that is not a number sets a
series apart from its clone. -/
theorem Record.equality_of_series : (series [.zero]).equal (series [.negativeZero]) ∧
    (series [.negativeZero]).equal (series [.zero]) ∧
    (series [.negativeZero]).equal (series [.negativeZero]) ∧
    ¬(series [.zero, .nan]).clone.equal (series [.zero, .nan]) := by
  obtain ⟨-, -, -, hsymm, htrans, hself⟩ := equality_laws
  have hzeros : (series [.zero]).equal (series [.negativeZero]) := by decide
  have hback := hsymm _ _ hzeros
  have hnan : (Value.entity (series [.zero, .nan])).HasNaN := by
    apply Value.HasNaN.slot List.mem_cons_self
    exact .item (List.mem_cons_of_mem _ List.mem_cons_self) (.float (by decide))
  exact ⟨hzeros, hback, htrans _ _ _ hback hzeros, fun h ↦ (hself _).2.1 h hnan⟩

end ValueContract
