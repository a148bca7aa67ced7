import ValueContract.Proofs.DefaultConstruction
import ValueContract.Proofs.EmissionFaults

namespace ValueContract

namespace TypeExpr

variable {ty : TypeExpr} {kind : Primitive}

theorem primitive?_eq_some_iff : ty.primitive? = some kind ↔ ty.element = .primitive kind := by
  unfold primitive?
  cases ty.element <;> simp

theorem exists_spelling_iff :
    (∃ text, ty.spelling = .ok text) ↔ ty.element ≠ .primitive .void := by
  simp [exists_ok_iff, spelling_eq_error_iff]

theorem exists_zeroSpelling_iff :
    (∃ text, ty.zeroSpelling = .ok text) ↔ ty.element ≠ .primitive .void := by
  simp [exists_ok_iff, zeroSpelling_eq_error_iff]

/-- An entity has no zero of its own, as it takes a catalogue to build one. -/
theorem exists_zero_iff (h : ∀ name, ty ≠ .entity name) :
    (∃ zero, Value.zero? ty = some zero) ↔ ty.element ≠ .primitive .void := by
  rw [← Option.isSome_iff_exists, Option.isSome_iff_ne_none, ne_eq, Value.zero?_eq_none_iff,
    primitive?_eq_some_iff, or_iff_right]
  rintro ⟨name, rfl⟩
  exact h name rfl

theorem zeroSpelling_list (inner : TypeExpr) :
    (list inner).zeroSpelling = (· ++ "()") <$> (list inner).spelling := by
  rw [zeroSpelling]
  · cases (list inner).spelling <;> rfl
  · simp

theorem zero?_list {inner : TypeExpr} {zero : Value} (h : Value.zero? (list inner) = some zero) :
    zero = .list [] := by
  rw [Value.zero?] at h
  split at h <;> cases h
  rfl

/-- A type other than an entity is spelled, has its zero spelled and has a zero value if and only if
its element is not `void`, and `void` is what stands in the way otherwise. The zero of a list is
spelled by its type with `()` and is the empty list. -/
theorem storable_iff_element (ty : TypeExpr) (h : ∀ name, ty ≠ .entity name) :
    ((∃ text, ty.spelling = .ok text) ↔ ∃ text, ty.zeroSpelling = .ok text) ∧
    ((∃ text, ty.zeroSpelling = .ok text) ↔ ∃ zero, Value.zero? ty = some zero) ∧
    ((∃ zero, Value.zero? ty = some zero) ↔ ty.element ≠ .primitive .void) ∧
    (∀ kind, ty.spelling = .error kind ∨ ty.zeroSpelling = .error kind → kind = .void) ∧
    ∀ inner, ty = .list inner → ty.zeroSpelling = (· ++ "()") <$> ty.spelling ∧
      ∀ zero, Value.zero? ty = some zero → zero = .list [] := by
  refine ⟨exists_spelling_iff.trans exists_zeroSpelling_iff.symm,
    exists_zeroSpelling_iff.trans (exists_zero_iff h).symm, exists_zero_iff h, ?_, ?_⟩
  · rintro kind (hkind | hkind)
    · exact (spelling_eq_error_iff.1 hkind).2.symm
    · exact (zeroSpelling_eq_error_iff.1 hkind).2.symm
  · rintro inner rfl
    exact ⟨zeroSpelling_list inner, fun zero ↦ zero?_list⟩

theorem layers_storable_iff :
    (list (list (entity "Point"))).zeroSpelling = .ok "std::vector<std::vector<Point>>()" ∧
    Value.zero? (list (list (entity "Point"))) = some (.list []) ∧
    (list (list (primitive .void))).spelling = .error .void ∧
    ¬∃ zero, Value.zero? (list (list (primitive .void))) = some zero := by
  obtain ⟨-, -, hzero, -, hlist⟩ := storable_iff_element (list (list (entity "Point"))) (by simp)
  obtain ⟨hspelled, hzeroSpelled, -⟩ :=
    storable_iff_element (list (list (primitive .void))) (by simp)
  obtain ⟨hempty, hunique⟩ := hlist _ rfl
  obtain ⟨zero, hz⟩ := hzero.2 (by decide)
  refine ⟨hempty, hunique zero hz ▸ hz, rfl, ?_⟩
  rw [← hzeroSpelled, ← hspelled]
  rintro ⟨text, ⟨⟩⟩

end TypeExpr

end ValueContract
