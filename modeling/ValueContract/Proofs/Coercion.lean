import ValueContract.Proofs.SinglePrecision
import ValueContract.Proofs.TypedStorage
import ValueContract.Value.Coerce

namespace ValueContract

variable {v w : Value} {ty : TypeExpr} {kind : Primitive} {m : Int}

namespace Primitive

theorem Covers.category_eq (h : kind.Covers m) : kind.category = .integer := by
  obtain ⟨width, hw, -⟩ := h
  cases kind <;> simp_all [width?, category]

theorem category_eq_integer_iff : kind.category = .integer ↔ kind.isSigned ∨ kind.isUnsigned := by
  cases kind <;> simp [category, isSigned, isUnsigned]

theorem not_isSigned (hu : kind.isUnsigned) : ¬kind.isSigned := by
  cases kind <;> simp_all [isSigned, isUnsigned]

theorem not_isUnsigned (hs : kind.isSigned) : ¬kind.isUnsigned :=
  fun hu ↦ not_isSigned hu hs

end Primitive

namespace Value

/-- The value can be stored in a field of the type, integers in the form that the field keeps. -/
def Convertible : TypeExpr → Value → Prop
  | .primitive kind, .int n => kind.Covers n.toInt
  | .primitive kind, .uint n => kind.Covers n.toNat
  | .primitive kind, .float _ => kind.category = .float
  | .primitive kind, .bool _ => kind.category = .boolean
  | .primitive kind, .text _ => kind.category = .text
  | .list inner, .list items => ∀ v ∈ items, Convertible inner v
  | .entity name, .entity i => i.entity = name
  | _, _ => False

/-- The second value is what a field of the kind keeps of the first: the same integer in the form of
the kind, the number rounded to single precision, or the value itself. -/
def KeptAs (kind : Primitive) (v : Value) : Value → Prop
  | .int n => kind.isSigned ∧ v.integer? = some n.toInt
  | .uint n => kind.isUnsigned ∧ v.integer? = some (n.toNat : Int)
  | .float x => ∃ y, v = .float y ∧ x = if kind = .f32 then y.narrow.widen else y
  | w => v = w

def StoredAs : TypeExpr → Value → Value → Prop
  | .primitive kind, v, w => KeptAs kind v w
  | .list inner, .list items, .list stored => List.Forall₂ (StoredAs inner) items stored
  | .entity _, v, w => v = w
  | _, _, _ => False

theorem ofInteger?_eq_some_iff :
    ofInteger? kind m = some w ↔ w.FitsKind kind ∧ w.integer? = some m := by
  constructor
  · exact fitsKind_of_ofInteger?
  · rintro ⟨hfits, hm⟩
    cases w with
    | int n =>
      obtain ⟨hs, hcovers⟩ := hfits
      obtain ⟨⟨least, greatest⟩, hr, hbounds⟩ := Primitive.covers_iff_range?.1 hcovers
      cases hm
      simp [ofInteger?, hr, hs, hbounds]
    | uint n =>
      obtain ⟨hu, hcovers⟩ := hfits
      obtain ⟨⟨least, greatest⟩, hr, hbounds⟩ := Primitive.covers_iff_range?.1 hcovers
      cases hm
      simp [ofInteger?, hr, Primitive.not_isSigned hu, hbounds]
    | _ => cases hm

theorem exists_ofInteger?_iff : (∃ w, ofInteger? kind m = some w) ↔ kind.Covers m := by
  rw [Primitive.covers_iff_range?, ofInteger?]
  cases kind.range? with
  | none => simp
  | some bounds => by_cases h : bounds.1 ≤ m ∧ m ≤ bounds.2 <;> simp [h]

theorem coercePrimitive_of_integer (hk : kind.category = .integer) (v : Value) :
    coercePrimitive kind v = v.integer? >>= ofInteger? kind := by
  simp only [coercePrimitive, hk]

theorem coercePrimitive_of_fitsKind (h : v.FitsKind kind) : coercePrimitive kind v = some v := by
  cases v with
  | int n =>
    rw [coercePrimitive_of_integer (Primitive.category_eq_integer_iff.2 (.inl h.1))]
    exact ofInteger?_eq_some_iff.2 ⟨h, rfl⟩
  | uint n =>
    rw [coercePrimitive_of_integer (Primitive.category_eq_integer_iff.2 (.inr h.1))]
    exact ofInteger?_eq_some_iff.2 ⟨h, rfl⟩
  | float x =>
    obtain rfl | ⟨rfl, y, rfl⟩ := h
    · rfl
    · exact congrArg (fun x ↦ some (float x)) y.widen_narrow_widen
  | bool b | text s =>
    cases h
    rfl
  | list items | entity i => cases h

theorem coerce_of_fits (h : v.Fits ty) : v.coerce ty = some v := by
  induction ty generalizing v with
  | primitive kind => exact coercePrimitive_of_fitsKind h
  | entity name =>
    cases v with
    | entity i => exact if_pos h
    | _ => cases h
  | list inner ih =>
    cases v with
    | list items =>
      have hitems : items.mapM (coerce inner) = some items :=
        mapM_eq_some_iff.2 (List.forall₂_same.2 fun v hv ↦ ih (h v hv))
      rw [coerce, hitems]
      rfl
    | _ => cases h

theorem exists_coercePrimitive_iff :
    (∃ w, coercePrimitive kind v = some w) ↔ v.Convertible (.primitive kind) := by
  by_cases hk : kind.category = .integer
  · rw [coercePrimitive_of_integer hk]
    cases v with
    | int n | uint n => exact exists_ofInteger?_iff
    | _ => simp [integer?, Convertible, hk]
  · have hcovers : ∀ m, ¬kind.Covers m := fun m hm ↦ hk hm.category_eq
    cases v <;> cases hc : kind.category <;> simp_all [coercePrimitive, Convertible]

theorem exists_coerce_iff : (∃ w, v.coerce ty = some w) ↔ v.Convertible ty := by
  induction ty generalizing v with
  | primitive kind => exact exists_coercePrimitive_iff
  | entity name => cases v <;> simp [coerce, Convertible]
  | list inner ih =>
    cases v with
    | list items =>
      have hmap : (∃ w, coerce (.list inner) (.list items) = some w) ↔
          ∃ stored, items.mapM (coerce inner) = some stored := by
        simp [coerce]
      simp only [hmap, mapM_eq_some_iff, Convertible, ← ih]
      constructor
      · rintro ⟨stored, hstored⟩ v hv
        obtain ⟨w, -, hw⟩ := exists_of_forall₂ hstored hv
        exact ⟨w, hw⟩
      · exact exists_forall₂
    | _ => simp [coerce, Convertible]

theorem keptAs_of_coercePrimitive (h : coercePrimitive kind v = some w) : KeptAs kind v w := by
  unfold coercePrimitive at h
  split at h
  · obtain ⟨m, hv, hm⟩ := Option.bind_eq_some_iff.1 h
    obtain ⟨hfits, hw⟩ := ofInteger?_eq_some_iff.1 hm
    cases w with
    | int n | uint n => exact ⟨hfits.1, hv.trans hw.symm⟩
    | _ => cases hw
  · next x _ =>
    cases h
    exact ⟨x, rfl, rfl⟩
  · cases h
    rfl
  · cases h
    rfl
  · cases h

theorem storedAs_of_coerce (h : v.coerce ty = some w) : StoredAs ty v w := by
  induction ty generalizing v w with
  | primitive kind => exact keptAs_of_coercePrimitive h
  | entity name =>
    cases v with
    | entity i =>
      rw [coerce, Option.ite_none_right_eq_some, Option.some.injEq] at h
      exact h.2
    | _ => cases h
  | list inner ih =>
    cases v with
    | list items =>
      obtain ⟨stored, hs, rfl⟩ := Option.map_eq_some_iff.1 h
      exact (mapM_eq_some_iff.1 hs).imp fun v w ↦ ih
    | _ => cases h

theorem admitsSigned_iff {n : Int64} (hs : kind.isSigned) :
    kind.admitsSigned n ↔ kind.Covers n.toInt := by
  have hleast := n.le_toInt
  have hgreatest := n.toInt_lt
  cases kind <;> simp [Primitive.isSigned] at hs <;>
    simp [Primitive.admitsSigned, Primitive.Covers, Primitive.width?, Primitive.isSigned,
      Int64.le_iff_toInt_le]
  all_goals omega

theorem admitsUnsigned_iff {n : UInt64} (hu : kind.isUnsigned) :
    kind.admitsUnsigned n ↔ kind.Covers n.toNat := by
  have hgreatest := n.toNat_lt
  cases kind <;> simp [Primitive.isUnsigned] at hu <;>
    simp [Primitive.admitsUnsigned, Primitive.Covers, Primitive.width?, Primitive.isSigned,
      UInt64.le_iff_toNat_le]
  all_goals omega

theorem toInt_toInt64 (n : UInt64) : n.toInt64.toInt =
    if n.toNat ≤ 0x7FFFFFFFFFFFFFFF then (n.toNat : Int) else n.toNat - 0x10000000000000000 := by
  have hcond : n.toInt64.toInt =
      if 2 * n.toNat < 0x10000000000000000 then (n.toNat : Int)
      else n.toNat - (0x10000000000000000 : Nat) := BitVec.toInt_eq_toNat_cond n.toBitVec
  rw [hcond]
  split <;> split <;> omega

theorem signedWord?_eq_some_iff {n : UInt64} {k : Int64} :
    signedWord? n = some k ↔ (n.toNat : Int) = k.toInt := by
  have hword := toInt_toInt64 n
  have hlimit : n ≤ 0x7FFFFFFFFFFFFFFF ↔ n.toNat ≤ 0x7FFFFFFFFFFFFFFF := UInt64.le_iff_toNat_le
  rw [signedWord?, Option.ite_none_right_eq_some, Option.some.injEq, hlimit, ← Int64.toInt_inj]
  constructor
  · rintro ⟨hle, hk⟩
    rw [← hk, hword, if_pos hle]
  · intro hk
    have hlt := k.toInt_lt
    have hle : n.toNat ≤ 0x7FFFFFFFFFFFFFFF := by omega
    exact ⟨hle, by rw [hword, if_pos hle, hk]⟩

theorem unsignedWord?_eq_some_iff {n : Int64} {k : UInt64} :
    unsignedWord? n = some k ↔ n.toInt = k.toNat := by
  have hword := toInt_toInt64 n.toUInt64
  have hlt := n.toUInt64.toNat_lt
  have hsign : 0 ≤ n ↔ 0 ≤ n.toInt := Int64.le_iff_toInt_le
  change n.toInt = _ at hword
  rw [unsignedWord?, Option.ite_none_right_eq_some, Option.some.injEq, hsign, ← UInt64.toNat_inj]
  split at hword <;> omega

theorem fitsKind_signed_iff (hs : kind.isSigned) : w.FitsKind kind ∧ w.integer? = some m ↔
    ∃ n, n.toInt = m ∧ kind.Covers n.toInt ∧ int n = w := by
  cases w with
  | int n => simp [FitsKind, integer?, hs, and_comm]
  | uint n => simp [FitsKind, Primitive.not_isUnsigned hs]
  | _ => simp [integer?]

theorem fitsKind_unsigned_iff (hu : kind.isUnsigned) : w.FitsKind kind ∧ w.integer? = some m ↔
    ∃ n : UInt64, (n.toNat : Int) = m ∧ kind.Covers n.toNat ∧ uint n = w := by
  cases w with
  | int n => simp [FitsKind, Primitive.not_isSigned hu]
  | uint n => simp [FitsKind, integer?, hu, and_comm]
  | _ => simp [integer?]

theorem storeWord?_eq_some_iff (hk : kind.category = .integer) : v.storeWord? kind = some w ↔
    ∃ m, v.integer? = some m ∧ w.FitsKind kind ∧ w.integer? = some m := by
  rcases Primitive.category_eq_integer_iff.1 hk with hs | hu
  · simp only [fitsKind_signed_iff hs]
    cases v with
    | int n => simp [storeWord?, hs, integer?, admitsSigned_iff hs, Int64.toInt_inj]
    | uint n =>
      simp [storeWord?, hs, integer?, Option.filter_eq_some_iff, admitsSigned_iff hs,
        signedWord?_eq_some_iff, and_assoc]
    | _ => simp [storeWord?, integer?]
  · have hs := Primitive.not_isSigned hu
    simp only [fitsKind_unsigned_iff hu]
    cases v with
    | int n =>
      simp [storeWord?, hs, integer?, Option.filter_eq_some_iff, admitsUnsigned_iff hu,
        unsignedWord?_eq_some_iff, and_assoc]
    | uint n =>
      simp only [storeWord?, hs, Bool.false_eq_true, if_false, admitsUnsigned_iff hu,
        Option.ite_none_right_eq_some, Option.some.injEq, integer?, exists_eq_left,
        exists_eq_left', Int.natCast_inj, UInt64.toNat_inj]
    | _ => simp [storeWord?, integer?]

theorem storeWord?_eq (hk : kind.category = .integer) (v : Value) :
    v.storeWord? kind = v.coerce (.primitive kind) := by
  rw [coerce, coercePrimitive_of_integer hk]
  apply Option.ext
  intro w
  simp only [storeWord?_eq_some_iff hk, ← ofInteger?_eq_some_iff, Option.bind_eq_bind,
    Option.bind_eq_some_iff]

/-- Coercion is exact: just what can be converted is stored, an integer as the same number in the
form of the kind, a list item by item and an instance as it is, and what is stored does not change
when it is stored again. Integers are stored as by their words. -/
theorem coercion_exact (ty : TypeExpr) (v : Value) :
    ((∃ w, v.coerce ty = some w) ↔ v.Convertible ty) ∧
    (∀ w, v.coerce ty = some w → StoredAs ty v w ∧ w.coerce ty = some w) ∧
    ∀ kind : Primitive, kind.category = .integer →
      v.coerce (.primitive kind) = v.storeWord? kind := by
  refine ⟨exists_coerce_iff, ?_, fun kind hk ↦ (storeWord?_eq hk v).symm⟩
  intro w h
  exact ⟨storedAs_of_coerce h, coerce_of_fits (fits_of_coerce h)⟩

end Value

end ValueContract
