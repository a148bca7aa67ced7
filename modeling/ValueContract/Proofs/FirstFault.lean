import ValueContract.Proofs.Fallible

namespace ValueContract

variable {ε α β : Type}

/-- The item has the property and none before it does. -/
def FirstWith (p : α → Prop) (items : List α) (a : α) : Prop :=
  ∃ before after, items = before ++ a :: after ∧ (∀ b ∈ before, ¬p b) ∧ p a

section First

variable {p : α → Prop} {items more : List α} {a first : α}

theorem FirstWith.mem (h : FirstWith p items a) : a ∈ items ∧ p a := by
  obtain ⟨before, after, rfl, -, ha⟩ := h
  exact ⟨by simp, ha⟩

theorem firstWith_cons_iff : FirstWith p (first :: items) a ↔
    (p first ∧ a = first) ∨ (¬p first ∧ FirstWith p items a) := by
  constructor
  · intro h
    obtain ⟨before, after, hitems, hbefore, ha⟩ := h
    cases before with
    | nil =>
      obtain ⟨rfl, rfl⟩ := List.cons.inj hitems
      exact .inl ⟨ha, rfl⟩
    | cons b before =>
      obtain ⟨rfl, rfl⟩ := List.cons.inj hitems
      obtain ⟨hb, hbefore⟩ := List.forall_mem_cons.1 hbefore
      exact .inr ⟨hb, before, after, rfl, hbefore, ha⟩
  · rintro (⟨hp, rfl⟩ | ⟨hp, before, after, rfl, hbefore, ha⟩)
    · exact ⟨[], items, rfl, by simp, hp⟩
    · exact ⟨first :: before, after, rfl, List.forall_mem_cons.2 ⟨hp, hbefore⟩, ha⟩

theorem exists_firstWith_iff : (∃ a, FirstWith p items a) ↔ ∃ a ∈ items, p a := by
  induction items with
  | nil => simp [FirstWith]
  | cons first items ih =>
    simp only [firstWith_cons_iff, List.exists_mem_cons_iff, ← ih]
    by_cases hp : p first <;> simp [hp]

theorem firstWith_append_iff : FirstWith p (items ++ more) a ↔
    FirstWith p items a ∨ ((∀ b ∈ items, ¬p b) ∧ FirstWith p more a) := by
  induction items with
  | nil => simp [FirstWith]
  | cons first items ih =>
    rw [List.cons_append, firstWith_cons_iff, firstWith_cons_iff, ih, List.forall_mem_cons,
      and_or_left, or_assoc, and_assoc]

/-- The first among the parts of some items is the first among the parts of the first item that has
one. -/
theorem firstWith_flatMap_iff {parts : β → List α} {owners : List β} :
    FirstWith p (owners.flatMap parts) a ↔
      ∃ b, FirstWith (fun b ↦ ∃ x ∈ parts b, p x) owners b ∧ FirstWith p (parts b) a := by
  induction owners with
  | nil => simp [FirstWith]
  | cons owner owners ih =>
    simp only [List.flatMap_cons, firstWith_append_iff, ih, firstWith_cons_iff]
    constructor
    · rintro (h | ⟨hnone, b, hb, h⟩)
      · exact ⟨owner, .inl ⟨⟨a, h.mem⟩, rfl⟩, h⟩
      · exact ⟨b, .inr ⟨by simpa using hnone, hb⟩, h⟩
    · rintro ⟨b, ⟨-, rfl⟩ | ⟨hnone, hb⟩, h⟩
      · exact .inl h
      · exact .inr ⟨by simpa using hnone, b, hb, h⟩

theorem firstWith_map_iff {f : β → α} {sources : List β} : FirstWith p (sources.map f) a ↔
    ∃ b, FirstWith (fun b ↦ p (f b)) sources b ∧ f b = a := by
  induction sources with
  | nil => simp [FirstWith]
  | cons source sources ih =>
    simp only [List.map_cons, firstWith_cons_iff, ih]
    by_cases hp : p (f source) <;> simp [hp, eq_comm]

theorem find?_eq_some_iff_firstWith {check : α → Bool} (h : ∀ a, check a ↔ p a) :
    items.find? check = some a ↔ FirstWith p items a := by
  simp only [List.find?_eq_some_iff_append, FirstWith, ← h, Bool.not_eq_true, Bool.not_eq_true']
  constructor
  · intro hfirst
    obtain ⟨ha, before, after, hitems, hbefore⟩ := hfirst
    exact ⟨before, after, hitems, hbefore, ha⟩
  · intro hfirst
    obtain ⟨before, after, hitems, hbefore, ha⟩ := hfirst
    exact ⟨ha, before, after, hitems, hbefore⟩

theorem filter_eq_cons_iff_firstWith {check : α → Bool} (h : ∀ a, check a ↔ p a) :
    (∃ rest, items.filter check = a :: rest) ↔ FirstWith p items a := by
  rw [← find?_eq_some_iff_firstWith h, ← List.head?_filter]
  constructor
  · intro hfilter
    obtain ⟨rest, hrest⟩ := hfilter
    rw [hrest, List.head?_cons]
  · exact List.head?_eq_some_iff.1

theorem findSome?_eq_some_iff_firstWith {γ : Type} {f : α → Option β} {q : α → γ → Prop}
    {g : α → γ → β} {b : β} (h : ∀ a b, f a = some b ↔ ∃ x, q a x ∧ g a x = b) :
    items.findSome? f = some b ↔
      ∃ a x, FirstWith (fun a ↦ ∃ x, q a x) items a ∧ q a x ∧ g a x = b := by
  induction items with
  | nil => simp [FirstWith]
  | cons first items ih =>
    simp only [firstWith_cons_iff]
    by_cases hq : ∃ x, q first x
    · obtain ⟨x, hx⟩ := id hq
      have hfirst : f first = some (g first x) := (h _ _).2 ⟨x, hx, rfl⟩
      have hb : g first x = b ↔ ∃ x, q first x ∧ g first x = b := by
        rw [← h, hfirst, Option.some.injEq]
      simp [hfirst, hq, hb]
    · have hfirst : f first = none := by
        apply Option.eq_none_iff_forall_ne_some.2
        intro b hb
        obtain ⟨x, hx, -⟩ := (h _ _).1 hb
        exact hq ⟨x, hx⟩
      simp [hfirst, hq, ih]

end First

section Earlier

variable {items : List α} {a : α}

def withEarlier : List α → List (List α × α)
  | [] => []
  | a :: items => ([], a) :: (withEarlier items).map fun p ↦ (a :: p.1, p.2)

theorem withEarlier_concat : withEarlier (items ++ [a]) = withEarlier items ++ [(items, a)] := by
  induction items with
  | nil => rfl
  | cons first items ih => simp [withEarlier, ih]

theorem length_withEarlier (items : List α) : (withEarlier items).length = items.length := by
  induction items with
  | nil => rfl
  | cons first items ih => simp [withEarlier, ih]

theorem flatMap_withEarlier_cons {f : List α × α → List β} :
    (withEarlier (a :: items)).flatMap f =
      f ([], a) ++ (withEarlier items).flatMap fun p ↦ f (a :: p.1, p.2) := by
  rw [withEarlier, List.flatMap_cons, List.flatMap_map]

end Earlier

/-- What comes out of checks with these faults: the first of them, or the result if none. -/
def unlessFaulty (faults : List ε) (a : α) : Except ε α :=
  match faults with
  | [] => .ok a
  | fault :: _ => .error fault

section Unless

variable {faults more : List ε} {fault : ε} {a : α} {b : β}

theorem unlessFaulty_eq_ok_iff {a' : α} :
    unlessFaulty faults a = .ok a' ↔ faults = [] ∧ a' = a := by
  cases faults <;> simp [unlessFaulty, eq_comm]

theorem unlessFaulty_eq_error_iff :
    unlessFaulty faults a = .error fault ↔ faults.head? = some fault := by
  cases faults <;> simp [unlessFaulty]

theorem unlessFaulty_bind {f : α → Except ε β} (h : f a = unlessFaulty more b) :
    unlessFaulty faults a >>= f = unlessFaulty (faults ++ more) b := by
  cases faults with
  | nil => exact h
  | cons fault faults => rfl

end Unless

theorem exists_ok_iff {x : Except ε α} : (∃ a, x = .ok a) ↔ ∀ fault, x ≠ .error fault := by
  cases x <;> simp

section Faults

variable {f : α → Except ε β} {p : α → Prop} {g : α → ε} {as : List α} {fault : ε}
  (hf : ∀ a fault, f a = .error fault ↔ p a ∧ g a = fault)
include hf

theorem mapM_eq_error_iff : as.mapM f = .error fault ↔ ∃ a, FirstWith p as a ∧ g a = fault := by
  induction as with
  | nil => simp [FirstWith, pure, Except.pure]
  | cons a as ih =>
    simp only [List.mapM_cons, bind_eq_error_iff, firstWith_cons_iff, hf, ih]
    by_cases ha : p a
    · have hnot : ∀ b, f a ≠ .ok b := by simp [(hf a (g a)).2 ⟨ha, rfl⟩]
      simp [ha, hnot]
    · obtain ⟨b, hb⟩ : ∃ b, f a = .ok b := exists_ok_iff.2 fun fault h ↦ ha ((hf a fault).1 h).1
      simp [ha, hb, pure, Except.pure]

theorem exists_mapM_eq_ok_iff : (∃ bs, as.mapM f = .ok bs) ↔ ∀ a ∈ as, ¬p a := by
  rw [exists_ok_iff]
  simp only [ne_eq, mapM_eq_error_iff hf]
  have hfirst : (∃ a, FirstWith p as a) ↔ ∃ a ∈ as, p a := exists_firstWith_iff
  constructor
  · intro h a ha hp
    obtain ⟨b, hb⟩ := hfirst.2 ⟨a, ha, hp⟩
    exact h (g b) ⟨b, hb, rfl⟩
  · rintro h fault ⟨a, ha, -⟩
    exact h a ha.mem.1 ha.mem.2

end Faults

theorem mapM_eq_error_of_firstWith {f : α → Except ε β} {p : α → Prop} {as : List α} {a : α}
    {fault : ε} (hok : ∀ b, ¬p b → ∃ c, f b = .ok c) (h : FirstWith p as a)
    (ha : f a = .error fault) : as.mapM f = .error fault := by
  induction as with
  | nil => simp [FirstWith] at h
  | cons first as ih =>
    rw [List.mapM_cons, bind_eq_error_iff]
    rcases firstWith_cons_iff.1 h with ⟨-, rfl⟩ | ⟨hp, h⟩
    · exact .inl ha
    · obtain ⟨b, hb⟩ := hok first hp
      exact .inr ⟨b, hb, bind_eq_error_iff.2 (.inl (ih h))⟩

end ValueContract
