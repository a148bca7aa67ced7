namespace ValueContract

/-- A round goes on from a new state or ends with an answer. The rank bounds the number of rounds. -/
structure Loop (σ ρ : Type) where
  round : σ → σ ⊕ ρ
  rank : σ → Nat
  rank_lt : ∀ {s t : σ}, round s = .inl t → rank t < rank s

namespace Loop

variable {σ ρ : Type} (l : Loop σ ρ)

def run (s : σ) : ρ :=
  match _h : l.round s with
  | .inl t => run t
  | .inr answer => answer
termination_by l.rank s
decreasing_by exact l.rank_lt _h

/-- The loop ends with the answer in its round number `n`. -/
inductive Runs : Nat → σ → ρ → Prop
  | stop {s : σ} {answer : ρ} : l.round s = .inr answer → Runs 1 s answer
  | next {n : Nat} {s t : σ} {answer : ρ} :
      l.round s = .inl t → Runs n t answer → Runs (n + 1) s answer

theorem runs_run (s : σ) : ∃ n, n ≤ l.rank s + 1 ∧ l.Runs n s (l.run s) := by
  fun_induction run l s with
  | case1 s t h ih =>
    obtain ⟨n, hn, hr⟩ := ih
    have hlt := l.rank_lt h
    exact ⟨n + 1, by omega, .next h hr⟩
  | case2 s answer h => exact ⟨1, by omega, .stop h⟩

variable {l}

/-- What every round keeps holds when the loop ends. -/
theorem run_post (Inv : σ → Prop) (Post : ρ → Prop) {s : σ} (hs : Inv s)
    (keep : ∀ s t, Inv s → l.round s = .inl t → Inv t)
    (stop : ∀ s answer, Inv s → l.round s = .inr answer → Post answer) : Post (l.run s) := by
  obtain ⟨n, -, h⟩ := l.runs_run s
  generalize l.run s = answer at h
  induction h with
  | stop hr => exact stop _ _ hs hr
  | next hr _ ih => exact ih (keep _ _ hs hr)

theorem run_of_inl {s t : σ} (h : l.round s = .inl t) : l.run s = l.run t := by
  rw [run]
  split <;> simp_all

theorem run_of_inr {s : σ} {answer : ρ} (h : l.round s = .inr answer) : l.run s = answer := by
  rw [run]
  split <;> simp_all

theorem run_congr {m : Loop σ ρ} (Inv : σ → Prop) {s : σ} (hs : Inv s)
    (same : ∀ s, Inv s → l.round s = m.round s)
    (keep : ∀ s t, Inv s → l.round s = .inl t → Inv t) : l.run s = m.run s := by
  fun_induction run l s with
  | case1 s t h ih =>
    have hm : m.round s = .inl t := (same s hs).symm.trans h
    rw [run_of_inl hm, ih (keep s t hs h)]
  | case2 s answer h =>
    have hm : m.round s = .inr answer := (same s hs).symm.trans h
    rw [run_of_inr hm]

theorem run_rel {τ ω : Type} {m : Loop τ ω} (R : σ → τ → Prop) (Q : ρ → ω → Prop) {s : σ} {t : τ}
    (hs : R s t) (rounds : ∀ s t, R s t → Sum.LiftRel R Q (l.round s) (m.round t)) :
    Q (l.run s) (m.run t) := by
  fun_induction run l s generalizing t with
  | case1 s s' h ih =>
    have hr := rounds s t hs
    rw [h] at hr
    cases hm : m.round t with
    | inl t' =>
      rw [hm, Sum.liftRel_inl_inl] at hr
      rw [run_of_inl hm]
      exact ih hr
    | inr answer =>
      rw [hm] at hr
      cases hr
  | case2 s answer h =>
    have hr := rounds s t hs
    rw [h] at hr
    cases hm : m.round t with
    | inl t' =>
      rw [hm] at hr
      cases hr
    | inr other =>
      rw [hm, Sum.liftRel_inr_inr] at hr
      rwa [run_of_inr hm]

end Loop

end ValueContract
