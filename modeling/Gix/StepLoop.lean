import Mathlib

/-! # Loops by rounds

A loop runs rounds on a state until one is the last. -/
namespace Gix.StepLoop
variable {σ ε : Type}

/-- `none` if the rounds were not enough. -/
def run (step : σ → Except ε (ForInStep σ)) : ℕ → σ → Option (Except ε σ)
  | 0, _ => none
  | fuel+1, s => match step s with
    | .error e => some (.error e)
    | .ok (.done s) => some (.ok s)
    | .ok (.yield s) => run step fuel s

/-- A round is the last one and leaves what is wanted, or it keeps the invariant and lowers the
measure. -/
def Rounds (step : σ → Except ε (ForInStep σ)) (inv post : σ → Prop) (measure : σ → ℕ) : Prop :=
  ∀ s, inv s → (∃ s', step s = .ok (.done s') ∧ post s') ∨ ∃ s', step s = .ok (.yield s') ∧ inv s' ∧ measure s' < measure s

theorem run_ends {step : σ → Except ε (ForInStep σ)} {inv post : σ → Prop} {measure : σ → ℕ} (h : Rounds step inv post measure)
    {s : σ} (hs : inv s) : ∃ s',post s' ∧ ∀ fuel > measure s,run step fuel s=some (.ok s') := by
  induction hn : measure s using Nat.strongRecOn generalizing s with
  | ind n ih =>
    rcases h s hs with ⟨s',hstep,hpost⟩ | ⟨s',hstep,hinv,hlt⟩
    · refine ⟨s',hpost,?_⟩
      intro fuel hfuel
      obtain ⟨_,rfl⟩ := Nat.exists_eq_add_of_lt hfuel
      rw [run,hstep]
    · obtain ⟨t,hpost,hrun⟩ := ih (measure s') (hn ▸ hlt) hinv rfl
      refine ⟨t,hpost,?_⟩
      intro fuel hfuel
      cases fuel with
      | zero => omega
      | succ fuel =>
        rw [run,hstep]
        exact hrun fuel (by omega)

/-- More rounds than are needed make no difference. -/
theorem run_add {step : σ → Except ε (ForInStep σ)} {fuel : ℕ} {s : σ} {r : Except ε σ} (h : run step fuel s=some r) (k : ℕ) :
    run step (fuel+k) s=some r := by
  induction fuel generalizing s with
  | zero => cases h
  | succ fuel ih =>
    rw [Nat.succ_add,run]
    rw [run] at h
    split at h
    · exact h
    · exact h
    · exact ih h

end Gix.StepLoop
