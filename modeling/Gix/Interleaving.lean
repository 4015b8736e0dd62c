import Mathlib

/-! # Parties that share a state

One party at a time takes a step: it changes what is shared and its own state. -/
namespace Gix.Interleaving
open Function

structure System (ι σ π : Type) where
  shared : σ
  party : ι → π

variable {ι σ π : Type} [DecidableEq ι]

/-- What a party can do: from the shared state and its own to new ones. -/
abbrev Moves (ι σ π : Type) := ι → σ × π → σ × π → Prop

def System.set (s : System ι σ π) (i : ι) (next : σ × π) : System ι σ π := ⟨next.1,Function.update s.party i next.2⟩

inductive Step (moves : Moves ι σ π) (s : System ι σ π) : System ι σ π → Prop
  | mk (i : ι) (next : σ × π) (h : moves i (s.shared,s.party i) next) : Step moves s (s.set i next)

/-- Any interleaving of steps. -/
def Reaches (moves : Moves ι σ π) : System ι σ π → System ι σ π → Prop := Relation.ReflTransGen (Step moves)

variable {moves : Moves ι σ π} {s s' s'' : System ι σ π} {i j : ι} {next : σ × π}

@[simp] theorem set_shared : (s.set i next).shared=next.1 := rfl

@[simp] theorem set_party_self : (s.set i next).party i=next.2 := by
  simp only [System.set,update_self]

theorem set_party_of_ne (h : j≠i) : (s.set i next).party j=s.party j := by
  simp [System.set,update_of_ne h]

/-- What each step keeps holds in the end. -/
theorem Reaches.invariant (h : Reaches moves s s') {inv : System ι σ π → Prop} (hs : inv s)
    (hstep : ∀ s i next,inv s → moves i (s.shared,s.party i) next → inv (s.set i next)) : inv s' := by
  induction h with
  | refl => exact hs
  | tail _ h ih =>
    obtain ⟨i,next,hmove⟩ := h
    exact hstep _ i next ih hmove

theorem Reaches.refl : Reaches moves s s := Relation.ReflTransGen.refl

theorem Reaches.trans (h : Reaches moves s s') (h' : Reaches moves s' s'') : Reaches moves s s'' :=
  Relation.ReflTransGen.trans h h'

theorem Reaches.mono {moves' : Moves ι σ π} (h : Reaches moves s s') (hmoves : ∀ i before after,moves i before after →
    moves' i before after) : Reaches moves' s s' := by
  induction h with
  | refl => exact Reaches.refl
  | tail _ hstep ih =>
    obtain ⟨i,next,hmove⟩ := hstep
    exact ih.tail (.mk i next (hmoves i _ _ hmove))

theorem Reaches.alone (h : Relation.ReflTransGen (moves i) (s.shared,s.party i) next) :
    Reaches moves s (s.set i next) := by
  induction h with
  | refl =>
    have : s.set i (s.shared,s.party i)=s := by
      rw [System.set,update_eq_self]
    rw [this]
    exact Reaches.refl
  | tail _ hmove ih =>
    rename_i mid next _
    have hset : (s.set i mid).set i next=s.set i next := by
      simp [System.set]
    refine Relation.ReflTransGen.tail ih ?_
    rw [← hset]
    exact .mk i next (by simpa using hmove)

end Gix.Interleaving
