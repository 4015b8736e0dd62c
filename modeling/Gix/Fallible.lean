import Mathlib

/-! # Stateful computations that may fail or not return

A computation gets a state and gives back a result or an error together with the state it
leaves. It gives back nothing at all if it panics or if a loop exceeds its bound. -/
namespace Gix

def Fallible (σ ε α : Type) := σ → Option (Except ε α × σ)

namespace Fallible
variable {σ ε α β : Type}

instance : Monad (Fallible σ ε) where
  pure a := fun s => some (.ok a,s)
  bind x f := fun s => match x s with
    | none => none
    | some (.error e,s) => some (.error e,s)
    | some (.ok a,s) => f a s

/-- The result of a pure computation, `?` included. -/
def lift (x : Except ε α) : Fallible σ ε α := fun s => some (x,s)

def get : Fallible σ ε σ := fun s => some (.ok s,s)

def modify (f : σ → σ) : Fallible σ ε Unit := fun s => some (.ok (),f s)

def throw (e : ε) : Fallible σ ε α := fun s => some (.error e,s)

/-- A panic, or the end of a loop bound. -/
def stuck : Fallible σ ε α := fun _ => none

variable {s s' : σ} {a : α} {x : Fallible σ ε α} {f : α → Fallible σ ε β}

theorem bind_ok (h : x s=some (.ok a,s')) :
    (x >>= f) s=f a s' := by
  simp [bind,h]

/-- A sequence succeeds only if each of its parts does. -/
theorem of_bind_ok {b : β} (h : (x >>= f) s=some (.ok b,s')) :
    ∃ a s1,x s=some (.ok a,s1) ∧ f a s1=some (.ok b,s') := by
  simp only [bind] at h
  cases hx : x s with
  | none => simp [hx] at h
  | some p =>
    obtain ⟨r,s1⟩ := p
    cases r with
    | error e => simp [hx] at h
    | ok a => exact ⟨a,s1,rfl,by simpa [hx] using h⟩

@[simp] theorem pure_apply : (pure a : Fallible σ ε α) s=some (.ok a,s) := rfl

@[simp] theorem modify_apply (f : σ → σ) : (modify f : Fallible σ ε Unit) s=some (.ok (),f s) := rfl

@[simp] theorem get_apply : (get : Fallible σ ε σ) s=some (.ok s,s) := rfl

/-! Two computations side by side -/

variable {τ : Type} {R : σ → τ → Prop} {t : τ} {y : Fallible τ ε α} {g : α → Fallible τ ε β}

/-- Whatever `x` gives back, `y` gives back too, in a related state. -/
def Follows (R : σ → τ → Prop) (x : Option (Except ε α × σ)) (y : Option (Except ε α × τ)) : Prop :=
  ∀ r s, x = some (r,s) → ∃ t, y = some (r,t) ∧ R s t

theorem Follows.some (r : Except ε α) (h : R s t) : Follows R (some (r,s)) (some (r,t)) := by
  rintro r' s' ⟨⟩
  exact ⟨t,rfl,h⟩

theorem Follows.refl (x : Option (Except ε α × σ)) : Follows Eq x x :=
  fun _ s h => ⟨s,h,rfl⟩

theorem Follows.stuck (y : Option (Except ε α × τ)) : Follows R (stuck s) y := by
  rintro r s' ⟨⟩

theorem Follows.bind
    (h : Follows R (x s) (y t))
    (hk : ∀ a s' t',R s' t' → Follows R (f a s') (g a t')) : Follows R ((x >>= f) s) ((y >>= g) t) := by
  intro r s' hr
  cases hx : x s with
  | none => simp [Bind.bind,hx] at hr
  | some p =>
    obtain ⟨a,s1⟩ := p
    obtain ⟨t1,hy,h1⟩ := h a s1 hx
    cases a with
    | error e =>
      simp only [Bind.bind,hx] at hr
      obtain ⟨rfl,rfl⟩ := hr
      exact ⟨t1,by simp [Bind.bind,hy],h1⟩
    | ok a =>
      simp only [Bind.bind,hx] at hr
      obtain ⟨t2,hg,h2⟩ := hk a s1 t1 h1 r s' hr
      exact ⟨t2,by simp [Bind.bind,hy,hg],h2⟩

/-- Side by side from related states on. -/
def Along (R : σ → τ → Prop) (x : Fallible σ ε α) (y : Fallible τ ε α) : Prop := ∀ s t, R s t → Follows R (x s) (y t)

theorem Along.modify {f : σ → σ} {g : τ → τ} (h : ∀ s t,R s t → R (f s) (g t)) :
    Along R (modify f : Fallible σ ε Unit) (modify g) := fun s t hst => .some _ (h s t hst)

theorem Along.bind
    (h : Along R x y) (hk : ∀ a,Along R (f a) (g a)) : Along R (x >>= f) (y >>= g) :=
  fun s t hst => (h s t hst).bind fun a s' t' => hk a s' t'

end Fallible

/-! Without state -/

namespace Attempt
variable {ε α β : Type}

/-- A sequence succeeds only if each of its parts does. -/
theorem of_bind_ok {x : Except ε α} {f : α → Except ε β} {b : β} (h : (x >>= f) = .ok b) : ∃ a,x = .ok a ∧ f a = .ok b := by
  cases x with
  | error e => cases h
  | ok a => exact ⟨a,rfl,h⟩

end Attempt
end Gix
