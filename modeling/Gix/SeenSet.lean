import Mathlib

/-! # Sets that remember what was met before

A list stands for the set. `Entered new seen seen'` says which elements a computation put
into the set, each of them once. -/
namespace Gix.SeenSet
open List

variable {α : Type} [DecidableEq α]

/-- `HashSet::insert()`: whether the element is new, and the set with it. -/
def insert (x : α) (seen : List α) : Bool × List α :=
  if x ∈ seen then (false,seen) else (true,x :: seen)

omit [DecidableEq α] in
/-- `new` are the elements of `seen'` that are not in `seen`, without repetition. -/
structure Entered (new seen seen' : List α) : Prop where
  mem : ∀ x, x ∈ seen' ↔ x ∈ seen ∨ x ∈ new
  fresh : ∀ x ∈ new, x ∉ seen
  nodup : new.Nodup

variable {seen seen' seen'' new new' : List α} {x : α}

theorem insert_mem (h : x∈seen) : insert x seen=(false,seen) := by simp [insert,h]

theorem insert_not_mem (h : x∉seen) : insert x seen=(true,x::seen) := by simp [insert,h]

namespace Entered
omit [DecidableEq α]

theorem refl (seen : List α) : Entered [] seen seen := ⟨by simp,by simp,nodup_nil⟩

theorem singleton (h : x∉seen) : Entered [x] seen (x::seen) := by
  refine ⟨fun y => ?_,fun y hy => ?_,nodup_singleton x⟩
  · rw [mem_cons,mem_singleton,or_comm]
  · rwa [mem_singleton.mp hy]

variable (h : Entered new seen seen')
include h

theorem trans (h' : Entered new' seen' seen'') :
    Entered (new++new') seen seen'' := by
  refine ⟨fun x => ?_,fun x hx => ?_,?_⟩
  · rw [h'.mem,h.mem,mem_append,or_assoc]
  · rcases mem_append.mp hx with hx | hx
    · exact h.fresh x hx
    · exact fun hs => h'.fresh x hx ((h.mem x).mpr (.inl hs))
  · refine h.nodup.append h'.nodup fun x hx hx' => ?_
    exact h'.fresh x hx' ((h.mem x).mpr (.inr hx))

theorem perm (hp : new.Perm new') : Entered new' seen seen' :=
  ⟨fun x => by rw [h.mem,hp.mem_iff],fun x hx => h.fresh x (hp.mem_iff.mpr hx),hp.nodup_iff.mp h.nodup⟩

theorem subset (hx : x∈seen) : x∈seen' := (h.mem x).mpr (.inl hx)

omit h

/-- From the empty set, a part of what entered is all of it only if nothing else did. -/
theorem kept_iff {kept lost : List α} (h : Entered (kept++lost) [] seen') :
    (∀ x,x∈kept ↔ x∈seen') ↔ lost=[] := by
  constructor
  · intro hk
    refine eq_nil_iff_forall_not_mem.mpr fun x hx => ?_
    have hseen : x∈seen' := (h.mem x).mpr (.inr (mem_append_right kept hx))
    exact (nodup_append.mp h.nodup).2.2 x ((hk x).mpr hseen) x hx rfl
  · rintro rfl x
    simp [h.mem]

end Entered

/-! The first element for each key -/
section Firsts
variable {β γ : Type} [DecidableEq γ] {key : β → α}

/-- All elements whose key was not met before -/
def firsts (key : β → α) : List α → List β → List β
  | _, [] => []
  | seen, b :: l => if key b ∈ seen then firsts key seen l else b :: firsts key (key b :: seen) l

theorem firsts_fresh (seen : List α) (l : List β) : ∀ b∈firsts key seen l,b∈l ∧ key b∉seen := by
  induction l generalizing seen with
  | nil => simp [firsts]
  | cons a l ih =>
    intro b hb
    rw [firsts] at hb
    split at hb
    · exact ⟨mem_cons_of_mem a (ih seen b hb).1,(ih seen b hb).2⟩
    · rename_i hnew
      rcases mem_cons.mp hb with rfl | hb
      · exact ⟨mem_cons_self,hnew⟩
      · obtain ⟨hmem,hseen⟩ := ih _ b hb
        exact ⟨mem_cons_of_mem a hmem,fun h => hseen (mem_cons_of_mem _ h)⟩

theorem firsts_nodup (seen : List α) (l : List β) : ((firsts key seen l).map key).Nodup := by
  induction l generalizing seen with
  | nil => simp [firsts]
  | cons b l ih =>
    rw [firsts]
    split
    · exact ih seen
    · rw [map_cons,nodup_cons]
      refine ⟨fun hmem => ?_,ih _⟩
      obtain ⟨b',hb',heq⟩ := mem_map.mp hmem
      exact (firsts_fresh _ l b' hb').2 (heq ▸ mem_cons_self)

/-- What is dropped because of its key can be dropped before as well. -/
theorem firsts_filter {p : β → Bool} (hp : ∀ a b,key a=key b → p a=p b) (seen seen' : List α) (l : List β)
    (hseen : ∀ b,p b → (key b∈seen ↔ key b∈seen')) : (firsts key seen l).filter p=firsts key seen' (l.filter p) := by
  induction l generalizing seen seen' with
  | nil => rfl
  | cons b l ih =>
    by_cases hb : p b=true
    · rw [filter_cons_of_pos hb,firsts,firsts]
      by_cases hmem : key b∈seen
      · rw [if_pos hmem,if_pos ((hseen b hb).mp hmem)]
        exact ih seen seen' hseen
      · rw [if_neg hmem,if_neg (mt (hseen b hb).mpr hmem),filter_cons_of_pos hb]
        refine congrArg _ (ih _ _ fun c hc => ?_)
        rw [mem_cons,mem_cons,hseen c hc]
    · rw [filter_cons_of_neg hb,firsts]
      split
      · exact ih seen seen' hseen
      · rw [filter_cons_of_neg hb]
        refine ih _ _ fun c hc => ?_
        rw [mem_cons,← hseen c hc,or_iff_right]
        intro heq
        exact hb (hp b c heq.symm ▸ hc)

/-- It makes no difference if a hash of the key is used, as long as it is different for each of them. -/
theorem firsts_hash (hash : α → γ) (seen : List α) (l : List β)
    (hinj : ∀ a∈seen++l.map key,∀ b∈seen++l.map key,hash a=hash b → a=b) :
    firsts (fun b => hash (key b)) (seen.map hash) l=firsts key seen l := by
  induction l generalizing seen with
  | nil => rfl
  | cons b l ih =>
    have hmem : hash (key b)∈seen.map hash ↔ key b∈seen := by
      rw [mem_map]
      constructor
      · rintro ⟨a,ha,heq⟩
        exact hinj a (mem_append_left _ ha) (key b) (by simp) heq ▸ ha
      · exact fun h => ⟨key b,h,rfl⟩
    rw [firsts,firsts]
    by_cases h : key b∈seen
    · rw [if_pos h,if_pos (hmem.mpr h)]
      refine ih seen fun a ha c hc => hinj a ?_ c ?_
      · exact append_subset.mpr ⟨subset_append_left _ _,subset_append_of_subset_right _ (subset_cons_self _ _)⟩ ha
      · exact append_subset.mpr ⟨subset_append_left _ _,subset_append_of_subset_right _ (subset_cons_self _ _)⟩ hc
    · rw [if_neg h,if_neg (mt hmem.mp h)]
      refine congrArg _ (ih (key b::seen) fun a ha c hc => hinj a ?_ c ?_)
      · simpa [or_left_comm] using ha
      · simpa [or_left_comm] using hc

end Firsts
end Gix.SeenSet
