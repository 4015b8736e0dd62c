import Gix.MergeBaseRedundant

/-! # Best common ancestors

`merge_base()` returns the best common ancestors if and only if first parents lead to all candidates
that are behind another one. -/
namespace Gix.Revision
open List Relation.TransGen
open Gix.Commit (History generationNumberInfinity)
open Gix.PriorityQueue

variable {Id : Type} [LinearOrder Id] {h : History Id}

/-- What `merge_base()` is meant to return. -/
structure MergeBases (h : History Id) (first : Id) (others : List Id) (r : Option (List Id)) : Prop where
  none : r = none ↔ ∀ c, ¬Common h first others c
  nodup : ∀ bases, r = some bases → bases.Nodup
  best : ∀ bases, r = some bases → ∀ c, c ∈ bases ↔ Best h first others c

/-! The run -/

variable {first : Id} {others : List Id}

section Run
variable {g : Graph Id Flags}

/-- What is found and not covered is returned. -/
theorem mergeBase_run (heap : Heap GenThenTime Id) (hacyclic : h.Acyclic) (hl : Loaded h g) (hfirst : first∈h.commits)
    (hothers : ∀ o∈others,o∈h.commits) (hne : others≠[]) (hnot : first∉others) :
    ∃ s bases g' bound,Ended h first others s ∧
      (∀ fuel > bound,
        paintDownToCommon heap (source h) fuel first others (g.clearCommitData fun _ => default)=some (.ok s) ∧
        mergeBase heap (source h) fuel first others g=some (.ok (if bases.isEmpty then none else some bases,g'))) ∧
      bases.Nodup ∧ ∀ x,x∈bases ↔ x∈s.found ∧ ¬Covered h s.found x := by
  obtain ⟨s0 : Painting heap,hrun0,hb0,hs0⟩ := paintStart_spec hl.clear (fun x => data_clear) hfirst hothers
  obtain ⟨s,he,hrun⟩ := StepLoop.run_ends paint_rounds (hs0.painted hb0)
  have hpresent : ∀ c∈s.found,(s.graph.map c).isSome=true := by
    intro c hc
    have h1 := (he.both c hc).1
    cases hg : s.graph.map c with
    | none =>
      rw [Graph.data,hg] at h1
      exact Bool.noConfusion h1
    | some commit => rfl
  obtain ⟨bases,g',bound,hthin,hnodup,hbases⟩ := removeRedundant_spec hacyclic he.loaded he.nodup hpresent he.outKey
  refine ⟨s,bases,g',max (s0.potential h) bound,he,?_,hnodup,hbases⟩
  intro fuel hfuel
  have hpaint := hrun fuel (lt_of_le_of_lt (le_max_left _ _) hfuel)
  have hthin := hthin fuel (lt_of_le_of_lt (le_max_right _ _) hfuel)
  rw [mergeBase,if_neg (by simp [hne,hnot])]
  simp only [paintDownToCommon,hrun0,hpaint,hthin,and_self]

end Run

/-! The result is right -/

/-- A common ancestor is a best one, or it is behind one. -/
theorem Common.behind_best (hacyclic : h.Acyclic) (hfirst : first∈h.commits) {x : Id} (hx : Common h first others x) :
    Best h first others x ∨ ∃ b,Best h first others b ∧ h.Ancestor b x := by
  classical
  let above := h.commits.filter (fun c => Common h first others c ∧ h.Reachable c x)
  have hmem : ∀ c,c∈above ↔ Common h first others c ∧ h.Reachable c x := by
    intro c
    simp only [above,mem_filter,decide_eq_true_eq,and_iff_right_iff_imp]
    exact fun hc => hc.1.1.mem hfirst
  obtain ⟨b,hb,hlast⟩ := exists_not_behind hacyclic (ne_nil_of_mem ((hmem x).mpr ⟨hx,.refl⟩))
  obtain ⟨hcommon,hreach⟩ := (hmem b).mp hb
  have hbest : Best h first others b := ⟨hcommon,fun c hc hanc => hlast c ((hmem c).mpr ⟨hc,hanc.to_reflTransGen.trans hreach⟩) hanc⟩
  rcases Relation.reflTransGen_iff_eq_or_transGen.mp hreach with rfl | hanc
  · exact .inl hbest
  · exact .inr ⟨b,hbest,hanc⟩

section
omit [LinearOrder Id]

theorem eq_of_returned {bases bases' : List Id} (hsome : (if bases.isEmpty then none else some bases)=some bases') : bases=bases' := by
  split at hsome
  · cases hsome
  · exact Option.some.inj hsome

end

/-- What is returned, if it is the best common ancestors. -/
theorem mergeBases_of_best (hacyclic : h.Acyclic) (hfirst : first∈h.commits) {bases : List Id} (hnodup : bases.Nodup)
    (hbest : ∀ c,c∈bases ↔ Best h first others c) : MergeBases h first others (if bases.isEmpty then none else some bases) := by
  refine ⟨⟨?_,?_⟩,?_,?_⟩
  · intro hnone c hc
    have hempty : bases=[] := by simpa using hnone
    rcases hc.behind_best hacyclic hfirst with hb | ⟨b,hb,-⟩
    · simpa [hempty] using (hbest c).mpr hb
    · simpa [hempty] using (hbest b).mpr hb
  · intro hnone
    have hempty : bases=[] := eq_nil_iff_forall_not_mem.mpr fun c hc => hnone c ((hbest c).mp hc).1
    simp [hempty]
  · intro bases' hsome
    obtain rfl := eq_of_returned hsome
    exact hnodup
  · intro bases' hsome
    obtain rfl := eq_of_returned hsome
    exact hbest

theorem Ended.right_iff {heap : Heap GenThenTime Id} {s : Painting heap} (he : Ended h first others s) (hacyclic : h.Acyclic)
    (hfirst : first∈h.commits) {bases : List Id} (hnodup : bases.Nodup) (hbases : ∀ x,x∈bases ↔ x∈s.found ∧ ¬Covered h s.found x) :
    MergeBases h first others (if bases.isEmpty then none else some bases) ↔
      ∀ x∈s.found,∀ c∈s.found,h.Ancestor c x → Covered h s.found x := by
  constructor
  · intro hright x hx c hc hanc
    by_contra hkept
    have hmem := (hbases x).mpr ⟨hx,hkept⟩
    have hsome : (if bases.isEmpty then none else some bases)=some bases := if_neg (by simpa using ne_nil_of_mem hmem)
    exact ((hright.best bases hsome x).mp hmem).2 c (he.found_common hc) hanc
  · intro hcov
    refine mergeBases_of_best hacyclic hfirst hnodup fun c => ?_
    rw [hbases]
    constructor
    · rintro ⟨hfound,hkept⟩
      rcases (he.found_common hfound).behind_best hacyclic hfirst with hc | ⟨b,hb,hanc⟩
      · exact hc
      · exact absurd (hcov c hfound b (he.best_found hb) hanc) hkept
    · intro hc
      refine ⟨he.best_found hc,fun hcov => ?_⟩
      obtain ⟨c',hc',hanc⟩ := hcov.ancestor
      exact hc.2 c' (he.found_common hc') hanc

/-- Two merges of `1` and `2`, in both orders. -/
def crissCross : History ℕ := .ofParents [4,3,2,1,0]
  (fun c => if c = 4 then [2,1] else if c = 3 then [1,2] else if c = 0 then [] else [0]) (fun _ => 0) (by decide)

theorem crissCross_lt : ∀ c,∀ p∈crissCross.parents c,p < c := by
  intro c p hp
  simp only [crissCross,History.ofParents] at hp
  split_ifs at hp <;> simp at hp <;> omega

theorem crissCross_covered {found : List ℕ} {c x : ℕ} (hc : c∈found) (hx : crissCross.Ancestor c x) : Covered crissCross found x := by
  -- below the merges there are first parents only
  have hstep : ∀ {a b},a < 3 → crissCross.Parent a b → FirstParent crissCross a b := by
    intro a b ha hab
    have hne : a≠4 ∧ a≠3 := by omega
    by_cases h0 : a=0
    · simp [crissCross,History.Parent,History.ofParents,h0] at hab
    · obtain rfl : b=0 := by simpa [crissCross,History.Parent,History.ofParents,h0,hne] using hab
      simp [crissCross,FirstParent,History.ofParents,h0,hne]
  have hpath : ∀ {a},crissCross.Reachable a x → a < 3 → Relation.ReflTransGen (FirstParent crissCross) a x := by
    intro a ha
    induction ha using Relation.ReflTransGen.head_induction_on with
    | refl => exact fun _ => .refl
    | head hab _ ih => exact fun hlt => .head (hstep hlt hab) (ih ((crissCross_lt _ _ hab).trans hlt))
  obtain ⟨p,hp,hreach⟩ := head'_iff.mp hx
  refine ⟨c,hc,p,hp,hpath hreach ?_⟩
  have hp : p∈if c=4 then [2,1] else if c=3 then [1,2] else if c=0 then [] else [0] := hp
  split_ifs at hp <;> simp at hp <;> omega

/-- `4` is a child of `3`, which has the parent `2`, which has the parents `1` and `0`. -/
def lateChild : History ℕ := .ofParents [4,3,2,1,0]
  (fun c => if c = 4 then [3] else if c = 3 then [2] else if c = 2 then [1,0] else []) (fun c => if c = 4 then -1 else c) (by decide)

theorem lateChild_lt : ∀ c,∀ p∈lateChild.parents c,p < c := by
  intro c p hp
  simp only [lateChild,History.ofParents] at hp
  split_ifs at hp <;> simp at hp <;> omega

theorem lateChild_uncovered : ¬Covered lateChild [0,3] 0 := by
  rintro ⟨c,hc,p,hp,hpath⟩
  rcases mem_pair.mp hc with rfl | rfl
  · simp [lateChild,History.ofParents] at hp
  · obtain rfl : p=2 := by simpa [lateChild,History.ofParents] using hp
    rcases Relation.ReflTransGen.cases_head hpath with h0 | ⟨q,hq,hpath⟩
    · simp at h0
    · obtain rfl : 1=q := by simpa [FirstParent,lateChild,History.ofParents] using hq
      rcases Relation.ReflTransGen.cases_head hpath with h0 | ⟨q,hq,-⟩
      · simp at h0
      · simp [FirstParent,lateChild,History.ofParents] at hq

theorem paintDownToCommon_add {heap : Heap GenThenTime Id} {source : Source Id} {fuel : ℕ} {g : Graph Id Flags}
    {r : Except Error (Painting heap)} (h : paintDownToCommon heap source fuel first others g=some r) (k : ℕ) :
    paintDownToCommon heap source (fuel+k) first others g=some r := by
  unfold paintDownToCommon at h ⊢
  split
  · rename_i heq
    rwa [heq] at h
  · rename_i heq
    rw [heq] at h
    exact StepLoop.run_add h k

end Gix.Revision
