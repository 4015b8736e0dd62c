import Mathlib

/-! # Runs of equal keys

Of each run of elements with one key, the first is kept. In a list that is sorted by key and then
by preference, this is the preferred element of each key. -/
namespace Gix.SortedDedup
open List
variable {α K : Type} [DecidableEq K]

/-- The loop of `dedup_by_key()` with the key of the last element that was kept. -/
def dedupAfter (key : α → K) : K → List α → List α
  | _, [] => []
  | k, a :: l => if key a = k then dedupAfter key k l else a :: dedupAfter key (key a) l

def dedupByKey (key : α → K) : List α → List α
  | [] => []
  | a :: l => a :: dedupAfter key (key a) l

variable {key : α → K} {r : α → α → Prop} {l : List α} {k : K} {a : α}

theorem mem_of_mem_dedupAfter (h : a∈dedupAfter key k l) : a∈l := by
  induction l generalizing k with
  | nil => simp [dedupAfter] at h
  | cons b l ih =>
    rw [dedupAfter] at h
    split at h
    · exact mem_cons_of_mem _ (ih h)
    · rcases mem_cons.mp h with rfl | h
      · exact mem_cons_self
      · exact mem_cons_of_mem _ (ih h)

theorem mem_of_mem_dedupByKey (h : a∈dedupByKey key l) : a∈l := by
  cases l with
  | nil => simp [dedupByKey] at h
  | cons b l =>
    rcases mem_cons.mp h with rfl | h
    · exact mem_cons_self
    · exact mem_cons_of_mem _ (mem_of_mem_dedupAfter h)

section Sorted
variable (lt : K → K → Prop) (htrans : ∀ {a b c}, lt a b → lt b c → lt a c) (hr : ∀ {a b}, r a b → lt (key a) (key b) ∨ key a = key b)
include htrans hr

theorem dedupAfter_ascending (hl : l.Pairwise r) (hk : ∀ b∈l,lt k (key b) ∨ k=key b) :
    (∀ b∈dedupAfter key k l,lt k (key b)) ∧ (dedupAfter key k l).Pairwise (fun a b => lt (key a) (key b)) := by
  induction l generalizing k with
  | nil => simp [dedupAfter]
  | cons b l ih =>
    obtain ⟨hb,hl⟩ := pairwise_cons.mp hl
    obtain ⟨hkb,hkl⟩ := forall_mem_cons.mp hk
    rw [dedupAfter]
    split
    · exact ih hl hkl
    · rename_i hne
      have hlt := hkb.resolve_right (Ne.symm hne)
      obtain ⟨hfirst,hsorted⟩ := ih hl (fun c hc => hr (hb c hc))
      refine ⟨forall_mem_cons.mpr ⟨hlt,fun c hc => htrans hlt (hfirst c hc)⟩,pairwise_cons.mpr ⟨hfirst,hsorted⟩⟩

theorem dedupByKey_ascending (hl : l.Pairwise r) : (dedupByKey key l).Pairwise (fun a b => lt (key a) (key b)) := by
  cases l with
  | nil => exact .nil
  | cons b l =>
    obtain ⟨hb,hl⟩ := pairwise_cons.mp hl
    exact pairwise_cons.mpr (dedupAfter_ascending lt htrans hr hl fun c hc => hr (hb c hc))

end Sorted

/-- Each element is kept, or one before it with its key is. -/
theorem dedupAfter_first (hl : l.Pairwise r) (ha : a∈l) :
    key a=k ∨ ∃ b∈dedupAfter key k l,key b=key a ∧ (b=a ∨ r b a) := by
  induction l generalizing k with
  | nil => simp at ha
  | cons b l ih =>
    obtain ⟨hb,hl⟩ := pairwise_cons.mp hl
    rw [dedupAfter]
    split
    · rename_i heq
      rcases mem_cons.mp ha with rfl | ha
      · exact .inl heq
      · exact ih hl ha
    · right
      rcases mem_cons.mp ha with rfl | ha
      · exact ⟨a,mem_cons_self,rfl,.inl rfl⟩
      · rcases ih hl ha with hkey | ⟨c,hc,hkey,hrc⟩
        · exact ⟨b,mem_cons_self,hkey.symm,.inr (hb a ha)⟩
        · exact ⟨c,mem_cons_of_mem _ hc,hkey,hrc⟩

theorem dedupByKey_first (key : α → K) (hl : l.Pairwise r) (ha : a∈l) : ∃ b∈dedupByKey key l,key b=key a ∧ (b=a ∨ r b a) := by
  cases l with
  | nil => simp at ha
  | cons b l =>
    obtain ⟨hb,hl⟩ := pairwise_cons.mp hl
    rcases mem_cons.mp ha with rfl | ha
    · exact ⟨a,mem_cons_self,rfl,.inl rfl⟩
    · rcases dedupAfter_first (k := key b) hl ha with hkey | ⟨c,hc,hkey,hrc⟩
      · exact ⟨b,mem_cons_self,hkey.symm,.inr (hb a ha)⟩
      · exact ⟨c,mem_cons_of_mem _ hc,hkey,hrc⟩

section Sorting
variable {β : Type} [Ord β] [Std.TransOrd β] [Std.LawfulEqOrd β] {key : α → β}

omit [DecidableEq K] in
/-- Sorted by keys that are all different, each comes before the next. -/
theorem pairwise_lt_mergeSort (h : (l.map key).Nodup) :
    ((l.mergeSort fun a b => (compare (key a) (key b)).isLE).map key).Pairwise (fun a b => compare a b = .lt) := by
  have hle : ((l.mergeSort fun a b => (compare (key a) (key b)).isLE).map key).Pairwise
      (fun a b => (compare a b).isLE=true) := by
    rw [pairwise_map]
    refine pairwise_mergeSort (fun a b c => Std.TransCmp.isLE_trans) (fun a b => ?_) _
    have hswap : compare (key b) (key a)=(compare (key a) (key b)).swap := Std.OrientedCmp.eq_swap
    rw [hswap]
    cases compare (key a) (key b) <;> rfl
  have hnodup : ((l.mergeSort fun a b => (compare (key a) (key b)).isLE).map key).Nodup :=
    ((mergeSort_perm l _).map key).nodup_iff.mpr h
  refine (hle.and hnodup).imp fun {a b} hab => ?_
  cases hcmp : compare a b with
  | lt => rfl
  | eq => exact absurd (Std.LawfulEqOrd.eq_of_compare hcmp) hab.2
  | gt =>
    rw [hcmp] at hab
    exact absurd hab.1 Bool.false_ne_true

end Sorting

end Gix.SortedDedup
