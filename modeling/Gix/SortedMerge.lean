import Mathlib

/-! # Merging two sorted lists

Two lists sorted strictly by a key are walked side by side; elements of equal keys meet. -/
namespace Gix.SortedMerge
open List

/-- An element of one list only, or two elements with the same key. -/
inductive Side (α : Type)
  | left (a : α) | right (b : α) | both (a b : α)

variable {α K : Type} [Ord K] (key : α → K)

def Side.on : Side α → K
  | .left a => key a
  | .right b => key b
  | .both a _ => key a

def merge : List α → List α → List (Side α)
  | [], rs => rs.map .right
  | l :: ls, [] => (l :: ls).map .left
  | l :: ls, r :: rs => match compare (key l) (key r) with
    | .lt => .left l :: merge ls (r :: rs)
    | .eq => .both l r :: merge ls rs
    | .gt => .right r :: merge (l :: ls) rs
termination_by ls rs => ls.length+rs.length

/-- What the two sides have for one key. -/
def meet : Option α → Option α → List (Side α)
  | none, none => []
  | some a, none => [.left a]
  | none, some b => [.right b]
  | some a, some b => [.both a b]

/-- Strictly ascending keys. -/
def Sorted (l : List α) : Prop := l.Pairwise (fun a b => compare (key a) (key b) = .lt)

theorem merge_nil_right (ls : List α) : merge key ls []=ls.map .left := by
  cases ls with
  | nil => simp [merge]
  | cons l ls => simp [merge]

variable {key} [Std.TransOrd K] [Std.LawfulEqOrd K] [DecidableEq K] {l : List α} {k : K}

omit [Std.TransOrd K] in
theorem Sorted.find_cons {a : α} (hs : Sorted key (a::l)) (hk : key a=k) :
    l.find? (fun x => key x=k)=none := by
  rw [find?_eq_none]
  intro x hx
  have hlt := (pairwise_cons.mp hs).1 x hx
  simp only [decide_eq_true_eq]
  intro hkx
  rw [hk,hkx,Std.ReflOrd.compare_self] at hlt
  cases hlt

omit [Std.LawfulEqOrd K] [DecidableEq K] in
/-- What is below the head of a sorted list is below all of it. -/
theorem Sorted.below {b : α} (hs : Sorted key (b::l)) (hk : compare k (key b) = .lt) : ∀ x∈b::l,compare k (key x) = .lt :=
  forall_mem_cons.mpr ⟨hk,fun x hx => Std.TransCmp.lt_trans hk ((pairwise_cons.mp hs).1 x hx)⟩

theorem Sorted.find_below {b : α} (hs : Sorted key (b::l))
    (hk : compare k (key b) = .lt) : (b::l).find? (fun x => key x=k)=none := by
  rw [find?_eq_none]
  intro x hx
  have hlt := hs.below hk x hx
  simp only [decide_eq_true_eq]
  intro hkx
  rw [hkx,Std.ReflOrd.compare_self] at hlt
  cases hlt

omit [Std.TransOrd K] in
theorem filter_map_key (f : α → Side α) (hf : ∀ a,(f a).on key=key a) (hs : Sorted key l)
    (k : K) : (l.map f).filter (fun p => p.on key=k)=((l.find? (fun x => key x=k)).map f).toList := by
  induction l with
  | nil => rfl
  | cons a l ih =>
    have ih := ih (pairwise_cons.mp hs).2
    by_cases hk : key a=k
    · rw [hs.find_cons hk] at ih
      simp [hf,hk,ih]
    · simpa [hf,hk] using ih

omit [Std.TransOrd K] [DecidableEq K] in
theorem mem_merge {r : List α} {side : Side α} (h : side∈merge key l r) :
    (∃ a∈l,side = .left a) ∨ (∃ b∈r,side = .right b) ∨
      ∃ a∈l,∃ b∈r,side = .both a b ∧ key a=key b := by
  fun_induction merge key l r with
  | case1 rs =>
    obtain ⟨b,hb,rfl⟩ := mem_map.mp h
    exact .inr (.inl ⟨b,hb,rfl⟩)
  | case2 l ls =>
    obtain ⟨a,ha,rfl⟩ := mem_map.mp h
    exact .inl ⟨a,ha,rfl⟩
  | case3 l ls r rs hc ih =>
    rcases mem_cons.mp h with rfl | h
    · exact .inl ⟨l,mem_cons_self,rfl⟩
    · rcases ih h with ⟨a,ha,rfl⟩ | ⟨b,hb,rfl⟩ | ⟨a,ha,b,hb,rfl,hk⟩
      · exact .inl ⟨a,mem_cons_of_mem _ ha,rfl⟩
      · exact .inr (.inl ⟨b,hb,rfl⟩)
      · exact .inr (.inr ⟨a,mem_cons_of_mem _ ha,b,hb,rfl,hk⟩)
  | case4 l ls r rs hc ih =>
    rcases mem_cons.mp h with rfl | h
    · exact .inr (.inr ⟨l,mem_cons_self,r,mem_cons_self,rfl,Std.LawfulEqOrd.eq_of_compare hc⟩)
    · rcases ih h with ⟨a,ha,rfl⟩ | ⟨b,hb,rfl⟩ | ⟨a,ha,b,hb,rfl,hk⟩
      · exact .inl ⟨a,mem_cons_of_mem _ ha,rfl⟩
      · exact .inr (.inl ⟨b,mem_cons_of_mem _ hb,rfl⟩)
      · exact .inr (.inr ⟨a,mem_cons_of_mem _ ha,b,mem_cons_of_mem _ hb,rfl,hk⟩)
  | case5 l ls r rs hc ih =>
    rcases mem_cons.mp h with rfl | h
    · exact .inr (.inl ⟨r,mem_cons_self,rfl⟩)
    · rcases ih h with ⟨a,ha,rfl⟩ | ⟨b,hb,rfl⟩ | ⟨a,ha,b,hb,rfl,hk⟩
      · exact .inl ⟨a,ha,rfl⟩
      · exact .inr (.inl ⟨b,mem_cons_of_mem _ hb,rfl⟩)
      · exact .inr (.inr ⟨a,ha,b,mem_cons_of_mem _ hb,rfl,hk⟩)

omit [DecidableEq K] in
theorem merge_sorted {r : List α} (hl : Sorted key l) (hr : Sorted key r) : Sorted (Side.on key) (merge key l r) := by
  -- what is below both lists is below the merge
  have hcons : ∀ {k : K} {l r : List α},(∀ x∈l,compare k (key x) = .lt) → (∀ x∈r,compare k (key x) = .lt) →
      ∀ side∈merge key l r,compare k (side.on key) = .lt := by
    intro k l r hl hr side hside
    rcases mem_merge hside with ⟨a,ha,rfl⟩ | ⟨b,hb,rfl⟩ | ⟨a,ha,b,hb,rfl,-⟩
    · exact hl a ha
    · exact hr b hb
    · exact hl a ha
  fun_induction merge key l r with
  | case1 rs => exact pairwise_map.mpr hr
  | case2 l ls => exact pairwise_map.mpr hl
  | case3 l ls r rs hc ih =>
    obtain ⟨hl0,hl⟩ := pairwise_cons.mp hl
    exact pairwise_cons.mpr ⟨hcons hl0 (hr.below hc),ih hl hr⟩
  | case4 l ls r rs hc ih =>
    obtain ⟨hl0,hl⟩ := pairwise_cons.mp hl
    obtain ⟨hr0,hr⟩ := pairwise_cons.mp hr
    rw [← Std.LawfulEqOrd.eq_of_compare hc] at hr0
    exact pairwise_cons.mpr ⟨hcons hl0 hr0,ih hl hr⟩
  | case5 l ls r rs hc ih =>
    obtain ⟨hr0,hr⟩ := pairwise_cons.mp hr
    exact pairwise_cons.mpr ⟨hcons (hl.below (Std.OrientedCmp.gt_iff_lt.mp hc)) hr0,ih hl hr⟩

/-- For each key the merge has what the two lists have for it. -/
theorem merge_filter {r : List α} (hl : Sorted key l) (hr : Sorted key r) (k : K) :
    (merge key l r).filter (fun p => p.on key=k) =
      meet (l.find? (fun x => key x=k)) (r.find? (fun x => key x=k)) := by
  fun_induction merge key l r with
  | case1 rs =>
    rw [filter_map_key .right (fun _ => rfl) hr]
    cases h : rs.find? (fun x => key x=k) <;> simp [meet]
  | case2 l ls =>
    rw [filter_map_key .left (fun _ => rfl) hl]
    cases h : (l::ls).find? (fun x => key x=k) <;> simp [meet]
  | case3 l ls r rs hc ih =>
    have ih := ih (pairwise_cons.mp hl).2 hr
    by_cases hk : key l=k
    · rw [hl.find_cons hk,hr.find_below (hk ▸ hc)] at ih
      rw [hr.find_below (hk ▸ hc)]
      simpa [Side.on,hk,meet] using ih
    · simpa [Side.on,hk] using ih
  | case4 l ls r rs hc ih =>
    have ih := ih (pairwise_cons.mp hl).2 (pairwise_cons.mp hr).2
    have heq : key l=key r := Std.LawfulEqOrd.eq_of_compare hc
    by_cases hk : key l=k
    · rw [hl.find_cons hk,hr.find_cons (heq ▸ hk)] at ih
      simpa [Side.on,hk,← heq,meet] using ih
    · have hk' : ¬ key r=k := fun h => hk (heq ▸ h)
      simpa [Side.on,hk,hk'] using ih
  | case5 l ls r rs hc ih =>
    have ih := ih hl (pairwise_cons.mp hr).2
    have hgt : compare (key r) (key l) = .lt := Std.OrientedCmp.gt_iff_lt.mp hc
    by_cases hk : key r=k
    · rw [hr.find_cons hk,hl.find_below (hk ▸ hgt)] at ih
      rw [hl.find_below (hk ▸ hgt)]
      simpa [Side.on,hk,meet] using ih
    · simpa [Side.on,hk] using ih

end Gix.SortedMerge
