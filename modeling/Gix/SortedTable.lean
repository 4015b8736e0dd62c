import Gix.SortedSearch

/-! # Tables that are searched by bisection

A table is a list in the order of its keys. A search is known by its contract only, and the order is
one only on the keys that are in use; then putting an element in changes what is found for its key and
for no other. -/
namespace Gix.SortedTable
open List SortedSearch

/-- Smaller elements come first, then equal ones, then greater ones. -/
def Splits {α : Type} (cmp : α → Ordering) (l : List α) : Prop :=
  l.Pairwise fun a b => (cmp b = .lt → cmp a = .lt) ∧ (cmp a = .gt → cmp b = .gt)

/-- `slice::binary_search_by()` by its contract. -/
structure Search where
  run : ∀ {α : Type},(α → Ordering) → List α → Except ℕ ℕ
  found : ∀ {α : Type} {cmp : α → Ordering} {l : List α} {i : ℕ},Splits cmp l → run cmp l = .ok i →
    ∃ a,l[i]? = some a ∧ cmp a = .eq
  missing : ∀ {α : Type} {cmp : α → Ordering} {l : List α} {i : ℕ},Splits cmp l →
    run cmp l = .error i → i ≤ l.length ∧ (∀ a ∈ l.take i,cmp a = .lt) ∧ ∀ a ∈ l.drop i,cmp a = .gt

/-! Bisection -/

section Bisect
variable {α : Type} {cmp : α → Ordering} {l : List α}

/-- The element in the middle decides which half is searched. -/
def bisect (cmp : α → Ordering) (l : List α) : ℕ → ℕ → ℕ → Except ℕ ℕ
  | 0,left,_ => .error left
  | fuel+1,left,right =>
    if left < right then
      let mid := left+(right-left)/2
      match (l[mid]?).map cmp with
      | some .lt => bisect cmp l fuel (mid+1) right
      | some .gt => bisect cmp l fuel left mid
      | some .eq => .ok mid
      | none => .error left
    else .error left

/-- What lies outside of the part that is left to search. -/
structure Narrows (cmp : α → Ordering) (l : List α) (left right : ℕ) : Prop where
  le : left ≤ right
  inside : right ≤ l.length
  below : ∀ a ∈ l.take left,cmp a = .lt
  above : ∀ a ∈ l.drop right,cmp a = .gt

theorem Narrows.right_half {left right mid : ℕ} (h : Narrows cmp l left right) (hl : Splits cmp l)
    (hmid : mid < right) {a : α} (ha : l[mid]? = some a) (hlt : cmp a = .lt) :
    Narrows cmp l (mid+1) right where
  le := hmid
  inside := h.inside
  above := h.above
  below b hb := by
    obtain ⟨j,hj,rfl⟩ := getElem_of_mem hb
    rw [length_take] at hj
    rw [getElem_take]
    obtain ⟨hm,rfl⟩ := List.getElem?_eq_some_iff.1 ha
    have hle : j ≤ mid := by omega
    rcases Nat.lt_or_eq_of_le hle with hj'|rfl
    · exact (pairwise_iff_getElem.1 hl j mid (by omega) hm hj').1 hlt
    · exact hlt

theorem Narrows.left_half {left right mid : ℕ} (h : Narrows cmp l left right) (hl : Splits cmp l)
    (hmid : left ≤ mid ∧ mid < right) {a : α} (ha : l[mid]? = some a) (hgt : cmp a = .gt) :
    Narrows cmp l left mid where
  le := hmid.1
  inside := Nat.le_trans (Nat.le_of_lt hmid.2) h.inside
  below := h.below
  above b hb := by
    obtain ⟨j,hj,rfl⟩ := getElem_of_mem hb
    rw [length_drop] at hj
    rw [getElem_drop]
    obtain ⟨hm,rfl⟩ := List.getElem?_eq_some_iff.1 ha
    cases j with
    | zero => exact hgt
    | succ j => exact (pairwise_iff_getElem.1 hl mid (mid+(j+1)) hm (by omega) (by omega)).2 hgt

theorem bisect_spec (hl : Splits cmp l) {fuel left right : ℕ} (h : Narrows cmp l left right)
    (hfuel : right-left ≤ fuel) :
    (∀ i,bisect cmp l fuel left right = .ok i → ∃ a,l[i]? = some a ∧ cmp a = .eq) ∧
    ∀ i,bisect cmp l fuel left right = .error i →
      i ≤ l.length ∧ (∀ a∈l.take i,cmp a = .lt) ∧ ∀ a∈l.drop i,cmp a = .gt := by
  induction fuel generalizing left right with
  | zero =>
    obtain rfl : left=right := Nat.le_antisymm h.le (by omega)
    refine ⟨by simp [bisect],?_⟩
    rintro _ ⟨⟩
    exact ⟨h.inside,h.below,h.above⟩
  | succ fuel ih =>
    rw [bisect]
    by_cases hlt : left < right
    · have hmid : left ≤ left+(right-left)/2 ∧ left+(right-left)/2 < right := by omega
      generalize left+(right-left)/2=mid at hmid
      obtain ⟨a,ha⟩ : ∃ a,l[mid]? = some a :=
        ⟨_,getElem?_eq_getElem (Nat.lt_of_lt_of_le hmid.2 h.inside)⟩
      simp only [if_pos hlt,ha,Option.map_some]
      cases hcmp : cmp a with
      | lt => exact ih (h.right_half hl hmid.2 ha hcmp) (by omega)
      | gt => exact ih (h.left_half hl hmid ha hcmp) (by omega)
      | eq =>
        refine ⟨?_,by simp⟩
        rintro _ ⟨⟩
        exact ⟨a,ha,hcmp⟩
    · obtain rfl : left=right := Nat.le_antisymm h.le (Nat.le_of_not_lt hlt)
      refine ⟨by simp,?_⟩
      simp only [Nat.lt_irrefl]
      rintro _ ⟨⟩
      exact ⟨h.inside,h.below,h.above⟩

theorem narrows_all (cmp : α → Ordering) (l : List α) : Narrows cmp l 0 l.length :=
  ⟨Nat.zero_le _,Nat.le_refl _,by simp,by simp⟩

end Bisect

/-- Bisection meets the contract. -/
def Search.bisection : Search where
  run cmp l := bisect cmp l l.length 0 l.length
  found hl h := (bisect_spec hl (narrows_all _ _) (Nat.sub_le _ _)).1 _ h
  missing hl h := (bisect_spec hl (narrows_all _ _) (Nat.sub_le _ _)).2 _ h

/-! Tables -/

section Table
variable {α κ : Type} (search : Search) (c : κ → κ → Ordering) (key : α → κ)

/-- The element found for a key is changed, or a new one put in where it belongs. -/
def upsert (k : κ) (new : α) (change : α → α) (l : List α) : List α :=
  match search.run (fun a => c (key a) k) l with
  | .ok i => l.modify i change
  | .error i => l.insertIdx i new

/-- The comparison is an order on the keys of a set. -/
structure OrderOn (K : κ → Prop) : Prop where
  swap : ∀ a b,c b a = (c a b).swap
  trans : ∀ a b d,K a → K b → K d → c a b ≠ .gt → c b d ≠ .gt → c a d ≠ .gt

/-- A table of keys of a set, each of them once. -/
structure Sorted (K : κ → Prop) (l : List α) : Prop where
  keys : ∀ a ∈ l,K (key a)
  sorted : l.Pairwise fun a b => c (key a) (key b) = .lt

variable {c key} {K : κ → Prop} {a b d k : κ}

namespace OrderOn

variable (h : OrderOn c K)
include h

theorem gt_iff : c a b = .gt ↔ c b a = .lt := by
  rw [h.swap b a]
  cases c b a <;> simp

theorem eq_comm : c a b = .eq ↔ c b a = .eq := by
  rw [h.swap b a]
  cases c b a <;> simp

section
variable (ha : K a) (hb : K b) (hd : K d)
include ha hb hd

/-- From one comparison that is strict, the third is. -/
theorem lt_of_le_of_lt (hab : c a b ≠ .gt)
    (hbd : c b d = .lt) : c a d = .lt := by
  by_contra hlt
  have hda : c d a ≠ .gt := fun hgt => hlt (h.gt_iff.1 hgt)
  exact h.trans d a b hd ha hb hda hab (h.gt_iff.2 hbd)

theorem lt_of_lt_of_le (hab : c a b = .lt)
    (hbd : c b d ≠ .gt) : c a d = .lt := by
  by_contra hlt
  have hda : c d a ≠ .gt := fun hgt => hlt (h.gt_iff.1 hgt)
  exact h.trans b d a hb hd ha hbd hda (h.gt_iff.2 hab)

theorem congr (hab : c a b = .eq) :
    c d a=c d b := by
  have hba := h.eq_comm.1 hab
  cases hda : c d a with
  | lt => exact (h.lt_of_lt_of_le hd ha hb hda (by simp [hab])).symm
  | gt =>
    exact (h.gt_iff.2 (h.lt_of_le_of_lt hb ha hd (by simp [hba]) (h.gt_iff.1 hda))).symm
  | eq =>
    cases hdb : c d b with
    | eq => rfl
    | lt =>
      have := h.lt_of_lt_of_le hd hb ha hdb (by simp [hba])
      simp [hda] at this
    | gt =>
      have := h.lt_of_le_of_lt ha hb hd (by simp [hab]) (h.gt_iff.1 hdb)
      have hgt := h.gt_iff.2 this
      simp [hda] at hgt

end

end OrderOn

variable {search} {l : List α}

theorem Sorted.splits (h : OrderOn c K) (hl : Sorted c key K l) (hk : K k) :
    Splits (fun a => c (key a) k) l := by
  refine hl.sorted.imp_of_mem fun {x y} hx hy hxy => ?_
  refine ⟨fun hlt => ?_,fun hgt => ?_⟩
  · exact h.lt_of_le_of_lt (hl.keys x hx) (hl.keys y hy) hk (by simp [hxy]) hlt
  · exact h.gt_iff.2 (h.lt_of_lt_of_le hk (hl.keys x hx) (hl.keys y hy) (h.gt_iff.1 hgt) (by simp [hxy]))

/-- The first element with a key. -/
def find (c : κ → κ → Ordering) (key : α → κ) (k : κ) (l : List α) : Option α :=
  l.find? fun a => c (key a) k = .eq

/-- The elements around a place, if those in front of it are smaller. -/
theorem find_append {pre post : List α} (hpre : ∀ x∈pre,c (key x) k = .lt) :
    find c key k (pre++post)=find c key k post := by
  have : pre.find? (fun a => c (key a) k = .eq)=none := by
    refine find?_eq_none.2 fun x hx => ?_
    simp [hpre x hx]
  rw [find,find?_append,this,Option.none_or,find]

theorem find_of_gt {post : List α} (hpost : ∀ x∈post,c (key x) k = .gt) :
    find c key k post=none := by
  refine find?_eq_none.2 fun x hx => ?_
  simp [hpost x hx]

theorem Sorted.run_cases (search : Search) (h : OrderOn c K) (hl : Sorted c key K l) (hk : K k) :
    (∃ pre a post,l=pre++a::post ∧ search.run (fun a => c (key a) k) l = .ok pre.length ∧
      c (key a) k = .eq ∧ ∀ x∈pre,c (key x) k = .lt) ∨
    ∃ pre post,l=pre++post ∧ search.run (fun a => c (key a) k) l = .error pre.length ∧
      (∀ x∈pre,c (key x) k = .lt) ∧ ∀ x∈post,c (key x) k = .gt := by
  have hsplits := hl.splits h hk
  cases hrun : search.run (fun a => c (key a) k) l with
  | ok i =>
    obtain ⟨a,ha,heq⟩ := search.found hsplits hrun
    obtain ⟨hi,rfl⟩ := List.getElem?_eq_some_iff.1 ha
    have hsplit : l=l.take i++l[i]::l.drop (i+1) := by simp
    refine .inl ⟨l.take i,l[i],l.drop (i+1),hsplit,?_,heq,fun x hx => ?_⟩
    · rw [length_take_of_le (Nat.le_of_lt hi)]
    · have hpairs := hl.sorted
      rw [hsplit] at hpairs
      have hlt := (pairwise_append.1 hpairs).2.2 x hx l[i] mem_cons_self
      exact h.lt_of_lt_of_le (hl.keys x (mem_of_mem_take hx)) (hl.keys _ (getElem_mem hi)) hk
        hlt (by simp [heq])
  | error i =>
    obtain ⟨hi,hbelow,habove⟩ := search.missing hsplits hrun
    refine .inr ⟨l.take i,l.drop i,(take_append_drop i l).symm,?_,hbelow,habove⟩
    rw [length_take_of_le hi]

theorem Sorted.find_upsert (search : Search) (h : OrderOn c K) (hl : Sorted c key K l) (hk : K k)
    (new : α) (change : α → α) (hnew : key new=k) (hchange : ∀ a,key (change a)=key a) {k' : κ}
    (hk' : K k') :
    find c key k' (upsert search c key k new change l) =
      if c k k' = .eq then some (((find c key k l).map change).getD new) else find c key k' l := by
  have hpre' : c k k' = .eq → ∀ {pre},pre ⊆ l → (∀ x∈pre,c (key x) k = .lt) → ∀ x∈pre,c (key x) k' = .lt := by
    intro hkk pre hsub hpre x hx
    rw [← h.congr hk hk' (hl.keys x (hsub hx)) hkk,hpre x hx]
  unfold upsert
  obtain ⟨pre,a,post,rfl,hrun,heq,hpre⟩|⟨pre,post,rfl,hrun,hpre,hpost⟩ := hl.run_cases search h hk
  · have ha : K (key a) := hl.keys a (by simp)
    have hsame : c (key a) k'=c k k' := by
      rw [h.swap k' (key a),h.swap k' k,h.congr ha hk hk' heq]
    rw [hrun]
    simp only
    rw [modify_split]
    by_cases hkk : c k k' = .eq
    · rw [find_append (hpre' hkk (by simp +contextual) hpre),find_append hpre]
      simp [find,hchange,hsame,hkk,heq]
    · simp [find,hchange,hsame,hkk]
  · rw [hrun]
    simp only
    rw [insertIdx_append]
    by_cases hkk : c k k' = .eq
    · rw [find_append (hpre' hkk (by simp +contextual) hpre),find_append hpre,find_of_gt hpost]
      simp [find,hnew,hkk]
    · simp [find,hnew,hkk]

theorem Sorted.upsert (search : Search) (h : OrderOn c K) (hl : Sorted c key K l) (hk : K k)
    (new : α) (change : α → α) (hnew : key new=k) (hchange : ∀ a,key (change a)=key a) :
    Sorted c key K (upsert search c key k new change l) := by
  unfold SortedTable.upsert
  obtain ⟨pre,a,post,rfl,hrun,_,hpre⟩|⟨pre,post,rfl,hrun,hpre,hpost⟩ := hl.run_cases search h hk
  · rw [hrun]
    simp only
    rw [modify_split]
    constructor
    · have hkeys := hl.keys
      simp only [forall_mem_append,forall_mem_cons,hchange] at hkeys ⊢
      exact hkeys
    · have := hl.sorted
      simp only [pairwise_append,pairwise_cons,mem_cons,forall_eq_or_imp,hchange] at this ⊢
      exact this
  · rw [hrun]
    simp only
    rw [insertIdx_append]
    constructor
    · have hkeys := hl.keys
      simp only [forall_mem_append,forall_mem_cons,hnew] at hkeys ⊢
      exact ⟨hkeys.1,hk,hkeys.2⟩
    · have := hl.sorted
      simp only [pairwise_append,pairwise_cons,mem_cons,forall_eq_or_imp,hnew] at this ⊢
      refine ⟨this.1,⟨fun x hx => h.gt_iff.1 (hpost x hx),this.2.1⟩,fun x hx => ⟨hpre x hx,this.2.2 x hx⟩⟩

end Table

end Gix.SortedTable
