import Mathlib

/-! # Binary search in a sorted list

On a list that is sorted by the comparison, a binary search finds the only element that
compares as equal, or else the only place where such an element could be inserted. This is
the result of looking at the elements from the left as well. -/
namespace Gix.SortedSearch
open List

variable {α K : Type} {i : ℕ} {cmp : α → Ordering}

/-- `slice::binary_search_by()` of a sorted list. -/
def binarySearchBy (cmp : α → Ordering) (l : List α) : Except ℕ ℕ :=
  let i := (l.takeWhile (fun a => cmp a = .lt)).length
  match l[i]? with
  | some a => if cmp a = .eq then .ok i else .error i
  | none => .error i

theorem binarySearchBy_congr {cmp' : α → Ordering} {l : List α} (h : ∀ a∈l,cmp a=cmp' a) :
    binarySearchBy cmp l=binarySearchBy cmp' l := by
  have htake : ∀ l' : List α,(∀ a∈l',cmp a=cmp' a) →
      l'.takeWhile (fun a => cmp a = .lt)=l'.takeWhile (fun a => cmp' a = .lt) := by
    intro l' hl'
    induction l' with
    | nil => rfl
    | cons a l' ih =>
      rw [takeWhile_cons,takeWhile_cons,hl' a mem_cons_self,
        ih (fun x hx => hl' x (mem_cons_of_mem _ hx))]
  simp only [binarySearchBy,htake l h]
  generalize hi : (l.takeWhile (fun a => cmp' a = .lt)).length=i
  cases ha : l[i]? with
  | none => rfl
  | some a => simp [h a (mem_of_getElem? ha)]

theorem insertIdx_append (pre post : List α) (x : α) : (pre++post).insertIdx pre.length x=pre++x::post := by
  induction pre with
  | nil => rfl
  | cons a pre ih => simp [ih]

theorem modify_split (pre post : List α) (x : α) (f : α → α) :
    (pre++x::post).modify pre.length f=pre++f x::post := by
  induction pre with
  | nil => rfl
  | cons a pre ih => simpa using ih

theorem binarySearchBy_ok {l : List α} (h : binarySearchBy cmp l = .ok i) :
    ∃ pre x post,l=pre++x::post ∧ pre.length=i ∧ cmp x = .eq := by
  unfold binarySearchBy at h
  generalize (l.takeWhile (fun a => cmp a = .lt)).length=j at h
  cases hx : l[j]? with
  | none => simp [hx] at h
  | some x =>
    simp only [hx] at h
    split at h
    · rename_i heq
      cases h
      obtain ⟨hi,rfl⟩ := List.getElem?_eq_some_iff.mp hx
      refine ⟨l.take i,l[i],l.drop (i+1),?_,length_take_of_le (Nat.le_of_lt hi),heq⟩
      rw [getElem_cons_drop,take_append_drop]
    · cases h

/-- Where a search ends, by what lies to both sides of it. -/
theorem binarySearchBy_split {pre post : List α} (hpre : ∀ a∈pre,cmp a = .lt)
    (hpost : ∀ b∈post.head?,cmp b ≠ .lt) :
    binarySearchBy cmp (pre++post)=match post with
      | [] => .error pre.length
      | b::_ => if cmp b = .eq then .ok pre.length else .error pre.length := by
  have htake : (pre++post).takeWhile (fun a => cmp a = .lt)=pre := by
    rw [takeWhile_append_of_pos (by simpa using hpre)]
    cases post with
    | nil => simp
    | cons b post =>
      have hb := hpost b (by simp)
      simp [hb]
  unfold binarySearchBy
  rw [htake]
  cases post <;> simp

variable [Ord K] [Std.TransOrd K] [Std.LawfulEqOrd K] {key : α → K} {k : K} {l : List α} {a : α}

omit [Std.LawfulEqOrd K] in
theorem split_at (hl : l.Pairwise (fun a b => compare (key a) (key b) ≠ .gt)) (k : K) :
    ∃ pre post,l=pre++post ∧ (∀ a∈pre,compare (key a) k = .lt) ∧ ∀ b∈post,compare (key b) k ≠ .lt := by
  induction l with
  | nil => exact ⟨[],[],rfl,by simp,by simp⟩
  | cons a l ih =>
    obtain ⟨ha,hl⟩ := pairwise_cons.mp hl
    by_cases hlt : compare (key a) k = .lt
    · obtain ⟨pre,post,rfl,hpre,hpost⟩ := ih hl
      exact ⟨a::pre,post,rfl,forall_mem_cons.mpr ⟨hlt,hpre⟩,hpost⟩
    · refine ⟨[],a::l,rfl,by simp,forall_mem_cons.mpr ⟨hlt,fun b hb h => ?_⟩⟩
      exact hlt (Std.TransCmp.lt_of_isLE_of_lt (Ordering.isLE_iff_ne_gt.mpr (ha b hb)) h)

omit [Std.TransOrd K] in
theorem search_found {pre post : List α}
    (hl : (pre++a::post).Pairwise (fun a b => compare (key a) (key b) = .lt)) (ha : key a=k) :
    binarySearchBy (fun x => compare (key x) k) (pre++a::post) = .ok pre.length := by
  have hself : compare (key a) k = .eq := by rw [ha]; exact Std.ReflCmp.compare_self
  rw [binarySearchBy_split]
  · simp [hself]
  · intro x hx
    rw [← ha]
    exact (pairwise_append.mp hl).2.2 x hx a mem_cons_self
  · intro b hb
    obtain rfl : a=b := by simpa using hb
    rw [hself]
    simp

/-- A search for a key that is not there ends where it belongs. -/
theorem search_missing (hl : l.Pairwise (fun a b => compare (key a) (key b) = .lt)) (hk : ∀ a∈l,key a≠k) :
    ∃ pre post,l=pre++post ∧ binarySearchBy (fun x => compare (key x) k) l = .error pre.length ∧
      (∀ a∈pre,compare (key a) k = .lt) ∧ ∀ b∈post,compare k (key b) = .lt := by
  have hle : l.Pairwise (fun a b => compare (key a) (key b) ≠ .gt) := hl.imp fun h => by simp [h]
  obtain ⟨pre,post,rfl,hpre,hpost⟩ := split_at hle k
  have hgt : ∀ b∈post,compare (key b) k = .gt := by
    intro b hb
    have hne : compare (key b) k ≠ .eq := fun h =>
      hk b (mem_append_right _ hb) (Std.LawfulEqOrd.eq_of_compare h)
    cases h : compare (key b) k with
    | lt => exact absurd h (hpost b hb)
    | eq => exact absurd h hne
    | gt => rfl
  refine ⟨pre,post,rfl,?_,hpre,fun b hb => Std.OrientedCmp.lt_of_gt (hgt b hb)⟩
  rw [binarySearchBy_split hpre (fun b hb => hpost b (mem_of_mem_head? hb))]
  cases post with
  | nil => rfl
  | cons b post => simp [hgt b mem_cons_self]

/-! Boundaries in a list that is sorted, but may repeat keys -/

/-- What holds for smaller keys first holds up to a boundary. -/
theorem holds_iff_lt_countP [LE α] {l : List α} (hl : l.Pairwise (· ≤ ·)) {p : α → Bool}
    (hp : ∀ a b,a ≤ b → p b=true → p a=true) (hi : l[i]? = some a) : p a=true ↔ i < l.countP p := by
  induction l generalizing i with
  | nil => simp at hi
  | cons b l ih =>
    obtain ⟨hb,hl⟩ := pairwise_cons.mp hl
    by_cases hpb : p b=true
    · rw [countP_cons_of_pos hpb]
      cases i with
      | zero =>
        obtain rfl : b=a := by simpa using hi
        simp [hpb]
      | succ i => rw [ih hl hi,Nat.add_lt_add_iff_right]
    · have hnone : ∀ c∈b::l,¬p c=true := by
        intro c hc hpc
        rcases mem_cons.mp hc with rfl | hc
        · exact hpb hpc
        · exact hpb (hp b c (hb c hc) hpc)
      rw [countP_eq_zero.mpr hnone]
      simpa using hnone a (mem_of_getElem? hi)

/-! Keys that can repeat: any of the matches may be found -/

/-- `slice::binary_search_by_key()` by its contract. -/
structure BinarySearch where
  run : List ℕ → ℕ → Except ℕ ℕ
  found : ∀ l k i, l.Pairwise (· ≤ ·) → run l k = .ok i → l[i]? = some k
  missing : ∀ l k i, l.Pairwise (· ≤ ·) → run l k = .error i → (∀ x ∈ l.take i, x < k) ∧ ∀ x ∈ l.drop i, k < x

/-- Looking at the keys from the left meets the contract. -/
def BinarySearch.fromLeft : BinarySearch where
  run l k :=
    let i := (l.takeWhile (· < k)).length
    if l[i]? = some k then .ok i else .error i
  found l k i _ h := by
    dsimp only at h
    split at h
    · cases h
      assumption
    · simp at h
  missing l k i hl h := by
    obtain ⟨pre,post,rfl,hpre,hpost⟩ := split_at (hl.imp Nat.compare_ne_gt.mpr) k
    simp only [Nat.compare_eq_lt,ne_eq] at hpre hpost
    have htake : (pre++post).takeWhile (· < k) = pre := by
      rw [takeWhile_append_of_pos (by simpa using hpre)]
      cases post with
      | nil => simp
      | cons b post => simp [hpost b mem_cons_self]
    simp only [htake] at h
    split at h
    · simp at h
    · rename_i hne
      cases h
      rw [take_left,drop_left]
      refine ⟨hpre,fun x hx => ?_⟩
      cases post with
      | nil => cases hx
      | cons b post =>
        have hb : b ≠ k := by simpa using hne
        have hbk := hpost b mem_cons_self
        rcases mem_cons.mp hx with rfl | hx
        · omega
        · have := (pairwise_cons.mp (pairwise_append.mp hl).2.1).1 x hx
          omega

section Keys
variable {l : List α} {key : α → ℕ} (hl : (l.map key).Pairwise (· ≤ ·)) (k : ℕ)
include hl

/-- A sorted list has what is before a key, what has the key, and what is after it. -/
theorem sorted_split : l=l.filter (fun a => key a < k)++(l.filter (fun a => key a=k)++l.filter (fun a => k < key a)) := by
  induction l with
  | nil => rfl
  | cons a l ih =>
    obtain ⟨hle,hl⟩ := pairwise_cons.mp hl
    have ih := ih hl
    have hlt : k ≤ key a → l.filter (fun x => key x < k)=[] := by
      intro h
      simpa using fun x hx => h.trans (hle x hx)
    have heq : k < key a → l.filter (fun x => key x=k)=[] := by
      intro h
      simpa using fun x hx => (h.trans_le (hle x hx)).ne'
    rcases Nat.lt_trichotomy (key a) k with h | h | h
    · simpa [h,h.ne,Nat.not_lt_of_lt h] using ih
    · simpa [h,hlt h.ge] using ih
    · simpa [h,h.ne',Nat.not_lt_of_lt h,hlt h.le,heq h] using ih

/-- What is found is among the elements with the key. -/
theorem BinarySearch.ok_bounds (search : BinarySearch) (h : search.run (l.map key) k = .ok i) :
    (l.filter (fun a => key a < k)).length ≤ i ∧
      i < (l.filter (fun a => key a < k)).length+(l.filter (fun a => key a=k)).length := by
  have hi := search.found _ _ _ hl h
  rw [getElem?_map,Option.map_eq_some_iff] at hi
  obtain ⟨a,ha,_⟩ := hi
  rw [sorted_split hl k] at ha
  constructor
  · by_contra hlt
    rw [getElem?_append_left (by omega)] at ha
    have := mem_filter.mp (mem_of_getElem? ha)
    simp only [decide_eq_true_eq] at this
    omega
  · by_contra hge
    rw [getElem?_append_right (by omega),getElem?_append_right (by omega)] at ha
    have := mem_filter.mp (mem_of_getElem? ha)
    simp only [decide_eq_true_eq] at this
    omega

/-- If nothing is found, no element has the key, and the others are told apart. -/
theorem BinarySearch.error_split (search : BinarySearch) (h : search.run (l.map key) k = .error i) :
    l.filter (fun a => key a=k)=[] ∧ l.drop i=l.filter (fun a => k < key a) := by
  obtain ⟨hlt,hgt⟩ := search.missing _ _ _ hl h
  rw [← map_take] at hlt
  rw [← map_drop] at hgt
  have hlt : ∀ a∈l.take i,key a < k := fun a ha => hlt _ (mem_map_of_mem ha)
  have hgt : ∀ a∈l.drop i,k < key a := fun a ha => hgt _ (mem_map_of_mem ha)
  have hsplit := take_append_drop i l
  constructor
  · rw [filter_eq_nil_iff]
    intro a ha
    rw [← hsplit,mem_append] at ha
    simp only [decide_eq_true_eq]
    rcases ha with ha | ha
    · exact (hlt a ha).ne
    · exact (hgt a ha).ne'
  · have hnone : (l.take i).filter (fun a => k < key a)=[] := by
      rw [filter_eq_nil_iff]
      intro a ha
      have := hlt a ha
      simp only [decide_eq_true_eq]
      omega
    have hall : (l.drop i).filter (fun a => k < key a)=l.drop i := by
      rw [filter_eq_self]
      intro a ha
      simpa using hgt a ha
    conv_rhs => rw [← hsplit,filter_append,hnone,hall,nil_append]

end Keys

end Gix.SortedSearch
