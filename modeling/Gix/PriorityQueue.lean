import Mathlib

/-! # Priority queues known by their documented behaviour

A binary heap promises that `pop` hands out an item of greatest key; which one it
takes among equal keys is left open. A proof about a program that uses one has to
hold for every choice, so the queue is a record of operations with these promises. -/
namespace Gix.PriorityQueue
open List

/-- The operations of a max-queue. `items` lists its content in storage order. -/
structure Heap (K T : Type) [LE K] where
  Carrier : Type
  empty : Carrier
  insert : Carrier → K → T → Carrier
  pop : Carrier → Option ((K × T) × Carrier)
  items : Carrier → List (K × T)
  items_empty : items empty = []
  items_insert : ∀ q k t, (items (insert q k t)).Perm ((k,t) :: items q)
  pop_none : ∀ q, pop q = none → items q = []
  pop_some : ∀ q x r, pop q = some (x,r) → (items q).Perm (x :: items r)
  pop_max : ∀ q x r, pop q = some (x,r) → ∀ y ∈ items q, y.1 ≤ x.1

namespace Heap
variable {K T : Type} [LE K] (h : Heap K T)

def peek (q : h.Carrier) : Option (K × T) := (h.pop q).map Prod.fst

def values (q : h.Carrier) : List T := (h.items q).map Prod.snd

attribute [simp] items_empty

@[simp] theorem values_empty : h.values h.empty=[] := by simp [values]

theorem values_insert (q : h.Carrier) (k : K) (t : T) :
    (h.values (h.insert q k t)).Perm (t::h.values q) := by
  simpa [values] using (h.items_insert q k t).map Prod.snd

theorem values_pop {q r : h.Carrier} {x : K × T} (hp : h.pop q=some (x,r)) :
    (h.values q).Perm (x.2::h.values r) := by
  simpa [values] using (h.pop_some q x r hp).map Prod.snd

theorem values_pop_none {q : h.Carrier} (hp : h.pop q=none) : h.values q=[] := by
  simp [values,h.pop_none q hp]

end Heap

section Sorted
variable {K T : Type} [LinearOrder K]

/-- Insertion behind every item whose key is at least as large. -/
def sortedInsert (k : K) (t : T) : List (K × T) → List (K × T)
  | [] => [(k,t)]
  | x :: xs => if k ≤ x.1 then x :: sortedInsert k t xs else (k,t) :: x :: xs

theorem sortedInsert_perm (k : K) (t : T) (xs : List (K × T)) :
    (sortedInsert k t xs).Perm ((k,t)::xs) := by
  induction xs with
  | nil => exact .refl _
  | cons x xs ih =>
    simp only [sortedInsert]
    split
    · exact (ih.cons x).trans (.swap _ _ _)
    · exact .refl _

theorem sortedInsert_sorted (k : K) (t : T) (xs : List (K × T))
    (hs : xs.Pairwise (fun a b => b.1 ≤ a.1)) :
    (sortedInsert k t xs).Pairwise (fun a b => b.1 ≤ a.1) := by
  induction xs with
  | nil => simp [sortedInsert]
  | cons x xs ih =>
    have hx := pairwise_cons.mp hs
    simp only [sortedInsert]
    split
    next hk =>
      refine pairwise_cons.mpr ⟨?_,ih hx.2⟩
      intro y hy
      rcases mem_cons.mp ((sortedInsert_perm k t xs).mem_iff.mp hy) with rfl | hy
      · exact hk
      · exact hx.1 y hy
    next hk =>
      refine pairwise_cons.mpr ⟨?_,hs⟩
      intro y hy
      have hlt : x.1 ≤ k := le_of_lt (not_le.mp hk)
      rcases mem_cons.mp hy with rfl | hy
      · exact hlt
      · exact le_trans (hx.1 y hy) hlt

/-- The executable instance: a list kept in descending order of its keys. -/
def sorted (K T : Type) [LinearOrder K] : Heap K T where
  Carrier := {xs : List (K × T) // xs.Pairwise (fun a b => b.1 ≤ a.1)}
  empty := ⟨[],.nil⟩
  insert q k t := ⟨sortedInsert k t q.1,sortedInsert_sorted k t q.1 q.2⟩
  pop q := match q with
    | ⟨[],_⟩ => none
    | ⟨x :: xs,hs⟩ => some (x,⟨xs,hs.of_cons⟩)
  items q := q.1
  items_empty := rfl
  items_insert q k t := sortedInsert_perm k t q.1
  pop_none q hq := by
    rcases q with ⟨_ | ⟨x,xs⟩,hs⟩
    · rfl
    · simp at hq
  pop_some q x r hq := by
    rcases q with ⟨_ | ⟨y,ys⟩,hs⟩
    · simp at hq
    · cases hq
      exact .refl _
  pop_max q x r hq := by
    rcases q with ⟨_ | ⟨y,ys⟩,hs⟩
    · simp at hq
    · cases hq
      intro z hz
      rcases List.mem_cons.mp hz with rfl | hz
      · exact le_refl _
      · exact (List.pairwise_cons.mp hs).1 z hz

end Sorted
end Gix.PriorityQueue
