import Mathlib

/-! # Tables of records of one width

Records that all have the same width are found by their position, be it one at a time or all of
them in order. -/
namespace Gix.FixedTable
open List
variable {α β : Type} {start i : ℕ}

/-- `l[start..]`, if this is in bounds. -/
def sliceFrom (l : List β) (start : ℕ) : Option (List β) := if start ≤ l.length then some (l.drop start) else none

/-- `l[start..][..len]`, if this is in bounds. -/
def slice (l : List β) (start len : ℕ) : Option (List β) :=
  if start+len ≤ l.length then some ((l.drop start).take len) else none

/-- `chunks_exact()`: what is left over at the end is not part of it. -/
def chunksExact (k : ℕ) (l : List β) : List (List β) := (List.range (l.length/k)).map (fun i => (l.drop (k*i)).take k)

theorem sliceFrom_append {a : List β} (ha : a.length=start) (b : List β) : sliceFrom (a++b) start=some b := by
  subst ha
  rw [sliceFrom,if_pos (by simp),drop_left]

theorem slice_within {l r : List β} {k len : ℕ} (h : slice l start k=some r) (hi : i+len ≤ k) :
    slice l (start+i) len=some ((r.drop i).take len) := by
  unfold slice at h
  split at h
  · cases h
    rw [slice,if_pos (by omega),drop_take,take_take,drop_drop,Nat.min_eq_left (by omega)]
  · cases h

section Tables
variable {f : α → List β} {k : ℕ} {xs : List α} {x : α}

section
variable (hf : ∀ x∈xs,(f x).length=k)
include hf

theorem table_length : (xs.flatMap f).length=xs.length*k := by
  induction xs with
  | nil => simp
  | cons x xs ih =>
    obtain ⟨hx,hxs⟩ := forall_mem_cons.mp hf
    rw [flatMap_cons,length_append,hx,ih hxs,length_cons,Nat.succ_mul,Nat.add_comm]

theorem table_drop (i : ℕ) (hi : i ≤ xs.length) (rest : List β) :
    (xs.flatMap f++rest).drop (k*i)=(xs.drop i).flatMap f++rest := by
  have hlen := table_length fun x hx => hf x (mem_of_mem_take (i := i) hx)
  rw [length_take_of_le hi] at hlen
  have hsplit : xs.flatMap f=(xs.take i).flatMap f++(xs.drop i).flatMap f := by
    rw [← flatMap_append,take_append_drop]
  rw [hsplit,append_assoc,Nat.mul_comm,← hlen,drop_left]

theorem table_get (hx : xs[i]? = some x) (rest : List β) :
    ((xs.flatMap f++rest).drop (k*i)).take k=f x := by
  obtain ⟨hi,rfl⟩ := List.getElem?_eq_some_iff.mp hx
  rw [table_drop hf i (Nat.le_of_lt hi),drop_eq_getElem_cons hi,flatMap_cons,append_assoc]
  exact take_left' (hf _ (getElem_mem hi))

theorem slice_table (hx : xs[i]? = some x) {pre : List β}
    (hpre : pre.length=start) (rest : List β) : slice (pre++(xs.flatMap f++rest)) (start+i*k) k=some (f x) := by
  subst hpre
  obtain ⟨hi,-⟩ := List.getElem?_eq_some_iff.mp hx
  have hle : (i+1)*k ≤ xs.length*k := Nat.mul_le_mul_right k hi
  rw [slice,if_pos,Nat.mul_comm i k,drop_append,drop_eq_nil_of_le (by omega),Nat.add_sub_cancel_left,nil_append,
    table_get hf hx]
  rw [length_append,length_append,table_length hf]
  rw [Nat.succ_mul] at hle
  omega

end

theorem chunksExact_table (hk : 0 < k) (hf : ∀ x∈xs,(f x).length=k) (rest : List β) :
    (chunksExact k (xs.flatMap f++rest)).take xs.length=xs.map f := by
  have hle : xs.length ≤ (xs.flatMap f++rest).length/k := by
    rw [Nat.le_div_iff_mul_le hk,length_append,table_length hf]
    omega
  rw [chunksExact,← map_take,take_range,Nat.min_eq_left hle]
  apply ext_getElem?
  intro i
  rw [getElem?_map,getElem?_map]
  by_cases hi : i < xs.length
  · rw [getElem?_range hi,getElem?_eq_getElem hi,Option.map_some,Option.map_some,
      table_get hf (getElem?_eq_getElem hi)]
  · rw [getElem?_eq_none (by simpa using hi),getElem?_eq_none (by simpa using hi)]
    rfl

end Tables
end Gix.FixedTable
