import Gix.SimpleTraversalWalk

/-! # The simple traversal with a corrupt commit-graph

Dropping the cache in the middle of a call loses the commit that was just popped. The
traversal with a commit-graph yields what it yields without one exactly if no commit it
can reach has an undecodable parent list in that graph. -/
namespace Gix.Commit
open PriorityQueue Worklist

variable {Id : Type} [DecidableEq Id]

namespace Simple

/-- `Simple::new(tips, find).sorting(sorting)?.commit_graph(cache)` -/
def start (H : Heap ℤ Id) (objects : Objects Id) (tips : List Id) (sorting : Sorting)
    (cache : Option (Graph Id)) : Except Error (Simple Id H) :=
  ((new H tips objects).withSorting sorting).map (fun s => s.withCommitGraph cache)

/-- The iterator set up this way ends, without an error, after yielding `l`. -/
def Yields (H : Heap ℤ Id) (objects : Objects Id) (tips : List Id) (sorting : Sorting)
    (cache : Option (Graph Id)) (l : List (Info Id)) : Prop :=
  ∃ s calls, start H objects tips sorting cache = .ok s ∧
    ∀ fuel, calls < fuel → s.collect fuel = some (l.map .ok)

variable {H : Heap ℤ Id}

/-- With a commit-graph that agrees with the object database wherever it can be read, both
sortings yield the commits of the traversal without it, each reachable one once, if and
only if no reachable commit has a parent list that fails to decode. -/
theorem commitGraph_transparent_iff (H : Heap ℤ Id) (h : History Id) (tips : List Id)
    (ht : ∀ t ∈ tips, t ∈ h.commits) (sorting : Sorting) (hs : sorting.cutoffTime = none)
    (g : Graph Id) (hg : g.Agrees h) :
    ∃ plain cached : List (Info Id), Yields H h.objects tips sorting none plain ∧
      Yields H h.objects tips sorting (some g) cached ∧
      (plain.map Info.id).Nodup ∧ (∀ c, c ∈ plain.map Info.id ↔ h.ReachableFrom tips c) ∧
      (cached.map Info.id = plain.map Info.id ↔ ∀ c, h.ReachableFrom tips c → ¬ g.Corrupt c) ∧
      ((∀ c, c ∈ cached.map Info.id ↔ h.ReachableFrom tips c) ↔
        ∀ c, h.ReachableFrom tips c → ¬ g.Corrupt c) := by
  obtain ⟨s,hnew,ho,hcache,hpred,-,-,hinit⟩ := withSorting_spec h tips ht (fun _ => true) sorting hs
  have hstart : ∀ cache,start H h.objects tips sorting cache = .ok {s with cache := cache} := by
    intro cache
    rw [start,new,hnew]
    rfl
  rw [← hpred] at hinit
  obtain ⟨plain,_,hrun,hcol⟩ := exists_run ho hcache
  have hend := hrun.invariant ho hinit
  rw [hpred] at hend
  have hstep : Step (fun _ => true) h.parents=h.Parent := by
    funext a b
    simp [Step,History.Parent]
  have hreach : ∀ c, c∈plain.map Info.id ↔ h.ReachableFrom tips c := fun c => (hend.complete c).trans (by
    simp [Found,hstep,History.ReachableFrom,History.Reachable])
  obtain ⟨cached,hcol',hres⟩ := hrun.cached ho hcache hg
    (fun c hc => hinit.seen_of_mem c hc) hinit.nodup
  refine ⟨plain,cached,⟨s,_,?_,hcol⟩,⟨_,_,hstart (some g),hcol'⟩,by simpa using hend.nodup,hreach,?_,?_⟩
  · rw [hstart none,← hcache]
  · constructor
    · intro heq c hc hcor
      rcases hres with ⟨_,hall⟩ | ⟨d,hd,_,hdn⟩
      · exact hall c ((hreach c).mpr hc) hcor
      · exact hdn (heq ▸ hd)
    · intro hall
      rcases hres with ⟨rfl,_⟩ | ⟨d,hd,hdc,_⟩
      · rfl
      · exact absurd hdc (hall d ((hreach d).mp hd))
  · constructor
    · intro hiff c hc hcor
      rcases hres with ⟨_,hall⟩ | ⟨d,hd,_,hdn⟩
      · exact hall c ((hreach c).mpr hc) hcor
      · exact hdn ((hiff d).mpr ((hreach d).mp hd))
    · intro hall
      rcases hres with ⟨rfl,_⟩ | ⟨d,hd,hdc,_⟩
      · exact hreach
      · exact absurd hdc (hall d ((hreach d).mp hd))

/-- A graph file that cannot decode the parent list of the newer one of two commits. -/
def undecodable : Graph ℕ where
  lookup c := if c = 1 then some 0 else none
  idAt _ := 1
  iterParents _ := [.error ()]
  committerTimestamp _ := 1
  generation _ := 2

theorem undecodable_agrees : undecodable.Agrees twoCommits := by
  intro c _ pos _ qs hq
  cases qs with
  | nil => simp [undecodable] at hq
  | cons q qs => simp [undecodable] at hq

theorem commitGraph_transparent_undecodable :
    ∃ plain cached : List (Info ℕ),
      Yields (sorted ℤ ℕ) twoCommits.objects [1] .byCommitTimeNewestFirst none plain ∧
      Yields (sorted ℤ ℕ) twoCommits.objects [1] .byCommitTimeNewestFirst (some undecodable) cached ∧
      (plain.map Info.id).Nodup ∧ (∀ c, c ∈ plain.map Info.id ↔ twoCommits.ReachableFrom [1] c) ∧
      (cached.map Info.id = plain.map Info.id ↔
        ∀ c, twoCommits.ReachableFrom [1] c → ¬ undecodable.Corrupt c) ∧
      ((∀ c, c ∈ cached.map Info.id ↔ twoCommits.ReachableFrom [1] c) ↔
        ∀ c, twoCommits.ReachableFrom [1] c → ¬ undecodable.Corrupt c) :=
  commitGraph_transparent_iff (sorted ℤ ℕ) twoCommits [1] (by decide) .byCommitTimeNewestFirst rfl
    undecodable undecodable_agrees

/-- The traversal loses the corrupt tip and with it the whole history. -/
theorem commitGraph_loses_tip :
    ∃ plain cached : List (Info ℕ), undecodable.Agrees twoCommits ∧
      Yields (sorted ℤ ℕ) twoCommits.objects [1] .breadthFirst none plain ∧
      Yields (sorted ℤ ℕ) twoCommits.objects [1] .breadthFirst (some undecodable) cached ∧
      plain.map Info.id = [1,0] ∧ cached.map Info.id = [] := by
  refine ⟨[⟨1,[0],none⟩,⟨0,[],none⟩],[],undecodable_agrees,⟨_,2,rfl,?_⟩,⟨_,0,rfl,?_⟩,rfl,rfl⟩
  · intro fuel hf
    obtain ⟨k,rfl⟩ := Nat.exists_eq_add_of_lt hf
    rw [show 2+k+1=k+3 by omega]
    rfl
  · intro fuel hf
    obtain ⟨k,rfl⟩ := Nat.exists_eq_add_of_lt hf
    rfl

end Simple
end Gix.Commit
