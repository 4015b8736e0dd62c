import Gix.SimpleTraversalCorrectness

/-! # Setting up a simple traversal

The tips that are accepted wait in one of two containers, which the builder calls fill from each
other. Without a commit-graph, the traversal of all parents yields what can be found from there. -/
namespace Gix.Commit
open PriorityQueue Worklist List

variable {Id : Type} {H : Heap ℤ Id}

namespace Simple

/-- Of the commits that are drained, those within the cutoff are queued with their times. -/
theorem drainNext_ok {cutoff : Option ℤ} {ids : List Id} {s s' : Simple Id H} (h : drainNext cutoff ids s = .ok s') :
    ∃ q,s'={s with queue := q} ∧
      (H.items q).Perm ((ids.filter fun c => cutoff.all (· ≤ commitTime s.objects c)).map
        (fun c => (commitTime s.objects c,c))++H.items s.queue) := by
  induction ids generalizing s with
  | nil =>
    cases h
    exact ⟨_,rfl,.refl _⟩
  | cons c ids ih =>
    rw [drainNext] at h
    split at h
    · cases h
    rename_i it hit
    split at h
    · cases h
    rename_i time htime
    have hc : commitTime s.objects c=time := by simp [commitTime,hit,htime]
    have hinsert : ∀ l,(l++H.items (H.insert s.queue time c)).Perm ((time,c)::(l++H.items s.queue)) :=
      fun l => ((H.items_insert s.queue time c).append_left l).trans perm_middle
    cases cutoff with
    | none =>
      obtain ⟨q,rfl,hq⟩ := ih h
      exact ⟨q,rfl,by simpa [hc] using hq.trans (hinsert _)⟩
    | some limit =>
      by_cases hle : limit ≤ time
      · obtain ⟨q,rfl,hq⟩ := ih (by simpa [hle] using h)
        exact ⟨q,rfl,by simpa [hc,hle] using hq.trans (hinsert _)⟩
      · obtain ⟨q,rfl,hq⟩ := ih (by simpa [hle] using h)
        exact ⟨q,rfl,by simpa [hc,hle] using hq⟩

theorem drainNext_stored (h : History Id) (ids : List Id) (hids : ∀ c∈ids,c∈h.commits) (s : Simple Id H)
    (hs : s.objects=h.objects) : ∃ s',drainNext none ids s = .ok s' := by
  induction ids generalizing s with
  | nil => exact ⟨s,rfl⟩
  | cons c ids ih =>
    obtain ⟨hc,hids⟩ := forall_mem_cons.mp hids
    obtain ⟨_,ho,ht⟩ := h.committer_objects hc
    simp only [drainNext,hs,ho,ht]
    exact ih hids _ rfl

/-! The order of the builder calls -/

variable [DecidableEq Id]

theorem filtered_eq (H : Heap ℤ Id) (tips : List Id) (find : Objects Id) (predicate : Id → Bool) :
    filtered H tips find predicate=⟨find,none,predicate,(discover predicate [] tips).2,H.empty,
      (discover predicate [] tips).1,.all,.breadthFirst⟩ := by
  rw [filtered,foldl_pushNext]
  rfl

theorem collect_first_nil {s : Simple Id H} (hp : s.parents = .first) (hn : s.next=[]) (fuel : ℕ) :
    s.collect (fuel+1)=some [] := by
  simp [collect,iterNext,hp,nextByTopology,stepByTopology,hn]

theorem collect_first_cons {s : Simple Id H} (hp : s.parents = .first) (hc : s.cache=none) (hn : s.next≠[]) :
    s.collect 1=none := by
  obtain ⟨c,next,hn⟩ := exists_cons_of_ne_nil hn
  have hitem : s.iterNext.1≠none := by
    simp only [iterNext,hp,nextByTopology,stepByTopology,hn,find,hc,Option.bind_none]
    cases s.objects c with
    | error e => simp
    | ok it =>
      dsimp only
      split <;> simp
  obtain ⟨item,hitem⟩ := Option.ne_none_iff_exists'.mp hitem
  rw [collect,show s.iterNext=(some item,s.iterNext.2) by rw [← hitem]]
  rfl

/-- Both orders agree, unless the first parents are followed by time: then `sorting()` leaves what
`parents()` has put into the `VecDeque` in the queue, where nothing looks for it. -/
theorem builder_order_iff {tips : List Id} {find : Objects Id} {predicate : Id → Bool} {sorting : Sorting}
    {mode : Parents} {a b : Simple Id H} (ha : (filtered H tips find predicate).withSorting sorting = .ok a)
    (hb : ((filtered H tips find predicate).withParents mode).withSorting sorting = .ok b) :
    (∀ fuel, (a.withParents mode).collect fuel = b.collect fuel) ↔
      mode = .all ∨ sorting = .breadthFirst ∨
        ∀ tip ∈ tips, predicate tip = true → ∃ limit, sorting.cutoffTime = some limit ∧ commitTime find tip < limit := by
  rw [filtered_eq] at ha hb
  by_cases hs : sorting = .breadthFirst
  · subst hs
    refine iff_of_true (fun fuel => ?_) (.inr (.inl rfl))
    cases ha
    cases mode <;> cases hb <;> simp [withParents,queueToVecdeque]
  -- the tips go through the queue in both orders
  have hdrain : ∀ s : Simple Id H,s.withSorting sorting =
      drainNext sorting.cutoffTime s.next {s with sorting := sorting,next := []} := by
    intro s
    cases sorting <;> first | rfl | exact absurd rfl hs
  rw [hdrain] at ha hb
  obtain ⟨q,hqa,hq⟩ := drainNext_ok ha
  obtain ⟨_,hqb,-⟩ := drainNext_ok hb
  cases mode with
  | all =>
    refine iff_of_true (fun fuel => ?_) (.inl rfl)
    cases ha.symm.trans hb
    rw [hqa]
    rfl
  | first =>
    have hnext : (a.withParents .first).next=H.values q := by
      rw [hqa]
      rfl
    have hend : ∀ fuel,b.collect (fuel+1)=some [] := by
      refine collect_first_nil ?_ ?_ <;> rw [hqb]
      rfl
    have hkept : H.values q=[] ↔ ∀ tip∈tips,predicate tip=true →
        ∃ limit,sorting.cutoffTime=some limit ∧ commitTime find tip < limit := by
      rw [Heap.values,map_eq_nil_iff,← length_eq_zero_iff,hq.length_eq]
      cases hcut : sorting.cutoffTime <;>
        simp [mem_discover_new,eq_nil_iff_forall_not_mem]
    rw [← hkept,← hnext,or_iff_right (by simp),or_iff_right hs]
    constructor
    · intro hsame
      by_contra hne
      have hone := hsame 1
      rw [hend,collect_first_cons rfl (by rw [hqa]; rfl) hne] at hone
      cases hone
    · intro hnil fuel
      cases fuel with
      | zero => rfl
      | succ fuel => rw [hend,collect_first_nil rfl hnil]

/-- Two commits, the newer one with the other as its parent. -/
def twoCommits : History ℕ :=
  .ofParents [1,0] (fun c => if c = 1 then [0] else []) (fun c => c) (by decide)

theorem builder_order_breadth_first :
    ∃ a b : Simple ℕ (sorted ℤ ℕ), (new _ [1] twoCommits.objects).withSorting .breadthFirst = .ok a ∧
      ((new _ [1] twoCommits.objects).withParents .first).withSorting .breadthFirst = .ok b ∧
      ∀ fuel, (a.withParents .first).collect fuel = b.collect fuel :=
  ⟨_,_,rfl,rfl,(builder_order_iff rfl rfl).mpr (.inr (.inl rfl))⟩

/-- By time, the first parents of the tip are lost in one of the orders. -/
theorem builder_order_loses_tip :
    ∃ a b : Simple ℕ (sorted ℤ ℕ), (new _ [1] twoCommits.objects).withSorting .byCommitTimeNewestFirst = .ok a ∧
      ((new _ [1] twoCommits.objects).withParents .first).withSorting .byCommitTimeNewestFirst = .ok b ∧
      (a.withParents .first).collect 3 = some [.ok ⟨1,[0],none⟩,.ok ⟨0,[],none⟩] ∧ b.collect 3 = some [] :=
  ⟨_,_,rfl,rfl,rfl,rfl⟩

/-! What is yielded -/

/-- The keys of the queue are the times of its commits. -/
def Timed (h : History Id) (s : Simple Id H) : Prop := ∀ x ∈ H.items s.queue, x.1 = h.time x.2

variable {h : History Id} {s : Simple Id H} {c : Id}

theorem Timed.pushAll (ht : s.Timed h) (ps : List Id) : (s.pushAll (ps.map fun p => (p,h.time p))).Timed h := by
  induction ps generalizing s with
  | nil => exact ht
  | cons p ps ih =>
    refine ih (s := s.pushQueue none (h.time p) p) ?_
    unfold pushQueue
    split_ifs
    · exact ht
    · intro x hx
      rcases mem_cons.mp ((H.items_insert s.queue (h.time p) p).mem_iff.mp hx) with rfl | hx
      · rfl
      · exact ht x hx
    · exact ht

/-- A traversal by time between two calls. -/
structure Ready (h : History Id) (s : Simple Id H) : Prop where
  stored : s.Over h
  cache : s.cache = none
  sorting : s.sorting = .byCommitTimeNewestFirst
  timed : s.Timed h

theorem Ready.next (hr : s.Ready h) : s.iterNext.2.Ready h := by
  cases hp : s.popFrontier with
  | none =>
    rw [iterNext_none hr.stored hp]
    exact hr
  | some x =>
    obtain ⟨⟨_,c⟩,r⟩ := x
    have hc := hr.stored.popped hp
    obtain ⟨-,-,hcache,-,hor⟩ := popFrontier_some hr.stored hp
    obtain ⟨-,-,hcache',-,hoe⟩ := expand_spec hor hc
    rw [iterNext_stored hr.stored hp hc (by simp [hr.cache])]
    have hexpand : r.sorting = .byCommitTimeNewestFirst ∧ r.Timed h := by
      rcases popFrontier_cases hr.stored hp with ⟨next,hs,-⟩ | ⟨time,q,hs,hq,-,rfl⟩
      · simp [hr.sorting] at hs
      · exact ⟨hs,fun x hx => hr.timed x ((H.pop_some _ _ _ hq).mem_iff.mpr (mem_cons_of_mem _ hx))⟩
    obtain ⟨q,hq,-⟩ := r.pushAll_spec ((h.parents c).map fun p => (p,h.time p))
    refine ⟨hoe,by rw [hcache',hcache,hr.cache],?_,?_⟩
    · simp [expand,hexpand.1,hq]
    · simpa [expand,hexpand.1] using hexpand.2.pushAll (h.parents c)

/-- The commit of a call is the newest of those that wait. -/
theorem Ready.newest (hr : s.Ready h) {info : Info Id} (hcall : s.iterNext.1=some (.ok info)) :
    info.commitTime=some (h.time info.id) ∧ info.id∈H.values s.queue ∧
      ∀ d∈H.values s.queue,h.time d ≤ h.time info.id := by
  cases hp : s.popFrontier with
  | none => simp [iterNext_none hr.stored hp] at hcall
  | some x =>
    obtain ⟨⟨_,c⟩,_⟩ := x
    rw [iterNext_stored hr.stored hp (hr.stored.popped hp) (by simp [hr.cache])] at hcall
    cases hcall
    rcases popFrontier_cases hr.stored hp with ⟨_,hs,-⟩ | ⟨time,_,-,hq,rfl,-⟩
    · simp [hr.sorting] at hs
    have hmem := (H.pop_some _ _ _ hq).mem_iff.mpr mem_cons_self
    have htime : time=h.time c := hr.timed _ hmem
    refine ⟨by rw [htime],mem_map_of_mem hmem,fun d hd => ?_⟩
    obtain ⟨y,hy,rfl⟩ := mem_map.mp hd
    rw [← htime,← hr.timed y hy]
    exact H.pop_max _ _ _ hq y hy

/-- The traversal before its first call: the accepted tips are seen and wait to be yielded. -/
theorem withSorting_spec (h : History Id) (tips : List Id) (ht : ∀ t∈tips,t∈h.commits) (accept : Id → Bool)
    (sorting : Sorting) (hs : sorting.cutoffTime=none) :
    ∃ s : Simple Id H,(filtered H tips h.objects accept).withSorting sorting = .ok s ∧ s.Over h ∧ s.cache=none ∧
      s.predicate=accept ∧ s.sorting=sorting ∧ s.Timed h ∧ Invariant accept h.parents tips s.frontier s.seen [] := by
  have hmem : ∀ c∈(discover accept [] tips).2,c∈h.commits := fun c hc => ht c (mem_discover_new.mp hc).1
  rw [filtered_eq]
  rcases sorting_cases hs with rfl | rfl
  · refine ⟨_,rfl,⟨rfl,rfl,rfl,?_⟩,rfl,rfl,rfl,?_,?_⟩
    · simpa [frontier,queueToVecdeque] using hmem
    · simp [Timed,queueToVecdeque]
    · simpa [frontier,queueToVecdeque] using Invariant.initial
  · obtain ⟨s,hdrain⟩ := drainNext_stored h _ hmem (⟨h.objects,none,accept,[],H.empty,(discover accept [] tips).1,.all,
      .byCommitTimeNewestFirst⟩ : Simple Id H) rfl
    obtain ⟨q,rfl,hq⟩ := drainNext_ok hdrain
    have hvalues : (H.values q).Perm (discover accept [] tips).2 := by
      simpa [Heap.values,Function.comp_def] using hq.map Prod.snd
    refine ⟨_,hdrain,⟨rfl,rfl,rfl,fun c hc => hmem c (hvalues.mem_iff.mp hc)⟩,rfl,rfl,rfl,fun x hx => ?_,
      Invariant.initial.of_perm hvalues⟩
    obtain ⟨c,hc,rfl⟩ : ∃ c∈(discover accept [] tips).2,(commitTime h.objects c,c)=x := by
      simpa using hq.mem_iff.mp hx
    exact commitTime_objects h (hmem c hc)

def after (n : ℕ) (s : Simple Id H) : Simple Id H := Nat.iterate (fun s => s.iterNext.2) n s

/-- The traversal without a commit-graph ends; it yields once what is reachable from an accepted tip
through accepted commits. By time, each call yields the newest of the commits that wait. -/
theorem filtered_walks (H : Heap ℤ Id) (h : History Id) (tips : List Id) (ht : ∀ t ∈ tips, t ∈ h.commits)
    (accept : Id → Bool) (sorting : Sorting) (hs : sorting = .breadthFirst ∨ sorting = .byCommitTimeNewestFirst) :
    ∃ (s : Simple Id H) (l : List (Info Id)) (calls : ℕ),
      ((filtered H tips h.objects accept).withParents .all).withSorting sorting = .ok s ∧
      (∀ fuel, calls < fuel → s.collect fuel = some (l.map .ok)) ∧ (l.map Info.id).Nodup ∧
      (∀ c, c ∈ l.map Info.id ↔ Found accept h.parents tips c) ∧
      (sorting = .byCommitTimeNewestFirst → ∀ n info, (s.after n).iterNext.1 = some (.ok info) →
        info.commitTime = some (h.time info.id) ∧ info.id ∈ H.values (s.after n).queue ∧
        ∀ d ∈ H.values (s.after n).queue, h.time d ≤ h.time info.id) := by
  have hcutoff : sorting.cutoffTime=none := by rcases hs with rfl | rfl <;> rfl
  obtain ⟨s,hstart,ho,hcache,hpred,hsorting,htimed,hinit⟩ := withSorting_spec (H := H) h tips ht accept sorting hcutoff
  obtain ⟨l,_,hrun,hcol⟩ := exists_run ho hcache
  rw [← hpred] at hinit
  have hend := hrun.invariant ho hinit
  rw [hpred] at hend
  refine ⟨s,l,_,?_,hcol,by simpa using hend.nodup,hend.complete,fun hdate n => ?_⟩
  · rw [← hstart,filtered_eq]
    rfl
  have hready : ∀ n,(s.after n).Ready h := by
    intro n
    induction n with
    | zero => exact ⟨ho,hcache,hsorting.trans hdate,htimed⟩
    | succ n ih =>
      rw [after,Function.iterate_succ_apply']
      exact ih.next
  exact fun info => (hready n).newest

theorem filtered_walks_two_commits :
    ∃ (s : Simple ℕ (sorted ℤ ℕ)) (l : List (Info ℕ)) (calls : ℕ),
      ((filtered _ [1] twoCommits.objects (· = 1)).withParents .all).withSorting .byCommitTimeNewestFirst = .ok s ∧
      (∀ fuel, calls < fuel → s.collect fuel = some (l.map .ok)) ∧
      ∀ c, c ∈ l.map Info.id ↔ Found (· = 1) twoCommits.parents [1] c := by
  obtain ⟨s,l,calls,hs,hcol,-,hfound,-⟩ := filtered_walks (sorted ℤ ℕ) twoCommits [1] (by decide) (· = 1)
    .byCommitTimeNewestFirst (.inr rfl)
  exact ⟨s,l,calls,hs,hcol,hfound⟩

end Simple
end Gix.Commit
