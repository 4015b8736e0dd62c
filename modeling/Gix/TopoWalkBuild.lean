import Gix.TopoWalkSteps

/-! # Building a topological walk

Without a commit-graph all generations are infinite, so building the walk explores
everything that can be reached from the tips and the ends, and counts for each commit the
edges that lead to it. A root is expanded as often as it is listed. -/
namespace Gix.Commit.Topo
open PriorityQueue Worklist KahnSort Fallible List WalkFlags

variable {Id : Type} [DecidableEq Id] {HE : Heap GenAndCommitTime Id} {HI : Heap ℤ (Info Id)}
  {h : History Id} {tips ends : List Id} {w : Topo Id HE HI} {fresh seen log : List Id}

variable {x : Id} {q : HE.Carrier} {k : GenAndCommitTime}

omit [DecidableEq Id] in
theorem flag_of_map {st st' : Id → Option WalkFlags} {f : WalkFlags → WalkFlags} (g : WalkFlags → Bool)
    (h : (st' x).map f=(st x).map f) (hg : ∀ a,g (f a)=g a) : g (flagsOf st' x)=g (flagsOf st x) := by
  unfold flagsOf
  cases ha : st' x with
  | none =>
    cases hb : st x with
    | none => rfl
    | some b => simp [ha,hb] at h
  | some a =>
    cases hb : st x with
    | none => simp [ha,hb] at h
    | some b =>
      have hab : f a=f b := by simpa [ha,hb] using h
      simpa [hg] using congrArg g hab

/-- The loop bound that suffices: every root and every commit is popped. -/
def loopBound (h : History Id) (roots : List Id) : ℕ := roots.length+h.commits.length

/-- What holds between two steps of the explore walk. -/
structure Explored (h : History Id) (tips ends : List Id) (w : Topo Id HE HI)
    (fresh seen log : List Id) : Prop where
  base : Over h w
  items_key : ∀ it ∈ HE.items w.exploreQueue, it.1 = key h it.2
  walked : Walked h.parents (tips++ends) fresh (HE.values w.exploreQueue) seen log
  seen_iff : ∀ x, (flagsOf w.states x).explored = true ↔ x ∈ seen
  log_added : ∀ x ∈ log, (flagsOf w.states x).added = true
  added_known : ∀ x, (flagsOf w.states x).added = true → ∀ p ∈ h.parents x, (w.states p).isSome
  scope : ∀ x, (flagsOf w.states x).uninteresting = true → h.ReachableFrom ends x
  ends_uninteresting : ∀ e ∈ ends, (flagsOf w.states e).uninteresting = true
  bounded : potential h.commits (HE.values w.exploreQueue) seen ≤ loopBound h (tips++ends)

/-- One commit is popped from a queue, which then receives its new parents. -/
theorem Walked.queue {q0 q' : HE.Carrier} {new seen' : List Id} (hkeys : ∀ it∈HE.items q0,it.1=key h it.2)
    (hw : Walked h.parents (tips++ends) fresh (HE.values q0) seen log) (hpop : HE.pop q0=some ((k,x),q)) (hx : x∈h.commits)
    (hd : discover (fun _ => true) seen (h.parents x)=(seen',new))
    (hperm : (HE.items q').Perm (new.map (fun p => (key h p,p))++HE.items q)) :
    (∀ it∈HE.items q',it.1=key h it.2) ∧ Walked h.parents (tips++ends) (new++fresh) (HE.values q') seen' (log++[x]) ∧
      potential h.commits (HE.values q') seen' < potential h.commits (HE.values q0) seen := by
  have hvals := HE.values_pop hpop
  have hvals' : (HE.values q').Perm (new++HE.values q) := by
    simpa [Heap.values,Function.comp_def] using hperm.map Prod.snd
  obtain ⟨rfl,rfl⟩ := Prod.mk.inj hd
  refine ⟨fun it hit => ?_,hw.step hvals hvals' (fun _ => Iff.rfl),potential_step hvals hvals' (h.closed x hx)⟩
  rcases mem_append.mp (hperm.mem_iff.mp hit) with hit | hit
  · obtain ⟨p,_,rfl⟩ := mem_map.mp hit
    rfl
  · exact hkeys it ((HE.pop_some _ _ _ hpop).mem_iff.mpr (mem_cons_of_mem _ hit))

variable (hr : ∀ r ∈ tips++ends,r ∈ h.commits)
include hr

omit [DecidableEq Id] in
theorem Walked.mem_commits {frontier : List Id}
    (hw : Walked h.parents (tips++ends) fresh frontier seen log) (hx : x∈seen) : x∈h.commits := by
  obtain ⟨r,hm,hc⟩ := hw.reach x hx
  exact History.Reachable.mem hc (hr r hm)

variable (he : Explored h tips ends w fresh seen log)
include he

theorem Explored.step
    (hpop : HE.pop w.exploreQueue=some ((k,x),q)) :
    ∃ st q',exploreWalkStep w=some (.ok (),{w with states := st,exploreQueue := q'}) ∧
      Explored h tips ends {w with states := st,exploreQueue := q'}
        ((discover (fun _ => true) seen (h.parents x)).2++fresh)
        (discover (fun _ => true) seen (h.parents x)).1 (log++[x]) ∧
      potential h.commits (HE.values q') (discover (fun _ => true) seen (h.parents x)).1 <
        potential h.commits (HE.values w.exploreQueue) seen ∧
      ∀ y,(flagsOf st y).inDegree=(flagsOf w.states y).inDegree := by
  have hvals := HE.values_pop hpop
  have hxs : x∈seen := by
    apply (he.walked.mem_seen x).mpr
    apply he.walked.perm.mem_iff.mp
    exact mem_append_right _ (hvals.mem_iff.mpr mem_cons_self)
  have hxc := Walked.mem_commits hr he.walked hxs
  have ho : Over h {w with exploreQueue := q} :=
    {he.base with}
  obtain ⟨st,hproc,hm,hadd,hkn⟩ := processParents_over ho hxc
    (known_of_flag explored rfl ((he.seen_iff x).mpr hxs)) (he.added_known x)
  obtain ⟨st',q',hexp,hseen,hmap,hperm⟩ := exploreParents_over (w := {w with states := st,exploreQueue := q})
    (h.parents x) hkn (fun y => by rw [hm.explored]; exact he.seen_iff y)
  have hun := fun y => flag_of_map uninteresting (hmap y) (fun _ => rfl)
  have had := fun y => flag_of_map added (hmap y) (fun _ => rfl)
  have hin := fun y => flag_of_map inDegree (hmap y) (fun _ => rfl)
  obtain ⟨hkeys,hwalked,hlt⟩ := Walked.queue he.items_key he.walked hpop hxc rfl hperm
  refine ⟨st',q',?_,⟨?_,hkeys,hwalked,hseen,?_,?_,?_,?_,hlt.le.trans he.bounded⟩,hlt,fun y => (hin y).trans (hm.inDegree y)⟩
  · simp only [exploreWalkStep,hpop]
    rw [bind_ok (collectParents_over ho hxc),bind_ok hproc]
    exact hexp
  · exact {he.base with}
  · intro y hy
    rw [had]
    rcases mem_append.mp hy with hy | hy
    · exact hm.added y (he.log_added y hy)
    · rw [mem_singleton.mp hy]
      exact hadd
  · intro y hy p hp
    rw [had] at hy
    rw [isSome_of_map_eq (hmap p)]
    rcases hm.added_scope y hy with hy | rfl
    · exact hm.known p (he.added_known y hy p hp)
    · exact hkn p hp
  · intro y hy
    rw [hun] at hy
    rcases hm.scope y hy with hy | ⟨hx,hy⟩
    · exact he.scope y hy
    · obtain ⟨e,hee,hxe⟩ := he.scope x hx
      exact ⟨e,hee,hxe.trans hy⟩
  · intro e hee
    rw [hun]
    exact hm.uninteresting e (he.ends_uninteresting e hee)

omit he in
theorem Explored.run (fuel : ℕ)
    (he : Explored h tips ends w fresh seen log)
    (hf : potential h.commits (HE.values w.exploreQueue) seen < fuel) :
    ∃ st q fresh' seen' log',
      exploreToDepth fuel generationNumberInfinity w=some (.ok (),{w with states := st,exploreQueue := q}) ∧
      Explored h tips ends {w with states := st,exploreQueue := q} fresh' seen' log' ∧
      HE.values q=[] ∧ ∀ y,(flagsOf st y).inDegree=(flagsOf w.states y).inDegree := by
  induction fuel generalizing w fresh seen log with
  | zero => omega
  | succ fuel ih =>
    cases hp : HE.pop w.exploreQueue with
    | none =>
      refine ⟨w.states,w.exploreQueue,fresh,seen,log,?_,he,HE.values_pop_none hp,fun _ => rfl⟩
      simp [exploreToDepth,Heap.peek,hp]
    | some r =>
      obtain ⟨⟨k,x⟩,q⟩ := r
      have hk : k=key h x :=
        he.items_key (k,x) ((HE.pop_some _ _ _ hp).mem_iff.mpr mem_cons_self)
      obtain ⟨st,_,hstep,he',hlt,hin⟩ := he.step hr hp
      obtain ⟨st',q'',fresh',seen',log',hrun,he'',hq,hin'⟩ := ih he' (lt_of_lt_of_le hlt (Nat.le_of_lt_succ hf))
      refine ⟨st',q'',fresh',seen',log',?_,he'',hq,fun y => (hin' y).trans (hin y)⟩
      have hcut : generationNumberInfinity ≤ (ofLex k).1 := by rw [hk]; exact le_refl _
      simp only [exploreToDepth,Heap.peek,hp,Option.map_some,hcut]
      exact (bind_ok hstep).trans hrun

omit hr in
/-- Nothing the explore walk looks at depends on the indegrees. -/
theorem Explored.frame {st : Id → Option WalkFlags} {d : Id → Option ℤ}
    (hmap : ∀ x,(st x).map (fun fl => {fl with inDegree := false}) =
      (w.states x).map (fun fl => {fl with inDegree := false})) :
    Explored h tips ends {w with indegrees := d,states := st,indegreeQueue := q} fresh seen log := by
  have hun := fun y => flag_of_map uninteresting (hmap y) (fun _ => rfl)
  have had := fun y => flag_of_map added (hmap y) (fun _ => rfl)
  have hex := fun y => flag_of_map explored (hmap y) (fun _ => rfl)
  constructor
  · exact {he.base with}
  · exact he.items_key
  · exact he.walked
  · intro x
    rw [hex]
    exact he.seen_iff x
  · intro x hx
    rw [had]
    exact he.log_added x hx
  · intro x hx p hp
    rw [had] at hx
    rw [isSome_of_map_eq (hmap p)]
    exact he.added_known x hx p hp
  · intro x hx
    rw [hun] at hx
    exact he.scope x hx
  · intro e hee
    rw [hun]
    exact he.ends_uninteresting e hee
  · exact he.bounded

omit hr in
/-- Once its queue is empty the explore walk has added everything it can reach. -/
theorem Explored.complete (hq : HE.values w.exploreQueue=[])
    (hx : h.ReachableFrom (tips++ends) x) : (flagsOf w.states x).added=true := by
  have hw := he.walked
  rw [hq] at hw
  exact he.log_added x ((hw.mem_log x).mpr hx)

omit he

/-- What holds between two steps of the indegree walk. -/
structure Counted (h : History Id) (tips ends : List Id) (w : Topo Id HE HI)
    (fresh seen log : List Id) : Prop where
  items_key : ∀ it ∈ HE.items w.indegreeQueue, it.1 = key h it.2
  walked : Walked h.parents (tips++ends) fresh (HE.values w.indegreeQueue) seen log
  seen_iff : ∀ x, (flagsOf w.states x).inDegree = true ↔ x ∈ seen
  indegrees : w.indegrees = degrees (tips++ends) (edges h.parents log)
  log_added : ∀ x ∈ log, (flagsOf w.states x).added = true
  bounded : potential h.commits (HE.values w.indegreeQueue) seen ≤ loopBound h (tips++ends)

variable {fuel : ℕ} {fe se le : List Id}

theorem Counted.step (hf : loopBound h (tips++ends) < fuel)
    (he : Explored h tips ends w fe se le) (hc : Counted h tips ends w fresh seen log)
    (hpop : HE.pop w.indegreeQueue=some ((k,x),q)) :
    ∃ w' fe' se' le',indegreeWalkStep fuel w=some (.ok (),w') ∧ Explored h tips ends w' fe' se' le' ∧
      Counted h tips ends w' ((discover (fun _ => true) seen (h.parents x)).2++fresh)
        (discover (fun _ => true) seen (h.parents x)).1 (log++[x]) ∧
      potential h.commits (HE.values w'.indegreeQueue) (discover (fun _ => true) seen (h.parents x)).1 <
        potential h.commits (HE.values w.indegreeQueue) seen ∧
      w'.topoQueue=w.topoQueue ∧ w'.predicate=w.predicate := by
  have hvals := HE.values_pop hpop
  have hmem : ∀ y∈log++[x],h.ReachableFrom (tips++ends) y := by
    intro y hy
    apply hc.walked.reach y
    apply (hc.walked.mem_seen y).mpr
    apply hc.walked.perm.mem_iff.mp
    rcases mem_append.mp hy with hy | hy
    · exact mem_append_left _ hy
    · rw [mem_singleton.mp hy]
      exact mem_append_right _ (hvals.mem_iff.mpr mem_cons_self)
  have hxr := hmem x (by simp)
  have hxc := hxr.mem hr
  have hk : k=key h x := hc.items_key (k,x) ((HE.pop_some _ _ _ hpop).mem_iff.mpr mem_cons_self)
  have he0 : Explored h tips ends {w with indegreeQueue := q} fe se le := he.frame (fun _ => rfl)
  obtain ⟨st,qe,fe',se',le',hrun,he1,hqe,hin⟩ := he0.run hr fuel (lt_of_le_of_lt he0.bounded hf)
  have hadd : ∀ y,h.ReachableFrom (tips++ends) y → (flagsOf st y).added=true :=
    fun y hy => he1.complete hqe hy
  obtain ⟨st',q',hdeg,hseen,hmap,hperm⟩ := indegreeParents_over
    (h.parents x)
    (he1.added_known x (hadd x hxr)) (fun y => by rw [hin]; exact hc.seen_iff y) hc.indegrees
  have had := fun y => flag_of_map added (hmap y) (fun _ => rfl)
  obtain ⟨hkeys,hwalked,hlt⟩ := Walked.queue hc.items_key hc.walked hpop hxc rfl hperm
  have he2 : Explored h tips ends {w with
      indegrees := degrees (tips++ends) (fun y => edges h.parents log y+(h.parents x).count y)
      states := st',exploreQueue := qe,indegreeQueue := q'} fe' se' le' := he1.frame hmap
  refine ⟨_,fe',se',le',?_,he2,⟨hkeys,hwalked,hseen,?_,?_,hlt.le.trans hc.bounded⟩,hlt,rfl,rfl⟩
  · simp only [indegreeWalkStep,hpop,hk]
    exact ((bind_ok hrun).trans (bind_ok (collectParents_over he1.base hxc))).trans hdeg
  · have hedges : (fun y => edges h.parents log y+(h.parents x).count y)=edges h.parents (log++[x]) := by
      funext y
      rw [edges_append,edges_singleton]
    rw [← hedges]
  · intro y hy
    rw [had]
    exact hadd y (hmem y hy)

theorem Counted.run (hf : loopBound h (tips++ends) < fuel)
    (he : Explored h tips ends w fe se le) (hc : Counted h tips ends w fresh seen log) (steps : ℕ)
    (hs : potential h.commits (HE.values w.indegreeQueue) seen < steps) :
    ∃ w' fe' se' le' fresh' seen' log',
      computeIndegreesToDepth fuel steps generationNumberInfinity w=some (.ok (),w') ∧
      Explored h tips ends w' fe' se' le' ∧ Counted h tips ends w' fresh' seen' log' ∧
      HE.values w'.indegreeQueue=[] ∧ w'.topoQueue=w.topoQueue ∧ w'.predicate=w.predicate := by
  induction steps generalizing w fe se le fresh seen log with
  | zero => omega
  | succ steps ih =>
    cases hp : HE.pop w.indegreeQueue with
    | none =>
      refine ⟨w,fe,se,le,fresh,seen,log,?_,he,hc,HE.values_pop_none hp,rfl,rfl⟩
      simp [computeIndegreesToDepth,Heap.peek,hp]
    | some r =>
      obtain ⟨⟨k,x⟩,_⟩ := r
      have hk : k=key h x :=
        hc.items_key (k,x) ((HE.pop_some _ _ _ hp).mem_iff.mpr mem_cons_self)
      obtain ⟨w',fe',se',le',hstep,he',hc',hlt,htq,hpr⟩ := hc.step hr hf he hp
      obtain ⟨w'',fe'',se'',le'',fresh'',seen'',log'',hrun,he'',hc'',hq,htq',hpr'⟩ :=
        ih he' hc' (lt_of_lt_of_le hlt (Nat.le_of_lt_succ hs))
      refine ⟨w'',fe'',se'',le'',fresh'',seen'',log'',?_,he'',hc'',hq,htq'.trans htq,hpr'.trans hpr⟩
      have hcut : generationNumberInfinity ≤ (ofLex k).1 := by rw [hk]; exact le_refl _
      simp only [computeIndegreesToDepth,Heap.peek,hp,Option.map_some,hcut]
      exact (bind_ok hstep).trans hrun

end Gix.Commit.Topo
