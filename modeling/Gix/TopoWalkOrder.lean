import Gix.TopoWalkStart

/-! # What the topological walk yields

Once the walk is built every state has been processed, so that each call of the iterator
is one step of releasing commits by counting edges. -/
namespace Gix.Commit.Topo
open PriorityQueue KahnSort Fallible List Function

variable {Id : Type} [DecidableEq Id] {HE : Heap GenAndCommitTime Id} {HI : Heap ℤ (Info Id)}
  {h : History Id} {tips ends : List Id} {w : Topo Id HE HI} {log : List Id}

def skipped (st : Id → Option WalkFlags) (x : Id) : Bool := (flagsOf st x).uninteresting

/-- The counter of a commit; one that was never met has no edges. -/
def degreeOf (d : Id → Option ℤ) (x : Id) : ℤ := (d x).getD 1

omit [DecidableEq Id] in
theorem indegree_known {x : Id} (hx : (w.indegrees x).isSome) :
    indegree x w=some (.ok (degreeOf w.indegrees x),w) := by
  obtain ⟨_,hi⟩ := Option.isSome_iff_exists.mp hx
  simp [indegree,hi,degreeOf]

theorem degreeOf_update (d : Id → Option ℤ) (x : Id) (i : ℤ) :
    degreeOf (Function.update d x (some i))=Function.update (degreeOf d) x i := by
  funext y
  by_cases hy : y=x
  · simp [hy,degreeOf]
  · simp [hy,degreeOf]

theorem isSome_update {d : Id → Option ℤ} {x y : Id} (i : ℤ) (hy : (d y).isSome) :
    (Function.update d x (some i) y).isSome := by
  by_cases hxy : y=x
  · simp [hxy]
  · rwa [update_of_ne hxy]

/-- The loop over the parents consumes one edge to each, and queues the released ones. -/
theorem expandParents_over (fuel : ℕ) (ho : Over h w) (ps : List Id) (hc : ∀ p∈ps,p∈h.commits)
    (hk : ∀ p∈ps,(w.states p).isSome) (hd : ∀ p∈ps,(w.indegrees p).isSome) :
    ∃ d q,expandParents fuel (keyed h ps) w=some (.ok (),{w with indegrees := d,topoQueue := q}) ∧
      degreeOf d=(release (skipped w.states) (degreeOf w.indegrees) ps).1 ∧
      (∀ x,(w.indegrees x).isSome → (d x).isSome) ∧
      q.infos.Perm ((release (skipped w.states) (degreeOf w.indegrees) ps).2.map (info h)++
        w.topoQueue.infos) := by
  induction ps generalizing w with
  | nil => exact ⟨w.indegrees,w.topoQueue,rfl,rfl,fun _ hx => hx,.refl _⟩
  | cons p ps ih =>
    have hpc := hc p mem_cons_self
    have hc' := fun x hx => hc x (mem_cons_of_mem p hx)
    have hk' := fun x hx => hk x (mem_cons_of_mem p hx)
    have hcons : keyed h (p::ps)=(p,key h p)::keyed h ps := rfl
    rw [hcons,expandParents,bind_ok (state_known (hk p mem_cons_self))]
    by_cases hs : (flagsOf w.states p).uninteresting=true
    · have hsk : skipped w.states p=true := hs
      rw [if_pos hs]
      simpa only [release,hsk,if_true] using
        ih ho hc' hk' (fun x hx => hd x (mem_cons_of_mem _ hx))
    · have hsk : skipped w.states p=false := by simpa [skipped] using hs
      have hmin : lowerMinGen fuel (ofLex (key h p)).1 w=some (.ok (),w) := by
        have hk : (ofLex (key h p)).1=w.minGen := by rw [ho.minGen]; rfl
        simp [lowerMinGen,hk]
      have hset : setIndegree p (degreeOf w.indegrees p-1) w=some (.ok (),{w with
          indegrees := update w.indegrees p (some (degreeOf w.indegrees p-1))}) := rfl
      have ho' : Over h {w with
          indegrees := update w.indegrees p (some (degreeOf w.indegrees p-1))} :=
        {ho with}
      have hd' : ∀ x∈ps,(update w.indegrees p (some (degreeOf w.indegrees p-1)) x).isSome :=
        fun x hx => isSome_update _ (hd x (mem_cons_of_mem _ hx))
      rw [if_neg hs,bind_ok hmin,bind_ok (indegree_known (hd p mem_cons_self))]
      by_cases h1 : degreeOf w.indegrees p-1=1
      · obtain ⟨d,q,hrun,hdeg,hmono,hperm⟩ := ih
          (ho'.withTopoQueue (w.topoQueue.push (h.time p) (info h p))) hc' hk' hd'
        rw [degreeOf_update] at hdeg hperm
        refine ⟨d,q,?_,?_,fun x hx => hmono x (isSome_update _ hx),?_⟩
        · rw [if_neg (not_not.mpr h1)]
          exact (bind_ok (pushTopo_over ho' hpc)).trans hrun
        · simpa only [release,hsk,if_false,Bool.false_eq_true] using hdeg
        · simp only [release,hsk,h1]
          rw [h1] at hperm
          exact hperm.trans (((Queue.infos_push _ _ _).append_left _).trans perm_middle)
      · obtain ⟨d,q,hrun,hdeg,hmono,hperm⟩ := ih ho' hc' hk' hd'
        rw [degreeOf_update] at hdeg hperm
        refine ⟨d,q,?_,?_,fun x hx => hmono x (isSome_update _ hx),?_⟩
        · rw [if_pos h1]
          exact hrun
        · simpa [release,hsk] using hdeg
        · simpa [release,hsk,if_false,h1] using hperm

/-- What holds between two calls of the iterator. -/
structure Emitting (h : History Id) (tips log : List Id) (st : Id → Option WalkFlags)
    (w : Topo Id HE HI) (ready out : List Id) : Prop where
  base : Over h w
  states : w.states = st
  known : ∀ x ∈ log, (w.indegrees x).isSome
  queued : w.topoQueue.infos.Perm (ready.map (info h))
  kahn : KahnSort.Invariant h.parents (skipped st) log (heads h log tips) (degreeOf w.indegrees) ready out

/-- What the iterator needs to know of the walk it starts from. -/
structure Settled (h : History Id) (tips log : List Id) (st : Id → Option WalkFlags) : Prop where
  input : Input h.parents log (heads h log tips)
  commits : ∀ x ∈ log, x ∈ h.commits
  added : ∀ x ∈ log, (flagsOf st x).added = true
  known : ∀ x ∈ log, ∀ p ∈ h.parents x, (st p).isSome

variable {st : Id → Option WalkFlags} {ready out : List Id}

theorem Emitting.popCommit_some (fuel : ℕ) (hs : Settled h tips log st)
    (he : Emitting h tips log st w ready out) {i : Info Id} {q : Queue HI}
    (hp : w.topoQueue.pop=some (i,q)) :
    ∃ x w' next,popCommit fuel w=some (some (.ok (info h x)),w') ∧ w'.predicate=w.predicate ∧
      Emitting h tips log st w' next (out++[x]) := by
  have hq := (Queue.infos_pop hp).symm.trans he.queued
  obtain ⟨x,hx,rfl⟩ := mem_map.mp (hq.mem_iff.mp mem_cons_self)
  have hrest : ready.Perm (x::ready.erase x) := perm_cons_erase hx
  have hq' := (hq.trans (hrest.map (info h))).cons_inv
  have hxl : x∈log := by
    apply count_pos_iff.mp
    have h1 := he.kahn.count_le hs.input x
    have h2 := count_pos_iff.mpr hx
    omega
  have hxc := hs.commits x hxl
  have ho' : Over h {w with topoQueue := q,indegrees := update w.indegrees x (some 0)} :=
    {he.base with}
  have hst := he.states
  obtain ⟨d,q',hrun,hdeg,hmono,hperm⟩ := expandParents_over fuel ho' (h.parents x)
    (h.closed x hxc) (by rw [hst]; exact hs.known x hxl)
    (fun p hp => isSome_update 0 (he.known p (hs.input.closed x hxl p hp)))
  rw [degreeOf_update,hst] at hdeg hperm
  refine ⟨x,{w with indegrees := d,topoQueue := q'},
    (release (skipped st) (update (degreeOf w.indegrees) x 0) (h.parents x)).2++ready.erase x,
    ?_,rfl,?_,hst,?_,?_,?_⟩
  · have hi : indegree x {w with topoQueue := q}=some (.ok (degreeOf w.indegrees x),_) :=
      indegree_known (he.known x hxl)
    have hset : setIndegree x 0 {w with topoQueue := q}=some (.ok (),
        {w with topoQueue := q,indegrees := update w.indegrees x (some 0)}) := rfl
    have hproc : processParents x (keyed h (h.parents x))
        {w with topoQueue := q,indegrees := update w.indegrees x (some 0)}=some (.ok (),_) :=
      processParents_added (by rw [hst]; exact hs.added x hxl)
    have hexp := (bind_ok (f := fun ps => processParents x ps >>= fun _ => expandParents fuel ps)
      (collectParents_over ho' hxc)).trans ((bind_ok hproc).trans hrun)
    have hall := (bind_ok (f := fun _ => setIndegree x 0 >>= fun _ => expandTopoWalk fuel x) hi).trans
      ((bind_ok hset).trans hexp)
    simp only [popCommit,hp]
    exact hall ▸ rfl
  · exact {he.base with}
  · exact fun y hy => hmono y (isSome_update 0 (he.known y hy))
  · rw [map_append]
    exact hperm.trans (hq'.append_left _)
  · have hk := he.kahn.step hs.input hrest (.refl _)
    rwa [hdeg]

theorem Emitting.pop_none (he : Emitting h tips log st w ready out) (hp : w.topoQueue.pop=none) : ready=[] := by
  have := he.queued
  rw [Queue.infos_pop_none hp] at this
  exact map_eq_nil_iff.mp this.nil_eq.symm

/-- A call of the iterator passes over commits until there is one for the predicate. -/
theorem Emitting.iterNext_over (hs : Settled h tips log st) (inner fuel : ℕ)
    (he : Emitting h tips log st w ready out) (hf : log.length < fuel+out.length) :
    ∃ l w' next,l.filter w.predicate=[] ∧ w'.predicate=w.predicate ∧
      (iterNext inner fuel w=some (none,w') ∧ Emitting h tips log st w' [] (out++l) ∨
        ∃ x,w.predicate x=true ∧ iterNext inner fuel w=some (some (.ok (info h x)),w') ∧
          Emitting h tips log st w' next (out++(l++[x]))) := by
  induction fuel generalizing w ready out with
  | zero =>
    have := he.kahn.length_le hs.input
    rw [length_append] at this
    omega
  | succ fuel ih =>
    cases hp : w.topoQueue.pop with
    | none =>
      refine ⟨[],w,[],rfl,rfl,.inl ⟨?_,?_⟩⟩
      · simp [iterNext,popCommit,hp]
      · simpa [he.pop_none hp] using he
    | some r =>
      obtain ⟨x,w1,next,hpop,hpr,he'⟩ := he.popCommit_some inner hs hp
      cases hx : w.predicate x with
      | true => exact ⟨[],w1,next,rfl,hpr,.inr ⟨x,hx,by simp [iterNext,hpop,hpr,info,hx],by simpa using he'⟩⟩
      | false =>
        obtain ⟨l,w',next,hl,hpr',hcase⟩ := ih he' (by rw [length_append,length_singleton]; omega)
        have hnext : iterNext inner (fuel+1) w=iterNext inner fuel w1 := by simp [iterNext,hpop,hpr,info,hx]
        rw [hpr] at hl hpr' hcase
        refine ⟨x::l,w',next,by simpa [hx] using hl,hpr',?_⟩
        simpa [hnext] using hcase

/-- The iterator ends without an error. -/
theorem Emitting.collect_over {inner : ℕ} (hs : Settled h tips log st) (fuel : ℕ)
    (he : Emitting h tips log st w ready out) (hi : log.length < inner+out.length) (hf : log.length < fuel+out.length) :
    ∃ l d,collect inner fuel w=some ((l.filter w.predicate).map (fun x => .ok (info h x))) ∧
      KahnSort.Invariant h.parents (skipped st) log (heads h log tips) d [] (out++l) := by
  induction fuel generalizing w ready out with
  | zero =>
    have := he.kahn.length_le hs.input
    rw [length_append] at this
    omega
  | succ fuel ih =>
    obtain ⟨l,_,_,hl,hpr,hcase⟩ := he.iterNext_over hs inner inner hi
    rcases hcase with ⟨hnext,he'⟩ | ⟨x,hx,hnext,he'⟩
    · exact ⟨l,_,by simp [collect,hnext,hl],he'.kahn⟩
    · obtain ⟨rest,d,hrest,hk⟩ := ih he' (by simp only [length_append,length_singleton]; omega)
        (by simp only [length_append,length_singleton]; omega)
      refine ⟨l++x::rest,d,?_,by simpa using hk⟩
      rw [hpr] at hrest
      simp [collect,hnext,hrest,hl,hx]

/-- Build the walk and collect what it yields. -/
def walk (HE : Heap GenAndCommitTime Id) (HI : Heap ℤ (Info Id)) (b : Builder Id) (fuel : ℕ) :
    Option (List (Except Error (Info Id))) :=
  match b.build fuel HE HI with
  | none => none
  | some (.error e,_) => some [.error e]
  | some (.ok _,w) => collect fuel fuel w

theorem Built.settled (hb : Built h tips ends w log) (hr : ∀ r∈tips++ends,r∈h.commits) :
    Settled h tips log w.states where
  input := by
    refine ⟨fun p hp => by simpa using (mem_filter.mp hp).2,?_,?_⟩
    · intro p
      by_cases hp : p∈tips
      · have hm : p∈tips++ends := mem_append_left _ hp
        have h1 := hb.count_log p ((hb.mem_log p).mpr (.tip hm))
        have h2 : (heads h log tips).count p ≤ tips.count p := filter_sublist.count_le p
        rw [if_pos hm,count_append] at h1
        omega
      · have h0 : p∉heads h log tips := fun hm => hp (mem_filter.mp hm).1
        rw [count_eq_zero_of_not_mem h0]
        exact Nat.zero_le _
    · intro c hc p hp
      exact (hb.mem_log p).mpr (((hb.mem_log c).mp hc).parent hp)
  commits x hx := ((hb.mem_log x).mp hx).mem hr
  added := hb.added
  known := hb.known

theorem Built.emitting (hb : Built h tips ends w log) :
    Emitting h tips log w.states w (heads h log tips) [] where
  base := hb.base
  states := rfl
  known x hx := by
    rw [hb.indegrees,degrees]
    by_cases hm : x∈tips++ends
    · simp [hm]
    · -- a commit that is no root was reached through an edge
      obtain ⟨r,hr,hc⟩ := (hb.mem_log x).mp hx
      cases hc with
      | refl => exact absurd hr hm
      | tail hc hp =>
        have hpos : 0 < edges h.parents log x := by
          apply Nat.pos_of_ne_zero
          intro h0
          exact edges_eq_zero.mp h0 _ ((hb.mem_log _).mpr ⟨r,hr,hc⟩) hp
        simp [hpos]
  queued := hb.queued
  kahn := by
    refine .initial ?_ (.refl _)
    intro p _
    rw [hb.indegrees]
    unfold degreeOf degrees
    split
    · rfl
    next hm =>
      have h0 : edges h.parents log p=0 := by omega
      simp [h0]

end Gix.Commit.Topo
