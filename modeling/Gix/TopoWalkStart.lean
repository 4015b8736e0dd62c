import Gix.TopoWalkBuild

/-! # The walk that `build()` returns

The roots are queued, what lies behind the ends is marked, all edges are counted, and the
tips that no edge leads to are queued for being yielded. -/
namespace Gix.Commit.Topo
open PriorityQueue Worklist KahnSort Fallible List Function

variable {Id : Type} {HE : Heap GenAndCommitTime Id} {HI : Heap ℤ (Info Id)}

namespace Queue

def infos : Queue HI → List (Info Id)
  | .date q => HI.values q
  | .topo q => q.map Prod.snd

@[simp] theorem infos_new (sorting : Sorting) : (new sorting : Queue HI).infos=[] := by
  cases sorting <;> simp [new,infos]

theorem infos_push (q : Queue HI) (time : ℤ) (i : Info Id) : (q.push time i).infos.Perm (i::q.infos) := by
  cases q with
  | date q => exact HI.values_insert q time i
  | topo q => simp [push,infos]

theorem infos_initialSort (q : Queue HI) : q.initialSort.infos.Perm q.infos := by
  cases q with
  | date q => exact .refl _
  | topo q => exact (perm_insertionSort _ q).map Prod.snd

theorem infos_pop {q r : Queue HI} {i : Info Id} (hp : q.pop=some (i,r)) : q.infos.Perm (i::r.infos) := by
  cases q with
  | date q =>
    obtain ⟨⟨x,_⟩,hq,heq⟩ := Option.map_eq_some_iff.mp hp
    cases heq
    exact HI.values_pop hq
  | topo q =>
    obtain ⟨x,hx,heq⟩ := Option.map_eq_some_iff.mp hp
    cases heq
    obtain ⟨_,rfl⟩ := getLast?_eq_some_iff.mp hx
    simp [infos]

theorem infos_pop_none {q : Queue HI} (hp : q.pop=none) : q.infos=[] := by
  cases q with
  | date q => exact HI.values_pop_none (Option.map_eq_none_iff.mp hp)
  | topo q => simpa [infos,pop] using hp

end Queue

variable {h : History Id} {tips ends : List Id} {w : Topo Id HE HI} {log : List Id}

theorem pushTopo_over (ho : Over h w) {c : Id} (hc : c∈h.commits) :
    pushTopo c (h.time c) w =
      some (.ok (),{w with topoQueue := w.topoQueue.push (h.time c) (info h c)}) := by
  rw [pushTopo,bind_ok (collectAllParents_over ho hc),keyed_fst]
  rfl

theorem Over.withTopoQueue (ho : Over h w) (q : Queue HI) : Over h {w with topoQueue := q} :=
  {ho with}

variable [DecidableEq Id]

theorem queueRoots_over (fl : WalkFlags) (ids : List Id) (hids : ∀ c∈ids,c∈h.commits) (ho : Over h w)
    {done : List Id} (hd : w.indegrees=degrees done (fun _ => 0)) :
    ∃ qe qi,(∀ rest,queueRoots (ids.map (fun id => (id,fl))++rest) w=queueRoots rest {w with
        indegrees := degrees (done++ids) (fun _ => 0)
        states := fun x => if x∈ids then some fl else w.states x
        exploreQueue := qe
        indegreeQueue := qi}) ∧
      (HE.items qe).Perm (ids.map (fun p => (key h p,p))++HE.items w.exploreQueue) ∧
      (HE.items qi).Perm (ids.map (fun p => (key h p,p))++HE.items w.indegreeQueue) := by
  induction ids generalizing w done with
  | nil => exact ⟨w.exploreQueue,w.indegreeQueue,fun rest => by simp [← hd],.refl _,.refl _⟩
  | cons c ids ih =>
    have hc := hids c mem_cons_self
    have hd' : update w.indegrees c (some 1)=degrees (done++[c]) (fun _ => 0) := by
      funext x
      by_cases hx : x=c
      · simp [hx,degrees]
      · simp [hx,hd,degrees]
    obtain ⟨qe,qi,hrun,hqe,hqi⟩ := ih (w := {w with
        indegrees := degrees (done++[c]) (fun _ => 0)
        states := update w.states c (some fl)
        exploreQueue := HE.insert w.exploreQueue (key h c) c
        indegreeQueue := HE.insert w.indegreeQueue (key h c) c})
      (fun d hd => hids d (mem_cons_of_mem _ hd)) {ho with} rfl
    refine ⟨qe,qi,?_,?_,?_⟩
    · intro rest
      have ho' : Over h {w with indegrees := degrees (done++[c]) (fun _ => 0)} := {ho with}
      have hmin : (if (ofLex (key h c)).1 < w.minGen then (ofLex (key h c)).1 else w.minGen)=w.minGen := by
        have hk : (ofLex (key h c)).1=w.minGen := by rw [ho.minGen]; rfl
        simp [hk]
      have hstates : (fun x => if x∈ids then some fl else update w.states c (some fl) x) =
          fun x => if x∈c::ids then some fl else w.states x := by
        funext x
        by_cases hx : x=c
        · simp [hx]
        · simp [hx]
      have hset : setIndegree c 1 w=some (.ok (),{w with indegrees := degrees (done++[c]) (fun _ => 0)}) := by
        rw [← hd']
        rfl
      have hnext := hrun rest
      rw [hstates,append_assoc] at hnext
      rw [map_cons,cons_append,queueRoots,bind_ok hset,bind_ok (lookupTime_over ho' hc),
        bind_ok (modify_apply _)]
      simp only [hmin]
      exact hnext
    · exact hqe.trans (((HE.items_insert _ _ _).append_left _).trans perm_middle)
    · exact hqi.trans (((HE.items_insert _ _ _).append_left _).trans perm_middle)

def initial (HE : Heap GenAndCommitTime Id) (HI : Heap ℤ (Info Id)) (h : History Id) (predicate : Id → Bool)
    (sorting : Sorting) : Topo Id HE HI :=
  ⟨none,h.objects,predicate,fun _ => none,fun _ => none,HE.empty,HE.empty,.new sorting,.all,
    generationNumberInfinity⟩

theorem potential_roots {frontier seen : List Id} (hf : frontier.Perm (tips++ends)) :
    potential h.commits frontier seen ≤ loopBound h (tips++ends) := by
  have h1 := hf.length_eq
  have h2 := length_filter_le (fun x => decide (x∉seen)) h.commits
  unfold potential loopBound
  omega

/-- After the roots are queued and the parents of the ends are marked. -/
theorem roots_queued (HE : Heap GenAndCommitTime Id) (HI : Heap ℤ (Info Id)) (predicate : Id → Bool) (sorting : Sorting)
    (ht : ∀ t∈tips,t∈h.commits) (hn : ∀ e∈ends,e∈h.commits) :
    ∃ w w' : Topo Id HE HI,
      queueRoots (tips.map (fun id => (id,tipFlags))++ends.map (fun id => (id,endFlags)))
        (initial HE HI h predicate sorting)=some (.ok (),w) ∧ markGrandParents ends w=some (.ok (),w') ∧
      Explored h tips ends w' [] (tips++ends) [] ∧ Counted h tips ends w' [] (tips++ends) [] ∧
      w'.topoQueue = .new sorting ∧ w'.predicate=predicate := by
  have ho : Over h (initial HE HI h predicate sorting) := ⟨rfl,rfl,rfl,rfl⟩
  have hd : (initial HE HI h predicate sorting).indegrees=degrees [] (fun _ => 0) := by
    funext x
    simp [initial,degrees]
  obtain ⟨qe,qi,hrun,hqe,hqi⟩ := queueRoots_over tipFlags tips ht ho hd
  obtain ⟨qe',qi',hrun',hqe',hqi'⟩ := queueRoots_over endFlags ends hn (w := {initial HE HI h predicate sorting with
      indegrees := degrees ([]++tips) (fun _ => 0)
      states := fun x => if x∈tips then some tipFlags else (initial HE HI h predicate sorting).states x
      exploreQueue := qe
      indegreeQueue := qi}) ⟨rfl,rfl,rfl,rfl⟩ rfl
  have hperm : ∀ {q : HE.Carrier} {q' : HE.Carrier},
      (HE.items q).Perm (tips.map (fun p => (key h p,p))++HE.items HE.empty) →
      (HE.items q').Perm (ends.map (fun p => (key h p,p))++HE.items q) →
      (HE.items q').Perm ((tips++ends).map (fun p => (key h p,p))) := by
    intro q q' h1 h2
    rw [HE.items_empty,append_nil] at h1
    rw [map_append]
    exact (h2.trans (h1.append_left _)).trans perm_append_comm
  have hkey : ∀ {q : HE.Carrier},(HE.items q).Perm ((tips++ends).map (fun p => (key h p,p))) →
      (∀ it∈HE.items q,it.1=key h it.2) ∧ (HE.values q).Perm (tips++ends) := by
    intro q hq
    constructor
    · intro it hit
      obtain ⟨p,_,rfl⟩ := mem_map.mp (hq.mem_iff.mp hit)
      rfl
    · simpa [Heap.values,comp_def] using hq.map Prod.snd
  obtain ⟨hek,hev⟩ := hkey (hperm hqe hqe')
  obtain ⟨hik,hiv⟩ := hkey (hperm hqi hqi')
  have hall := (hrun _).trans (by simpa using hrun' [])
  obtain ⟨st,hmark,hm⟩ := markGrandParents_over ends hn (w := {initial HE HI h predicate sorting with
      indegrees := degrees (tips++ends) (fun _ => 0)
      states := fun x => if x∈ends then some endFlags else if x∈tips then some tipFlags else none
      exploreQueue := qe'
      indegreeQueue := qi'}) ⟨rfl,rfl,rfl,rfl⟩
  have hflags : ∀ x,flagsOf (fun x => if x∈ends then some endFlags else if x∈tips then some tipFlags else none) x =
      if x∈ends then endFlags else if x∈tips then tipFlags else {} := by
    intro x
    simp only [flagsOf]
    split_ifs <;> rfl
  have hflag : ∀ (g : WalkFlags → Bool),g {}=false → g tipFlags=true → g endFlags=true → ∀ x,
      (g (if x∈ends then endFlags else if x∈tips then tipFlags else {})=true ↔ x∈tips++ends) := by
    intro g h0 h1 h2 x
    split_ifs <;> simp_all
  have hadd : ∀ x,(flagsOf st x).added=true → False := by
    intro x hx
    have hx := (hm.added_scope x hx).resolve_right id
    rw [hflags] at hx
    split_ifs at hx <;> cases hx
  refine ⟨_,_,hall,hmark,⟨⟨rfl,rfl,rfl,rfl⟩,hek,.initial hev (fun _ => Iff.rfl),?_,by simp,?_,?_,?_,?_⟩,
    ⟨hik,.initial hiv (fun _ => Iff.rfl),?_,?_,by simp,?_⟩,rfl,rfl⟩
  · intro x
    rw [hm.explored,hflags]
    exact hflag WalkFlags.explored rfl rfl rfl x
  · intro x hx
    exact (hadd x hx).elim
  · intro x hx
    rcases hm.scope x hx with hx | ⟨e,he,hx⟩
    · rw [hflags] at hx
      split_ifs at hx with he
      · exact .tip he
      all_goals cases hx
    · exact ⟨e,he,.single hx⟩
  · intro e he
    apply hm.uninteresting
    rw [hflags,if_pos he]
    rfl
  · exact potential_roots hev
  · intro x
    rw [hm.inDegree,hflags]
    exact hflag WalkFlags.inDegree rfl rfl rfl x
  · rfl
  · exact potential_roots hiv

/-- The tips that no edge leads to. -/
def heads (h : History Id) (log tips : List Id) : List Id :=
  tips.filter (fun t => edges h.parents log t = 0)

theorem queueTips_over (ids : List Id) (hids : ∀ c∈ids,c∈h.commits) (ho : Over h w) {roots : List Id}
    (hd : w.indegrees=degrees roots (edges h.parents log)) (hroots : ∀ c∈ids,c∈roots) :
    ∃ q,queueTips ids w=some (.ok (),{w with topoQueue := q}) ∧
      q.infos.Perm ((heads h log ids).map (info h)++w.topoQueue.infos) := by
  induction ids generalizing w with
  | nil => exact ⟨w.topoQueue,rfl,.refl _⟩
  | cons c ids ih =>
    have hc := hids c mem_cons_self
    have hrest := fun d hd => hids d (mem_cons_of_mem c hd)
    have hroots' := fun d hd => hroots d (mem_cons_of_mem c hd)
    have hi : indegree c w=some (.ok (1+edges h.parents log c),w) := by
      simp [indegree,hd,degrees,hroots c mem_cons_self]
    rw [queueTips,bind_ok hi]
    by_cases h0 : edges h.parents log c=0
    · obtain ⟨q,hq,hp⟩ := ih hrest (ho.withTopoQueue (w.topoQueue.push (h.time c) (info h c))) hd hroots'
      refine ⟨q,?_,?_⟩
      · rw [if_neg (by simp [h0]),bind_ok (lookupTime_over ho hc)]
        exact (bind_ok (pushTopo_over ho hc)).trans hq
      · have hh : heads h log (c::ids)=c::heads h log ids := by simp [heads,h0]
        rw [hh]
        exact hp.trans (((Queue.infos_push _ _ _).append_left _).trans perm_middle)
    · obtain ⟨q,hq,hp⟩ := ih hrest ho hd hroots'
      refine ⟨q,?_,?_⟩
      · rw [if_pos (by omega)]
        exact hq
      · have hh : heads h log (c::ids)=heads h log ids := by simp [heads,h0]
        rwa [hh]

/-- What `build()` establishes; `log` lists each expanded commit as often as it was expanded. -/
structure Built (h : History Id) (tips ends : List Id) (w : Topo Id HE HI) (log : List Id) : Prop where
  base : Over h w
  indegrees : w.indegrees = degrees (tips++ends) (edges h.parents log)
  queued : w.topoQueue.infos.Perm ((heads h log tips).map (info h))
  mem_log : ∀ x, x ∈ log ↔ h.ReachableFrom (tips++ends) x
  count_log : ∀ x ∈ log, log.count x = if x ∈ tips++ends then (tips++ends).count x else 1
  length_log : log.length ≤ loopBound h (tips++ends)
  added : ∀ x ∈ log, (flagsOf w.states x).added = true
  known : ∀ x ∈ log, ∀ p ∈ h.parents x, (w.states p).isSome
  scope : ∀ x, (flagsOf w.states x).uninteresting = true → h.ReachableFrom ends x
  ends_uninteresting : ∀ e ∈ ends, (flagsOf w.states e).uninteresting = true

/-- `Builder::from_iters(find, tips, ends).sorting(sorting)` -/
def builder (h : History Id) (tips ends : List Id) (sorting : Sorting) : Builder Id :=
  {Builder.fromIters h.objects tips ends with sorting := sorting}

theorem build_over (HE : Heap GenAndCommitTime Id) (HI : Heap ℤ (Info Id)) (predicate : Id → Bool) (sorting : Sorting)
    (ht : ∀ t∈tips,t∈h.commits) (hn : ∀ e∈ends,e∈h.commits) {fuel : ℕ}
    (hf : loopBound h (tips++ends) < fuel) :
    ∃ w log,{builder h tips ends sorting with predicate := predicate}.build fuel HE HI=some (.ok (),w) ∧
      w.predicate=predicate ∧ Built h tips ends w log := by
  have hr : ∀ r∈tips++ends,r∈h.commits := fun r hm => (mem_append.mp hm).elim (ht r) (hn r)
  obtain ⟨_,w2,hq,hmark,he,hc,htq,hpr⟩ := roots_queued HE HI predicate sorting ht hn
  obtain ⟨w3,_,_,_,fresh,_,log,hrun,he',hc',hend,htq',hpr'⟩ :=
    hc.run hr hf he fuel (lt_of_le_of_lt hc.bounded hf)
  obtain ⟨q,htips,hperm⟩ := queueTips_over tips ht he'.base hc'.indegrees
    (fun t hm => mem_append_left ends hm)
  have hw := hc'.walked
  rw [hend] at hw
  rw [htq',htq,Queue.infos_new,append_nil] at hperm
  refine ⟨{w3 with topoQueue := q.initialSort},log,?_,hpr'.trans hpr,⟨?_,hc'.indegrees,?_,hw.mem_log,?_,
    ?_,hc'.log_added,?_,he'.scope,he'.ends_uninteresting⟩⟩
  · have hmin := he.base.minGen
    have hget : (get : Method Id HE HI (Topo Id HE HI)) w2=some (.ok w2,w2) := rfl
    have hrun' : computeIndegreesToDepth fuel fuel w2.minGen w2=some (.ok (),w3) := by rw [hmin,hrun]
    exact ((bind_ok hq).trans ((bind_ok hmark).trans ((bind_ok hget).trans ((bind_ok hrun').trans
      (bind_ok htips)))))
  · exact he'.base.withTopoQueue _
  · exact (Queue.infos_initialSort q).trans hperm
  · exact fun x hx => hw.count_log hx
  · have hlen : log.length=(tips++ends).length+fresh.length := by
      rw [← length_append,← hw.perm.length_eq,append_nil]
    have hsub : fresh.Subperm h.commits := by
      apply subperm_of_subset hw.nodup
      intro x hx
      exact Walked.mem_commits hr hw ((hw.mem_seen x).mpr (mem_append_right _ hx))
    have := hsub.length_le
    unfold loopBound
    omega
  · exact fun x hx => he'.added_known x (hc'.log_added x hx)

end Gix.Commit.Topo
