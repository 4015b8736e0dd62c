import Gix.SimpleTraversal
import Gix.Worklist

/-! # The simple traversal against the history it walks

Over a complete history each call pops one commit and discovers its parents, from the
object database and from a readable commit-graph alike. A commit whose parent list does
not decode is popped and forgotten, and no later call can bring it back. -/
namespace Gix.Commit
open PriorityQueue Worklist List

variable {Id : Type} [DecidableEq Id] {H : Heap ℤ Id}

/-- The graph knows the commit but cannot decode its parent list. -/
def Graph.Corrupt (g : Graph Id) (c : Id) : Prop :=
  ∃ pos, g.lookup c = some pos ∧ .error () ∈ g.iterParents pos

/-- Every parent list that decodes is the one of the object database, times included. -/
def Graph.Agrees (g : Graph Id) (h : History Id) : Prop :=
  ∀ c ∈ h.commits, ∀ pos, g.lookup c = some pos → ∀ qs : List ℕ, g.iterParents pos = qs.map .ok →
    qs.map g.idAt = h.parents c ∧ ∀ q ∈ qs, (g.committerTimestamp q : ℤ) = h.time (g.idAt q)

namespace Simple

theorem foldl_pushNext (s : Simple Id H) (ps : List Id) :
    ps.foldl pushNext s={s with
      seen := (discover s.predicate s.seen ps).1
      next := s.next++(discover s.predicate s.seen ps).2} := by
  induction ps generalizing s with
  | nil => simp [discover]
  | cons p ps ih =>
    rw [foldl_cons,ih]
    by_cases hp : p∈s.seen
    · simp [pushNext,discover,hp]
    · by_cases ha : s.predicate p=true
      · simp [pushNext,discover,hp,ha]
      · simp [pushNext,discover,hp,ha]

/-- Queueing parents one by one with their times, without a cutoff. -/
def pushAll (s : Simple Id H) (ps : List (Id × ℤ)) : Simple Id H :=
  ps.foldl (fun s p => s.pushQueue none p.2 p.1) s

theorem pushAll_spec (s : Simple Id H) (ps : List (Id × ℤ)) :
    ∃ q,s.pushAll ps={s with seen := (discover s.predicate s.seen (ps.map Prod.fst)).1,queue := q} ∧
      (H.values q).Perm ((discover s.predicate s.seen (ps.map Prod.fst)).2++H.values s.queue) := by
  induction ps generalizing s with
  | nil => exact ⟨s.queue,by simp [pushAll,discover],by simp [discover]⟩
  | cons p ps ih =>
    obtain ⟨q,hq,hv⟩ := ih (s.pushQueue none p.2 p.1)
    refine ⟨q,?_,?_⟩
    · rw [pushAll,foldl_cons,← pushAll,hq]
      by_cases hp : p.1∈s.seen
      · simp [pushQueue,discover,hp]
      · by_cases ha : s.predicate p.1=true
        · simp [pushQueue,discover,hp,ha]
        · simp [pushQueue,discover,hp,ha]
    · by_cases hp : p.1∈s.seen
      · simpa [pushQueue,discover,hp] using hv
      · by_cases ha : s.predicate p.1=true
        · simp only [pushQueue,hp,ha] at hv
          simp only [map_cons,discover,hp,ha]
          refine hv.trans ?_
          refine ((H.values_insert s.queue p.2 p.1).append_left _).trans ?_
          exact perm_middle
        · simpa [pushQueue,discover,hp,ha] using hv

/-- The commits waiting to be yielded, in whichever container the sorting uses. -/
def frontier (s : Simple Id H) : List Id :=
  match s.sorting with
  | .breadthFirst => s.next
  | _ => H.values s.queue

def popFrontier (s : Simple Id H) : Option ((Option ℤ × Id) × Simple Id H) :=
  match s.sorting with
  | .breadthFirst => match s.next with
    | [] => none
    | c :: next => some ((none,c),{s with next := next})
  | _ => (H.pop s.queue).map (fun x => ((some x.1.1,x.1.2),{s with queue := x.2}))

/-- Discover the parents of `c` in the container of the sorting. -/
def expand (h : History Id) (s : Simple Id H) (c : Id) : Simple Id H :=
  match s.sorting with
  | .breadthFirst => (h.parents c).foldl pushNext s
  | _ => s.pushAll ((h.parents c).map (fun p => (p,h.time p)))

/-- A traversal over `h` of all parents, without a cutoff time. -/
structure Over (h : History Id) (s : Simple Id H) : Prop where
  objects : s.objects = h.objects
  parents : s.parents = .all
  cutoff : s.sorting.cutoffTime = none
  mem : ∀ c ∈ s.frontier, c ∈ h.commits

variable {c : Id}

omit [DecidableEq Id] in
theorem commitTime_objects (h : History Id) (hc : c∈h.commits) : commitTime h.objects c=h.time c := by
  obtain ⟨_,ho,ht⟩ := h.committer_objects hc
  simp [commitTime,ho,ht]

theorem topologyTokens_stored (s : Simple Id H) (ps acc : List Id) (rest : CommitRefIter Id) :
    topologyTokens .all (ps.map (fun p => .ok (.parent p))++.ok .author::rest) acc s =
      (.ok (acc++ps),ps.foldl pushNext s) := by
  induction ps generalizing acc s with
  | nil => simp [topologyTokens]
  | cons p ps ih => simp [topologyTokens,ih]

theorem topologyCached_all (s : Simple Id H) (ps : List (Id × ℤ)) (acc : List Id) :
    topologyCached .all ps acc s=(acc++ps.map Prod.fst,(ps.map Prod.fst).foldl pushNext s) := by
  induction ps generalizing acc s with
  | nil => simp [topologyCached]
  | cons p ps ih => simp [topologyCached,ih]

@[simp] theorem pushQueue_objects (cutoff : Option ℤ) (s : Simple Id H) (time : ℤ) (id : Id) :
    (s.pushQueue cutoff time id).objects=s.objects := by
  unfold pushQueue
  split
  · rfl
  · split
    · cases cutoff with
      | none => rfl
      | some limit => dsimp only; split <;> rfl
    · rfl

theorem dateTokens_stored (h : History Id) (s : Simple Id H) (hs : s.objects=h.objects) (ps acc : List Id)
    (hps : ∀ p∈ps,p∈h.commits) (rest : CommitRefIter Id) :
    dateTokens none (ps.map (fun p => .ok (.parent p))++.ok .author::rest) acc s =
      (.ok (acc++ps),s.pushAll (ps.map (fun p => (p,h.time p)))) := by
  induction ps generalizing acc s with
  | nil => simp [dateTokens,pushAll]
  | cons p ps ih =>
    have hp := commitTime_objects h (hps p mem_cons_self)
    have hrest := ih (s.pushQueue none (h.time p) p) (by simpa using hs) (acc++[p])
      (fun q hq => hps q (mem_cons_of_mem _ hq))
    simpa [dateTokens,hs,hp,pushAll] using hrest

variable {g : Graph Id}

section
omit [DecidableEq Id]

theorem collectParents_eq_none {es : List (Except Unit ℕ)} : collectParents g es=none ↔ .error ()∈es := by
  induction es with
  | nil => simp [collectParents]
  | cons e es ih =>
    cases e with
    | error e => simp [collectParents]
    | ok pos => simp [collectParents,ih]

theorem collectParents_ok (g : Graph Id) (qs : List ℕ) :
    collectParents g (qs.map .ok)=some (qs.map (fun q => (g.idAt q,(g.committerTimestamp q : ℤ)))) := by
  induction qs with
  | nil => rfl
  | cons q qs ih => simp [collectParents,ih]

end

theorem exists_map_ok {es : List (Except Unit ℕ)} (he : .error ()∉es) : ∃ qs : List ℕ,es=qs.map .ok := by
  induction es with
  | nil => exact ⟨[],rfl⟩
  | cons e es ih =>
    obtain ⟨qs,rfl⟩ := ih (fun hm => he (mem_cons_of_mem _ hm))
    cases e with
    | error e => exact absurd mem_cons_self he
    | ok q => exact ⟨q::qs,rfl⟩

variable {h : History Id}

section
omit [DecidableEq Id]

theorem collectParents_agrees (hg : g.Agrees h) {pos : ℕ} (hc : c∈h.commits) (hl : g.lookup c=some pos)
    (he : ¬ g.Corrupt c) :
    collectParents g (g.iterParents pos)=some ((h.parents c).map (fun p => (p,h.time p))) := by
  obtain ⟨qs,hq⟩ := exists_map_ok (fun hm => he ⟨pos,hl,hm⟩)
  obtain ⟨hp,ht⟩ := hg c hc pos hl qs hq
  rw [hq,collectParents_ok,← hp,map_map]
  congr 1
  apply map_congr_left
  intro q hm
  simp [ht q hm]

theorem find_none_cache (objects : Objects Id) (c : Id) :
    ∀ g pos,find none objects c ≠ .ok (.cachedCommit g pos) := by
  simp only [find]
  cases objects c <;> simp

end

variable {s : Simple Id H}

theorem stepByTopology_retry (hs : s.cache=none) (r r' : Simple Id H → Out Id H) :
    stepByTopology r s=stepByTopology r' s := by
  unfold stepByTopology
  cases s.next with
  | nil => rfl
  | cons c next =>
    dsimp only
    rw [hs]
    split
    · rfl
    · next g pos hf => exact absurd hf (find_none_cache _ _ g pos)
    · rfl

theorem stepByCommitDate_retry (hs : s.cache=none) (r r' : Simple Id H → Out Id H) :
    stepByCommitDate r none s=stepByCommitDate r' none s := by
  unfold stepByCommitDate
  cases H.pop s.queue with
  | none => rfl
  | some x =>
    dsimp only
    rw [hs]
    split
    · rfl
    · next g pos hf => exact absurd hf (find_none_cache _ _ g pos)
    · rfl

theorem sorting_cases {s : Sorting} (hs : s.cutoffTime=none) :
    s = .breadthFirst ∨ s = .byCommitTimeNewestFirst := by
  cases s with
  | breadthFirst => exact .inl rfl
  | byCommitTimeNewestFirst => exact .inr rfl
  | byCommitTimeNewestFirstCutoffOlderThan t => simp [Sorting.cutoffTime] at hs

variable (ho : s.Over h)
include ho

theorem iterNext_none (hp : s.popFrontier=none) : s.iterNext=(none,s) := by
  unfold popFrontier at hp
  unfold iterNext
  rcases sorting_cases ho.cutoff with hs | hs <;> rw [hs] at hp <;> simp [ho.parents,hs]
  · cases hn : s.next with
    | nil => simp [nextByTopology,stepByTopology,hn]
    | cons c next => simp [hn] at hp
  · have hq : H.pop s.queue=none := by simpa using hp
    simp [nextByCommitDate,stepByCommitDate,hq]

variable {r : Simple Id H} {t : Option ℤ}

variable (hp : s.popFrontier = some ((t,c),r))
include hp

section
omit [DecidableEq Id]

theorem popFrontier_cases :
    (∃ next,s.sorting = .breadthFirst ∧ s.next=c::next ∧ t=none ∧ r={s with next := next}) ∨
      ∃ time q,s.sorting = .byCommitTimeNewestFirst ∧ H.pop s.queue=some ((time,c),q) ∧ t=some time ∧
        r={s with queue := q} := by
  unfold popFrontier at hp
  rcases sorting_cases ho.cutoff with hs | hs <;> simp only [hs] at hp
  · cases hn : s.next with
    | nil => simp [hn] at hp
    | cons a next =>
      simp only [hn] at hp
      cases hp
      exact .inl ⟨next,hs,rfl,rfl,by rw [hs]⟩
  · obtain ⟨⟨⟨time,a⟩,q⟩,hq,heq⟩ := Option.map_eq_some_iff.mp hp
    cases heq
    exact .inr ⟨time,q,hs,hq,rfl,by rw [hs]⟩

theorem popFrontier_some :
    s.frontier.Perm (c::r.frontier) ∧ r.seen=s.seen ∧ r.cache=s.cache ∧
      r.predicate=s.predicate ∧ r.Over h := by
  have hperm : s.frontier.Perm (c::r.frontier) := by
    unfold frontier
    rcases popFrontier_cases ho hp with ⟨next,hs,hn,rfl,rfl⟩ | ⟨time,q,hs,hq,rfl,rfl⟩
    · simp [hs,hn]
    · simpa [hs] using H.values_pop hq
  have hmem : ∀ a∈r.frontier,a∈h.commits := fun a ha => ho.mem a (hperm.mem_iff.mpr (mem_cons_of_mem _ ha))
  rcases popFrontier_cases ho hp with ⟨next,-,-,-,rfl⟩ | ⟨time,q,-,-,-,rfl⟩ <;>
    exact ⟨hperm,rfl,rfl,rfl,ho.objects,ho.parents,ho.cutoff,hmem⟩

theorem Over.popped : c∈h.commits :=
  ho.mem c ((popFrontier_some ho hp).1.mem_iff.mpr mem_cons_self)

end

/-- A call that reads the popped commit from the object database. -/
theorem iterNext_stored (hc : c∈h.commits)
    (hl : s.cache.bind (fun g => g.lookup c)=none) : s.iterNext=(some (.ok ⟨c,h.parents c,t⟩),expand h r c) := by
  obtain ⟨tree,rest,hst⟩ := h.stored c hc
  have hf : find s.cache s.objects c = .ok (.commitRefIter (.ok (.tree tree) ::
      (h.parents c).map (fun p => .ok (.parent p))++.ok .author :: .ok (.committer (h.time c))::rest)) := by
    have hb : s.cache.bind (fun g => (g.lookup c).map (Either.cachedCommit g))=none := by
      cases hg : s.cache with
      | none => rfl
      | some g => simpa [hg] using hl
    simp [find,hb,ho.objects,hst]
  rcases popFrontier_cases ho hp with ⟨_,hs,hn,rfl,rfl⟩ | ⟨time,q,hs,hq,rfl,rfl⟩
  · simp [iterNext,expand,nextByTopology,stepByTopology,hn,hf,ho.parents,topologyTokens,topologyTokens_stored,hs]
  · have htok := dateTokens_stored h {s with queue := q} ho.objects (h.parents c) []
      (h.closed c hc) (.ok (.committer (h.time c))::rest)
    simp only [hs,ho.parents,nil_append] at htok
    simp [iterNext,expand,nextByCommitDate,stepByCommitDate,hq,hf,ho.parents,dateTokens,hs,htok]

/-- A call that reads the popped commit from a commit-graph agreeing with the history. -/
theorem iterNext_cached {pos : ℕ} (hc : c∈h.commits)
    (hg : g.Agrees h) (hcache : s.cache=some g) (hl : g.lookup c=some pos) (hcor : ¬ g.Corrupt c) :
    s.iterNext=(some (.ok ⟨c,h.parents c,t⟩),expand h r c) := by
  have hf : find s.cache s.objects c = .ok (.cachedCommit g pos) := by simp [find,hcache,hl]
  have hcol := collectParents_agrees hg hc hl hcor
  have hfst : ((h.parents c).map (fun p => (p,h.time p))).map Prod.fst=h.parents c := by simp [Function.comp_def]
  rcases popFrontier_cases ho hp with ⟨_,hs,hn,rfl,rfl⟩ | ⟨time,_,hs,hq,rfl,rfl⟩
  · simp [iterNext,expand,nextByTopology,stepByTopology,hn,hf,hcol,ho.parents,topologyCached_all,hfst,hs]
  · simp only [iterNext,nextByCommitDate,stepByCommitDate,hq,hf,hcol,ho.parents,hfst,hs]
    rfl

/-- A corrupt parent list: the popped commit is neither yielded nor expanded. -/
theorem iterNext_corrupt (hcache : s.cache=some g)
    (hcor : g.Corrupt c) : s.iterNext=iterNext {r with cache := none} := by
  obtain ⟨pos,hl,herr⟩ := hcor
  have hf : find s.cache s.objects c = .ok (.cachedCommit g pos) := by simp [find,hcache,hl]
  have hcol := collectParents_eq_none (g := g).mpr herr
  rcases popFrontier_cases ho hp with ⟨_,hs,hn,rfl,rfl⟩ | ⟨_,_,hs,hq,rfl,rfl⟩
  · simp only [iterNext,nextByTopology]
    rw [stepByTopology]
    simp only [hn,hf,hcol,ho.parents,hs]
    apply stepByTopology_retry
    rfl
  · simp only [iterNext,nextByCommitDate]
    rw [stepByCommitDate]
    simp only [hq,hf,hcol,ho.parents,hs]
    apply stepByCommitDate_retry
    rfl

omit hp [DecidableEq Id] in
theorem popFrontier_none (hp : s.popFrontier=none) : s.frontier=[] := by
  unfold popFrontier at hp
  unfold frontier
  rcases sorting_cases ho.cutoff with hs | hs <;> rw [hs] at hp <;> simp [hs]
  · cases hn : s.next with
    | nil => rfl
    | cons c next => simp [hn] at hp
  · exact H.values_pop_none (by simpa using hp)

omit hp in
theorem expand_spec (hc : c∈h.commits) :
    (expand h s c).frontier.Perm ((discover s.predicate s.seen (h.parents c)).2++s.frontier) ∧
      (expand h s c).seen=(discover s.predicate s.seen (h.parents c)).1 ∧
      (expand h s c).cache=s.cache ∧ (expand h s c).predicate=s.predicate ∧ (expand h s c).Over h := by
  have hmem : ∀ {s' : Simple Id H},s'.frontier.Perm ((discover s.predicate s.seen (h.parents c)).2++s.frontier) →
      ∀ a∈s'.frontier,a∈h.commits := by
    intro s' hf a ha
    rcases mem_append.mp (hf.mem_iff.mp ha) with ha | ha
    · exact h.closed c hc a (mem_discover_new.mp ha).1
    · exact ho.mem a ha
  rcases sorting_cases ho.cutoff with hs | hs
  · have he := s.foldl_pushNext (h.parents c)
    rw [show (h.parents c).foldl pushNext s=expand h s c by rw [expand,hs]] at he
    have hf : (expand h s c).frontier.Perm ((discover s.predicate s.seen (h.parents c)).2++s.frontier) := by
      simpa [he,frontier,hs] using perm_append_comm
    rw [he] at hf ⊢
    exact ⟨hf,rfl,rfl,rfl,ho.objects,ho.parents,ho.cutoff,hmem hf⟩
  · obtain ⟨_,hq,hv⟩ := s.pushAll_spec ((h.parents c).map (fun p => (p,h.time p)))
    have hfst : ((h.parents c).map (fun p => (p,h.time p))).map Prod.fst=h.parents c := by simp [Function.comp_def]
    rw [hfst] at hv
    rw [hfst,show s.pushAll _=expand h s c by rw [expand,hs]] at hq
    have hf : (expand h s c).frontier.Perm ((discover s.predicate s.seen (h.parents c)).2++s.frontier) := by
      simpa [hq,frontier,hs] using hv
    rw [hq] at hf ⊢
    exact ⟨hf,rfl,rfl,rfl,ho.objects,ho.parents,ho.cutoff,hmem hf⟩

/-- A finished traversal that reads every commit, with the data it yields. -/
inductive Run (h : History Id) : Simple Id H → List (Info Id) → Simple Id H → Prop
  | done {s : Simple Id H} (hp : s.popFrontier = none) : Run h s [] s
  | step {s r z : Simple Id H} {t : Option ℤ} {c : Id} {l : List (Info Id)}
      (hp : s.popFrontier = some ((t,c),r)) (hr : Run h (expand h r c) l z) :
      Run h s (⟨c,h.parents c,t⟩ :: l) z

omit hp

/-- Without a cache the traversal runs to its end, within as many calls as commits are left. -/
theorem exists_run (hc : s.cache=none) :
    ∃ l z,Run h s l z ∧
      ∀ fuel,potential h.commits s.frontier s.seen < fuel → s.collect fuel=some (l.map .ok) := by
  induction hn : potential h.commits s.frontier s.seen using Nat.strong_induction_on generalizing s with
  | _ n ih =>
    cases hp : s.popFrontier with
    | none =>
      refine ⟨[],s,.done hp,?_⟩
      intro fuel hf
      obtain ⟨k,rfl⟩ := Nat.exists_eq_succ_of_ne_zero (by omega : fuel≠0)
      simp [collect,iterNext_none ho hp]
    | some x =>
      obtain ⟨⟨_,c⟩,_⟩ := x
      obtain ⟨hperm,hseen,hcache,_,hor⟩ := popFrontier_some ho hp
      have hmem := ho.popped hp
      obtain ⟨hf,hs',hc',_,hoe⟩ := expand_spec hor hmem
      rw [hseen] at hf hs'
      have hlt := potential_step hperm hf (h.closed c hmem)
      rw [← hs',hn] at hlt
      obtain ⟨l,z,hrun,hcol⟩ := ih _ hlt hoe (by rw [hc',hcache,hc]) rfl
      refine ⟨_,z,.step hp hrun,?_⟩
      intro fuel hfuel
      obtain ⟨k,rfl⟩ := Nat.exists_eq_succ_of_ne_zero (by omega : fuel≠0)
      have hnext := iterNext_stored ho hp hmem (by simp [hc])
      simp [collect,hnext,hcol k (by omega)]

omit ho

variable {l : List (Info Id)} {z : Simple Id H}

/-- The search invariant is carried through a run; at its end nothing is left to yield. -/
theorem Run.invariant (hrun : Run h s l z) (ho : s.Over h) {roots out : List Id}
    (hi : Invariant s.predicate h.parents roots s.frontier s.seen out) :
    Invariant s.predicate h.parents roots [] z.seen (out++l.map Info.id) := by
  induction hrun generalizing out with
  | done hp => simpa [popFrontier_none ho hp] using hi
  | step hp hr ih =>
    obtain ⟨hperm,hseen,_,hpred,hor⟩ := popFrontier_some ho hp
    obtain ⟨hf,hs,_,hp',hoe⟩ := expand_spec hor (ho.popped hp)
    rw [hpred,hseen] at hf hs
    have hi' := hi.step hperm hf
    rw [← hs,← hpred,← hp'] at hi'
    have hz := ih hoe hi'
    rw [hp',hpred] at hz
    simpa using hz

/-- What was seen but is not waiting is not yielded any more. -/
theorem Run.not_mem (hrun : Run h s l z) (ho : s.Over h) (hc : c∈s.seen) (hn : c∉s.frontier) :
    c∉l.map Info.id := by
  induction hrun with
  | done hp => simp
  | step hp hr ih =>
    obtain ⟨hperm,hseen,_,_,hor⟩ := popFrontier_some ho hp
    obtain ⟨hf,hs,_,_,hoe⟩ := expand_spec hor (ho.popped hp)
    rw [hseen] at hf hs
    have hne := fun hm => hn (hperm.mem_iff.mpr hm)
    have hrest := ih hoe (by rw [hs]; exact mem_discover_seen.mpr (.inl hc)) (by
      intro hm
      rcases mem_append.mp (hf.mem_iff.mp hm) with hm | hm
      · exact (mem_discover_new.mp hm).2.1 hc
      · exact hne (mem_cons_of_mem _ hm))
    rw [map_cons,mem_cons,not_or]
    exact ⟨fun he => hne (he ▸ mem_cons_self),hrest⟩

section
omit [DecidableEq Id]

theorem popFrontier_cache (s : Simple Id H) (cache : Option (Graph Id)) :
    popFrontier {s with cache := cache} =
      s.popFrontier.map (fun x => (x.1,{x.2 with cache := cache})) := by
  unfold popFrontier
  cases hs : s.sorting with
  | breadthFirst => cases s.next <;> simp
  | byCommitTimeNewestFirst => cases H.pop s.queue <;> simp
  | byCommitTimeNewestFirstCutoffOlderThan t => cases H.pop s.queue <;> simp

theorem Over.withCache (ho : s.Over h) (cache : Option (Graph Id)) :
    Over h {s with cache := cache} := ⟨ho.objects,ho.parents,ho.cutoff,ho.mem⟩

end

theorem pushQueue_cache (cutoff : Option ℤ) (s : Simple Id H) (time : ℤ) (id : Id)
    (cache : Option (Graph Id)) :
    pushQueue cutoff {s with cache := cache} time id={s.pushQueue cutoff time id with cache := cache} := by
  unfold pushQueue
  split
  · rfl
  · split
    · cases cutoff with
      | none => rfl
      | some limit => dsimp only; split <;> rfl
    · rfl

theorem expand_cache (h : History Id) (s : Simple Id H) (c : Id) (cache : Option (Graph Id)) :
    expand h {s with cache := cache} c={expand h s c with cache := cache} := by
  have hq : ∀ ps : List (Id × ℤ),∀ s : Simple Id H,
      pushAll {s with cache := cache} ps={s.pushAll ps with cache := cache} := by
    intro ps
    induction ps with
    | nil => intro s; rfl
    | cons p ps ih =>
      intro s
      simp only [pushAll,foldl_cons] at ih ⊢
      rw [pushQueue_cache,ih]
  obtain ⟨_,_,_,_,_,_,_,sorting⟩ := s
  cases sorting with
  | breadthFirst => simp [expand,foldl_pushNext]
  | byCommitTimeNewestFirst => exact hq _ ⟨_,_,_,_,_,_,_,_⟩
  | byCommitTimeNewestFirstCutoffOlderThan t => exact hq _ ⟨_,_,_,_,_,_,_,_⟩

/-- Next to the run without a commit-graph: as long as every popped commit is readable the
traversal with one does the same, and the first corrupt one is missing from its result. -/
theorem Run.cached (hrun : Run h s l z) (ho : s.Over h) (hc : s.cache=none) (hg : g.Agrees h)
    (hseen : ∀ c∈s.frontier,c∈s.seen) (hnd : s.frontier.Nodup) :
    ∃ l',(∀ fuel,potential h.commits s.frontier s.seen < fuel →
        collect fuel {s with cache := some g}=some (l'.map .ok)) ∧
      ((l'=l ∧ ∀ c∈l.map Info.id,¬ g.Corrupt c) ∨
        ∃ c∈l.map Info.id,g.Corrupt c ∧ c∉l'.map Info.id) := by
  induction hrun with
  | @done s hp =>
    refine ⟨[],?_,.inl ⟨rfl,by simp⟩⟩
    intro fuel hf
    obtain ⟨k,rfl⟩ := Nat.exists_eq_succ_of_ne_zero (by omega : fuel≠0)
    have hp' : popFrontier {s with cache := some g}=none := by rw [popFrontier_cache,hp]; rfl
    simp [collect,iterNext_none (ho.withCache _) hp']
  | @step s r z t c l hp hr ih =>
    obtain ⟨hperm,hs,hcr,_,hor⟩ := popFrontier_some ho hp
    have hmem := ho.popped hp
    have hp' : popFrontier {s with cache := some g}=some ((t,c),{r with cache := some g}) := by
      rw [popFrontier_cache,hp]; rfl
    have hcons := nodup_cons.mp (hperm.nodup_iff.mp hnd)
    by_cases hcor : g.Corrupt c
    · -- `c` is gone for good: it is seen, but not waiting any more
      have hnext := iterNext_corrupt (ho.withCache _) hp' rfl hcor
      have hr0 : {r with cache := none}=r := by rw [← hc,← hcr]
      have hcr0 := hcr.trans hc
      obtain ⟨l',_,hrun',hcol⟩ := exists_run hor hcr0
      refine ⟨l',?_,.inr ⟨c,by simp,hcor,?_⟩⟩
      · intro fuel hfuel
        have hlt : potential h.commits r.frontier r.seen < fuel := by
          have hl := hperm.length_eq
          rw [length_cons] at hl
          unfold potential at hfuel ⊢
          rw [hs]
          omega
        rw [← hcol fuel hlt]
        obtain ⟨k,rfl⟩ := Nat.exists_eq_succ_of_ne_zero (by omega : fuel≠0)
        rw [collect,hnext]
        exact hr0 ▸ rfl
      · refine hrun'.not_mem hor ?_ hcons.1
        rw [hs]
        exact hseen c (hperm.mem_iff.mpr mem_cons_self)
    · obtain ⟨hf,hs',hce,_,hoe⟩ := expand_spec hor hmem
      rw [hs] at hf hs'
      have hlt := potential_step hperm hf (h.closed c hmem)
      rw [← hs'] at hlt
      have hnext : iterNext {s with cache := some g} =
          (some (.ok ⟨c,h.parents c,t⟩),{expand h r c with cache := some g}) := by
        rw [← expand_cache]
        cases hl : g.lookup c with
        | none => exact iterNext_stored (ho.withCache _) hp' hmem hl
        | some pos => exact iterNext_cached (ho.withCache _) hp' hmem hg rfl hl hcor
      obtain ⟨l',hcol,hres⟩ := ih hoe ((hce.trans hcr).trans hc) (by
          intro a ha
          rw [hs']
          rcases mem_append.mp (hf.mem_iff.mp ha) with ha | ha
          · exact mem_discover_seen.mpr (.inr (mem_discover_new.mp ha).1)
          · exact mem_discover_seen.mpr (.inl
              (hseen a (hperm.mem_iff.mpr (mem_cons_of_mem _ ha))))) (by
          refine hf.nodup_iff.mpr (nodup_append.mpr ⟨nodup_discover_new,hcons.2,?_⟩)
          rintro a ha b hb rfl
          exact (mem_discover_new.mp ha).2.1 (hseen a (hperm.mem_iff.mpr (mem_cons_of_mem _ hb))))
      refine ⟨⟨c,h.parents c,t⟩::l',?_,?_⟩
      · intro fuel hfuel
        obtain ⟨k,rfl⟩ := Nat.exists_eq_succ_of_ne_zero (by omega : fuel≠0)
        simp [collect,hnext,hcol k (by omega)]
      · rcases hres with ⟨rfl,hall⟩ | ⟨d,hd,hdc,hdn⟩
        · refine .inl ⟨rfl,?_⟩
          intro d hd
          rcases mem_cons.mp hd with rfl | hd
          · exact hcor
          · exact hall d hd
        · refine .inr ⟨d,mem_cons_of_mem _ hd,hdc,?_⟩
          intro hm
          rcases mem_cons.mp hm with rfl | hm
          · exact hcor hdc
          · exact hdn hm

end Simple
end Gix.Commit
