import Gix.TopoWalk
import Gix.Worklist
import Gix.KahnSort

/-! # What the steps of the topological walk do without a commit-graph

Over a history whose commits are all in the object database each loop of the walk returns
without an error. The flags of a commit that was never met count as all unset. -/
namespace Gix.Commit.Topo
open PriorityQueue Worklist Fallible List Function Option WalkFlags

variable {Id : Type} {HE : Heap GenAndCommitTime Id} {HI : Heap ℤ (Info Id)}

/-- Every commit has an infinite generation without a commit-graph. -/
def key (h : History Id) (c : Id) : GenAndCommitTime := toLex (generationNumberInfinity,h.time c)

/-- What the walk is to yield for a commit. -/
def info (h : History Id) (c : Id) : Info Id := ⟨c,h.parents c,some (h.time c)⟩

def keyed (h : History Id) (ps : List Id) : List (Id × GenAndCommitTime) := ps.map (fun p => (p,key h p))

@[simp] theorem keyed_fst (h : History Id) (ps : List Id) : (keyed h ps).map Prod.fst=ps := by
  simp [keyed,comp_def]

/-- The walk reads `h` without a commit-graph and follows all parents. -/
structure Over (h : History Id) (w : Topo Id HE HI) : Prop where
  commitGraph : w.commitGraph = none
  find : w.find = h.objects
  parents : w.parents = .all
  minGen : w.minGen = generationNumberInfinity

variable {h : History Id} {w : Topo Id HE HI} {x c : Id}

theorem parentTokens_stored (ps : List Id) (rest : CommitRefIter Id) :
    parentTokens false (ps.map (fun p => .ok (.parent p))++.ok .author::rest) = .ok ps := by
  induction ps with
  | nil => rfl
  | cons p ps ih => simp [parentTokens,ih,Except.map]

theorem committerSeconds_stored (ps : List Id) (time : ℤ) (rest : CommitRefIter Id) :
    committerSeconds (ps.map (fun p => .ok (.parent p))++.ok .author :: .ok (.committer time)::rest) =
      .ok time := by
  induction ps with
  | nil => rfl
  | cons p ps ih => simpa [committerSeconds] using ih

theorem genAndCommitTime_stored (hc : c∈h.commits) :
    (Commit.find none h.objects c).bind genAndCommitTime = .ok (key h c) := by
  obtain ⟨_,rest,ho⟩ := h.stored c hc
  have ht := committerSeconds_stored (h.parents c) (h.time c) rest
  simp [Commit.find,ho,genAndCommitTime,committerSeconds,Except.bind,Except.map,ht,key]

theorem fillParents_stored (ps : List Id) (hps : ∀ p∈ps,p∈h.commits) :
    fillParents none h.objects ps = .ok (keyed h ps) := by
  induction ps with
  | nil => rfl
  | cons p ps ih =>
    have hp := genAndCommitTime_stored (hps p mem_cons_self)
    have hrest := ih (fun q hq => hps q (mem_cons_of_mem _ hq))
    cases hf : Commit.find none h.objects p with
    | error e => simp [hf,Except.bind] at hp
    | ok commit =>
      simp only [hf,Except.bind] at hp
      simp only [fillParents,hf,bind,Except.bind,hp,hrest]
      rfl

section
variable (ho : Over h w) (hc : c∈h.commits)
include ho hc

theorem collectAllParents_over :
    collectAllParents c w=some (.ok (keyed h (h.parents c)),w) := by
  obtain ⟨_,rest,hstored⟩ := h.stored c hc
  have ht := parentTokens_stored (h.parents c) (.ok (.committer (h.time c))::rest)
  have hr : collectParentsFrom w.commitGraph w.find c false=(.ok (keyed h (h.parents c)),w.commitGraph) := by
    simp [ho.commitGraph,ho.find,collectParentsFrom,collectParentsBody,Commit.find,hstored,parentTokens,ht,Except.bind,
      fillParents_stored (h.parents c) (h.closed c hc)]
  simp [collectAllParents,collectParentsMode,hr]

theorem collectParents_over :
    collectParents c w=some (.ok (keyed h (h.parents c)),w) := by
  have hp : (w.parents == Parents.first)=false := by rw [ho.parents]; rfl
  simpa [collectParents,hp,collectAllParents] using collectAllParents_over ho hc

theorem lookupTime_over :
    lookupTime c w=some (.ok (key h c),w) := by
  simp [lookupTime,lift,ho.commitGraph,ho.find,genAndCommitTime_stored hc]

end

/-- The flags of a commit, none if it is unknown. -/
def flagsOf (st : Id → Option WalkFlags) (x : Id) : WalkFlags := (st x).getD {}

theorem known_of_flag {st : Id → Option WalkFlags} (flag : WalkFlags → Bool) (h0 : flag {}=false)
    (hx : flag (flagsOf st x)=true) : (st x).isSome := by
  cases hs : st x with
  | none => simp [flagsOf,hs,h0] at hx
  | some fl => rfl

/-- Some commits became known, `U` at most became uninteresting and `A` added. -/
structure Marked (U A : Id → Prop) (st st' : Id → Option WalkFlags) : Prop where
  known : ∀ x, (st x).isSome → (st' x).isSome
  explored : ∀ x, (flagsOf st' x).explored = (flagsOf st x).explored
  inDegree : ∀ x, (flagsOf st' x).inDegree = (flagsOf st x).inDegree
  uninteresting : ∀ x, (flagsOf st x).uninteresting = true → (flagsOf st' x).uninteresting = true
  scope : ∀ x, (flagsOf st' x).uninteresting = true → (flagsOf st x).uninteresting = true ∨ U x
  added : ∀ x, (flagsOf st x).added = true → (flagsOf st' x).added = true
  added_scope : ∀ x, (flagsOf st' x).added = true → (flagsOf st x).added = true ∨ A x

section Marked
variable {U A : Id → Prop} {st st' st'' : Id → Option WalkFlags}

theorem Marked.refl (U A : Id → Prop) (st : Id → Option WalkFlags) : Marked U A st st :=
  ⟨fun _ h => h,fun _ => rfl,fun _ => rfl,fun _ h => h,fun _ h => .inl h,fun _ h => h,fun _ h => .inl h⟩

theorem Marked.trans (h : Marked U A st st') (h' : Marked U A st' st'') : Marked U A st st'' where
  known x hx := h'.known x (h.known x hx)
  explored x := (h'.explored x).trans (h.explored x)
  inDegree x := (h'.inDegree x).trans (h.inDegree x)
  uninteresting x hx := h'.uninteresting x (h.uninteresting x hx)
  scope x hx := (h'.scope x hx).elim (h.scope x) .inr
  added x hx := h'.added x (h.added x hx)
  added_scope x hx := (h'.added_scope x hx).elim (h.added_scope x) .inr

theorem Marked.mono {U' A' : Id → Prop} (hU : ∀ x,U x → U' x) (hA : ∀ x,A x → A' x)
    (h : Marked U A st st') : Marked U' A' st st' :=
  ⟨h.known,h.explored,h.inDegree,h.uninteresting,fun x hx => (h.scope x hx).imp_right (hU x),
    h.added,fun x hx => (h.added_scope x hx).imp_right (hA x)⟩

variable [DecidableEq Id]

/-- An update at one commit marks if the flags it stores do. -/
theorem marked_update {fl : WalkFlags} (he : fl.explored=(flagsOf st x).explored)
    (hi : fl.inDegree=(flagsOf st x).inDegree)
    (hu : (flagsOf st x).uninteresting=true → fl.uninteresting=true)
    (hU : fl.uninteresting=true → (flagsOf st x).uninteresting=true ∨ U x)
    (ha : (flagsOf st x).added=true → fl.added=true)
    (hA : fl.added=true → (flagsOf st x).added=true ∨ A x) :
    Marked U A st (Function.update st x (some fl)) := by
  -- what holds of the flags that are stored, and of flags that stay, holds everywhere
  have hall : ∀ P : Id → WalkFlags → WalkFlags → Prop,P x (flagsOf st x) fl → (∀ y f,P y f f) →
      ∀ y,P y (flagsOf st y) (flagsOf (update st x (some fl)) y) := by
    intro P hx hother y
    by_cases hy : y=x
    · simpa [flagsOf,hy] using hx
    · simpa [flagsOf,update_of_ne hy] using hother y (flagsOf st y)
  refine ⟨fun y hy => ?_,hall (fun _ f f' => f'.explored=f.explored) he fun _ _ => rfl,
    hall (fun _ f f' => f'.inDegree=f.inDegree) hi fun _ _ => rfl,
    hall (fun _ f f' => f.uninteresting=true → f'.uninteresting=true) hu fun _ _ => id,
    hall (fun y f f' => f'.uninteresting=true → f.uninteresting=true ∨ U y) hU fun _ _ => .inl,
    hall (fun _ f f' => f.added=true → f'.added=true) ha fun _ _ => id,
    hall (fun y f f' => f'.added=true → f.added=true ∨ A y) hA fun _ _ => .inl⟩
  by_cases hxy : y=x
  · simp [hxy]
  · rwa [update_of_ne hxy]

/-- Marking a commit uninteresting if `u` is set, and as seen if it is new and `v` is set. -/
theorem marked_orInsert (u v : Bool) (x : Id) (hU : u=true → U x) :
    Marked U A st (orInsert {uninteresting := u} {uninteresting := u,seen := v} st x) := by
  cases hs : st x with
  | none =>
    have hf : flagsOf st x={} := by simp [flagsOf,hs]
    apply marked_update <;> simp_all
  | some fl =>
    have hf : flagsOf st x=fl := by simp [flagsOf,hs]
    apply marked_update <;> cases u <;> simp_all [union]

theorem marked_foldl (u v : Bool) (ids : List Id) (hU : u=true → ∀ x∈ids,U x) :
    Marked U A st (ids.foldl (orInsert {uninteresting := u} {uninteresting := u,seen := v}) st) ∧
      ∀ x∈ids,(ids.foldl (orInsert {uninteresting := u} {uninteresting := u,seen := v}) st x).isSome := by
  induction ids generalizing st with
  | nil => exact ⟨.refl U A st,by simp⟩
  | cons x ids ih =>
    have h1 : Marked U A st (orInsert {uninteresting := u} {uninteresting := u,seen := v} st x) :=
      marked_orInsert u v x (fun h => hU h x mem_cons_self)
    obtain ⟨h2,h3⟩ :=
      ih (fun h y hy => hU h y (mem_cons_of_mem _ hy))
    refine ⟨h1.trans h2,?_⟩
    intro y hy
    rcases mem_cons.mp hy with rfl | hy
    · exact h2.known y (by simp [orInsert])
    · exact h3 y hy

end Marked

section Process

theorem Over.withStates (ho : Over h w) (st : Id → Option WalkFlags) : Over h {w with states := st} :=
  {ho with}

theorem state_known (hx : (w.states x).isSome) : state x w=some (.ok (flagsOf w.states x),w) := by
  obtain ⟨_,hf⟩ := isSome_iff_exists.mp hx
  simp [state,hf,flagsOf]

variable [DecidableEq Id]

theorem markGrandParents_over (ids : List Id) (hids : ∀ c∈ids,c∈h.commits) (ho : Over h w) :
    ∃ st,markGrandParents ids w=some (.ok (),{w with states := st}) ∧
      Marked (fun x => ∃ c∈ids,x∈h.parents c) (fun _ => False) w.states st := by
  induction ids generalizing w with
  | nil => exact ⟨w.states,rfl,.refl _ _ _⟩
  | cons c ids ih =>
    have hm : Marked (fun x => ∃ d∈c::ids,x∈h.parents d) (fun _ => False) w.states
        ((h.parents c).foldl (orInsert {uninteresting := true} {uninteresting := true,seen := true}) w.states) :=
      (marked_foldl true true _ (fun _ x hx => ⟨c,mem_cons_self,hx⟩)).1
    obtain ⟨st,hst,hm'⟩ := ih (fun d hd => hids d (mem_cons_of_mem _ hd)) (ho.withStates
      ((h.parents c).foldl (orInsert {uninteresting := true} {uninteresting := true,seen := true}) w.states))
    refine ⟨st,?_,hm.trans (hm'.mono ?_ (fun _ hx => hx))⟩
    · rw [markGrandParents,bind_ok (collectAllParents_over ho (hids c mem_cons_self)),keyed_fst]
      exact hst
    · rintro x ⟨d,hd,hx⟩
      exact ⟨d,mem_cons_of_mem _ hd,hx⟩

theorem processParents_added {ps : List (Id × GenAndCommitTime)}
    (ha : (flagsOf w.states x).added=true) : processParents x ps w=some (.ok (),w) := by
  rw [processParents,bind_ok (state_known (known_of_flag added rfl ha))]
  simp [ha]

/-- The parents become known and the commit added. An uninteresting commit makes its
parents and grandparents uninteresting. -/
theorem processParents_over (ho : Over h w) (hc : x∈h.commits) (hx : (w.states x).isSome)
    (hk : (flagsOf w.states x).added=true → ∀ p∈h.parents x,(w.states p).isSome) :
    ∃ st,processParents x (keyed h (h.parents x)) w=some (.ok (),{w with states := st}) ∧
      Marked (fun y => (flagsOf w.states x).uninteresting=true ∧ h.Reachable x y) (· = x) w.states st ∧
      (flagsOf st x).added=true ∧ ∀ p∈h.parents x,(st p).isSome := by
  by_cases ha : (flagsOf w.states x).added=true
  · exact ⟨w.states,processParents_added ha,.refl _ _ _,ha,hk ha⟩
  · have hu : Marked (fun y => (flagsOf w.states x).uninteresting=true ∧ h.Reachable x y) (· = x) w.states
        (update w.states x (some {flagsOf w.states x with added := true})) :=
      marked_update rfl rfl id .inl (fun _ => rfl) (fun _ => .inr rfl)
    have hadd : (flagsOf (update w.states x
        (some {flagsOf w.states x with added := true})) x).added=true := by simp [flagsOf]
    rw [processParents,bind_ok (state_known hx),if_neg ha,setState,bind_ok (modify_apply _),keyed_fst]
    by_cases hun : (flagsOf w.states x).uninteresting=true
    · obtain ⟨st,hst,hg⟩ := markGrandParents_over (h.parents x) (h.closed x hc)
        (ho.withStates (update w.states x (some {flagsOf w.states x with added := true})))
      have hg' : Marked (fun y => (flagsOf w.states x).uninteresting=true ∧ h.Reachable x y)
          (· = x) (update w.states x (some {flagsOf w.states x with added := true})) st := by
        refine hg.mono ?_ (fun _ hf => hf.elim)
        rintro y ⟨p,hp,hy⟩
        exact ⟨hun,(Relation.ReflTransGen.single hp).tail hy⟩
      obtain ⟨hm,hkn⟩ : Marked (fun y => (flagsOf w.states x).uninteresting=true ∧ h.Reachable x y)
          (· = x) st _ ∧ _ :=
        marked_foldl true false (h.parents x) (fun _ y hy => ⟨hun,Relation.ReflTransGen.single hy⟩)
      rw [if_pos hun]
      exact ⟨_,(bind_ok hst).trans rfl,(hu.trans hg').trans hm,hm.added x (hg.added x hadd),hkn⟩
    · obtain ⟨hm,hkn⟩ :=
        marked_foldl false true (h.parents x) (fun hf => by simp at hf)
      rw [if_neg hun]
      exact ⟨_,rfl,hu.trans hm,hm.added x hadd,hkn⟩

end Process

section Flagging
variable [DecidableEq Id] {seen : List Id} {γ : Type} {e : Id → ℕ}

/-- Setting a flag of a known commit changes no other flag and no other commit. -/
theorem update_map {st : Id → Option WalkFlags} (f : WalkFlags → γ) (fl : WalkFlags)
    (hx : (st x).isSome) (hf : f fl=f (flagsOf st x)) (y : Id) :
    (Function.update st x (some fl) y).map f=(st y).map f := by
  by_cases hy : y=x
  · obtain ⟨_,hs⟩ := isSome_iff_exists.mp hx
    rw [hy,update_self,hs,map_some,map_some,hf,flagsOf,hs,getD_some]
  · rw [update_of_ne hy]

theorem isSome_of_map_eq {a b : Option WalkFlags} {f : WalkFlags → γ} (h : a.map f=b.map f) :
    a.isSome=b.isSome := by
  rw [← isSome_map,h,isSome_map]

theorem flag_update {st : Id → Option WalkFlags} (g : WalkFlags → Bool)
    (hs : ∀ x,g (flagsOf st x)=true ↔ x∈seen) (p : Id) {fl : WalkFlags} (hfl : g fl=true) (x : Id) :
    g (flagsOf (update st p (some fl)) x)=true ↔ x∈p::seen := by
  by_cases hx : x=p
  · simp [hx,flagsOf,hfl]
  · rw [mem_cons,← hs x]
    simp [hx,flagsOf]

/-- The explore queue receives the parents that were not explored, each once. -/
theorem exploreParents_over (ps : List Id) (hk : ∀ p∈ps,(w.states p).isSome)
    (hs : ∀ x,(flagsOf w.states x).explored=true ↔ x∈seen) :
    ∃ st q,exploreParents (keyed h ps) w=some (.ok (),{w with states := st,exploreQueue := q}) ∧
      (∀ x,(flagsOf st x).explored=true ↔ x∈(discover (fun _ => true) seen ps).1) ∧
      (∀ x,(st x).map (fun fl => {fl with explored := false}) =
        (w.states x).map (fun fl => {fl with explored := false})) ∧
      (HE.items q).Perm ((discover (fun _ => true) seen ps).2.map (fun p => (key h p,p))++
        HE.items w.exploreQueue) := by
  induction ps generalizing w seen with
  | nil => exact ⟨w.states,w.exploreQueue,rfl,hs,fun _ => rfl,.refl _⟩
  | cons p ps ih =>
    obtain ⟨hp,hrest⟩ := forall_mem_cons.mp hk
    have hcons : keyed h (p::ps)=(p,key h p)::keyed h ps := rfl
    rw [hcons,exploreParents,bind_ok (state_known hp)]
    by_cases hm : p∈seen
    · rw [if_pos ((hs p).mpr hm)]
      simpa [discover,hm] using ih hrest hs
    · rw [if_neg (fun he => hm ((hs p).mp he)),setState,bind_ok (modify_apply _),bind_ok (modify_apply _)]
      have hframe := update_map (fun fl => {fl with explored := false})
        {flagsOf w.states p with explored := true} hp rfl
      obtain ⟨st,q,hrun,hseen,hmap,hperm⟩ := ih (w := {w with
          states := update w.states p (some {flagsOf w.states p with explored := true})
          exploreQueue := HE.insert w.exploreQueue (key h p) p})
        (fun q hq => by rw [isSome_of_map_eq (hframe q)]; exact hrest q hq) (flag_update explored hs p rfl)
      refine ⟨st,q,hrun,?_,fun x => (hmap x).trans (hframe x),?_⟩
      · simpa [discover,hm] using hseen
      · simp only [discover,hm]
        refine hperm.trans (((HE.items_insert _ _ _).append_left _).trans perm_middle)

/-- One more than the number of edges counted so far, for roots also without any. -/
def degrees (roots : List Id) (e : Id → ℕ) (x : Id) : Option ℤ :=
  if x ∈ roots ∨ 0 < e x then some (1+e x) else none

theorem countChild_degrees {roots : List Id} (hd : w.indegrees=degrees roots e) (p : Id) :
    countChild p w=some (.ok (),{w with indegrees := degrees roots (fun x => e x+[p].count x)}) := by
  have hu : update w.indegrees p (some ((w.indegrees p).elim 2 (·+1))) =
      degrees roots (fun x => e x+[p].count x) := by
    funext x
    by_cases hx : x=p
    · subst hx
      rw [hd]
      by_cases hr : x∈roots ∨ 0 < e x
      · simp [degrees,hr]
        omega
      · obtain ⟨hn,h0⟩ := not_or.mp hr
        have h0 : e x=0 := by omega
        simp [degrees,hn,h0]
    · rw [update_of_ne hx,hd]
      have hc : [p].count x=0 := count_eq_zero_of_not_mem (by simpa using hx)
      simp [degrees,hc]
  rw [← hu,countChild]
  cases w.indegrees p <;> rfl

/-- Each parent is counted, and the indegree queue receives those it did not have yet. -/
theorem indegreeParents_over (ps : List Id) (hk : ∀ p∈ps,(w.states p).isSome) {roots : List Id}
    (hs : ∀ x,(flagsOf w.states x).inDegree=true ↔ x∈seen)
    (hd : w.indegrees=degrees roots e) :
    ∃ st q,indegreeParents (keyed h ps) w=some (.ok (),
        {w with indegrees := degrees roots (fun x => e x+ps.count x),states := st,indegreeQueue := q}) ∧
      (∀ x,(flagsOf st x).inDegree=true ↔ x∈(discover (fun _ => true) seen ps).1) ∧
      (∀ x,(st x).map (fun fl => {fl with inDegree := false}) =
        (w.states x).map (fun fl => {fl with inDegree := false})) ∧
      (HE.items q).Perm ((discover (fun _ => true) seen ps).2.map (fun p => (key h p,p))++
        HE.items w.indegreeQueue) := by
  induction ps generalizing w seen e with
  | nil => exact ⟨w.states,w.indegreeQueue,by simp [keyed,indegreeParents,← hd],hs,fun _ => rfl,.refl _⟩
  | cons p ps ih =>
    obtain ⟨hp,hrest⟩ := forall_mem_cons.mp hk
    have hcons : keyed h (p::ps)=(p,key h p)::keyed h ps := rfl
    have hcount : (fun x => e x+[p].count x+ps.count x)=fun x => e x+(p::ps).count x := by
      funext x
      rw [Nat.add_assoc,← count_append]
      rfl
    have hst : state p {w with indegrees := degrees roots (fun x => e x+[p].count x)} =
        some (.ok (flagsOf w.states p),_) := state_known hp
    rw [hcons,indegreeParents,bind_ok (countChild_degrees hd p),bind_ok hst,← hcount]
    by_cases hm : p∈seen
    · rw [if_pos ((hs p).mpr hm)]
      simpa only [discover,hm,if_true] using
        ih (w := {w with indegrees := degrees roots (fun x => e x+[p].count x)}) hrest hs rfl
    · rw [if_neg (fun he => hm ((hs p).mp he)),setState,bind_ok (modify_apply _),bind_ok (modify_apply _)]
      have hframe := update_map (fun fl => {fl with inDegree := false})
        {flagsOf w.states p with inDegree := true} hp rfl
      obtain ⟨st,q,hrun,hseen,hmap,hperm⟩ := ih (w := {w with
          states := update w.states p (some {flagsOf w.states p with inDegree := true})
          indegrees := degrees roots (fun x => e x+[p].count x)
          indegreeQueue := HE.insert w.indegreeQueue (key h p) p})
        (fun q hq => by rw [isSome_of_map_eq (hframe q)]; exact hrest q hq) (flag_update inDegree hs p rfl) rfl
      refine ⟨st,q,hrun,?_,fun x => (hmap x).trans (hframe x),?_⟩
      · simpa [discover,hm] using hseen
      · simp only [discover,hm]
        refine hperm.trans (((HE.items_insert _ _ _).append_left _).trans perm_middle)

end Flagging
end Gix.Commit.Topo
