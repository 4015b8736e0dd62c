import Gix.ObjectCountingSteps

/-! # Comparing a commit with its parents

A comparison reports the same changes to every delegate, so what `AllNew` makes of it can be
read off the changes a recorder gets. What it finds is kept only if no other parent
follows. -/
namespace Gix.PackCount
open Gix.Tree Fallible SeenSet TreeDiff List Option

variable {Id Loc : Type} [DecidableEq Id] {db : Db Id Loc}

omit [DecidableEq Id] in
/-- The object a change brings into the tree, unless it is a submodule. -/
def newObject : Change Id → Option Id
  | .addition entryMode oid => if entryMode.isCommit then none else some oid
  | .modification _ _ entryMode oid => if entryMode.isCommit then none else some oid
  | .deletion _ _ => none

def untracked : Recorder Id := ⟨[],[],none,[]⟩

/-- The objects that are new in `currentTree` by the changes the comparison reports. -/
def newObjects (db : Db Id Loc) (fuel : ℕ) (parentTree currentTree : TreeRefIter Id) : List Id :=
  match neededToObtain recorder (countingObjects db) fuel parentTree currentTree untracked with
  | some (_,r) => r.records.filterMap (fun record => newObject record.change)
  | none => []

/-- What is left of the delegate after some changes. -/
def visitAll (d : AllNew Id) (changes : List (Change Id)) : AllNew Id :=
  changes.foldl (fun d c => (allNew.visit c d).2) d

theorem visitAll_concat (d : AllNew Id) (changes : List (Change Id)) (c : Change Id) :
    visitAll d (changes++[c])=(allNew.visit c (visitAll d changes)).2 := by
  simp [visitAll]

theorem allNew_proceeds (c : Change Id) (d : AllNew Id) : (allNew.visit c d).1 = .proceed := by
  cases c <;> rfl

/-- A recorder without locations sees what `AllNew` sees. -/
theorem allNew_simulates (d : AllNew Id) : Simulates allNew recorder
    (fun d' r => r.location=none ∧ d'=visitAll d (r.records.map Record.change)) where
  popFront e e' r h he := by
    refine ⟨r,by simp [recorder,h.1],h.1,?_⟩
    rw [← some.inj he]
    exact h.2
  pushBack c e r h := by simpa [recorder,allNew,h.1] using h.2
  push c e r h := by simpa [recorder,allNew,h.1] using h.2
  pop e r h := by simpa [recorder,allNew,h.1] using h.2
  visit c e r h := by
    refine ⟨allNew_proceeds c e,h.1,?_⟩
    simp only [recorder,map_append,map_cons,map_nil,visitAll_concat,← h.2]

/-- `AllNew` sees what a recorder sees, whatever locations it tracks. -/
theorem recorder_simulates (d : AllNew Id) : Simulates recorder allNew
    (fun r d' => d'=visitAll d (r.records.map Record.change)) where
  popFront r r' e h hr := by
    refine ⟨e,rfl,h.trans ?_⟩
    simp only [recorder] at hr
    split at hr
    · split at hr
      · simp at hr
      · rw [← some.inj hr]
    · rw [← some.inj hr]
  pushBack c r e h := h.trans (by
    simp only [recorder]
    split <;> rfl)
  push c r e h := h.trans (by
    simp only [recorder]
    split <;> rfl)
  pop r e h := h.trans (by
    simp only [recorder]
    split <;> rfl)
  visit c r e h := by
    refine ⟨(allNew_proceeds c e).symm,?_⟩
    simp only [recorder,map_append,map_cons,map_nil,visitAll_concat,← h]

theorem visit_add {c : Change Id} {d : AllNew Id} :
    (allNew.visit c d).2=match newObject c with
      | none => d
      | some id => if id∈d.allSeen then d else ⟨d.objects++[id],id::d.allSeen⟩ := by
  have hadd : ∀ (entryMode : EntryMode) (oid : Id),d.add entryMode oid =
      match if entryMode.isCommit then none else some oid with
      | none => d
      | some id => if id∈d.allSeen then d else ⟨d.objects++[id],id::d.allSeen⟩ := by
    intro entryMode oid
    by_cases hc : entryMode.isCommit=true
    · simp [AllNew.add,hc]
    · by_cases hs : oid∈d.allSeen <;> simp [AllNew.add,hc,hs,SeenSet.insert]
  cases c with
  | addition entryMode oid => exact hadd entryMode oid
  | modification _ _ entryMode oid => exact hadd entryMode oid
  | deletion entryMode oid => rfl

/-- The delegate collects the new objects that were not seen before. -/
theorem visitAll_entered (d : AllNew Id) (changes : List (Change Id)) :
    ∃ new,(visitAll d changes).objects=d.objects++new ∧ Entered new d.allSeen (visitAll d changes).allSeen ∧
      ∀ x,x∈new ↔ x∈changes.filterMap newObject ∧ x∉d.allSeen := by
  induction changes using reverseRecOn with
  | nil => exact ⟨[],by simp [visitAll],Entered.refl _,by simp⟩
  | append_singleton changes c ih =>
    obtain ⟨new,hobjects,hentered,hmem⟩ := ih
    rw [visitAll_concat,visit_add,filterMap_append]
    cases hc : newObject c with
    | none => exact ⟨new,hobjects,hentered,by simpa [hc] using hmem⟩
    | some id =>
      by_cases hs : id∈(visitAll d changes).allSeen
      · refine ⟨new,by simpa [hs] using hobjects,by simpa [hs] using hentered,fun x => ?_⟩
        have hid : id∉d.allSeen → id∈changes.filterMap newObject := by
          intro hd
          exact ((hmem id).mp (((hentered.mem id).mp hs).resolve_left hd)).1
        rw [hmem,mem_append]
        simp only [filterMap_cons,hc,filterMap_nil,mem_singleton]
        constructor
        · exact fun ⟨h,hd⟩ => ⟨.inl h,hd⟩
        · rintro ⟨h | rfl,hd⟩
          · exact ⟨h,hd⟩
          · exact ⟨hid hd,hd⟩
      · refine ⟨new++[id],by simp [hs,hobjects],by simpa [hs] using hentered.trans (.singleton hs),fun x => ?_⟩
        have hid : id∉d.allSeen := fun hd => hs (hentered.subset hd)
        simp only [mem_append,hmem,filterMap_cons,hc,filterMap_nil,mem_singleton]
        constructor
        · rintro (⟨h,hd⟩ | rfl)
          · exact ⟨.inl h,hd⟩
          · exact ⟨.inr rfl,hid⟩
        · rintro ⟨h | rfl,hd⟩
          · exact .inl ⟨h,hd⟩
          · exact .inr rfl

variable {s s' : State Id Loc} {fuel : ℕ} {parentTree currentTree : TreeRefIter Id}
  {commitId : Id} {parents : List Id}

/-- What a comparison leaves in the delegate is new and was not seen before. -/
theorem compareTrees_spec (hrun : compareTrees db fuel parentTree currentTree s=some (.ok (),s')) :
    s'.out=s.out ∧ Entered s'.changes s.seen s'.seen ∧
      ∀ x,x∈s'.changes ↔ x∈newObjects db fuel parentTree currentTree ∧ x∉s.seen := by
  obtain ⟨⟨_,d⟩,hdiff,hs⟩ := map_eq_some_iff.mp hrun
  obtain ⟨-,rfl⟩ := Prod.mk.inj hs
  obtain ⟨r',hrec,-,hd⟩ := neededToObtain_follows (allNew_simulates ⟨[],s.seen⟩) (countingObjects db)
    (e := untracked) ⟨rfl,rfl⟩ hdiff
  obtain ⟨new,hobjects,hentered,hmem⟩ := visitAll_entered ⟨[],s.seen⟩ (r'.records.map Record.change)
  rw [← hd] at hobjects hentered
  have hnew : d.objects=new := hobjects
  have hreport : newObjects db fuel parentTree currentTree =
      (r'.records.map Record.change).filterMap newObject := by
    simp [newObjects,hrec]
  refine ⟨rfl,?_,?_⟩
  · simpa [hnew] using hentered
  · simpa only [hnew,hreport] using hmem

theorem enterParent_spec (hrun : enterParent db commitId s=some (.ok parentTree,s')) :
    (∃ added,Adds added [] s s') ∧
      ∃ parent location,db.tryFind commitId = .ok (some (parent,location)) ∧ HasTree db parent parentTree := by
  obtain ⟨⟨parent,location⟩,hparent,hrun⟩ := of_find hrun
  obtain ⟨_,_,h1,hrun⟩ := of_bind_ok hrun
  obtain ⟨added,hadds⟩ := pushObjCountUnique_adds h1
  obtain ⟨id,hid,hrun⟩ := of_expect hrun
  obtain ⟨⟨tree,location'⟩,htree,hrun⟩ := of_find hrun
  obtain ⟨_,_,h2,hrun⟩ := of_bind_ok hrun
  obtain ⟨_,hadds'⟩ := pushObjCountUnique_adds h2
  cases hrun
  exact ⟨⟨_,hadds.trans_nil hadds'⟩,parent,location,hparent,id,tree,location',hid,htree,rfl⟩

/-- The loop over the parents compares `parentTree` in state `t`, and there is a parent after it. -/
def ComparesEarlyParent (db : Db Id Loc) (fuel : ℕ) (currentTree : TreeRefIter Id) (parents : List Id)
    (s : State Id Loc) (parentTree : TreeRefIter Id) (t : State Id Loc) : Prop :=
  ∃ before commitId commitId' after s', parents = before++commitId :: commitId' :: after ∧
    expandParents db fuel currentTree before s = some (.ok (),s') ∧
    enterParent db commitId s' = some (.ok parentTree,t)

theorem comparesEarlyParent_cons {commitId' : Id} {s1 s2 t : State Id Loc}
    {tree tree' : TreeRefIter Id} (h1 : enterParent db commitId s=some (.ok tree,s1))
    (h2 : compareTrees db fuel tree currentTree s1=some (.ok (),s2)) :
    ComparesEarlyParent db fuel currentTree (commitId::commitId'::parents) s tree' t ↔
      tree'=tree ∧ t=s1 ∨ ComparesEarlyParent db fuel currentTree (commitId'::parents) s2 tree' t := by
  have hstep : ∀ ids,expandParents db fuel currentTree (commitId::ids) s =
      expandParents db fuel currentTree ids s2 := fun ids => (bind_ok h1).trans (bind_ok h2)
  constructor
  · rintro ⟨before,id,id',after,s',heq,hbefore,henter⟩
    cases before with
    | nil =>
      obtain ⟨rfl,-⟩ := cons.inj heq
      cases hbefore
      obtain ⟨htree,rfl⟩ := Prod.mk.inj (some.inj (henter.symm.trans h1))
      exact .inl ⟨Except.ok.inj htree,rfl⟩
    | cons b before =>
      obtain ⟨rfl,htail⟩ := cons.inj heq
      rw [hstep] at hbefore
      exact .inr ⟨before,id,id',after,s',htail,hbefore,henter⟩
  · rintro (⟨rfl,rfl⟩ | ⟨before,id,id',after,s',heq,hbefore,henter⟩)
    · exact ⟨[],commitId,commitId',parents,s,rfl,rfl,h1⟩
    · exact ⟨commitId::before,id,id',after,s',by rw [heq,cons_append],by rw [hstep,hbefore],henter⟩

/-- Nothing is lost among the parents if and only if each early comparison finds seen objects only. -/
theorem expandParents_spec (hne : parents≠[])
    (hrun : expandParents db fuel currentTree parents s=some (.ok (),s')) :
    ∃ added lost,s'.out.map Count.id=s.out.map Count.id++added ∧
      Entered (added++lost++s'.changes) s.seen s'.seen ∧
      (lost=[] ↔ ∀ tree t,ComparesEarlyParent db fuel currentTree parents s tree t →
        ∀ x∈newObjects db fuel tree currentTree,x∈t.seen) := by
  induction parents generalizing s with
  | nil => exact absurd rfl hne
  | cons commitId parents ih =>
    obtain ⟨tree,s1,h1,hrun⟩ := of_bind_ok hrun
    obtain ⟨⟨added,hadds⟩,-⟩ := enterParent_spec h1
    obtain ⟨_,s2,h2,hrun⟩ := of_bind_ok hrun
    obtain ⟨hout,hentered,hmem⟩ := compareTrees_spec h2
    cases parents with
    | nil =>
      cases hrun
      refine ⟨added,[],by rw [hout,hadds.counted],hadds.entered.trans hentered,?_⟩
      refine iff_of_true rfl ?_
      rintro tree t ⟨before,id,id',after,s',heq,-,-⟩
      have hlength := congrArg length heq
      simp at hlength
      omega
    | cons commitId' parents =>
      obtain ⟨added',lost,hcounted,hentered',hlost⟩ := ih (by simp) hrun
      refine ⟨added++added',s2.changes++lost,?_,?_,?_⟩
      · rw [hcounted,hout,hadds.counted,append_assoc]
      · refine ((hadds.entered.trans hentered).trans hentered').perm ?_
        simp only [append_nil,append_assoc]
        refine List.Perm.append_left added ?_
        rw [← append_assoc,← append_assoc added']
        exact perm_append_comm.append_right _
      · rw [append_eq_nil_iff,hlost]
        have hfirst : s2.changes=[] ↔ ∀ x∈newObjects db fuel tree currentTree,x∈s1.seen := by
          rw [eq_nil_iff_forall_not_mem]
          simp only [hmem,not_and,not_not]
        rw [hfirst]
        simp only [comparesEarlyParent_cons h1 h2]
        constructor
        · rintro ⟨hx,hy⟩ tree' t (⟨rfl,rfl⟩ | h)
          · exact hx
          · exact hy tree' t h
        · intro h
          exact ⟨h tree s1 (.inl ⟨rfl,rfl⟩),fun tree' t ht => h tree' t (.inr ht)⟩

end Gix.PackCount
