import Gix.ObjectCounting
import Gix.TreeDiffSimulation

/-! # What each part of the counting does to the seen-set

Everything that enters the seen-set is counted, apart from what a comparison with a parent
finds when another parent follows: `Adds` keeps both apart. -/
namespace Gix.PackCount
open Gix.Tree Fallible SeenSet List TreeTraverse Option

variable {Id Loc : Type} [DecidableEq Id] {db : Db Id Loc}

section Traversal
open TreeTraverse (visitEntry visitEntries traverseLoop)

abbrev Traversal (Id Loc : Type) := TreeTraverse.State Id (AllUnseen Id) (ExpandedCountingObjects Id Loc)

/-- What entered the seen-set is counted already, waits among the non-trees, or is queued. -/
structure Traversed (seen : List Id) (out : List (Count Id Loc)) (found : List Id) (t : Traversal Id Loc) :
    Prop where
  counted : t.objects.out.map Count.id = out.map Count.id++found
  entered : Entered (found++t.delegate.nonTrees++t.next) seen t.delegate.allSeen

variable {seen found : List Id} {out : List (Count Id Loc)} {t t' : Traversal Id Loc}

/-- What becomes of a traversal that visits an entry. -/
def seeEntry (entry : Entry Id) (t : Traversal Id Loc) : Traversal Id Loc :=
  if entry.oid ∈ t.delegate.allSeen then t
  else if entry.mode.isTree then {t with
    next := t.next++[entry.oid]
    delegate := {t.delegate with allSeen := entry.oid :: t.delegate.allSeen}}
  else if entry.mode.isCommit then t
  else {t with delegate := ⟨t.delegate.nonTrees++[entry.oid],entry.oid :: t.delegate.allSeen⟩}

theorem visitEntry_eq (entry : Entry Id) (t : Traversal Id Loc) :
    visitEntry allUnseen entry t=some (.ok (),seeEntry entry t) := by
  by_cases hs : entry.oid∈t.delegate.allSeen
  · by_cases ht : entry.mode.isTree=true
    · simp [visitEntry,seeEntry,hs,ht,onDelegate,act,allUnseen,Bind.bind,insert_mem hs]
    · by_cases hc : entry.mode.isCommit=true <;>
        simp [visitEntry,seeEntry,hs,ht,onDelegate,act,allUnseen,Bind.bind,insert_mem hs]
  · by_cases ht : entry.mode.isTree=true
    · simp [visitEntry,seeEntry,hs,ht,onDelegate,act,allUnseen,Bind.bind,insert_not_mem hs]
    · by_cases hc : entry.mode.isCommit=true <;>
        simp [visitEntry,seeEntry,hs,ht,hc,onDelegate,act,allUnseen,Bind.bind,insert_not_mem hs]

theorem Traversed.seeEntry (entry : Entry Id) (h : Traversed seen out found t) :
    Traversed seen out found (seeEntry entry t) := by
  unfold PackCount.seeEntry
  split_ifs with hs ht hc
  · exact h
  · refine ⟨h.counted,?_⟩
    rw [← append_assoc]
    exact h.entered.trans (.singleton hs)
  · exact h
  · refine ⟨h.counted,(h.entered.trans (.singleton hs)).perm ?_⟩
    simp only [append_assoc]
    exact (List.Perm.append_left _ perm_append_comm).append_left found

variable (h : Traversed seen out found t) {tree : TreeRefIter Id}
include h

theorem Traversed.visitEntries
    (hrun : visitEntries allUnseen tree t=some (.ok (),t')) : Traversed seen out found t' := by
  induction tree generalizing t with
  | nil =>
    cases hrun
    exact h
  | cons x tree ih =>
    cases x with
    | error e => simp [visitEntries,Fallible.throw] at hrun
    | ok entry =>
      rw [visitEntries,bind_ok (visitEntry_eq entry t)] at hrun
      exact ih (h.seeEntry entry) hrun

omit [DecidableEq Id] in
theorem Traversed.findTreeIter {oid : Id} {next : List Id}
    (hnext : t.next=oid::next)
    (hrun : TreeTraverse.findTreeIter (expandedCountingObjects db) oid {t with next := next} =
      some (.ok tree,t')) : Traversed seen out (found++[oid]) t' := by
  simp only [TreeTraverse.findTreeIter,expandedCountingObjects] at hrun
  cases hfind : db.tryFind oid with
  | error e => simp [hfind] at hrun
  | ok r =>
    cases r with
    | none => simp [hfind] at hrun
    | some r =>
      simp only [hfind,some.injEq,Prod.mk.injEq] at hrun
      obtain ⟨-,rfl⟩ := hrun
      refine ⟨by simp [h.counted,Count.fromData],?_⟩
      have hentered := h.entered
      rw [hnext] at hentered
      refine hentered.perm ?_
      simp only [append_assoc]
      exact perm_middle.append_left found

theorem Traversed.loop {fuel : ℕ}
    (hrun : traverseLoop allUnseen (expandedCountingObjects db) fuel tree t=some (.ok (),t')) :
    ∃ found,Traversed seen out found t' ∧ t'.next=[] := by
  induction fuel generalizing t found tree with
  | zero => simp [TreeTraverse.traverseLoop,stuck] at hrun
  | succ fuel ih =>
    obtain ⟨_,t1,h1,hrun⟩ := of_bind_ok hrun
    have h1 := h.visitEntries h1
    obtain ⟨_,_,h2,hrun⟩ := of_bind_ok hrun
    cases hnext : t1.next with
    | nil =>
      simp only [popNext,hnext,some.injEq,Prod.mk.injEq,Except.ok.injEq] at h2
      obtain ⟨rfl,rfl⟩ := h2
      cases hrun
      exact ⟨found,h1,hnext⟩
    | cons oid next =>
      simp only [popNext,hnext,some.injEq,Prod.mk.injEq,Except.ok.injEq] at h2
      obtain ⟨rfl,rfl⟩ := h2
      obtain ⟨_,_,h3,hrun⟩ := of_bind_ok hrun
      cases h3
      obtain ⟨_,_,h4,hrun⟩ := of_bind_ok hrun
      exact ih (h1.findTreeIter hnext h4) hrun

end Traversal

/-- `tree` is what the tree of a commit reads as. -/
def HasTree (db : Db Id Loc) (commit : Data Id) (tree : TreeRefIter Id) : Prop :=
  ∃ id data location, treeId commit.commitIter = .ok id ∧ db.tryFind id = .ok (some (data,location)) ∧
    data.treeIter = tree

omit [DecidableEq Id] in
theorem HasTree.unique {commit : Data Id} {tree tree' : TreeRefIter Id} (h : HasTree db commit tree) (h' : HasTree db commit tree') :
    tree=tree' := by
  obtain ⟨_,_,_,hid,hfind,rfl⟩ := h
  obtain ⟨_,_,_,hid',hfind',rfl⟩ := h'
  cases hid.symm.trans hid'
  cases hfind.symm.trans hfind'
  rfl

/-- `added` is counted between two states, `lost` only enters the seen-set. -/
structure Adds (added lost : List Id) (s s' : State Id Loc) : Prop where
  counted : s'.out.map Count.id = s.out.map Count.id++added
  entered : Entered (added++lost) s.seen s'.seen

section Steps
variable {s s' s'' : State Id Loc} {added lost added' lost' : List Id}

section
omit [DecidableEq Id]

theorem Adds.of_eq (hout : s'.out=s.out) (hseen : s'.seen=s.seen) : Adds [] [] s s' :=
  ⟨by simp [hout],by simpa [hseen] using Entered.refl s.seen⟩

theorem Adds.trans (h : Adds added lost s s') (h' : Adds added' lost' s' s'') :
    Adds (added++added') (lost++lost') s s'' := by
  refine ⟨by rw [h'.counted,h.counted,append_assoc],(h.entered.trans h'.entered).perm ?_⟩
  simp only [append_assoc]
  refine List.Perm.append_left added ?_
  rw [← append_assoc,← append_assoc added']
  exact perm_append_comm.append_right lost'

theorem Adds.trans_nil (h : Adds added [] s s') (h' : Adds added' [] s' s'') : Adds (added++added') [] s s'' :=
  h.trans h'

theorem addExpanded_adds {n : ℕ} (hrun : addExpanded n s=some (.ok (),s')) : Adds [] [] s s' := by
  cases hrun
  exact .of_eq rfl rfl

variable {α : Type} {a : α}

theorem of_find {id : Id} {f : Data Id × Option Loc → Expand Id Loc α} (hrun : (find db id >>= f) s=some (.ok a,s')) :
    ∃ r,db.tryFind id = .ok (some r) ∧ f r s=some (.ok a,s') := by
  cases hfind : db.tryFind id with
  | error e => simp [find,hfind,Fallible.throw,Bind.bind] at hrun
  | ok found =>
    cases found with
    | none => simp [find,hfind,Fallible.throw,Bind.bind] at hrun
    | some r => exact ⟨r,rfl,by simpa [find,hfind,Bind.bind] using hrun⟩

theorem of_expect {id : Except Unit Id} {f : Id → Expand Id Loc α} (hrun : (expect id >>= f) s=some (.ok a,s')) :
    ∃ b,id = .ok b ∧ f b s=some (.ok a,s') := by
  cases id with
  | error e => simp [expect,stuck,Bind.bind] at hrun
  | ok b => exact ⟨b,rfl,hrun⟩

end

theorem pushObjCountUnique_adds {id : Id} {location : Option Loc} {countExpanded : Bool}
    (hrun : pushObjCountUnique id location countExpanded s=some (.ok (),s')) :
    ∃ added,Adds added [] s s' := by
  cases hrun
  by_cases hs : id∈s.seen
  · simp only [insert_mem hs]
    exact ⟨[],.of_eq rfl rfl⟩
  · simp only [insert_not_mem hs]
    exact ⟨[id],by simp [Count.fromData],.singleton hs⟩

/-- A traversal and the non-trees it leaves behind. -/
theorem traverseTree_adds {fuel : ℕ} {root : TreeRefIter Id} {allow : Bool}
    (htrav : traverseTree db fuel root s=some (.ok (),s'))
    (hpush : pushIds db allow s'.nonTrees s'=some (.ok (),s'')) : ∃ added,Adds added [] s s'' := by
  obtain ⟨⟨_,_,_⟩,hrun,hs⟩ := map_eq_some_iff.mp htrav
  obtain ⟨hr,rfl⟩ := Prod.mk.inj hs
  cases hpush
  obtain ⟨⟨r',t⟩,hloop,ht⟩ := map_eq_some_iff.mp hrun
  obtain ⟨rfl,hdf⟩ := Prod.mk.inj ht
  cases hdf
  cases r' with
  | error e => cases hr
  | ok u =>
    have hstart : Traversed s.seen s.out [] (⟨[],⟨[],s.seen⟩,⟨0,s.out⟩⟩ : Traversal Id Loc) :=
      ⟨by simp,Entered.refl s.seen⟩
    obtain ⟨found,htraversed,hnext⟩ := hstart.loop hloop
    refine ⟨found++t.delegate.nonTrees,?_,?_⟩
    · simp [htraversed.counted,Function.comp_def]
    · simpa [hnext] using htraversed.entered

end Steps
end Gix.PackCount
