import Gix.ObjectCountingRuns
import Gix.TreeDiffResult

/-! # Which objects are counted

The counts of a run have no duplicates, and they are all that was seen if and only if each
comparison with an early parent finds objects only that were seen before. Then everything
that a commit adds or changes compared to any of its parents is counted. -/
namespace Gix.PackCount
open Gix.Tree Fallible SeenSet TreeDiff List

variable {Id Loc : Type} {db : Db Id Loc} {s s' : State Id Loc} {fuel : ℕ} {allow : Bool}

/-- An object is a commit, or a tag that leads to it. -/
inductive Peels (db : Db Id Loc) : Id → Data Id → Prop
  | commit {id data location} : db.tryFind id = .ok (some (data,location)) → data.kind = .commit → Peels db id data
  | tag {id data location target commit} : db.tryFind id = .ok (some (data,location)) → data.kind = .tag →
    data.tagTarget = .ok target → Peels db target commit → Peels db id commit

variable {commit : Data Id} {tree : TreeRefIter Id}

variable [DecidableEq Id]

variable {parents : List Id}

variable {id : Id}

theorem peelTags_peels {bound : ℕ} {data : Data Id} {location : Option Loc} {r : Option (Data Id)}
    (hpeels : Peels db id commit) (hfind : db.tryFind id = .ok (some (data,location)))
    (hrun : peelTags db bound id data location s=some (.ok r,s')) : r=some commit := by
  induction bound generalizing id data location s with
  | zero => simp [peelTags,stuck] at hrun
  | succ bound ih =>
    obtain ⟨_,_,_,hrun1⟩ := of_bind_ok hrun
    cases hpeels with
    | commit hfind' hkind =>
      cases hfind.symm.trans hfind'
      rw [hkind] at hrun1
      exact (Except.ok.inj (Prod.mk.inj (Option.some.inj hrun1)).1).symm
    | tag hfind' hkind htarget hpeels =>
      cases hfind.symm.trans hfind'
      rw [hkind] at hrun1
      obtain ⟨_,hid,hrun2⟩ := of_expect hrun1
      cases htarget.symm.trans hid
      obtain ⟨⟨_,_⟩,hfound,hrun3⟩ := of_find hrun2
      obtain ⟨_,_,_,hrun4⟩ := of_bind_ok hrun3
      exact ih hpeels hfound hrun4

/-- An object at a path where the parent's tree has another one, or none, is seen by the comparison. -/
theorem compareTrees_seen {l r : List (Entry Id)} {depthL depthR : ℕ}
    (hl : Available (countingObjects db) depthL l) (hr : Available (countingObjects db) depthR r)
    (hrun : compareTrees db fuel (ok l) (ok r) s=some (.ok (),s')) {P : List BString} {m : EntryMode} {oid : Id}
    (hat : resolve (countingObjects db) r P=some (m,oid)) (hm : m.isCommit=false)
    (hnew : ∀ m',resolve (countingObjects db) l P≠some (m',oid)) : oid∈s'.seen := by
  obtain ⟨bound,_,records,hrec,hchanges,-⟩ := recorder_changes (countingObjects db) l r depthL depthR hl hr
  obtain ⟨⟨_,_⟩,hdiff,hs⟩ := Option.map_eq_some_iff.mp hrun
  obtain ⟨-,rfl⟩ := Prod.mk.inj hs
  -- with a larger bound, the recorder comes to an end as well
  have hlong := neededToObtain_fuel hdiff (bound+1)
  obtain ⟨_,hd',hall⟩ := neededToObtain_follows (recorder_simulates ⟨[],s.seen⟩) (countingObjects db)
    rfl (hrec (fuel+(bound+1)) (by omega))
  cases hlong.symm.trans hd'
  obtain ⟨_,-,hentered,hmem⟩ := visitAll_entered ⟨[],s.seen⟩ (records.map Record.change)
  have hreported : ∃ c∈reported (resolve (countingObjects db) l P) (resolve (countingObjects db) r P),
      newObject c=some oid := by
    rw [hat]
    cases hx : resolve (countingObjects db) l P with
    | none => exact ⟨.addition m oid,by simp [reported],by simp [newObject,hm]⟩
    | some a =>
      have ha : a.2≠oid := fun h => hnew a.1 (hx.trans (congrArg some (Prod.ext rfl h)))
      by_cases ht : a.1.isTree=m.isTree
      · exact ⟨.modification a.1 a.2 m oid,by simp [reported,ht,ha],by simp [newObject,hm]⟩
      · exact ⟨.addition m oid,by simp [reported,ht],by simp [newObject,hm]⟩
  obtain ⟨c,hc,hcnew⟩ := hreported
  have hc := (hchanges P (resolve_valid hr hat)).mem_iff.mpr hc
  obtain ⟨_,hrecord,rfl⟩ := mem_map.mp hc
  have hfound :=
    mem_filterMap.mpr ⟨_,mem_map_of_mem (mem_of_mem_filter hrecord),hcnew⟩
  rw [hall]
  by_cases hs : oid∈s.seen
  · exact hentered.subset hs
  · exact (hentered.mem oid).mpr (.inr ((hmem oid).mpr ⟨hfound,hs⟩))

/-- The commit behind the input `id` has `oid` at a path where one of its parents has another
object, or none; `oid` is not a submodule, and all trees are well formed and available. -/
inductive Introduces (db : Db Id Loc) (id oid : Id) : Prop
  | mk {commit parent : Data Id} {parents : List Id} {p : Id} {location : Option Loc} {l r : List (Entry Id)}
    {depthL depthR : ℕ} {P : List BString} {m : EntryMode}
    (peels : Peels db id commit) (collected : collectParents commit.commitIter.tail = .ok parents)
    (mem : p ∈ parents) (found : db.tryFind p = .ok (some (parent,location)))
    (parentTree : HasTree db parent (ok l)) (tree : HasTree db commit (ok r))
    (left : Available (countingObjects db) depthL l) (right : Available (countingObjects db) depthR r)
    (entry : resolve (countingObjects db) r P = some (m,oid)) (noSubmodule : m.isCommit = false)
    (new : ∀ m', resolve (countingObjects db) l P ≠ some (m',oid))

theorem expandParents_each {currentTree : TreeRefIter Id} {p : Id} (hp : p∈parents)
    (hrun : expandParents db fuel currentTree parents s=some (.ok (),s')) :
    ∃ tree s1 s2 s3,enterParent db p s1=some (.ok tree,s2) ∧
      compareTrees db fuel tree currentTree s2=some (.ok (),s3) ∧ ∀ x∈s3.seen,x∈s'.seen := by
  induction parents generalizing s with
  | nil => simp at hp
  | cons q parents ih =>
    obtain ⟨tree,s1,h1,hrun1⟩ := of_bind_ok hrun
    obtain ⟨_,s2,h2,hrun2⟩ := of_bind_ok hrun1
    rcases mem_cons.mp hp with rfl | hp
    · refine ⟨tree,s,s1,s2,h1,h2,fun x hx => ?_⟩
      cases parents with
      | nil =>
        cases hrun2
        exact hx
      | cons p parents =>
        obtain ⟨_,_,-,hentered,-⟩ := expandParents_spec (by simp) hrun2
        exact hentered.subset hx
    · exact ih hp hrun2

theorem expandInputs_each {mode : ObjectExpansion} {oids : List (Bool × Except Unit Id)} {flag : Bool}
    (hid : (flag,.ok id)∈oids) (hrun : expandInputs db fuel allow mode oids s=some (.ok (),s')) :
    ∃ s1 s2,expandInput db fuel allow mode id s1=some (.ok (),s2) ∧ ∀ x∈s2.seen,x∈s'.seen := by
  induction oids generalizing s with
  | nil => simp at hid
  | cons item oids ih =>
    obtain ⟨interrupted,item⟩ := item
    cases interrupted with
    | true => simp [expandInputs,Fallible.throw] at hrun
    | false =>
      cases item with
      | error e => simp [expandInputs,Fallible.throw] at hrun
      | ok id' =>
        obtain ⟨_,s1,h1,hrun1⟩ := of_bind_ok hrun
        rcases mem_cons.mp hid with heq | hid
        · obtain rfl := Except.ok.inj (Prod.mk.inj heq).2
          obtain ⟨_,_,hadds,-⟩ := expandInputs_spec hrun1
          exact ⟨s,s1,h1,fun x hx => hadds.entered.subset hx⟩
        · exact ih hid hrun1

/-- What a commit introduces is seen when it is compared with its parents. -/
theorem Introduces.seen {oid : Id} (h : Introduces db id oid)
    (hrun : expandInput db fuel allow .treeAdditionsComparedToAncestor id s=some (.ok (),s')) : oid∈s'.seen := by
  obtain @⟨_,_,parents,_,_,_,_,_,_,_,_,hpeels,hparents,hp,hfound,hl,hr,hleft,hright,
    hentry,hm,hnew⟩ := h
  obtain ⟨⟨_,_⟩,hfind,hrun1⟩ := of_find hrun
  obtain ⟨_,_,_,hrun2⟩ := of_bind_ok hrun1
  obtain ⟨_,_,h3,hrun3⟩ := of_bind_ok hrun2
  obtain rfl := peelTags_peels hpeels hfind h3
  obtain ⟨⟨_,parents'⟩,_,h4,hrun4⟩ := of_bind_ok hrun3
  obtain ⟨-,htree,hcollect⟩ := enterCommit_spec h4
  obtain rfl := htree.unique hr
  obtain rfl := Except.ok.inj (hcollect.symm.trans hparents)
  cases parents' with
  | nil => simp at hp
  | cons q parents =>
    obtain ⟨_,_,h5,hrun5⟩ := of_bind_ok hrun4
    cases hrun5
    obtain ⟨_,_,_,_,henter,hcompare,hsub⟩ := expandParents_each hp h5
    obtain ⟨-,_,_,hfound',htree'⟩ := enterParent_spec henter
    cases hfound.symm.trans hfound'
    obtain rfl := htree'.unique hl
    exact hsub oid (compareTrees_seen hleft hright hcompare hentry hm hnew)

/-- The counts name each object of the seen-set once, and no other object. -/
structure Exact (out : List (Count Id Loc)) (seen : List Id) : Prop where
  nodup : (out.map Count.id).Nodup
  complete : ∀ x, x ∈ out.map Count.id ↔ x ∈ seen

/-- Whenever the run compares a commit with a parent that another one follows, what is new in
the commit was seen before. -/
def EarlyComparisonsSeen (db : Db Id Loc) (fuel : ℕ) (mode : ObjectExpansion) (oids : List (Bool × Except Unit Id)) :
    Prop :=
  ∀ parentTree currentTree t, Compares db fuel false mode oids .initial parentTree currentTree t →
    ∀ x ∈ newObjects db fuel parentTree currentTree, x ∈ t.seen

/-- The counts are exact if and only if nothing new is found compared to an early parent, and
exact counts have all that the commits introduce. -/
theorem counts_exact_iff (mode : ObjectExpansion) (oids : List (Bool × Except Unit Id))
    {out : List (Count Id Loc)} {outcome : Outcome}
    (hrun : objectsUnthreaded db fuel mode oids = some (.ok (out,outcome),s)) :
    (Exact out s.seen ↔ EarlyComparisonsSeen db fuel mode oids) ∧
      (Exact out s.seen → mode = .treeAdditionsComparedToAncestor →
        ∀ flag id oid, (flag,.ok id) ∈ oids → Introduces db id oid → oid ∈ out.map Count.id) := by
  obtain ⟨_,s1,h1,hrun1⟩ := of_bind_ok hrun
  obtain ⟨hout,rfl⟩ := Prod.mk.inj (Option.some.inj hrun1)
  cases hout
  obtain ⟨added,_,hadds,hlost⟩ := expandInputs_spec h1
  have hids : s1.out.map Count.id=added := hadds.counted
  have hentered := hadds.entered
  refine ⟨?_,?_⟩
  · rw [EarlyComparisonsSeen,← hlost,← hentered.kept_iff,← hids]
    constructor
    · exact fun h => h.complete
    · refine fun h => ⟨?_,h⟩
      rw [hids]
      exact (nodup_append.mp hentered.nodup).1
  · rintro hexact rfl flag id oid hid hintro
    obtain ⟨_,_,hinput,hsub⟩ := expandInputs_each hid h1
    exact (hexact.complete oid).mpr (hsub oid (hintro.seen hinput))

/-- A file `a`, that is object 1, in tree 20; tree 21 is empty. Commits 11 and 12 have trees 21 and
20; commits 10 and 13 have tree 22, equal to 20, and both of them as parents, in either order. -/
def mergeDb : Db ℕ Unit where
  tryFind id :=
    let tree (es : List (Entry ℕ)) : Data ℕ := ⟨.tree,ok es,[],.error ()⟩
    let commit (tree : ℕ) (parents : List ℕ) : Data ℕ :=
      ⟨.commit,[],.ok (.tree tree) :: parents.map (fun p => .ok (.parent p))++[.ok .author],.error ()⟩
    let file : Entry ℕ := ⟨EntryKind.blob.mode,[97],1⟩
    match id with
    | 10 => .ok (some (commit 22 [11,12],none))
    | 11 => .ok (some (commit 21 [],none))
    | 12 => .ok (some (commit 20 [],none))
    | 13 => .ok (some (commit 22 [12,11],none))
    | 20 => .ok (some (tree [file],none))
    | 21 => .ok (some (tree [],none))
    | 22 => .ok (some (tree [file],none))
    | _ => .ok none
  locationByOid _ := none

theorem counts_exact_merge : ∃ out outcome s,
    objectsUnthreaded mergeDb 9 .treeAdditionsComparedToAncestor [(false,.ok 13)] = some (.ok (out,outcome),s) ∧
    out.map Count.id = [13,22,12,20,11,21,1] ∧
    (Exact out s.seen ↔ EarlyComparisonsSeen mergeDb 9 .treeAdditionsComparedToAncestor [(false,.ok 13)]) :=
  ⟨_,_,_,rfl,rfl,(counts_exact_iff .treeAdditionsComparedToAncestor [(false,.ok 13)] rfl).1⟩

/-- Object 1 is new compared to the first parent only, and not counted. -/
theorem counts_lose_file : ∃ out outcome s,
    objectsUnthreaded mergeDb 9 .treeAdditionsComparedToAncestor [(false,.ok 10)] = some (.ok (out,outcome),s) ∧
    out.map Count.id = [10,22,11,21,12,20] ∧ 1 ∈ s.seen ∧ 1 ∉ out.map Count.id :=
  ⟨_,_,_,rfl,rfl,by decide,by decide⟩

end Gix.PackCount
