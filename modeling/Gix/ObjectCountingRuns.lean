import Gix.ObjectCountingCompare

/-! # What a whole run does to the seen-set

Each input adds objects and loses some; it loses nothing if and only if each comparison with
an early parent finds objects only that were seen before. -/
namespace Gix.PackCount
open Gix.Tree Fallible SeenSet TreeDiff List

variable {Id Loc : Type} [DecidableEq Id] {db : Db Id Loc} {s s' : State Id Loc} {fuel : ℕ} {allow : Bool}
  {id : Id} {bound : ℕ} {data : Data Id} {location : Option Loc} {mode : ObjectExpansion} {oids : List (Bool × Except Unit Id)}

theorem enterCommit_spec {commit : Data Id} {tree : TreeRefIter Id} {parents : List Id}
    (hrun : enterCommit db commit s=some (.ok (tree,parents),s')) :
    (∃ added,Adds added [] s s') ∧ HasTree db commit tree ∧ collectParents commit.commitIter.tail = .ok parents := by
  obtain ⟨id,hid,hrun⟩ := of_expect hrun
  obtain ⟨_,_,h1,hrun⟩ := of_bind_ok hrun
  obtain ⟨hparents,rfl⟩ := Prod.mk.inj (Option.some.inj h1)
  obtain ⟨⟨data,location⟩,hdata,hrun⟩ := of_find hrun
  obtain ⟨_,_,h2,hrun⟩ := of_bind_ok hrun
  cases hrun
  exact ⟨pushObjCountUnique_adds h2,⟨id,data,location,hid,hdata,rfl⟩,hparents⟩

theorem peelTags_adds {r : Option (Data Id)}
    (hrun : peelTags db bound id data location s=some (.ok r,s')) : ∃ added,Adds added [] s s' := by
  induction bound generalizing id data location s with
  | zero => simp [peelTags,stuck] at hrun
  | succ bound ih =>
    obtain ⟨_,_,h1,hrun1⟩ := of_bind_ok hrun
    obtain ⟨added,hadds⟩ := pushObjCountUnique_adds h1
    cases hk : data.kind <;> rw [hk] at hrun1
    case tag =>
      obtain ⟨_,-,hrun2⟩ := of_expect hrun1
      obtain ⟨⟨_,_⟩,-,hrun3⟩ := of_find hrun2
      obtain ⟨_,_,h4,hrun4⟩ := of_bind_ok hrun3
      obtain ⟨_,hadds'⟩ := ih hrun4
      exact ⟨_,hadds.trans_nil ((addExpanded_adds h4).trans_nil hadds')⟩
    all_goals
      cases hrun1
      exact ⟨added,hadds⟩

theorem treeContents_adds
    (hrun : treeContents db fuel allow bound id data location s=some (.ok (),s')) :
    ∃ added,Adds added [] s s' := by
  induction bound generalizing id data location s with
  | zero => simp [treeContents,stuck] at hrun
  | succ bound ih =>
    obtain ⟨_,s1,h1,hrun1⟩ := of_bind_ok hrun
    obtain ⟨added,hadds⟩ := pushObjCountUnique_adds h1
    -- a commit or a tag leads to another object
    have hnext : ∀ {target : Except Unit Id},(do
        let id ← expect target
        addExpanded 1
        let found ← find db id
        treeContents db fuel allow bound id found.1 found.2 : Expand Id Loc Unit) s1=some (.ok (),s') →
        ∃ added,Adds added [] s s' := by
      intro target hrun
      obtain ⟨_,-,hrun2⟩ := of_expect hrun
      obtain ⟨_,_,h3,hrun3⟩ := of_bind_ok hrun2
      obtain ⟨⟨_,_⟩,-,hrun4⟩ := of_find hrun3
      obtain ⟨added',hadds'⟩ := ih hrun4
      exact ⟨_,hadds.trans_nil ((addExpanded_adds h3).trans_nil hadds')⟩
    cases hk : data.kind <;> rw [hk] at hrun1
    case tree =>
      obtain ⟨_,_,h2,hrun2⟩ := of_bind_ok hrun1
      obtain ⟨added',hadds'⟩ := traverseTree_adds h2 hrun2
      exact ⟨_,hadds.trans_nil hadds'⟩
    case blob =>
      cases hrun1
      exact ⟨added,hadds⟩
    case commit => exact hnext hrun1
    case tag => exact hnext hrun1

/-- The input `id` leads to a comparison of `parentTree` with `currentTree` in state `t`, and
the commit has a parent after that one. -/
def InputCompares (db : Db Id Loc) (fuel : ℕ) (mode : ObjectExpansion) (id : Id) (s : State Id Loc)
    (parentTree currentTree : TreeRefIter Id) (t : State Id Loc) : Prop :=
  mode = .treeAdditionsComparedToAncestor ∧ ∃ data location commit s1 parents s2,
    db.tryFind id = .ok (some (data,location)) ∧
    peelTags db fuel id data location {s with inputObjects := s.inputObjects+1} = some (.ok (some commit),s1) ∧
    enterCommit db commit s1 = some (.ok (currentTree,parents),s2) ∧
    ComparesEarlyParent db fuel currentTree parents s2 parentTree t

/-- An input loses nothing if and only if its early comparisons find seen objects only. -/
theorem expandInput_spec
    (hrun : expandInput db fuel allow mode id s=some (.ok (),s')) :
    ∃ added lost,Adds added lost s s' ∧ (lost=[] ↔ ∀ tree currentTree t,
      InputCompares db fuel mode id s tree currentTree t →
        ∀ x∈newObjects db fuel tree currentTree,x∈t.seen) := by
  obtain ⟨⟨data,location⟩,hfind,hrun1⟩ := of_find hrun
  obtain ⟨_,_,h2,hrun2⟩ := of_bind_ok hrun1
  cases h2
  have hstart : Adds [] [] s {s with inputObjects := s.inputObjects+1} := .of_eq rfl rfl
  cases mode with
  | asIs =>
    obtain ⟨added,hadds⟩ := pushObjCountUnique_adds hrun2
    exact ⟨_,[],hstart.trans_nil hadds,iff_of_true rfl fun _ _ _ h => nomatch h.1⟩
  | treeContents =>
    obtain ⟨added,hadds⟩ := treeContents_adds hrun2
    exact ⟨_,[],hstart.trans_nil hadds,iff_of_true rfl fun _ _ _ h => nomatch h.1⟩
  | treeAdditionsComparedToAncestor =>
    obtain ⟨peeled,s3,h3,hrun3⟩ := of_bind_ok hrun2
    obtain ⟨added,hadds⟩ := peelTags_adds h3
    have hpeeled := hstart.trans_nil hadds
    cases peeled with
    | none =>
      cases hrun3
      refine ⟨_,[],hpeeled,iff_of_true rfl ?_⟩
      rintro _ _ _ ⟨-,data',location',commit,t1,_,_,hfind',hpeel,-,-⟩
      cases hfind.symm.trans hfind'
      simp [h3] at hpeel
    | some commit =>
      obtain ⟨⟨currentTree,parents⟩,s4,h4,hrun4⟩ := of_bind_ok hrun3
      obtain ⟨⟨_,hadds'⟩,-⟩ := enterCommit_spec h4
      have hentered := hpeeled.trans_nil hadds'
      -- the comparisons of the input are those of the loop over the parents
      have hcompares : ∀ tree current t,InputCompares db fuel .treeAdditionsComparedToAncestor id s tree current t ↔
          current=currentTree ∧ ComparesEarlyParent db fuel currentTree parents s4 tree t := by
        intro tree current t
        constructor
        · rintro ⟨-,data',location',commit',t1,parents',t2,hfind',hpeel,hcommit,hcmp⟩
          cases hfind.symm.trans hfind'
          obtain ⟨hc,rfl⟩ := Prod.mk.inj (Option.some.inj (h3.symm.trans hpeel))
          cases hc
          obtain ⟨hr,rfl⟩ := Prod.mk.inj (Option.some.inj (h4.symm.trans hcommit))
          cases hr
          exact ⟨rfl,hcmp⟩
        · rintro ⟨rfl,hcmp⟩
          exact ⟨rfl,data,location,commit,s3,parents,s4,hfind,h3,h4,hcmp⟩
      cases parents with
      | nil =>
        obtain ⟨_,s5,h5,hrun5⟩ := of_bind_ok hrun4
        obtain ⟨added'',hadds''⟩ := traverseTree_adds h5 hrun5
        refine ⟨_,[],hentered.trans_nil hadds'',iff_of_true rfl fun tree current t h => ?_⟩
        obtain ⟨-,_,_,_,_,_,heq,-⟩ := (hcompares tree current t).mp h
        simp at heq
      | cons p parents =>
        obtain ⟨_,s5,h5,hrun5⟩ := of_bind_ok hrun4
        cases hrun5
        obtain ⟨added'',lost,hcounted,hent,hlost⟩ := expandParents_spec (by simp) h5
        have hlast : Adds (added''++s5.changes) lost s4 {s5 with
            out := s5.out++s5.changes.map (fun id =>
              ⟨id,if allow then .lookedUp (db.locationByOid id) else .notLookedUp⟩)
            expandedObjects := s5.expandedObjects+s5.changes.length} := by
          refine ⟨by simp [hcounted,Function.comp_def],hent.perm ?_⟩
          simp only [append_assoc]
          exact perm_append_comm.append_left added''
        refine ⟨_,_,hentered.trans hlast,?_⟩
        rw [nil_append,hlost]
        constructor
        · intro h tree current t hcmp
          obtain ⟨rfl,hcmp⟩ := (hcompares tree current t).mp hcmp
          exact h tree t hcmp
        · exact fun h tree t hcmp => h tree currentTree t ((hcompares tree currentTree t).mpr ⟨rfl,hcmp⟩)

/-- The run compares `parentTree` with `currentTree` in state `t`, and the commit has a parent
after that one. -/
def Compares (db : Db Id Loc) (fuel : ℕ) (allow : Bool) (mode : ObjectExpansion)
    (oids : List (Bool × Except Unit Id)) (s : State Id Loc) (parentTree currentTree : TreeRefIter Id)
    (t : State Id Loc) : Prop :=
  ∃ before id after s', oids = before++(false,.ok id) :: after ∧
    expandInputs db fuel allow mode before s = some (.ok (),s') ∧
    InputCompares db fuel mode id s' parentTree currentTree t

theorem compares_cons
    {tree currentTree : TreeRefIter Id} {t : State Id Loc}
    (h : expandInput db fuel allow mode id s=some (.ok (),s')) :
    Compares db fuel allow mode ((false,.ok id)::oids) s tree currentTree t ↔
      InputCompares db fuel mode id s tree currentTree t ∨
        Compares db fuel allow mode oids s' tree currentTree t := by
  have hstep : ∀ ids,expandInputs db fuel allow mode ((false,.ok id)::ids) s =
      expandInputs db fuel allow mode ids s' := fun ids => bind_ok h
  constructor
  · rintro ⟨before,id',after,s1,heq,hbefore,hcmp⟩
    cases before with
    | nil =>
      obtain ⟨hid,-⟩ := cons.inj heq
      obtain rfl := Except.ok.inj (Prod.mk.inj hid).2
      cases hbefore
      exact .inl hcmp
    | cons b before =>
      obtain ⟨rfl,htail⟩ := cons.inj heq
      rw [hstep] at hbefore
      exact .inr ⟨before,id',after,s1,htail,hbefore,hcmp⟩
  · rintro (hcmp | ⟨before,id',after,s1,heq,hbefore,hcmp⟩)
    · exact ⟨[],id,oids,s,rfl,rfl,hcmp⟩
    · exact ⟨(false,.ok id)::before,id',after,s1,by rw [heq,cons_append],by rw [hstep,hbefore],hcmp⟩

/-- A run loses nothing if and only if its early comparisons find seen objects only. -/
theorem expandInputs_spec
    (hrun : expandInputs db fuel allow mode oids s=some (.ok (),s')) :
    ∃ added lost,Adds added lost s s' ∧ (lost=[] ↔ ∀ tree currentTree t,
      Compares db fuel allow mode oids s tree currentTree t →
        ∀ x∈newObjects db fuel tree currentTree,x∈t.seen) := by
  induction oids generalizing s with
  | nil =>
    cases hrun
    refine ⟨[],[],.of_eq rfl rfl,iff_of_true rfl ?_⟩
    rintro _ _ _ ⟨before,_,_,_,heq,-⟩
    simp at heq
  | cons x oids ih =>
    obtain ⟨interrupted,item⟩ := x
    cases interrupted with
    | true => simp [expandInputs,Fallible.throw] at hrun
    | false =>
      cases item with
      | error e => simp [expandInputs,Fallible.throw] at hrun
      | ok id =>
        obtain ⟨_,_,h1,hrun1⟩ := of_bind_ok hrun
        obtain ⟨added,lost,hadds,hlost⟩ := expandInput_spec h1
        obtain ⟨_,_,hadds',hlost'⟩ := ih hrun1
        refine ⟨_,_,hadds.trans hadds',?_⟩
        rw [append_eq_nil_iff,hlost,hlost']
        simp only [compares_cons h1]
        constructor
        · rintro ⟨hx,hy⟩ tree currentTree t (h | h)
          · exact hx tree currentTree t h
          · exact hy tree currentTree t h
        · intro h
          exact ⟨fun tree current t ht => h tree current t (.inl ht),fun tree current t ht => h tree current t (.inr ht)⟩

end Gix.PackCount
