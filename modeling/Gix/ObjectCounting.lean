import Gix.CommitLookup
import Gix.SeenSet
import Gix.TreeDiff
import Gix.TreeTraverse

/-! # Counting the objects of a pack

`gix-pack/src/data/output/count/objects/`: input objects are expanded to the objects a pack
needs. A seen-set shared by all parts keeps objects from being counted twice; trees are
either traversed or compared with the trees of the parents. -/
namespace Gix.PackCount
open Gix.Tree Fallible Commit

inductive Kind | tree | blob | commit | tag deriving DecidableEq,Repr

/-- `gix_object::Data`: the kind of an object, and what each of the iterators that can be
made `from_bytes()` reads from its data. -/
structure Data (Id : Type) where
  kind : Kind
  treeIter : TreeRefIter Id
  commitIter : CommitRefIter Id
  tagTarget : Except Unit Id

/-- The trait `gix_pack::Find`, as far as counting uses it. -/
structure Db (Id Loc : Type) where
  tryFind : Id → Except Unit (Option (Data Id × Option Loc))
  locationByOid : Id → Option Loc

inductive PackLocation (Loc : Type)
  | notLookedUp | lookedUp (location : Option Loc)
  deriving DecidableEq,Repr

structure Count (Id Loc : Type) where
  id : Id
  entryPackLocation : PackLocation Loc
  deriving DecidableEq,Repr

inductive ObjectExpansion | asIs | treeContents | treeAdditionsComparedToAncestor
  deriving DecidableEq,Repr

structure Outcome where
  inputObjects : ℕ
  expandedObjects : ℕ
  totalObjects : ℕ
  deriving DecidableEq,Repr

inductive Error
  | commitDecode | findExisting | inputIteration | treeTraverse (e : TreeTraverse.Error)
  | treeChanges (e : TreeDiff.Error) | interrupted
  deriving DecidableEq,Repr

variable {Id Loc : Type} [DecidableEq Id]

def Count.fromData (id : Id) (location : Option Loc) : Count Id Loc := ⟨id,.lookedUp location⟩

/-- `tree::changes::AllNew` with the seen-set it shares. -/
structure AllNew (Id : Type) where
  objects : List Id
  allSeen : List Id

def AllNew.add (entryMode : EntryMode) (oid : Id) (d : AllNew Id) : AllNew Id :=
  if entryMode.isCommit then d
  else
    let r := SeenSet.insert oid d.allSeen
    ⟨if r.1 then d.objects++[oid] else d.objects,r.2⟩

/-- `impl Visit for AllNew` -/
def allNew : TreeDiff.Visit Id (AllNew Id) where
  popFrontTrackedPathAndSetCurrent d := some d
  pushBackTrackedPathComponent _ d := d
  pushPathComponent _ d := d
  popPathComponent d := d
  visit change d := match change with
    | .addition entryMode oid => (.proceed,d.add entryMode oid)
    | .modification _ _ entryMode oid => (.proceed,d.add entryMode oid)
    | .deletion _ _ => (.proceed,d)

/-- `tree::traverse::AllUnseen` with the seen-set it shares. -/
structure AllUnseen (Id : Type) where
  nonTrees : List Id
  allSeen : List Id

/-- `impl Visit for AllUnseen` -/
def allUnseen : TreeTraverse.Visit Id (AllUnseen Id) where
  popFrontTrackedPathAndSetCurrent d := some d
  pushBackTrackedPathComponent _ d := d
  pushPathComponent _ d := d
  popPathComponent d := d
  visitTree entry d :=
    let r := SeenSet.insert entry.oid d.allSeen
    (if r.1 then .proceed else .skip,{d with allSeen := r.2})
  visitNontree entry d :=
    if entry.mode.isCommit then (.proceed,d)
    else
      let r := SeenSet.insert entry.oid d.allSeen
      (.proceed,⟨if r.1 then d.nonTrees++[entry.oid] else d.nonTrees,r.2⟩)

/-- `Data::try_into_tree_iter()` behind `find_tree_iter()` -/
def Data.tryIntoTreeIter (data : Data Id) : Except Unit (TreeRefIter Id) :=
  if data.kind = .tree then .ok data.treeIter else .error ()

/-- `CountingObjects`: how trees are found while comparing. -/
def countingObjects (db : Db Id Loc) : TreeDiff.Find Id := fun id =>
  match db.tryFind id with
  | .ok (some (data,_)) => data.tryIntoTreeIter
  | _ => .error ()

structure ExpandedCountingObjects (Id Loc : Type) where
  expandedObjects : ℕ
  out : List (Count Id Loc)

/-- How trees are found while traversing: each one that exists is counted. -/
def expandedCountingObjects (db : Db Id Loc) : TreeTraverse.Find Id (ExpandedCountingObjects Id Loc) :=
  fun id objects => match db.tryFind id with
    | .ok (some (data,location)) =>
      (data.tryIntoTreeIter,⟨objects.expandedObjects+1,objects.out++[.fromData id location]⟩)
    | _ => (.error (),objects)

/-- The local variables of `expand::this()` that outlive an input, and the seen-set. -/
structure State (Id Loc : Type) where
  out : List (Count Id Loc)
  seen : List Id
  nonTrees : List Id
  changes : List Id
  inputObjects : ℕ
  expandedObjects : ℕ

abbrev Expand (Id Loc α : Type) := Fallible (State Id Loc) Error α

def addExpanded (n : ℕ) : Expand Id Loc Unit :=
  modify (fun s => {s with expandedObjects := s.expandedObjects+n})

/-- `expect()` of an id that was read from an object. -/
def expect (id : Except Unit Id) : Expand Id Loc Id :=
  match id with
  | .ok id => pure id
  | .error _ => stuck

def pushObjCountUnique (id : Id) (location : Option Loc) (countExpanded : Bool) : Expand Id Loc Unit :=
  modify (fun s =>
    let r := SeenSet.insert id s.seen
    if r.1 then {s with
      seen := r.2
      out := s.out++[.fromData id location]
      expandedObjects := if countExpanded then s.expandedObjects+1 else s.expandedObjects}
    else s)

/-- `CommitRefIter::tree_id()` of a fresh iterator. -/
def treeId : CommitRefIter Id → Except Unit Id
  | .ok (.tree id) :: _ => .ok id
  | .ok (.parent id) :: _ => .ok id
  | _ => .error ()

/-- The parents up to the first other token. -/
def collectParents : CommitRefIter Id → Except Error (List Id)
  | .ok (.parent id) :: tokens => match collectParents tokens with
    | .ok ids => .ok (id :: ids)
    | .error e => .error e
  | .error _ :: _ => .error .commitDecode
  | _ => .ok []

variable (db : Db Id Loc)

def pushIds (allowPackLookups : Bool) (ids : List Id) : Expand Id Loc Unit :=
  modify (fun s => {s with
    out := s.out++ids.map (fun id =>
      ⟨id,if allowPackLookups then .lookedUp (db.locationByOid id) else .notLookedUp⟩)
    expandedObjects := s.expandedObjects+ids.length})

def find (id : Id) : Expand Id Loc (Data Id × Option Loc) :=
  match db.tryFind id with
  | .ok (some r) => pure r
  | _ => throw .findExisting

/-- Traverse a tree with a cleared delegate. -/
def traverseTree (fuel : ℕ) (root : TreeRefIter Id) : Expand Id Loc Unit := fun s =>
  (TreeTraverse.traverse allUnseen (expandedCountingObjects db) fuel root ⟨[],s.seen⟩ ⟨0,s.out⟩).map (fun r =>
    (r.1.mapError .treeTraverse,{s with
      out := r.2.2.out
      seen := r.2.1.allSeen
      nonTrees := r.2.1.nonTrees
      expandedObjects := s.expandedObjects+r.2.2.expandedObjects}))

/-- Compare a parent's tree with the commit's tree, with a cleared delegate. -/
def compareTrees (fuel : ℕ) (parentTree currentTree : TreeRefIter Id) : Expand Id Loc Unit := fun s =>
  (TreeDiff.neededToObtain allNew (countingObjects db) fuel parentTree currentTree ⟨[],s.seen⟩).map (fun r =>
    (r.1.mapError .treeChanges,{s with seen := r.2.allSeen, changes := r.2.objects}))

/-- Count a parent and its tree. -/
def enterParent (commitId : Id) : Expand Id Loc (TreeRefIter Id) := do
  let (parent,location) ← find db commitId
  pushObjCountUnique commitId location true
  let parentTreeId ← expect (treeId parent.commitIter)
  let (parentTree,location) ← find db parentTreeId
  pushObjCountUnique parentTreeId location true
  pure parentTree.treeIter

/-- The loop over the parents of a commit. -/
def expandParents (fuel : ℕ) (currentTree : TreeRefIter Id) : List Id → Expand Id Loc Unit
  | [] => pure ()
  | commitId :: parents => do
    let parentTree ← enterParent db commitId
    compareTrees db fuel parentTree currentTree
    expandParents fuel currentTree parents

/-- Count the tree of a commit; the result is that tree with the commit's parents. -/
def enterCommit (commit : Data Id) : Expand Id Loc (TreeRefIter Id × List Id) := do
  let id ← expect (treeId commit.commitIter)
  let parents ← lift (collectParents commit.commitIter.tail)
  let (tree,location) ← find db id
  pushObjCountUnique id location true
  pure (tree.treeIter,parents)

/-- The branch for commits of `TreeAdditionsComparedToAncestor`. -/
def expandCommit (fuel : ℕ) (allowPackLookups : Bool) (commit : Data Id) : Expand Id Loc Unit := do
  let (currentTree,parents) ← enterCommit db commit
  if parents.isEmpty then
    traverseTree db fuel currentTree
    pushIds db allowPackLookups (← get).nonTrees
  else
    expandParents db fuel currentTree parents
    pushIds db allowPackLookups (← get).changes

/-- The loop of `TreeAdditionsComparedToAncestor` up to the commit it expands, if any. -/
def peelTags : ℕ → Id → Data Id → Option Loc → Expand Id Loc (Option (Data Id))
  | 0, _, _, _ => stuck
  | fuel+1, id, data, location => do
    pushObjCountUnique id location false
    match data.kind with
    | .tree => pure none
    | .blob => pure none
    | .tag => do
      let id ← expect data.tagTarget
      let (data,location) ← find db id
      addExpanded 1
      peelTags fuel id data location
    | .commit => pure (some data)

def treeAdditions (fuel : ℕ) (allowPackLookups : Bool) (id : Id) (data : Data Id) (location : Option Loc) :
    Expand Id Loc Unit := do
  match ← peelTags db fuel id data location with
  | none => pure ()
  | some commit => expandCommit db fuel allowPackLookups commit

/-- The loop of `TreeContents`; `bound` is for the loop itself. -/
def treeContents (fuel : ℕ) (allowPackLookups : Bool) : ℕ → Id → Data Id → Option Loc → Expand Id Loc Unit
  | 0, _, _, _ => stuck
  | bound+1, id, data, location => do
    pushObjCountUnique id location false
    match data.kind with
    | .tree => do
      traverseTree db fuel data.treeIter
      pushIds db allowPackLookups (← get).nonTrees
    | .commit => do
      let id ← expect (treeId data.commitIter)
      addExpanded 1
      let (data,location) ← find db id
      treeContents fuel allowPackLookups bound id data location
    | .blob => pure ()
    | .tag => do
      let id ← expect data.tagTarget
      addExpanded 1
      let (data,location) ← find db id
      treeContents fuel allowPackLookups bound id data location

/-- What is done with an input object by the mode of expansion. -/
def expandInput (fuel : ℕ) (allowPackLookups : Bool) (mode : ObjectExpansion) (id : Id) : Expand Id Loc Unit := do
  let (data,location) ← find db id
  modify (fun s => {s with inputObjects := s.inputObjects+1})
  match mode with
  | .treeAdditionsComparedToAncestor => treeAdditions db fuel allowPackLookups id data location
  | .treeContents => treeContents db fuel allowPackLookups fuel id data location
  | .asIs => pushObjCountUnique id location false

/-- The loop over the input ids. Each comes with the value of the interrupt flag that is
loaded before it. -/
def expandInputs (fuel : ℕ) (allowPackLookups : Bool) (mode : ObjectExpansion) :
    List (Bool × Except Unit Id) → Expand Id Loc Unit
  | [] => pure ()
  | (true,_) :: _ => throw .interrupted
  | (false,.error _) :: _ => throw .inputIteration
  | (false,.ok id) :: oids => do
    expandInput db fuel allowPackLookups mode id
    expandInputs fuel allowPackLookups mode oids

def State.initial : State Id Loc := ⟨[],[],[],[],0,0⟩

/-- `objects_unthreaded()`, with the state that `expand::this()` ends in. -/
def objectsUnthreaded (fuel : ℕ) (mode : ObjectExpansion) (oids : List (Bool × Except Unit Id)) :
    Option (Except Error (List (Count Id Loc) × Outcome) × State Id Loc) :=
  (do
    expandInputs db fuel false mode oids
    let s ← get
    pure (s.out,⟨s.inputObjects,s.expandedObjects,s.out.length⟩) : Expand Id Loc _) .initial

end Gix.PackCount
