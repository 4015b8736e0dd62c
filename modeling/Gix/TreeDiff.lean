import Gix.Fallible
import Gix.TreePath

/-! # Differences between trees

`gix-diff/src/tree/`: two sorted streams of entries are walked side by side, subtrees are
queued in pairs and compared level by level. What happens to a change is up to a delegate
that also tracks the path. -/
namespace Gix.TreeDiff
open Gix.Tree Fallible

inductive Change (Id : Type)
  | addition (entryMode : EntryMode) (oid : Id)
  | deletion (entryMode : EntryMode) (oid : Id)
  | modification (previousEntryMode : EntryMode) (previousOid : Id) (entryMode : EntryMode) (oid : Id)
  deriving DecidableEq,Repr

/-- `visit::Action`: continue or cancel. -/
inductive Action | proceed | cancel deriving DecidableEq,Repr

/-- The trait `Visit`; an operation without a result panics. -/
structure Visit (Id D : Type) where
  popFrontTrackedPathAndSetCurrent : D → Option D
  pushBackTrackedPathComponent : BString → D → D
  pushPathComponent : BString → D → D
  popPathComponent : D → D
  visit : Change Id → D → Action × D

inductive Error | find | cancelled | entriesDecode deriving DecidableEq,Repr

/-- `find_tree_iter()` of the object database. -/
abbrev Find (Id : Type) := Id → Except Unit (TreeRefIter Id)

/-- The local variables of `needed_to_obtain()` and the state it borrows. -/
structure State (Id D : Type) where
  lhsEntries : TreeRefIter Id
  rhsEntries : TreeRefIter Id
  trees : List (Option Id × Option Id)
  popPath : Bool
  delegate : D

abbrev Walk (Id D α : Type) := Fallible (State Id D) Error α

variable {Id D : Type}

section Delegate
variable (v : Visit Id D)

def popPathComponent : Walk Id D Unit :=
  modify (fun s => {s with delegate := v.popPathComponent s.delegate})

def pushPathComponent (component : BString) : Walk Id D Unit :=
  modify (fun s => {s with delegate := v.pushPathComponent component s.delegate})

def pushBackTrackedPathComponent (component : BString) : Walk Id D Unit :=
  modify (fun s => {s with delegate := v.pushBackTrackedPathComponent component s.delegate})

def popFrontTrackedPath : Walk Id D Unit := fun s =>
  (v.popFrontTrackedPathAndSetCurrent s.delegate).map (fun d => (.ok (),{s with delegate := d}))

/-- `if delegate.visit(change).cancelled() { return Err(Cancelled) }` -/
def visitOrCancel (change : Change Id) : Walk Id D Unit := fun s =>
  let r := v.visit change s.delegate
  some (if r.1 = .cancel then .error .cancelled else .ok (),{s with delegate := r.2})

def pushBack (pair : Option Id × Option Id) : Walk Id D Unit :=
  modify (fun s => {s with trees := s.trees++[pair]})

/-- Report an entry that is on one side only, and queue it if it is a tree. -/
def visitEntryScheduleRecursion (entry : Entry Id) (change : Change Id) (pair : Option Id × Option Id) :
    Walk Id D Unit := do
  pushPathComponent v entry.filename
  visitOrCancel v change
  if entry.mode.isTree then
    popPathComponent v
    pushBackTrackedPathComponent v entry.filename
    pushBack pair

def deleteEntryScheduleRecursion (entry : Entry Id) : Walk Id D Unit :=
  visitEntryScheduleRecursion v entry (.deletion entry.mode entry.oid) (some entry.oid,none)

def addEntryScheduleRecursion (entry : Entry Id) : Walk Id D Unit :=
  visitEntryScheduleRecursion v entry (.addition entry.mode entry.oid) (none,some entry.oid)

variable [DecidableEq Id]

def handleLhsAndRhsWithEqualFilenames (lhs rhs : Entry Id) : Walk Id D Unit :=
  match lhs.mode.isTree,rhs.mode.isTree with
  | true, true => do
    pushBackTrackedPathComponent v lhs.filename
    if lhs.oid ≠ rhs.oid then visitOrCancel v (.modification lhs.mode lhs.oid rhs.mode rhs.oid)
    pushBack (some lhs.oid,some rhs.oid)
  | false, true => do
    pushBackTrackedPathComponent v lhs.filename
    visitOrCancel v (.deletion lhs.mode lhs.oid)
    visitOrCancel v (.addition rhs.mode rhs.oid)
    pushBack (none,some rhs.oid)
  | true, false => do
    pushBackTrackedPathComponent v lhs.filename
    visitOrCancel v (.deletion lhs.mode lhs.oid)
    visitOrCancel v (.addition rhs.mode rhs.oid)
    pushBack (some lhs.oid,none)
  | false, false => do
    pushPathComponent v lhs.filename
    if lhs.oid ≠ rhs.oid then visitOrCancel v (.modification lhs.mode lhs.oid rhs.mode rhs.oid)

/-- The loop of `catchup_rhs_with_lhs()` over the remaining entries, which are those of the state. -/
def catchupRhsLoop (lhs : Entry Id) : TreeRefIter Id → Walk Id D Unit
  | [] => do
    popPathComponent v
    deleteEntryScheduleRecursion v lhs
  | .error _ :: _ => throw .entriesDecode
  | .ok rhs :: rest => match lhs.cmp rhs with
    | .eq => do
      modify (fun s => {s with rhsEntries := rest})
      popPathComponent v
      handleLhsAndRhsWithEqualFilenames v lhs rhs
    | .gt => do
      modify (fun s => {s with rhsEntries := rest})
      popPathComponent v
      addEntryScheduleRecursion v rhs
      catchupRhsLoop lhs rest
    | .lt => do
      popPathComponent v
      deleteEntryScheduleRecursion v lhs

def catchupRhsWithLhs (lhs rhs : Entry Id) : Walk Id D Unit := do
  addEntryScheduleRecursion v rhs
  let s ← get
  catchupRhsLoop v lhs s.rhsEntries

/-- The loop of `catchup_lhs_with_rhs()` over the remaining entries, which are those of the state. -/
def catchupLhsLoop (rhs : Entry Id) : TreeRefIter Id → Walk Id D Unit
  | [] => do
    popPathComponent v
    addEntryScheduleRecursion v rhs
  | .error _ :: _ => throw .entriesDecode
  | .ok lhs :: rest => match lhs.cmp rhs with
    | .eq => do
      modify (fun s => {s with lhsEntries := rest})
      popPathComponent v
      handleLhsAndRhsWithEqualFilenames v lhs rhs
    | .lt => do
      modify (fun s => {s with lhsEntries := rest})
      popPathComponent v
      deleteEntryScheduleRecursion v lhs
      catchupLhsLoop rhs rest
    | .gt => do
      popPathComponent v
      addEntryScheduleRecursion v rhs

def catchupLhsWithRhs (lhs rhs : Entry Id) : Walk Id D Unit := do
  deleteEntryScheduleRecursion v lhs
  let s ← get
  catchupLhsLoop v rhs s.lhsEntries

variable (objects : Find Id)

def findTreeIter (oid : Id) : Walk Id D (TreeRefIter Id) :=
  match objects oid with
  | .ok it => pure it
  | .error _ => throw .find

/-- Both sides are exhausted: go on with the next pair of trees, if any. -/
def nextTrees : Walk Id D Bool := do
  let s ← get
  match s.trees with
  | [] => pure true
  | (lhs,rhs) :: trees => do
    modify (fun s => {s with trees := trees})
    match lhs,rhs with
    | none, some rhs => do
      popFrontTrackedPath v
      let it ← findTreeIter objects rhs
      modify (fun s => {s with rhsEntries := it, popPath := false})
      pure false
    | some lhs, some rhs => do
      popFrontTrackedPath v
      let it ← findTreeIter objects lhs
      modify (fun s => {s with lhsEntries := it})
      let it ← findTreeIter objects rhs
      modify (fun s => {s with rhsEntries := it, popPath := false})
      pure false
    | some lhs, none => do
      popFrontTrackedPath v
      let it ← findTreeIter objects lhs
      modify (fun s => {s with lhsEntries := it, popPath := false})
      pure false
    | none, none => stuck

/-- `lhs?` -/
def decoded (entry : Except Unit (Entry Id)) : Walk Id D (Entry Id) :=
  match entry with
  | .ok e => pure e
  | .error _ => throw .entriesDecode

/-- The head of the loop of `needed_to_obtain()`. -/
def startRound : Walk Id D Unit :=
  modify (fun s => {s with
    popPath := true
    delegate := if s.popPath then v.popPathComponent s.delegate else s.delegate})

/-- The body of the loop by what both sides have next; true if it returns. -/
def neededRound : Walk Id D Bool := fun s =>
  match s.lhsEntries,s.rhsEntries with
  | [], [] => nextTrees v objects s
  | lhs :: ls, rhs :: rs => (do
    let lhs ← decoded lhs
    let rhs ← decoded rhs
    match lhs.cmp rhs with
    | .eq => handleLhsAndRhsWithEqualFilenames v lhs rhs
    | .lt => catchupLhsWithRhs v lhs rhs
    | .gt => catchupRhsWithLhs v lhs rhs
    pure false : Walk Id D Bool) {s with lhsEntries := ls, rhsEntries := rs}
  | lhs :: ls, [] => (do
    let lhs ← decoded lhs
    deleteEntryScheduleRecursion v lhs
    pure false : Walk Id D Bool) {s with lhsEntries := ls}
  | [], rhs :: rs => (do
    let rhs ← decoded rhs
    addEntryScheduleRecursion v rhs
    pure false : Walk Id D Bool) {s with rhsEntries := rs}

def neededLoop : ℕ → Walk Id D Unit
  | 0 => stuck
  | fuel+1 => do
    startRound v
    let finished ← neededRound v objects
    if finished then pure () else neededLoop fuel

/-- `Changes::needed_to_obtain()`: the result and what became of the delegate. -/
def neededToObtain (fuel : ℕ) (lhs rhs : TreeRefIter Id) (delegate : D) : Option (Except Error Unit × D) :=
  (neededLoop v objects fuel ⟨lhs,rhs,[],false,delegate⟩).map (fun r => (r.1,r.2.delegate))

end Delegate

inductive Location | path | fileName deriving DecidableEq,Repr

/-- `recorder::Change`: a change with the path it is about. -/
structure Record (Id : Type) where
  change : Change Id
  path : BString
  deriving DecidableEq,Repr

structure Recorder (Id : Type) where
  pathDeque : List BString
  path : BString
  location : Option Location
  records : List (Record Id)

def Recorder.default : Recorder Id := ⟨[],[],some .path,[]⟩

/-- `impl Visit for Recorder` -/
def recorder : Visit Id (Recorder Id) where
  popFrontTrackedPathAndSetCurrent r := match r.location with
    | some .path => match r.pathDeque with
      | [] => none
      | p :: ps => some {r with path := p, pathDeque := ps}
    | _ => some r
  pushBackTrackedPathComponent component r := match r.location with
    | none => r
    | some .path =>
      let p := pushElement r.path component
      {r with path := p, pathDeque := r.pathDeque++[p]}
    | some .fileName => {r with path := component}
  pushPathComponent component r := match r.location with
    | none => r
    | some .path => {r with path := pushElement r.path component}
    | some .fileName => {r with path := component}
  popPathComponent r := match r.location with
    | some .path => {r with path := popElement r.path}
    | _ => r
  visit change r := (.proceed,{r with records := r.records++[⟨change,r.path⟩]})

end Gix.TreeDiff
