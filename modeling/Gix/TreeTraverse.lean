import Gix.Fallible
import Gix.TreeEntry

/-! # Breadth-first traversal of a tree

`gix-traverse/src/tree/breadthfirst.rs`: the entries of a tree are handed to a delegate that
may skip subtrees or cancel; subtrees are queued and looked up one after the other. -/
namespace Gix.TreeTraverse
open Gix.Tree Fallible

/-- `visit::Action`: continue, cancel or skip. -/
inductive Action | proceed | cancel | skip deriving DecidableEq,Repr

/-- The trait `Visit`; an operation without a result panics. -/
structure Visit (Id D : Type) where
  popFrontTrackedPathAndSetCurrent : D → Option D
  pushBackTrackedPathComponent : BString → D → D
  pushPathComponent : BString → D → D
  popPathComponent : D → D
  visitTree : Entry Id → D → Action × D
  visitNontree : Entry Id → D → Action × D

inductive Error | find | cancelled | objectDecode deriving DecidableEq,Repr

/-- `find_tree_iter()` of an object database that has a state of its own. -/
abbrev Find (Id F : Type) := Id → F → Except Unit (TreeRefIter Id) × F

structure State (Id D F : Type) where
  next : List Id
  delegate : D
  objects : F

abbrev Walk (Id D F α : Type) := Fallible (State Id D F) Error α

variable {Id D F : Type} (v : Visit Id D) (find : Find Id F)

/-- An operation of the delegate that cannot fail. -/
def onDelegate (f : D → D) : Walk Id D F Unit := modify (fun s => {s with delegate := f s.delegate})

/-- Ask the delegate what to do. -/
def act (f : D → Action × D) : Walk Id D F Action := fun s =>
  let r := f s.delegate
  some (.ok r.1,{s with delegate := r.2})

/-- The body of the loop over the entries of a tree. -/
def visitEntry (entry : Entry Id) : Walk Id D F Unit := do
  onDelegate (v.pushPathComponent entry.filename)
  if entry.mode.isTree then
    match ← act (v.visitTree entry) with
    | .skip => onDelegate v.popPathComponent
    | .proceed =>
      onDelegate v.popPathComponent
      onDelegate (v.pushBackTrackedPathComponent entry.filename)
      modify (fun s => {s with next := s.next++[entry.oid]})
      onDelegate v.popPathComponent
    | .cancel => throw .cancelled
  else
    match ← act (v.visitNontree entry) with
    | .cancel => throw .cancelled
    | _ => onDelegate v.popPathComponent

def visitEntries : TreeRefIter Id → Walk Id D F Unit
  | [] => pure ()
  | .error _ :: _ => throw .objectDecode
  | .ok entry :: tree => do
    visitEntry v entry
    visitEntries tree

def popFrontTrackedPath : Walk Id D F Unit := fun s =>
  (v.popFrontTrackedPathAndSetCurrent s.delegate).map (fun d => (.ok (),{s with delegate := d}))

def findTreeIter (oid : Id) : Walk Id D F (TreeRefIter Id) := fun s =>
  let r := find oid s.objects
  some (match r.1 with | .ok it => .ok it | .error _ => .error .find,{s with objects := r.2})

def popNext : Walk Id D F (Option Id) := fun s =>
  match s.next with
  | [] => some (.ok none,s)
  | oid :: next => some (.ok (some oid),{s with next := next})

def traverseLoop : ℕ → TreeRefIter Id → Walk Id D F Unit
  | 0, _ => stuck
  | fuel+1, tree => do
    visitEntries v tree
    match ← popNext with
    | none => pure ()
    | some oid =>
      popFrontTrackedPath v
      let tree ← findTreeIter find oid
      traverseLoop fuel tree

/-- `breadthfirst()`: the result and what became of the delegate and of the database. -/
def traverse (fuel : ℕ) (root : TreeRefIter Id) (delegate : D) (objects : F) :
    Option (Except Error Unit × D × F) :=
  (traverseLoop v find fuel root ⟨[],delegate,objects⟩).map (fun r => (r.1,r.2.delegate,r.2.objects))

end Gix.TreeTraverse
