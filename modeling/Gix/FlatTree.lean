import Gix.TreeEntry

/-! # Flattened trees

What an editor of trees is for: a map from paths to what is there, with two operations. A
tree is flattened with the help of a store of trees; a tree that is empty or not in the
store stands for itself. -/
namespace Gix.FlatTree
open Gix.Tree

variable {Id : Type}

/-- What there is at each path, directories with something in them left out. -/
abbrev FlatMap (Id : Type) := List BString → Option (EntryMode × Id)

variable (lookup : Id → Option (List (Entry Id)))

/-- The entries of a tree, none if it is not in the store. -/
def content (oid : Id) : List (Entry Id) := (lookup oid).getD []

/-- The flattened form of the tree with the given entries. -/
def flat : List (Entry Id) → FlatMap Id
  | _, [] => none
  | es, [n] => (findName es n).bind (fun e =>
      if e.mode.isTree && !(content lookup e.oid).isEmpty then none else some (e.mode,e.oid))
  | es, n :: m :: rest => (findName es n).bind (fun e =>
      if e.mode.isTree then flat (content lookup e.oid) (m :: rest) else none)

def leafAt (mode : EntryMode) (oid : Id) : FlatMap Id
  | [] => if mode.isTree && !(content lookup oid).isEmpty then none else some (mode,oid)
  | n :: rest => if mode.isTree then flat lookup (content lookup oid) (n :: rest) else none

theorem flat_cons (es : List (Entry Id)) (n : BString) (rest : List BString) :
    flat lookup es (n::rest)=(findName es n).bind (fun e => leafAt lookup e.mode e.oid rest) := by
  cases rest <;> rfl

theorem flat_empty (P : List BString) : flat lookup [] P=none := by
  cases P with
  | nil => rfl
  | cons n rest => rw [flat_cons]; rfl

/-- Put an entry at `p`: it replaces what is at `p` or below, and what is above `p` gives way
to a directory. -/
def upsert (p : List BString) (kind : EntryKind) (id : Id) (M : FlatMap Id) : FlatMap Id := fun q =>
  if p <+: q then leafAt lookup kind.mode id (q.drop p.length)
  else if q <+: p then none
  else M q

/-- Delete what is at `p` or below, and a directory above `p` if it has nothing in it. -/
def remove (p : List BString) (M : FlatMap Id) : FlatMap Id := fun q =>
  if p <+: q then none
  else if q <+: p ∧ (M q).any (fun x => x.1.isTree) then none
  else M q

def dropNull [DecidableEq Id] (null : Id) (M : FlatMap Id) : FlatMap Id := fun q =>
  (M q).filter (fun x => x.2 ≠ null)

inductive Op (Id : Type)
  | upsert (path : List BString) (kind : EntryKind) (id : Id)
  | remove (path : List BString)

def Op.path : Op Id → List BString
  | .upsert path _ _ => path
  | .remove path => path

def Op.apply : Op Id → FlatMap Id → FlatMap Id
  | .upsert path kind id => FlatTree.upsert lookup path kind id
  | .remove path => FlatTree.remove path

variable {lookup} {p q : List BString} {m n : BString} {kind : EntryKind} {id : Id} {M : FlatMap Id}

theorem upsert_cons_of_ne (hmn : m≠n) : upsert lookup (n::p) kind id M (m::q)=M (m::q) := by
  simp [upsert,hmn,hmn.symm]

theorem upsert_cons : upsert lookup (n::p) kind id M (n::q)=upsert lookup p kind id (fun r => M (n::r)) q := by
  simp [upsert]

theorem upsert_above (hp : p≠[]) : upsert lookup p kind id M []=none := by
  simp [upsert,hp]

theorem remove_cons_of_ne (hmn : m≠n) : remove (n::p) M (m::q)=M (m::q) := by
  simp [remove,hmn,hmn.symm]

theorem remove_cons : remove (n::p) M (n::q)=remove p (fun r => M (n::r)) q := by
  simp [remove]

theorem remove_above (hp : p≠[]) :
    remove p M []=if (M []).any (fun x => x.1.isTree) then none else M [] := by
  simp [remove,hp]

end Gix.FlatTree
