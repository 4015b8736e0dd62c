import Gix.PathComponent
import Gix.TreeTraverse

/-! # An index from a tree

`gix-index/src/init.rs`: the delegate of a breadth-first traversal collects an entry for everything
that is no tree, and validates each component of a path. -/
namespace Gix.Index.FromTree
open Gix.Tree TreeTraverse
open PathComponent (Options component)

variable {Id : Type}

def kind (mode : EntryMode) : EntryKind :=
  if mode.value &&& EntryMode.ifmt = 0o100000 then
    if mode.value &&& 0o000100 = 0o000100 then .blobExecutable else .blob
  else if mode.value &&& EntryMode.ifmt = 0o120000 then .link
  else if mode.value &&& EntryMode.ifmt = 0o040000 then .tree
  else .commit

/-- An entry of the index; its path is a part of the path backing. -/
structure Entry (Id : Type) where
  id : Id
  flags : UInt32
  mode : UInt32
  path : ℕ × ℕ

def Entry.pathIn (e : Entry Id) (backing : BString) : BString :=
  (backing.take e.path.2).drop e.path.1

def Entry.stage (e : Entry Id) : UInt32 := (e.flags &&& 0x3000) >>> 12

def cmpFilepaths (a b : BString) : Ordering :=
  let commonLen := min a.length b.length
  (compare (a.take commonLen) (b.take commonLen)).then (compare a.length b.length)

structure CollectEntries (Id : Type) where
  entries : List (Entry Id)
  pathBacking : BString
  path : BString
  pathDeque : List BString
  invalidPath : Option (BString × PathComponent.Error)

def CollectEntries.new : CollectEntries Id := ⟨[],[],[],[],none⟩

def join (dir name : BString) : BString := if dir = [] then name else dir++slash :: name

def indexMode : EntryKind → Option UInt32
  | .tree => none
  | .blob => some 0o100644
  | .blobExecutable => some 0o100755
  | .link => some 0o120000
  | .commit => some 0o160000

variable (check : BString → Option PathComponent.Mode → Except PathComponent.Error Unit)

/-- The first component that is not valid is kept. -/
def validate (c : CollectEntries Id) (name : BString) (mode : Option PathComponent.Mode) :
    CollectEntries Id :=
  if c.invalidPath = none then
    match check name mode with
    | .ok _ => c
    | .error e => {c with invalidPath := some (c.path,e)}
  else c

def pushElement (name : BString) (c : CollectEntries Id) : CollectEntries Id :=
  validate check {c with path := join c.path name} name none

def lastComponent (path : BString) : BString := (path.reverse.takeWhile (· ≠ slash)).reverse

def popPathComponent (c : CollectEntries Id) : CollectEntries Id :=
  {c with path :=
    if slash ∈ c.path then ((c.path.reverse.dropWhile (· ≠ slash)).drop 1).reverse else []}

/-- `add_entry()`; there is no call with a tree, which would be a panic. -/
def addEntry (entry : Tree.Entry Id) (c : CollectEntries Id) : CollectEntries Id :=
  let c := validate check c (lastComponent c.path)
    (if kind entry.mode = .link then some .symlink else none)
  match indexMode (kind entry.mode) with
  | none => c
  | some mode =>
    {c with
      entries := c.entries++[⟨entry.oid,0,mode,(c.pathBacking.length,(c.pathBacking++c.path).length)⟩]
      pathBacking := c.pathBacking++c.path}

def determineAction (c : CollectEntries Id) : Action :=
  if c.invalidPath = none then .proceed else .cancel

def collectEntries : Visit Id (CollectEntries Id) where
  popFrontTrackedPathAndSetCurrent c :=
    match c.pathDeque with
    | [] => none
    | path :: rest => some {c with path := path,pathDeque := rest}
  pushBackTrackedPathComponent name c :=
    let c := pushElement check name c
    {c with pathDeque := c.pathDeque++[c.path]}
  pushPathComponent := pushElement check
  popPathComponent := popPathComponent
  visitTree _ c := (determineAction c,c)
  visitNontree entry c :=
    let c := addEntry check entry c
    (determineAction c,c)

inductive Error
  | invalidComponent (path : BString) (source : PathComponent.Error)
  | traversal (e : TreeTraverse.Error)
deriving DecidableEq

/-- The entries of a new index, with the backing of their paths. -/
structure State (Id : Type) where
  entries : List (Entry Id)
  pathBacking : BString

def sortEntries (backing : BString) (entries : List (Entry Id)) : List (Entry Id) :=
  entries.mergeSort fun a b => (cmpFilepaths (a.pathIn backing) (b.pathIn backing)).isLE

variable {F : Type}

/-- `State::from_tree()` with the bound of the traversal; `none` if that is too low, or for a panic. -/
def fromTree (fuel : ℕ) (tree : Id) (find : Find Id F) (objects : F) :
    Option (Except Error (State Id)) :=
  match find tree objects with
  | (.error _,_) => some (.error (.traversal .find))
  | (.ok root,objects) =>
    match TreeTraverse.traverse (collectEntries check) find fuel root .new objects with
    | none => none
    | some (.ok _,c,_) => some (.ok ⟨sortEntries c.pathBacking c.entries,c.pathBacking⟩)
    | some (.error .cancelled,c,_) => c.invalidPath.map fun (path,e) => .error (.invalidComponent path e)
    | some (.error e,_,_) => some (.error (.traversal e))

end Gix.Index.FromTree
