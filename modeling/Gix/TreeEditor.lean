import Gix.Fallible
import Gix.SortedSearch
import Gix.TreePath

/-! # Editing trees in memory

`gix-object/src/tree/editor.rs`: trees are loaded on the way to the edited path and kept
under that path; entries with null ids stand for trees that are not written yet. Writing
hands the kept trees to a callback, children before their parents, and puts the ids it
returns into the parents. -/
namespace Gix.TreeEditor
open Gix.Tree Fallible SortedSearch

variable {Id : Type}

/-- The ids that have a meaning of their own. -/
structure Hash (Id : Type) where
  null : Id
  emptyTree : Id

/-- `find_tree()` of the object database; what it cannot provide is an error. -/
abbrev Find (Id : Type) := Id → Option (List (Entry Id))

inductive UpsertMode | normal | assureTreeOnly deriving DecidableEq,Repr

inductive WriteMode | normal | fromCursor deriving DecidableEq,Repr

inductive Error | emptyPathComponent | findExistingObject deriving DecidableEq,Repr

/-- The map of trees by path, and the buffer for the path of the tree that is edited. -/
structure Editor (Id : Type) where
  trees : BString → Option (List (Entry Id))
  pathBuf : BString

abbrev Edit (Id α : Type) := Fallible (Editor Id) Error α

def cmpEntryWithName (a : Entry Id) (filename : BString) (isTree : Bool) : Ordering :=
  let common := min a.filename.length filename.length
  (compare (a.filename.take common) (filename.take common)).then
    (compare (a.byteAt common) (filename[common]? <|> if isTree then some slash else none))

def filename (path : BString) : BString :=
  match rfindByte path slash with
  | some pos => path.drop (pos+1)
  | none => path

def Editor.new (root : List (Entry Id)) : Editor Id :=
  ⟨fun path => if path = [] then some root else none,[]⟩

def sortEntries (entries : List (Entry Id)) : List (Entry Id) :=
  entries.mergeSort (fun a b => a.cmp b ≠ .gt)

/-- How the loop over the path goes on after a component. -/
inductive Next (Id : Type)
  | stop | descend (treeToLookup : Option Id)

/-- The two searches for a name, as a file and as a directory. -/
def search (entries : List (Entry Id)) (name : BString) (currentLevelMustBeTree : Bool) : Except ℕ ℕ :=
  match binarySearchBy (fun e => cmpEntryWithName e name false) entries with
  | .ok idx => .ok idx
  | .error fileInsertionIdx =>
    match binarySearchBy (fun e => cmpEntryWithName e name true) entries with
    | .ok idx => .ok idx
    | .error dirInsertionIdx => .error (if currentLevelMustBeTree then dirInsertionIdx else fileInsertionIdx)

/-- Overwrite an entry, and sort if it turns from a file into a directory or the other way. -/
def overwrite (entries : List (Entry Id)) (idx : ℕ) (entry : Entry Id) (mode : EntryMode) (oid : Id)
    (currentLevelMustBeTree : Bool) : List (Entry Id) :=
  let entries' := entries.set idx {entry with mode := mode, oid := oid}
  if entry.mode.isTree ≠ currentLevelMustBeTree then sortEntries entries' else entries'

section Edits
variable (hash : Hash Id) (kindAndId : Option (EntryKind × Id × UpsertMode))

/-- What the loop does to the entries of the tree at the cursor. -/
def editEntries (name : BString) (isLast : Bool) (entries : List (Entry Id)) :
    Option (List (Entry Id) × Next Id) :=
  let newKindIsTree := kindAndId.any (fun k => k.1 = .tree)
  let currentLevelMustBeTree := !isLast || newKindIsTree
  match search entries name currentLevelMustBeTree with
  | .ok idx => match entries[idx]? with
    | none => none
    | some entry => match kindAndId with
      | none =>
        if isLast then some (entries.eraseIdx idx,.stop)
        else if entry.mode.isTree then some (entries,.descend (some entry.oid))
        else some (entries,.stop)
      | some (kind,id,_) =>
        if isLast then some (overwrite entries idx entry kind.mode id currentLevelMustBeTree,.descend none)
        else if entry.mode.isTree then some (entries,.descend (some entry.oid))
        else some (overwrite entries idx entry EntryKind.tree.mode hash.null currentLevelMustBeTree,.descend none)
  | .error insertionIdx => match kindAndId with
    | none => some (entries,.stop)
    | some (kind,id,_) =>
      some (entries.insertIdx insertionIdx (if isLast then ⟨kind.mode,name,id⟩
        else ⟨EntryKind.tree.mode,name,hash.null⟩),.descend none)

variable [DecidableEq Id] (find : Find Id)

/-- Make the tree at the buffer's path the cursor, loading it if it is not in memory. -/
def enterTree (treeToLookup : Option Id) : Edit Id Unit := do
  let s ← get
  match s.trees s.pathBuf with
  | some _ => pure ()
  | none => match treeToLookup.filter (fun id => id ≠ hash.emptyTree) with
    | none => modify (fun s => {s with trees := Function.update s.trees s.pathBuf (some [])})
    | some id => match find id with
      | none => throw .findExistingObject
      | some tree => modify (fun s => {s with trees := Function.update s.trees s.pathBuf (some tree)})

/-- The loop over the components of the path; the cursor is the tree at the buffer's path. -/
def editPath : List BString → Edit Id Unit
  | [] => pure ()
  | name :: relaPath => do
    if name = [] then throw .emptyPathComponent
    else
      let s ← get
      match s.trees s.pathBuf with
      | none => stuck
      | some entries => match editEntries hash kindAndId name relaPath.isEmpty entries with
        | none => stuck
        | some (entries,next) => do
          modify (fun s => {s with trees := Function.update s.trees s.pathBuf (some entries)})
          match next with
          | .stop => pure ()
          | .descend treeToLookup =>
            if relaPath.isEmpty && kindAndId.any (fun k => k.2.2 = .normal) then pure ()
            else do
              modify (fun s => {s with pathBuf := pushElement s.pathBuf name})
              enterTree hash find treeToLookup
              editPath relaPath

def upsertOrRemoveAtPathbuf (relaPath : List BString) : Edit Id Unit := do
  let s ← get
  match s.trees s.pathBuf with
  | none => stuck
  | some _ => editPath hash kindAndId find relaPath

end Edits

variable [DecidableEq Id] (hash : Hash Id) (find : Find Id)

def upsert (relaPath : List BString) (kind : EntryKind) (id : Id) : Edit Id Unit := do
  modify (fun s => {s with pathBuf := []})
  upsertOrRemoveAtPathbuf hash (some (kind,id,.normal)) find relaPath

def remove (relaPath : List BString) : Edit Id Unit := do
  modify (fun s => {s with pathBuf := []})
  upsertOrRemoveAtPathbuf hash none find relaPath

section Write
variable {O E : Type}

/-- The callback: its state is passed along. -/
abbrev Out (Id O E : Type) := List (Entry Id) → O → Except E Id × O

/-- A tree that waits to be written, with the index of its parent among `parents`. -/
structure Item (Id : Type) where
  parentIdx : Option ℕ
  relaPath : BString
  tree : List (Entry Id)

structure Writing (Id O : Type) where
  trees : BString → Option (List (Entry Id))
  parents : List (Item Id)
  children : List (Item Id)
  out : O

/-- The kept trees among the entries of a tree, which are taken out of the map. -/
def takeChildren (nextParentIdx : ℕ) (relaPath : BString) :
    List (Entry Id) → (BString → Option (List (Entry Id))) → List (Item Id) × (BString → Option (List (Entry Id)))
  | [], trees => ([],trees)
  | entry :: entries, trees =>
    if entry.mode.isTree then
      let path := pushElement relaPath entry.filename
      match trees path with
      | some subTree =>
        let r := takeChildren nextParentIdx relaPath entries (Function.update trees path none)
        (⟨some nextParentIdx,path,subTree⟩ :: r.1,r.2)
      | none => takeChildren nextParentIdx relaPath entries trees
    else takeChildren nextParentIdx relaPath entries trees

/-- `children.pop().or_else(|| parents.pop())` -/
def popItem (w : Writing Id O) : Option (Item Id × Writing Id O) :=
  match w.children with
  | item :: children => some (item,{w with children := children})
  | [] => match w.parents.getLast? with
    | some item => some (item,{w with parents := w.parents.dropLast})
    | none => none

/-- The body of the loop: a result if it returns. -/
def processItem (mode : WriteMode) (out : Out Id O E) (item : Item Id) (w : Writing Id O) :
    Option (Option (Except E Id) × Writing Id O) :=
  let (found,trees) := takeChildren w.parents.length item.relaPath item.tree w.trees
  if found.isEmpty then
    let tree := item.tree.filter (fun e => e.oid ≠ hash.null)
    match item.parentIdx with
    | some idx => match w.parents[idx]? with
      | none => none
      | some parent =>
        match binarySearchBy (fun e => cmpEntryWithName e (filename item.relaPath) true) parent.tree with
        | .error _ => none
        | .ok entryIdx =>
          if tree.isEmpty then
            some (none,{w with parents := w.parents.set idx {parent with tree := parent.tree.eraseIdx entryIdx}})
          else match out tree w.out with
            | (.ok id,o) =>
              some (none,{w with
                parents := w.parents.set idx {parent with
                  tree := parent.tree.modify entryIdx (fun e => {e with oid := id})}
                out := o})
            | (.error err,o) => match w.parents.head? with
              | none => none
              | some root =>
                some (some (.error err),{w with
                  trees := Function.update w.trees root.relaPath (some root.tree)
                  out := o})
    | none =>
      if w.parents.isEmpty then match out tree w.out with
        | (.ok id,o) =>
          let trees := match mode with
            | .normal => fun _ => none
            | .fromCursor => w.trees
          some (some (.ok id),{w with trees := Function.update trees item.relaPath (some tree), out := o})
        | (.error err,o) =>
          some (some (.error err),{w with trees := Function.update w.trees item.relaPath (some tree), out := o})
      else if tree.isEmpty then some (none,w)
      else match out tree w.out with
        | (.ok _,o) => some (none,{w with out := o})
        | (.error err,o) => some (some (.error err),{w with out := o})
  else
    some (none,{w with trees := trees, parents := w.parents++[item], children := found.reverse++w.children})

def writeLoop (mode : WriteMode) (out : Out Id O E) : ℕ → Writing Id O → Option (Except E Id × Writing Id O)
  | 0, _ => none
  | fuel+1, w => match popItem w with
    | none => none
    | some (item,w) => match processItem hash mode out item w with
      | none => none
      | some (some r,w) => some (r,w)
      | some (none,w) => writeLoop mode out fuel w

/-- `write_at_pathbuf()`: the result, the trees that are kept, and the state of the callback. The
assertion that there is a tree is part of what `expect()` asks of the root. -/
def writeAtPathbuf (mode : WriteMode) (out : Out Id O E) (fuel : ℕ) (s : Editor Id) (o : O) :
    Option (Except E Id × Editor Id × O) :=
  match s.trees s.pathBuf with
  | none => none
  | some root =>
    (writeLoop hash mode out fuel ⟨Function.update s.trees s.pathBuf none,[⟨none,s.pathBuf,root⟩],[],o⟩).map
      (fun r => (r.1,{s with trees := r.2.trees},r.2.out))

def write (out : Out Id O E) (fuel : ℕ) (s : Editor Id) (o : O) : Option (Except E Id × Editor Id × O) :=
  writeAtPathbuf hash .normal out fuel {s with pathBuf := []} o

end Write
end Gix.TreeEditor
