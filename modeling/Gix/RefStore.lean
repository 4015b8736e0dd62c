import Gix.Interleaving
import Gix.RefName

/-! # Transactions and lookups in a file store

`gix-ref/src/store/file/`: transactions that update one reference, in all modes of treating
`packed-refs`, and lookups, as parties that share the files of the store. Each access to a file
is a step. Reflogs and the conversion of a directory that is in the way are left out. -/
namespace Gix.Ref
open Gix.Pack Interleaving Option

inductive Target
  | object (id : ObjectId)
  | symbolic (name : FullName)
deriving DecidableEq,Repr

/-- What `try_from_path()` makes of a loose file. -/
inductive Content
  | target (t : Target)
  | malformed
deriving DecidableEq,Repr

/-- The references of `packed-refs`. -/
abbrev Buffer := FullName → Option ObjectId

/-- The file `packed-refs`, and also a snapshot of it. -/
structure PackedFile where
  refs : Buffer
  modified : ℕ

/-- A lock file, whose content is renamed into place. -/
structure LockFile (ι : Type) where
  owner : ι
  content : Option Target

/-- All files, and the snapshots of `packed-refs` that stores keep. The clock gives each version
of `packed-refs` another time of modification. -/
structure Files (ι : Type) where
  loose : Path → Option Content
  looseLock : Path → Option (LockFile ι)
  packed : Option PackedFile
  packedLock : Option ι
  snapshots : ι → Option PackedFile
  clock : ℕ

/-- `recent_snapshot()`: the snapshot, which the store keeps. -/
def recentSnapshot : Option PackedFile → Option PackedFile → Option PackedFile
  | none, none => none
  | some _, none => none
  | some snapshot, some file => if snapshot.modified < file.modified then some file else some snapshot
  | none, some file => some file

def Buffer.tryFind (buffer : Buffer) (name : Bytes) : Option ObjectId :=
  if looksLikeFullName name then (transformFullNameForLookup name).bind buffer
  else [[],tagsDir,headsDir,remotesDir].findSome? (fun inbetween => buffer (constructFullNameRef inbetween name))

/-! Transactions -/

inductive PreviousValue
  | any | mustExist | mustNotExist
  | mustExistAndMatch (target : Target)
  | existingMustMatch (target : Target)
deriving DecidableEq,Repr

inductive RefLog
  | andReference | only
deriving DecidableEq,Repr

inductive PackedRefs
  | deletionsOnly | deletionsAndNonSymbolicUpdates | deletionsAndNonSymbolicUpdatesRemoveLooseSourceReference
deriving DecidableEq,Repr

/-- A transaction with one `Change::Update`. -/
structure Update where
  name : FullName
  expected : PreviousValue
  new : Target
  log : RefLog
  packedRefs : PackedRefs
deriving DecidableEq,Repr

namespace Update
variable (u : Update)

/-- `direct_to_packed_refs`, `delete_loose_refs` -/
def deleteLooseRefs : Bool := u.packedRefs = .deletionsAndNonSymbolicUpdatesRemoveLooseSourceReference

/-- The name to find the reference in `packed-refs`, if the transaction has to look there. -/
def packedName : Option FullName := if u.log = .only then none else possiblyAdjustName u.name

/-- The edit of `packed-refs`. -/
def packedEdit : Option (FullName × ObjectId) :=
  match u.packedName,u.packedRefs,u.new with
  | some _,.deletionsOnly,_ => none
  | some name,_,.object id => some (name,id)
  | _,_,_ => none

/-- Whether the existing value is as expected. -/
def admits (existing : Option Target) : Bool :=
  match u.expected,existing with
  | .any,_ => true
  | .mustExist,some _ => true
  | .mustNotExist,none | .existingMustMatch _,none => true
  | .mustExist,none => false
  | .mustNotExist,some existing => existing = u.new
  | .mustExistAndMatch previous,some existing | .existingMustMatch previous,some existing => previous = existing
  | .mustExistAndMatch _,none => false

/-- `new_would_change_existing()` -/
def isEffective (existing : Option Target) : Bool :=
  match existing with
  | some existing => u.new ≠ existing
  | none => true

def isSymbolic : Bool :=
  match u.new with
  | .symbolic _ => true
  | .object _ => false

def writesLoose (existing : Option Target) : Bool := (u.isEffective existing && !u.deleteLooseRefs) || u.isSymbolic

/-- Whether the loose file is removed in the end. -/
def removesLoose : Bool := u.deleteLooseRefs && u.log = .andReference && !u.isSymbolic

end Update

/-- What comes next. -/
inductive Phase
  | packedFile | packedLockFile | packedKind | snapshot | lockBuffer | lockPacked | lockedSnapshot | preparePacked
  | read | lock | check | lockLate | write
  | reflog | commitLoose | commitPacked | refresh | removeLoose
  | done | failed
deriving DecidableEq,Repr

structure Transaction where
  phase : Phase
  buffer : Option Buffer
  hasPacked : Bool
  hasLock : Bool
  existing : Option Target

def Transaction.new : Transaction := ⟨.packedFile,none,false,false,none⟩

/-- The object database, as far as peeling goes, and the stores that the parties use. -/
structure Env (ι : Type) where
  peels : ObjectId → Bool
  store : ι → ι

section Steps
variable {ι : Type} [DecidableEq ι] (env : Env ι) (i : ι)

namespace Files
variable (files : Files ι)

/-- The value of a loose reference, which counts as missing if it cannot be parsed. -/
def looseTarget (path : Path) : Option Target :=
  match files.loose path with
  | some (.target t) => some t
  | _ => none

def takeLock (path : Path) : Files ι :=
  {files with looseLock := Function.update files.looseLock path (some ⟨i,none⟩)}

def release (path : Path) : Files ι :=
  if (files.looseLock path).any (fun l => l.owner = i) then
    {files with looseLock := Function.update files.looseLock path none}
  else files

def releasePacked : Files ι :=
  if files.packedLock = some i then {files with packedLock := none} else files

/-- `assure_packed_refs_uptodate()`, after which the store keeps the snapshot. -/
def takeSnapshot : Option Buffer × Files ι :=
  let snapshot := recentSnapshot (files.snapshots (env.store i)) files.packed
  (snapshot.map PackedFile.refs,{files with snapshots := Function.update files.snapshots (env.store i) snapshot})

/-- A new `packed-refs` that replaces the old one. -/
def writePacked (buffer : Option Buffer) (name : FullName) (id : ObjectId) : Files ι :=
  {files with
    packed := some ⟨Function.update (buffer.getD (fun _ => none)) name (some id),files.clock+1⟩
    packedLock := none
    clock := files.clock+1}

end Files

/-- `prepare_inner()`, once it is clear that `packed-refs` has to be looked at. -/
def Update.packedPhase (u : Update) : Phase :=
  if u.packedName.isNone then .read else if u.packedEdit.isSome then .lockPacked else .packedKind

/-- The next step of a transaction, if it is neither over, nor waits for a lock, nor fails. -/
def Update.step (u : Update) (files : Files ι) (t : Transaction) : Option (Files ι × Transaction) :=
  let path := loosePath u.name
  match t.phase with
  | .packedFile =>
    if u.packedRefs ≠ .deletionsOnly ∨ files.packed.isSome then some (files,{t with phase := u.packedPhase})
    else some (files,{t with phase := .packedLockFile})
  | .packedLockFile =>
    if files.packedLock.isSome then some (files,{t with phase := u.packedPhase})
    else some (files,{t with phase := .read})
  | .packedKind =>
    if files.packedLock.isSome then some (files,{t with phase := .lockPacked})
    else some (files,{t with phase := .snapshot})
  | .snapshot =>
    let (buffer,files) := files.takeSnapshot env i
    match buffer with
    | none => some (files,{t with phase := .read})
    | some buffer => some (files,{t with phase := .lockBuffer, buffer := some buffer})
  | .lockBuffer =>
    if files.packedLock.isNone then some ({files with packedLock := some i},{t with phase := .preparePacked, hasPacked := true})
    else none
  | .lockPacked =>
    if files.packedLock.isNone then some ({files with packedLock := some i},{t with phase := .lockedSnapshot})
    else none
  | .lockedSnapshot =>
    let (buffer,files) := files.takeSnapshot env i
    some (files,{t with phase := .preparePacked, buffer := buffer, hasPacked := true})
  | .preparePacked =>
    if u.packedEdit.all (fun edit => env.peels edit.2) then some (files,{t with phase := .read}) else none
  | .read =>
    let existing := (files.looseTarget path).or ((t.buffer.bind (fun buffer => buffer.tryFind u.name)).map .object)
    some (files,{t with phase := if t.hasPacked then .check else .lock, existing := existing})
  | .lock =>
    if (files.looseLock path).isNone then some (files.takeLock i path,{t with phase := .check, hasLock := true})
    else none
  | .check =>
    if u.admits t.existing then
      if u.writesLoose t.existing then some (files,{t with phase := if t.hasLock then .write else .lockLate})
      else some (files.release i path,{t with phase := .reflog, hasLock := false})
    else none
  | .lockLate =>
    if (files.looseLock path).isNone then some (files.takeLock i path,{t with phase := .write, hasLock := true})
    else none
  | .write =>
    some ({files with looseLock := Function.update files.looseLock path (some ⟨i,some u.new⟩)},{t with phase := .reflog})
  | .reflog => some (files,{t with phase := .commitLoose})
  | .commitLoose =>
    if t.hasLock ∧ ¬(u.deleteLooseRefs ∧ ¬u.isSymbolic) ∧ u.log = .andReference then
      some ({files with
        loose := Function.update files.loose path (((files.looseLock path).bind LockFile.content).map .target)
        looseLock := Function.update files.looseLock path none},{t with phase := .commitPacked, hasLock := false})
    else some (files.release i path,{t with phase := .commitPacked, hasLock := false})
  | .commitPacked =>
    if t.hasPacked then match u.packedEdit with
      | some (name,id) => some (files.writePacked t.buffer name id,{t with phase := .refresh})
      | none => some (files.releasePacked i,{t with phase := .refresh})
    else some (files,{t with phase := .removeLoose})
  | .refresh =>
    some ({files with snapshots := Function.update files.snapshots (env.store i) files.packed},{t with phase := .removeLoose})
  | .removeLoose =>
    if u.removesLoose then
      some ({files with loose := Function.update files.loose path none},{t with phase := .done})
    else some (files,{t with phase := .done})
  | .done | .failed => none

/-- A transaction that fails or is dropped gives back its locks. -/
def Update.fail (u : Update) (files : Files ι) (t : Transaction) : Files ι × Transaction :=
  ((files.release i (loosePath u.name)).releasePacked i,{t with phase := .failed})

/-! Lookups -/

/-- What `try_find()` returns: an error, or the name and the target if the reference was found. -/
abbrev Found := Except Unit (Option (FullName × Target))

inductive Lookup
  | start (partialName : Bytes)
  | search (packed : Option Buffer) (rest : List Candidate)
  | done (result : Found)

/-- What a snapshot holds for a candidate. -/
def Candidate.inPacked (c : Candidate) (packed : Option Buffer) : Option (FullName × ObjectId) :=
  if c.packed then packed.bind (fun buffer => (transformFullNameForLookup c.name).bind (fun name =>
    (buffer name).map (name,·)))
  else none

/-- `find_inner()`, if it does not go on with the next candidate. -/
def Candidate.find (c : Candidate) (files : Files ι) (packed : Option Buffer) : Option Found :=
  match files.loose (loosePath c.name) with
  | some (.target t) => some (.ok (some (c.name,t)))
  | some .malformed => some (.error ())
  | none => (c.inPacked packed).map (fun r => .ok (some (r.1,.object r.2)))

def Lookup.step (files : Files ι) : Lookup → Option (Files ι × Lookup)
  | .start partialName =>
    let (packed,files) := files.takeSnapshot env i
    some (files,.search packed (candidates partialName))
  | .search _ [] => some (files,.done (.ok none))
  | .search packed (c :: rest) => match c.find files packed with
    | some result => some (files,.done result)
    | none => some (files,.search packed rest)
  | .done _ => none

/-! All parties -/

inductive Party
  | transaction (u : Update) (t : Transaction)
  | lookup (l : Lookup)

inductive Move : Files ι × Party → Files ι × Party → Prop
  | step {u : Update} {files files' : Files ι} {t t' : Transaction} (h : u.step env i files t = some (files',t')) :
      Move (files,.transaction u t) (files',.transaction u t')
  | fail {u : Update} {files : Files ι} {t : Transaction} (h : t.phase ≠ .done ∧ t.phase ≠ .failed) :
      Move (files,.transaction u t) ((u.fail i files t).1,.transaction u (u.fail i files t).2)
  | look {files files' : Files ι} {l l' : Lookup} (h : l.step env i files = some (files',l')) :
      Move (files,.lookup l) (files',.lookup l')

abbrev Store (ι : Type) := System ι (Files ι) Party

variable {env i} {files files' : Files ι}

/-- Lookups change nothing but the snapshot that the store keeps. -/
theorem Lookup.step_files {l l' : Lookup} (h : l.step env i files=some (files',l')) :
    ∃ snapshots,files'={files with snapshots := snapshots} := by
  cases l with
  | start partialName =>
    cases h
    exact ⟨_,rfl⟩
  | search packed rest =>
    cases rest with
    | nil =>
      cases h
      exact ⟨_,rfl⟩
    | cons c rest =>
      simp only [Lookup.step] at h
      split at h <;> (obtain ⟨rfl,-⟩ := Prod.mk.inj (some.inj h); exact ⟨_,rfl⟩)
  | done result => simp [Lookup.step] at h

/-! Runs by a schedule -/

def advance (env : Env ι) (i : ι) : Files ι × Party → Option (Files ι × Party)
  | (files,.transaction u t) => (u.step env i files t).map (fun r => (r.1,.transaction u r.2))
  | (files,.lookup l) => (l.step env i files).map (fun r => (r.1,.lookup r.2))

theorem advance_move {before after : Files ι × Party} (h : advance env i before=some after) : Move env i before after := by
  obtain ⟨_,party⟩ := before
  cases party with
  | transaction u t =>
    obtain ⟨⟨files',_⟩,hstep,rfl⟩ := map_eq_some_iff.mp h
    exact .step hstep
  | lookup l =>
    obtain ⟨⟨files',_⟩,hstep,rfl⟩ := map_eq_some_iff.mp h
    exact .look hstep

/-- The parties take steps in the given order, each of which has to be allowed. -/
def runSchedule (env : Env ι) (allowed : Files ι × Party → Bool) : List ι → Store ι → Option (Store ι)
  | [], s => some s
  | x :: xs, s => if allowed (s.shared,s.party x) then
      (advance env x (s.shared,s.party x)).bind (fun next => runSchedule env allowed xs (s.set x next))
    else none

theorem runSchedule_reaches {allowed : Files ι × Party → Bool} {xs : List ι} {s s' : Store ι}
    (h : runSchedule env allowed xs s=some s') :
    Reaches (fun i before after => Move env i before after ∧ allowed before=true) s s' := by
  induction xs generalizing s with
  | nil => exact (some.inj h) ▸ Reaches.refl
  | cons x xs ih =>
    rw [runSchedule] at h
    split at h
    · rename_i hallowed
      obtain ⟨next,hnext,hrest⟩ := bind_eq_some_iff.mp h
      exact Relation.ReflTransGen.head (.mk x next ⟨advance_move hnext,hallowed⟩) (ih hrest)
    · simp at h

end Steps
end Gix.Ref
