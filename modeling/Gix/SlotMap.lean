import Mathlib

/-! # The slot map of an object store

`consolidate_with_disk_state` fits the slots of a store to the index files on disk: files that are
known keep their slot, new files and changed multi-pack indices get the next slot that takes them,
and the slots of files that went away are cleared. -/
namespace Gix.SlotMap
variable {n : ℕ} {P : Type} [DecidableEq P]

/-! Files in a slot -/

inductive FileState where
  | unloaded
  | loaded
  | garbage
  | missing
  deriving DecidableEq

def FileState.isDisposable : FileState → Bool
  | .garbage | .missing => true
  | .unloaded | .loaded => false

def FileState.putBack : FileState → FileState
  | .garbage => .loaded
  | .missing => .unloaded
  | s => s

def FileState.trash : FileState → FileState
  | .loaded => .garbage
  | s => s

/-- An index with its pack, or a multi-pack index with all of its packs. -/
structure IndexAndPacks (P : Type) where
  indexPath : P
  mtime : ℕ
  index : FileState
  data : List FileState
  deriving DecidableEq

def IndexAndPacks.isDisposable (b : IndexAndPacks P) : Bool :=
  b.index.isDisposable || b.data.any FileState.isDisposable

def IndexAndPacks.putBack (b : IndexAndPacks P) : IndexAndPacks P :=
  {b with index := b.index.putBack, data := b.data.map FileState.putBack}

def IndexAndPacks.trash (b : IndexAndPacks P) : IndexAndPacks P :=
  {b with index := b.index.trash, data := b.data.map FileState.trash}

structure Slot (P : Type) where
  files : Option (IndexAndPacks P)
  generation : ℕ
  deriving DecidableEq

structure SlotMapIndex (n : ℕ) (P : Type) where
  slotIndices : List (Fin n)
  looseDbs : List P
  generation : ℕ

structure Store (n : ℕ) (P : Type) where
  files : Fin n → Slot P
  index : SlotMapIndex n P

/-- A store before the first look at the disk. -/
def Store.new (n : ℕ) (P : Type) : Store n P := ⟨fun _ => ⟨none,0⟩,⟨[],[],0⟩⟩

/-! The disk -/

/-- An index file as it is found; a multi-pack index is opened and tells its packs. -/
structure IndexInfo (P : Type) where
  path : P
  isMultiIndex : Bool
  numIndices : ℕ
  mtime : ℕ
  deriving DecidableEq

def IndexInfo.intoIndexAndPacks (info : IndexInfo P) : IndexAndPacks P :=
  if info.isMultiIndex then ⟨info.path,info.mtime,.loaded,.replicate info.numIndices .unloaded⟩
  else ⟨info.path,info.mtime,.unloaded,[.unloaded]⟩

/-- The object directories and the index files in them, in the order of their size. No file is
found twice. -/
structure Disk (P : Type) where
  dbPaths : List P
  indices : List (IndexInfo P)
  nodup : (indices.map IndexInfo.path).Nodup

def Disk.paths (disk : Disk P) : List P := disk.indices.map IndexInfo.path

inductive Failure where
  | insufficientSlots (current needed : ℕ)
  | generationOverflow
  /-- The assertion that a new generation comes with other slots does not hold. -/
  | unchangedSlots
  deriving DecidableEq

/-! Files that have a slot -/

/-- A path points to the last slot it is put in for. -/
def insertPath (m : List (P × Fin n)) (path : P) (i : Fin n) : List (P × Fin n) :=
  m.filter (·.1 ≠ path)++[(path,i)]

def idxByIndexPath (s : Store n P) : List (P × Fin n) :=
  s.index.slotIndices.foldl (fun m i =>
    match (s.files i).files with
    | some b => insertPath m b.indexPath i
    | none => m) []

structure Matching (n : ℕ) (P : Type) where
  files : Fin n → Slot P
  idxByIndexPath : List (P × Fin n)
  newSlotMapIndices : List (Fin n)
  indexPathsToAdd : List (IndexInfo P × Option (Fin n))

def assureSlotMatchesIndex (slot : Slot P) (b : IndexAndPacks P) (currentGeneration : ℕ) : Slot P :=
  if b.isDisposable then ⟨some b.putBack,currentGeneration⟩ else slot

/-- One file on disk: its slot stays, or it has to be added. -/
def matchIndex (generation : ℕ) (m : Matching n P) (info : IndexInfo P) : Matching n P :=
  match m.idxByIndexPath.lookup info.path with
  | none => {m with indexPathsToAdd := m.indexPathsToAdd++[(info,none)]}
  | some i =>
    let rest := m.idxByIndexPath.filter (·.1 ≠ info.path)
    match (m.files i).files with
    | some b =>
      if info.isMultiIndex && b.mtime ≠ info.mtime then
        -- the changed file gets a slot of its own, what is in the old one may be in use
        {m with idxByIndexPath := rest, indexPathsToAdd := m.indexPathsToAdd++[(info,some i)]}
      else
        {m with
          files := Function.update m.files i (assureSlotMatchesIndex (m.files i) b generation)
          idxByIndexPath := rest
          newSlotMapIndices := m.newSlotMapIndices++[i]}
    -- not reached, the paths are those of slots that are set
    | none => m

def matchIndices (s : Store n P) (disk : Disk P) : Matching n P :=
  disk.indices.foldl (matchIndex s.index.generation) ⟨s.files,idxByIndexPath s,[],[]⟩

/-! Files that need a slot -/

/-- A slot is not given to its own file again, and not while it is garbage someone may look at. -/
def refuses (stable : Bool) (b : IndexAndPacks P) (info : IndexInfo P) : Bool :=
  b.indexPath = info.path || (b.isDisposable && stable)

/-- The slot with the new file, and if it was empty before. -/
def trySetIndexSlot (stable : Bool) (currentGeneration : ℕ) (slot : Slot P) (info : IndexInfo P) :
    Option (Slot P × Bool) :=
  match slot.files with
  | some b =>
    if refuses stable b info then none
    else some (⟨some info.intoIndexAndPacks,(currentGeneration+1)%2^32⟩,false)
  | none => some (⟨some info.intoIndexAndPacks,currentGeneration⟩,true)

structure Probe (n : ℕ) (P : Type) where
  files : Fin n → Slot P
  newSlotMapIndices : List (Fin n)
  slotIndicesToRemove : List (Fin n)
  needsGenerationChange : Bool

/-- The files are given slots one after the other; each slot is looked at once for all of them. -/
def probe (stable : Bool) (generation : ℕ) :
    List (Fin n) → List (IndexInfo P × Option (Fin n)) → Probe n P →
      Probe n P × Except Failure Unit
  | _,[],st => (st,.ok ())
  | [],_ :: later,st => (st,.error (.insufficientSlots n (later.length+1)))
  | i :: slots,(info,moveFrom) :: later,st =>
    -- a file is not moved onto itself
    if moveFrom = some i then probe stable generation slots ((info,moveFrom) :: later) st
    else
      match trySetIndexSlot stable generation (st.files i) info with
      | some (slot,wasEmpty) =>
        probe stable generation slots later
          ⟨Function.update st.files i slot,st.newSlotMapIndices++[i],
            st.slotIndicesToRemove++moveFrom.toList,st.needsGenerationChange || !wasEmpty⟩
      | none => probe stable generation slots ((info,moveFrom) :: later) st

/-- The slots from behind the highest one in the index on, around to it. -/
def probeOrder (index : SlotMapIndex n P) : List (Fin n) :=
  (List.finRange n).rotate
    (match (index.slotIndices.map Fin.val).max? with
    | some highest => (highest+1)%n
    | none => 0)

/-! Consolidation -/

def removeSlot (stable : Bool) (generation : ℕ) (files : Fin n → Slot P) (i : Fin n) :
    Fin n → Slot P :=
  Function.update files i
    (if stable then ⟨(files i).files.map IndexAndPacks.trash,(files i).generation⟩
    else ⟨none,generation⟩)

/-- The slots with all the files that are on disk, or what kept a file from having one. `stable` is
set while there are handles that need stable indices. -/
def search (stable : Bool) (disk : Disk P) (s : Store n P) : Probe n P × Except Failure Unit :=
  let m := matchIndices s disk
  probe stable s.index.generation (probeOrder s.index) m.indexPathsToAdd
    ⟨m.files,m.newSlotMapIndices,m.idxByIndexPath.map Prod.snd,false⟩

/-- The new index is set, and then the slots it does not have any more are cleared. -/
def install (stable : Bool) (disk : Disk P) (s : Store n P) (st : Probe n P) :
    Store n P × Except Failure Unit :=
  let generation := s.index.generation+st.needsGenerationChange.toNat
  if 2^32 ≤ generation then ({s with files := st.files},.error .generationOverflow)
  else if generation ≠ s.index.generation ∧ s.index.slotIndices = st.newSlotMapIndices then
    ({s with files := st.files},.error .unchangedSlots)
  else
    ({files := st.slotIndicesToRemove.foldl (removeSlot stable generation) st.files
      index :=
        if s.index.slotIndices ≠ st.newSlotMapIndices ∨ disk.dbPaths ≠ s.index.looseDbs then
          ⟨st.newSlotMapIndices,disk.dbPaths,generation⟩
        else s.index},
      .ok ())

def consolidateWithDiskState (stable : Bool) (disk : Disk P) (s : Store n P) :
    Store n P × Except Failure Unit :=
  match (search stable disk s).2 with
  | .error e => ({s with files := (search stable disk s).1.files},.error e)
  | .ok () => install stable disk s (search stable disk s).1

/-! Runs -/

/-- What happens to a store: it is fitted to the disk, or the files of a slot are loaded or turn
out to be missing. -/
inductive Action (n : ℕ) (P : Type) where
  | consolidate (stable : Bool) (disk : Disk P)
  | load (i : Fin n) (index : FileState) (data : List FileState)

def Slot.load (slot : Slot P) (index : FileState) (data : List FileState) : Slot P :=
  ⟨slot.files.map fun b => {b with index := index, data := data},slot.generation⟩

def Action.perform (s : Store n P) : Action n P → Store n P
  | .consolidate stable disk => (consolidateWithDiskState stable disk s).1
  | .load i index data => {s with files := Function.update s.files i ((s.files i).load index data)}

/-- Something holds of each consolidation of a run, with the store it starts from. -/
def Throughout (p : Store n P → Bool → Disk P → Prop) : Store n P → List (Action n P) → Prop
  | _,[] => True
  | s,.consolidate stable disk :: later =>
    p s stable disk ∧ Throughout p (Action.perform s (.consolidate stable disk)) later
  | s,.load i index data :: later =>
    Throughout p (Action.perform s (.load i index data)) later

end Gix.SlotMap
