import Gix.PackEntry
import Gix.SortedSearch

/-! # Completing thin packs

`gix-pack/src/data/input/lookup_ref_delta_objects.rs`: an iterator that puts the bases of
ref-deltas in front of them and turns them into ofs-deltas. Both change the offsets of what
follows, so the distances of other ofs-deltas are adjusted with a list of the changes so far.
A header takes a few dozen bytes at most, so its size is not cut to 16 bits here. -/
namespace Gix.ThinPack
open Gix.Pack SortedSearch

structure Entry where
  header : Header
  headerSize : ℕ
  packOffset : ℕ
  compressed : Option Bytes
  compressedSize : ℕ
  crc32 : Option ℕ
  decompressedSize : ℕ
  trailer : Option ObjectId
deriving DecidableEq,Repr

inductive Error
  | io | packParse
  | checksumMismatch (expected actual : ObjectId)
  | incompletePack (actual expected : ℕ)
  | notFound (objectId : ObjectId)
deriving DecidableEq,Repr

structure Data where
  kind : ObjectKind
  data : Bytes

structure Change where
  packOffset : ℕ
  shiftedPackOffset : ℕ
  sizeChange : ℤ
  oid : ObjectId
deriving DecidableEq,Repr

/-- What the iterator is built on: the checksum, the compressor, the object database, whose
`try_find()` can fail, and the search in a sorted slice. -/
structure Env where
  crc32Update : ℕ → Bytes → ℕ
  compress : Bytes → Except Error Bytes
  tryFind : ObjectId → Option (Option Data)
  search : BinarySearch

structure Iter where
  nextDelta : Option Entry
  error : Bool
  changes : List Change
  inserted : ℤ

def Iter.new : Iter := ⟨none,false,[],0⟩

namespace Entry

def bytesInPack (e : Entry) : ℕ := e.headerSize+e.compressedSize

/-- `compute_crc32()`, which expects the compressed bytes to be there. -/
def computeCrc32 (env : Env) (e : Entry) : Option ℕ :=
  e.compressed.map (fun c => env.crc32Update (env.crc32Update 0 (e.header.writeTo e.decompressedSize)) c)

def toHeader : ObjectKind → Header
  | .tree => .tree
  | .blob => .blob
  | .commit => .commit
  | .tag => .tag

def fromDataObj (env : Env) (obj : Data) (packOffset : ℕ) : Except Error Entry := do
  let compressed ← env.compress obj.data
  let entry : Entry := {
    header := toHeader obj.kind
    headerSize := (toHeader obj.kind).size obj.data.length
    packOffset := packOffset
    compressed := some compressed
    compressedSize := compressed.length
    crc32 := none
    decompressedSize := obj.data.length
    trailer := none }
  pure {entry with crc32 := entry.computeCrc32 env}

end Entry

section Iteration
variable (env : Env) (s : Iter)

def shiftedPackOffset (packOffset : ℕ) : Option ℕ :=
  if 0 ≤ (packOffset : ℤ)+s.inserted then some ((packOffset : ℤ)+s.inserted).toNat else none

def trackChange (shiftedPackOffset packOffset : ℕ) (sizeChange : ℤ) (oid : Option ObjectId) : Iter :=
  if sizeChange = 0 then s
  else {s with
    changes := s.changes++[⟨packOffset,shiftedPackOffset,sizeChange,oid.getD .null⟩]
    inserted := s.inserted+sizeChange}

/-- `shift_entry_and_point_to_base_by_offset()` -/
def shiftEntry (entry : Entry) (baseDistance : ℕ) : Option (Entry × Iter) := do
  let packOffset ← shiftedPackOffset s entry.packOffset
  let shifted := {entry with
    packOffset := packOffset
    header := .ofsDelta baseDistance
    headerSize := (Header.ofsDelta baseDistance).size entry.decompressedSize}
  let crc32 ← shifted.computeCrc32 env
  some ({shifted with crc32 := some crc32},
    trackChange s packOffset entry.packOffset (shifted.headerSize-entry.headerSize) none)

/-- A result of `next()`. -/
abbrev Item := Option (Except Error Entry)

/-- The branch for ref-deltas. -/
def nextRefDelta (entry : Entry) (baseId : ObjectId) : Option (Item × Iter) :=
  match s.changes.reverse.find? (fun c => c.oid = baseId) with
  | none => match env.tryFind baseId with
    | none => some (none,s)
    | some none => some (some (.error (.notFound baseId)),{s with error := true})
    | some (some obj) => match Entry.fromDataObj env obj 0 with
      | .error err => some (some (.error err),s)
      | .ok base => do
        let packOffset ← shiftedPackOffset s entry.packOffset
        let base := {base with packOffset := packOffset}
        let s := trackChange s packOffset entry.packOffset base.bytesInPack (some baseId)
        let (entry,s) ← shiftEntry env s entry base.bytesInPack
        some (some (.ok base),{s with nextDelta := some entry})
  | some base => do
    let packOffset ← shiftedPackOffset s entry.packOffset
    if base.shiftedPackOffset ≤ packOffset then
      let (entry,s) ← shiftEntry env s entry (packOffset-base.shiftedPackOffset)
      some (some (.ok entry),s)
    else none

/-- The index of the record of the entry itself: that of an inserted base comes before it. -/
def ownRecord (basePackOffset index : ℕ) : ℕ :=
  match s.changes[index+1]? with
  | some c => if c.packOffset = basePackOffset then index+1 else index
  | none => index

/-- The new distance of an ofs-delta whose base was at `basePackOffset`. -/
def newDistance (entry : Entry) (baseDistance basePackOffset : ℕ) : Option ℕ :=
  match env.search.run (s.changes.map Change.packOffset) basePackOffset with
  | .ok index => do
    let packOffset ← shiftedPackOffset s entry.packOffset
    let base ← s.changes[ownRecord s basePackOffset index]?
    if base.shiftedPackOffset ≤ packOffset then some (packOffset-base.shiftedPackOffset) else none
  | .error index =>
    let changeSinceOffset := ((s.changes.drop index).map Change.sizeChange).sum
    if 0 ≤ (baseDistance : ℤ)+changeSinceOffset then some ((baseDistance : ℤ)+changeSinceOffset).toNat else none

/-- The branch for all other entries. -/
def nextOther (entry : Entry) : Option (Item × Iter) :=
  if s.inserted ≠ 0 then match entry.header with
    | .ofsDelta baseDistance =>
      if baseDistance ≤ entry.packOffset then do
        let distance ← newDistance env s entry baseDistance (entry.packOffset-baseDistance)
        let (entry,s) ← shiftEntry env s entry distance
        some (some (.ok entry),s)
      else none
    | _ => do
      let packOffset ← shiftedPackOffset s entry.packOffset
      some (some (.ok {entry with packOffset := packOffset}),s)
  else some (some (.ok entry),s)

/-- What happens to an entry of the inner iterator. -/
def nextEntry (entry : Entry) : Option (Item × Iter) :=
  match entry.header with
  | .refDelta baseId => nextRefDelta env s entry baseId
  | _ => nextOther env s entry

/-- `next()`, with what is left of the inner iterator. -/
def next (inner : List (Except Error Entry)) : Option (Item × List (Except Error Entry) × Iter) :=
  if s.error then some (none,inner,s)
  else match s.nextDelta with
    | some delta => some (some (.ok delta),inner,{s with nextDelta := none})
    | none => match inner with
      | [] => some (none,[],s)
      | .error err :: inner => some (some (.error err),inner,s)
      | .ok entry :: inner => (nextEntry env s entry).map (fun r => (r.1,inner,r.2))

end Iteration

/-- All items up to the first `None`. -/
def collect (env : Env) : ℕ → List (Except Error Entry) → Iter → Option (List (Except Error Entry))
  | 0, _, _ => none
  | fuel+1, inner, s => match next env s inner with
    | none => none
    | some (none,_,_) => some []
    | some (some item,inner,s) => (collect env fuel inner s).map (fun items => item :: items)

end Gix.ThinPack
