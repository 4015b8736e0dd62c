import Gix.ChunkFile
import Gix.PackIndex
import Gix.SortedDedup

/-! # Indices of many packs

`gix-pack/src/multi_index/`: the entries of many pack indices in one file of chunks. Of objects that
are in several packs, the one in the most recent pack index is taken. Writing to the file and
progress always succeed, and nothing interrupts. -/
namespace Gix.Pack.MultiIndex
open Gix.ByteCodec Gix.FixedTable Gix.SortedDedup
open Gix.Pack.Index (largeOffsetThreshold highBit)

/-! Entries -/

structure Entry where
  id : ObjectId
  packIndex : UInt32
  packOffset : UInt64
  indexMtime : ℤ
deriving DecidableEq,Repr

/-- A pack index by its file name, which are all in one directory. The time it was modified may
not be available. -/
structure IndexFile where
  name : Bytes
  modified : Option ℤ
  data : Bytes
deriving DecidableEq,Repr

/-- `write::Error`, and panics. -/
inductive WriteError
  | openIndex (e : Index.Error)
  | panic
deriving DecidableEq,Repr

def IndexFile.mtime (index : IndexFile) : ℤ := index.modified.getD 0

def indexEntries (indexId : ℕ) (index : IndexFile) : Except WriteError (List Entry) :=
  match Index.File.atInner index.data with
  | .error e => .error (.openIndex e)
  | .ok file => match file.iter with
    | none => .error .panic
    | some entries => .ok (entries.map (fun e => ⟨e.oid,UInt32.ofNat indexId,e.packOffset,index.mtime⟩))

def collectEntries : ℕ → List IndexFile → Except WriteError (List Entry)
  | _, [] => .ok []
  | indexId, index :: indices => match indexEntries indexId index with
    | .error e => .error e
    | .ok entries => (collectEntries (indexId+1) indices).map (fun rest => entries++rest)

/-- The order of entries, in which the preferred one of an object comes first. -/
def Entry.cmp (l r : Entry) : Ordering :=
  (l.id.cmp r.id).then ((compare l.indexMtime r.indexMtime).swap.then (compare l.packIndex r.packIndex))

def deduplicate (entries : List Entry) : List Entry := dedupByKey Entry.id (entries.mergeSort (fun l r => (l.cmp r).isLE))

/-! Chunks -/

def indexNamesId : Chunk.Id := #v[80,78,65,77]
def fanoutId : Chunk.Id := #v[79,73,68,70]
def lookupId : Chunk.Id := #v[79,73,68,76]
def offsetsId : Chunk.Id := #v[79,79,70,70]
def largeOffsetsId : Chunk.Id := #v[76,79,70,70]

/-- The bytes that make a chunk of names end at a multiple of 4. -/
def namesPadding (count : ℕ) : ℕ := if 4-count%4 < 4 then 4-count%4 else 0

/-- `index_names::storage_size()` -/
def namesStorageSize (names : List Bytes) : Option ℕ :=
  if ∀ name ∈ names, ∀ b ∈ name, b < 128 then
    let count := (names.map (fun name => name.length+1)).sum
    some (count+namesPadding count)
  else none

/-- `index_names::write()` -/
def writeNames (names : List Bytes) : Bytes :=
  let written := names.flatMap (fun name => name++[0])
  written++List.replicate (namesPadding written.length) 0

def numLargeOffsets (entries : List Entry) : Option ℕ :=
  if entries.any (fun e => 2^32-1 < e.packOffset.toNat) then
    some (entries.countP (fun e => largeOffsetThreshold < e.packOffset.toNat))
  else none

/-- The loop of `offsets::write()` with the number of large offsets so far. -/
def offsetRows (largeOffsetsNeeded : Bool) : ℕ → List Entry → Option (List (UInt32 × UInt32))
  | _, [] => some []
  | num, e :: entries =>
    if largeOffsetsNeeded then
      if largeOffsetThreshold < e.packOffset.toNat then
        (offsetRows largeOffsetsNeeded (num+1) entries).map (fun rows => (e.packIndex,UInt32.ofNat num ||| highBit) :: rows)
      else (offsetRows largeOffsetsNeeded num entries).map (fun rows => (e.packIndex,e.packOffset.toUInt32) :: rows)
    else if e.packOffset.toNat < 2^32 then
      (offsetRows largeOffsetsNeeded num entries).map (fun rows => (e.packIndex,e.packOffset.toUInt32) :: rows)
    else none

def offsetRow (row : UInt32 × UInt32) : Bytes := be32 row.1++be32 row.2

/-- `large_offsets::write()` -/
def writeLargeOffsets (entries : List Entry) (numLargeOffsets : ℕ) : Option Bytes :=
  let large := entries.filter (fun e => largeOffsetThreshold < e.packOffset.toNat)
  if large.length = numLargeOffsets then some (large.flatMap (fun e => be64 e.packOffset)) else none

/-! Writing -/

def signature : Bytes := [77,73,68,88]
def headerLen : ℕ := 12

/-- `write_header()` for SHA-1. -/
def writeHeader (numChunks : UInt8) (numIndices : UInt32) : Bytes := signature++[1,1,numChunks,0]++be32 numIndices

def planChunks (names : List Bytes) (entries : List Entry) : Option Chunk.Index := do
  let namesSize ← namesStorageSize names
  let cf ← Chunk.Index.planChunk ⟨[]⟩ indexNamesId namesSize
  let cf ← cf.planChunk fanoutId (4*256)
  let cf ← cf.planChunk lookupId (entries.length*Index.hashLen)
  let cf ← cf.planChunk offsetsId (entries.length*(4+4))
  match numLargeOffsets entries with
  | none => some cf
  | some num => cf.planChunk largeOffsetsId (8*num)

def writeChunk (names : List Bytes) (entries : List Entry) (chunk : Chunk.Id) : Option Bytes :=
  if chunk = indexNamesId then some (writeNames names)
  else if chunk = fanoutId then (fanout (entries.map (fun e => e.id.firstByte))).map (List.flatMap be32)
  else if chunk = lookupId then some (entries.flatMap (fun e => e.id.toList))
  else if chunk = offsetsId then (offsetRows (numLargeOffsets entries).isSome 0 entries).map (List.flatMap offsetRow)
  else if chunk = largeOffsetsId then (numLargeOffsets entries).bind (writeLargeOffsets entries)
  else none

/-- The file for names and entries; the trailer is the hash of all that is written before. -/
def writeFile (hash : Bytes → ObjectId) (names : List Bytes) (entries : List Entry) : Option Bytes :=
  (planChunks names entries).bind (fun cf =>
    if cf.chunks.length < 256 then
      (cf.intoWrite headerLen (writeChunk names entries)).map (fun chunks =>
        let out := writeHeader (UInt8.ofNat cf.chunks.length) (UInt32.ofNat names.length)++chunks
        out++(hash out).toList)
    else none)

def indexPathsSorted (indexPaths : List IndexFile) : List IndexFile := indexPaths.mergeSort (fun a b => (compare a.name b.name).isLE)

def writeFromIndexPaths (hash : Bytes → ObjectId) (indexPaths : List IndexFile) : Except WriteError Bytes :=
  match collectEntries 0 (indexPathsSorted indexPaths) with
  | .error e => .error e
  | .ok entries => match writeFile hash ((indexPathsSorted indexPaths).map IndexFile.name) (deduplicate entries) with
    | none => .error .panic
    | some bytes => .ok bytes

/-! Opening -/

/-- `init::Error`, and panics. -/
inductive Error
  | corrupt (message : String)
  | unsupportedVersion (version : UInt8)
  | unsupportedObjectHash (kind : UInt8)
  | chunkFileDecode (e : Chunk.Error)
  | missingChunk (kind : Chunk.Id)
  | fileTooLarge (kind : Chunk.Id)
  | multiPackFanSize
  | notOrderedAlphabetically
  | missingNullByte
  | unknownTrailerBytes
  | invalidChunkSize (id : Chunk.Id) (message : String)
  | panic
deriving DecidableEq,Repr

structure File where
  data : Bytes
  numIndices : UInt32
  numObjects : UInt32
  fan : List UInt32
  indexNames : List Bytes
  lookupOfs : ℕ
  offsetsOfs : ℕ
  largeOffsetsOfs : Option ℕ
deriving DecidableEq,Repr

/-- `index_names::from_bytes()`, with the names so far. Paths of one component compare as their
bytes do. -/
def namesFromBytes : ℕ → Bytes → List Bytes → Except Error (List Bytes)
  | 0, chunk, out => if chunk.all (fun b => b = 0) then .ok out else .error .unknownTrailerBytes
  | n+1, chunk, out => match cut 0 chunk with
    | none => .error .missingNullByte
    | some (path,chunk) =>
      if (out.getLast?.elim true (fun previous => compare previous path = .lt)) then namesFromBytes n chunk (out++[path])
      else .error .notOrderedAlphabetically

/-- `fanout::from_bytes()` -/
def fanFromBytes (chunk : Bytes) : Option (List UInt32) :=
  if chunk.length = 4*256 then ((chunksExact 4 chunk).take 256).mapM readU32 else none

def dataById (data : Bytes) (chunks : Chunk.Index) (kind : Chunk.Id) : Except Error Bytes :=
  match chunks.offsetById kind with
  | none => .error (.fileTooLarge kind)
  | some (start,stop) => match slice data start (stop-start) with
    | none => .error .panic
    | some chunk => .ok chunk

/-- `validated_usize_offset_by_id()` with what makes a range valid. -/
def validatedOffset (chunks : Chunk.Index) (kind : Chunk.Id) (isValid : ℕ → Option Bool) (message : String) : Except Error ℕ :=
  match chunks.offsetById kind with
  | none => .error (.missingChunk kind)
  | some (start,stop) => match isValid (stop-start) with
    | none => .error .panic
    | some true => .ok start
    | some false => .error (.invalidChunkSize kind message)

def orMissing : Except Error ℕ → Except Error (Option ℕ)
  | .ok start => .ok (some start)
  | .error (.missingChunk _) => .ok none
  | .error e => .error e

/-- What the header says: the number of chunks and of indices. -/
def readHeader (data : Bytes) : Except Error (UInt8 × UInt32) :=
  if data.take 4 ≠ signature then .error (.corrupt "Invalid signature")
  else match data[4]?, data[5]?, data[6]?, readU32 ((data.drop 8).take 4) with
    | some version, some objectHash, some numChunks, some numIndices =>
      if version ≠ 1 then .error (.unsupportedVersion version)
      else if objectHash ≠ 1 then .error (.unsupportedObjectHash objectHash)
      else .ok (numChunks,numIndices)
    | _, _, _, _ => .error .panic

/-- The part of `try_from()` from the chunk with ids on. -/
def openTables (data : Bytes) (numIndices : UInt32) (chunks : Chunk.Index) (indexNames : List Bytes) (fan : List UInt32) (numObjects : UInt32) :
    Except Error File := do
  let lookupOfs ← validatedOffset chunks lookupId (fun size => some (size/Index.hashLen = numObjects.toNat))
    "The chunk with alphabetically ordered object ids doesn't have the correct size"
  let offsetsOfs ← validatedOffset chunks offsetsId (fun size => if numObjects = 0 then none else some (size/numObjects.toNat = 4+4))
    "The chunk with offsets into the pack doesn't have the correct size"
  let largeOffsetsOfs ← orMissing (validatedOffset chunks largeOffsetsId (fun size => some (size%8 = 0))
    "The chunk with large offsets into the pack doesn't have the correct size")
  let checksumOffset ← chunks.highestOffset.elim (.error .panic) .ok
  let trailer ← (sliceFrom data checksumOffset).elim (.error .panic) .ok
  if trailer.length ≠ Index.hashLen then
    .error (.corrupt "Trailing checksum didn't have the expected size or there were unknown bytes after the checksum.")
  else .ok ⟨data,numIndices,numObjects,fan,indexNames,lookupOfs,offsetsOfs,largeOffsetsOfs⟩

/-- The part of `try_from()` that is about chunks. -/
def openChunks (data : Bytes) (numIndices : UInt32) (chunks : Chunk.Index) : Except Error File := do
  let names ← dataById data chunks indexNamesId
  let indexNames ← namesFromBytes numIndices.toNat names []
  let fan ← dataById data chunks fanoutId
  let fan ← (fanFromBytes fan).elim (.error .multiPackFanSize) .ok
  let numObjects ← fan[255]?.elim (.error .panic) .ok
  openTables data numIndices chunks indexNames fan numObjects

/-- `TryFrom<&Path> for File` -/
def File.tryFrom (data : Bytes) : Except Error File :=
  if data.length < headerLen+Chunk.sizeForEntries 4+4*256+Index.hashLen then
    .error (.corrupt "multi-index file is truncated and too short")
  else do
    let (numChunks,numIndices) ← readHeader data
    match Chunk.Index.fromBytes data headerLen numChunks.toNat with
    | .error e => .error (.chunkFileDecode e)
    | .ok chunks => openChunks data numIndices chunks

/-! Access -/

/-- `access::Entry` -/
structure FileEntry where
  oid : ObjectId
  packOffset : UInt64
  packIndex : UInt32
deriving DecidableEq,Repr

namespace File
variable (f : File)

def oidAtIndex (index : ℕ) : Option ObjectId :=
  if index < f.numObjects.toNat then (slice f.data (f.lookupOfs+index*Index.hashLen) Index.hashLen).bind ObjectId.fromBytes else none

def lookup (id : ObjectId) : Option (Option ℕ) := Pack.lookup id f.fan f.oidAtIndex

def packOffset (ofs32 : UInt32) : Option UInt64 :=
  if ofs32 &&& highBit = highBit then match f.largeOffsetsOfs with
    | some offsets64 => (slice f.data (offsets64+(ofs32 ^^^ highBit).toNat*8) 8).bind readU64
    | none => some ofs32.toUInt64
  else some ofs32.toUInt64

def packIdAndPackOffsetAtIndex (index : ℕ) : Option (UInt32 × UInt64) := do
  let packIndex ← (slice f.data (f.offsetsOfs+index*(4+4)) 4).bind readU32
  let ofs32 ← (slice f.data (f.offsetsOfs+index*(4+4)+4) 4).bind readU32
  let packOffset ← f.packOffset ofs32
  return (packIndex,packOffset)

def iter : Option (List FileEntry) := (List.range f.numObjects.toNat).mapM (fun idx => do
  let (packIndex,packOffset) ← f.packIdAndPackOffsetAtIndex idx
  let oid ← f.oidAtIndex idx
  return ⟨oid,packOffset,packIndex⟩)

end File
end Gix.Pack.MultiIndex
