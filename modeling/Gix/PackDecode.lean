import Gix.DeltaApply

/-! # Decoding an entry of a pack

`gix-pack/src/data/file/decode/`: an object is stored as it is or as a delta to another object,
which may be a delta again. All deltas of such a chain are decompressed into one buffer along
with the object at its end, and are then applied one after the other.

zlib, the memory and the way to find objects by their id are given. Numbers are of 64 bits and wrap
around. -/
namespace Gix.Pack.Decode
variable {σ : Type}

/-- `decode::Error`, panics, and a number of steps that isn't enough. -/
inductive Failure
  | zlibInflate
  | deltaBaseUnresolved (id : ObjectId)
  | entryType (e : UnsupportedType)
  | outOfMemory
  | panic
  | unfinished
deriving DecidableEq,Repr

structure File where
  data : Bytes
  id : ℕ

structure Env where
  /-- How many bytes were read, and what is written to a buffer of the given size. -/
  inflate : Bytes → ℕ → Option (ℕ × Bytes)
  /-- The longest vector there can be. -/
  memory : ℕ
  memory_lt : memory < 2^63

def orPanic {β : Type} : Option β → Except Failure β
  | some b => .ok b
  | none => .error .panic

/-- `Vec::try_reserve()`, called with the size to be reached. -/
def Env.tryReserve (env : Env) (out : Bytes) (size : ℕ) : Except Failure Unit :=
  if size ≤ out.length ∨ size ≤ env.memory then .ok () else .error .outOfMemory

def resize (out : Bytes) (size : ℕ) : Bytes := out.take size++List.replicate (size-out.length) 0

/-- A buffer to which something is written from its start. -/
def overwrite (out written : Bytes) : Bytes := written.take out.length++out.drop written.length

def range (l : Bytes) (start stop : ℕ) : Option Bytes := if start ≤ stop then FixedTable.slice l start (stop-start) else none

def copyWithin (out : Bytes) (start stop dest : ℕ) : Except Failure Bytes := do
  let piece ← orPanic (range out start stop)
  if dest+piece.length ≤ out.length then return out.take dest++piece++out.drop (dest+piece.length) else .error .panic

def basePackOffset (entry : DataEntry) (distance : ℕ) : Except Failure ℕ :=
  let packOffset := (entry.dataOffset+2^64-entry.header.size entry.decompressedSize)%2^64
  if distance ≤ packOffset then .ok (packOffset-distance) else .error .panic

namespace File

def entry (f : File) (offset : ℕ) : Except Failure DataEntry := do
  let objectData ← orPanic (FixedTable.sliceFrom f.data offset)
  match ← orPanic (DataEntry.fromBytes objectData offset) with
  | .error e => .error (.entryType e)
  | .ok entry => .ok entry

/-- `decompress_entry_from_data_offset_2()`: what was read and written, and the buffer. -/
def decompressEntryFromDataOffset (f : File) (env : Env) (offset : ℕ) (out : Bytes) : Except Failure (ℕ × ℕ × Bytes) :=
  if offset < f.data.length then
    match env.inflate (f.data.drop offset) out.length with
    | some (consumed,written) => .ok (consumed,written.length,overwrite out written)
    | none => .error .zlibInflate
  else .error .panic

end File

/-! The object itself -/

inductive ResolvedBase
  | inPack (entry : DataEntry)
  | outOfPack (kind : ObjectKind) (stop : ℕ)
deriving DecidableEq,Repr

/-- Looks up an object, with the buffer to write it to. -/
abbrev Resolve := ObjectId → Bytes → Option (ResolvedBase × Bytes)

structure Outcome where
  kind : ObjectKind
  numDeltas : ℕ
  decompressedSize : ℕ
  compressedSize : ℕ
  objectSize : ℕ
deriving DecidableEq,Repr

def Outcome.fromObjectEntry (kind : ObjectKind) (entry : DataEntry) (compressedSize : ℕ) : Outcome :=
  ⟨kind,0,entry.decompressedSize,compressedSize,entry.decompressedSize⟩

/-- `cache::DecodeEntry` -/
structure Cache (σ : Type) where
  get : ℕ × ℕ → Bytes → σ → Option (ObjectKind × ℕ) × Bytes × σ
  put : ℕ × ℕ → Bytes → ObjectKind → ℕ → σ → σ

def never : Cache Unit := ⟨fun _ out s => (none,out,s),fun _ _ _ _ s => s⟩

/-- `Delta`; where its instructions are and what sizes it has is known once it is decompressed. -/
structure ChainDelta where
  data : ℕ × ℕ
  baseSize : ℕ
  resultSize : ℕ
  decompressedSize : ℕ
  dataOffset : ℕ
deriving DecidableEq,Repr

/-- The variables of `resolve_deltas()` -/
structure Search where
  /-- From the delta for the object itself to the oldest one -/
  chain : List ChainDelta
  cursor : DataEntry
  baseBufferSize : Option ℕ
  objectKind : Option ObjectKind
  consumedInput : Option ℕ
  totalDeltaDataSize : ℕ
  out : Bytes

def Search.push (s : Search) : Search :=
  { s with
    totalDeltaDataSize := (s.totalDeltaDataSize+s.cursor.decompressedSize)%2^64
    chain := s.chain++[⟨(0,s.cursor.decompressedSize),0,0,s.cursor.decompressedSize,s.cursor.dataOffset⟩] }

namespace File

def baseOf (f : File) (resolve : Resolve) (cursor : DataEntry) (out : Bytes) : Except Failure (ResolvedBase × Bytes) :=
  match cursor.header with
  | .ofsDelta distance => do
    let offset ← basePackOffset cursor distance
    let entry ← f.entry offset
    return (.inPack entry,out)
  | .refDelta id => match resolve id out with
    | some found => .ok found
    | none => .error (.deltaBaseUnresolved id)
  | _ => .error .panic

/-- Follows the chain to the first full base. -/
def findBase (f : File) (resolve : Resolve) (c : Cache σ) : ℕ → Search → σ → Except Failure Search × σ
  | 0, _, cache => (.error .unfinished,cache)
  | fuel+1, s, cache =>
    if s.cursor.header.isDelta then
      match c.get (f.id,s.cursor.dataOffset) s.out cache with
      | (some (kind,packedSize),out,cache) =>
        (.ok { s with
          out := out
          baseBufferSize := some out.length
          objectKind := some kind
          consumedInput := if s.totalDeltaDataSize = 0 then some packedSize else s.consumedInput },cache)
      | (none,out,cache) =>
        match f.baseOf resolve s.cursor out with
        | .error e => (.error e,cache)
        | .ok (.inPack entry,out) => f.findBase resolve c fuel { s.push with cursor := entry, out := out } cache
        | .ok (.outOfPack kind stop,out) =>
          (.ok { s.push with baseBufferSize := some stop, objectKind := some kind, out := out },cache)
    else (.ok s,cache)

/-- The first pass, from the oldest delta on: each is decompressed to where the previous one ends. -/
def readDeltas (f : File) (env : Env) : List ChainDelta → ℕ → Bytes → Except Failure (List ChainDelta × Option ℕ × Bytes)
  | [], _, instructions => .ok ([],none,instructions)
  | delta :: rest, start, instructions => do
    let own ← orPanic (FixedTable.slice instructions 0 delta.decompressedSize)
    let (consumed,_,own) ← f.decompressEntryFromDataOffset env delta.dataOffset own
    let following := instructions.drop delta.decompressedSize
    let (baseSize,offset) ← orPanic (Delta.decodeHeaderSize false (own++following))
    let afterBase ← orPanic (FixedTable.sliceFrom (own++following) offset)
    let (resultSize,offset') ← orPanic (Delta.decodeHeaderSize false afterBase)
    let stop := start+delta.decompressedSize
    let (deltas,consumedInput,following) ← f.readDeltas env rest stop following
    return ({ delta with data := (start+(offset+offset'),stop), baseSize := baseSize, resultSize := resultSize } :: deltas,
      if rest.isEmpty then some consumed else consumedInput,own++following)

end File

def biggestResultSize : List ChainDelta → ℕ
  | [] => 0
  | delta :: rest => max (max delta.baseSize delta.resultSize) (biggestResultSize rest)

/-- Moves the deltas behind both buffers. -/
def rescue (out : Bytes) (start stop secondBufferEnd : ℕ) : Except Failure Bytes :=
  if start < secondBufferEnd then copyWithin out start stop secondBufferEnd
  else do
    let buffers ← orPanic (FixedTable.slice out 0 secondBufferEnd)
    let piece ← orPanic (range buffers start stop)
    if piece.length = (out.drop secondBufferEnd).length then return buffers++piece else .error .panic

/-- Applies all deltas, from the oldest on, and swaps the buffers after each of them. -/
def applyDeltas (instructions : Bytes) : List ChainDelta → Bytes → Bytes → Except Failure (Bytes × Bytes)
  | [], source, target => .ok (source,target)
  | delta :: rest, source, target => do
    let data ← orPanic (range instructions delta.data.1 delta.data.2)
    let base ← orPanic (FixedTable.slice source 0 delta.baseSize)
    let _ ← orPanic (FixedTable.slice target 0 delta.resultSize)
    let result ← orPanic (Delta.apply base delta.resultSize data)
    applyDeltas instructions rest (result++target.drop delta.resultSize) source

/-- The second pass, with `out` as source buffer, target buffer and instructions. The target comes
first after an odd number of swaps. -/
def applyChain (out : Bytes) (deltas : List ChainDelta) (firstBufferEnd secondBufferEnd : ℕ) : Except Failure (ℕ × Bytes) := do
  let buffers ← orPanic (FixedTable.slice out 0 secondBufferEnd)
  let source ← orPanic (FixedTable.slice buffers 0 firstBufferEnd)
  let (source,target) ← applyDeltas (out.drop secondBufferEnd) deltas source (buffers.drop firstBufferEnd)
  let lastResultSize ← orPanic (deltas.getLast?.map ChainDelta.resultSize)
  let buffers ←
    if deltas.length%2 = 1 then do
      let result ← orPanic (FixedTable.slice source 0 lastResultSize)
      let _ ← orPanic (FixedTable.slice target 0 lastResultSize)
      pure (result++target.drop lastResultSize++source)
    else pure (source++target)
  return (lastResultSize,(buffers++out.drop secondBufferEnd).take lastResultSize)

namespace File

/-- Fills the first buffer unless the base is there already. -/
def fillBase (f : File) (env : Env) (s : Search) (out : Bytes) : Except Failure (Option ObjectKind × Bytes) :=
  match s.baseBufferSize with
  | some _ => .ok (s.objectKind,out)
  | none => do
    let (_,_,out) ← f.decompressEntryFromDataOffset env s.cursor.dataOffset out
    return (s.cursor.header.asKind,out)

/-- The first pass as a whole. The deltas end up behind what is in the buffer already. -/
def readChain (f : File) (env : Env) (s : Search) : Except Failure (List ChainDelta × Option ℕ × Bytes) := do
  let start := s.baseBufferSize.getD 0
  let stop := (start+s.totalDeltaDataSize)%2^64
  env.tryReserve s.out stop
  let out := resize s.out stop
  let instructions ← orPanic (range out start stop)
  let (deltas,consumedInput,instructions) ← f.readDeltas env s.chain.reverse 0 instructions
  return (deltas,consumedInput,out.take start++instructions)

def composeChain (f : File) (env : Env) (first : DataEntry) (s : Search) (deltas : List ChainDelta) (consumedInput : Option ℕ) (out : Bytes) :
    Except Failure (Outcome × Bytes) := do
  let start := s.baseBufferSize.getD 0
  let stop := (start+s.totalDeltaDataSize)%2^64
  let firstBufferEnd := biggestResultSize deltas
  let secondBufferEnd := (firstBufferEnd+firstBufferEnd)%2^64
  let outSize := (secondBufferEnd+s.totalDeltaDataSize)%2^64
  env.tryReserve out outSize
  let out ← rescue (resize out outSize) start stop secondBufferEnd
  let (objectKind,out) ← f.fillBase env s out
  let (lastResultSize,out) ← applyChain out deltas firstBufferEnd secondBufferEnd
  let kind ← orPanic objectKind
  let consumedInput ← orPanic (consumedInput <|> s.consumedInput)
  return (⟨kind,s.chain.length%2^32,first.decompressedSize,consumedInput,lastResultSize⟩,out)

/-- `resolve_deltas()` once the base is found. -/
def resolveChain (f : File) (env : Env) (first : DataEntry) (s : Search) : Except Failure (Outcome × Bytes) := do
  let (deltas,consumedInput,out) ← f.readChain env s
  f.composeChain env first s deltas consumedInput out

def resolveDeltas (f : File) (env : Env) (resolve : Resolve) (c : Cache σ) (fuel : ℕ) (last : DataEntry) (out : Bytes) (cache : σ) :
    Except Failure (Outcome × Bytes) × σ :=
  match f.findBase resolve c fuel ⟨[],last,none,none,none,0,out⟩ cache with
  | (.error e,cache) => (.error e,cache)
  | (.ok s,cache) =>
    if s.chain.isEmpty then
      (do
        let kind ← orPanic s.objectKind
        let consumedInput ← orPanic s.consumedInput
        return (.fromObjectEntry kind last consumedInput,s.out),cache)
    else match f.resolveChain env last s with
      | .error e => (.error e,cache)
      | .ok (outcome,out) => (.ok (outcome,out),c.put (f.id,last.dataOffset) out outcome.kind outcome.compressedSize cache)

/-- `decode_entry()` for an object that isn't a delta. -/
def decodeObject (f : File) (env : Env) (kind : ObjectKind) (entry : DataEntry) (out : Bytes) : Except Failure (Outcome × Bytes) := do
  env.tryReserve out entry.decompressedSize
  let (consumed,_,out) ← f.decompressEntryFromDataOffset env entry.dataOffset (resize out entry.decompressedSize)
  return (.fromObjectEntry kind entry consumed,out)

def decodeEntry (f : File) (env : Env) (resolve : Resolve) (c : Cache σ) (fuel : ℕ) (entry : DataEntry) (out : Bytes) (cache : σ) :
    Except Failure (Outcome × Bytes) × σ :=
  match entry.header.asKind with
  | some kind => (f.decodeObject env kind entry out,cache)
  | none => f.resolveDeltas env resolve c fuel entry out cache

end File

/-! Its header alone -/

/-- `header::ResolvedBase` -/
inductive HeaderBase
  | inPack (entry : DataEntry)
  | outOfPack (kind : ObjectKind) (numDeltas : Option ℕ)
deriving DecidableEq,Repr

/-- `header::Outcome` -/
structure HeaderOutcome where
  kind : ObjectKind
  objectSize : ℕ
  numDeltas : ℕ
deriving DecidableEq,Repr

namespace File

def decodeDeltaObjectSize (f : File) (env : Env) (entry : DataEntry) : Except Failure ℕ := do
  let (_,used,buf) ← f.decompressEntryFromDataOffset env entry.dataOffset (List.replicate 32 0)
  let buf ← orPanic (FixedTable.slice buf 0 used)
  let (_,offset) ← orPanic (Delta.decodeHeaderSize false buf)
  let afterBase ← orPanic (FixedTable.sliceFrom buf offset)
  let (resultSize,_) ← orPanic (Delta.decodeHeaderSize false afterBase)
  return resultSize

def headerBaseOf (f : File) (resolve : ObjectId → Option HeaderBase) (entry : DataEntry) : Except Failure HeaderBase :=
  match entry.header with
  | .ofsDelta distance => do
    let offset ← basePackOffset entry distance
    let base ← f.entry offset
    return .inPack base
  | .refDelta id => match resolve id with
    | some found => .ok found
    | none => .error (.deltaBaseUnresolved id)
  | _ => .error .panic

/-- The loop of `decode_header()` -/
def headerLoop (f : File) (env : Env) (resolve : ObjectId → Option HeaderBase) : ℕ → DataEntry → ℕ → Option ℕ → Except Failure HeaderOutcome
  | 0, _, _, _ => .error .unfinished
  | fuel+1, entry, numDeltas, firstDeltaDecompressedSize =>
    match entry.header.asKind with
    | some kind => .ok ⟨kind,firstDeltaDecompressedSize.getD entry.decompressedSize,numDeltas⟩
    | none => do
      let numDeltas := (numDeltas+1)%2^32
      let size ← match firstDeltaDecompressedSize with
        | some size => pure size
        | none => f.decodeDeltaObjectSize env entry
      match ← f.headerBaseOf resolve entry with
      | .inPack base => f.headerLoop env resolve fuel base numDeltas (some size)
      | .outOfPack kind originNumDeltas => return ⟨kind,size,(originNumDeltas.getD 0+numDeltas)%2^32⟩

def decodeHeader (f : File) (env : Env) (resolve : ObjectId → Option HeaderBase) (fuel : ℕ) (entry : DataEntry) : Except Failure HeaderOutcome :=
  f.headerLoop env resolve fuel entry 0 none

end File
end Gix.Pack.Decode
