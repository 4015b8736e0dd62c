import Gix.PackFan
import Gix.FixedTable
import Gix.ByteCodec

/-! # Pack indices

`gix-pack/src/index/`: the file has a fan-out table and, in the order of ids, tables of ids, of
checksums and of offsets. Offsets that do not fit are in one more table. `none` is a panic. -/
namespace Gix.Pack
open Gix.ByteCodec Gix.FixedTable

/-! Numbers -/

def be32 (v : UInt32) : Bytes := beBytes 4 v.toNat
def be64 (v : UInt64) : Bytes := beBytes 8 v.toNat

def readU32 (b : Bytes) : Option UInt32 := if b.length = 4 then some (UInt32.ofNat (beNat b)) else none

def readU64 (b : Bytes) : Option UInt64 := if b.length = 8 then some (UInt64.ofNat (beNat b)) else none

@[simp] theorem be32_length (v : UInt32) : (be32 v).length=4 := beBytes_length 4 _
@[simp] theorem be64_length (v : UInt64) : (be64 v).length=8 := beBytes_length 8 _

@[simp] theorem readU32_be32 (v : UInt32) : readU32 (be32 v)=some v := by
  have hv : v.toNat < 256^4 := v.toNat_lt
  rw [readU32,if_pos (be32_length v),be32,beNat_beBytes hv,UInt32.ofNat_toNat]

@[simp] theorem readU64_be64 (v : UInt64) : readU64 (be64 v)=some v := by
  have hv : v.toNat < 256^8 := v.toNat_lt
  rw [readU64,if_pos (be64_length v),be64,beNat_beBytes hv,UInt64.ofNat_toNat]

namespace Index

def largeOffsetThreshold : ℕ := 0x7fffffff
def highBit : UInt32 := 0x80000000
def v2Signature : Bytes := [255,116,79,99]
def fanLen : ℕ := 256
def hashLen : ℕ := 20
def v1HeaderSize : ℕ := fanLen*4
def v2HeaderSize : ℕ := 4*2+fanLen*4

inductive Version | v1 | v2 deriving DecidableEq,Repr

def Version.toU32 : Version → UInt32
  | v1 => 1
  | v2 => 2

/-! Writing -/

/-- `cache::delta::Item < TreeEntry>` -/
structure TreeEntry where
  offset : UInt64
  id : ObjectId
  crc32 : UInt32
deriving DecidableEq,Repr

def TreeEntry.isLarge (e : TreeEntry) : Bool := largeOffsetThreshold < e.offset.toNat

/-- The loop over offsets, with the 64 bit ones so far. -/
def writeOffsets : List TreeEntry → List UInt64 → Option (List UInt32 × List UInt64)
  | [], offsets64 => some ([],offsets64)
  | e :: entries, offsets64 =>
    if e.isLarge then
      if offsets64.length < largeOffsetThreshold then
        (writeOffsets entries (offsets64++[e.offset])).map
          (fun r => ((UInt32.ofNat ((offsets64++[e.offset]).length-1) ||| highBit) :: r.1,r.2))
      else none
    else (writeOffsets entries offsets64).map (fun r => (e.offset.toUInt32 :: r.1,r.2))

/-- What is written before the trailer. -/
def content (version : Version) (fan : List UInt32) (entries : List TreeEntry) (offsets : List UInt32) (offsets64 : List UInt64)
    (packHash : ObjectId) : Bytes :=
  v2Signature++be32 version.toU32++fan.flatMap be32++(entries.flatMap (fun e => e.id.toList)++(entries.flatMap (fun e => be32 e.crc32)++
    (offsets.flatMap be32++(offsets64.flatMap be64++packHash.toList))))

/-- `encode::write_to()`; the trailer is the hash of all that is written before. -/
def writeTo (hash : Bytes → ObjectId) (entriesSortedByOid : List TreeEntry) (packHash : ObjectId) (kind : Version) : Option Bytes :=
  if kind = .v2 ∧ entriesSortedByOid.length ≤ 2^32-1 then
    (fanout (entriesSortedByOid.map (fun e => e.id.firstByte))).bind (fun fan =>
      (writeOffsets entriesSortedByOid []).map (fun r =>
        let out := content kind fan entriesSortedByOid r.1 r.2 packHash
        out++(hash out).toList))
  else none

/-! Opening -/

/-- `init::Error`, and panics. -/
inductive Error
  | corrupt (message : String)
  | unsupportedVersion (version : UInt32)
  | panic
deriving DecidableEq,Repr

structure File where
  data : Bytes
  version : Version
  numObjects : UInt32
  fan : List UInt32
deriving DecidableEq,Repr

def readFan (d : Bytes) : Option (List UInt32) :=
  if fanLen*4 ≤ d.length then ((chunksExact 4 d).take fanLen).mapM readU32 else none

def readVersion (data : Bytes) : Except Error (Version × Bytes) :=
  if data.take 4 = v2Signature then
    match readU32 ((data.drop 4).take 4) with
    | none => .error .panic
    | some version => if version ≠ Version.v2.toU32 then .error (.unsupportedVersion version) else .ok (.v2,data.drop 8)
  else .ok (.v1,data)

def File.atInner (data : Bytes) : Except Error File :=
  let idxLen := data.length
  if idxLen < fanLen*4+hashLen*2 then .error (.corrupt s!"Pack index of size {idxLen} is too small for even an empty index")
  else match readVersion data with
    | .error e => .error e
    | .ok (kind,d) => match readFan d with
      | none => .error .panic
      | some fan => match fan[fanLen-1]? with
        | none => .error .panic
        | some numObjects => .ok ⟨data,kind,numObjects,fan⟩

/-! Access -/

structure Entry where
  oid : ObjectId
  packOffset : UInt64
  crc32 : Option UInt32
deriving DecidableEq,Repr

namespace File
variable (f : File)

def offsetCrc32V2 : ℕ := v2HeaderSize+f.numObjects.toNat*hashLen
def offsetPackOffsetV2 : ℕ := f.offsetCrc32V2+f.numObjects.toNat*4
def offsetPackOffset64V2 : ℕ := f.offsetPackOffsetV2+f.numObjects.toNat*4

def packOffsetFromOffsetV2 (offset : Bytes) (pack64Offset : ℕ) : Option UInt64 :=
  (readU32 offset).bind (fun ofs32 =>
    if ofs32 &&& highBit = highBit then (slice f.data (pack64Offset+(ofs32 ^^^ highBit).toNat*8) 8).bind readU64
    else some ofs32.toUInt64)

def iterV1 : Option (List Entry) :=
  (sliceFrom f.data v1HeaderSize).bind (fun d => ((chunksExact (4+hashLen) d).take f.numObjects.toNat).mapM (fun c => do
    let oid ← ObjectId.fromBytes (c.drop 4)
    let ofs ← readU32 (c.take 4)
    return ⟨oid,ofs.toUInt64,none⟩))

def records (start width : ℕ) : Option (List Bytes) := (sliceFrom f.data start).map (fun d => (chunksExact width d).take f.numObjects.toNat)

def iterV2 : Option (List Entry) := do
  let oids ← f.records v2HeaderSize hashLen
  let crcs ← f.records f.offsetCrc32V2 4
  let offsets ← f.records f.offsetPackOffsetV2 4
  guard (oids.length = crcs.length ∧ crcs.length = offsets.length)
  (oids.zip (crcs.zip offsets)).mapM (fun r => do
    let oid ← ObjectId.fromBytes r.1
    let packOffset ← f.packOffsetFromOffsetV2 r.2.2 f.offsetPackOffset64V2
    let crc32 ← readU32 r.2.1
    return ⟨oid,packOffset,some crc32⟩)

def iter : Option (List Entry) := match f.version with
  | .v2 => f.iterV2
  | .v1 => f.iterV1

def oidAtIndex (index : ℕ) : Option ObjectId :=
  let start := match f.version with
    | .v2 => v2HeaderSize+index*hashLen
    | .v1 => v1HeaderSize+index*(4+hashLen)+4
  (slice f.data start hashLen).bind ObjectId.fromBytes

def lookup (id : ObjectId) : Option (Option ℕ) := Pack.lookup id f.fan f.oidAtIndex

/-- The offsets of `sorted_offsets()` before they are sorted. -/
def offsets : Option (List UInt64) := match f.version with
  | .v1 => f.iter.map (List.map Entry.packOffset)
  | .v2 => do
    let offsets32 ← f.records f.offsetPackOffsetV2 4
    guard (f.numObjects.toNat = offsets32.length)
    offsets32.mapM (fun offset => f.packOffsetFromOffsetV2 offset f.offsetPackOffset64V2)

def sortedOffsets : Option (List UInt64) := f.offsets.map (fun ofs => ofs.mergeSort (fun a b => a ≤ b))

end File
end Index
end Gix.Pack
