import Mathlib

/-! # Entries of a pack

`gix-pack/src/data/entry/`: the header of an entry has the kind of object and its size, for a
delta also where its base is. Bytes are taken apart by division; numbers in a header are of 64
bits and wrap around. -/
namespace Gix.Pack

abbrev Bytes := List UInt8

/-- Ids are of one kind, SHA-1. -/
abbrev ObjectId := Vector UInt8 20

def ObjectId.null : ObjectId := Vector.replicate 20 0

inductive ObjectKind | tree | blob | commit | tag deriving DecidableEq,Repr

inductive Header
  | commit | tree | blob | tag
  | refDelta (baseId : ObjectId)
  | ofsDelta (baseDistance : ℕ)
deriving DecidableEq,Repr

namespace Header

def asKind : Header → Option ObjectKind
  | tree => some .tree
  | blob => some .blob
  | commit => some .commit
  | tag => some .tag
  | refDelta _ | ofsDelta _ => none

def asTypeId : Header → ℕ
  | blob => 3
  | tree => 2
  | commit => 1
  | tag => 4
  | ofsDelta _ => 6
  | refDelta _ => 7

def isDelta : Header → Bool
  | ofsDelta _ | refDelta _ => true
  | _ => false

end Header

/-! Writing -/

/-- The loop of `leb64_encode()` over the rest of its buffer, from the back. -/
def leb64Loop : ℕ → ℕ → Bytes → Bytes
  | 0, _, buf => buf
  | k+1, n, buf =>
    if n/128 = 0 then buf
    else leb64Loop k (n/128-1) (UInt8.ofNat (128+(n/128-1)%128) :: buf)

/-- `leb64_encode()` with its buffer of ten bytes. -/
def leb64Encode (n : ℕ) : Bytes := leb64Loop 9 n [UInt8.ofNat (n%128)]

/-- The loop of `write_to()` over what is left of the size; `c` is the byte to be written. -/
def sizeBytes : ℕ → ℕ → ℕ → Bytes
  | 0, c, _ => [UInt8.ofNat c]
  | fuel+1, c, size =>
    if size = 0 then [UInt8.ofNat c]
    else UInt8.ofNat (c+128) :: sizeBytes fuel (size%128) (size/128)

namespace Header

def baseBytes : Header → Bytes
  | refDelta baseId => baseId.toList
  | ofsDelta baseDistance => leb64Encode baseDistance
  | blob | tree | commit | tag => []

/-- `write_to()`; the size itself bounds the number of its bytes. -/
def writeTo (h : Header) (decompressedSize : ℕ) : Bytes :=
  sizeBytes decompressedSize (h.asTypeId*16+decompressedSize%16) (decompressedSize/16)++h.baseBytes

def size (h : Header) (decompressedSize : ℕ) : ℕ := (h.writeTo decompressedSize).length

end Header

/-! Reading -/

/-- The loop of `parse_header_info()`: the size, and how many bytes it took. -/
def sizeLoop (c : UInt8) (rest : Bytes) (size s i : ℕ) : Option (ℕ × ℕ) :=
  if c.toNat < 128 then some (size,i)
  else match rest with
    | [] => none
    | c' :: rest => sizeLoop c' rest ((size+c'.toNat%128*2^(s%64))%2^64) (s+7) (i+1)

/-- `parse_header_info()`: type, size, and the number of bytes. -/
def parseHeaderInfo : Bytes → Option (ℕ × ℕ × ℕ)
  | [] => none
  | c :: rest => (sizeLoop c rest (c.toNat%16) 4 1).map (fun r => (c.toNat/16%8,r))

/-- The loop of `leb64()`. -/
def lebLoop (c : UInt8) (rest : Bytes) (value i : ℕ) : Option (ℕ × ℕ) :=
  if c.toNat < 128 then some (value,i)
  else match rest with
    | [] => none
    | c' :: rest => lebLoop c' rest (((value+1)*128+c'.toNat%128)%2^64) (i+1)

/-- `leb64()` of `gix-features`. -/
def leb64 : Bytes → Option (ℕ × ℕ)
  | [] => none
  | c :: rest => lebLoop c rest (c.toNat%128) 1

/-- `data::Entry` -/
structure DataEntry where
  header : Header
  decompressedSize : ℕ
  dataOffset : ℕ
deriving DecidableEq,Repr

/-- `ObjectId::from_bytes_or_panic()` -/
def ObjectId.fromBytes (d : Bytes) : Option ObjectId :=
  if h : d.length = 20 then some ⟨d.toArray,by simpa using h⟩ else none

theorem ObjectId.fromBytes_toList (id : ObjectId) : ObjectId.fromBytes id.toList=some id := by
  have hlen : id.toList.length=20 := by simp
  rw [ObjectId.fromBytes,dif_pos hlen]
  congr 1

theorem ObjectId.toList_fromBytes {d : Bytes} {id : ObjectId} (h : ObjectId.fromBytes d=some id) : id.toList=d := by
  unfold ObjectId.fromBytes at h
  split at h
  · cases h
    simp
  · simp at h

/-- `decode::Error`: the type is not supported. -/
structure UnsupportedType where
  typeId : ℕ
deriving DecidableEq,Repr

/-- `Entry::from_bytes()` for ids of 20 bytes; `none` if the bytes come to an end. -/
def DataEntry.fromBytes (d : Bytes) (packOffset : ℕ) : Option (Except UnsupportedType DataEntry) := do
  let (typeId,size,consumed) ← parseHeaderInfo d
  match typeId with
  | 6 =>
    let (distance,lebBytes) ← leb64 (d.drop consumed)
    some (.ok ⟨.ofsDelta distance,size,packOffset+(consumed+lebBytes)⟩)
  | 7 =>
    let baseId ← ObjectId.fromBytes ((d.drop consumed).take 20)
    some (.ok ⟨.refDelta baseId,size,packOffset+(consumed+20)⟩)
  | 3 => some (.ok ⟨.blob,size,packOffset+consumed⟩)
  | 2 => some (.ok ⟨.tree,size,packOffset+consumed⟩)
  | 1 => some (.ok ⟨.commit,size,packOffset+consumed⟩)
  | 4 => some (.ok ⟨.tag,size,packOffset+consumed⟩)
  | other => some (.error ⟨other⟩)

/-! The length of what is written -/

theorem sizeBytes_length_pos (fuel c size : ℕ) : 0 < (sizeBytes fuel c size).length := by
  cases fuel with
  | zero => simp [sizeBytes]
  | succ fuel =>
    rw [sizeBytes]
    split <;> simp

theorem sizeBytes_length (fuel c c' size : ℕ) : (sizeBytes fuel c size).length=(sizeBytes fuel c' size).length := by
  cases fuel with
  | zero => rfl
  | succ fuel =>
    rw [sizeBytes,sizeBytes]
    split <;> rfl

theorem leb64Loop_length (k n : ℕ) (buf : Bytes) :
    buf.length ≤ (leb64Loop k n buf).length ∧ (leb64Loop k n buf).length ≤ k+buf.length := by
  induction k generalizing n buf with
  | zero => simp [leb64Loop]
  | succ k ih =>
    rw [leb64Loop]
    split
    · omega
    · have := ih (n/128-1) (UInt8.ofNat (128+(n/128-1)%128)::buf)
      simp only [List.length_cons] at this
      omega

theorem leb64Encode_length (n : ℕ) : 0 < (leb64Encode n).length ∧ (leb64Encode n).length ≤ 10 := by
  have := leb64Loop_length 9 n [UInt8.ofNat (n%128)]
  simp only [List.length_singleton] at this
  rw [leb64Encode]
  omega

namespace Header

theorem size_pos (h : Header) (n : ℕ) : 0 < h.size n := by
  have := sizeBytes_length_pos n (h.asTypeId*16+n%16) (n/16)
  rw [size,writeTo,List.length_append]
  omega

theorem size_ofsDelta_lt (id : ObjectId) (distance n : ℕ) : (ofsDelta distance).size n < (refDelta id).size n := by
  have hsize := sizeBytes_length n (asTypeId (.ofsDelta distance)*16+n%16) (asTypeId (.refDelta id)*16+n%16) (n/16)
  have hleb := (leb64Encode_length distance).2
  simp only [size,writeTo,List.length_append,baseBytes,Vector.length_toList]
  omega

end Header
end Gix.Pack
