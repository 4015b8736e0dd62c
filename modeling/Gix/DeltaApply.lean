import Gix.PackEntry
import Gix.FixedTable

/-! # Applying a delta

`gix-pack/src/data/delta.rs`: a delta starts with the sizes of its base and of its result, then
come commands that copy from the base or insert what they carry with them. All that can go wrong
is a panic. -/
namespace Gix.Pack.Delta

/-- The loop of `decode_header_size()`. Builds with overflow checks panic if the shift is too
large, others shift by its lowest six bits. -/
def headerSizeLoop (overflowChecks : Bool) : Bytes → ℕ → ℕ → ℕ → Option (ℕ × ℕ)
  | [], _, size, consumed => some (size,consumed)
  | cmd :: d, i, size, consumed =>
    if overflowChecks && decide (64 ≤ i) then none
    else
      let size := size ||| ((cmd.toNat%128) <<< (i%64))%2^64
      if cmd.toNat < 128 then some (size,consumed+1) else headerSizeLoop overflowChecks d (i+7) size (consumed+1)

/-- `decode_header_size()`: a size, and how many bytes it took. -/
def decodeHeaderSize (overflowChecks : Bool) (d : Bytes) : Option (ℕ × ℕ) := headerSizeLoop overflowChecks d 0 0 0

/-- A byte that is there if the bit of the command is set. -/
def argument (cmd : UInt8) (bit shift : ℕ) (d : Bytes) : Option (ℕ × Bytes) :=
  if cmd.toNat.testBit bit then
    match d with
    | [] => none
    | b :: d => some (b.toNat*2^shift,d)
  else some (0,d)

def copyArguments (cmd : UInt8) (d : Bytes) : Option (ℕ × ℕ × Bytes) := do
  let (o0,d) ← argument cmd 0 0 d
  let (o1,d) ← argument cmd 1 8 d
  let (o2,d) ← argument cmd 2 16 d
  let (o3,d) ← argument cmd 3 24 d
  let (s0,d) ← argument cmd 4 0 d
  let (s1,d) ← argument cmd 5 8 d
  let (s2,d) ← argument cmd 6 16 d
  let size := s0+s1+s2
  return (o0+o1+o2+o3,if size = 0 then 2^16 else size,d)

/-- One command: what it writes, and the commands that follow. -/
def command (base : Bytes) (cmd : UInt8) (d : Bytes) : Option (Bytes × Bytes) :=
  if 128 ≤ cmd.toNat then do
    let (ofs,size,d) ← copyArguments cmd d
    let piece ← FixedTable.slice base ofs size
    return (piece,d)
  else if cmd = 0 then none
  else do
    let piece ← FixedTable.slice d 0 cmd.toNat
    return (piece,d.drop cmd.toNat)

/-- The loop of `apply()`, with the number of bytes as bound for that of the commands. -/
def commands (base : Bytes) : ℕ → Bytes → Option Bytes
  | _, [] => some []
  | 0, _ :: _ => none
  | n+1, cmd :: d => do
    let (piece,d) ← command base cmd d
    let rest ← commands base n d
    return piece++rest

/-- `apply()` to a target of the given size. `write()` drops what the target has no room for. -/
def apply (base : Bytes) (targetSize : ℕ) (data : Bytes) : Option Bytes := do
  let written ← commands base data.length data
  if targetSize ≤ written.length then some (written.take targetSize) else none

/-- A delta as a whole: the size of its base has to match. -/
def resolve (overflowChecks : Bool) (base delta : Bytes) : Option Bytes := do
  let (baseSize,consumed) ← decodeHeaderSize overflowChecks delta
  if base.length = baseSize then
    let (resultSize,consumed') ← decodeHeaderSize overflowChecks (delta.drop consumed)
    apply base resultSize (delta.drop (consumed+consumed'))
  else none

end Gix.Pack.Delta
