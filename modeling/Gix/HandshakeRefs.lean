import Gix.CommitObject

/-! # References of a V1 handshake

`gix-protocol/src/handshake/refs/`: the capabilities announce symbolic references, the lines behind
them have the references with their ids. What white space is cut from the end of a line is a
parameter, as is `trim_end` of `bstr`. -/
namespace Gix.Handshake
open Gix.Pack (Bytes ObjectId)
open ByteCodec CommitObject

inductive Ref
  | peeled (fullRefName : Bytes) (tag object : ObjectId)
  | direct (fullRefName : Bytes) (object : ObjectId)
  | symbolic (fullRefName target : Bytes) (tag : Option ObjectId) (object : ObjectId)
deriving DecidableEq

inductive InternalRef
  | peeled (path : Bytes) (tag object : ObjectId)
  | direct (path : Bytes) (object : ObjectId)
  | symbolic (path : Bytes) (target : Option Bytes) (tag : Option ObjectId) (object : ObjectId)
  | symbolicForLookup (path : Bytes) (target : Option Bytes)
deriving DecidableEq

inductive Error
  | malformedSymref (symref : Bytes)
  | malformedV1RefLine (line : Bytes)
  | invalidHexEncodingLength (length : ℕ)
  | invalidHex
  /-- Expecting peeled refs to be preceded by direct refs. -/
  | notPrecededByDirect
  /-- Expecting peeled refs to have the same base path as the previous, unpeeled one. -/
  | otherBasePath
deriving DecidableEq

/-- `From < InternalRef> for Ref`, `none` for the panic. -/
def InternalRef.toRef : InternalRef → Option Ref
  | .symbolic path (some target) tag object => some (.symbolic path target tag object)
  | .symbolic path none none object => some (.direct path object)
  | .symbolic path none (some tag) object => some (.peeled path tag object)
  | .peeled path tag object => some (.peeled path tag object)
  | .direct path object => some (.direct path object)
  | .symbolicForLookup _ _ => none

def InternalRef.unpackDirect : InternalRef → Option (Bytes × ObjectId)
  | .direct path object => some (path,object)
  | _ => none

def InternalRef.lookupSymbolHasPath (predicatePath : Bytes) : InternalRef → Bool
  | .symbolicForLookup path _ => path = predicatePath
  | _ => false

/-! Capabilities -/

/-- `symref` -/
def symrefName : Bytes := [115,121,109,114,101,102]

/-- `(null)` -/
def nullTarget : Bytes := [40,110,117,108,108,41]

def symrefValue (capability : Bytes) : Option Bytes :=
  match cut 61 capability with
  | some (name,value) => if name = symrefName then some value else none
  | none => none

/-- Name and target; there is no target for one in another namespace. -/
def parseSymref (symref : Bytes) : Except Error (Bytes × Option Bytes) :=
  match cut 58 symref with
  | some (left,right) =>
    if left = [] then .error (.malformedSymref symref)
    else .ok (left,if right = nullTarget then none else some right)
  | none => .error (.malformedSymref symref)

def fromCapabilities (capabilities : List Bytes) : Except Error (List InternalRef) :=
  ((capabilities.filterMap symrefValue).mapM parseSymref).map fun symrefs =>
    symrefs.map fun (path,target) => .symbolicForLookup path target

/-! Lines -/

def idFromHex (hexHash : Bytes) : Except Error ObjectId :=
  if hexHash.length = 40 then
    match fromHex hexHash with
    | some id => .ok id
    | none => .error .invalidHex
  else .error (.invalidHexEncodingLength hexHash.length)

/-- `^{}` -/
def peeledSuffix : Bytes := [94,123,125]

/-- `strip_suffix(b"^{}")` -/
def stripPeeled (path : Bytes) : Option Bytes :=
  if peeledSuffix.isSuffixOf path then some (path.take (path.length-3)) else none

/-- `capabilities` -/
def capabilitiesPath : Bytes := [99,97,112,97,98,105,108,105,116,105,101,115]

def swapRemove {α : Type} (l : List α) (i : ℕ) : List α :=
  match l.getLast? with
  | some last => (l.set i last).dropLast
  | none => []

def parsePeeled (outRefs : List InternalRef) (stripped hexHash : Bytes) :
    Except Error (List InternalRef) :=
  match outRefs.getLast?.bind InternalRef.unpackDirect with
  | none => .error .notPrecededByDirect
  | some (previousPath,tag) =>
    if previousPath ≠ stripped then .error .otherBasePath
    else (idFromHex hexHash).map fun object =>
      outRefs.dropLast++[.peeled previousPath tag object]

/-- `none` for the panic if the position found is not one of a symbol for lookup. -/
def parsePlain (numInitialOutRefs : ℕ) (outRefs : List InternalRef) (path hexHash : Bytes) :
    Option (Except Error (List InternalRef)) :=
  match idFromHex hexHash with
  | .error e => some (.error e)
  | .ok object =>
    match (outRefs.take numInitialOutRefs).findIdx? (InternalRef.lookupSymbolHasPath path) with
    | none => some (.ok (outRefs++[.direct path object]))
    | some position =>
      match outRefs[position]? with
      | some (.symbolicForLookup _ target) =>
        some (.ok (swapRemove outRefs position++[.symbolic path target none object]))
      | _ => none

def parseV1 (trimEnd : Bytes → Bytes) (numInitialOutRefs : ℕ) (outRefs : List InternalRef)
    (line : Bytes) : Option (Except Error (List InternalRef)) :=
  match cut 32 (trimEnd line) with
  | none => some (.error (.malformedV1RefLine (trimEnd line)))
  | some (hexHash,path) =>
    if path = [] then some (.error (.malformedV1RefLine (trimEnd line)))
    else
      match stripPeeled path with
      | some stripped =>
        -- the line that brings the capabilities of an empty repository
        if hexHash.all (· = 48) ∧ stripped = capabilitiesPath then some (.ok outRefs)
        else some (parsePeeled outRefs stripped hexHash)
      | none => parsePlain numInitialOutRefs outRefs path hexHash

def parseLines (trimEnd : Bytes → Bytes) (numInitialOutRefs : ℕ) :
    List Bytes → List InternalRef → Option (Except Error (List InternalRef))
  | [],outRefs => some (.ok outRefs)
  | line :: lines,outRefs =>
    match parseV1 trimEnd numInitialOutRefs outRefs line with
    | some (.ok outRefs) => parseLines trimEnd numInitialOutRefs lines outRefs
    | other => other

/-- `from_v1_refs_received_as_part_of_handshake_and_capabilities()`, `none` for a panic. -/
def fromV1Refs (trimEnd : Bytes → Bytes) (capabilities lines : List Bytes) :
    Option (Except Error (List Ref)) :=
  match fromCapabilities capabilities with
  | .error e => some (.error e)
  | .ok outRefs =>
    match parseLines trimEnd outRefs.length lines outRefs with
    | none => none
    | some (.error e) => some (.error e)
    | some (.ok outRefs) => (outRefs.mapM InternalRef.toRef).map .ok

end Gix.Handshake
