import Gix.ReferenceName
import Gix.ByteCodec
import Gix.SeenSet

/-! # Ref specs

`gix-refspec/src/parse.rs` and `match_group/`: ref specs say which references to fetch and where to
store them. They are matched with what a remote advertises, whose names can be anything.

What a rev spec may look like is given, as is the hash of a mapping. -/
namespace Gix.RefSpec
open Pack (Bytes ObjectId)
open ByteCodec (cut hex unhex)

inductive Operation | push | fetch deriving DecidableEq,Repr
inductive Mode | normal | force | negative deriving DecidableEq,Repr

/-- A parsed spec, of which either side may be missing -/
structure RefSpecRef where
  mode : Mode
  op : Operation
  src : Option Bytes
  dst : Option Bytes
deriving DecidableEq,Repr

/-! Parsing -/

inductive Error
  | empty
  | negativeWithDestination
  | negativeEmpty
  | negativeUnsupported
  | negativeObjectHash
  | negativePartialName
  | negativeGlobPattern
  | pushToEmpty
  | patternUnsupported (pattern : Bytes)
  | patternUnbalanced
  | referenceName (e : ReferenceName.Error)
  | revSpec
deriving DecidableEq,Repr

def head : Bytes := [72,69,65,68]

def refs : Bytes := [114,101,102,115,47]

def fetchHeadOnly (mode : Mode) : RefSpecRef := ⟨mode,.fetch,some head,none⟩

def nonEmpty (l : Bytes) : Option Bytes := if l = [] then none else some l

/-- `is_ascii_hexdigit()` -/
def isHexDigit (b : UInt8) : Bool := (ByteCodec.hexValue b).isSome

def looksLikeObjectHash (spec : Bytes) : Bool := decide (40 ≤ spec.length) && spec.all isHexDigit

/-- `validated()`: whether there is a pattern. -/
def validated (revSpec : Bytes → Bool) (allowRevspecs : Bool) : Option Bytes → Except Error Bool
  | none => .ok false
  | some spec =>
    if 1 < spec.count 42 then .error (.patternUnsupported spec)
    else if spec.count 42 = 1 then
      match ReferenceName.namePartial (spec.map (fun b => if b = 42 then 97 else b)) with
      | .error e => .error (.referenceName e)
      | .ok _ => .ok true
    else
      match ReferenceName.namePartial spec with
      | .ok _ => .ok false
      | .error e => if allowRevspecs then if revSpec spec then .ok false else .error .revSpec else .error (.referenceName e)

/-- Both sides of a spec, or the result right away. -/
def sides (operation : Operation) (mode : Mode) (spec : Bytes) : Except Error (Option RefSpecRef × Option Bytes × Option Bytes) :=
  match cut 58 spec with
  | some (src,dst) =>
    if mode = .negative then .error .negativeWithDestination
    else match nonEmpty src with
      | none => match operation with
        | .push => .ok (none,none,nonEmpty dst)
        | .fetch => .ok (none,some head,nonEmpty dst)
      | some src => if operation = .push ∧ dst = [] then .error .pushToEmpty else .ok (none,some src,nonEmpty dst)
  | none =>
    if operation = .fetch ∧ mode ≠ .negative ∧ spec = [] then .ok (some (fetchHeadOnly mode),none,none)
    else .ok (none,nonEmpty spec,none)

/-- What makes a negative spec valid -/
def checkNegative (srcHadPattern : Bool) : Option Bytes → Except Error Unit
  | none => .error .negativeEmpty
  | some spec =>
    if srcHadPattern then .error .negativeGlobPattern
    else if looksLikeObjectHash spec then .error .negativeObjectHash
    else if !refs.isPrefixOf spec && spec ≠ head then .error .negativePartialName
    else .ok ()

def parseSides (revSpec : Bytes → Bool) (operation : Operation) (mode : Mode) (spec : Bytes) : Except Error RefSpecRef := do
  match ← sides operation mode spec with
  | (some found,_,_) => return found
  | (none,src,dst) =>
    let src := src.map (fun s => if s = [64] then head else s)
    let srcHadPattern ← validated revSpec (operation = .push && dst.isSome) src
    let dstHadPattern ← validated revSpec false dst
    if mode ≠ .negative ∧ srcHadPattern ≠ dstHadPattern then .error .patternUnbalanced
    else do
      if mode = .negative then checkNegative srcHadPattern src
      return ⟨mode,operation,src,dst⟩

def parse (revSpec : Bytes → Bool) (spec : Bytes) (operation : Operation) : Except Error RefSpecRef :=
  match spec with
  | 94 :: spec => if operation = .push then .error .negativeUnsupported else parseSides revSpec operation .negative spec
  | 43 :: spec => parseSides revSpec operation .force spec
  | [] => match operation with
    | .push => .error .empty
    | .fetch => .ok (fetchHeadOnly .normal)
  | spec => parseSides revSpec operation .normal spec

/-! Matching -/

structure Item where
  fullRefName : Bytes
  target : ObjectId
  object : Option ObjectId

inductive Needle
  | fullName (name : Bytes)
  | partialName (name : Bytes)
  | glob (name : Bytes) (asteriskPos : ℕ)
  | object (id : ObjectId)
deriving DecidableEq,Repr

inductive Match
  | none
  | normal
  | globRange (start stop : ℕ)
deriving DecidableEq,Repr

def fromHex (v : Bytes) : Option ObjectId := if v.length = 40 then (unhex v).bind ObjectId.fromBytes else none

/-- `Needle::from()` -/
def Needle.of (v : Bytes) : Needle :=
  match cut 42 v with
  | some (before,_) => .glob v before.length
  | none =>
    if refs.isPrefixOf v then .fullName v
    else match fromHex v with
      | some id => .object id
      | none => .partialName v

def tags : Bytes := [116,97,103,115,47]
def heads : Bytes := [104,101,97,100,115,47]
def remotes : Bytes := [114,101,109,111,116,101,115,47]

/-- All names of `expand_partial_name()` in order -/
def expandPartialName (name : Bytes) : List Bytes :=
  [name,refs++name,refs++tags++name,refs++heads++name,refs++remotes++name,refs++remotes++name++47 :: head]

namespace Needle

/-- `matches()` -/
def matchItem (needle : Needle) (item : Item) : Match :=
  match needle with
  | .fullName name => if name = item.fullRefName then .normal else .none
  | .partialName name => if item.fullRefName ∈ expandPartialName name then .normal else .none
  | .glob name asteriskPos =>
    if item.fullRefName.length < asteriskPos then .none
    else if item.fullRefName.take asteriskPos ≠ name.take asteriskPos then .none
    else
      let tail := name.drop (asteriskPos+1)
      if !tail.isSuffixOf item.fullRefName then .none
      else .globRange asteriskPos (item.fullRefName.length-tail.length)
  | .object id =>
    if id = item.target then .normal
    else if item.object = some id then .normal else .none

/-- `to_bstr_replace()`, which panics if the range isn't one. -/
def toBstrReplace (needle : Needle) (range : Option (ℕ × ℕ × Item)) : Option Bytes :=
  match needle, range with
  | .fullName name, none => some name
  | .partialName name, none =>
    some (refs++(if tags.isPrefixOf name || remotes.isPrefixOf name then [] else heads)++name)
  | .glob name asteriskPos, some (start,stop,item) =>
    if start ≤ stop ∧ stop ≤ item.fullRefName.length then
      some (name.take asteriskPos++(item.fullRefName.take stop).drop start++name.drop (asteriskPos+1))
    else none
  | .object id, none => some (refs++heads++hex id.toList)
  | .glob _ _, none => none
  | _, some _ => none

end Needle

/-- `to_bstr()` of a destination that may be missing -/
def Needle.toBstr : Option Needle → Option (Option Bytes)
  | none => some none
  | some needle => (needle.toBstrReplace none).map some

structure Matcher where
  lhs : Option Needle
  rhs : Option Needle

def Matcher.of (spec : RefSpecRef) : Matcher := ⟨spec.src.map Needle.of,spec.dst.map Needle.of⟩

/-- `matches_lhs()`: whether there is a match, and the destination. -/
def Matcher.matchesLhs (m : Matcher) (item : Item) : Option (Bool × Option Bytes) :=
  match m.lhs, m.rhs with
  | some lhs, none => some (lhs.matchItem item ≠ .none,none)
  | some lhs, some rhs => match lhs.matchItem item with
    | .none => some (false,none)
    | .normal => (rhs.toBstrReplace none).map (fun name => (true,some name))
    | .globRange start stop => (rhs.toBstrReplace (some (start,stop,item))).map (fun name => (true,some name))
  | none, _ => some (false,none)

inductive Source
  | fullName (name : Bytes)
  | objectId (id : ObjectId)
deriving DecidableEq,Repr

structure Mapping where
  itemIndex : Option ℕ
  lhs : Source
  rhs : Option Bytes
  specIndex : ℕ
deriving DecidableEq,Repr

/-- What is hashed of a mapping -/
def Mapping.key (m : Mapping) : Source × Option Bytes := (m.lhs,m.rhs)

section MatchGroup
variable (hash : Source × Option Bytes → UInt64)

/-- `push_unique()` with the mappings and hashes so far. -/
def pushUnique (s : List Mapping × List UInt64) (m : Mapping) : List Mapping × List UInt64 :=
  match SeenSet.insert (hash m.key) s.2 with
  | (true,seen) => (s.1++[m],seen)
  | (false,seen) => (s.1,seen)

def objectLoop : ℕ → List RefSpecRef → List Mapping × List UInt64 → Option (List Mapping × List UInt64)
  | _, [], s => some s
  | idx, spec :: specs, s =>
    match (Matcher.of spec).lhs with
    | some (.object id) => do
      let rhs ← Needle.toBstr (Matcher.of spec).rhs
      objectLoop (idx+1) specs (pushUnique hash s ⟨none,.objectId id,rhs,idx⟩)
    | _ => objectLoop (idx+1) specs s

def itemLoop (matcher : Matcher) (specIndex : ℕ) : ℕ → List Item → List Mapping × List UInt64 → Option (List Mapping × List UInt64)
  | _, [], s => some s
  | itemIndex, item :: items, s => do
    let (isMatch,rhs) ← matcher.matchesLhs item
    itemLoop matcher specIndex (itemIndex+1) items
      (if isMatch then pushUnique hash s ⟨some itemIndex,.fullName item.fullRefName,rhs,specIndex⟩ else s)

/-- Objects are not matched with items. -/
def itemMatcher (spec : RefSpecRef) : Option Matcher :=
  match (Matcher.of spec).lhs with
  | some (.object _) => none
  | _ => some (Matcher.of spec)

def specLoop (items : List Item) : ℕ → List RefSpecRef → List Mapping × List UInt64 → Option (List Mapping × List UInt64)
  | _, [], s => some s
  | specIndex, spec :: specs, s =>
    if spec.mode = .negative then specLoop items (specIndex+1) specs s
    else match itemMatcher spec with
      | none => specLoop items (specIndex+1) specs s
      | some matcher => do
        let s ← itemLoop hash matcher specIndex 0 items s
        specLoop items (specIndex+1) specs s

/-- `retain()` for one of the negative specs -/
def retain (matcher : Matcher) : List Mapping → Option (List Mapping)
  | [] => some []
  | m :: out => match m.lhs with
    | .objectId _ => (retain matcher out).map (m :: ·)
    | .fullName name => do
      let (isMatch,_) ← matcher.matchesLhs ⟨name,ObjectId.null,none⟩
      let out ← retain matcher out
      return if isMatch then out else m :: out

def retainAll : List Matcher → List Mapping → Option (List Mapping)
  | [], out => some out
  | matcher :: matchers, out => do
    let out ← retain matcher out
    retainAll matchers out

def matchRemotes (specs : List RefSpecRef) (items : List Item) : Option (List Mapping) := do
  let s ← objectLoop hash 0 specs ([],[])
  let (out,_) ← specLoop hash items 0 specs s
  if specs.any (fun spec => spec.mode = .negative) && !items.isEmpty then
    retainAll ((specs.filter (fun spec => spec.mode = .negative)).filterMap itemMatcher) out
  else return out

end MatchGroup

def fromFetchSpecs (specs : List RefSpecRef) : List RefSpecRef := specs.filter (fun spec => spec.op = .fetch)

end Gix.RefSpec
