import Gix.PackEntry

/-! # Names of references

`gix-validate/src/reference.rs` and `tag.rs`: `name_inner` with both of its modes refuses a name, or it
writes one that is valid in its place. -/
namespace Gix.ReferenceName
open Pack (Bytes)

inductive Error
  | invalidByte (byte : UInt8)
  | startsWithSlash
  | repeatedSlash
  | repeatedDot
  | lockFileSuffix
  | reflogPortion
  | asterisk
  | startsWithDot
  | endsWithDot
  | endsWithSlash
  | empty
deriving DecidableEq,Repr

/-- Control characters and `\ ^ : [ ? ~`, and the space. -/
def invalid (b : UInt8) : Bool := b < 32 || b == 127 || [92,94,58,91,63,32,126].contains b

/-- `ends_with_str(".lock")` -/
def endsWithLock (l : Bytes) : Bool := [46,108,111,99,107].isSuffixOf l

inductive Mode
  | sanitize
  | validate
deriving DecidableEq

/-- Without an output the problem is an error, with one it is mended there. -/
def mend (out : Option Bytes) (e : Error) (f : Bytes → Bytes) : Except Error (Option Bytes) :=
  match out with
  | some o => .ok (some (f o))
  | none => .error e

/-- `.lock` at the end of a text that is read backwards, as often as it is there. -/
def dropLocks : Bytes → Bytes
  | 107 :: 99 :: 111 :: 108 :: 46 :: l => dropLocks l
  | l => l

/-- `while out.ends_with(b".lock") { out.truncate(..) }` -/
def truncateLocks (out : Bytes) : Bytes := (dropLocks out.reverse).reverse

def pushDash (out : Bytes) : Bytes := out++[45]

/-- The component in front of a slash. -/
def closeComponent (input : Bytes) (b : UInt8) (bytePos componentEnd : ℕ) (out : Option Bytes) :
    Except Error (Option Bytes) :=
  if b = 47 ∧ endsWithLock ((input.take bytePos).drop componentEnd) then
    mend out .lockFileSuffix truncateLocks
  else .ok out

/-- The component at the end of the name. -/
def closeName (input : Bytes) (bytePos componentEnd : ℕ) (out : Option Bytes) :
    Except Error (Option Bytes) :=
  if bytePos+1 = input.length ∧ endsWithLock (input.drop (componentEnd+1)) then
    mend out .lockFileSuffix truncateLocks
  else .ok out

/-- The last arm of the `match` over a byte. -/
def keepByte (input : Bytes) (b : UInt8) (bytePos componentEnd : ℕ) (out : Option Bytes) :
    Except Error (Option Bytes × ℕ) :=
  (closeComponent input b bytePos componentEnd out).bind fun out =>
    let componentEnd := if b = 47 then bytePos else componentEnd
    (closeName input bytePos componentEnd (out.map (·++[b]))).map (·,componentEnd)

def visitByte (input : Bytes) (b : UInt8) (bytePos : ℕ) (previous : UInt8) (componentEnd : ℕ)
    (out : Option Bytes) : Except Error (Option Bytes × ℕ) :=
  if invalid b then (mend out (.invalidByte b) pushDash).map (·,componentEnd)
  else if b = 42 then (mend out .asterisk pushDash).map (·,componentEnd)
  else if b = 46 ∧ previous = 46 then (mend out .repeatedDot id).map (·,componentEnd)
  else if b = 46 ∧ previous = 47 then (mend out .startsWithDot pushDash).map (·,componentEnd)
  else if b = 123 ∧ previous = 64 then (mend out .reflogPortion pushDash).map (·,componentEnd)
  else if b = 47 ∧ previous = 47 then (mend out .repeatedSlash id).map (·,componentEnd)
  else keepByte input b bytePos componentEnd out

def nameInnerLoop (input : Bytes) : Bytes → ℕ → UInt8 → ℕ → Option Bytes →
    Except Error (Option Bytes)
  | [], _, _, _, out => .ok out
  | b :: rest, bytePos, previous, componentEnd, out => do
    let (out,componentEnd) ← visitByte input b bytePos previous componentEnd out
    nameInnerLoop input rest (bytePos+1) b componentEnd out

/-- The slashes at both ends of the output go. -/
def trimSlashes (out : Bytes) : Bytes :=
  ((out.reverse.dropWhile (· = 47)).reverse).dropWhile (· = 47)

def mendDots (out : Bytes) : Bytes :=
  let out := if out.head? = some 46 then out.set 0 45 else out
  if out.getLast? = some 46 then out.set (out.length-1) 45 else out

/-- `none` for the panic at the first byte of an output that is empty. -/
def nameInner (input : Bytes) (mode : Mode) : Option (Except Error (Option Bytes)) :=
  if input = [] then
    some (match mode with | .sanitize => .ok (some [45]) | .validate => .error .empty)
  else if input.getLast? = some 47 ∧ mode = .validate then some (.error .endsWithSlash)
  else if input.head? = some 47 ∧ mode = .validate then some (.error .startsWithSlash)
  else
    match nameInnerLoop input input 0 0 0 (if mode = .sanitize then some [] else none) with
    | .error e => some (.error e)
    | .ok (some out) =>
      if trimSlashes out = [] then none else some (.ok (some (mendDots (trimSlashes out))))
    | .ok none =>
      some (if input.head? = some 46 then .error .startsWithDot
        else if input.getLast? = some 46 then .error .endsWithDot
        else .ok none)

/-- `tag::name()`; without an output there is none that could be empty. -/
def tagName (input : Bytes) : Except Error Unit :=
  match nameInner input .validate with
  | some r => r.map fun _ => ()
  | none => .error .empty

def namePartial (path : Bytes) : Except Error Unit := tagName path

end Gix.ReferenceName
