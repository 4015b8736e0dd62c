import Gix.ConfigParse

/-! # Values of a section

The body of a section is the list of its events; a value is looked up by its name. -/
namespace Gix.Config
open ByteCodec (eqIgnoreAsciiCase)

/-- Enclosing quotes are stripped as long as there are some. -/
def unquote : ℕ → Bytes → Bytes
  | 0,input => input
  | n+1,input =>
    if input = [34,34] then []
    else if 3 ≤ input.length ∧ input.head? = some 34 ∧ input.getLast? = some 34 ∧
        input[input.length-2]? ≠ some 92 then unquote n (input.drop 1).dropLast
    else input

def unescape : Bytes → Bytes → Bytes
  | [],out => out
  | 92 :: c :: i,out =>
    if c = 110 then unescape i (out++[10])
    else if c = 116 then unescape i (out++[9])
    else if c = 98 then unescape i out.dropLast
    else unescape i (out++[c])
  | [92],out => out
  | 34 :: i,out => unescape i out
  | c :: i,out => unescape i (out++[c])

def normalize (input : Bytes) : Bytes := unescape (unquote input.length input) []

/-- Where the last `name` is, counted from the end on: its index, and the first and the last index
of its value. -/
def keyAndValueRangeLoop (name : Bytes) : List Event → ℕ → ℕ → Option (ℕ × ℕ × ℕ)
  | [],_,_ => none
  | .sectionValueName k :: l,first,last =>
    if eqIgnoreAsciiCase k name then some (l.length,first,last)
    else keyAndValueRangeLoop name l 0 0
  | .value _ :: l,_,_ => keyAndValueRangeLoop name l l.length l.length
  | .valueNotDone _ :: l,first,last | .valueDone _ :: l,first,last =>
    if last = 0 then keyAndValueRangeLoop name l first l.length
    else keyAndValueRangeLoop name l l.length last
  | _ :: l,first,last => keyAndValueRangeLoop name l first last

/-- The range of a value name and its value, and the one of the value. There is none if the value
is right behind its name. -/
def keyAndValueRangeBy (body : List Event) (name : Bytes) : Option ((ℕ × ℕ) × Option (ℕ × ℕ)) :=
  (keyAndValueRangeLoop name body.reverse 0 0).map fun (key,first,last) =>
    ((key,last+1),if first ≠ key+1 then some (first,last+1) else none)

def readValue : List Event → Bytes → Option Bytes
  | [],_ => none
  | .value v :: _,_ => some (normalize v)
  | .valueNotDone v :: l,concatenated => readValue l (concatenated++v)
  | .valueDone v :: _,concatenated => some (normalize (concatenated++v))
  | _ :: l,concatenated => readValue l concatenated

/-- The last value of a name in a body, `some none` without a value. -/
def valueImplicit (body : List Event) (name : Bytes) : Option (Option Bytes) :=
  match keyAndValueRangeBy body name with
  | none => none
  | some (_,none) => some none
  | some (_,some (first,last)) => (readValue ((body.take last).drop first) []).map some

def value (body : List Event) (name : Bytes) : Option Bytes := (valueImplicit body name).join

/-- The loop of `values()`: whether a value is expected, and the parts of one that is not done. -/
def valuesLoop (name : Bytes) : List Event → Bool → Bytes → List Bytes
  | [],_,_ => []
  | .sectionValueName k :: l,expect,concatenated =>
    valuesLoop name l (expect || eqIgnoreAsciiCase k name) concatenated
  | .value v :: l,true,concatenated => normalize v :: valuesLoop name l false concatenated
  | .valueNotDone v :: l,true,concatenated => valuesLoop name l true (concatenated++v)
  | .valueDone v :: l,true,concatenated => normalize (concatenated++v) :: valuesLoop name l false []
  | _ :: l,expect,concatenated => valuesLoop name l expect concatenated

def values (body : List Event) (name : Bytes) : List Bytes := valuesLoop name body false []

end Gix.Config
