import Gix.ByteCodec

/-! # Components of a path

`gix-validate/src/path.rs`. How bytes are read as characters is a parameter, as is `chars()` of
`bstr`. -/
namespace Gix.PathComponent
open ByteCodec

abbrev Bytes := List UInt8

inductive Error
  | empty
  | pathSeparator
  | windowsPathPrefix
  | windowsReservedName
  | windowsIllegalCharacter
  | dotGitDir
  | symlinkedGitModules
deriving DecidableEq

structure Options where
  protectWindows : Bool
  protectHfs : Bool
  protectNtfs : Bool
deriving DecidableEq

inductive Mode
  | symlink
deriving DecidableEq

def isSymlink (mode : Option Mode) : Bool := mode = some .symlink

def isAsciiDigit (b : UInt8) : Bool := 48 ≤ b && b ≤ 57

/-- `input.get(..n)` is equal to the text up to its case. -/
def startsWithIgnoreCase (input text : Bytes) : Bool :=
  text.length ≤ input.length && eqIgnoreAsciiCase (input.take text.length) text

/-! Endings -/

/-- Spaces and dots are skipped up to the end or a colon. -/
def isDoneNtfs : Bytes → Bool
  | [] => true
  | b :: input => if b = 58 then true else if b ≠ 32 ∧ b ≠ 46 then false else isDoneNtfs input

/-- Spaces are skipped up to the end, a dot or a colon. -/
def isDoneWindows (input : Bytes) : Bool :=
  match input.dropWhile (· = 32) with
  | [] => true
  | next :: _ => next = 46 || next = 58

/-! Windows devices -/

def isWinDevice (input : Bytes) : Bool :=
  if input.length < 3 then false
  else
    let in3 := input.take 3
    (eqIgnoreAsciiCase in3 [65,85,88] && isDoneWindows (input.drop 3)) ||
    (eqIgnoreAsciiCase in3 [78,85,76] && isDoneWindows (input.drop 3)) ||
    (eqIgnoreAsciiCase in3 [80,82,78] && isDoneWindows (input.drop 3)) ||
    (eqIgnoreAsciiCase in3 [67,79,77] && (input[3]?).any (fun n => 49 ≤ n && n ≤ 57) &&
      isDoneWindows (input.drop 4)) ||
    (eqIgnoreAsciiCase in3 [76,80,84] && (input[3]?).any isAsciiDigit &&
      isDoneWindows (input.drop 4)) ||
    (eqIgnoreAsciiCase in3 [67,79,78] &&
      (isDoneWindows (input.drop 3) ||
        (startsWithIgnoreCase (input.drop 3) [73,78,36] && isDoneWindows (input.drop 6)) ||
        (startsWithIgnoreCase (input.drop 3) [79,85,84,36] && isDoneWindows (input.drop 7))))

/-- `:<>"|?*` -/
def illegalCharacters : Bytes := [58,60,62,34,124,63,42]

def checkWinDevicesAndIllegalCharacters (input : Bytes) : Option Error :=
  if isWinDevice input then some .windowsReservedName
  else if input.any (fun b => b < 0x20 || b ∈ illegalCharacters) then some .windowsIllegalCharacter
  else if input.getLast? = some 46 ∨ input.getLast? = some 32 then some .windowsIllegalCharacter
  else none

/-! Names with a leading dot -/

/-- The code points that HFS+ skips. -/
def ignorable (c : Char) : Bool :=
  c.val ∈ [0x200c,0x200d,0x200e,0x200f,0x202a,0x202b,0x202c,0x202d,0x202e,0x206a,0x206b,0x206c,
    0x206d,0x206e,0x206f,0xfeff]

/-- A dot and the name, apart from case and what is skipped. -/
def isDotHfs (chars : Bytes → List Char) (input : Bytes) (searchCaseInsensitive : List Char) : Bool :=
  match (chars input).filter (!ignorable ·) with
  | [] => false
  | c :: rest => c = '.' && rest.map Char.toLower = searchCaseInsensitive.map Char.toLower

/-- `.git` and `git~1` -/
def isDotGitNtfs (input : Bytes) : Bool :=
  if startsWithIgnoreCase input [46,103,105,116] then isDoneNtfs (input.drop 4)
  else if startsWithIgnoreCase input [103,105,116,126,49] then isDoneNtfs (input.drop 5)
  else false

/-- The loop over the first eight bytes of a short name, with the position behind it. -/
def ntfsShortname (shortname : Bytes) : ℕ → ℕ → Bool → Bytes → Option Bytes
  | 0,_,_,input => some input
  | fuel+1,pos,sawTilde,input =>
    if 8 ≤ pos then some input
    else match input with
      | [] => none
      | b :: rest =>
        if sawTilde then
          if isAsciiDigit b then ntfsShortname shortname fuel (pos+1) true rest else none
        else if b = 126 then
          match rest with
          | [] => none
          | b :: rest =>
            if 49 ≤ b ∧ b ≤ 57 then ntfsShortname shortname fuel (pos+2) true rest else none
        else if 6 ≤ pos ∨ 128 ≤ b ∨
            (shortname[pos]?).all (fun ob => toAsciiLowercase b ≠ toAsciiLowercase ob) then none
        else ntfsShortname shortname fuel (pos+1) false rest

def isDotNtfs (input searchCaseInsensitive ntfsShortnamePrefix : Bytes) : Bool :=
  if input.head? = some 46 then
    startsWithIgnoreCase (input.drop 1) searchCaseInsensitive &&
      isDoneNtfs (input.drop (1+searchCaseInsensitive.length))
  else if 6 ≤ searchCaseInsensitive.length ∧
      startsWithIgnoreCase input (searchCaseInsensitive.take 6) ∧ input[6]? = some 126 ∧
      (input[7]?).any (fun num => 49 ≤ num && num ≤ 52) then isDoneNtfs (input.drop 8)
  else
    match ntfsShortname ntfsShortnamePrefix 8 0 false input with
    | some rest => isDoneNtfs rest
    | none => false

/-- `git`, `gitmodules` and `gi7eba` -/
def git : Bytes := [103,105,116]
def gitmodules : Bytes := git++[109,111,100,117,108,101,115]
def gitmodulesShortname : Bytes := [103,105,55,101,98,97]

/-- What is refused for one of the two file systems. -/
def checkHfs (chars : Bytes → List Char) (input : Bytes) (mode : Option Mode) : Except Error Unit :=
  if isDotHfs chars input ['g','i','t'] then .error .dotGitDir
  else if isSymlink mode &&
      isDotHfs chars input ['g','i','t','m','o','d','u','l','e','s'] then .error .symlinkedGitModules
  else .ok ()

def checkNtfs (input : Bytes) (mode : Option Mode) (protectWindows : Bool) : Except Error Unit :=
  if isDotGitNtfs input then .error .dotGitDir
  else if isSymlink mode && isDotNtfs input gitmodules gitmodulesShortname then
    .error .symlinkedGitModules
  else
    match (if protectWindows then checkWinDevicesAndIllegalCharacters input else none) with
    | some e => .error e
    | none => .ok ()

def checkPlain (input : Bytes) (mode : Option Mode) : Except Error Unit :=
  if eqIgnoreAsciiCase input (46 :: git) then .error .dotGitDir
  else if isSymlink mode && eqIgnoreAsciiCase input (46 :: gitmodules) then
    .error .symlinkedGitModules
  else .ok ()

def checkSeparators (chars : Bytes → List Char) (input : Bytes) (protectWindows : Bool) :
    Except Error Unit :=
  if protectWindows then
    if 47 ∈ input ∨ 92 ∈ input then .error .pathSeparator
    else if (chars input)[1]? = some ':' then .error .windowsPathPrefix
    else .ok ()
  else if 47 ∈ input then .error .pathSeparator
  else .ok ()

/-- Whether the input is a component that cannot leave the repository. -/
def component (chars : Bytes → List Char) (input : Bytes) (mode : Option Mode) (options : Options) :
    Except Error Unit := do
  if input = [] then throw .empty
  checkSeparators chars input options.protectWindows
  if options.protectHfs then checkHfs chars input mode
  if options.protectNtfs then checkNtfs input mode options.protectWindows
  if !(options.protectHfs || options.protectNtfs) then checkPlain input mode

def asciiChars (l : Bytes) : List Char := l.map fun b => Char.ofNat b.toNat

theorem component_empty (chars : Bytes → List Char) (mode : Option Mode) (options : Options) :
    component chars [] mode options = .error .empty := rfl

end Gix.PathComponent
