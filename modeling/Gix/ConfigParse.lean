import Gix.ByteCodec

/-! # Configuration files as events

`from_bytes` of `parse/nom` with the parsers below it. Each parser gives what it found and the
input behind it, `none` is a failure. The loops run on the bytes that are left. -/
namespace Gix.Config
open ByteCodec

abbrev Bytes := List UInt8

structure Header where
  name : Bytes
  separator : Option Bytes
  subsectionName : Option Bytes
  deriving DecidableEq

inductive Event where
  | comment (tag : UInt8) (text : Bytes)
  | sectionHeader (header : Header)
  | sectionValueName (name : Bytes)
  | value (v : Bytes)
  | newline (nl : Bytes)
  | valueNotDone (v : Bytes)
  | valueDone (v : Bytes)
  | whitespace (ws : Bytes)
  | keyValueSeparator
  deriving DecidableEq

/-! Classes of bytes -/

def isAlphabetic (c : UInt8) : Bool := (65 ≤ c && c ≤ 90) || (97 ≤ c && c ≤ 122)

def isAlphanumeric (c : UInt8) : Bool := isAlphabetic c || (48 ≤ c && c ≤ 57)

def isSpace (c : UInt8) : Bool := c == 32 || c == 9

/-- `u8::is_ascii_whitespace`, which has the form feed but no vertical tab. -/
def isAsciiWhitespace (c : UInt8) : Bool := c == 32 || c == 9 || c == 10 || c == 12 || c == 13

def isSectionChar (c : UInt8) : Bool := isAlphanumeric c || c == 45 || c == 46

def isNameChar (c : UInt8) : Bool := isAlphanumeric c || c == 45

def isSubsectionEscapableChar (c : UInt8) : Bool := c != 10

def isSubsectionUnescapedChar (c : UInt8) : Bool := c != 34 && c != 92 && c != 10 && c != 0

/-! Tokens -/

def takeWhile1 (p : UInt8 → Bool) (i : Bytes) : Option (Bytes × Bytes) :=
  if i.takeWhile p = [] then none else some (i.takeWhile p,i.dropWhile p)

def takeSpaces1 (i : Bytes) : Option (Bytes × Bytes) := takeWhile1 isSpace i

def lineEnds : ℕ → Bytes → Bytes × Bytes
  | n+1,13 :: 10 :: i => (13 :: 10 :: (lineEnds n i).1,(lineEnds n i).2)
  | n+1,10 :: i => (10 :: (lineEnds n i).1,(lineEnds n i).2)
  | _,i => ([],i)

def takeNewlines1 (i : Bytes) : Option (Bytes × Bytes) :=
  if (lineEnds 1023 i).1 = [] then none else some (lineEnds 1023 i)

def comment : Bytes → Option (Event × Bytes)
  | tag :: i =>
    if tag = 59 ∨ tag = 35 then some (.comment tag (i.takeWhile (· ≠ 10)),i.dropWhile (· ≠ 10))
    else none
  | [] => none

/-! Section headers -/

/-- The text in front of the last `b` and the text behind it. -/
def cutLast (b : UInt8) (l : Bytes) : Option (Bytes × Bytes) :=
  (cut b l.reverse).map fun (behind,front) => (front.reverse,behind.reverse)

/-- `name` is all there is between the brackets; a dot parts a subsection of the old form. -/
def legacyHeader (name : Bytes) : Option Header :=
  match cutLast 46 name with
  | some (front,behind) => if front = [] then none else some ⟨front,some [46],some behind⟩
  | none => some ⟨name,none,none⟩

def subSection : Bytes → Bytes × Bytes
  | [] => ([],[])
  | 92 :: c :: i =>
    if isSubsectionEscapableChar c then (c :: (subSection i).1,(subSection i).2)
    else ([],92 :: c :: i)
  | c :: i =>
    if isSubsectionUnescapedChar c then (c :: (subSection i).1,(subSection i).2) else ([],c :: i)

def quotedHeader (name i : Bytes) : Option (Header × Bytes) :=
  match takeSpaces1 i with
  | some (ws,34 :: i) =>
    match (subSection i).2 with
    | 34 :: 93 :: rest => some (⟨name,some ws,some (subSection i).1⟩,rest)
    | _ => none
  | _ => none

def sectionHeader : Bytes → Option (Header × Bytes)
  | 91 :: i =>
    match takeWhile1 isSectionChar i with
    | some (name,93 :: rest) => (legacyHeader name).map (·,rest)
    | some (name,rest) => quotedHeader name rest
    | none => none
  | _ => none

/-! Names and values -/

def configName : Bytes → Option (Bytes × Bytes)
  | c :: i =>
    if isAlphabetic c then some (c :: i.takeWhile isNameChar,i.dropWhile isNameChar) else none
  | [] => none

/-- A run over a value: the events of the lines it goes on from, its last line and the input from
the byte that ends the value on. `line` is what is read of the current line. -/
def scanValue : Bytes → Bytes → Bool → Option (List Event × Bytes × Bytes)
  | [],line,inQuotes => if inQuotes then none else some ([],line,[])
  | 10 :: i,line,inQuotes => if inQuotes then none else some ([],line,10 :: i)
  | 92 :: 13 :: 10 :: i,line,inQuotes =>
    (scanValue i [] inQuotes).map fun r => (.valueNotDone line :: .newline [13,10] :: r.1,r.2)
  | 92 :: 10 :: i,line,inQuotes =>
    (scanValue i [] inQuotes).map fun r => (.valueNotDone line :: .newline [10] :: r.1,r.2)
  | 92 :: c :: i,line,inQuotes =>
    if c = 110 ∨ c = 116 ∨ c = 92 ∨ c = 98 ∨ c = 34 then scanValue i (line++[92,c]) inQuotes
    else none
  | [92],_,_ => none
  | 34 :: i,line,inQuotes => scanValue i (line++[34]) (!inQuotes)
  | c :: i,line,inQuotes =>
    if (c = 59 ∨ c = 35) ∧ inQuotes = false then some ([],line,c :: i)
    else scanValue i (line++[c]) inQuotes

def trimEnd (l : Bytes) : Bytes := (l.reverse.dropWhile isAsciiWhitespace).reverse

def valueImpl (i : Bytes) : Option (List Event × Bytes) :=
  (scanValue i [] false).map fun (events,line,rest) =>
    -- nothing behind the last line end but the end of the file
    if line = [] ∧ rest = [] then (events++[.value []],[])
    else (events++[if events = [] then .value (trimEnd line) else .valueDone (trimEnd line)],
      line.drop (trimEnd line).length++rest)

def optSpaces (i : Bytes) : List Event × Bytes :=
  match takeSpaces1 i with
  | some (ws,rest) => ([.whitespace ws],rest)
  | none => ([],i)

def optNewlines (i : Bytes) : List Event × Bytes :=
  match takeNewlines1 i with
  | some (nl,rest) => ([.newline nl],rest)
  | none => ([],i)

def optComment (i : Bytes) : List Event × Bytes :=
  match comment i with
  | some (c,rest) => ([c],rest)
  | none => ([],i)

def configValue : Bytes → Option (List Event × Bytes)
  | 61 :: i =>
    (valueImpl (optSpaces i).2).map fun r => (.keyValueSeparator :: (optSpaces i).1++r.1,r.2)
  | i => some ([.value []],i)

def keyValuePair (i : Bytes) : Option (List Event × Bytes) :=
  match configName i with
  | some (name,rest) =>
    (configValue (optSpaces rest).2).map fun r =>
      (.sectionValueName name :: (optSpaces rest).1++r.1,r.2)
  | none => some ([],i)

/-! Sections and files -/

def bodyRound (i : Bytes) : Option (List Event × Bytes) :=
  (keyValuePair (optNewlines (optSpaces i).2).2).map fun r =>
    ((optSpaces i).1++(optNewlines (optSpaces i).2).1++r.1++(optComment r.2).1,(optComment r.2).2)

def bodyLoop : ℕ → Bytes → Option (List Event × Bytes)
  | 0,_ => none
  | n+1,i =>
    (bodyRound i).bind fun r =>
      if r.2.length = i.length then some (r.1,r.2)
      else (bodyLoop n r.2).map fun s => (r.1++s.1,s.2)

def body (i : Bytes) : Option (List Event × Bytes) := bodyLoop (i.length+1) i

def parseSection (i : Bytes) : Option (List Event × Bytes) :=
  (sectionHeader i).bind fun (header,rest) =>
    (body rest).map fun r => (.sectionHeader header :: r.1,r.2)

/-- Sections until one fails, at its own start. -/
def sectionsLoop : ℕ → Bytes → List Event × Bytes
  | 0,i => ([],i)
  | n+1,i =>
    match parseSection i with
    | none => ([],i)
    | some (events,rest) => (events++(sectionsLoop n rest).1,(sectionsLoop n rest).2)

def frontMatterEvent (i : Bytes) : Option (Event × Bytes) :=
  (comment i).or (((takeSpaces1 i).map fun r => (.whitespace r.1,r.2)).or
    ((takeNewlines1 i).map fun r => (.newline r.1,r.2)))

def frontMatterLoop : ℕ → Bytes → List Event × Bytes
  | 0,i => ([],i)
  | n+1,i =>
    match frontMatterEvent i with
    | none => ([],i)
    | some (event,rest) => (event :: (frontMatterLoop n rest).1,(frontMatterLoop n rest).2)

def frontMatter (i : Bytes) : List Event × Bytes := frontMatterLoop i.length i

def sections (i : Bytes) : List Event × Bytes := sectionsLoop i.length i

/-- The dispatched events of a file that is accepted. `bomLength` is the length of the byte-order
mark `unicode_bom` finds. -/
def fromBytes (bomLength : Bytes → ℕ) (input : Bytes) : Option (List Event) :=
  let front := frontMatter (input.drop (bomLength input))
  if front.2 = [] then some front.1
  else if (sections front.2).2 = [] then some (front.1++(sections front.2).1)
  else none

/-! Serialization -/

def escapeSubsection (name : Bytes) : Bytes :=
  name.flatMap fun b => if b = 92 then [92,92] else if b = 34 then [92,34] else [b]

def Header.write (h : Header) : Bytes :=
  91 :: h.name++
    (match h.separator,h.subsectionName with
    | some sep,some subsection =>
      sep++if sep = [46] then subsection else 34 :: escapeSubsection subsection++[34]
    | _,_ => [])++[93]

def Event.write : Event → Bytes
  | .valueNotDone v => v++[92]
  | .whitespace v | .newline v | .value v | .valueDone v => v
  | .keyValueSeparator => [61]
  | .sectionValueName k => k
  | .sectionHeader h => h.write
  | .comment tag text => tag :: text

def writeEvents (events : List Event) : Bytes := events.flatMap Event.write

end Gix.Config
