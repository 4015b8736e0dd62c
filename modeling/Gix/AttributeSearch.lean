import Mathlib

/-! # Searching attributes

`gix-attributes/src/search/`: attribute files become lists of patterns with assignments, every name gets
an id, and the assignments of the lines that match a path fill a slot for each id. What is filled is kept
by a hash. A `none` around a result is a panic. -/
namespace Gix.Attributes

abbrev Bytes := List UInt8

inductive State
  | set
  | unset
  | value (v : Bytes)
  | unspecified
deriving DecidableEq

structure Assignment where
  name : Bytes
  state : State
deriving DecidableEq

structure TrackedAssignment where
  id : ℕ
  inner : Assignment
deriving DecidableEq

structure Pattern where
  text : Bytes
  mode : UInt32
  firstWildcardPos : Option ℕ
deriving DecidableEq

def Pattern.negative : UInt32 := 0b01000

def macroMode : UInt32 := 0b11111

inductive Value
  | macroAssignments (id : ℕ) (assignments : List TrackedAssignment)
  | assignments (assignments : List TrackedAssignment)
deriving DecidableEq

structure Mapping where
  pattern : Pattern
  value : Value
  sequenceNumber : ℕ
deriving DecidableEq

def Mapping.isMacro (m : Mapping) : Bool :=
  match m.value with
  | .macroAssignments .. => true
  | .assignments _ => false

structure PatternList where
  patterns : List Mapping
  source : Option Bytes
  base : Option Bytes

/-! Parsed files -/

inductive Kind
  | pattern (p : Pattern)
  | macroName (name : Bytes)

/-- A line as `parse()` yields it, with a `none` for each assignment that is not valid. -/
structure Line where
  kind : Kind
  assignments : List (Option Assignment)
  lineNumber : ℕ

def unassigned : ℕ := 2^64-1

def intoOwnedAssignments (attrs : List (Option Assignment)) : Option (List TrackedAssignment) :=
  attrs.mapM fun a => a.map (⟨unassigned,·⟩)

def Line.toMapping (l : Line) : Option Mapping :=
  match l.kind with
  | .macroName name => (intoOwnedAssignments l.assignments).map fun assignments =>
      ⟨⟨name,macroMode,none⟩,.macroAssignments unassigned assignments,l.lineNumber⟩
  | .pattern p =>
    if p.mode &&& Pattern.negative ≠ 0 then none
    else (intoOwnedAssignments l.assignments).map fun assignments => ⟨p,.assignments assignments,l.lineNumber⟩

/-- `bytes_to_patterns()` of what is parsed, with a `none` for each line that is not valid. -/
def bytesToPatterns (parsed : List (Option Line)) : List Mapping :=
  parsed.filterMap fun line => line.bind Line.toMapping

/-! Ids of names -/

structure Metadata where
  id : ℕ
  macroAttributes : List TrackedAssignment

/-- The entries of `name_to_meta` in the order in which they were inserted. -/
structure MetadataCollection where
  nameToMeta : List (Bytes × Metadata)

namespace MetadataCollection

def get (c : MetadataCollection) (name : Bytes) : Option Metadata :=
  (c.nameToMeta.find? fun e => e.1 = name).map Prod.snd

def insert (c : MetadataCollection) (name : Bytes) : MetadataCollection :=
  ⟨c.nameToMeta++[(name,⟨c.nameToMeta.length,[]⟩)]⟩

def idForAttribute (c : MetadataCollection) (name : Bytes) : MetadataCollection × ℕ :=
  match c.get name with
  | some metadata => (c,metadata.id)
  | none => (c.insert name,c.nameToMeta.length)

def assignOrderToAttributes (c : MetadataCollection) : List TrackedAssignment → MetadataCollection × List TrackedAssignment
  | [] => (c,[])
  | a :: attributes =>
    let (c,id) := c.idForAttribute a.inner.name
    let (c,rest) := c.assignOrderToAttributes attributes
    (c,⟨id,a.inner⟩ :: rest)

/-- The new definition replaces the one before. -/
def define (c : MetadataCollection) (name : Bytes) (attrs : List TrackedAssignment) : MetadataCollection :=
  ⟨c.nameToMeta.map fun e => if e.1 = name then (name,{e.2 with macroAttributes := attrs}) else e⟩

def idForMacro (c : MetadataCollection) (name : Bytes) (attrs : List TrackedAssignment) :
    MetadataCollection × ℕ × List TrackedAssignment :=
  let (c,order) := c.idForAttribute name
  let (c,attrs) := c.assignOrderToAttributes attrs
  (c.define name attrs,order,attrs)

def updateFromList (c : MetadataCollection) : List Mapping → MetadataCollection × List Mapping
  | [] => (c,[])
  | m :: patterns =>
    match m.value with
    | .macroAssignments _ assignments =>
      let (c,id,assignments) := c.idForMacro m.pattern.text assignments
      let (c,rest) := c.updateFromList patterns
      (c,{m with value := .macroAssignments id assignments} :: rest)
    | .assignments assignments =>
      let (c,assignments) := c.assignOrderToAttributes assignments
      let (c,rest) := c.updateFromList patterns
      (c,{m with value := .assignments assignments} :: rest)

end MetadataCollection

structure AttributeFile where
  parsed : List (Option Line)
  source : Bytes
  base : Option Bytes
  allowMacros : Bool

def AttributeFile.mappings (f : AttributeFile) : List Mapping :=
  (bytesToPatterns f.parsed).filter fun m => f.allowMacros || !m.isMacro

def addPatternsBuffer (search : List PatternList) (c : MetadataCollection) (f : AttributeFile) :
    List PatternList × MetadataCollection :=
  let (c,patterns) := c.updateFromList f.mappings
  (search++[⟨patterns,some f.source,f.base⟩],c)

def addFiles (files : List AttributeFile) : List PatternList × MetadataCollection :=
  files.foldl (fun s f => addPatternsBuffer s.1 s.2 f) ([],⟨[]⟩)

/-! Outcomes -/

/-- Values by their hash; the first one stays. -/
def RefMap (T : Type) := UInt64 → Option T

def RefMap.empty {T : Type} : RefMap T := fun _ => none

def RefMap.insert {T : Type} (hash : T → UInt64) (m : RefMap T) (value : T) : RefMap T := fun key =>
  if key = hash value then some ((m key).getD value) else m key

inductive MatchKind
  | attribute (macroId : Option ℕ)
  | definition (parentMacroId : Option ℕ)
deriving DecidableEq

/-- The macro that has led to an attribute -/
def MatchKind.sourceId : MatchKind → Option ℕ
  | .attribute macroId => macroId
  | .definition parentMacroId => parentMacroId

structure Match where
  pattern : UInt64
  assignment : UInt64
  kind : MatchKind
  source : Option UInt64
  sequenceNumber : ℕ

structure Slot where
  matched : Option Match
  macroAttributes : List TrackedAssignment

/-- The stack has the element that is popped next at its head. -/
structure Outcome where
  matchesById : List Slot
  attrsStack : List (ℕ × Assignment × Option ℕ)
  selected : List (Bytes × Option ℕ)
  patterns : RefMap Pattern
  assignments : RefMap Assignment
  sourcePaths : RefMap Bytes
  remaining : Option ℕ

structure Hashes where
  pattern : Pattern → UInt64
  assignment : Assignment → UInt64
  path : Bytes → UInt64

namespace Outcome

def default : Outcome := ⟨[],[],[],.empty,.empty,.empty,none⟩

def resetRemaining (out : Outcome) : Outcome :=
  {out with remaining := some (if out.selected = [] then out.matchesById.length
    else (out.selected.filter fun s => s.2.isSome).length)}

def reset (out : Outcome) : Outcome :=
  resetRemaining {out with
    matchesById := out.matchesById.map fun slot => {slot with matched := none}
    attrsStack := []}

def setMacros (slots : List Slot) (entries : List (Bytes × Metadata)) : List Slot :=
  entries.foldl (fun slots e => if e.2.macroAttributes = [] then slots
    else slots.modify e.2.id fun slot => {slot with macroAttributes := e.2.macroAttributes}) slots

def initializeAll (c : MetadataCollection) (out : Outcome) : Outcome :=
  reset (if out.matchesById.length ≠ c.nameToMeta.length then
    {out with
      matchesById := setMacros ((out.matchesById++
        List.replicate (c.nameToMeta.length-out.matchesById.length) (Slot.mk none [])).take c.nameToMeta.length) c.nameToMeta
      selected := out.selected.map fun s => (s.1,s.2.or ((c.get s.1).map Metadata.id))}
  else out)

def initializeWithSelection (c : MetadataCollection) (names : List Bytes) (out : Outcome) : Outcome :=
  resetRemaining (initializeAll c
    {out with selected := names.map fun name => (name,(c.get name).map Metadata.id)})

def isDone (out : Outcome) : Option Bool := out.remaining.map fun n => n = 0

def reduceAndCheckIfDone (out : Outcome) (attr : ℕ) : Option (Bool × Outcome) :=
  if out.selected = [] ∨ (∃ s ∈ out.selected,s.2 = some attr) then
    match out.remaining with
    | some (n+1) => some (n = 0,{out with remaining := some n})
    | _ => none
  else out.isDone.map fun done => (done,out)

/-- Whether an attribute has no match yet, which is a panic if there is no slot. -/
def isUnmatched (out : Outcome) (id : ℕ) : Option Bool :=
  (out.matchesById[id]?).map fun slot => slot.matched.isNone

def unmatchedAttrs (out : Outcome) : List TrackedAssignment → Option (List TrackedAssignment)
  | [] => some []
  | a :: attrs =>
    match out.isUnmatched a.id with
    | none => none
    | some unmatched => (out.unmatchedAttrs attrs).map fun rest => if unmatched then a :: rest else rest

/-- The assignments that are pushed, the last one on top. -/
def pushAttrs (out : Outcome) (attrs : List TrackedAssignment) (parent : Option ℕ) : Option Outcome :=
  (out.unmatchedAttrs attrs).map fun attrs =>
    {out with attrsStack := (attrs.map fun a => (a.id,a.inner,parent)).reverse++out.attrsStack}

variable (hashes : Hashes) (pattern : Pattern) (source : Option Bytes) (sequenceNumber : ℕ)

def fillSlot (out : Outcome) (id : ℕ) (slot : Slot) (assignment : Assignment) (parent : Option ℕ) : Outcome :=
  {out with
    matchesById := out.matchesById.set id {slot with matched := some ⟨hashes.pattern pattern,
      hashes.assignment assignment,
      if slot.macroAttributes ≠ [] then .definition parent else .attribute parent,
      source.map hashes.path,sequenceNumber⟩}
    patterns := out.patterns.insert hashes.pattern pattern
    assignments := out.assignments.insert hashes.assignment assignment
    sourcePaths := source.elim out.sourcePaths (out.sourcePaths.insert hashes.path)}

def fillLoop : ℕ → Outcome → Option (Bool × Outcome)
  | 0,_ => none
  | n+1,out =>
    match out.attrsStack with
    | [] => some (false,out)
    | (id,assignment,parent) :: stack =>
      match out.matchesById[id]? with
      | none => none
      | some slot =>
        if slot.matched.isSome then fillLoop n {out with attrsStack := stack}
        else
          match reduceAndCheckIfDone (fillSlot hashes pattern source sequenceNumber
            {out with attrsStack := stack} id slot assignment parent) id with
          | none => none
          | some (true,out) => some (true,out)
          | some (false,out) =>
            match out.pushAttrs slot.macroAttributes (some id) with
            | none => none
            | some out => fillLoop n out

/-- All elements that ever come on the stack: those given, and those of each macro once. -/
def fillBound (out : Outcome) : ℕ :=
  out.attrsStack.length+(out.matchesById.map fun slot => slot.macroAttributes.length).sum+1

def fillAttributes (out : Outcome) (attrs : List TrackedAssignment) : Option (Bool × Outcome) :=
  match out.pushAttrs attrs none with
  | none => none
  | some out => fillLoop hashes pattern source sequenceNumber out.fillBound out

def hasUnspecifiedAttributes (out : Outcome) : List ℕ → Option Bool
  | [] => some false
  | id :: ids =>
    match out.isUnmatched id with
    | none => none
    | some true => some true
    | some false => out.hasUnspecifiedAttributes ids

end Outcome

/-! Matching -/

section Matching
variable {R : Type} (hashes : Hashes) (strip : Option Bytes → Option R) (matchesRepoRelativePath : Pattern → R → Bool)

def mayUseGlobPattern (p : Pattern) : Bool := p.mode ≠ macroMode

/-- The loop over the patterns of a list, from the last one on. -/
def matchPatterns (source : Option Bytes) (relativePath : R) : List Mapping → Outcome → Option Outcome
  | [],out => some out
  | m :: patterns,out =>
    match m.value with
    | .macroAssignments .. => none
    | .assignments attrs =>
      match out.hasUnspecifiedAttributes (attrs.map TrackedAssignment.id) with
      | none => none
      | some unspecified =>
        if unspecified && matchesRepoRelativePath m.pattern relativePath then
          match out.fillAttributes hashes m.pattern source m.sequenceNumber attrs with
          | none => none
          | some (true,out) => some out
          | some (false,out) => matchPatterns source relativePath patterns out
        else matchPatterns source relativePath patterns out

/-- `pattern_matching_relative_path()` of one list; the path is one that may be stripped of a base. -/
def matchList (list : PatternList) (out : Outcome) : Option (Bool × Outcome) :=
  match strip list.base with
  | none => some (false,out)
  | some relativePath =>
    (matchPatterns hashes matchesRepoRelativePath list.source relativePath
      (list.patterns.reverse.filter fun m => mayUseGlobPattern m.pattern) out).map fun out' =>
        (out.remaining ≠ out'.remaining,out')

/-- The loop over the lists, from the last one on. -/
def matchLists : List PatternList → Bool → Outcome → Option (Bool × Outcome)
  | [],hasMatch,out => some (hasMatch,out)
  | list :: lists,hasMatch,out =>
    match matchList hashes strip matchesRepoRelativePath list out with
    | none => none
    | some (found,out) =>
      match out.isDone with
      | none => none
      | some true => some (hasMatch || found,out)
      | some false => matchLists lists (hasMatch || found) out

def patternMatchingRelativePath (search : List PatternList) (out : Outcome) : Option (Bool × Outcome) :=
  matchLists hashes strip matchesRepoRelativePath search.reverse false out

end Matching

/-! Reports -/

namespace Outcome

def stateById (out : Outcome) (id : ℕ) : Option State :=
  ((out.matchesById[id]?).bind Slot.matched).bind fun m => (out.assignments m.assignment).map Assignment.state

def iterSelected (out : Outcome) : List (Bytes × State) :=
  out.selected.map fun (name,id) => (name,(id.bind out.stateById).getD .unspecified)

end Outcome

end Gix.Attributes
