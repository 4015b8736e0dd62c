import Gix.ConfigBody

/-! # Sections of a configuration file

`gix-config/src/file/util.rs` and `file/access/mutate.rs`. A file keeps its sections by id, the order
of the ids, and a tree to look ids up by name and subsection name. The three are updated one by one.
Names are hashed and compared without their case, so the tree has the names in lower case. A `none`
around a result is a panic. -/
namespace Gix.Config
open ByteCodec (eqIgnoreAsciiCase toAsciiLowercase)

inductive Source
  | gitInstallation
  | system
  | git
  | user
  | local
  | worktree
  | env
  | cli
  | api
  | envOverride
deriving DecidableEq

inductive Trust
  | reduced
  | full
deriving DecidableEq

structure Metadata where
  path : Option Bytes
  source : Source
  -- a `u8` that counts from 0 up to the depth, which is a `u8` too
  level : ℕ
  trust : Trust
deriving DecidableEq

structure Section where
  header : Header
  body : List Event
  metadata : Metadata
deriving DecidableEq

/-- All section ids referred to by a section name. -/
inductive SectionBodyIdsLut
  | terminal (ids : List ℕ)
  | nonTerminal (subsections : Bytes → Option (List ℕ))

structure File where
  sections : ℕ → Option Section
  sectionOrder : List ℕ
  sectionIdCounter : ℕ
  sectionLookupTree : Bytes → Option (List SectionBodyIdsLut)

def File.empty : File := ⟨fun _ => none,[],0,fun _ => none⟩

inductive LookupError
  | sectionMissing
  | subSectionMissing
  | keyMissing
deriving DecidableEq

inductive HeaderError
  | invalidName
  | invalidSubSection
deriving DecidableEq

inductive RenameError
  | lookup (e : LookupError)
  | section (e : HeaderError)
deriving DecidableEq

def Header.new (name : Bytes) (subsection : Option Bytes) : Except HeaderError Header :=
  if name.all isNameChar then
    match subsection with
    | none => .ok ⟨name,none,none⟩
    | some s => if 10 ∈ s ∨ 0 ∈ s then .error .invalidSubSection else .ok ⟨name,some [32],some s⟩
  else .error .invalidName

/-! The lookup tree -/

/-- The ids of the first node for a subsection, or for none. -/
def findIds : List SectionBodyIdsLut → Option Bytes → Option (List ℕ)
  | [],_ => none
  | .nonTerminal subsections :: _,some subsection => subsections subsection
  | .terminal ids :: _,none => some ids
  | _ :: nodes,subsection => findIds nodes subsection

def sectionIdsByNameAndSubname (f : File) (name : Bytes) (subsection : Option Bytes) :
    Except LookupError (List ℕ) :=
  match f.sectionLookupTree (name.map toAsciiLowercase) with
  | none => .error .sectionMissing
  | some nodes =>
    match findIds nodes subsection with
    | none => .error .subSectionMissing
    | some ids => .ok ids

/-- The ids of the first node for a subsection are changed, which is a new one if there is none. -/
def updateIds (change : List ℕ → List ℕ) : List SectionBodyIdsLut → Option Bytes →
    List SectionBodyIdsLut
  | [],some subsection =>
    [.nonTerminal fun s => if s = subsection then some (change []) else none]
  | [],none => [.terminal (change [])]
  | .nonTerminal subsections :: nodes,some subsection =>
    .nonTerminal (fun s => if s = subsection then some (change ((subsections s).getD []))
      else subsections s) :: nodes
  | .terminal ids :: nodes,none => .terminal (change ids) :: nodes
  | node :: nodes,subsection => node :: updateIds change nodes subsection

def File.updateTree (f : File) (header : Header) (change : List ℕ → List ℕ) :
    Bytes → Option (List SectionBodyIdsLut) := fun name =>
  if name = header.name.map toAsciiLowercase then
    some (updateIds change ((f.sectionLookupTree name).getD []) header.subsectionName)
  else f.sectionLookupTree name

/-- `push_section_internal()`, with the new id. -/
def pushSectionInternal (f : File) (s : Section) : File × ℕ :=
  (⟨fun id => if id = f.sectionIdCounter then some s else f.sections id,
    f.sectionOrder++[f.sectionIdCounter],f.sectionIdCounter+1,
    f.updateTree s.header (·++[f.sectionIdCounter])⟩,f.sectionIdCounter)

/-! Reading -/

/-- Of the last section with a name. -/
def sectionMut (f : File) (name : Bytes) (subsection : Option Bytes) :
    Option (Except LookupError Section) :=
  match sectionIdsByNameAndSubname f name subsection with
  | .error e => some (.error e)
  | .ok ids => (ids.getLast?.bind f.sections).map .ok

def firstValue (f : File) (valueName : Bytes) : List ℕ → Option (Except LookupError Bytes)
  | [] => some (.error .keyMissing)
  | id :: ids =>
    match f.sections id with
    | none => none
    | some s =>
      match value s.body valueName with
      | some v => some (.ok v)
      | none => firstValue f valueName ids

def rawValue (f : File) (name : Bytes) (subsection : Option Bytes) (valueName : Bytes) :
    Option (Except LookupError Bytes) :=
  match sectionIdsByNameAndSubname f name subsection with
  | .error e => some (.error e)
  | .ok ids => firstValue f valueName ids.reverse

/-! Changing sections -/

/-- The new section has one line end; `nl` is the one detected in the file. -/
def newSection (f : File) (name : Bytes) (subsection : Option Bytes) (metadata : Metadata) (nl : Bytes) :
    File × Except HeaderError Unit :=
  match Header.new name subsection with
  | .error e => (f,.error e)
  | .ok header => ((pushSectionInternal f ⟨header,[.newline nl],metadata⟩).1,.ok ())

def pushSection (f : File) (s : Section) : File := (pushSectionInternal f s).1

/-- The first node with ids for the subsection loses one of them. -/
def removeId (id : ℕ) : List SectionBodyIdsLut → Option Bytes → Option (List SectionBodyIdsLut)
  | [],_ => some []
  | .nonTerminal subsections :: nodes,some subsection =>
    match subsections subsection with
    | some ids =>
      if id ∈ ids then
        some (.nonTerminal (fun s => if s = subsection then some (ids.erase id)
          else subsections s) :: nodes)
      else none
    | none => (removeId id nodes (some subsection)).map (.nonTerminal subsections :: ·)
  | .terminal ids :: nodes,none =>
    if id ∈ ids then some (.terminal (ids.erase id) :: nodes) else none
  | node :: nodes,subsection => (removeId id nodes subsection).map (node :: ·)

def removeSectionById (f : File) (id : ℕ) : Option (File × Option Section) :=
  if id ∈ f.sectionOrder then
    let order := f.sectionOrder.erase id
    match f.sections id with
    | none => some ({f with sectionOrder := order},none)
    | some s =>
      let name := s.header.name.map toAsciiLowercase
      match f.sectionLookupTree name with
      | none => none
      | some nodes =>
        (removeId id nodes s.header.subsectionName).map fun nodes =>
          (⟨fun i => if i = id then none else f.sections i,order,f.sectionIdCounter,
            fun n => if n = name then some nodes else f.sectionLookupTree n⟩,some s)
  else some (f,none)

def removeSection (f : File) (name : Bytes) (subsection : Option Bytes) :
    Option (File × Option Section) :=
  match sectionIdsByNameAndSubname f name subsection with
  | .error _ => some (f,none)
  | .ok ids =>
    match ids.getLast? with
    | none => some (f,none)
    | some id => removeSectionById f id

/-- The first id whose section passes the filter, from the last on; a panic without a section. -/
def findFiltered (f : File) (filter : Metadata → Bool) : List ℕ → Option (Option ℕ)
  | [] => some none
  | id :: ids =>
    match f.sections id with
    | none => none
    | some s => if filter s.metadata then some (some id) else findFiltered f filter ids

/-- The section is removed from the order and the sections; the tree stays as it is. -/
def removeSectionFilter (f : File) (name : Bytes) (subsection : Option Bytes)
    (filter : Metadata → Bool) : Option (File × Option Section) :=
  match sectionIdsByNameAndSubname f name subsection with
  | .error _ => some (f,none)
  | .ok ids =>
    match findFiltered f filter ids.reverse with
    | none => none
    | some none => some (f,none)
    | some (some id) =>
      if id ∈ f.sectionOrder then
        some ({f with
          sectionOrder := f.sectionOrder.erase id
          sections := fun i => if i = id then none else f.sections i},f.sections id)
      else none

/-- The section gets a new header; the tree stays as it is. -/
def renameId (f : File) (id : ℕ) (newName : Bytes) (newSubsection : Option Bytes) :
    Option (File × Except RenameError Unit) :=
  match f.sections id with
  | none => none
  | some s =>
    match Header.new newName newSubsection with
    | .error e => some (f,.error (.section e))
    | .ok header =>
      some ({f with sections := fun i => if i = id then some {s with header := header}
        else f.sections i},.ok ())

def renameSection (f : File) (name : Bytes) (subsection : Option Bytes) (newName : Bytes)
    (newSubsection : Option Bytes) : Option (File × Except RenameError Unit) :=
  match sectionIdsByNameAndSubname f name subsection with
  | .error e => some (f,.error (.lookup e))
  | .ok ids =>
    match ids.getLast? with
    | none => none
    | some id => renameId f id newName newSubsection

def renameSectionFilter (f : File) (name : Bytes) (subsection : Option Bytes) (newName : Bytes)
    (newSubsection : Option Bytes) (filter : Metadata → Bool) :
    Option (File × Except RenameError Unit) :=
  match sectionIdsByNameAndSubname f name subsection with
  | .error e => some (f,.error (.lookup e))
  | .ok ids =>
    match findFiltered f filter ids.reverse with
    | none => none
    | some none => some (f,.error (.lookup .keyMissing))
    | some (some id) => renameId f id newName newSubsection

def appendSections (f : File) (other : File) : List ℕ → Option File
  | [] => some f
  | id :: ids =>
    match other.sections id with
    | none => none
    | some s => appendSections (pushSectionInternal f s).1
        {other with sections := fun i => if i = id then none else other.sections i} ids

def append (f other : File) : Option File := appendSections f other other.sectionOrder

end Gix.Config
