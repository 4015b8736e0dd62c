import Gix.ConfigSections

/-! # Includes of a configuration file

`gix-config/src/file/includes/mod.rs`: the sections of an included file are inserted behind the
section that includes it. The file system, the interpolation of paths and the conditions of
`includeIf` are parameters; events in front of the first section play no part. -/
namespace Gix.Config
open ByteCodec (toAsciiLowercase)

/-! Loading a file -/

def discardNonessentialEvents : Event → Bool
  | .whitespace _ | .comment _ _ | .newline _ => false
  | _ => true

def Event.isHeader : Event → Bool
  | .sectionHeader _ => true
  | _ => false

/-- The header of each section with its events, which the filter is applied to. -/
def splitSections (keep : Event → Bool) : List Event → List (Header × List Event)
  | [] => []
  | .sectionHeader h :: events =>
    (h,(events.takeWhile fun e => !e.isHeader).filter keep) :: splitSections keep events
  | _ :: events => splitSections keep events

def fromParseEventsNoIncludes (sections : List (Header × List Event)) (metadata : Metadata) : File :=
  sections.foldl (fun f s => (pushSectionInternal f ⟨s.1,s.2,metadata⟩).1) .empty

/-! Inserting sections -/

/-- `find_insert_pos_by_order()`, with the candidates that are behind the ones seen. -/
def findInsertPosByOrder (order : List ℕ) (beforeOrder : ℕ) : List ℕ → ℕ → Option ℕ
  | [],pos => some pos
  | candidate :: ids,pos =>
    match order.idxOf? candidate with
    | none => none
    | some candidateOrder =>
      if candidateOrder < beforeOrder then findInsertPosByOrder order beforeOrder ids (pos+1)
      else if candidateOrder = beforeOrder then some (pos+1)
      else some pos

/-- `insert_section_after()`, with the new id. -/
def insertSectionAfter (f : File) (s : Section) (before : ℕ) : Option (File × ℕ) := do
  let beforeOrder ← f.sectionOrder.idxOf? before
  let nodes := (f.sectionLookupTree (s.header.name.map toAsciiLowercase)).getD []
  let ids := (findIds nodes s.header.subsectionName).getD []
  let pos ← findInsertPosByOrder f.sectionOrder beforeOrder ids 0
  return (⟨fun id => if id = f.sectionIdCounter then some s else f.sections id,
    f.sectionOrder.insertIdx (beforeOrder+1) f.sectionIdCounter,f.sectionIdCounter+1,
    f.updateTree s.header (·.insertIdx pos f.sectionIdCounter)⟩,f.sectionIdCounter)

def insertSections (f : File) (other : File) : List ℕ → ℕ → Option File
  | [],_ => some f
  | id :: ids,after =>
    match other.sections id with
    | none => none
    | some s =>
      match insertSectionAfter f s after with
      | none => none
      | some (f,new) => insertSections f
          {other with sections := fun i => if i = id then none else other.sections i} ids new

def appendOrInsert (f other : File) : Option ℕ → Option File
  | none => append f other
  | some after => insertSections f other other.sectionOrder after

/-! Following includes -/

inductive IncludeError
  | copyBuffer
  | io (path : Bytes)
  | parse
  | interpolate
  | includeDepthExceeded (maxDepth : ℕ)
  | missingConfigPath
  | missingGitDir
  | realpath
deriving DecidableEq

/-- The options, and what they are applied to. -/
structure Includes where
  maxDepth : ℕ
  errOnMaxDepthExceeded : Bool
  lossy : Bool
  /-- A path in a file at another path, none if it is ignored. -/
  resolvePath : Bytes → Option Bytes → Except IncludeError (Option Bytes)
  /-- A condition in a file at a path. -/
  includeConditionMatch : Bytes → Option Bytes → Except IncludeError Bool
  isFile : Bytes → Bool
  read : Bytes → Except IncludeError Bytes
  bomLength : Bytes → ℕ

def includeName : Bytes := [105,110,99,108,117,100,101]
def includeIfName : Bytes := includeName++[73,102]
def pathName : Bytes := [112,97,116,104]

variable (w : Includes)

/-- The sections of a file that has them, as `from_bytes_owned()` does without following includes. -/
def fromBytesOwned (bytes : Bytes) (metadata : Metadata) : Except IncludeError File :=
  match fromBytes w.bomLength bytes with
  | none => .error .parse
  | some events => .ok (fromParseEventsNoIncludes
      (splitSections (if w.lossy then discardNonessentialEvents else fun _ => true) events) metadata)

/-- The paths that a section includes, by `detach_include_paths()`. -/
def includePaths (s : Section) : Except IncludeError (List Bytes) :=
  if s.header.name = includeName ∧ s.header.subsectionName = none then .ok (values s.body pathName)
  else if s.header.name = includeIfName then
    match s.header.subsectionName with
    | none => .ok []
    | some condition => do
      if ← w.includeConditionMatch condition s.metadata.path then return values s.body pathName
      else return []
  else .ok []

def sectionIdsAndIncludePaths (f : File) : List ℕ → Option (Except IncludeError (List (ℕ × Bytes)))
  | [] => some (.ok [])
  | id :: ids =>
    match f.sections id with
    | none => none
    | some s =>
      match includePaths w s with
      | .error e => some (.error e)
      | .ok paths =>
        (sectionIdsAndIncludePaths f ids).map fun r => r.map fun rest => paths.map (id,·)++rest

def appendFollowedIncludesRecursively (resolve : File → Option (Except IncludeError File)) :
    List (ℕ × Bytes) → File → Option (Except IncludeError File)
  | [],f => some (.ok f)
  | (id,configPath) :: rest,f =>
    match f.sections id with
    | none => none
    | some s =>
      match w.resolvePath configPath s.metadata.path with
      | .error e => some (.error e)
      | .ok none => appendFollowedIncludesRecursively resolve rest f
      | .ok (some configPath) =>
        if w.isFile configPath then
          match w.read configPath with
          | .error e => some (.error e)
          | .ok bytes =>
            match fromBytesOwned w bytes ⟨some configPath,s.metadata.source,s.metadata.level+1,s.metadata.trust⟩ with
            | .error e => some (.error e)
            | .ok included =>
              match resolve included with
              | none => none
              | some (.error e) => some (.error e)
              | some (.ok included) =>
                match appendOrInsert f included (some id) with
                | none => none
                | some f => appendFollowedIncludesRecursively resolve rest f
        else appendFollowedIncludesRecursively resolve rest f

/-- What is left of the depth until it is `max_depth`. -/
def resolveIncludesRecursive : ℕ → File → Option (Except IncludeError File)
  | 0,f => some (if w.errOnMaxDepthExceeded then .error (.includeDepthExceeded w.maxDepth) else .ok f)
  | left+1,f =>
    match sectionIdsAndIncludePaths w f f.sectionOrder with
    | none => none
    | some (.error e) => some (.error e)
    | some (.ok paths) => appendFollowedIncludesRecursively w (resolveIncludesRecursive left) paths f

def resolveIncludes (f : File) : Option (Except IncludeError File) :=
  if w.maxDepth = 0 then some (.ok f) else resolveIncludesRecursive w w.maxDepth f

end Gix.Config
