import Gix.Fallible
import Gix.SimpleTraversal

/-! # The topological commit walk

`gix-traverse/src/commit/topo/`: an explore walk and an indegree walk, both in order of
generation and commit time, feed the walk that yields the commits. -/
namespace Gix.Commit
open PriorityQueue Fallible

namespace Topo

inductive Sorting | dateOrder | topoOrder deriving DecidableEq,Repr

structure WalkFlags where
  seen : Bool := false
  explored : Bool := false
  inDegree : Bool := false
  uninteresting : Bool := false
  bottom : Bool := false
  added : Bool := false
  deriving DecidableEq,Repr

/-- `|` on bitflags -/
def WalkFlags.union (a b : WalkFlags) : WalkFlags :=
  ⟨a.seen || b.seen,a.explored || b.explored,a.inDegree || b.inDegree,
    a.uninteresting || b.uninteresting,a.bottom || b.bottom,a.added || b.added⟩

/-- Generation first, then commit time. -/
abbrev GenAndCommitTime := ℕ ×ₗ ℤ

variable {Id : Type}

/-- A priority queue, or a stack whose last element is on top. -/
inductive Queue (HI : Heap ℤ (Info Id))
  | date (q : HI.Carrier)
  | topo (q : List (ℤ × Info Id))

namespace Queue
variable {HI : Heap ℤ (Info Id)}

def new : Sorting → Queue HI
  | .dateOrder => .date HI.empty
  | .topoOrder => .topo []

def push (commitTime : ℤ) (info : Info Id) : Queue HI → Queue HI
  | .date q => .date (HI.insert q commitTime info)
  | .topo q => .topo (q++[(commitTime,info)])

def pop : Queue HI → Option (Info Id × Queue HI)
  | .date q => (HI.pop q).map (fun r => (r.1.2,.date r.2))
  | .topo q => q.getLast?.map (fun x => (x.2,.topo q.dropLast))

/-- A stable sort of the stack by commit time, the newest on top. -/
def initialSort : Queue HI → Queue HI
  | .date q => .date q
  | .topo q => .topo (q.insertionSort (fun a b => a.1 ≤ b.1))

end Queue
end Topo

/-- `Topo`, less its buffer. The counters are unbounded. -/
structure Topo (Id : Type) (HE : Heap Topo.GenAndCommitTime Id) (HI : Heap ℤ (Info Id)) where
  commitGraph : Option (Graph Id)
  find : Objects Id
  predicate : Id → Bool
  indegrees : Id → Option ℤ
  states : Id → Option Topo.WalkFlags
  exploreQueue : HE.Carrier
  indegreeQueue : HE.Carrier
  topoQueue : Topo.Queue HI
  parents : Parents
  minGen : ℕ

namespace Topo
variable {Id : Type} {HE : Heap GenAndCommitTime Id} {HI : Heap ℤ (Info Id)}

abbrev Method (Id : Type) (HE : Heap GenAndCommitTime Id) (HI : Heap ℤ (Info Id)) (α : Type) :=
  Fallible (Topo Id HE HI) Error α

/-- The token loop of `gen_and_commit_time()`. -/
def committerSeconds : CommitRefIter Id → Except Error ℤ
  | [] => .ok 0
  | .error _ :: _ => .error .objectDecode
  | .ok (.committer seconds) :: _ => .ok seconds
  | .ok .other :: _ => .ok 0
  | .ok _ :: rest => committerSeconds rest

def genAndCommitTime : Either Id → Except Error GenAndCommitTime
  | .commitRefIter c => (committerSeconds c).map (fun time => toLex (generationNumberInfinity,time))
  | .cachedCommit g pos => .ok (toLex (g.generation pos,(g.committerTimestamp pos : ℤ)))

/-- The token loop of `collect_parents()`. -/
def parentTokens (firstOnly : Bool) : CommitRefIter Id → Except Error (List Id)
  | [] => .ok []
  | .ok (.tree _) :: rest => parentTokens firstOnly rest
  | .ok (.parent id) :: rest => if firstOnly then .ok [id] else (parentTokens firstOnly rest).map (id :: ·)
  | .ok _ :: _ => .ok []
  | .error _ :: _ => .error .objectDecode

/-- The generation and time of each parent, from the cache or the object database. -/
def fillParents (cache : Option (Graph Id)) (f : Objects Id) :
    List Id → Except Error (List (Id × GenAndCommitTime))
  | [] => .ok []
  | id :: ids => do
    let commit ← Commit.find cache f id
    let genTime ← genAndCommitTime commit
    let rest ← fillParents cache f ids
    return (id,genTime) :: rest

/-- The parents the commit-graph knows, unless one of them fails to decode. -/
def cachedParents (g : Graph Id) (firstOnly : Bool) :
    List (Except Unit ℕ) → Option (List (Id × GenAndCommitTime))
  | [] => some []
  | .error _ :: _ => none
  | .ok pos :: rest =>
    let parent := (g.idAt pos,toLex (g.generation pos,(g.committerTimestamp pos : ℤ)))
    if firstOnly then some [parent] else (cachedParents g firstOnly rest).map (parent :: ·)

/-- The body of `collect_parents()`; `retry` is its call of itself without a cache. -/
def collectParentsBody (retry : Except Error (List (Id × GenAndCommitTime)) × Option (Graph Id))
    (cache : Option (Graph Id)) (f : Objects Id) (id : Id) (firstOnly : Bool) :
    Except Error (List (Id × GenAndCommitTime)) × Option (Graph Id) :=
  match Commit.find cache f id with
  | .error e => (.error e,cache)
  | .ok (.commitRefIter c) => ((parentTokens firstOnly c).bind (fillParents cache f),cache)
  | .ok (.cachedCommit g pos) => match cachedParents g firstOnly (g.iterParents pos) with
    | none => retry
    | some ps => (.ok ps,cache)

def collectParentsFrom (cache : Option (Graph Id)) (f : Objects Id) (id : Id) (firstOnly : Bool) :
    Except Error (List (Id × GenAndCommitTime)) × Option (Graph Id) :=
  collectParentsBody (collectParentsBody (.ok [],none) none f id firstOnly) cache f id firstOnly

def collectParentsMode (id : Id) (firstOnly : Bool) : Method Id HE HI (List (Id × GenAndCommitTime)) :=
  fun w =>
    let r := collectParentsFrom w.commitGraph w.find id firstOnly
    some (r.1,{w with commitGraph := r.2})

def collectAllParents (id : Id) : Method Id HE HI (List (Id × GenAndCommitTime)) :=
  collectParentsMode id false

def collectParents (id : Id) : Method Id HE HI (List (Id × GenAndCommitTime)) :=
  fun w => collectParentsMode id (w.parents == .first) w

variable [DecidableEq Id]

/-- `states.entry(id).and_modify(|s| *s |= pass).or_insert(insert)` -/
def orInsert (pass insert : WalkFlags) (states : Id → Option WalkFlags) (id : Id) : Id → Option WalkFlags :=
  Function.update states id (some (match states id with
    | some s => s.union pass
    | none => insert))

/-- Mark all `ids` uninteresting, as seen if they were not known. -/
def markUninteresting (ids : List Id) : Method Id HE HI Unit :=
  modify (fun w => {w with states := ids.foldl (orInsert {uninteresting := true}
    {uninteresting := true, seen := true}) w.states})

/-- The loop over the parents of an uninteresting commit. -/
def markGrandParents : List Id → Method Id HE HI Unit
  | [] => pure ()
  | id :: ids => do
    let grandParents ← collectAllParents id
    markUninteresting (grandParents.map Prod.fst)
    markGrandParents ids

/-- `states.get_mut(id).ok_or(MissingStateUnexpected)?` -/
def state (id : Id) : Method Id HE HI WalkFlags :=
  fun w => match w.states id with
    | none => some (.error .missingStateUnexpected,w)
    | some s => some (.ok s,w)

def setState (id : Id) (s : WalkFlags) : Method Id HE HI Unit :=
  modify (fun w => {w with states := Function.update w.states id (some s)})

def processParents (id : Id) (parents : List (Id × GenAndCommitTime)) : Method Id HE HI Unit := do
  let s ← state id
  if s.added then pure ()
  else
    setState id {s with added := true}
    let ids := parents.map Prod.fst
    if s.uninteresting then
      markGrandParents ids
      modify (fun w => {w with states := ids.foldl (orInsert {uninteresting := true}
        {uninteresting := true}) w.states})
    else
      modify (fun w => {w with states := ids.foldl (orInsert {} {seen := true}) w.states})

/-- The loop over the parents in `explore_walk_step()`. -/
def exploreParents : List (Id × GenAndCommitTime) → Method Id HE HI Unit
  | [] => pure ()
  | (id,genTime) :: rest => do
    let s ← state id
    if s.explored then exploreParents rest
    else
      setState id {s with explored := true}
      modify (fun w => {w with exploreQueue := HE.insert w.exploreQueue genTime id})
      exploreParents rest

def exploreWalkStep : Method Id HE HI Unit := fun w =>
  match HE.pop w.exploreQueue with
  | none => some (.ok (),w)
  | some ((_,id),queue) => (do
      let parents ← collectParents id
      processParents id parents
      exploreParents parents : Method Id HE HI Unit) {w with exploreQueue := queue}

def exploreToDepth : ℕ → ℕ → Method Id HE HI Unit
  | 0, _ => fun _ => none
  | fuel+1, genCutoff => fun w => match HE.peek w.exploreQueue with
    | none => some (.ok (),w)
    | some (genTime,_) =>
      if genCutoff ≤ (ofLex genTime).1 then (do
        exploreWalkStep
        exploreToDepth fuel genCutoff : Method Id HE HI Unit) w
      else some (.ok (),w)

/-- `indegrees.entry(id).and_modify(|e| *e += 1).or_insert(2)` -/
def countChild (id : Id) : Method Id HE HI Unit := fun w =>
  let i := match w.indegrees id with
    | some i => i+1
    | none => 2
  some (.ok (),{w with indegrees := Function.update w.indegrees id (some i)})

/-- The loop over the parents in `indegree_walk_step()`. -/
def indegreeParents : List (Id × GenAndCommitTime) → Method Id HE HI Unit
  | [] => pure ()
  | (id,genTime) :: rest => do
    countChild id
    let s ← state id
    if s.inDegree then indegreeParents rest
    else
      setState id {s with inDegree := true}
      modify (fun w => {w with indegreeQueue := HE.insert w.indegreeQueue genTime id})
      indegreeParents rest

def indegreeWalkStep (fuel : ℕ) : Method Id HE HI Unit := fun w =>
  match HE.pop w.indegreeQueue with
  | none => some (.ok (),w)
  | some ((genTime,id),queue) => (do
      exploreToDepth fuel (ofLex genTime).1
      let parents ← collectParents id
      indegreeParents parents : Method Id HE HI Unit) {w with indegreeQueue := queue}

/-- `inner` bounds the loop of each `explore_to_depth()`. -/
def computeIndegreesToDepth (inner : ℕ) : ℕ → ℕ → Method Id HE HI Unit
  | 0, _ => fun _ => none
  | fuel+1, genCutoff => fun w => match HE.peek w.indegreeQueue with
    | none => some (.ok (),w)
    | some (genTime,_) =>
      if genCutoff ≤ (ofLex genTime).1 then (do
        indegreeWalkStep inner
        computeIndegreesToDepth inner fuel genCutoff : Method Id HE HI Unit) w
      else some (.ok (),w)

/-- `indegrees.get(id).ok_or(MissingIndegreeUnexpected)?` -/
def indegree (id : Id) : Method Id HE HI ℤ :=
  fun w => match w.indegrees id with
    | none => some (.error .missingIndegreeUnexpected,w)
    | some i => some (.ok i,w)

def setIndegree (id : Id) (i : ℤ) : Method Id HE HI Unit :=
  modify (fun w => {w with indegrees := Function.update w.indegrees id (some i)})

/-- Queue a commit to be yielded, with all its parents. -/
def pushTopo (id : Id) (commitTime : ℤ) : Method Id HE HI Unit := do
  let parents ← collectAllParents id
  modify (fun w => {w with
    topoQueue := w.topoQueue.push commitTime ⟨id,parents.map Prod.fst,some commitTime⟩})

/-- Lower the minimal generation and bring the indegrees up to it. -/
def lowerMinGen (fuel gen : ℕ) : Method Id HE HI Unit := fun w =>
  if gen < w.minGen then computeIndegreesToDepth fuel fuel gen {w with minGen := gen}
  else some (.ok (),w)

/-- The loop over the parents in `expand_topo_walk()`. -/
def expandParents (fuel : ℕ) : List (Id × GenAndCommitTime) → Method Id HE HI Unit
  | [] => pure ()
  | (id,genTime) :: rest => do
    let s ← state id
    if s.uninteresting then expandParents fuel rest
    else
      lowerMinGen fuel (ofLex genTime).1
      let i ← indegree id
      setIndegree id (i-1)
      if i-1 ≠ 1 then expandParents fuel rest
      else
        pushTopo id (ofLex genTime).2
        expandParents fuel rest

def expandTopoWalk (fuel : ℕ) (id : Id) : Method Id HE HI Unit := do
  let parents ← collectParents id
  processParents id parents
  expandParents fuel parents

/-- What a call of the iterator returns, with the walk it leaves behind. -/
abbrev Out (Id : Type) (HE : Heap GenAndCommitTime Id) (HI : Heap ℤ (Info Id)) :=
  Option (Except Error (Info Id)) × Topo Id HE HI

def popCommit (fuel : ℕ) (w : Topo Id HE HI) : Option (Out Id HE HI) :=
  match w.topoQueue.pop with
  | none => some (none,w)
  | some (commit,queue) =>
    match (do
      let _ ← indegree commit.id
      setIndegree commit.id 0
      expandTopoWalk fuel commit.id : Method Id HE HI Unit) {w with topoQueue := queue} with
    | none => none
    | some (.error e,w) => some (some (.error e),w)
    | some (.ok _,w) => some (some (.ok commit),w)

/-- `Iterator::next()`; `inner` bounds the loops of each `pop_commit()`. -/
def iterNext (inner : ℕ) : ℕ → Topo Id HE HI → Option (Out Id HE HI)
  | 0, _ => none
  | fuel+1, w => match popCommit inner w with
    | none => none
    | some (none,w) => some (none,w)
    | some (some (.error e),w) => some (some (.error e),w)
    | some (some (.ok commit),w) =>
      if w.predicate commit.id then some (some (.ok commit),w) else iterNext inner fuel w

/-- All items up to the first `None`; `inner` bounds each call of the iterator. -/
def collect (inner : ℕ) : ℕ → Topo Id HE HI → Option (List (Except Error (Info Id)))
  | 0, _ => none
  | fuel+1, w => match iterNext inner inner w with
    | none => none
    | some (none,_) => some []
    | some (some item,w) => (collect inner fuel w).map (item :: ·)

structure Builder (Id : Type) where
  commitGraph : Option (Graph Id)
  find : Objects Id
  predicate : Id → Bool
  sorting : Sorting
  parents : Parents
  tips : List Id
  ends : List Id

/-- `Builder::from_iters()` with its defaults. -/
def Builder.fromIters (find : Objects Id) (tips ends : List Id) : Builder Id :=
  ⟨none,find,fun _ => true,.dateOrder,.all,tips,ends⟩

def tipFlags : WalkFlags := {seen := true, explored := true, inDegree := true}
def endFlags : WalkFlags := tipFlags.union {uninteresting := true, bottom := true}

/-- `find()` and `gen_and_commit_time()` of a tip or an end. -/
def lookupTime (id : Id) : Method Id HE HI GenAndCommitTime := fun w =>
  lift ((Commit.find w.commitGraph w.find id).bind genAndCommitTime) w

/-- The first loop of `build()`. -/
def queueRoots : List (Id × WalkFlags) → Method Id HE HI Unit
  | [] => pure ()
  | (id,flags) :: rest => do
    setIndegree id 1
    let genTime ← lookupTime id
    modify (fun w => {w with
      minGen := if (ofLex genTime).1 < w.minGen then (ofLex genTime).1 else w.minGen
      states := Function.update w.states id (some flags)
      exploreQueue := HE.insert w.exploreQueue genTime id
      indegreeQueue := HE.insert w.indegreeQueue genTime id})
    queueRoots rest

/-- The loop of `build()` that queues the tips nothing else leads to. -/
def queueTips : List Id → Method Id HE HI Unit
  | [] => pure ()
  | id :: rest => do
    let i ← indegree id
    if i ≠ 1 then queueTips rest
    else
      let genTime ← lookupTime id
      pushTopo id (ofLex genTime).2
      queueTips rest

def Builder.build (fuel : ℕ) (b : Builder Id) (HE : Heap GenAndCommitTime Id) (HI : Heap ℤ (Info Id)) :
    Option (Except Error Unit × Topo Id HE HI) :=
  (do
    queueRoots (b.tips.map (fun id => (id,tipFlags))++b.ends.map (fun id => (id,endFlags)))
    -- the same loop marks the parents of the ends here and the grandparents later
    markGrandParents b.ends
    let w ← get
    computeIndegreesToDepth fuel fuel w.minGen
    queueTips b.tips
    modify (fun w => {w with topoQueue := w.topoQueue.initialSort}) : Method Id HE HI Unit)
    ⟨b.commitGraph,b.find,b.predicate,fun _ => none,fun _ => none,HE.empty,HE.empty,.new b.sorting,
      b.parents,generationNumberInfinity⟩

end Topo
end Gix.Commit
