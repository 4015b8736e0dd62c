import Gix.PriorityQueue
import Gix.RevisionGraph
import Gix.StepLoop

/-! # Merge bases

`gix-revision/src/merge_base.rs`: the ancestors of both sides are painted, newest first, until
everything in the queue is known to be behind a common ancestor. What was found is then thinned
out. -/
namespace Gix.Revision
open Gix.Commit (History generationNumberInfinity)
open Gix.PriorityQueue

@[ext] structure Flags where
  commit1 : Bool
  commit2 : Bool
  stale : Bool
  result : Bool
deriving DecidableEq,Repr,Inhabited

namespace Flags

def COMMIT1 : Flags := ⟨true,false,false,false⟩
def COMMIT2 : Flags := ⟨false,true,false,false⟩
def STALE : Flags := ⟨false,false,true,false⟩
def RESULT : Flags := ⟨false,false,false,true⟩

def union (a b : Flags) : Flags :=
  ⟨a.commit1 || b.commit1,a.commit2 || b.commit2,a.stale || b.stale,a.result || b.result⟩

def inter (a b : Flags) : Flags :=
  ⟨a.commit1 && b.commit1,a.commit2 && b.commit2,a.stale && b.stale,a.result && b.result⟩

end Flags

/-- `GenThenTime`, in the order of generations and then times. -/
abbrev GenThenTime := ℕ ×ₗ ℤ

def GenThenTime.generation (k : GenThenTime) : ℕ := (ofLex k).1

variable {Id : Type}

def GenThenTime.from (c : Commit Id Flags) : GenThenTime := toLex (c.generation.getD generationNumberInfinity,c.commitTime)

variable [LinearOrder Id]

section Paint
variable (heap : Heap GenThenTime Id) (source : Source Id)

structure Painting where
  graph : Graph Id Flags
  queue : heap.Carrier
  out : List (Id × GenThenTime)

/-- How a tip is put into the queue. -/
def queueTip (color : Flags) (id : Id) (c : Commit Id Flags) (queue : heap.Carrier) : Commit Id Flags × heap.Carrier :=
  ({c with data := c.data.union color},heap.insert queue (GenThenTime.from c) id)

/-- How a parent is painted, and put into the queue if this changes it. -/
def paintParent (flags : Flags) (id : Id) (parent : Commit Id Flags) (queue : heap.Carrier) : Commit Id Flags × heap.Carrier :=
  if parent.data.inter flags ≠ flags then ({parent with data := parent.data.union flags},heap.insert queue (GenThenTime.from parent) id)
  else (parent,queue)

/-- A loop of `get_or_insert_full_commit()` over ids. -/
def forEachCommit {σ : Type} (update : Id → Commit Id Flags → σ → Commit Id Flags × σ) :
    List Id → Graph Id Flags → σ → Except Error (Graph Id Flags × σ)
  | [], g, s => .ok (g,s)
  | id :: ids, g, s => match g.getOrInsertFullCommit source id (update id) s with
    | .error e => .error e
    | .ok (_,g,s) => forEachCommit update ids g s

def paintStart (first : Id) (others : List Id) (g : Graph Id Flags) : Except Error (Painting heap) :=
  match forEachCommit source (queueTip heap Flags.COMMIT1) [first] g heap.empty with
  | .error e => .error e
  | .ok (g,queue) => match forEachCommit source (queueTip heap Flags.COMMIT2) others g queue with
    | .error e => .error e
    | .ok (g,queue) => .ok ⟨g,queue,[]⟩

def notStale (g : Graph Id Flags) (id : Id) : Bool := (g.map id).elim false (fun c => !c.data.stale)

/-- A round of `paint_down_to_common()` -/
def paintStep (s : Painting heap) : Except Error (ForInStep (Painting heap)) :=
  if (heap.values s.queue).any (notStale s.graph) then
    match heap.pop s.queue with
    | none => .error .panic
    | some ((info,id),queue) => match s.graph.map id with
      | none => .error .panic
      | some commit =>
        let flags := commit.data.inter ⟨true,true,true,false⟩
        let both := flags == ⟨true,true,false,false⟩
        let new := both && !commit.data.result
        let graph := if new then s.graph.set id {commit with data := commit.data.union Flags.RESULT} else s.graph
        let out := if new then s.out++[(id,info)] else s.out
        let flags := if both then flags.union Flags.STALE else flags
        match forEachCommit source (paintParent heap flags) commit.parents graph queue with
        | .error e => .error e
        | .ok (graph,queue) => .ok (.yield ⟨graph,queue,out⟩)
  else .ok (.done s)

def paintDownToCommon (fuel : ℕ) (first : Id) (others : List Id) (g : Graph Id Flags) : Option (Except Error (Painting heap)) :=
  match paintStart heap source first others g with
  | .error e => some (.error e)
  | .ok s => StepLoop.run (paintStep heap source) fuel s

end Paint

section Redundant
variable (source : Source Id)

/-- A parent of a result is where a walk starts, once. -/
def markWalkStart (id : Id) (parent : Commit Id Flags) (walkStart : List (Id × GenThenTime)) :
    Commit Id Flags × List (Id × GenThenTime) :=
  if parent.data.stale then (parent,walkStart)
  else ({parent with data := parent.data.union Flags.STALE},walkStart++[(id,GenThenTime.from parent)])

/-- The loop over the commits that marks them, and the parents to start with. -/
def markResults : List (Id × GenThenTime) → Graph Id Flags → List (Id × GenThenTime) →
    Except Error (Graph Id Flags × List (Id × GenThenTime))
  | [], g, walkStart => .ok (g,walkStart)
  | (id,_) :: commits, g, walkStart => match g.map id with
    | none => .error .panic
    | some commit =>
      let g := g.set id {commit with data := commit.data.union Flags.RESULT}
      match forEachCommit source markWalkStart commit.parents g walkStart with
      | .error e => .error e
      | .ok (g,walkStart) => markResults commits g walkStart

def setStale (stale : Bool) (id : Id) (g : Graph Id Flags) : Except Error (Graph Id Flags) :=
  match g.map id with
  | none => .error .panic
  | some c => .ok (g.set id {c with data := {c.data with stale := stale}})

def unmarkWalkStart : List (Id × GenThenTime) → Graph Id Flags → Except Error (Graph Id Flags)
  | [], g => .ok g
  | (id,_) :: ids, g => match setStale false id g with
    | .error e => .error e
    | .ok g => unmarkWalkStart ids g

structure Walk (Id : Type) where
  graph : Graph Id Flags
  /-- The top is in front. -/
  stack : List (Id × GenThenTime)
  stillIndependent : ℕ
  minGenPos : ℕ
  minGen : ℕ

/-- The loop that moves to the first of the sorted commits that is not stale. -/
def advanceMinGenPos (g : Graph Id Flags) (sorted : List (Id × GenThenTime)) : ℕ → ℕ → ℕ
  | 0, pos => pos
  | fuel+1, pos =>
    if pos+1 < sorted.length ∧ (sorted[pos]?.elim false (fun c => (g.data c.1).stale)) = true then
      advanceMinGenPos g sorted fuel (pos+1)
    else pos

/-- What is done with a commit that is a result; at most one is left in the end. -/
def visitResult (sorted : List (Id × GenThenTime)) (id : Id) (commit : Commit Id Flags) (s : Walk Id) : ForInStep (Walk Id) :=
  if commit.data.result then
    let s := {s with graph := s.graph.set id {commit with data := {commit.data with result := false}}
                     stillIndependent := s.stillIndependent-1}
    if s.stillIndependent ≤ 1 then .done s
    else if (sorted[s.minGenPos]?.map Prod.fst) = some id then
      let pos := advanceMinGenPos s.graph sorted sorted.length s.minGenPos
      .yield {s with minGenPos := pos, minGen := (sorted[pos]?.elim 0 (fun c => GenThenTime.generation c.2))}
    else .yield s
  else .yield s

/-- How a parent is put on the stack. -/
def pushParent (id : Id) (parent : Commit Id Flags) (stack : List (Id × GenThenTime)) : Commit Id Flags × List (Id × GenThenTime) :=
  if parent.data.stale then (parent,stack)
  else ({parent with data := parent.data.union Flags.STALE},(id,GenThenTime.from parent) :: stack)

/-- The loop over the parents, which ends at the first one that there is. -/
def pushParents : List Id → Graph Id Flags → List (Id × GenThenTime) → Except Error (Graph Id Flags × List (Id × GenThenTime))
  | [], g, stack => .ok (g,stack)
  | id :: ids, g, stack => match g.getOrInsertFullCommit source id (pushParent id) stack with
    | .error e => .error e
    | .ok (true,g,stack) => .ok (g,stack)
    | .ok (false,g,stack) => pushParents ids g stack

def walkStep (sorted : List (Id × GenThenTime)) (s : Walk Id) : Except Error (ForInStep (Walk Id)) :=
  match s.stack with
  | [] => .ok (.done s)
  | (id,info) :: below => match s.graph.map id with
    | none => .error .panic
    | some commit => match visitResult sorted id commit s with
      | .done s => .ok (.done s)
      | .yield s =>
        if info.generation < s.minGen then .ok (.yield {s with stack := below})
        else match pushParents source commit.parents s.graph s.stack with
          | .error e => .error e
          | .ok (g,stack) =>
            .ok (.yield {s with graph := g, stack := if stack.length = s.stack.length then below else stack})

/-- The walks from all starts, the last one of which is in front. -/
def walkAll (sorted : List (Id × GenThenTime)) (fuel : ℕ) : List (Id × GenThenTime) → Walk Id → Option (Except Error (Walk Id))
  | [], s => some (.ok s)
  | (id,info) :: starts, s =>
    if s.stillIndependent > 1 then
      match setStale true id s.graph with
      | .error e => some (.error e)
      | .ok g => match StepLoop.run (walkStep source sorted) fuel {s with graph := g, stack := [(id,info)]} with
        | none => none
        | some (.error e) => some (.error e)
        | some (.ok s) => walkAll sorted fuel starts s
    else some (.ok s)

def removeRedundant (fuel : ℕ) (commits : List (Id × GenThenTime)) (g : Graph Id Flags) :
    Option (Except Error (List Id × Graph Id Flags)) :=
  if commits.isEmpty then some (.ok ([],g))
  else
    let g := g.clearCommitData (fun _ => default)
    let sorted := commits.mergeSort (fun a b => a.2 ≤ b.2)
    match markResults source commits g [] with
    | .error e => some (.error e)
    | .ok (g,walkStart) =>
      let walkStart := walkStart.mergeSort (fun a b => a.1 ≤ b.1)
      match unmarkWalkStart walkStart g with
      | .error e => some (.error e)
      | .ok g => match walkAll source sorted fuel walkStart.reverse
            ⟨g,[],commits.length,0,sorted[0]?.elim 0 (fun c => GenThenTime.generation c.2)⟩ with
        | none => none
        | some (.error e) => some (.error e)
        | some (.ok s) => some (.ok ((commits.map Prod.fst).filter (notStale s.graph),s.graph))

end Redundant

def mergeBase (heap : Heap GenThenTime Id) (source : Source Id) (fuel : ℕ) (first : Id) (others : List Id) (g : Graph Id Flags) :
    Option (Except Error (Option (List Id) × Graph Id Flags)) :=
  if others.isEmpty ∨ first ∈ others then some (.ok (some [first],g))
  else match paintDownToCommon heap source fuel first others (g.clearCommitData (fun _ => default)) with
    | none => none
    | some (.error e) => some (.error e)
    | some (.ok s) => match removeRedundant source fuel s.out s.graph with
      | none => none
      | some (.error e) => some (.error e)
      | some (.ok (bases,g)) => some (.ok (if bases.isEmpty then none else some bases,g))

end Gix.Revision
