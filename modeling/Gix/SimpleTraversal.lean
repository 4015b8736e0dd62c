import Gix.CommitLookup
import Gix.PriorityQueue

/-! # The simple commit traversal

`gix-traverse/src/commit/simple.rs`. The iterator state is passed explicitly; the priority
queue is any implementation of one. A commit-graph that turns out to be corrupt is dropped
and the iterator calls itself again, with the popped commit already gone. -/
namespace Gix.Commit
open PriorityQueue

inductive Parents | all | first deriving DecidableEq,Repr

/-- The collected data of one yielded commit. -/
structure Info (Id : Type) where
  id : Id
  parentIds : List Id
  commitTime : Option ℤ
  deriving DecidableEq,Repr

inductive Sorting
  | breadthFirst
  | byCommitTimeNewestFirst
  | byCommitTimeNewestFirstCutoffOlderThan (seconds : ℤ)
  deriving DecidableEq,Repr

def Sorting.cutoffTime : Sorting → Option ℤ
  | .byCommitTimeNewestFirstCutoffOlderThan seconds => some seconds
  | _ => none

variable {Id : Type} [DecidableEq Id] {H : Heap ℤ Id}

/-- `Simple` together with its `State`, less the buffers. -/
structure Simple (Id : Type) (H : Heap ℤ Id) where
  objects : Objects Id
  cache : Option (Graph Id)
  predicate : Id → Bool
  next : List Id
  queue : H.Carrier
  seen : List Id
  parents : Parents
  sorting : Sorting

/-- What a call of the iterator returns, with the iterator it leaves behind. -/
abbrev Simple.Out (Id : Type) (H : Heap ℤ Id) := Option (Except Error (Info Id)) × Simple Id H

namespace Simple

/-- `seen.insert(id)`, and if the predicate agrees `next.push_back(id)`. -/
def pushNext (s : Simple Id H) (id : Id) : Simple Id H :=
  if id ∈ s.seen then s
  else if s.predicate id then {s with seen := id :: s.seen, next := s.next++[id]}
  else {s with seen := id :: s.seen}

/-- `seen.insert(id)`, and if the predicate and the cutoff agree `queue.insert(time, id)`. -/
def pushQueue (cutoff : Option ℤ) (s : Simple Id H) (time : ℤ) (id : Id) : Simple Id H :=
  if id ∈ s.seen then s
  else if s.predicate id then
    match cutoff with
    | some limit => if time < limit then {s with seen := id :: s.seen}
        else {s with seen := id :: s.seen, queue := H.insert s.queue time id}
    | none => {s with seen := id :: s.seen, queue := H.insert s.queue time id}
  else {s with seen := id :: s.seen}

def filtered (H : Heap ℤ Id) (tips : List Id) (find : Objects Id) (predicate : Id → Bool) : Simple Id H :=
  tips.foldl pushNext ⟨find,none,predicate,[],H.empty,[],.all,.breadthFirst⟩

def new (H : Heap ℤ Id) (tips : List Id) (find : Objects Id) : Simple Id H :=
  filtered H tips find (fun _ => true)

def queueToVecdeque (s : Simple Id H) : Simple Id H :=
  {s with next := s.next++H.values s.queue, queue := H.empty}

/-- The loop of `Simple::sorting()` over the drained `next`. -/
def drainNext (cutoff : Option ℤ) : List Id → Simple Id H → Except Error (Simple Id H)
  | [], s => .ok s
  | id :: ids, s => match s.objects id with
    | .error _ => .error .find
    | .ok it => match it.committer with
      | .error _ => .error .objectDecode
      | .ok time => match cutoff with
        | some limit => drainNext cutoff ids
            (if time ≥ limit then {s with queue := H.insert s.queue time id} else s)
        | none => drainNext cutoff ids {s with queue := H.insert s.queue time id}

/-- `Simple::sorting()` -/
def withSorting (s : Simple Id H) (sorting : Sorting) : Except Error (Simple Id H) :=
  match sorting with
  | .breadthFirst => .ok {s with sorting := sorting}.queueToVecdeque
  | _ => drainNext sorting.cutoffTime s.next {s with sorting := sorting, next := []}

/-- `Simple::parents()` -/
def withParents (s : Simple Id H) (mode : Parents) : Simple Id H :=
  match mode with
  | .first => {s with parents := mode}.queueToVecdeque
  | .all => {s with parents := mode}

/-- `Simple::commit_graph()` -/
def withCommitGraph (s : Simple Id H) (cache : Option (Graph Id)) : Simple Id H := {s with cache := cache}

/-- `collect_parents()`: ids and times, unless the parent list fails to decode. -/
def collectParents (g : Graph Id) : List (Except Unit ℕ) → Option (List (Id × ℤ))
  | [] => some []
  | .error _ :: _ => none
  | .ok pos :: rest =>
    (collectParents g rest).map (fun ps => (g.idAt pos,(g.committerTimestamp pos : ℤ)) :: ps)

/-- `find_commit_iter(id).ok().and_then(committer).unwrap_or_default()` -/
def commitTime (objects : Objects Id) (id : Id) : ℤ :=
  match objects id with
  | .error _ => 0
  | .ok it => match it.committer with
    | .error _ => 0
    | .ok time => time

/-- The token loop of `next_by_commit_date()`. -/
def dateTokens (cutoff : Option ℤ) : CommitRefIter Id → List Id → Simple Id H →
    Except Error (List Id) × Simple Id H
  | [], ps, s => (.ok ps,s)
  | .error _ :: _, _, s => (.error .objectDecode,s)
  | .ok (.tree _) :: rest, ps, s => dateTokens cutoff rest ps s
  | .ok (.parent id) :: rest, ps, s =>
    dateTokens cutoff rest (ps++[id]) (s.pushQueue cutoff (commitTime s.objects id) id)
  | .ok _ :: _, ps, s => (.ok ps,s)

/-- The body of `next_by_commit_date()`; `retry` is its call of itself. -/
def stepByCommitDate (retry : Simple Id H → Out Id H) (cutoff : Option ℤ) (s : Simple Id H) : Out Id H :=
  match H.pop s.queue with
  | none => (none,s)
  | some ((time,oid),queue) =>
    let s := {s with queue := queue}
    match find s.cache s.objects oid with
    | .error e => (some (.error e),s)
    | .ok (.cachedCommit g pos) => match collectParents g (g.iterParents pos) with
      | none => retry {s with cache := none}
      | some ps =>
        (some (.ok ⟨oid,ps.map Prod.fst,some time⟩),ps.foldl (fun s p => s.pushQueue cutoff p.2 p.1) s)
    | .ok (.commitRefIter it) => match dateTokens cutoff it [] s with
      | (.error e,s) => (some (.error e),s)
      | (.ok ps,s) => (some (.ok ⟨oid,ps,some time⟩),s)

/-- After the cache was dropped there is none to be dropped again, so one retry is all. -/
def nextByCommitDate (cutoff : Option ℤ) : Simple Id H → Out Id H :=
  stepByCommitDate (stepByCommitDate (fun s => (none,s)) cutoff) cutoff

/-- The loop of `next_by_topology()` over the parents of a cached commit. -/
def topologyCached (mode : Parents) : List (Id × ℤ) → List Id → Simple Id H → List Id × Simple Id H
  | [], ps, s => (ps,s)
  | (id,_) :: rest, ps, s => match mode with
    | .first => (ps++[id],s.pushNext id)
    | .all => topologyCached mode rest (ps++[id]) (s.pushNext id)

/-- The token loop of `next_by_topology()`. -/
def topologyTokens (mode : Parents) : CommitRefIter Id → List Id → Simple Id H →
    Except Error (List Id) × Simple Id H
  | [], ps, s => (.ok ps,s)
  | .error _ :: _, _, s => (.error .objectDecode,s)
  | .ok (.tree _) :: rest, ps, s => topologyTokens mode rest ps s
  | .ok (.parent id) :: rest, ps, s => match mode with
    | .first => (.ok (ps++[id]),s.pushNext id)
    | .all => topologyTokens mode rest (ps++[id]) (s.pushNext id)
  | .ok _ :: _, ps, s => (.ok ps,s)

/-- The body of `next_by_topology()`; `retry` is its call of itself. -/
def stepByTopology (retry : Simple Id H → Out Id H) (s : Simple Id H) : Out Id H :=
  match s.next with
  | [] => (none,s)
  | oid :: next =>
    let s := {s with next := next}
    match find s.cache s.objects oid with
    | .error e => (some (.error e),s)
    | .ok (.cachedCommit g pos) => match collectParents g (g.iterParents pos) with
      | none => retry {s with cache := none}
      | some ps =>
        let r := topologyCached s.parents ps [] s
        (some (.ok ⟨oid,r.1,none⟩),r.2)
    | .ok (.commitRefIter it) => match topologyTokens s.parents it [] s with
      | (.error e,s) => (some (.error e),s)
      | (.ok ps,s) => (some (.ok ⟨oid,ps,none⟩),s)

def nextByTopology : Simple Id H → Out Id H :=
  stepByTopology (stepByTopology (fun s => (none,s)))

/-- `Iterator::next()` -/
def iterNext (s : Simple Id H) : Out Id H :=
  match s.parents with
  | .first => s.nextByTopology
  | .all => match s.sorting with
    | .breadthFirst => s.nextByTopology
    | .byCommitTimeNewestFirst => s.nextByCommitDate none
    | .byCommitTimeNewestFirstCutoffOlderThan seconds => s.nextByCommitDate (some seconds)

/-- All items up to the first `None`; without a result if `fuel` calls do not get there. -/
def collect : ℕ → Simple Id H → Option (List (Except Error (Info Id)))
  | 0, _ => none
  | fuel+1, s => match s.iterNext with
    | (none,_) => some []
    | (some item,s) => (collect fuel s).map (item :: ·)

end Simple
end Gix.Commit
