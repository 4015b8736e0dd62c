import Mathlib

/-! # Commits as the traversals see them

`gix-traverse/src/commit/mod.rs`: a commit comes either from the object database, as a
lazy iterator over its tokens, or from the commit-graph file, as a position in it. -/
namespace Gix.Commit

/-- `gix_object::decode::Error` and the ways in which an object cannot be provided. -/
inductive Error
  | find | objectDecode | missingIndegreeUnexpected | missingStateUnexpected
  deriving DecidableEq,Repr

/-- `gix_object::commit::ref_iter::Token`, with the data the traversals look at. -/
inductive Token (Id : Type)
  | tree (id : Id) | parent (id : Id) | author | committer (seconds : ℤ) | other
  deriving DecidableEq,Repr

/-- `CommitRefIter`: the tokens still to come, any of which may fail to decode. -/
abbrev CommitRefIter (Id : Type) := List (Except Unit (Token Id))

/-- `gix_object::FindExt::find_commit_iter()` of the object database. -/
abbrev Objects (Id : Type) := Id → Except Unit (CommitRefIter Id)

/-- `CommitRefIter::committer()`: the time of the first committer, or the first failure. -/
def CommitRefIter.committer {Id : Type} : CommitRefIter Id → Except Unit ℤ
  | [] => .error ()
  | .ok (.committer seconds) :: _ => .ok seconds
  | .error e :: _ => .error e
  | _ :: rest => CommitRefIter.committer rest

/-- `gix_commitgraph::Graph`, addressed by position. The timestamps are 34 bits wide and
the parent iterator may report that the file is corrupt at any element. -/
structure Graph (Id : Type) where
  lookup : Id → Option ℕ
  idAt : ℕ → Id
  iterParents : ℕ → List (Except Unit ℕ)
  committerTimestamp : ℕ → ℕ
  generation : ℕ → ℕ

def generationNumberInfinity : ℕ := 0xffffffff

/-- A commit of the object database, or one of the graph file it is backed by. -/
inductive Either (Id : Type)
  | commitRefIter (c : CommitRefIter Id)
  | cachedCommit (graph : Graph Id) (pos : ℕ)

variable {Id : Type}

/-- `commit::find()`: the cache is asked first, the object database otherwise. -/
def find (cache : Option (Graph Id)) (objects : Objects Id) (id : Id) : Except Error (Either Id) :=
  match cache.bind (fun g => (g.lookup id).map (Either.cachedCommit g)) with
  | some c => .ok c
  | none => match objects id with
    | .ok c => .ok (.commitRefIter c)
    | .error _ => .error .find

/-- A finite history all of whose commits are in the object database, each one as a tree,
its parents, the author, the committer and whatever follows. -/
structure History (Id : Type) where
  commits : List Id
  parents : Id → List Id
  time : Id → ℤ
  objects : Objects Id
  closed : ∀ c ∈ commits, ∀ p ∈ parents c, p ∈ commits
  stored : ∀ c ∈ commits, ∃ tree rest, objects c = .ok
    (.ok (.tree tree) :: (parents c).map (fun p => .ok (.parent p)) ++
      .ok .author :: .ok (.committer (time c)) :: rest)

namespace History
variable (h : History Id) {c : Id} {tips : List Id}

def Parent (c p : Id) : Prop := p ∈ h.parents c

/-- `a` is `c` or one of its ancestors. -/
def Reachable (c a : Id) : Prop := Relation.ReflTransGen h.Parent c a

/-- `a` is an ancestor of `c` other than by being `c`. -/
def Ancestor (c a : Id) : Prop := Relation.TransGen h.Parent c a

def Acyclic : Prop := ∀ c, ¬ h.Ancestor c c

/-- What a walk starting at any of `tips` may meet. -/
def ReachableFrom (tips : List Id) (c : Id) : Prop := ∃ t ∈ tips, h.Reachable t c

theorem Reachable.mem {h : History Id} {a : Id} (hr : h.Reachable c a) (hc : c∈h.commits) :
    a∈h.commits := by
  induction hr with
  | refl => exact hc
  | tail _ hp ih => exact h.closed _ ih _ hp

theorem ReachableFrom.mem {h : History Id}
    (hr : h.ReachableFrom tips c) (ht : ∀ t∈tips,t∈h.commits) : c∈h.commits := by
  obtain ⟨t,hm,hr⟩ := hr
  exact hr.mem (ht t hm)

theorem ReachableFrom.parent {h : History Id} {p : Id}
    (hr : h.ReachableFrom tips c) (hp : p∈h.parents c) : h.ReachableFrom tips p := by
  obtain ⟨t,hm,hr⟩ := hr
  exact ⟨t,hm,hr.tail hp⟩

theorem ReachableFrom.tip {h : History Id} {t : Id} (hm : t∈tips) :
    h.ReachableFrom tips t := ⟨t,hm,.refl⟩

theorem committer_objects (hc : c∈h.commits) :
    ∃ it,h.objects c = .ok it ∧ CommitRefIter.committer it = .ok (h.time c) := by
  obtain ⟨_,_,ho⟩ := h.stored c hc
  refine ⟨_,ho,?_⟩
  induction h.parents c with
  | nil => simp [CommitRefIter.committer]
  | cons p ps ih => simpa [CommitRefIter.committer] using ih

theorem ancestor_lt {h : History ℕ} (hlt : ∀ c,∀ p∈h.parents c,p < c) {c a : ℕ} (hca : h.Ancestor c a) : a < c := by
  induction hca with
  | single hp => exact hlt _ _ hp
  | tail _ hp ih => exact lt_trans (hlt _ _ hp) ih

theorem acyclic_of_lt {h : History ℕ} (hlt : ∀ c,∀ p∈h.parents c,p < c) : h.Acyclic :=
  fun c hc => lt_irrefl c (ancestor_lt hlt hc)

def ofParents [DecidableEq Id] (commits : List Id) (parents : Id → List Id) (time : Id → ℤ)
    (closed : ∀ c ∈ commits, ∀ p ∈ parents c, p ∈ commits) : History Id where
  commits := commits
  parents := parents
  time := time
  objects c := if c ∈ commits then
      .ok (.ok (.tree c) :: (parents c).map (fun p => .ok (.parent p))++
        .ok .author :: .ok (.committer (time c)) :: [.ok .other])
    else .error ()
  closed := closed
  stored c hc := ⟨c,[.ok .other],by simp [hc]⟩

end History
end Gix.Commit
