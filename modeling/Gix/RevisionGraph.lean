import Gix.CommitLookup

/-! # Graphs of commits with data

`gix-revwalk/src/graph/`: commits are read when they are first asked for, and then kept with
data that belongs to the algorithm. There is no commit-graph file behind the graph. -/
namespace Gix.Revision
open Gix.Commit (History CommitRefIter Token)

structure Commit (Id T : Type) where
  parents : List Id
  commitTime : ℤ
  generation : Option ℕ
  data : T
deriving DecidableEq,Repr

/-- `get_or_insert_default::Error`, and panics. -/
inductive Error | lookup | toOwned | panic deriving DecidableEq,Repr

/-- The `map` of a graph. -/
structure Graph (Id T : Type) where
  map : Id → Option (Commit Id T)

/-- Where commits come from; what is missing or no commit is not there. -/
abbrev Source (Id : Type) := Id → Except Unit (Option (CommitRefIter Id))

variable {Id T σ : Type} {h : History Id} {g : Graph Id T} {id x : Id} {c : Commit Id T}

/-- `LazyCommit::to_owned()`, with the parents so far. -/
def toOwned (data : T) : List Id → CommitRefIter Id → Except Error (Commit Id T)
  | parents, [] => .ok ⟨parents,0,none,data⟩
  | _, .error _ :: _ => .error .toOwned
  | parents, .ok (.tree _) :: it => toOwned data parents it
  | parents, .ok (.parent id) :: it => toOwned data (parents++[id]) it
  | parents, .ok .author :: it => toOwned data parents it
  | parents, .ok (.committer seconds) :: _ => .ok ⟨parents,seconds,none,data⟩
  | _, .ok .other :: _ => .error .panic

theorem toOwned_stored (data : T) (tree : Id) (ps parents : List Id) (time : ℤ) (rest : CommitRefIter Id) :
    toOwned data parents (.ok (.tree tree)::ps.map (fun p => .ok (.parent p))++.ok .author :: .ok (.committer time)::rest) =
      .ok ⟨parents++ps,time,none,data⟩ := by
  rw [List.cons_append,toOwned]
  induction ps generalizing parents with
  | nil => simp [toOwned]
  | cons p ps ih =>
    rw [List.map_cons,List.cons_append,toOwned,ih (parents++[p])]
    simp

def Graph.clearCommitData (g : Graph Id T) (clear : T → T) : Graph Id T :=
  ⟨fun id => (g.map id).map (fun c => {c with data := clear c.data})⟩

@[simp] theorem map_clear_isSome (clear : T → T) : ((g.clearCommitData clear).map x).isSome=(g.map x).isSome := by
  simp [Graph.clearCommitData]

/-! A graph of a history -/

def source (h : History Id) : Source Id := fun id => (h.objects id).map some

variable [Inhabited T]

/-- The data of a commit, which is the default for those that are not read yet. -/
def Graph.data (g : Graph Id T) (id : Id) : T := ((g.map id).map Commit.data).getD default

def commitOf (h : History Id) (g : Graph Id T) (id : Id) : Commit Id T := ⟨h.parents id,h.time id,none,g.data id⟩

/-- The commits of the graph are those of the history. -/
structure Loaded (h : History Id) (g : Graph Id T) : Prop where
  mem : ∀ {id c}, g.map id = some c → id ∈ h.commits
  commit : ∀ {id c}, g.map id = some c → c = commitOf h g id

@[simp] theorem commitOf_data (h : History Id) (g : Graph Id T) (id : Id) : (commitOf h g id).data=g.data id := rfl

@[simp] theorem data_clear : (g.clearCommitData (fun _ => default)).data x=default := by
  cases hg : g.map x <;> simp [Graph.data,Graph.clearCommitData,hg]

theorem Loaded.get (hl : Loaded h g) (hid : (g.map id).isSome=true) : g.map id=some (commitOf h g id) := by
  obtain ⟨_,hc⟩ := Option.isSome_iff_exists.mp hid
  rw [hc,hl.commit hc]

theorem Loaded.mem_of_isSome (hl : Loaded h g) (hid : (g.map id).isSome=true) : id∈h.commits := hl.mem (hl.get hid)

theorem Loaded.clear (hl : Loaded h g) : Loaded h (g.clearCommitData (fun _ => default)) := by
  constructor
  · intro x c hx
    obtain ⟨c',hc',-⟩ := Option.map_eq_some_iff.mp hx
    exact hl.mem hc'
  · intro x c hx
    obtain ⟨c',hc',rfl⟩ := Option.map_eq_some_iff.mp hx
    rw [hl.commit hc']
    simp [commitOf,Graph.data,Graph.clearCommitData,hc']

variable [DecidableEq Id]

def Graph.set (g : Graph Id T) (id : Id) (c : Commit Id T) : Graph Id T := ⟨Function.update g.map id (some c)⟩

omit [Inhabited T] in
@[simp] theorem map_set_isSome : ((g.set id c).map x).isSome=(decide (x=id) || (g.map x).isSome) := by
  by_cases hx : x=id
  · subst hx
    simp [Graph.set]
  · simp [Graph.set,hx]

/-- `Graph::get_or_insert_full_commit()`. The update may change other state as well; the result
says if there is a commit. -/
def Graph.getOrInsertFullCommit (source : Source Id) (g : Graph Id T) (id : Id) (update : Commit Id T → σ → Commit Id T × σ)
    (s : σ) : Except Error (Bool × Graph Id T × σ) :=
  match g.map id with
  | some commit => .ok (true,g.set id (update commit s).1,(update commit s).2)
  | none => match source id with
    | .error _ => .error .lookup
    | .ok none => .ok (false,g,s)
    | .ok (some it) => match toOwned default [] it with
      | .error e => .error e
      | .ok commit => .ok (true,g.set id (update commit s).1,(update commit s).2)

theorem getOrInsertFullCommit_eq (hl : Loaded h g) (hid : id∈h.commits) (update : Commit Id T → σ → Commit Id T × σ) (s : σ) :
    g.getOrInsertFullCommit (source h) id update s =
      .ok (true,g.set id (update (commitOf h g id) s).1,(update (commitOf h g id) s).2) := by
  unfold Graph.getOrInsertFullCommit
  cases hg : g.map id with
  | some c =>
    rw [hl.commit hg]
  | none =>
    obtain ⟨tree,rest,hobj⟩ := h.stored id hid
    have hdata : g.data id=default := by rw [Graph.data,hg]; rfl
    have hsource : source h id = .ok (some _) := congrArg (Except.map some) hobj
    have hown := toOwned_stored (default : T) tree (h.parents id) [] (h.time id) rest
    rw [hsource]
    dsimp only
    rw [hown,commitOf,hdata,List.nil_append]

@[simp] theorem data_set : (g.set id c).data x=if x=id then c.data else g.data x := by
  by_cases hx : x=id
  · subst hx
    simp [Graph.data,Graph.set]
  · simp [Graph.data,Graph.set,hx]

theorem data_touch (h : History Id) (g : Graph Id T) (id x : Id) : (g.set id (commitOf h g id)).data x=g.data x := by
  rw [data_set]
  split
  · rename_i hx
    rw [hx,commitOf_data]
  · rfl

theorem Loaded.set (hl : Loaded h g) (hid : id∈h.commits) (data : T) : Loaded h (g.set id {commitOf h g id with data := data}) := by
  constructor
  · intro x c hx
    by_cases hxid : x=id
    · exact hxid ▸ hid
    · have hg : g.map x=some c := by simpa [Graph.set,hxid] using hx
      exact hl.mem hg
  · intro x c hx
    by_cases hxid : x=id
    · subst hxid
      obtain rfl : {commitOf h g x with data := data}=c := by simpa [Graph.set] using hx
      simp [commitOf]
    · have hg : g.map x=some c := by simpa [Graph.set,hxid] using hx
      rw [hl.commit hg]
      simp [commitOf,hxid]

end Gix.Revision
