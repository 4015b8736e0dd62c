import Gix.DeltaTree
import Gix.DeltaApply

/-! # Traversing the tree of deltas

`gix-pack/src/cache/delta/traverse/`, executed in a single thread: from each root, all objects
that are based on it are resolved and inspected. Bases are kept until their children are done.

The bytes of an entry, zlib and the inspection are given. The flag to interrupt is looked at
after each root, and then no further root is started. -/
namespace Gix.Pack.DeltaTree
variable {α ε : Type}

structure Context where
  entry : DataEntry
  entryEnd : ℕ
  decompressed : Bytes
  level : ℕ
deriving DecidableEq,Repr

inductive NodeRef
  | root (index : ℕ)
  | child (index : ℕ)
deriving DecidableEq,Repr

structure Inspected where
  node : NodeRef
  context : Context
deriving DecidableEq,Repr

/-- `traverse::Error`, panics, and a number of steps that isn't enough. -/
inductive Failure (ε : Type)
  | zlibInflate
  | resolveFailed (packOffset : ℕ)
  | entryType (e : UnsupportedType)
  | inspect (e : ε)
  | outOfPackRefDelta (basePackOffset : ℕ)
  | panic
  | unfinished
deriving DecidableEq,Repr

structure Env (α ε : Type) where
  resolve : ℕ × ℕ → Option Bytes
  /-- What is written to a buffer of the given size, from its start. -/
  inflate : Bytes → ℕ → Option Bytes
  /-- The result may depend on all previous calls. -/
  inspect : List Inspected → α → Context → Except ε α
  /-- The flag to interrupt after the given number of roots. -/
  interrupted : ℕ → Bool
  overflowChecks : Bool

def orFail {β : Type} (f : Failure ε) : Option β → Except (Failure ε) β
  | some b => .ok b
  | none => .error f

def resize (l : Bytes) (size : ℕ) : Bytes := l.take size++List.replicate (size-l.length) 0

/-- `data::Entry::from_bytes()`, which panics if the header is too short. -/
def entryFromBytes (d : Bytes) (packOffset : ℕ) : Except (Failure ε) DataEntry :=
  match DataEntry.fromBytes d packOffset with
  | none => .error .panic
  | some (.error e) => .error (.entryType e)
  | some (.ok entry) => .ok entry

/-- `decompress_from_resolver()` with the previous contents of the buffer. -/
def Env.decompress (env : Env α ε) (slice : ℕ × ℕ) (out : Bytes) : Except (Failure ε) (DataEntry × ℕ × Bytes) := do
  let bytes ← orFail (.resolveFailed slice.1) (env.resolve slice)
  let entry ← entryFromBytes bytes slice.1
  let compressed ← orFail .panic (FixedTable.sliceFrom bytes (entry.header.size entry.decompressedSize))
  let out := resize out entry.decompressedSize
  let written ← orFail .zlibInflate (env.inflate compressed out.length)
  return (entry,slice.2,written++out.drop written.length)

def Env.nextLevel (env : Env α ε) (level : ℕ) : Except (Failure ε) ℕ :=
  if level+1 < 2^16 then .ok (level+1) else if env.overflowChecks then .error .panic else .ok ((level+1)%2^16)

structure State (α : Type) where
  rootItems : List (Item α)
  childItems : List (Item α)
  /-- The node to handle next is in front. -/
  nodes : List (ℕ × NodeRef)
  decompressedBytesByPackOffset : ℕ → Option (DataEntry × ℕ × Bytes)
  deltaBytes : Bytes
  calls : List Inspected

namespace State

def item (s : State α) : NodeRef → Option (Item α)
  | .root i => s.rootItems[i]?
  | .child i => s.childItems[i]?

def setData (s : State α) (data : α) : NodeRef → State α
  | .root i => { s with rootItems := s.rootItems.modify i (fun item => { item with data := data }) }
  | .child i => { s with childItems := s.childItems.modify i (fun item => { item with data := data }) }

end State

def Env.modifyBase (env : Env α ε) (s : State α) (node : NodeRef) (item : Item α) (context : Context) : Except (Failure ε) (State α) :=
  match env.inspect s.calls item.data context with
  | .error e => .error (.inspect e)
  | .ok data => .ok { s.setData data node with calls := s.calls++[⟨node,context⟩] }

/-- One child: it is resolved against the base, then it is either inspected or becomes a base. -/
def Env.handleChild (env : Env α ε) (level : ℕ) (baseEntry : DataEntry) (baseBytes : Bytes) (s : State α) (index : ℕ) :
    Except (Failure ε) (State α) := do
  let child ← orFail .panic s.childItems[index]?
  let (childEntry,entryEnd,deltaBytes) ← env.decompress child.range s.deltaBytes
  let s := { s with deltaBytes := deltaBytes }
  let resolved ← orFail .panic (Delta.resolve env.overflowChecks baseBytes deltaBytes)
  let childEntry := { childEntry with header := baseEntry.header }
  let level ← env.nextLevel level
  if child.children ≠ [] then
    return { s with
      decompressedBytesByPackOffset :=
        Function.update s.decompressedBytesByPackOffset child.offset (some (childEntry,entryEnd,resolved))
      nodes := (level,.child index) :: s.nodes }
  else env.modifyBase s (.child index) child ⟨childEntry,entryEnd,resolved,level⟩

/-- The data of a base: that of the entry itself, or what was kept. -/
def Env.baseData (env : Env α ε) (s : State α) (level : ℕ) (base : Item α) :
    Except (Failure ε) ((DataEntry × ℕ × Bytes) × State α) :=
  if level = 0 then do
    let data ← env.decompress base.range []
    return (data,s)
  else do
    let data ← orFail .panic (s.decompressedBytesByPackOffset base.offset)
    return (data,{ s with decompressedBytesByPackOffset := Function.update s.decompressedBytesByPackOffset base.offset none })

/-- One iteration of `deltas()` with the node that was taken from the stack. -/
def Env.handleBase (env : Env α ε) (level : ℕ) (node : NodeRef) (s : State α) : Except (Failure ε) (State α) := do
  let base ← orFail .panic (s.item node)
  let ((baseEntry,entryEnd,baseBytes),s) ← env.baseData s level base
  let s ← env.modifyBase s node base ⟨baseEntry,entryEnd,baseBytes,level⟩
  base.children.foldlM (env.handleChild level baseEntry baseBytes) s

def Env.deltas (env : Env α ε) : ℕ → State α → Except (Failure ε) (State α)
  | 0, _ => .error .unfinished
  | fuel+1, s => match s.nodes with
    | [] => .ok s
    | (level,node) :: nodes => do
      let s ← env.handleBase level node { s with nodes := nodes }
      env.deltas fuel s

/-- `in_parallel_with_slice()` in a single thread -/
def Env.eachRoot (env : Env α ε) (fuel : ℕ) : List ℕ → State α → Except (Failure ε) (State α)
  | [], s => .ok s
  | i :: rest, s => do
    let s ← env.deltas fuel { s with nodes := [(0,.root i)], decompressedBytesByPackOffset := fun _ => none }
    if env.interrupted i then return s else env.eachRoot fuel rest s

/-- `Tree::traverse()`: the items, and the calls of `inspect_object()`. -/
def Env.traverse (env : Env α ε) (fuel : ℕ) (t : Tree α) (packEntriesEnd : ℕ) : Except (Failure ε) (State α) :=
  match t.setPackEntriesEndAndResolveRefOffsets packEntriesEnd with
  | .error (.outOfPackRefDelta offset) => .error (.outOfPackRefDelta offset)
  | .error .panic => .error .panic
  | .ok t => env.eachRoot fuel (List.range t.rootItems.length) ⟨t.rootItems,t.childItems,[],fun _ => none,[],[]⟩

theorem orFail_ok {β : Type} {f : Failure ε} {x : Option β} {b : β} (h : orFail f x = .ok b) : x=some b := by
  cases x with
  | none => cases h
  | some b' => rw [orFail,Except.ok.injEq] at h; rw [h]

/-! What the steps do if they succeed -/

section Steps
open Attempt (of_bind_ok)
variable {env : Env α ε} {s s' : State α} {level : ℕ} {node : NodeRef}

def Item.shape (item : Item α) : (ℕ × ℕ) × List ℕ := (item.range,item.children)

theorem setData_shape (data : α) (node n : NodeRef) : ((s.setData data node).item n).map Item.shape=(s.item n).map Item.shape := by
  have hmodify : ∀ (items : List (Item α)) (i j : ℕ),
      ((items.modify i (fun item => { item with data := data }))[j]?).map Item.shape=(items[j]?).map Item.shape := by
    intro items i j
    rw [List.getElem?_modify]
    by_cases h : i=j
    · simp only [h,Option.map_eq_map,Option.map_map]
      rfl
    · simp [h]
  cases node <;> cases n <;> first | exact hmodify _ _ _ | rfl

@[simp] theorem setData_nodes (data : α) (node : NodeRef) : (s.setData data node).nodes=s.nodes := by
  cases node <;> rfl

@[simp] theorem setData_kept (data : α) (node : NodeRef) :
    (s.setData data node).decompressedBytesByPackOffset=s.decompressedBytesByPackOffset := by
  cases node <;> rfl

theorem modifyBase_ok {item : Item α} {context : Context} (h : env.modifyBase s node item context = .ok s') :
    ∃ data,s'={ s.setData data node with calls := s.calls++[⟨node,context⟩] } := by
  unfold Env.modifyBase at h
  split at h
  · cases h
  · exact ⟨_,(Except.ok.inj h).symm⟩

theorem nextLevel_ok {level' : ℕ} (h : env.nextLevel level = .ok level') :
    level'=(level+1)%2^16 ∧ (env.overflowChecks=true → level+1 < 2^16) := by
  unfold Env.nextLevel at h
  split at h
  · rename_i hlt
    cases h
    exact ⟨(Nat.mod_eq_of_lt hlt).symm,fun _ => hlt⟩
  · split at h
    · cases h
    · rename_i hc
      cases h
      exact ⟨rfl,fun hc' => absurd hc' hc⟩

/-- A child is resolved; then it waits to be a base, or it is inspected. -/
theorem handleChild_ok {index : ℕ} {baseEntry : DataEntry} {baseBytes : Bytes}
    (h : env.handleChild level baseEntry baseBytes s index = .ok s') :
    ∃ child entry entryEnd delta resolved,s.childItems[index]? = some child ∧
      env.decompress child.range s.deltaBytes = .ok (entry,entryEnd,delta) ∧
      Delta.resolve env.overflowChecks baseBytes delta=some resolved ∧ (env.overflowChecks=true → level+1 < 2^16) ∧
      (child.children≠[] ∧ s'={ s with
        deltaBytes := delta
        decompressedBytesByPackOffset := Function.update s.decompressedBytesByPackOffset child.offset
          (some ({ entry with header := baseEntry.header },entryEnd,resolved))
        nodes := ((level+1)%2^16,.child index)::s.nodes } ∨
      child.children=[] ∧ ∃ data,s'={ ({ s with deltaBytes := delta } : State α).setData data (.child index) with
        calls := s.calls++[⟨.child index,{ entry with header := baseEntry.header },entryEnd,resolved,(level+1)%2^16⟩] }) := by
  unfold Env.handleChild at h
  obtain ⟨child,hchild,h⟩ := of_bind_ok h
  obtain ⟨⟨entry,entryEnd,delta⟩,hdelta,h⟩ := of_bind_ok h
  obtain ⟨resolved,hresolved,h⟩ := of_bind_ok h
  obtain ⟨_,hlevel,h⟩ := of_bind_ok h
  obtain ⟨rfl,hchecks⟩ := nextLevel_ok hlevel
  refine ⟨child,entry,entryEnd,delta,resolved,orFail_ok hchild,hdelta,orFail_ok hresolved,hchecks,?_⟩
  split at h
  · rename_i hinner
    exact .inl ⟨hinner,(Except.ok.inj h).symm⟩
  · rename_i hleaf
    exact .inr ⟨not_not.mp hleaf,modifyBase_ok h⟩

/-- The base is inspected before its children are handled. -/
theorem handleBase_ok (h : env.handleBase level node s = .ok s') :
    ∃ base entry entryEnd bytes kept data,s.item node=some base ∧
      (level=0 ∧ env.decompress base.range [] = .ok (entry,entryEnd,bytes) ∧ kept=s.decompressedBytesByPackOffset ∨
        level≠0 ∧ s.decompressedBytesByPackOffset base.offset=some (entry,entryEnd,bytes) ∧
          kept=Function.update s.decompressedBytesByPackOffset base.offset none) ∧
      base.children.foldlM (env.handleChild level entry bytes)
        { ({ s with decompressedBytesByPackOffset := kept } : State α).setData data node with
          calls := s.calls++[⟨node,entry,entryEnd,bytes,level⟩] } = .ok s' := by
  unfold Env.handleBase at h
  obtain ⟨base,hbase,h⟩ := of_bind_ok h
  obtain ⟨⟨⟨entry,entryEnd,bytes⟩,_⟩,hdata,h⟩ := of_bind_ok h
  obtain ⟨_,hmodify,h⟩ := of_bind_ok h
  obtain ⟨data,rfl⟩ := modifyBase_ok hmodify
  unfold Env.baseData at hdata
  split at hdata
  · rename_i hlevel
    obtain ⟨_,hdecompress,hdata⟩ := of_bind_ok hdata
    cases hdata
    exact ⟨base,entry,entryEnd,bytes,_,data,orFail_ok hbase,.inl ⟨hlevel,hdecompress,rfl⟩,h⟩
  · rename_i hlevel
    obtain ⟨_,hkept,hdata⟩ := of_bind_ok hdata
    cases hdata
    exact ⟨base,entry,entryEnd,bytes,_,data,orFail_ok hbase,.inr ⟨hlevel,orFail_ok hkept,rfl⟩,h⟩

end Steps
end Gix.Pack.DeltaTree
