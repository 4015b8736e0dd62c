import Gix.DeltaTraverse

/-! # Each object is inspected once

A traversal that succeeds has inspected each root it started with and everything below it, one
time each and with the data of the object. What isn't below any root it never sees. -/
namespace Gix.Pack.DeltaTree
open List Function NodeRef
variable {α ε : Type}

def Tree.item (t : Tree α) : NodeRef → Option (Item α)
  | .root i => t.rootItems[i]?
  | .child i => t.childItems[i]?

def Tree.kids (t : Tree α) (node : NodeRef) : List NodeRef :=
  match t.item node with
  | some item => item.children.map .child
  | none => []

def Tree.nodes (t : Tree α) : List NodeRef :=
  (List.range t.rootItems.length).map .root++(List.range t.childItems.length).map .child

/-- How many links lead from a root to a node. -/
inductive Depth (t : Tree α) : NodeRef → ℕ → Prop
  | root {i : ℕ} (hi : i < t.rootItems.length) : Depth t (.root i) 0
  | child {p : NodeRef} {d k : ℕ} (hp : Depth t p d) (hk : .child k ∈ t.kids p) : Depth t (.child k) (d+1)

/-- The data of an object: that of a root is in its entry, any other is the result of its delta
with the object at the offset of its base. -/
inductive Resolves (env : Env α ε) (t : Tree α) (bases : List ℕ) : NodeRef → Bytes → Prop
  | root {i : ℕ} {item : Item α} {entry : DataEntry} {entryEnd : ℕ} {bytes : Bytes} (hitem : t.rootItems[i]? = some item)
      (hdata : env.decompress item.range [] = .ok (entry,entryEnd,bytes)) : Resolves env t bases (.root i) bytes
  | child {p : NodeRef} {base delta bytes : Bytes} {k : ℕ} {item parent : Item α} {entry : DataEntry} {entryEnd : ℕ}
      (hp : Resolves env t bases p base) (hparent : t.item p = some parent) (hbase : bases[k]? = some parent.offset)
      (hitem : t.childItems[k]? = some item) (hdelta : env.decompress item.range [] = .ok (entry,entryEnd,delta))
      (hbytes : Delta.resolve env.overflowChecks base delta = some bytes) : Resolves env t bases (.child k) bytes

/-- The data that the traversal has for a node: where the level wraps around, it is taken for
that of a root. -/
inductive Passed (env : Env α ε) (t : Tree α) : NodeRef → ℕ → Bytes → Prop
  | root {i : ℕ} {item : Item α} {entry : DataEntry} {entryEnd : ℕ} {bytes : Bytes} (hitem : t.rootItems[i]? = some item)
      (hdata : env.decompress item.range [] = .ok (entry,entryEnd,bytes)) : Passed env t (.root i) 0 bytes
  | child {p : NodeRef} {d k : ℕ} {base out delta bytes : Bytes} {item : Item α} {entry : DataEntry} {entryEnd : ℕ}
      (hp : Passed env t p d base) (hk : .child k ∈ t.kids p) (hitem : t.childItems[k]? = some item)
      (hdelta : env.decompress item.range out = .ok (entry,entryEnd,delta))
      (hbytes : Delta.resolve env.overflowChecks base delta = some bytes)
      (hlevel : item.children = [] ∨ (d+1)%2^16 ≠ 0) : Passed env t (.child k) (d+1) bytes
  | wrapped {p : NodeRef} {d k : ℕ} {bytes : Bytes} {item : Item α} {entry : DataEntry} {entryEnd : ℕ}
      (hp : Depth t p d) (hk : .child k ∈ t.kids p) (hitem : t.childItems[k]? = some item)
      (hchecks : env.overflowChecks = false) (hinner : item.children ≠ []) (hlevel : (d+1)%2^16 = 0)
      (hdata : env.decompress item.range [] = .ok (entry,entryEnd,bytes)) : Passed env t (.child k) (d+1) bytes

variable {d k : ℕ} {env : Env α ε} {n p : NodeRef} {t : Tree α} {stop : ℕ} {q : NodeRef} {bases : List ℕ}

variable {bytes : Bytes}

theorem Passed.depth (h : Passed env t n d bytes) : Depth t n d := by
  induction h with
  | root hitem hdata => exact .root (List.getElem?_eq_some_iff.mp hitem).1
  | child hp hk hitem hdelta hbytes hlevel ih => exact .child ih hk
  | wrapped hp hk hitem hchecks hinner hlevel hdata => exact .child hp hk

/-! Links that lead to each child once -/

structure Linked (t : Tree α) : Prop where
  links : t.links.Nodup
  sorted : t.childItems.Pairwise (fun a b => a.offset < b.offset)

theorem mem_kids : .child k∈t.kids p ↔ ∃ item,t.item p=some item ∧ k∈item.children := by
  unfold Tree.kids
  cases h : t.item p with
  | none => simp
  | some item => simp

theorem mem_kids_child (h : n∈t.kids p) : ∃ k,n = .child k := by
  unfold Tree.kids at h
  split at h
  · obtain ⟨k,-,rfl⟩ := mem_map.mp h
    exact ⟨k,rfl⟩
  · simp at h

theorem mem_links (h : .child k∈t.kids p) : k∈t.links := by
  obtain ⟨item,hitem,hk⟩ := mem_kids.mp h
  cases p with
  | root i => exact mem_append_left _ (mem_flatMap.mpr ⟨item,mem_of_getElem? hitem,hk⟩)
  | child i => exact mem_append_right _ (mem_flatMap.mpr ⟨item,mem_of_getElem? hitem,hk⟩)

theorem index_unique {β γ : Type} {l : List β} {f : β → List γ} (h : (l.flatMap f).Nodup) {i j : ℕ} {a b : β} {x : γ}
    (hi : l[i]? = some a) (hj : l[j]? = some b) (ha : x∈f a) (hb : x∈f b) : i=j := by
  obtain ⟨hi',rfl⟩ := List.getElem?_eq_some_iff.mp hi
  obtain ⟨hj',rfl⟩ := List.getElem?_eq_some_iff.mp hj
  have hpairs := pairwise_iff_getElem.mp (nodup_flatMap.mp h).2
  rcases Nat.lt_trichotomy i j with hlt | heq | hlt
  · exact absurd hb (hpairs i j hi' hj' hlt ha)
  · exact heq
  · exact absurd ha (hpairs j i hj' hi' hlt hb)

theorem Closed.node_unique (h : Closed t stop) {a b : Item α} (hp : t.item p=some a)
    (hq : t.item q=some b) (hab : a.offset=b.offset) : p=q := by
  have hnodup := h.tiled.nodup
  rw [map_map,map_append,map_eq_flatMap,map_eq_flatMap] at hnodup
  obtain ⟨hroots,hchildren,hdisjoint⟩ := nodup_append'.mp hnodup
  have hmem : ∀ {items : List (Item α)} {i : ℕ} {item : Item α},items[i]? = some item → item.offset∈items.flatMap fun item => [item.offset] :=
    fun hi => mem_flatMap.mpr ⟨_,mem_of_getElem? hi,mem_singleton_self _⟩
  cases p with
  | root i => cases q with
    | root j => rw [index_unique hroots hp hq (mem_singleton_self _) (mem_singleton.mpr hab)]
    | child j => exact absurd (hab ▸ hmem hq) (hdisjoint (hmem hp))
  | child i => cases q with
    | root j => exact absurd (hmem hp) (hdisjoint (hab ▸ hmem hq))
    | child j => rw [index_unique hchildren hp hq (mem_singleton_self _) (mem_singleton.mpr hab)]

/-- The data of an object is determined. -/
theorem Resolves.unique (ht : Closed t stop) {b b' : Bytes}
    (h : Resolves env t bases n b) (h' : Resolves env t bases n b') : b=b' := by
  induction h generalizing b' with
  | root hitem hdata =>
    cases h' with
    | root hitem' hdata' =>
      cases hitem.symm.trans hitem'
      rw [hdata] at hdata'
      cases hdata'
      rfl
  | child hp hparent hbase hitem hdelta hbytes ih =>
    cases h' with
    | child hp' hparent' hbase' hitem' hdelta' hbytes' =>
      cases hitem.symm.trans hitem'
      obtain rfl := ht.node_unique hparent hparent' (Option.some.inj (hbase.symm.trans hbase'))
      obtain rfl := ih hp'
      rw [hdelta] at hdelta'
      cases hdelta'
      exact Option.some.inj (hbytes.symm.trans hbytes')

theorem Linked.parent_unique (h : Linked t) (hp : .child k∈t.kids p) (hq : .child k∈t.kids q) :
    p=q := by
  obtain ⟨_,ha,hka⟩ := mem_kids.mp hp
  obtain ⟨_,hb,hkb⟩ := mem_kids.mp hq
  obtain ⟨hroots,hchildren,hdisjoint⟩ := nodup_append'.mp h.links
  have hmem : ∀ {items : List (Item α)} {i : ℕ} {item : Item α},items[i]? = some item → k∈item.children →
      k∈items.flatMap Item.children := fun hitem hk => mem_flatMap.mpr ⟨_,mem_of_getElem? hitem,hk⟩
  cases p with
  | root i => cases q with
    | root j => rw [index_unique hroots ha hb hka hkb]
    | child j => exact absurd (hmem hb hkb) (hdisjoint (hmem ha hka))
  | child i => cases q with
    | root j => exact absurd (hmem ha hka) (hdisjoint (hmem hb hkb))
    | child j => rw [index_unique hchildren ha hb hka hkb]

theorem Linked.depth_unique (h : Linked t) {d' : ℕ} (hd : Depth t n d) (hd' : Depth t n d') : d=d' := by
  induction hd generalizing d' with
  | root hi => cases hd'; rfl
  | child hp hk ih =>
    cases hd' with
    | child hp' hk' =>
      obtain rfl := h.parent_unique hk hk'
      rw [ih hp']

theorem Linked.kids_nodup (h : Linked t) (p : NodeRef) : (t.kids p).Nodup := by
  unfold Tree.kids
  split
  · rename_i item hitem
    refine List.Nodup.map (fun a b hab => child.inj hab) ?_
    obtain ⟨hroots,hchildren,-⟩ := nodup_append'.mp h.links
    cases p with
    | root i => exact (nodup_flatMap.mp hroots).1 item (mem_of_getElem? hitem)
    | child i => exact (nodup_flatMap.mp hchildren).1 item (mem_of_getElem? hitem)
  · exact nodup_nil

theorem Linked.child_unique (h : Linked t) {i j : ℕ} {a b : Item α} (hi : t.childItems[i]? = some a)
    (hj : t.childItems[j]? = some b) (hab : a.offset=b.offset) : i=j := by
  obtain ⟨hi',rfl⟩ := List.getElem?_eq_some_iff.mp hi
  obtain ⟨hj',rfl⟩ := List.getElem?_eq_some_iff.mp hj
  have hpairs := pairwise_iff_getElem.mp h.sorted
  rcases Nat.lt_trichotomy i j with hlt | heq | hlt
  · have := hpairs i j hi' hj' hlt
    omega
  · exact heq
  · have := hpairs j i hj' hi' hlt
    omega

/-! The invariant of the traversal -/

structure Known (env : Env α ε) (t : Tree α) (s : State α) : Prop where
  passed : ∀ c ∈ s.calls, ∃ d, Passed env t c.node d c.context.decompressed
  pending : ∀ p ∈ s.nodes, ∃ d, Depth t p.2 d ∧ p.1 = d%2^16 ∧ (env.overflowChecks = true → d < 2^16) ∧ (0 < d → t.kids p.2 ≠ [])
  kept : ∀ {k d : ℕ} {item : Item α} {entry : DataEntry} {entryEnd : ℕ} {bytes : Bytes}, t.childItems[k]? = some item →
    s.decompressedBytesByPackOffset item.offset = some (entry,entryEnd,bytes) → Depth t (.child k) d → d%2^16 ≠ 0 →
    Passed env t (.child k) d bytes

/-- All roots so far and all children of what was inspected are inspected, pending or still owed. -/
structure Inv (env : Env α ε) (t : Tree α) (started : List ℕ) (owed : List NodeRef) (s : State α) : Prop where
  shape : ∀ n, (s.item n).map Item.shape = (t.item n).map Item.shape
  handled : (s.calls.map Inspected.node++s.nodes.map Prod.snd++owed).Perm
    (started.map .root++(s.calls.map Inspected.node).flatMap t.kids)
  known : Linked t → Known env t s

theorem Inv.item {started : List ℕ} {owed : List NodeRef} {s : State α} (h : Inv env t started owed s) {item : Item α}
    (hitem : s.item n=some item) :
    ∃ item',t.item n=some item' ∧ item'.range=item.range ∧ item'.children=item.children := by
  have hshape := h.shape n
  rw [hitem] at hshape
  obtain ⟨item',hitem',heq⟩ := Option.map_eq_some_iff.mp hshape.symm
  exact ⟨item',hitem',congrArg Prod.fst heq,congrArg Prod.snd heq⟩

theorem kids_of_item {item : Item α} (h : t.item n=some item) : t.kids n=item.children.map .child := by
  simp [Tree.kids,h]

structure Base (env : Env α ε) (t : Tree α) (p : NodeRef) (level : ℕ) (bytes : Bytes) (d : ℕ) : Prop where
  passed : Passed env t p d bytes
  level : level = d%2^16
  checks : env.overflowChecks = true → d < 2^16

variable {env : Env α ε} {t : Tree α} {s : State α} {roots : List ℕ}

section Run
open Attempt (of_bind_ok)
variable {started : List ℕ} {s' : State α} {base : Bytes} {d level : ℕ} {entry : DataEntry} {p : NodeRef}
  {fuel : ℕ}

variable {entryEnd : ℕ}

theorem Known.push (h : Linked t) {index : ℕ} {out delta resolved : Bytes} {entry' : DataEntry}
    {item : Item α} (hs : Known env t s) (hp : Base env t p level base d) (hk : .child index∈t.kids p)
    (hnext : env.overflowChecks=true → level+1 < 2^16) (hitem : t.childItems[index]? = some item)
    (hinner : item.children≠[]) (hdelta : env.decompress item.range out = .ok (entry,entryEnd,delta))
    (hresolved : Delta.resolve env.overflowChecks base delta=some resolved) :
    Known env t { s with
      deltaBytes := delta
      decompressedBytesByPackOffset := update s.decompressedBytesByPackOffset item.offset (some (entry',entryEnd,resolved))
      nodes := ((level+1)%2^16,.child index)::s.nodes } := by
  have hdepth : Depth t (.child index) (d+1) := .child hp.passed.depth hk
  have hlevel := hp.level
  refine ⟨hs.passed,forall_mem_cons.mpr ⟨⟨d+1,hdepth,?_,?_,fun _ hnil => ?_⟩,hs.pending⟩,?_⟩
  · omega
  · intro hc
    have := hnext hc
    have := hp.checks hc
    omega
  · rw [kids_of_item (n := .child index) hitem,map_eq_nil_iff] at hnil
    exact hinner hnil
  · intro k d' item' entry' entryEnd' bytes' hitem' hkept hd' hwrap
    by_cases heq : item'.offset=item.offset
    · simp only [heq,update_self] at hkept
      obtain ⟨-,-,rfl⟩ := hkept
      obtain rfl := h.child_unique hitem' hitem heq
      obtain rfl := h.depth_unique hd' hdepth
      exact .child hp.passed hk hitem hdelta hresolved (.inr hwrap)
    · simp only [update_of_ne heq] at hkept
      exact hs.kept hitem' hkept hd' hwrap

theorem Inv.handleChild {index : ℕ} {owed : List NodeRef} (hs : Inv env t started (.child index::owed) s)
    (hp : Linked t → Base env t p level base d) (hk : .child index∈t.kids p)
    (hok : env.handleChild level entry base s index = .ok s') : Inv env t started owed s' := by
  obtain ⟨child,_,_,_,_,hchild,hdelta,hresolved,hnext,hcase⟩ := handleChild_ok hok
  obtain ⟨item,hitem,hrange,hchildren⟩ := hs.item (n := .child index) hchild
  have hoffset : item.offset=child.offset := congrArg Prod.fst hrange
  rw [← hrange] at hdelta
  rw [← hchildren] at hcase
  rcases hcase with ⟨hinner,rfl⟩ | ⟨hleaf,data,rfl⟩
  · refine ⟨hs.shape,?_,fun h => ?_⟩
    · refine List.Perm.trans ?_ hs.handled
      simp only [append_assoc]
      exact List.Perm.append_left _ perm_middle.symm
    · rw [← hoffset]
      exact (hs.known h).push h (hp h) hk hnext hitem hinner hdelta hresolved
  · have hnone : t.kids (.child index)=[] := by rw [kids_of_item hitem,hleaf,map_nil]
    refine ⟨fun n => ?_,?_,fun h => ⟨?_,(hs.known h).pending,(hs.known h).kept⟩⟩
    · exact (setData_shape data (.child index) n).trans (hs.shape n)
    · simp only [map_append,map_cons,map_nil,flatMap_append,flatMap_cons,flatMap_nil,hnone,append_nil]
      refine List.Perm.trans ?_ hs.handled
      simp only [append_assoc,singleton_append]
      exact List.Perm.append_left _ perm_middle.symm
    · intro c hc
      rcases mem_append.mp hc with hc | hc
      · exact (hs.known h).passed c hc
      · obtain rfl := mem_singleton.mp hc
        exact ⟨d+1,.child (hp h).passed hk hitem hdelta hresolved (.inl hleaf)⟩

theorem Inv.handleChildren {children : List ℕ} (hs : Inv env t started (children.map .child) s)
    (hp : Linked t → Base env t p level base d) (hk : ∀ k∈children,.child k∈t.kids p)
    (hok : children.foldlM (env.handleChild level entry base) s = .ok s') : Inv env t started [] s' := by
  induction children generalizing s with
  | nil =>
    cases hok
    exact hs
  | cons k children ih =>
    obtain ⟨_,hstep,hok⟩ := of_bind_ok hok
    obtain ⟨hk0,hk⟩ := forall_mem_cons.mp hk
    exact ih (hs.handleChild hp hk0 hstep) hk hok

theorem Known.baseData (hs : Known env t s) {n : NodeRef} {base item : Item α}
    {kept : ℕ → Option (DataEntry × ℕ × Bytes)} (hitem : t.item n=some item) (hrange : item.range=base.range)
    (hd : Depth t n d) (hlevel : level=d%2^16) (hchecks : env.overflowChecks=true → d < 2^16)
    (hinner : 0 < d → t.kids n≠[])
    (hdata : level=0 ∧ env.decompress base.range [] = .ok (entry,entryEnd,bytes) ∧ kept=s.decompressedBytesByPackOffset ∨
      level≠0 ∧ s.decompressedBytesByPackOffset base.offset=some (entry,entryEnd,bytes) ∧
        kept=Function.update s.decompressedBytesByPackOffset base.offset none) : Base env t n level bytes d := by
  have hoffset : item.offset=base.offset := congrArg Prod.fst hrange
  refine ⟨?_,hlevel,hchecks⟩
  rcases hdata with ⟨_,hdata,-⟩ | ⟨hne,hkept,-⟩
  · rw [← hrange] at hdata
    cases hd with
    | root hi => exact .root hitem hdata
    | child hp hk =>
      have hchecks' : env.overflowChecks=false := by
        by_contra hc
        have := hchecks (Bool.not_eq_false _ ▸ hc)
        omega
      refine .wrapped hp hk hitem hchecks' (fun hnil => hinner (Nat.succ_pos _) ?_) (by omega) hdata
      rw [kids_of_item hitem,hnil,map_nil]
  · cases hd with
    | root hi => exact absurd hlevel hne
    | child hp hk => exact hs.kept hitem (hoffset ▸ hkept) (.child hp hk) (hlevel ▸ hne)

theorem Inv.handleBase {node : NodeRef} {nodes : List (ℕ × NodeRef)} (hs : Inv env t started [] s)
    (hnodes : s.nodes=(level,node)::nodes) (hok : env.handleBase level node { s with nodes := nodes } = .ok s') :
    Inv env t started [] s' := by
  obtain ⟨base,_,_,bytes,kept,data,hbase,hdata,hfold⟩ := handleBase_ok hok
  obtain ⟨item,hitem,hrange,hchildren⟩ := hs.item hbase
  have hkids : t.kids node=base.children.map .child := by rw [kids_of_item hitem,hchildren]
  have hpending : Linked t → ∃ d,Base env t node level bytes d := by
    intro h
    obtain ⟨d,hd,hlevel,hchecks,hinner⟩ := (hs.known h).pending (level,node) (by rw [hnodes]; exact mem_cons_self)
    exact ⟨d,(hs.known h).baseData hitem hrange hd hlevel hchecks hinner hdata⟩
  obtain ⟨d,hbased⟩ : ∃ d,Linked t → Base env t node level bytes d := by
    by_cases h : Linked t
    · obtain ⟨d,hd⟩ := hpending h
      exact ⟨d,fun _ => hd⟩
    · exact ⟨0,fun h' => absurd h' h⟩
  refine Inv.handleChildren ⟨fun n => ?_,?_,fun h => ⟨?_,?_,?_⟩⟩ hbased (fun k hk => ?_) hfold
  · exact (setData_shape data node n).trans (hs.shape n)
  · have hhandled := hs.handled
    rw [hnodes] at hhandled
    simp only [map_append,map_cons,map_nil,flatMap_append,flatMap_cons,flatMap_nil,append_nil,hkids,
      ← append_assoc]
    refine List.Perm.append_right _ (List.Perm.trans ?_ hhandled)
    simp
  · intro c hc
    rcases mem_append.mp hc with hc | hc
    · exact (hs.known h).passed c hc
    · obtain rfl := mem_singleton.mp hc
      exact ⟨d,(hbased h).passed⟩
  · have hrest := (hs.known h).pending
    rw [hnodes] at hrest
    simpa using (forall_mem_cons.mp hrest).2
  · intro k d' item' entry' entryEnd' bytes' hitem' hkept hd' hwrap
    have hkept' : kept item'.offset=some (entry',entryEnd',bytes') := by simpa using hkept
    rcases hdata with ⟨-,-,rfl⟩ | ⟨-,-,rfl⟩
    · exact (hs.known h).kept hitem' hkept' hd' hwrap
    · by_cases heq : item'.offset=base.offset
      · simp [heq] at hkept'
      · rw [update_of_ne heq] at hkept'
        exact (hs.known h).kept hitem' hkept' hd' hwrap
  · rw [hkids]
    exact mem_map_of_mem hk

theorem Inv.deltas (hs : Inv env t started [] s) (hok : env.deltas fuel s = .ok s') :
    Inv env t started [] s' ∧ s'.nodes=[] := by
  induction fuel generalizing s with
  | zero => cases hok
  | succ fuel ih =>
    rw [Env.deltas] at hok
    split at hok
    · rename_i hnodes
      cases hok
      exact ⟨hs,hnodes⟩
    · rename_i level node nodes hnodes
      obtain ⟨_,hbase,hok⟩ := of_bind_ok hok
      exact ih (hs.handleBase hnodes hbase) hok

/-- The roots that are started: the interrupt is seen after one of them. -/
def Env.startedRoots (env : Env α ε) : List ℕ → List ℕ
  | [] => []
  | i :: rest => if env.interrupted i then [i] else i :: env.startedRoots rest

theorem Inv.eachRoot {roots : List ℕ} (hroots : ∀ i∈roots,i < t.rootItems.length)
    (hs : Inv env t started [] s) (hnodes : s.nodes=[]) (hok : env.eachRoot fuel roots s = .ok s') :
    Inv env t (started++env.startedRoots roots) [] s' ∧ s'.nodes=[] := by
  induction roots generalizing s started with
  | nil =>
    cases hok
    simpa [Env.startedRoots] using ⟨hs,hnodes⟩
  | cons i rest ih =>
    obtain ⟨_,hdeltas,hok⟩ := of_bind_ok hok
    obtain ⟨hi,hrest⟩ := forall_mem_cons.mp hroots
    have hstart : Inv env t (started++[i]) [] { s with nodes := [(0,.root i)],decompressedBytesByPackOffset := fun _ => none } := by
      refine ⟨hs.shape,?_,fun h => ⟨(hs.known h).passed,?_,by simp⟩⟩
      · have hhandled := hs.handled
        simp only [hnodes,map_nil,append_nil] at hhandled
        simp only [map_append,append_assoc]
        refine (hhandled.append_right _).trans ?_
        rw [append_assoc]
        exact List.Perm.append_left _ perm_append_comm
      · rintro p hp
        obtain rfl := mem_singleton.mp hp
        exact ⟨0,.root hi,rfl,fun _ => by omega,fun h0 => absurd h0 (Nat.lt_irrefl 0)⟩
    obtain ⟨h1,hnodes1⟩ := hstart.deltas hdeltas
    rw [Env.startedRoots]
    split at hok
    · rename_i hint
      cases hok
      rw [if_pos hint]
      exact ⟨h1,hnodes1⟩
    · rename_i hint
      rw [if_neg hint]
      have hnext := ih hrest h1 hnodes1 hok
      rwa [append_assoc] at hnext

end Run

/-! The result -/

theorem Linked.count_child (h : Linked t) (hk : .child k∈t.kids p) (nodes : List NodeRef) :
    (nodes.flatMap t.kids).count (.child k)=nodes.count p := by
  induction nodes with
  | nil => rfl
  | cons n nodes ih =>
    rw [flatMap_cons,count_append,ih,Nat.add_comm]
    by_cases hn : n=p
    · subst hn
      rw [count_eq_one_of_mem (h.kids_nodup n) hk]
      simp
    · have hnot : .child k∉t.kids n := fun hmem => hn (h.parent_unique hmem hk)
      rw [count_eq_zero_of_not_mem hnot]
      simp [hn]

theorem count_root_kids (i : ℕ) (nodes : List NodeRef) : (nodes.flatMap t.kids).count (.root i)=0 := by
  refine count_eq_zero_of_not_mem fun hmem => ?_
  obtain ⟨_,-,hn⟩ := mem_flatMap.mp hmem
  obtain ⟨_,hk⟩ := mem_kids_child hn
  cases hk

/-- If all roots are started, everything below them is inspected once. -/
theorem Linked.count_depth (h : Linked t) {nodes : List NodeRef}
    (hroots : roots=List.range t.rootItems.length) (hnodes : nodes.Perm (roots.map .root++nodes.flatMap t.kids))
    (hd : Depth t n d) : nodes.count n=1 := by
  have hinj : Function.Injective root := fun a b hab => root.inj hab
  induction hd with
  | root hi =>
    rw [hnodes.count_eq,count_append,count_root_kids,count_map_of_injective _ _ hinj,hroots,
      count_eq_one_of_mem nodup_range (mem_range.mpr hi)]
  | child hp hk ih =>
    rw [hnodes.count_eq,count_append,h.count_child hk,ih,count_eq_zero_of_not_mem (by simp)]

theorem Depth.mem_nodes (hlinks : ∀ k∈t.links,k < t.childItems.length) (hd : Depth t n d) : n∈t.nodes := by
  cases hd with
  | root hi => exact mem_append_left _ (mem_map_of_mem (mem_range.mpr hi))
  | child hp hk => exact mem_append_right _ (mem_map_of_mem (mem_range.mpr (hlinks _ (mem_links hk))))

theorem nodes_nodup (t : Tree α) : t.nodes.Nodup := by
  refine nodup_append'.mpr ⟨nodup_range.map fun a b hab => root.inj hab,
    nodup_range.map fun a b hab => child.inj hab,?_⟩
  intro n hroot hchild
  obtain ⟨_,-,rfl⟩ := mem_map.mp hroot
  obtain ⟨_,-,hk⟩ := mem_map.mp hchild
  cases hk

/-- Each object is inspected once, with its own data. -/
def InspectedOnce (env : Env α ε) (t : Tree α) (bases : List ℕ) (calls : List Inspected) : Prop :=
  (calls.map Inspected.node).Perm t.nodes ∧
    ∀ c ∈ calls, ∀ bytes, Resolves env t bases c.node bytes ↔ bytes = c.context.decompressed

/-- Zlib yields as many bytes for an entry as its header says. -/
def Env.Full (env : Env α ε) (slice : ℕ × ℕ) : Prop :=
  ∀ bytes entry compressed written, env.resolve slice = some bytes → entryFromBytes (ε := ε) bytes slice.1 = .ok entry →
    FixedTable.sliceFrom bytes (entry.header.size entry.decompressedSize) = some compressed →
    env.inflate compressed entry.decompressedSize = some written → written.length = entry.decompressedSize

/-- Then nothing of what was in the buffer is left. -/
theorem decompress_of_full {slice : ℕ × ℕ} {out delta : Bytes} {entry : DataEntry} (hfull : env.Full slice)
    (h : env.decompress slice out = .ok (entry,entryEnd,delta)) : env.decompress slice [] = .ok (entry,entryEnd,delta) := by
  have hsize : ∀ l n,(resize l n).length=n := by
    intro l n
    simp only [resize,length_append,length_take,length_replicate]
    omega
  unfold Env.decompress at h ⊢
  obtain ⟨bytes,hbytes,h⟩ := Attempt.of_bind_ok h
  obtain ⟨entry',hentry,h⟩ := Attempt.of_bind_ok h
  obtain ⟨compressed,hcompressed,h⟩ := Attempt.of_bind_ok h
  obtain ⟨written,hwritten,h⟩ := Attempt.of_bind_ok h
  rw [hsize] at hwritten
  have hlen := hfull bytes entry' compressed written (orFail_ok hbytes) hentry (orFail_ok hcompressed) (orFail_ok hwritten)
  rw [drop_of_length_le (by rw [hsize,hlen])] at h
  simp only [hbytes,hentry,hcompressed,hsize,hwritten,bind,Except.bind,← h]
  rw [drop_of_length_le (by rw [hsize,hlen])]

/-- What it takes: no interrupt, no child that is its own ancestor, and no base whose level wraps around to that of a root. -/
structure Complete (env : Env α ε) (t : Tree α) (bases : List ℕ) : Prop where
  started : ∀ i, i+1 < t.rootItems.length → env.interrupted i = false
  reachable : ∀ k < t.childItems.length, ∃ d, Depth t (.child k) d
  levels : env.overflowChecks = false → ∀ {k d : ℕ} {item : Item α} {entry : DataEntry} {entryEnd : ℕ} {bytes : Bytes},
    t.childItems[k]? = some item → item.children ≠ [] → Depth t (.child k) d → d%2^16 = 0 →
    env.decompress item.range [] = .ok (entry,entryEnd,bytes) → Resolves env t bases (.child k) bytes

theorem startedRoots_sublist (env : Env α ε) (roots : List ℕ) : (env.startedRoots roots).Sublist roots := by
  induction roots with
  | nil => exact .slnil
  | cons i rest ih =>
    rw [Env.startedRoots]
    split
    · exact singleton_sublist.mpr mem_cons_self
    · exact ih.cons_cons i

/-- All roots are started if none but the last one is followed by an interrupt. -/
theorem startedRoots_all :
    env.startedRoots roots=roots ↔ ∀ i∈roots.dropLast,env.interrupted i=false := by
  induction roots with
  | nil => simp [Env.startedRoots]
  | cons i rest ih =>
    rw [Env.startedRoots]
    cases rest with
    | nil => simp [Env.startedRoots]
    | cons j rest =>
      rw [dropLast_cons_cons,forall_mem_cons,← ih]
      by_cases hint : env.interrupted i <;> simp [hint]

theorem Passed.resolves (hcount : t.childItems.length ≤ 2^32) (hb : Based t bases)
    (hfull : ∀ item∈t.childItems,env.Full item.range) (hc : Complete env t bases) (h : Passed env t n d bytes) : Resolves env t bases n bytes := by
  induction h with
  | root hitem hdata => exact .root hitem hdata
  | child hp hk hitem hdelta hbytes hlevel ih =>
    rename_i p _ k _ _ _ _ _ _ _
    obtain ⟨parent,hparent,hmem⟩ := mem_kids.mp hk
    have hin : parent∈t.rootItems++t.childItems := by
      cases p with
      | root i => exact mem_append_left _ (mem_of_getElem? hparent)
      | child i => exact mem_append_right _ (mem_of_getElem? hparent)
    obtain ⟨i,hi,hbase⟩ := hb.links parent hin k hmem
    have hlt := (List.getElem?_eq_some_iff.mp hbase).1
    rw [hb.length] at hlt
    rw [Nat.mod_eq_of_lt (by omega)] at hi
    exact .child ih hparent (hi ▸ hbase) hitem (decompress_of_full (hfull _ (mem_of_getElem? hitem)) hdelta) hbytes
  | wrapped hp hk hitem hchecks hinner hlevel hdata => exact hc.levels hchecks hitem hinner (.child hp hk) hlevel hdata

/-- What is known after a traversal, if there are indices for all children. -/
structure Finished (env : Env α ε) (t : Tree α) (bases : List ℕ) (stop : ℕ) (s : State α) : Prop where
  closed : Closed t stop
  full : ∀ item ∈ t.childItems, env.Full item.range
  linked : Linked t
  inBounds : ∀ k ∈ t.links, k < t.childItems.length
  few : t.childItems.length ≤ 2^32
  based : Based t bases
  known : Known env t s
  handled : (s.calls.map Inspected.node).Perm
    ((env.startedRoots (List.range t.rootItems.length)).map .root++(s.calls.map Inspected.node).flatMap t.kids)

section Finished
variable {bases : List ℕ}

theorem child_mem_nodes {k : ℕ} (hk : k < t.childItems.length) : .child k∈t.nodes :=
  mem_append_right _ (mem_map_of_mem (mem_range.mpr hk))

variable {stop : ℕ} (hf : Finished env t bases stop s)
include hf

/-- If all roots are inspected, the traversal wasn't interrupted. -/
theorem Finished.started (h : ∀ i < t.rootItems.length,.root i∈s.calls.map Inspected.node) (i : ℕ)
    (hi : i+1 < t.rootItems.length) : env.interrupted i=false := by
  have hsub : (range t.rootItems.length).Subperm (env.startedRoots (range t.rootItems.length)) := by
    refine subperm_of_subset nodup_range fun j hj => ?_
    have hroot := h j (mem_range.mp hj)
    rw [hf.handled.mem_iff,mem_append] at hroot
    rcases hroot with hroot | hroot
    · obtain ⟨_,hj',heq⟩ := mem_map.mp hroot
      exact root.inj heq ▸ hj'
    · obtain ⟨_,-,hp⟩ := mem_flatMap.mp hroot
      obtain ⟨_,hk⟩ := mem_kids_child hp
      cases hk
  have hall := (startedRoots_sublist env _).eq_of_length_le hsub.length_le
  refine startedRoots_all.mp hall i ?_
  rw [dropLast_eq_take,take_range,length_range,mem_range]
  omega

theorem Finished.complete (h : InspectedOnce env t bases s.calls) : Complete env t bases := by
  obtain ⟨hperm,hresolves⟩ := h
  have hcall : ∀ {k : ℕ},k < t.childItems.length → ∃ c∈s.calls,c.node = .child k := by
    intro k hk
    have hmem := child_mem_nodes hk
    rw [← hperm.mem_iff] at hmem
    exact mem_map.mp hmem
  refine ⟨hf.started fun i hi => ?_,fun k hk => ?_,?_⟩
  · rw [hperm.mem_iff]
    exact mem_append_left _ (mem_map_of_mem (mem_range.mpr hi))
  · obtain ⟨c,hc,hnode⟩ := hcall hk
    obtain ⟨d,hd⟩ := hf.known.passed c hc
    exact ⟨d,hnode ▸ hd.depth⟩
  · intro hchecks k d item entry entryEnd bytes hitem hinner hd hwrap hdata
    obtain ⟨c,hc,hnode⟩ := hcall (List.getElem?_eq_some_iff.mp hitem).1
    obtain ⟨_,hpassed⟩ := hf.known.passed c hc
    have hres := (hresolves c hc _).mpr rfl
    rw [hnode] at hpassed hres
    obtain rfl := hf.linked.depth_unique hd hpassed.depth
    -- at this level only the data of the entry itself can have been passed
    cases hpassed with
    | child hp hk hitem' hdelta hbytes hlevel =>
      cases hitem.symm.trans hitem'
      rcases hlevel with hleaf | hlevel
      · exact absurd hleaf hinner
      · exact absurd hwrap hlevel
    | wrapped hp hk hitem' _ _ _ hdata' =>
      cases hitem.symm.trans hitem'
      rw [hdata] at hdata'
      cases hdata'
      exact hres

theorem Finished.inspected (hc : Complete env t bases) : InspectedOnce env t bases s.calls := by
  have hstarted : env.startedRoots (range t.rootItems.length)=range t.rootItems.length := by
    refine startedRoots_all.mpr fun i hi => hc.started i ?_
    rw [dropLast_eq_take,take_range,length_range,mem_range] at hi
    omega
  have hdepth : ∀ n∈t.nodes,∃ d,Depth t n d := by
    intro n hn
    rcases mem_append.mp hn with hn | hn
    · obtain ⟨i,hi,rfl⟩ := mem_map.mp hn
      exact ⟨0,.root (mem_range.mp hi)⟩
    · obtain ⟨k,hk,rfl⟩ := mem_map.mp hn
      exact hc.reachable k (mem_range.mp hk)
  refine ⟨perm_iff_count.mpr fun n => ?_,fun c hcall => ?_⟩
  · by_cases hn : n∈t.nodes
    · obtain ⟨d,hd⟩ := hdepth n hn
      rw [count_eq_one_of_mem (nodes_nodup t) hn,hf.linked.count_depth hstarted hf.handled hd]
    · rw [count_eq_zero_of_not_mem hn,count_eq_zero_of_not_mem]
      intro hcalled
      obtain ⟨c,hcall,rfl⟩ := mem_map.mp hcalled
      obtain ⟨d,hd⟩ := hf.known.passed c hcall
      exact hn (hd.depth.mem_nodes hf.inBounds)
  · obtain ⟨d,hd⟩ := hf.known.passed c hcall
    have hres := hd.resolves hf.few hf.based hf.full hc
    exact fun bytes => ⟨fun hbytes => hbytes.unique hf.closed hres,fun heq => heq ▸ hres⟩

end Finished

/-- A blob of two bytes, and a delta at offset 15 that inserts one byte. Nothing is compressed. -/
def smallPack : Env Unit Empty where
  resolve range := if range = (12,15) then some [0x32,5,6] else if range = (15,21) then some [0x64,3,2,1,1,7] else none
  inflate compressed size := some (compressed.take size)
  inspect _ _ _ := .ok ()
  interrupted _ := false
  overflowChecks := false

def smallTree : Tree Unit := ⟨[⟨12,15,(),[0]⟩],[⟨15,21,(),[]⟩],some .child,[]⟩

theorem smallTree_complete (bases : List ℕ) : Complete smallPack smallTree bases := by
  refine ⟨fun _ _ => rfl,fun k hk => ?_,?_⟩
  · obtain rfl : k=0 := by simpa [smallTree] using hk
    exact ⟨1,.child (p := .root 0) (.root (by decide)) (by decide)⟩
  · intro _ k d item entry entryEnd bytes hitem hinner
    obtain ⟨hk,rfl⟩ := List.getElem?_eq_some_iff.mp hitem
    obtain rfl : k=0 := by simpa [smallTree] using hk
    exact absurd rfl hinner

theorem smallTree_full : ∀ item∈smallTree.childItems,smallPack.Full item.range := by
  intro item hitem
  obtain rfl := mem_singleton.mp hitem
  intro _ _ _ _ hbytes hentry hcompressed hwritten
  cases hbytes
  cases hentry
  cases hcompressed
  cases hwritten
  rfl

end Gix.Pack.DeltaTree
