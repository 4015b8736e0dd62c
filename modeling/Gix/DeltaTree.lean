import Gix.Fallible
import Gix.SortedSearch

/-! # The tree of deltas

`gix-pack/src/cache/delta/tree.rs`: the entries of a pack in the order of their offsets, each with
the entries that are based on it. A child whose base isn't known yet is set aside until all
entries are there. -/
namespace Gix.Pack.DeltaTree
open SortedSearch List Attempt
variable {α : Type}

structure Item (α : Type) where
  offset : ℕ
  nextOffset : ℕ
  data : α
  /-- Indices of children, of 32 bits each. -/
  children : List ℕ
deriving DecidableEq,Repr

inductive NodeKind | root | child deriving DecidableEq,Repr

structure Tree (α : Type) where
  rootItems : List (Item α)
  childItems : List (Item α)
  lastSeen : Option NodeKind
  /-- The offset of a base, with the index of its child. -/
  futureChildOffsets : List (ℕ × ℕ)
deriving DecidableEq,Repr

/-- `delta::Error`, and panics. -/
inductive Error
  | invariantIncreasingPackOffset (lastPackOffset packOffset : ℕ)
  | panic
deriving DecidableEq,Repr

/-- `traverse::Error` as far as the tree is concerned, and panics. -/
inductive ResolveError
  | outOfPackRefDelta (basePackOffset : ℕ)
  | panic
deriving DecidableEq,Repr

def Item.push (item : Item α) (index : ℕ) : Item α := { item with children := item.children++[index%2^32] }

namespace Tree

def withCapacity : Tree α := ⟨[],[],none,[]⟩

/-- `items.last_mut()` after the check that the offset is larger. -/
def updateLast (items : List (Item α)) (offset : ℕ) : Except Error (List (Item α)) :=
  match items.getLast? with
  | none => .error .panic
  | some item =>
    if offset ≤ item.offset then .error (.invariantIncreasingPackOffset item.offset offset)
    else .ok (items.dropLast++[{ item with nextOffset := offset }])

def assertIsIncrementingAndUpdateNextOffset (t : Tree α) (offset : ℕ) : Except Error (Tree α) :=
  match t.lastSeen with
  | some .root => (updateLast t.rootItems offset).map (fun items => { t with rootItems := items })
  | some .child => (updateLast t.childItems offset).map (fun items => { t with childItems := items })
  | none => .ok t

/-- Put a child under the item at the offset, if there is one. -/
def adopt (t : Tree α) (parentOffset childIndex : ℕ) : Option (Tree α) :=
  match binarySearchBy (fun i : Item α => compare i.offset parentOffset) t.childItems with
  | .ok i => some { t with childItems := t.childItems.modify i (·.push childIndex) }
  | .error _ =>
    match binarySearchBy (fun i : Item α => compare i.offset parentOffset) t.rootItems with
    | .ok i => some { t with rootItems := t.rootItems.modify i (·.push childIndex) }
    | .error _ => none

def addRoot (t : Tree α) (offset : ℕ) (data : α) : Except Error (Tree α) := do
  let t ← t.assertIsIncrementingAndUpdateNextOffset offset
  return { t with lastSeen := some .root, rootItems := t.rootItems++[⟨offset,0,data,[]⟩] }

def addChild (t : Tree α) (baseOffset offset : ℕ) (data : α) : Except Error (Tree α) := do
  let t ← t.assertIsIncrementingAndUpdateNextOffset offset
  let nextChildIndex := t.childItems.length
  let t := match t.adopt baseOffset nextChildIndex with
    | some t => t
    | none => { t with futureChildOffsets := t.futureChildOffsets++[(baseOffset,nextChildIndex)] }
  return { t with lastSeen := some .child, childItems := t.childItems++[⟨offset,0,data,[]⟩] }

def adoptAll : List (ℕ × ℕ) → Tree α → Except ResolveError (Tree α)
  | [], t => .ok t
  | (parentOffset,childIndex) :: rest, t =>
    match t.adopt parentOffset childIndex with
    | some t => adoptAll rest t
    | none => .error (.outOfPackRefDelta parentOffset)

def setPackEntriesEndAndResolveRefOffsets (t : Tree α) (packEntriesEnd : ℕ) : Except ResolveError (Tree α) := do
  let t ← adoptAll t.futureChildOffsets { t with futureChildOffsets := [] }
  match t.assertIsIncrementingAndUpdateNextOffset packEntriesEnd with
  | .ok t => .ok t
  | .error _ => .error .panic

def links (t : Tree α) : List ℕ := t.rootItems.flatMap Item.children++t.childItems.flatMap Item.children

end Tree

inductive Call (α : Type)
  | addRoot (offset : ℕ) (data : α)
  | addChild (baseOffset offset : ℕ) (data : α)

def Call.perform (t : Tree α) : Call α → Except Error (Tree α)
  | addRoot offset data => t.addRoot offset data
  | addChild baseOffset offset data => t.addChild baseOffset offset data

/-- The tree after all calls; those that are rejected leave it as it is. -/
def Tree.run : Tree α → List (Call α) → Tree α
  | t, [] => t
  | t, c :: cs => match c.perform t with
    | .ok t' => t'.run cs
    | .error _ => t.run cs

def Call.offset : Call α → ℕ
  | addRoot offset _ => offset
  | addChild _ offset _ => offset

def Call.base : Call α → List ℕ
  | addRoot _ _ => []
  | addChild baseOffset _ _ => [baseOffset]

/-- The bases of the children, in the order in which they were added. -/
def Tree.bases : Tree α → List (Call α) → List ℕ
  | _, [] => []
  | t, c :: cs => match c.perform t with
    | .ok t' => c.base++t'.bases cs
    | .error _ => t.bases cs

/-! Ranges that follow each other -/

/-- From `first` to `stop`, each range starts where the one before it ends. -/
def Tiles : ℕ → List (ℕ × ℕ) → ℕ → Prop
  | first, [], stop => first = stop
  | first, r :: l, stop => r.1 = first ∧ r.1 < r.2 ∧ Tiles r.2 l stop

/-- The ranges, taken in some order, follow each other up to the end. -/
def Tiled (ranges : List (ℕ × ℕ)) (stop : ℕ) : Prop := ∃ first l, l.Perm ranges ∧ Tiles first l stop

def Item.range (item : Item α) : ℕ × ℕ := (item.offset,item.nextOffset)

variable {first stop offset parentOffset index n : ℕ} {l ranges : List (ℕ × ℕ)} {items items' : List (Item α)}
  {t t' : Tree α} {item : Item α} {data : α} {bases : List ℕ}
  {packEntriesEnd mid childIndex baseOffset m : ℕ} {x : Item α}

theorem Tiles.bounds (h : Tiles first l stop) : first ≤ stop ∧ ∀ r∈l,r.1 < stop := by
  induction l generalizing first with
  | nil => exact ⟨Nat.le_of_eq h,by simp⟩
  | cons r l ih =>
    obtain ⟨rfl,_,hl⟩ := h
    obtain ⟨_,hmem⟩ := ih hl
    refine ⟨by omega,forall_mem_cons.mpr ⟨by omega,hmem⟩⟩

theorem Tiles.snoc (h : Tiles first l mid) (hstop : mid < stop) : Tiles first (l++[(mid,stop)]) stop := by
  induction l generalizing first with
  | nil => exact ⟨Eq.symm h,hstop,rfl⟩
  | cons r l ih =>
    obtain ⟨hfirst,hr,hl⟩ := h
    exact ⟨hfirst,hr,ih hl⟩

theorem Tiled.bound (h : Tiled ranges stop) : ∀ r∈ranges,r.1 < stop := by
  obtain ⟨_,_,hl,htiles⟩ := h
  intro r hr
  exact htiles.bounds.2 r (hl.mem_iff.mpr hr)

theorem Tiles.increasing (h : Tiles first l stop) : (∀ r∈l,first ≤ r.1) ∧ l.Pairwise (fun a b => a.1 < b.1) := by
  induction l generalizing first with
  | nil => exact ⟨by simp,.nil⟩
  | cons r l ih =>
    obtain ⟨rfl,_,hl⟩ := h
    obtain ⟨hfirst,hpairs⟩ := ih hl
    refine ⟨forall_mem_cons.mpr ⟨Nat.le_refl _,fun a ha => ?_⟩,pairwise_cons.mpr ⟨fun a ha => ?_,hpairs⟩⟩
    all_goals
      have := hfirst a ha
      omega

theorem Tiled.nodup (h : Tiled ranges stop) : (ranges.map Prod.fst).Nodup := by
  obtain ⟨_,_,hl,htiles⟩ := h
  refine (hl.map Prod.fst).nodup_iff.mp (pairwise_map.mpr ?_)
  exact htiles.increasing.2.imp fun hab => Nat.ne_of_lt hab

theorem Tiled.perm {ranges' : List (ℕ × ℕ)} (h : Tiled ranges stop) (hp : ranges.Perm ranges') :
    Tiled ranges' stop := by
  obtain ⟨first,l,hl,htiles⟩ := h
  exact ⟨first,l,hl.trans hp,htiles⟩

theorem Tiled.snoc (h : Tiled ranges mid) (hstop : mid < stop) : Tiled (ranges++[(mid,stop)]) stop := by
  obtain ⟨first,l,hl,htiles⟩ := h
  exact ⟨first,l++[(mid,stop)],hl.append_right _,htiles.snoc hstop⟩

/-! What the operations do -/

open Tree

theorem updateLast_ok {g : List (Item α) → Tree α} (h : (updateLast items offset).map g = .ok t') :
    ∃ init last,items=init++[last] ∧ last.offset < offset ∧ t'=g (init++[{ last with nextOffset := offset }]) := by
  unfold updateLast at h
  cases hlast : items.getLast? with
  | none => simp [hlast,Except.map] at h
  | some last =>
    obtain ⟨init,rfl⟩ := getLast?_eq_some_iff.mp hlast
    simp only [hlast] at h
    split at h
    · cases h
    · cases h
      exact ⟨init,last,rfl,by omega,by simp⟩

theorem Tree.advance_ok (h : t.assertIsIncrementingAndUpdateNextOffset offset = .ok t') :
    t.lastSeen=none ∧ t'=t ∨
      (∃ init last,t.lastSeen=some .root ∧ t.rootItems=init++[last] ∧ last.offset < offset ∧
        t'={ t with rootItems := init++[{ last with nextOffset := offset }] }) ∨
      ∃ init last,t.lastSeen=some .child ∧ t.childItems=init++[last] ∧ last.offset < offset ∧
        t'={ t with childItems := init++[{ last with nextOffset := offset }] } := by
  unfold assertIsIncrementingAndUpdateNextOffset at h
  cases hseen : t.lastSeen with
  | none =>
    simp only [hseen,Except.ok.injEq] at h
    exact .inl ⟨rfl,h.symm⟩
  | some kind =>
    cases kind with
    | root =>
      simp only [hseen] at h
      obtain ⟨init,last,hlast⟩ := updateLast_ok h
      exact .inr (.inl ⟨init,last,rfl,hlast⟩)
    | child =>
      simp only [hseen] at h
      obtain ⟨init,last,hlast⟩ := updateLast_ok h
      exact .inr (.inr ⟨init,last,rfl,hlast⟩)

theorem Tree.adopt_some (h : t.adopt parentOffset childIndex=some t') :
    ∃ pre x post,x.offset=parentOffset ∧
      (t.childItems=pre++x::post ∧ t'={ t with childItems := pre++x.push childIndex::post } ∨
        t.rootItems=pre++x::post ∧ t'={ t with rootItems := pre++x.push childIndex::post }) := by
  unfold adopt at h
  split at h
  · rename_i i hi
    obtain ⟨pre,x,post,hitems,rfl,hx⟩ := binarySearchBy_ok hi
    refine ⟨pre,x,post,Std.LawfulEqOrd.eq_of_compare hx,.inl ⟨hitems,?_⟩⟩
    rw [← Option.some.inj h,hitems,modify_split]
  · split at h
    · rename_i i hi
      obtain ⟨pre,x,post,hitems,rfl,hx⟩ := binarySearchBy_ok hi
      refine ⟨pre,x,post,Std.LawfulEqOrd.eq_of_compare hx,.inr ⟨hitems,?_⟩⟩
      rw [← Option.some.inj h,hitems,modify_split]
    · cases h

/-! The invariant -/

/-- What holds of the tree between two calls, but for the item that was added last. -/
structure Ordered (t : Tree α) : Prop where
  roots : t.rootItems.Pairwise (fun a b => a.offset < b.offset)
  children : t.childItems.Pairwise (fun a b => a.offset < b.offset)
  links : (t.links++t.futureChildOffsets.map (fun f : ℕ × ℕ => f.2%2^32)).Perm ((List.range t.childItems.length).map (·%2^32))

/-- The ranges of all items but the last one are complete, and it starts where they end. -/
def Open (t : Tree α) : Prop :=
  match t.lastSeen with
  | none => t.rootItems = [] ∧ t.childItems = []
  | some .root => ∃ init last, t.rootItems = init++[last] ∧ Tiled ((init++t.childItems).map Item.range) last.offset
  | some .child => ∃ init last, t.childItems = init++[last] ∧ Tiled ((t.rootItems++init).map Item.range) last.offset

structure Sound (t : Tree α) : Prop extends Ordered t where
  unfinished : Open t

/-- The ranges of all items are complete. -/
structure Closed (t : Tree α) (stop : ℕ) : Prop extends Ordered t where
  tiled : Tiled ((t.rootItems++t.childItems).map Item.range) stop

theorem sound_new : Sound (withCapacity : Tree α) :=
  ⟨⟨.nil,.nil,by simp [withCapacity,links]⟩,rfl,rfl⟩

theorem pairwise_offset (h : items'.map Item.offset=items.map Item.offset)
    (hs : items.Pairwise (fun a b => a.offset < b.offset)) : items'.Pairwise (fun a b => a.offset < b.offset) := by
  have hmap := pairwise_map.mpr hs
  rw [← h] at hmap
  exact pairwise_map.mp hmap

theorem Sound.advance (h : Sound t) (ht : t.assertIsIncrementingAndUpdateNextOffset offset = .ok t') :
    Closed t' offset := by
  have hopen := h.unfinished
  obtain ⟨hseen,rfl⟩ | ⟨init,last,hseen,hitems,hlt,rfl⟩ | ⟨init,last,hseen,hitems,hlt,rfl⟩ := advance_ok ht
  · simp only [Open,hseen] at hopen
    obtain ⟨hroots,hchildren⟩ := hopen
    exact ⟨h.toOrdered,offset,[],by simp [hroots,hchildren],rfl⟩
  · simp only [Open,hseen] at hopen
    obtain ⟨init',last',hitems',htiled⟩ := hopen
    obtain ⟨rfl,rfl⟩ : init=init' ∧ last=last' := by simpa using hitems.symm.trans hitems'
    refine ⟨⟨pairwise_offset ?_ h.roots,h.children,?_⟩,(htiled.snoc hlt).perm ?_⟩
    · simp [hitems]
    · simpa [links,hitems] using h.links
    · rw [map_append,map_append,map_append,append_assoc,append_assoc]
      exact List.Perm.append_left _ perm_append_comm
  · simp only [Open,hseen] at hopen
    obtain ⟨init',last',hitems',htiled⟩ := hopen
    obtain ⟨rfl,rfl⟩ : init=init' ∧ last=last' := by simpa using hitems.symm.trans hitems'
    refine ⟨⟨h.roots,pairwise_offset ?_ h.children,?_⟩,(htiled.snoc hlt).perm ?_⟩
    · simp [hitems]
    · simpa [links,hitems] using h.links
    · simp [Item.range]

theorem Closed.below (h : Closed t stop) : ∀ item∈t.rootItems++t.childItems,item.offset < stop :=
  fun item hitem => h.tiled.bound item.range (mem_map_of_mem hitem)

theorem pairwise_push (h : items.Pairwise (fun a b => a.offset < b.offset))
    (hitem : ∀ a∈items,a.offset < item.offset) : (items++[item]).Pairwise (fun a b => a.offset < b.offset) :=
  pairwise_append.mpr ⟨h,pairwise_singleton _ _,fun a ha b hb => by
    obtain rfl := mem_singleton.mp hb
    exact hitem a ha⟩

theorem Sound.addRoot (h : Sound t) (ht : t.addRoot offset data = .ok t') : Sound t' := by
  obtain ⟨t1,hadv,ht⟩ := of_bind_ok ht
  have hc := h.advance hadv
  cases ht
  refine ⟨⟨pairwise_push hc.roots fun a ha => hc.below a (mem_append_left _ ha),hc.children,?_⟩,t1.rootItems,_,rfl,hc.tiled⟩
  simpa [links] using hc.links

theorem links_push {pre post : List (Item α)} (h : items=pre++x::post) :
    ((pre++x.push index::post).flatMap Item.children).Perm (items.flatMap Item.children++[index%2^32]) := by
  subst h
  simp only [flatMap_append,flatMap_cons,Item.push,append_assoc]
  refine List.Perm.append_left _ (List.Perm.append_left _ perm_append_comm)

/-- A child that finds its base changes nothing but the links. -/
theorem Tree.adopt_frame (h : t.adopt parentOffset childIndex=some t') :
    t'.rootItems.map Item.range=t.rootItems.map Item.range ∧ t'.childItems.map Item.range=t.childItems.map Item.range ∧
      t'.lastSeen=t.lastSeen ∧ t'.futureChildOffsets=t.futureChildOffsets ∧ t'.links.Perm (t.links++[childIndex%2^32]) := by
  obtain ⟨_,_,_,-,⟨hitems,rfl⟩ | ⟨hitems,rfl⟩⟩ := adopt_some h
  · refine ⟨rfl,by simp [hitems,Item.push,Item.range],rfl,rfl,?_⟩
    simp only [links,append_assoc]
    exact List.Perm.append_left _ (links_push hitems)
  · refine ⟨by simp [hitems,Item.push,Item.range],rfl,rfl,rfl,?_⟩
    refine ((links_push hitems).append_right _).trans ?_
    simp only [links,append_assoc]
    exact List.Perm.append_left _ perm_append_comm

theorem offsets_of_ranges (h : items'.map Item.range=items.map Item.range) :
    items'.map Item.offset=items.map Item.offset := by
  have hfst := congrArg (map Prod.fst) h
  rwa [map_map,map_map] at hfst

theorem length_of_ranges (h : items'.map Item.range=items.map Item.range) : items'.length=items.length := by
  rw [← length_map Item.range,h,length_map]

/-- A child is added after it was put under its base, or set aside. -/
theorem Closed.addChild {t1 : Tree α} (h : Closed t offset)
    (hroots : t1.rootItems.map Item.range=t.rootItems.map Item.range)
    (hchildren : t1.childItems.map Item.range=t.childItems.map Item.range)
    (hlinks : (t1.links++t1.futureChildOffsets.map (fun f : ℕ × ℕ => f.2%2^32)).Perm
      (t.links++t.futureChildOffsets.map (fun f : ℕ × ℕ => f.2%2^32)++[t.childItems.length%2^32])) :
    Sound { t1 with lastSeen := some .child,childItems := t1.childItems++[⟨offset,0,data,[]⟩] } := by
  have htiled : Tiled ((t1.rootItems++t1.childItems).map Item.range) offset := by
    rw [map_append,hroots,hchildren,← map_append]
    exact h.tiled
  have hlength := length_of_ranges hchildren
  refine ⟨⟨pairwise_offset (offsets_of_ranges hroots) h.roots,pairwise_push (pairwise_offset (offsets_of_ranges hchildren) h.children) ?_,?_⟩,
    t1.childItems,_,rfl,htiled⟩
  · intro a ha
    exact htiled.bound a.range (mem_map_of_mem (mem_append_right _ ha))
  · have hsum : (t1.links++t1.futureChildOffsets.map (fun f : ℕ × ℕ => f.2%2^32)).Perm
        ((range (t1.childItems.length+1)).map (·%2^32)) := by
      rw [hlength,range_succ,map_append]
      exact hlinks.trans (h.links.append_right _)
    simpa [links] using hsum

theorem Sound.addChild (h : Sound t) (ht : t.addChild baseOffset offset data = .ok t') : Sound t' := by
  obtain ⟨t1,hadv,ht⟩ := of_bind_ok ht
  have hc := h.advance hadv
  cases ht
  cases hadopt : t1.adopt baseOffset t1.childItems.length with
  | none =>
    refine hc.addChild rfl rfl ?_
    simp [links]
  | some t2 =>
    obtain ⟨hroots,hchildren,-,hfuture,hlinks⟩ := adopt_frame hadopt
    refine hc.addChild hroots hchildren ?_
    rw [hfuture]
    refine (hlinks.append_right _).trans ?_
    rw [append_assoc,append_assoc]
    exact List.Perm.append_left _ perm_append_comm

theorem Sound.perform {c : Call α} (h : Sound t) (ht : c.perform t = .ok t') : Sound t' := by
  cases c with
  | addRoot offset data => exact h.addRoot ht
  | addChild baseOffset offset data => exact h.addChild ht

theorem Sound.run (h : Sound t) (cs : List (Call α)) : Sound (t.run cs) := by
  induction cs generalizing t with
  | nil => exact h
  | cons c cs ih =>
    rw [run]
    split
    · rename_i t' ht
      exact ih (h.perform ht)
    · exact ih h

/-- The item that was added last is there: no call panics. -/
theorem Sound.no_panic (h : Sound t) (offset : ℕ) :
    t.assertIsIncrementingAndUpdateNextOffset offset ≠ .error .panic := by
  have hopen := h.unfinished
  unfold Tree.assertIsIncrementingAndUpdateNextOffset
  cases hseen : t.lastSeen with
  | none => simp
  | some kind =>
    cases kind <;>
    · simp only [Open,hseen] at hopen
      obtain ⟨_,_,hitems,-⟩ := hopen
      simp only [hitems,updateLast,getLast?_append,getLast?_singleton,Option.some_or]
      split <;> simp [Except.map]

theorem adoptAll_ok {future : List (ℕ × ℕ)} (h : adoptAll future t = .ok t') :
    t'.rootItems.map Item.range=t.rootItems.map Item.range ∧ t'.childItems.map Item.range=t.childItems.map Item.range ∧
      t'.lastSeen=t.lastSeen ∧ t'.futureChildOffsets=t.futureChildOffsets ∧
      t'.links.Perm (t.links++future.map (fun f => f.2%2^32)) := by
  induction future generalizing t with
  | nil =>
    cases h
    exact ⟨rfl,rfl,rfl,rfl,by simp⟩
  | cons f future ih =>
    rw [adoptAll] at h
    cases hadopt : t.adopt f.1 f.2 with
    | none => simp [hadopt] at h
    | some t1 =>
      simp only [hadopt] at h
      obtain ⟨hroots,hchildren,hseen,hfuture,hlinks⟩ := adopt_frame hadopt
      obtain ⟨hroots',hchildren',hseen',hfuture',hlinks'⟩ := ih h
      refine ⟨hroots'.trans hroots,hchildren'.trans hchildren,hseen'.trans hseen,hfuture'.trans hfuture,hlinks'.trans ?_⟩
      simpa using hlinks.append_right _

theorem last_congr {P : List (ℕ × ℕ) → ℕ → Prop} (heq : items'.map Item.range=items.map Item.range)
    (h : ∃ init last,items=init++[last] ∧ P (init.map Item.range) last.offset) :
    ∃ init last,items'=init++[last] ∧ P (init.map Item.range) last.offset := by
  obtain ⟨init,last,rfl,hp⟩ := h
  rw [map_append] at heq
  obtain ⟨init',rest,rfl,hinit,hrest⟩ := map_eq_append_iff.mp heq
  obtain ⟨last',rfl,hlast⟩ := map_eq_singleton_iff.mp hrest
  have hoffset : last'.offset=last.offset := congrArg Prod.fst hlast
  exact ⟨init',last',rfl,by rwa [hinit,hoffset]⟩

theorem Open.congr (h : Open t) (hroots : t'.rootItems.map Item.range=t.rootItems.map Item.range)
    (hchildren : t'.childItems.map Item.range=t.childItems.map Item.range) (hseen : t'.lastSeen=t.lastSeen) :
    Open t' := by
  unfold Open at h ⊢
  rw [hseen]
  cases hlast : t.lastSeen with
  | none =>
    simp only [hlast] at h
    obtain ⟨hnone,hnone'⟩ := h
    rw [hnone] at hroots
    rw [hnone'] at hchildren
    exact ⟨map_eq_nil_iff.mp hroots,map_eq_nil_iff.mp hchildren⟩
  | some kind =>
    cases kind <;> simp only [hlast,map_append,hroots,hchildren] at h ⊢
    case root => exact last_congr (P := fun l => Tiled (l++t.childItems.map Item.range)) hroots h
    case child => exact last_congr (P := fun l => Tiled (t.rootItems.map Item.range++l)) hchildren h

theorem Tree.setPackEntriesEnd_ok
    (ht : t.setPackEntriesEndAndResolveRefOffsets packEntriesEnd = .ok t') :
    ∃ t1,adoptAll t.futureChildOffsets { t with futureChildOffsets := [] } = .ok t1 ∧
      t1.assertIsIncrementingAndUpdateNextOffset packEntriesEnd = .ok t' := by
  obtain ⟨t1,hall,ht⟩ := of_bind_ok ht
  split at ht
  · cases ht
    exact ⟨t1,hall,by assumption⟩
  · cases ht

/-- After the end of the pack is set, nothing is left to be done. -/
theorem Sound.setPackEntriesEnd (h : Sound t)
    (ht : t.setPackEntriesEndAndResolveRefOffsets packEntriesEnd = .ok t') :
    Closed t' packEntriesEnd ∧ t'.futureChildOffsets=[] ∧ t'.childItems.length=t.childItems.length := by
  obtain ⟨t1,hall,hadv⟩ := Tree.setPackEntriesEnd_ok ht
  obtain ⟨hroots,hchildren,hseen,hfuture,hlinks⟩ := adoptAll_ok hall
  have hlength := length_of_ranges hchildren
  have hsound : Sound t1 := by
    refine ⟨⟨pairwise_offset (offsets_of_ranges hroots) h.roots,pairwise_offset (offsets_of_ranges hchildren) h.children,?_⟩,
      h.unfinished.congr hroots hchildren hseen⟩
    rw [hfuture,map_nil,append_nil,hlength]
    exact hlinks.trans h.links
  refine ⟨hsound.advance hadv,?_⟩
  obtain ⟨-,rfl⟩ | ⟨init,last,-,hitems,-,rfl⟩ | ⟨init,last,-,hitems,-,rfl⟩ := advance_ok hadv
  · exact ⟨hfuture,hlength⟩
  · exact ⟨hfuture,hlength⟩
  · exact ⟨hfuture,by simpa [hitems] using hlength⟩

theorem range_map_mod (h : n ≤ m) : (List.range n).map (·%m)=List.range n := by
  refine (map_congr_left fun k hk => ?_).trans (map_id _)
  have := mem_range.mp hk
  exact Nat.mod_eq_of_lt (by omega)

/-- Each child is the child of one item, the items are in order, and their ranges make up the pack. -/
theorem delta_tree_invariant (calls : List (Call α)) (packEntriesEnd : ℕ) {t : Tree α}
    (h : ((Tree.withCapacity : Tree α).run calls).setPackEntriesEndAndResolveRefOffsets packEntriesEnd = .ok t)
    (hcount : ((Tree.withCapacity : Tree α).run calls).childItems.length ≤ 2^32) :
    t.links.Perm (List.range t.childItems.length) ∧
      t.rootItems.Pairwise (fun a b => a.offset < b.offset) ∧ t.childItems.Pairwise (fun a b => a.offset < b.offset) ∧
      Tiled ((t.rootItems++t.childItems).map Item.range) packEntriesEnd := by
  obtain ⟨hc,hfuture,hlength⟩ := (sound_new.run calls).setPackEntriesEnd h
  refine ⟨?_,hc.roots,hc.children,hc.tiled⟩
  have hlinks := hc.links
  rwa [hfuture,map_nil,append_nil,range_map_mod (hlength ▸ hcount)] at hlinks

/-- A forward reference, a rejected call and a child that finds its base at once. -/
theorem delta_tree_invariant_forward : ∃ t : Tree Unit,
    ((Tree.withCapacity : Tree Unit).run [.addChild 20 12 (),.addRoot 20 (),.addRoot 15 (),.addChild 20 30 ()]).setPackEntriesEndAndResolveRefOffsets
      40 = .ok t ∧ t.links.Perm (List.range t.childItems.length) ∧
      t.rootItems.Pairwise (fun a b => a.offset < b.offset) ∧ t.childItems.Pairwise (fun a b => a.offset < b.offset) ∧
      Tiled ((t.rootItems++t.childItems).map Item.range) 40 :=
  ⟨⟨[⟨20,30,(),[1,0]⟩],[⟨12,20,(),[]⟩,⟨30,40,(),[]⟩],some .child,[]⟩,rfl,
    delta_tree_invariant [.addChild 20 12 (),.addRoot 20 (),.addRoot 15 (),.addChild 20 30 ()] 40 rfl (by decide)⟩

/-! More children than indices -/

theorem Sound.advance_of_lt (h : Sound t) (hlt : ∀ item∈t.rootItems++t.childItems,item.offset < offset) :
    ∃ t',t.assertIsIncrementingAndUpdateNextOffset offset = .ok t' := by
  have hlast : ∀ (init : List (Item α)) (last : Item α),last.offset < offset →
      ∃ items,updateLast (init++[last]) offset = .ok items := by
    intro init last hl
    simp only [updateLast,getLast?_append,getLast?_singleton,Option.some_or,if_neg (Nat.not_le.mpr hl)]
    exact ⟨_,rfl⟩
  have hopen := h.unfinished
  unfold Tree.assertIsIncrementingAndUpdateNextOffset
  cases hseen : t.lastSeen with
  | none => exact ⟨t,rfl⟩
  | some kind =>
    cases kind <;>
    · simp only [Open,hseen] at hopen
      obtain ⟨init,last,hitems,-⟩ := hopen
      obtain ⟨items,hupdate⟩ := hlast init last (hlt last (by simp [hitems]))
      simp only [hitems,hupdate]
      exact ⟨_,rfl⟩

theorem Ordered.adopt_of_mem (h : Ordered t) (hitem : item∈t.rootItems) (index : ℕ) :
    ∃ t',t.adopt item.offset index=some t' := by
  unfold Tree.adopt
  split
  · exact ⟨_,rfl⟩
  · obtain ⟨_,_,hsplit⟩ := append_of_mem hitem
    have hi := search_found ((hsplit ▸ h.roots).imp Nat.compare_eq_lt.mpr) rfl
    exact ⟨_,by rw [hsplit,hi]⟩

def crowd (n : ℕ) : List (Call Unit) := .addRoot 0 () :: (List.range n).map (fun i => .addChild 0 (i+1) ())

structure Crowded (n : ℕ) (t : Tree Unit) : Prop where
  sound : Sound t
  roots : t.rootItems.map Item.offset = [0]
  children : t.childItems.map Item.offset = (List.range n).map (·+1)
  future : t.futureChildOffsets = []

theorem Crowded.below {t : Tree Unit} (h : Crowded n t) : ∀ item∈t.rootItems++t.childItems,item.offset < n+1 := by
  intro item hitem
  rcases mem_append.mp hitem with hitem | hitem
  · have := mem_map_of_mem (f := Item.offset) hitem
    rw [h.roots,mem_singleton] at this
    omega
  · have := mem_map_of_mem (f := Item.offset) hitem
    rw [h.children] at this
    obtain ⟨_,hk,_⟩ := mem_map.mp this
    have := mem_range.mp hk
    omega

theorem Tree.advance_offsets (h : t.assertIsIncrementingAndUpdateNextOffset offset = .ok t') :
    t'.rootItems.map Item.offset=t.rootItems.map Item.offset ∧ t'.childItems.map Item.offset=t.childItems.map Item.offset ∧
      t'.futureChildOffsets=t.futureChildOffsets := by
  obtain ⟨-,rfl⟩ | ⟨init,last,-,hitems,-,rfl⟩ | ⟨init,last,-,hitems,-,rfl⟩ := advance_ok h
  · exact ⟨rfl,rfl,rfl⟩
  · exact ⟨by simp [hitems],rfl,rfl⟩
  · exact ⟨rfl,by simp [hitems],rfl⟩

theorem Crowded.addChild {t : Tree Unit} (h : Crowded n t) :
    ∃ t',t.addChild 0 (n+1) () = .ok t' ∧ Crowded (n+1) t' := by
  obtain ⟨t1,hadv⟩ := h.sound.advance_of_lt h.below
  obtain ⟨hroots,hchildren,hfuture⟩ := Tree.advance_offsets hadv
  have hroot : ∃ item∈t1.rootItems,item.offset=0 := by
    have : 0∈t1.rootItems.map Item.offset := by rw [hroots,h.roots]; exact mem_singleton_self 0
    simpa using this
  obtain ⟨item,hitem,hzero⟩ := hroot
  obtain ⟨t2,hadopt⟩ := (h.sound.advance hadv).toOrdered.adopt_of_mem hitem t1.childItems.length
  rw [hzero] at hadopt
  have hadd : t.addChild 0 (n+1) () = .ok { t2 with lastSeen := some .child,childItems := t2.childItems++[⟨n+1,0,(),[]⟩] } := by
    simp [Tree.addChild,hadv,bind,Except.bind,hadopt,pure,Except.pure]
  obtain ⟨hroots',hchildren',-,hfuture',-⟩ := adopt_frame hadopt
  refine ⟨_,hadd,h.sound.addChild hadd,?_,?_,hfuture'.trans (hfuture.trans h.future)⟩
  · exact (offsets_of_ranges hroots').trans (hroots.trans h.roots)
  · rw [map_append,offsets_of_ranges hchildren',hchildren,h.children,range_succ,map_append]
    rfl

theorem Tree.run_append (t : Tree α) (cs cs' : List (Call α)) : t.run (cs++cs')=(t.run cs).run cs' := by
  induction cs generalizing t with
  | nil => rfl
  | cons c cs ih =>
    rw [cons_append,run,run]
    split <;> exact ih _

theorem crowded (n : ℕ) : Crowded n (withCapacity.run (crowd n)) := by
  induction n with
  | zero => exact ⟨sound_new.run _,rfl,rfl,rfl⟩
  | succ n ih =>
    obtain ⟨_,hadd,ht⟩ := ih.addChild
    have hrun : crowd (n+1)=crowd n++[.addChild 0 (n+1) ()] := by simp [crowd,range_succ]
    rw [hrun,Tree.run_append,run,Call.perform,hadd]
    exact ht

theorem crowd_links (n : ℕ) : ∃ t : Tree Unit,
    (withCapacity.run (crowd n)).setPackEntriesEndAndResolveRefOffsets (n+1) = .ok t ∧
      t.links.Perm ((List.range n).map (·%2^32)) := by
  have hcrowd := crowded n
  generalize withCapacity.run (crowd n)=t at hcrowd
  obtain ⟨t',hadv⟩ := hcrowd.sound.advance_of_lt hcrowd.below
  have hfuture : t.futureChildOffsets=[] := hcrowd.future
  have hset : t.setPackEntriesEndAndResolveRefOffsets (n+1) = .ok t' := by
    have hsame : { t with futureChildOffsets := [] }=t := by rw [← hfuture]
    rw [Tree.setPackEntriesEndAndResolveRefOffsets,hsame,hfuture,adoptAll]
    simp [bind,Except.bind,hadv]
  refine ⟨t',hset,?_⟩
  obtain ⟨hc,hfuture',hlength⟩ := hcrowd.sound.setPackEntriesEnd hset
  have hcount : t.childItems.length=n := by
    rw [← length_map Item.offset,hcrowd.children,length_map,length_range]
  have hlinks := hc.links
  rwa [hfuture',map_nil,append_nil,hlength,hcount] at hlinks

theorem not_nodup_mod (hm : 0 < m) (hn : m < n) : ¬ ((List.range n).map (·%m)).Nodup := by
  intro hnodup
  have hinj := inj_on_of_nodup_map hnodup
  have := hinj (mem_range.mpr (Nat.zero_lt_of_lt hn)) (mem_range.mpr hn) (by simp)
  omega

/-- Two children of one root, both with index 0. -/
theorem too_many_children : ∃ t : Tree Unit,
    (Tree.withCapacity.run (crowd (2^32+1))).setPackEntriesEndAndResolveRefOffsets (2^32+1+1) = .ok t ∧ ¬ t.links.Nodup := by
  obtain ⟨t,hset,hlinks⟩ := crowd_links (2^32+1)
  exact ⟨t,hset,fun hnodup => not_nodup_mod (Nat.two_pow_pos 32) (Nat.lt_succ_self _) (hlinks.nodup_iff.mp hnodup)⟩

/-! The links lead to the bases -/

/-- Each child is under its base, or waits for it. -/
structure Based (t : Tree α) (bases : List ℕ) : Prop where
  length : bases.length = t.childItems.length
  links : ∀ item ∈ t.rootItems++t.childItems, ∀ k ∈ item.children, ∃ i, i%2^32 = k ∧ bases[i]? = some item.offset
  future : ∀ f ∈ t.futureChildOffsets, bases[f.2]? = some f.1

/-- The children of an item were added with its offset. -/
def Item.BasedOn (bases : List ℕ) (item : Item α) : Prop :=
  ∀ k ∈ item.children, ∃ i, i%2^32 = k ∧ bases[i]? = some item.offset

def Item.family (item : Item α) : ℕ × List ℕ := (item.offset,item.children)

theorem family_links (hfamily : items'.map Item.family=items.map Item.family)
    (h : ∀ item∈items,item.BasedOn bases) :
    ∀ item∈items',item.BasedOn bases := by
  intro item' hitem'
  have hmem := mem_map_of_mem (f := Item.family) hitem'
  rw [hfamily] at hmem
  obtain ⟨item,hitem,heq⟩ := mem_map.mp hmem
  obtain ⟨hoffset,hchildren⟩ := Prod.mk.inj heq
  rw [Item.BasedOn,← hoffset,← hchildren]
  exact h item hitem

theorem Based.advance (h : Based t bases) (ht : t.assertIsIncrementingAndUpdateNextOffset offset = .ok t') :
    Based t' bases := by
  obtain ⟨-,rfl⟩ | ⟨init,last,-,hitems,-,rfl⟩ | ⟨init,last,-,hitems,-,rfl⟩ := advance_ok ht
  · exact h
  · exact ⟨h.length,family_links (by simp [hitems,Item.family]) h.links,h.future⟩
  · exact ⟨by simp [h.length,hitems],family_links (by simp [hitems,Item.family]) h.links,h.future⟩

theorem push_links {pre post : List (Item α)} (hbase : bases[index]? = some x.offset)
    (h : ∀ item∈pre++x::post,item.BasedOn bases) :
    ∀ item∈pre++x.push index::post,item.BasedOn bases := by
  intro item hitem k hk
  rcases mem_append.mp hitem with hmem | hmem
  · exact h item (mem_append_left _ hmem) k hk
  rcases mem_cons.mp hmem with rfl | hmem
  · rcases mem_append.mp hk with hk | hk
    · exact h x (by simp) k hk
    · exact ⟨index,(mem_singleton.mp hk).symm,hbase⟩
  · exact h item (by simp [hmem]) k hk

theorem Tree.adopt_links (ht : t.adopt parentOffset index=some t') (hbase : bases[index]? = some parentOffset)
    (h : ∀ item∈t.rootItems++t.childItems,item.BasedOn bases) :
    ∀ item∈t'.rootItems++t'.childItems,item.BasedOn bases := by
  obtain ⟨_,_,_,rfl,⟨hitems,rfl⟩ | ⟨hitems,rfl⟩⟩ := adopt_some ht
  · rw [hitems,← append_assoc] at h
    rw [← append_assoc]
    exact push_links hbase h
  · rw [hitems,append_assoc] at h
    rw [append_assoc]
    exact push_links hbase h

variable (h : Based t bases)
include h

theorem Based.addChild (ht : t.addChild baseOffset offset data = .ok t') :
    Based t' (bases++[baseOffset]) := by
  obtain ⟨t1,hadv,ht⟩ := of_bind_ok ht
  have h1 := h.advance hadv
  cases ht
  have hgrow : ∀ {i b : ℕ},bases[i]? = some b → (bases++[baseOffset])[i]? = some b := by
    intro i b hb
    obtain ⟨hi,-⟩ := List.getElem?_eq_some_iff.mp hb
    rw [getElem?_append_left hi,hb]
  have hnew : (bases++[baseOffset])[t1.childItems.length]? = some baseOffset := by simp [← h1.length]
  have hold : ∀ item∈t1.rootItems++t1.childItems,item.BasedOn (bases++[baseOffset]) := by
    intro item hitem k hk
    obtain ⟨i,hi,hb⟩ := h1.links item hitem k hk
    exact ⟨i,hi,hgrow hb⟩
  have hitem : ∀ {roots children : List (Item α)},(∀ item∈roots++children,item.BasedOn (bases++[baseOffset])) →
      ∀ item∈roots++(children++[⟨offset,0,data,[]⟩]),item.BasedOn (bases++[baseOffset]) := by
    intro roots children hlinks item hmem k hk
    rw [← append_assoc,mem_append,mem_singleton] at hmem
    rcases hmem with hmem | rfl
    · exact hlinks item hmem k hk
    · simp at hk
  cases hadopt : t1.adopt baseOffset t1.childItems.length with
  | none =>
    refine ⟨by simp [h1.length],hitem hold,?_⟩
    intro f hf
    rcases mem_append.mp hf with hf | hf
    · exact hgrow (h1.future f hf)
    · obtain rfl := mem_singleton.mp hf
      exact hnew
  | some t2 =>
    obtain ⟨-,hchildren,-,hfuture,-⟩ := adopt_frame hadopt
    have hlength := length_of_ranges hchildren
    refine ⟨by simp [h1.length,hlength],hitem (Tree.adopt_links hadopt hnew hold),?_⟩
    intro f hf
    rw [hfuture] at hf
    exact hgrow (h1.future f hf)

theorem Based.addRoot (ht : t.addRoot offset data = .ok t') : Based t' bases := by
  obtain ⟨_,hadv,ht⟩ := of_bind_ok ht
  have h1 := h.advance hadv
  cases ht
  refine ⟨h1.length,?_,h1.future⟩
  intro item hitem k hk
  rw [mem_append,mem_append,mem_singleton] at hitem
  rcases hitem with (hitem | rfl) | hitem
  · exact h1.links item (mem_append_left _ hitem) k hk
  · simp at hk
  · exact h1.links item (mem_append_right _ hitem) k hk

theorem Based.run (cs : List (Call α)) : Based (t.run cs) (bases++t.bases cs) := by
  induction cs generalizing t bases with
  | nil => simpa [run,Tree.bases] using h
  | cons c cs ih =>
    rw [run,Tree.bases]
    cases hc : c.perform t with
    | error e => exact ih h
    | ok t' =>
      cases c with
      | addRoot offset data => exact ih (h.addRoot hc)
      | addChild baseOffset offset data =>
        have hnext := ih (h.addChild hc)
        rwa [append_assoc] at hnext

theorem Based.setPackEntriesEnd
    (ht : t.setPackEntriesEndAndResolveRefOffsets packEntriesEnd = .ok t') : Based t' bases := by
  have hall : ∀ {future : List (ℕ × ℕ)} {t t' : Tree α},adoptAll future t = .ok t' →
      (∀ f∈future,bases[f.2]? = some f.1) → Based t bases → Based t' bases := by
    intro future
    induction future with
    | nil =>
      intro t t' hok _ hb
      cases hok
      exact hb
    | cons f future ih =>
      intro t t' hok hf hb
      rw [adoptAll] at hok
      cases hadopt : t.adopt f.1 f.2 with
      | none => simp [hadopt] at hok
      | some t1 =>
        simp only [hadopt] at hok
        obtain ⟨hbase,hrest⟩ := forall_mem_cons.mp hf
        obtain ⟨-,hchildren,-,hfuture,-⟩ := adopt_frame hadopt
        have hlength := length_of_ranges hchildren
        exact ih hok hrest ⟨hb.length.trans hlength.symm,Tree.adopt_links hadopt hbase hb.links,hfuture ▸ hb.future⟩
  obtain ⟨t1,hadopt,hadv⟩ := Tree.setPackEntriesEnd_ok ht
  exact (hall hadopt h.future ⟨h.length,h.links,by simp⟩).advance hadv

omit h

/-- No call panics, and just the entries behind all others are taken. -/
theorem perform_ok_iff (calls : List (Call α)) (c : Call α) :
    let t : Tree α := withCapacity.run calls
    c.perform t ≠ .error .panic ∧
      ((∃ t', c.perform t = .ok t') ↔ ∀ item ∈ t.rootItems++t.childItems, item.offset < c.offset) := by
  intro t
  have h := (sound_new (α := α)).run calls
  obtain ⟨f,hf⟩ : ∃ f,c.perform t=(t.assertIsIncrementingAndUpdateNextOffset c.offset).map f := by
    cases c <;> exact ⟨_,bind_pure_comp _ _⟩
  have hpanic := h.no_panic c.offset
  rw [hf]
  cases hadv : t.assertIsIncrementingAndUpdateNextOffset c.offset with
  | error e =>
    refine ⟨by simpa [Except.map,t,hadv] using hpanic,by simp [Except.map],fun hlt => ?_⟩
    obtain ⟨_,hok⟩ := h.advance_of_lt hlt
    cases hadv.symm.trans hok
  | ok t' =>
    obtain ⟨hroots,hchildren,-⟩ := advance_offsets hadv
    refine ⟨by simp [Except.map],fun _ => ?_,fun _ => ⟨_,rfl⟩⟩
    have hbelow := (forall_mem_map (f := Item.offset) (P := (· < c.offset))).mpr (h.advance hadv).below
    rwa [map_append,hroots,hchildren,← map_append,forall_mem_map] at hbelow

end Gix.Pack.DeltaTree
