import Gix.MergeBase

/-! # What is painted

The colors of a commit come from the tips that it is reachable from, and they are handed on to
parents until all that is left is behind a common ancestor. -/
namespace Gix.Revision
open List Flags Painting
open Gix.Commit (History generationNumberInfinity)
open Gix.PriorityQueue

variable {Id : Type} [LinearOrder Id] {h : History Id}

/-! Commits of both sides -/

/-- Reachable from `first` and from one of `others`. -/
def Common (h : History Id) (first : Id) (others : List Id) (c : Id) : Prop := h.Reachable first c ∧ h.ReachableFrom others c

/-- A common ancestor that is not behind another one. -/
def Best (h : History Id) (first : Id) (others : List Id) (c : Id) : Prop :=
  Common h first others c ∧ ∀ c', Common h first others c' → ¬h.Ancestor c' c

/-! Loops over commits -/

section Loops
variable {σ : Type} {update : Id → Commit Id Flags → σ → Commit Id Flags × σ}

theorem forEachCommit_rule {P : List Id → Graph Id Flags → σ → Prop} {ids : List Id} {g : Graph Id Flags} {s : σ}
    (hids : ∀ id∈ids,id∈h.commits) (hdata : ∀ id c s,∃ d,(update id c s).1={c with data := d}) (hl : Loaded h g) (h0 : P [] g s)
    (hstep : ∀ done id g s,id∈ids → Loaded h g → P done g s →
      P (done++[id]) (g.set id (update id (commitOf h g id) s).1) (update id (commitOf h g id) s).2) :
    ∃ g' s',forEachCommit (source h) update ids g s = .ok (g',s') ∧ Loaded h g' ∧ P ids g' s' := by
  suffices hgo : ∀ done g s,Loaded h g → P done g s → (∀ id∈ids,id∈h.commits) →
      ∃ g' s',forEachCommit (source h) update ids g s = .ok (g',s') ∧ Loaded h g' ∧ P (done++ids) g' s' from
    hgo [] g s hl h0 hids
  clear h0 hl hids
  induction ids with
  | nil =>
    intro done g s hl hP _
    exact ⟨g,s,rfl,hl,by simpa using hP⟩
  | cons id ids ih =>
    intro done g s hl hP hids
    have hid := hids id mem_cons_self
    obtain ⟨d,hd⟩ := hdata id (commitOf h g id) s
    have hl' := hd ▸ hl.set hid d
    obtain ⟨g',s',hrun,hload,hP'⟩ := ih (fun done id' g s hid' => hstep done id' g s (mem_cons_of_mem _ hid')) (done++[id]) _ _ hl'
      (hstep done id g s mem_cons_self hl hP) (fun id' hid' => hids id' (mem_cons_of_mem _ hid'))
    refine ⟨g',s',?_,hload,by simpa using hP'⟩
    rw [forEachCommit,getOrInsertFullCommit_eq hl hid]
    exact hrun

end Loops

/-! Flags -/

namespace Flags

@[simp] theorem union_commit1 (a b : Flags) : (a.union b).commit1=(a.commit1 || b.commit1) := rfl
@[simp] theorem union_commit2 (a b : Flags) : (a.union b).commit2=(a.commit2 || b.commit2) := rfl
@[simp] theorem union_stale (a b : Flags) : (a.union b).stale=(a.stale || b.stale) := rfl
@[simp] theorem union_result (a b : Flags) : (a.union b).result=(a.result || b.result) := rfl

@[simp] theorem default_commit1 : (default : Flags).commit1=false := rfl
@[simp] theorem default_commit2 : (default : Flags).commit2=false := rfl
@[simp] theorem default_stale : (default : Flags).stale=false := rfl
@[simp] theorem default_result : (default : Flags).result=false := rfl

/-- What a commit hands on: both colors make its parents stale. -/
def carried (a : Flags) : Flags := ⟨a.commit1,a.commit2,a.stale || a.commit1 && a.commit2,false⟩

/-- A commit that was found: it has both colors and is not stale. -/
def isFound (a : Flags) : Bool := a.commit1 && a.commit2 && !a.stale

theorem found_eq (a : Flags) : (a.inter ⟨true,true,true,false⟩ == ⟨true,true,false,false⟩)=a.isFound := by
  obtain ⟨a1,a2,a3,a4⟩ := a
  cases a1 <;> cases a2 <;> cases a3 <;> cases a4 <;> rfl

theorem carried_eq (a : Flags) : (if a.isFound then (a.inter ⟨true,true,true,false⟩).union STALE
    else a.inter ⟨true,true,true,false⟩)=a.carried := by
  obtain ⟨a1,a2,a3,_⟩ := a
  cases a1 <;> cases a2 <;> cases a3 <;> simp [inter,union,carried,isFound,STALE]

/-- How many of the flags that are handed on are missing. -/
def missing (a : Flags) : ℕ := (!a.commit1).toNat+(!a.commit2).toNat+(!a.stale).toNat

theorem union_eq_self {a b : Flags} (h : a.inter b=b) : a.union b=a := by
  obtain ⟨_,_,_,_⟩ := a
  obtain ⟨_,_,_,_⟩ := b
  simp only [inter,union,mk.injEq] at h ⊢
  simpa using h

@[simp] theorem union_default (a : Flags) : a.union default=a := by ext <;> simp

theorem union_right_comm (a b c : Flags) : (a.union b).union c=(a.union c).union b := by
  ext <;> simp [Bool.or_right_comm]

theorem missing_union_le (a b : Flags) : (a.union b).missing ≤ a.missing := by
  have hle : ∀ x y : Bool,(!(x || y)).toNat ≤ (!x).toNat := by decide
  exact Nat.add_le_add (Nat.add_le_add (hle _ _) (hle _ _)) (hle _ _)

theorem missing_union {a b : Flags} (hb : b.result=false) (h : a.inter b≠b) : (a.union b).missing+1 ≤ a.missing := by
  have hle : ∀ x y : Bool,(!(x || y)).toNat ≤ (!x).toNat := by decide
  have hlt : ∀ x y : Bool,¬(x && y)=y → (!(x || y)).toNat+1 ≤ (!x).toNat := by decide
  have h1 := hle a.commit1 b.commit1
  have h2 := hle a.commit2 b.commit2
  have h3 := hle a.stale b.stale
  have hsome : ¬(a.commit1 && b.commit1)=b.commit1 ∨ ¬(a.commit2 && b.commit2)=b.commit2 ∨ ¬(a.stale && b.stale)=b.stale := by
    by_contra hnone
    push Not at hnone
    obtain ⟨e1,e2,e3⟩ := hnone
    apply h
    rw [inter,e1,e2,e3,hb,Bool.and_false,← hb]
  simp only [missing,union_commit1,union_commit2,union_stale]
  rcases hsome with hs | hs | hs
  · have := hlt _ _ hs
    omega
  · have := hlt _ _ hs
    omega
  · have := hlt _ _ hs
    omega

end Flags

/-! Tips and parents -/

section Queue
variable {heap : Heap GenThenTime Id} {g : Graph Id Flags} {q : heap.Carrier} {ids : List Id}

def keyOf (h : History Id) (x : Id) : GenThenTime := toLex (generationNumberInfinity,h.time x)

/-- The commits `ids` have the flags, and those in `new` were put into the queue. -/
structure Queued (h : History Id) (heap : Heap GenThenTime Id) (flags : Flags) (g : Graph Id Flags) (q : heap.Carrier) (ids new : List Id)
    (g' : Graph Id Flags) (q' : heap.Carrier) : Prop where
  data : ∀ x, g'.data x = if x ∈ ids then (g.data x).union flags else g.data x
  present : ∀ x, (g'.map x).isSome = (decide (x ∈ ids) || (g.map x).isSome)
  items : (heap.items q').Perm (new.map (fun x => (keyOf h x,x))++heap.items q)

theorem Queued.initial (flags : Flags) (g : Graph Id Flags) (q : heap.Carrier) : Queued h heap flags g q [] [] g q :=
  ⟨by simp,by simp,.refl _⟩

theorem Queued.insert {flags : Flags} {new : List Id} {g' : Graph Id Flags} {q' : heap.Carrier} (hq : Queued h heap flags g q ids new g' q')
    (x : Id) : Queued h heap flags g q (ids++[x]) (x::new) (g'.set x {commitOf h g' x with data := (g'.data x).union flags})
      (heap.insert q' (keyOf h x) x) := by
  constructor
  · intro y
    rw [data_set]
    by_cases hy : y=x
    · subst hy
      rw [hq.data]
      by_cases hmem : y∈ids <;> simp [hmem,union]
    · rw [if_neg hy,hq.data]
      simp [hy]
  · intro y
    rw [map_set_isSome,hq.present]
    by_cases hy : y=x <;> simp [hy]
  · refine (heap.items_insert q' (keyOf h x) x).trans ?_
    simpa using hq.items

theorem queueTips_spec (hl : Loaded h g) (color : Flags) (hids : ∀ id∈ids,id∈h.commits) (q : heap.Carrier) :
    ∃ g' q',forEachCommit (source h) (queueTip heap color) ids g q = .ok (g',q') ∧ Loaded h g' ∧
      ∃ new,new.Perm ids ∧ Queued h heap color g q ids new g' q' := by
  have hdata : ∀ id c q,∃ d,(queueTip heap color id c q).1={c with data := d} := fun id c q => ⟨_,rfl⟩
  refine forEachCommit_rule (P := fun done g' q' => ∃ new,new.Perm done ∧ Queued h heap color g q done new g' q') hids
    hdata hl ⟨[],.refl _,.initial color g q⟩ ?_
  rintro done id g' q' - - ⟨new,hnew,hq⟩
  exact ⟨id::new,(hnew.cons id).trans (perm_append_singleton id done).symm,hq.insert id⟩

theorem paintParents_spec (hl : Loaded h g) (flags : Flags) (hids : ∀ id∈ids,id∈h.commits) (q : heap.Carrier) :
    ∃ g' q',forEachCommit (source h) (paintParent heap flags) ids g q = .ok (g',q') ∧ Loaded h g' ∧
      ∃ new,new.Nodup ∧ (∀ x,x∈new ↔ x∈ids ∧ (g.data x).inter flags≠flags) ∧ Queued h heap flags g q ids new g' q' := by
  have hdata : ∀ id c q,∃ d,(paintParent heap flags id c q).1={c with data := d} := by
    intro id c q
    unfold paintParent
    split
    · exact ⟨_,rfl⟩
    · exact ⟨c.data,rfl⟩
  refine forEachCommit_rule (P := fun done g' q' => ∃ new,new.Nodup ∧ (∀ x,x∈new ↔ x∈done ∧ (g.data x).inter flags≠flags) ∧
    Queued h heap flags g q done new g' q') hids hdata hl ⟨[],.nil,by simp,.initial flags g q⟩ ?_
  rintro done id g' q' - - ⟨new,hnodup,hnew,hq⟩
  unfold paintParent
  split
  · rename_i hchange
    have hfresh : id∉done := by
      intro hmem
      apply hchange
      change (g'.data id).inter flags=flags
      have habsorb : ∀ x y : Bool,((x || y) && y)=y := by decide
      rw [hq.data,if_pos hmem]
      simp [inter,habsorb]
    have hsame : g'.data id=g.data id := by rw [hq.data,if_neg hfresh]
    refine ⟨id::new,nodup_cons.mpr ⟨fun hmem => hfresh ((hnew id).mp hmem).1,hnodup⟩,?_,hq.insert id⟩
    intro x
    rw [mem_cons,hnew,mem_append,mem_singleton]
    constructor
    · rintro (rfl | ⟨hx,hne⟩)
      · exact ⟨.inr rfl,hsame ▸ hchange⟩
      · exact ⟨.inl hx,hne⟩
    · rintro ⟨hx | rfl,hne⟩
      · exact .inr ⟨hx,hne⟩
      · exact .inl rfl
  · rename_i hkeep
    have hkept : (g'.data id).inter flags=flags := not_not.mp hkeep
    refine ⟨new,hnodup,?_,?_,?_,hq.items⟩
    · intro x
      rw [hnew,mem_append,mem_singleton]
      constructor
      · exact fun ⟨hx,hne⟩ => ⟨.inl hx,hne⟩
      · rintro ⟨hx | rfl,hne⟩
        · exact ⟨hx,hne⟩
        · by_contra hnot
          have hfresh : x∉done := fun hmem => hnot ⟨hmem,hne⟩
          rw [hq.data,if_neg hfresh] at hkept
          exact hne hkept
    · intro x
      rw [data_set]
      by_cases hx : x=id
      · subst hx
        by_cases hmem : x∈done
        · simp [hq.data,hmem]
        · rw [hq.data,if_neg hmem] at hkept
          simp [commitOf,hq.data,union_eq_self hkept]
      · rw [hq.data]
        simp [hx]
    · intro x
      rw [map_set_isSome,hq.present]
      by_cases hx : x=id <;> simp [hx]

end Queue

/-! A round -/

section Rounds
variable {heap : Heap GenThenTime Id} {s s' : Painting heap} {g : Graph Id Flags}

/-- What a round relies on. -/
structure Based (h : History Id) (s : Painting heap) : Prop where
  loaded : Loaded h s.graph
  queued : ∀ x ∈ heap.values s.queue, (s.graph.map x).isSome = true
  key : ∀ e ∈ heap.items s.queue, e.1 = keyOf h e.2

/-- What a round with `x` does. -/
structure Round (h : History Id) (x : Id) (s s' : Painting heap) : Prop where
  loaded : Loaded h s'.graph
  mem : x ∈ h.commits
  present : ∀ y, (s'.graph.map y).isSome = (decide (y ∈ h.parents x) || (s.graph.map y).isSome)
  data : ∀ y, s'.graph.data y = ((s.graph.data y).union
      (if y = x ∧ (s.graph.data x).isFound then Flags.RESULT else default)).union
    (if y ∈ h.parents x then (s.graph.data x).carried else default)
  out : s'.out = if (s.graph.data x).isFound && !(s.graph.data x).result then s.out++[(x,keyOf h x)] else s.out
  items : ∃ (r : List (GenThenTime × Id)) (new : List Id), (heap.items s.queue).Perm ((keyOf h x,x) :: r) ∧ new.Nodup ∧
    (∀ y, y ∈ new ↔ y ∈ h.parents x ∧ (s.graph.data y).inter (s.graph.data x).carried ≠ (s.graph.data x).carried) ∧
    (heap.items s'.queue).Perm (new.map (fun y => (keyOf h y,y))++r)

/-- The graph with a commit marked as a result if it was found. -/
def markFound (h : History Id) (g : Graph Id Flags) (x : Id) : Graph Id Flags :=
  if (g.data x).isFound && !(g.data x).result then g.set x {commitOf h g x with data := (g.data x).union Flags.RESULT} else g

theorem markFound_spec {x : Id} (hl : Loaded h g) (hx : (g.map x).isSome=true) :
    Loaded h (markFound h g x) ∧ (∀ y,((markFound h g x).map y).isSome=(g.map y).isSome) ∧
    ∀ y,(markFound h g x).data y=(g.data y).union (if y=x ∧ (g.data x).isFound then Flags.RESULT else default) := by
  unfold markFound
  split
  · rename_i hnew
    obtain ⟨hfound,-⟩ := Bool.and_eq_true_iff.mp hnew
    refine ⟨hl.set (hl.mem_of_isSome hx) _,?_,?_⟩
    · intro y
      by_cases hy : y=x <;> simp [hy,hx]
    · intro y
      by_cases hy : y=x <;> simp [hy,hfound]
  · rename_i hold
    refine ⟨hl,fun _ => rfl,?_⟩
    intro y
    split
    · rename_i hy
      obtain ⟨rfl,hfound⟩ := hy
      have hresult : (g.data y).result=true := by simpa [hfound] using hold
      ext <;> simp [Flags.RESULT,hresult]
    · exact (union_default _).symm

/-- The loop ends when all in the queue is stale, and otherwise there is a round. -/
theorem paintStep_cases (hs : Based h s) :
    (paintStep heap (source h) s = .ok (.done s) ∧ ∀ x∈heap.values s.queue,(s.graph.data x).stale=true) ∨
    ∃ s' x,paintStep heap (source h) s = .ok (.yield s') ∧ Round h x s s' := by
  by_cases hany : (heap.values s.queue).any (notStale s.graph)=true
  · right
    cases hpop : heap.pop s.queue with
    | none =>
      rw [heap.values_pop_none hpop] at hany
      simp at hany
    | some r =>
      obtain ⟨⟨info,x⟩,queue⟩ := r
      have hx := (heap.values_pop hpop).mem_iff.mpr mem_cons_self
      have hinfo : info=keyOf h x := hs.key (info,x) ((heap.pop_some _ _ _ hpop).mem_iff.mpr mem_cons_self)
      have hperm := hinfo ▸ heap.pop_some _ _ _ hpop
      have hget := hs.loaded.get (hs.queued x hx)
      have hmem := hs.loaded.mem_of_isSome (hs.queued x hx)
      obtain ⟨hload,hpresent,hdata⟩ := markFound_spec hs.loaded (hs.queued x hx)
      obtain ⟨g',q',hrun,hload',new,hnodup,hnew,hq⟩ := paintParents_spec hload (s.graph.data x).carried (h.closed x hmem) queue
      refine ⟨⟨g',q',if (s.graph.data x).isFound && !(s.graph.data x).result then s.out++[(x,keyOf h x)] else s.out⟩,x,?_,?_⟩
      · simp only [paintStep,if_pos hany,hpop,hget,hinfo,commitOf,found_eq,carried_eq]
        simp only [markFound,commitOf] at hrun
        rw [hrun]
      · refine ⟨hload',hmem,?_,?_,rfl,heap.items queue,new,hperm,hnodup,?_,hq.items⟩
        · intro y
          rw [hq.present,hpresent]
        · intro y
          rw [hq.data,hdata]
          split
          · rfl
          · exact (union_default _).symm
        · intro y
          have hinter : ((markFound h s.graph x).data y).inter (s.graph.data x).carried =
              (s.graph.data y).inter (s.graph.data x).carried := by
            rw [hdata]
            split <;> simp [inter,carried,Flags.RESULT]
          rw [hnew,hinter]
  · left
    refine ⟨by rw [paintStep,if_neg hany],?_⟩
    intro x hx
    by_contra hstale
    apply hany
    rw [any_eq_true]
    refine ⟨x,hx,?_⟩
    rw [notStale,hs.loaded.get (hs.queued x hx)]
    simpa using hstale

namespace Round
variable {x y : Id} (hr : Round h x s s')
include hr

theorem commit1 : (s'.graph.data y).commit1=true ↔ (s.graph.data y).commit1=true ∨ y∈h.parents x ∧ (s.graph.data x).commit1=true := by
  rw [hr.data]
  split_ifs with hf hp hp <;> simp [hp,carried,Flags.RESULT]

theorem commit2 : (s'.graph.data y).commit2=true ↔ (s.graph.data y).commit2=true ∨ y∈h.parents x ∧ (s.graph.data x).commit2=true := by
  rw [hr.data]
  split_ifs with hf hp hp <;> simp [hp,carried,Flags.RESULT]

theorem stale : (s'.graph.data y).stale=true ↔ (s.graph.data y).stale=true ∨
    y∈h.parents x ∧ ((s.graph.data x).stale=true ∨ (s.graph.data x).commit1=true ∧ (s.graph.data x).commit2=true) := by
  rw [hr.data]
  split_ifs with hf hp hp <;> simp [hp,carried,Flags.RESULT]

theorem result : (s'.graph.data y).result=true ↔ (s.graph.data y).result=true ∨ y=x ∧ (s.graph.data x).isFound=true := by
  rw [hr.data]
  split_ifs with hf hp hp <;> simp [hf,carried,Flags.RESULT]

theorem mem_values : ∃ (r new : List Id),(heap.values s.queue).Perm (x::r) ∧ new.Nodup ∧
    (∀ y,y∈new ↔ y∈h.parents x ∧ (s.graph.data y).inter (s.graph.data x).carried≠(s.graph.data x).carried) ∧
    (heap.values s'.queue).Perm (new++r) := by
  obtain ⟨r,new,hold,hnodup,hnew,hitems⟩ := hr.items
  refine ⟨r.map Prod.snd,new,hold.map Prod.snd,hnodup,hnew,?_⟩
  have hmap := hitems.map Prod.snd
  rw [map_append,map_map] at hmap
  rwa [show new=new.map (Prod.snd ∘ fun y => (keyOf h y,y)) from (map_id new).symm]

/-- Only parents of the commit are new in the queue, -/
theorem queued (hy : y∈heap.values s'.queue) : y∈heap.values s.queue ∨ y∈h.parents x := by
  obtain ⟨_,_,hold,-,hnew,hq⟩ := hr.mem_values
  rcases mem_append.mp (hq.mem_iff.mp hy) with hy | hy
  · exact .inr ((hnew y).mp hy).1
  · exact .inl (hold.mem_iff.mpr (mem_cons_of_mem _ hy))

/-- only the commit is no longer there, -/
theorem left (hy : y∉heap.values s'.queue) : y=x ∨ y∉heap.values s.queue := by
  obtain ⟨_,_,hold,-,-,hq⟩ := hr.mem_values
  by_contra hboth
  obtain ⟨hne,hmem⟩ := not_or.mp hboth
  rcases mem_cons.mp (hold.mem_iff.mp (not_not.mp hmem)) with rfl | hmem
  · exact hne rfl
  · exact hy (hq.mem_iff.mpr (mem_append_right _ hmem))

/-- and what is not there has not changed its colors. -/
theorem same (hy : y∉heap.values s'.queue) : (s'.graph.data y).commit1=(s.graph.data y).commit1 ∧
    (s'.graph.data y).commit2=(s.graph.data y).commit2 ∧ (s'.graph.data y).stale=(s.graph.data y).stale := by
  obtain ⟨_,_,-,-,hnew,hq⟩ := hr.mem_values
  have hold : y∈h.parents x → (s.graph.data y).union (s.graph.data x).carried=s.graph.data y := by
    intro hp
    apply union_eq_self
    by_contra hne
    exact hy (hq.mem_iff.mpr (mem_append_left _ ((hnew y).mpr ⟨hp,hne⟩)))
  refine ⟨?_,?_,?_⟩
  · rw [Bool.eq_iff_iff,hr.commit1,or_iff_left_iff_imp]
    rintro ⟨hp,hx⟩
    rw [← hold hp]
    simp [carried,hx]
  · rw [Bool.eq_iff_iff,hr.commit2,or_iff_left_iff_imp]
    rintro ⟨hp,hx⟩
    rw [← hold hp]
    simp [carried,hx]
  · rw [Bool.eq_iff_iff,hr.stale,or_iff_left_iff_imp]
    rintro ⟨hp,hx⟩
    rw [← hold hp]
    simp [carried,hx]

end Round

/-! What holds between the rounds -/

def Painting.found (s : Painting heap) : List Id := s.out.map Prod.fst

structure Painted (h : History Id) (first : Id) (others : List Id) (s : Painting heap) : Prop extends Based h s where
  tip : (s.graph.data first).commit1 = true
  tips : ∀ o ∈ others, (s.graph.data o).commit2 = true
  reach1 : ∀ x, (s.graph.data x).commit1 = true → h.Reachable first x
  reach2 : ∀ x, (s.graph.data x).commit2 = true → h.ReachableFrom others x
  behind : ∀ x, (s.graph.data x).stale = true → ∃ c, Common h first others c ∧ h.Ancestor c x
  result : ∀ x, (s.graph.data x).result = true ↔ x ∈ s.found
  both : ∀ x ∈ s.found, (s.graph.data x).commit1 = true ∧ (s.graph.data x).commit2 = true
  nodup : s.found.Nodup
  outKey : ∀ e ∈ s.out, e.2 = keyOf h e.1
  passed : ∀ x ∉ heap.values s.queue, ∀ p ∈ h.parents x,
    ((s.graph.data x).commit1 = true → (s.graph.data p).commit1 = true) ∧
    ((s.graph.data x).commit2 = true → (s.graph.data p).commit2 = true)
  complete : ∀ x ∉ heap.values s.queue, (s.graph.data x).commit1 = true → (s.graph.data x).commit2 = true →
    (s.graph.data x).stale = true ∨ x ∈ s.found

variable {first x : Id} {others : List Id}

theorem Based.round (hs : Based h s) (hr : Round h x s s') : Based h s' := by
  refine ⟨hr.loaded,?_,?_⟩
  · intro y hy
    rw [hr.present]
    rcases hr.queued hy with hy | hy
    · simp [hs.queued y hy]
    · simp [hy]
  · intro e he
    obtain ⟨_,_,hold,-,-,hitems⟩ := hr.items
    rcases mem_append.mp (hitems.mem_iff.mp he) with he | he
    · obtain ⟨y,-,rfl⟩ := mem_map.mp he
      rfl
    · exact hs.key e (hold.mem_iff.mpr (mem_cons_of_mem _ he))

theorem Flags.isFound_iff {a : Flags} : a.isFound=true ↔ a.commit1=true ∧ a.commit2=true ∧ a.stale=false := by
  simp [isFound,and_assoc]

variable (hs : Painted h first others s)
include hs

theorem Painted.mem_found (hr : Round h x s s') {y : Id} :
    y∈s'.found ↔ y∈s.found ∨ y=x ∧ (s.graph.data x).isFound=true := by
  have hout := hr.out
  unfold found at *
  split at hout
  · rename_i hnew
    obtain ⟨hfound,-⟩ := Bool.and_eq_true_iff.mp hnew
    rw [hout]
    simp [hfound]
  · rename_i hold
    rw [hout]
    constructor
    · exact .inl
    · rintro (hy | ⟨rfl,hfound⟩)
      · exact hy
      · exact (hs.result y).mp (by simpa [hfound] using hold)

theorem Painted.round (hr : Round h x s s') : Painted h first others s' := by
  have hcommon : (s.graph.data x).commit1=true → (s.graph.data x).commit2=true → Common h first others x :=
    fun h1 h2 => ⟨hs.reach1 x h1,hs.reach2 x h2⟩
  refine {hs.toBased.round hr with
    tip := hr.commit1.mpr (.inl hs.tip)
    tips := fun o ho => hr.commit2.mpr (.inl (hs.tips o ho))
    reach1 := ?_,reach2 := ?_,behind := ?_,result := ?_,both := ?_,nodup := ?_,outKey := ?_,passed := ?_,complete := ?_}
  · intro y hy
    rcases hr.commit1.mp hy with hy | ⟨hp,hx⟩
    · exact hs.reach1 y hy
    · exact (hs.reach1 x hx).tail hp
  · intro y hy
    rcases hr.commit2.mp hy with hy | ⟨hp,hx⟩
    · exact hs.reach2 y hy
    · exact (hs.reach2 x hx).parent hp
  · intro y hy
    rcases hr.stale.mp hy with hy | ⟨hp,hx | ⟨h1,h2⟩⟩
    · exact hs.behind y hy
    · obtain ⟨c,hc,hanc⟩ := hs.behind x hx
      exact ⟨c,hc,hanc.tail hp⟩
    · exact ⟨x,hcommon h1 h2,.single hp⟩
  · intro y
    rw [hr.result,hs.result,hs.mem_found hr]
  · intro y hy
    rcases (hs.mem_found hr).mp hy with hy | ⟨rfl,hfound⟩
    · obtain ⟨h1,h2⟩ := hs.both y hy
      exact ⟨hr.commit1.mpr (.inl h1),hr.commit2.mpr (.inl h2)⟩
    · obtain ⟨h1,h2,-⟩ := isFound_iff.mp hfound
      exact ⟨hr.commit1.mpr (.inl h1),hr.commit2.mpr (.inl h2)⟩
  · have hout := hr.out
    unfold found
    split at hout
    · rename_i hnew
      obtain ⟨-,hres⟩ := Bool.and_eq_true_iff.mp hnew
      have hx : x∉s.found := by
        intro hmem
        rw [(hs.result x).mpr hmem] at hres
        simp at hres
      rw [hout,map_append,nodup_append]
      refine ⟨hs.nodup,by simp,?_⟩
      rintro a ha b hb rfl
      obtain rfl : a=x := by simpa using hb
      exact hx ha
    · rw [hout]
      exact hs.nodup
  · intro e he
    have hout := hr.out
    split at hout
    · rw [hout] at he
      rcases mem_append.mp he with he | he
      · exact hs.outKey e he
      · obtain rfl := mem_singleton.mp he
        rfl
    · rw [hout] at he
      exact hs.outKey e he
  · intro y hy p hp
    obtain ⟨e1,e2,-⟩ := hr.same hy
    rw [e1,e2,hr.commit1,hr.commit2]
    rcases hr.left hy with rfl | hy
    · exact ⟨fun h1 => .inr ⟨hp,h1⟩,fun h2 => .inr ⟨hp,h2⟩⟩
    · obtain ⟨p1,p2⟩ := hs.passed y hy p hp
      exact ⟨fun h1 => .inl (p1 h1),fun h2 => .inl (p2 h2)⟩
  · intro y hy
    obtain ⟨e1,e2,e3⟩ := hr.same hy
    rw [e1,e2,e3,hs.mem_found hr]
    intro h1 h2
    rcases hr.left hy with rfl | hy
    · cases h3 : (s.graph.data y).stale with
      | true => exact .inl rfl
      | false => exact .inr (.inr ⟨rfl,isFound_iff.mpr ⟨h1,h2,h3⟩⟩)
    · rcases hs.complete y hy h1 h2 with h3 | hmem
      · exact .inl h3
      · exact .inr (.inl hmem)

/-! Until the loop ends -/

/-- Rounds that are possible yet. -/
def Painting.potential (h : History Id) (s : Painting heap) : ℕ :=
  (heap.values s.queue).length+2*∑ x ∈ h.commits.toFinset, (s.graph.data x).missing

omit hs in
theorem Round.potential_lt (hr : Round h x s s') : s'.potential h < s.potential h := by
  obtain ⟨_,new,hold,hnodup,hnew,hq⟩ := hr.mem_values
  have hpoint : ∀ y∈h.commits.toFinset,(s'.graph.data y).missing+(if y∈new then 1 else 0) ≤ (s.graph.data y).missing := by
    intro y _
    have hresult : ∀ a : Flags,(a.union (if y=x ∧ (s.graph.data x).isFound then Flags.RESULT else default)).missing=a.missing := by
      split <;> simp [missing,Flags.RESULT]
    split
    · rename_i hy
      obtain ⟨hp,hne⟩ := (hnew y).mp hy
      rw [hr.data,if_pos hp,union_right_comm,hresult]
      exact missing_union rfl hne
    · rw [hr.data,union_right_comm,hresult]
      exact missing_union_le _ _
  have hcount : ∑ y∈h.commits.toFinset,(if y∈new then 1 else 0)=new.length := by
    rw [← Finset.card_filter,← toFinset_card_of_nodup hnodup]
    congr 1
    ext y
    simp only [Finset.mem_filter,mem_toFinset,and_iff_right_iff_imp]
    exact fun hy => h.closed x hr.mem y ((hnew y).mp hy).1
  have hsum := Finset.sum_le_sum hpoint
  rw [Finset.sum_add_distrib] at hsum
  have hlen := hold.length_eq
  have hlen' := hq.length_eq
  rw [length_cons] at hlen
  rw [length_append] at hlen'
  unfold potential
  omega

/-- The end of the loop, where nothing in the queue matters any more. -/
structure Ended (h : History Id) (first : Id) (others : List Id) (s : Painting heap) : Prop extends Painted h first others s where
  stale : ∀ x ∈ heap.values s.queue, (s.graph.data x).stale = true

omit hs in
/-- The rounds of the loop. -/
theorem paint_rounds :
    StepLoop.Rounds (paintStep heap (source h)) (Painted h first others) (Ended h first others) (potential h) := by
  intro s hs
  rcases paintStep_cases hs.toBased with ⟨hstep,hstale⟩ | ⟨s',x,hstep,hr⟩
  · exact .inl ⟨s,hstep,hs,hstale⟩
  · exact .inr ⟨s',hstep,hs.round hr,hr.potential_lt⟩

/-- The start: the tips are in the queue, and nothing else has a color. -/
structure Started (first : Id) (others : List Id) (s : Painting heap) : Prop where
  queue : (heap.values s.queue).Perm (first :: others)
  data : ∀ x, s.graph.data x = ⟨decide (x = first),decide (x ∈ others),false,false⟩
  out : s.out = []

omit hs in
theorem paintStart_spec (hl : Loaded h g) (hclear : ∀ x,g.data x=default) (hfirst : first∈h.commits)
    (hothers : ∀ o∈others,o∈h.commits) :
    ∃ s,paintStart heap (source h) first others g = .ok s ∧ Based h s ∧ Started first others s := by
  have hids : ∀ id∈[first],id∈h.commits := by simpa using hfirst
  obtain ⟨_,q1,hrun1,hl1,new1,hnew1,hq1⟩ := queueTips_spec hl Flags.COMMIT1 hids heap.empty
  obtain ⟨g2,q2,hrun2,hl2,new2,hnew2,hq2⟩ := queueTips_spec hl1 Flags.COMMIT2 hothers q1
  have hitems : (heap.items q2).Perm (new2.map (fun x => (keyOf h x,x))++new1.map (fun x => (keyOf h x,x))) := by
    refine hq2.items.trans ((perm_append_left_iff _).mpr ?_)
    simpa using hq1.items
  have hqueue : (heap.values q2).Perm (first::others) := by
    have hmap := hitems.map Prod.snd
    simp only [map_append,map_map,Function.comp_def,map_id'] at hmap
    exact hmap.trans ((hnew2.append hnew1).trans (perm_append_singleton first others))
  refine ⟨⟨g2,q2,[]⟩,by simp [paintStart,hrun1,hrun2],⟨hl2,?_,?_⟩,hqueue,?_,rfl⟩
  · intro x hx
    rw [hq2.present,hq1.present]
    rcases mem_cons.mp (hqueue.mem_iff.mp hx) with rfl | hx
    · simp
    · simp [hx]
  · intro e he
    rcases mem_append.mp (hitems.mem_iff.mp he) with he | he
    · obtain ⟨x,-,rfl⟩ := mem_map.mp he
      rfl
    · obtain ⟨x,-,rfl⟩ := mem_map.mp he
      rfl
  · intro x
    rw [hq2.data,hq1.data]
    ext <;> split_ifs with hother heq heq <;> simp_all [Flags.COMMIT1,Flags.COMMIT2]

omit hs in
theorem Started.painted (hs : Based h s) (hst : Started first others s) : Painted h first others s := by
  refine {hs with
    tip := ?_,tips := ?_,reach1 := ?_,reach2 := ?_,behind := ?_,result := ?_,both := ?_,nodup := ?_,outKey := ?_,passed := ?_
    complete := ?_}
  · simp [hst.data]
  · intro o ho
    simp [hst.data,ho]
  · intro x hx
    obtain rfl : x=first := by simpa [hst.data] using hx
    exact .refl
  · intro x hx
    exact .tip (by simpa [hst.data] using hx)
  · intro x hx
    simp [hst.data] at hx
  · simp [hst.data,found,hst.out]
  · simp [found,hst.out]
  · simp [found,hst.out]
  · simp [hst.out]
  · intro x hx p _
    obtain ⟨hfirst,hother⟩ := not_or.mp (mt mem_cons.mpr (mt hst.queue.mem_iff.mpr hx))
    simp [hst.data,hfirst,hother]
  · intro x hx
    obtain ⟨hfirst,hother⟩ := not_or.mp (mt mem_cons.mpr (mt hst.queue.mem_iff.mpr hx))
    simp [hst.data,hfirst]

/-! What is found -/

section
omit [LinearOrder Id]

/-- No commit on the way to a best one is stale. -/
theorem Painted.fresh {b : Id} (hb : Best h first others b) (hx : h.Reachable x b) :
    (s.graph.data x).stale=false := by
  by_contra hstale
  obtain ⟨c,hc,hanc⟩ := hs.behind x (by simpa using hstale)
  exact hb.2 c hc (Relation.TransGen.trans_left hanc hx)

/-- Colors go down to a commit if nothing on the way is in the queue. -/
theorem Painted.down {a b : Id} (hab : h.Reachable a b)
    (hleft : ∀ e,h.Reachable a e → h.Ancestor e b → e∉heap.values s.queue) :
    ((s.graph.data a).commit1=true → (s.graph.data b).commit1=true) ∧
    ((s.graph.data a).commit2=true → (s.graph.data b).commit2=true) := by
  induction hab with
  | refl => exact ⟨id,id⟩
  | tail hae hp ih =>
    obtain ⟨i1,i2⟩ := ih fun e he hanc => hleft e he (hanc.tail hp)
    obtain ⟨p1,p2⟩ := hs.passed _ (hleft _ hae (.single hp)) _ hp
    exact ⟨p1 ∘ i1,p2 ∘ i2⟩

theorem Painted.found_common (hx : x∈s.found) : Common h first others x := by
  obtain ⟨h1,h2⟩ := hs.both x hx
  exact ⟨hs.reach1 x h1,hs.reach2 x h2⟩

end

omit hs [LinearOrder Id] in
/-- Both colors reach a best common ancestor, so it is found. -/
theorem Ended.best_found (he : Ended h first others s) {b : Id} (hb : Best h first others b) : b∈s.found := by
  have hpass : ∀ x,h.Reachable x b → x∉heap.values s.queue := by
    intro x hx hmem
    exact absurd (he.fresh hb hx) (by simp [he.stale x hmem])
  have hleft : ∀ {a} e,h.Reachable a e → h.Ancestor e b → e∉heap.values s.queue := fun e _ hanc => hpass e hanc.to_reflTransGen
  obtain ⟨hfirst,o,ho,hother⟩ := hb.1
  have h1 := (he.down hfirst hleft).1 he.tip
  have h2 := (he.down hother hleft).2 (he.tips o ho)
  rcases he.complete b (hpass b .refl) h1 h2 with hstale | hfound
  · rw [he.fresh hb .refl] at hstale
    exact absurd hstale Bool.false_ne_true
  · exact hfound

end Rounds

end Gix.Revision
