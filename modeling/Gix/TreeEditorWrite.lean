import Gix.TreeEditorSettle

/-! # The trees that wait to be written

Trees are taken out of the map as their parents are looked at. At any time a kept tree is
still in the map, waits among the children or parents, or is done; a parent has its entries
settled as far as its subtrees are done. -/
namespace Gix.TreeEditor
open Gix.Tree List Function Item

variable {Id : Type} {T trees : Trees Id} {done : Done Id} {es : List (Entry Id)} {p : BString} {e : Entry Id}

/-- The trees in the map that the entries of a tree lead to. -/
def childOf (trees : Trees Id) (parentIdx : ℕ) (p : BString) (e : Entry Id) : Option (Item Id) :=
  if e.mode.isTree then
    (trees (pushElement p e.filename)).map (fun sub => ⟨some parentIdx,pushElement p e.filename,sub⟩)
  else none

theorem childOf_eq_some {i : ℕ} {item : Item Id} : childOf trees i p e=some item ↔
    e.mode.isTree=true ∧ ∃ sub,trees (pushElement p e.filename)=some sub ∧
      item=⟨some i,pushElement p e.filename,sub⟩ := by
  by_cases ht : e.mode.isTree=true
  · simp only [childOf,ht,if_true,Option.map_eq_some_iff,true_and]
    exact exists_congr fun sub => and_congr_right fun _ => eq_comm
  · simp [childOf,ht]

theorem takeChildren_eq (hes : (es.map Entry.filename).Nodup) (i : ℕ) :
    (takeChildren i p es trees).1=es.filterMap (childOf trees i p) ∧
    ∀ k,(takeChildren i p es trees).2 k =
      if ∃ e∈es,e.mode.isTree=true ∧ k=pushElement p e.filename then none else trees k := by
  induction es generalizing trees with
  | nil => simp [takeChildren]
  | cons e es ih =>
    obtain ⟨hnot,hnodup⟩ := nodup_cons.mp hes
    by_cases ht : e.mode.isTree=true
    · cases hk : trees (pushElement p e.filename) with
      | none =>
        obtain ⟨hfound,htrees⟩ := @ih trees hnodup
        have hchild : childOf trees i p e=none := by simp [childOf,hk]
        simp only [takeChildren,ht,if_true,hk,filterMap_cons,hchild]
        refine ⟨hfound,fun k => ?_⟩
        rw [htrees]
        by_cases hke : k=pushElement p e.filename
        · simp [hke,hk]
        · simp [hke]
      | some sub =>
        obtain ⟨hfound,htrees⟩ := @ih (update trees (pushElement p e.filename) none) hnodup
        have hchild : childOf trees i p e=some ⟨some i,pushElement p e.filename,sub⟩ := by simp [childOf,ht,hk]
        simp only [takeChildren,ht,if_true,hk,filterMap_cons,hchild]
        refine ⟨?_,fun k => ?_⟩
        · rw [hfound]
          congr 1
          refine filterMap_congr fun x hx => ?_
          have hne : pushElement p x.filename≠pushElement p e.filename := by
            intro h
            exact hnot (pushElement_inj h ▸ mem_map_of_mem hx)
          simp [childOf,update_of_ne hne]
        · rw [htrees]
          by_cases hke : k=pushElement p e.filename
          · simp [hke,ht]
          · simp [hke]
    · obtain ⟨hfound,htrees⟩ := @ih trees hnodup
      have hchild : childOf trees i p e=none := by simp [childOf,ht]
      simp only [takeChildren,ht,Bool.false_eq_true,if_false,filterMap_cons,hchild]
      refine ⟨hfound,fun k => ?_⟩
      rw [htrees]
      simp [ht]

/-- Every tree is in the map, waits among the items, or is done. -/
structure Progress (T : Trees Id) (done : Done Id) (trees : Trees Id) (items : List (Item Id)) : Prop where
  nodup : (items.map Item.relaPath).Nodup
  inMap : ∀ k, k ∉ items.map Item.relaPath → done k = none → trees k = T k
  taken : ∀ k, k ∈ items.map Item.relaPath ∨ done k ≠ none → trees k = none ∧ T k ≠ none
  waits : ∀ k ∈ items.map Item.relaPath, done k = none

/-- A tree that nothing below of was taken. -/
structure Waiting (T trees : Trees Id) (item : Item Id) : Prop where
  tree : T item.relaPath = some item.tree
  below : ∀ P r, ValidPath (P++r) → item.relaPath = join P → r ≠ [] → trees (join (P++r)) = T (join (P++r))

/-- A tree whose subtrees are taken; those that are done have left their mark. -/
structure Scanned (T : Trees Id) (done : Done Id) (trees : Trees Id) (item : Item Id) (es : List (Entry Id)) :
    Prop where
  start : T item.relaPath = some es
  tree : item.tree = es.filterMap (settle done item.relaPath)
  taken : ∀ e ∈ es, e.mode.isTree = true → trees (pushElement item.relaPath e.filename) = none

/-- An item is the root, or its parent is there and has an entry for it. -/
def Linked (T : Trees Id) (parents : List (Item Id)) (item : Item Id) : Prop :=
  match item.parentIdx with
  | none => item.relaPath = []
  | some j => ∃ parent es e, parents[j]? = some parent ∧ T parent.relaPath = some es ∧ e ∈ es ∧
      e.mode.isTree = true ∧ item.relaPath = pushElement parent.relaPath e.filename

section
variable {O : Type}

/-- What holds of the lists of children and parents. -/
structure Stacked (T : Trees Id) (done : Done Id) (w : Writing Id O) : Prop where
  waiting : ∀ c ∈ w.children, Waiting T w.trees c
  childLinked : ∀ c ∈ w.children, c.parentIdx ≠ none ∧ Linked T w.parents c
  scanned : ∀ q ∈ w.parents, ∃ es, Scanned T done w.trees q es
  parentLinked : ∀ i q, w.parents[i]? = some q → Linked T (w.parents.take i) q ∧ (q.parentIdx = none → i = 0)

structure WriteInvariant (T : Trees Id) (done : Done Id) (w : Writing Id O) : Prop where
  progress : Progress T done w.trees (w.children++w.parents)
  stacked : Stacked T done w
  nonempty : w.parents ≠ []

/-- The state after an item was popped. -/
structure Popped (T : Trees Id) (done : Done Id) (item : Item Id) (w : Writing Id O) : Prop where
  progress : Progress T done w.trees (item :: (w.children++w.parents))
  stacked : Stacked T done w
  linked : Linked T w.parents item
  root : item.parentIdx = none ↔ w.parents = []
  last : w.parents = [] → w.children = []

/-- All subtrees of a tree that are not in the map are done. -/
structure Ready (T : Trees Id) (done : Done Id) (trees : Trees Id) (item : Item Id) (es : List (Entry Id)) : Prop where
  start : T item.relaPath = some es
  tree : item.tree = es.filterMap (settle done item.relaPath)
  done : ∀ e ∈ es, e.mode.isTree = true → trees (pushElement item.relaPath e.filename) = none →
    T (pushElement item.relaPath e.filename) ≠ none → done (pushElement item.relaPath e.filename) ≠ none

/-! Popping an item -/

variable {item q : Item Id} {items parents : List (Item Id)} {j : ℕ}

variable (hT : Kept T)
include hT

theorem Progress.path (h : Progress T done trees items) (hitem : item∈items) :
    ∃ P,ValidPath P ∧ item.relaPath=join P :=
  hT.named _ (h.taken _ (.inl (mem_map_of_mem hitem))).2

section
variable (hprogress : Progress T done trees items) (hitem : item∈items) (h : Waiting T trees item)
include hprogress hitem h

/-- Nothing is done below a tree that waits. -/
theorem Waiting.settle_eq
 (he : e∈item.tree) :
    settle done item.relaPath e=some e ∧
      trees (pushElement item.relaPath e.filename)=T (pushElement item.relaPath e.filename) := by
  obtain ⟨P,hP,hpath⟩ := hprogress.path hT hitem
  have hname := (hT.sorted _ _ h.tree).names e he
  have hPn := validPath_concat.mpr ⟨hP,hname⟩
  have hsame : trees (pushElement item.relaPath e.filename)=T (pushElement item.relaPath e.filename) := by
    rw [hpath,← join_append]
    exact h.below P _ hPn hpath (by simp)
  refine ⟨?_,hsame⟩
  have hopen : done (pushElement item.relaPath e.filename)=none := by
    by_contra hdone
    obtain ⟨hnone,hkept⟩ := hprogress.taken _ (.inr hdone)
    exact hkept (hsame ▸ hnone)
  simp [settle,hopen]

theorem Waiting.ready
 : Ready T done trees item item.tree := by
  refine ⟨h.tree,?_,fun e he _ hnone hkept => ?_⟩
  · rw [filterMap_congr fun e he => (h.settle_eq hT hprogress hitem he).1,filterMap_some]
  · exact absurd ((h.settle_eq hT hprogress hitem he).2 ▸ hnone) hkept

end

variable {w : Writing Id O} {items' : List (Item Id)}

/-- The children of the last parent are not among the parents. -/
theorem Stacked.last_done (hes : T q.relaPath=some es) (hparents : w.parents=parents++[q])
    (hnodup : (w.parents.map relaPath).Nodup) (h : Stacked T done w) (he : e∈es) :
    pushElement q.relaPath e.filename∉w.parents.map relaPath := by
  intro hmem
  have hname := (hT.sorted _ _ hes).names e he
  obtain ⟨c,hc,hpath⟩ := mem_map.mp hmem
  obtain ⟨i,hi⟩ := mem_iff_getElem?.mp hc
  have hlinked := (h.parentLinked i c hi).1
  unfold Linked at hlinked
  split at hlinked
  · exact pushElement_ne_nil _ hname.1 (hpath ▸ hlinked)
  · obtain ⟨parent,es',e',hparent,hes',he',-,hpath'⟩ := hlinked
    have hname' := (hT.sorted _ _ hes').names e' he'
    -- the parent of `c` is `q`, but it stands before `c`
    have hsame : parent.relaPath=q.relaPath := by
      rw [← popElement_pushElement parent.relaPath hname'.2,← hpath',hpath,popElement_pushElement _ hname.2]
    rename_i j _
    obtain ⟨_,hj⟩ : j < i ∧ w.parents[j]? = some parent := by
      rw [getElem?_take] at hparent
      split at hparent
      · exact ⟨by assumption,hparent⟩
      · simp at hparent
    have hlast : w.parents[parents.length]? = some q := by simp [hparents]
    have hlen := (List.getElem?_eq_some_iff.mp hi).1
    have hjl : j=parents.length := by
      have hlt : j < (w.parents.map relaPath).length := by
        rw [length_map]
        omega
      refine (getElem?_inj hlt hnodup).mp ?_
      simp [hj,hlast,hsame]
    simp only [hparents,length_append,length_singleton] at hlen
    omega

theorem WriteInvariant.pop (h : WriteInvariant T done w) : ∃ item w',popItem w=some (item,w') ∧
    w'.trees=w.trees ∧ w'.out=w.out ∧ Popped T done item w' ∧
    (Waiting T w'.trees item ∧ w'.parents=w.parents ∨
      ∃ es,Ready T done w'.trees item es ∧ Scanned T done w'.trees item es ∧ w.parents=w'.parents++[item]) := by
  obtain ⟨hprogress,hstacked,hne⟩ := h
  obtain ⟨trees,parents,children,out⟩ := w
  cases children with
  | cons c children =>
    refine ⟨c,_,rfl,rfl,rfl,⟨hprogress,⟨fun x hx => hstacked.waiting x (by simp [hx]),
      fun x hx => hstacked.childLinked x (by simp [hx]),hstacked.scanned,hstacked.parentLinked⟩,
      (hstacked.childLinked c (by simp)).2,?_,?_⟩,.inl ⟨hstacked.waiting c (by simp),rfl⟩⟩
    · exact iff_of_false (hstacked.childLinked c (by simp)).1 hne
    · exact fun hnil => absurd hnil hne
  | nil =>
    rcases eq_nil_or_concat parents with rfl | ⟨parents,q,rfl⟩
    · exact absurd rfl hne
    · rw [concat_eq_append] at *
      obtain ⟨es,hscanned⟩ := hstacked.scanned q (by simp)
      have hlink := hstacked.parentLinked parents.length q (by simp)
      have htake : ∀ i,i < parents.length → (parents++[q]).take i=parents.take i := by
        intro i hi
        rw [take_append_of_le_length hi.le]
      refine ⟨q,⟨trees,parents,[],out⟩,by simp [popItem],rfl,rfl,⟨?_,⟨by simp,by simp,
        fun x hx => hstacked.scanned x (by simp [hx]),fun i x hi => ?_⟩,?_,?_,fun _ => rfl⟩,
        .inr ⟨es,⟨hscanned.start,hscanned.tree,fun e he ht _ hkept => ?_⟩,hscanned,rfl⟩⟩
      · have hperm : (q::parents).Perm (parents++[q]) := (perm_append_singleton _ _).symm
        have hmem : ∀ k,k∈(q::parents).map relaPath ↔ k∈(parents++[q]).map relaPath :=
          fun k => (hperm.map relaPath).mem_iff
        refine ⟨(hperm.map relaPath).nodup_iff.mpr hprogress.nodup,fun k hk => ?_,fun k hk => ?_,fun k hk => ?_⟩
        · exact hprogress.inMap k (mt (hmem k).mpr hk)
        · exact hprogress.taken k (hk.imp_left (hmem k).mp)
        · exact hprogress.waits k ((hmem k).mp hk)
      · have hi' := (List.getElem?_eq_some_iff.mp hi).1
        have := hstacked.parentLinked i x (by simp [getElem?_append_left hi',hi])
        rwa [htake i hi'] at this
      · simpa using hlink.1
      · constructor
        · intro hroot
          exact eq_nil_of_length_eq_zero (hlink.2 hroot)
        · rintro rfl
          have hroot := hlink.1
          unfold Linked at hroot
          split at hroot
          · assumption
          · simp at hroot
      · have hnot := hstacked.last_done hT hscanned.start rfl hprogress.nodup he
        intro hopen
        have hmap := hprogress.inMap _ hnot hopen
        exact hkept (hmap ▸ hscanned.taken e he ht)

omit hT

/-! Finishing an item -/

theorem Linked.set (h : Linked T parents item) (hpath : ∀ x,parents[j]? = some x → q.relaPath=x.relaPath) :
    Linked T (parents.set j q) item := by
  unfold Linked at h ⊢
  split
  · rename_i hidx
    simpa [hidx] using h
  · rename_i i hidx
    simp only [hidx] at h
    obtain ⟨parent,es,e,hparent,hes,he,ht,hitem⟩ := h
    by_cases hij : j=i
    · subst hij
      have hlen := (List.getElem?_eq_some_iff.mp hparent).1
      refine ⟨q,es,e,by simp [hlen],?_,he,ht,?_⟩
      · rwa [hpath parent hparent]
      · rwa [hpath parent hparent]
    · exact ⟨parent,es,e,by rwa [getElem?_set_ne hij],hes,he,ht,hitem⟩

theorem paths_set {parent : Item Id} (hparent : parents[j]? = some parent) (hpath : q.relaPath=parent.relaPath) :
    (parents.set j q).map relaPath=parents.map relaPath := by
  obtain ⟨hlen,rfl⟩ := List.getElem?_eq_some_iff.mp hparent
  rw [map_set,hpath,← getElem_map relaPath,set_getElem_self]
  simpa using hlen

theorem Progress.finish (h : Progress T done trees (item::items))
    (hpaths : items'.map relaPath=items.map relaPath) (r : Option Id) :
    Progress T (Function.update done item.relaPath (some r)) trees items' := by
  obtain ⟨hnot,hnodup⟩ := nodup_cons.mp h.nodup
  refine ⟨hpaths ▸ hnodup,fun k hk hopen => ?_,fun k hk => ?_,fun k hk => ?_⟩
  · rw [hpaths] at hk
    have hne : k≠item.relaPath := by
      rintro rfl
      simp at hopen
    rw [update_of_ne hne] at hopen
    exact h.inMap k (by simpa [hne] using hk) hopen
  · rw [hpaths] at hk
    by_cases hne : k=item.relaPath
    · exact h.taken k (.inl (by simp [hne]))
    · rw [update_of_ne hne] at hk
      exact h.taken k (hk.imp_left fun hk => by
        exact mem_cons_of_mem _ hk)
  · rw [hpaths] at hk
    have hne : k≠item.relaPath := by
      rintro rfl
      exact hnot hk
    rw [update_of_ne hne]
    exact h.waits k (by
      exact mem_cons_of_mem _ hk)

/-- A finished tree has an entry in its parent; once the entry is settled, all is as before. -/
theorem Popped.finish (hT : Kept T) (h : Popped T done item w) (hidx : item.parentIdx=some j) :
    ∃ parent pre e post,w.parents[j]? = some parent ∧
      parent.tree=pre++e::post ∧ SortedTree (pre++e::post) ∧ e.mode.isTree=true ∧
      item.relaPath=pushElement parent.relaPath e.filename ∧
      ∀ (r : Option Id) (o : O),WriteInvariant T (Function.update done item.relaPath (some r))
        {w with
          parents := w.parents.set j {parent with tree := pre++(r.map (fun id => {e with oid := id})).toList++post}
          out := o} := by
  have hlinked := h.linked
  simp only [Linked,hidx] at hlinked
  obtain ⟨parent,es,e,hparent,hes,he,ht,hpath⟩ := hlinked
  have hsorted := hT.sorted _ _ hes
  have hopen : done item.relaPath=none := h.progress.waits _ (by simp)
  obtain ⟨pre,post,hsplit,hdone⟩ := filterMap_settle_split hsorted.unique he ht (hpath ▸ hopen)
  obtain ⟨es',hscanned⟩ := h.stacked.scanned parent (mem_of_getElem? hparent)
  obtain rfl : es=es' := Option.some.inj (hes.symm.trans hscanned.start)
  refine ⟨parent,pre,e,post,hparent,hscanned.tree.trans hsplit,?_,ht,hpath,fun r o => ?_⟩
  · rw [← hsplit]
    exact sortedTree_settle _ hsorted _
  · have hset : ∀ x,w.parents[j]? = some x → parent.relaPath=x.relaPath := by
      intro x hx
      rw [Option.some.inj (hparent.symm.trans hx)]
    have hnodup : (w.parents.map relaPath).Nodup := by
      have := (nodup_cons.mp h.progress.nodup).2
      rw [map_append] at this
      exact (nodup_append.mp this).2.1
    refine ⟨h.progress.finish (by simp [paths_set hparent]) r,⟨h.stacked.waiting,fun c hc => ?_,fun q hq => ?_,
      fun i q hi => ?_⟩,?_⟩
    · obtain ⟨hidx,hlinked⟩ := h.stacked.childLinked c hc
      exact ⟨hidx,hlinked.set hset⟩
    · obtain ⟨i,hi⟩ := mem_iff_getElem?.mp hq
      by_cases hij : j=i
      · subst hij
        have hlen := (List.getElem?_eq_some_iff.mp hparent).1
        simp only [getElem?_set_self hlen,Option.some.injEq] at hi
        subst hi
        exact ⟨es,hes,by rw [hpath,hdone r],hscanned.taken⟩
      · rw [getElem?_set_ne hij] at hi
        obtain ⟨es',hq⟩ := h.stacked.scanned q (mem_of_getElem? hi)
        refine ⟨es',hq.start,?_,hq.taken⟩
        rw [hq.tree,filterMap_settle_of_ne]
        intro x hx heq
        -- another parent has no entry for the item
        have hsame : q.relaPath=parent.relaPath := by
          rw [← popElement_pushElement q.relaPath ((hT.sorted _ _ hq.start).names x hx).2,heq,hpath,
            popElement_pushElement _ (hsorted.names e he).2]
        have hlt : j < (w.parents.map relaPath).length := by
          simpa using (List.getElem?_eq_some_iff.mp hparent).1
        exact hij ((getElem?_inj hlt hnodup).mp (by simp [hparent,hi,hsame]))
    · have hset' : ∀ x,(w.parents.take i)[j]? = some x → parent.relaPath=x.relaPath := by
        intro x hx
        rw [getElem?_take] at hx
        split at hx
        · exact hset x hx
        · simp at hx
      rw [take_set]
      by_cases hij : j=i
      · subst hij
        have hlen := (List.getElem?_eq_some_iff.mp hparent).1
        simp only [getElem?_set_self hlen,Option.some.injEq] at hi
        subst hi
        obtain ⟨hlinked,hroot⟩ := h.stacked.parentLinked j parent hparent
        exact ⟨Linked.set hlinked hset',hroot⟩
      · rw [getElem?_set_ne hij] at hi
        obtain ⟨hlinked,hroot⟩ := h.stacked.parentLinked i q hi
        exact ⟨hlinked.set hset',hroot⟩
    · intro hnil
      have hlen := (List.getElem?_eq_some_iff.mp hparent).1
      have hnil' := congrArg length hnil
      rw [length_set,length_nil] at hnil'
      omega

/-! Pushing an item with its children -/

section Push
variable {item : Item Id} {items : List (Item Id)} {i : ℕ}
  {c : Item Id}

variable (hes : (es.map Entry.filename).Nodup)
include hes

theorem mem_takeChildren :
    c∈(takeChildren i p es trees).1 ↔ ∃ e∈es,e.mode.isTree=true ∧
      ∃ sub,trees (pushElement p e.filename)=some sub ∧ c=⟨some i,pushElement p e.filename,sub⟩ := by
  rw [(takeChildren_eq hes i).1,mem_filterMap]
  exact exists_congr fun e => and_congr_right fun _ => childOf_eq_some

theorem takeChildren_none {k : BString} (hk : trees k=none) :
    (takeChildren i p es trees).2 k=none := by
  rw [(takeChildren_eq hes i).2]
  split
  · rfl
  · exact hk

theorem takeChildren_nodup :
    ((takeChildren i p es trees).1.map relaPath).Nodup := by
  rw [(takeChildren_eq hes i).1,List.Nodup,pairwise_map,pairwise_filterMap]
  refine (pairwise_map.mp hes).imp fun {a b} hab x hx y hy hxy => ?_
  obtain ⟨-,sub,-,rfl⟩ := childOf_eq_some.mp hx
  obtain ⟨-,sub,-,rfl⟩ := childOf_eq_some.mp hy
  exact hab (pushElement_inj hxy)

/-- Taking trees out of the map that then wait. -/
theorem Progress.take (h : Progress T done trees items)
    (hperm : items'.Perm ((takeChildren i p es trees).1++items)) :
    Progress T done (takeChildren i p es trees).2 items' := by
  have hmem : ∀ k,k∈items'.map relaPath ↔
      k∈(takeChildren i p es trees).1.map relaPath ∨ k∈items.map relaPath := by
    intro k
    rw [(hperm.map relaPath).mem_iff,map_append,mem_append]
  have hfound : ∀ k∈(takeChildren i p es trees).1.map relaPath,
      trees k≠none ∧ (takeChildren i p es trees).2 k=none := by
    intro k hk
    obtain ⟨_,hc,rfl⟩ := mem_map.mp hk
    obtain ⟨e,he,ht,sub,hsub,rfl⟩ := (mem_takeChildren hes).mp hc
    rw [(takeChildren_eq hes i).2]
    exact ⟨by simp [hsub],if_pos ⟨e,he,ht,rfl⟩⟩
  have hfresh : ∀ k,trees k≠none → k∉items.map relaPath ∧ done k=none := by
    intro k hk
    refine ⟨fun hin => hk (h.taken k (.inl hin)).1,?_⟩
    by_contra hdone
    exact hk (h.taken k (.inr hdone)).1
  refine ⟨?_,fun k hk hopen => ?_,fun k hk => ?_,fun k hk => ?_⟩
  · rw [(hperm.map relaPath).nodup_iff,map_append]
    refine nodup_append.mpr ⟨takeChildren_nodup hes,h.nodup,fun a ha b hb hab => ?_⟩
    exact (hfresh a (hfound a ha).1).1 (hab ▸ hb)
  · rw [hmem,not_or] at hk
    rw [(takeChildren_eq hes i).2,← h.inMap k hk.2 hopen]
    split
    · rename_i hchild
      obtain ⟨e,he,ht,rfl⟩ := hchild
      cases hsub : trees (pushElement p e.filename) with
      | none => rfl
      | some sub => exact absurd (mem_map_of_mem ((mem_takeChildren hes).mpr ⟨e,he,ht,sub,hsub,rfl⟩)) hk.1
    · rfl
  · rw [hmem,or_assoc] at hk
    rcases hk with hk | hk
    · obtain ⟨hin,hnone⟩ := hfound k hk
      obtain ⟨hnot,hopen⟩ := hfresh k hin
      exact ⟨hnone,h.inMap k hnot hopen ▸ hin⟩
    · obtain ⟨hnone,hkept⟩ := h.taken k hk
      exact ⟨takeChildren_none hes hnone,hkept⟩
  · rcases (hmem k).mp hk with hk | hk
    · exact (hfresh k (hfound k hk).1).2
    · exact h.waits k hk

omit hes

/-- What is below another tree that waits is not taken. -/
theorem Waiting.take (hT : Kept T) (hprogress : Progress T done trees (item::items)) (hes : SortedTree es)
    (hc : c∈items) (h : Waiting T trees c) : Waiting T (takeChildren i item.relaPath es trees).2 c := by
  obtain ⟨_,hQ,hitem⟩ := hprogress.path hT mem_cons_self
  refine ⟨h.tree,fun P r hr hP hne => ?_⟩
  rw [(takeChildren_eq hes.unique i).2,if_neg,h.below P r hr hP hne]
  rintro ⟨e,he,-,hkey⟩
  have hQe := validPath_concat.mpr ⟨hQ,hes.names e he⟩
  rw [hitem,← join_append] at hkey
  obtain ⟨r,_,rfl⟩ := (eq_nil_or_concat r).resolve_left hne
  rw [concat_eq_append,← append_assoc] at hr hkey
  obtain ⟨hQr,-⟩ := append_inj' (join_inj hr hQe hkey) rfl
  obtain ⟨hgone,hkept⟩ := hprogress.taken item.relaPath (.inl (by simp))
  -- the item would be the other tree, or below it and untouched
  by_cases hrnil : r=[]
  · have hsame : item.relaPath=c.relaPath := by rw [hitem,hP,← hQr,hrnil,append_nil]
    exact (nodup_cons.mp hprogress.nodup).1 (hsame ▸ mem_map_of_mem hc)
  · have huntouched := h.below P r (hQr ▸ hQ) hP hrnil
    rw [hQr,← hitem,hgone] at huntouched
    exact hkept huntouched.symm

/-- The subtrees of a tree that waits wait themselves. -/
theorem Waiting.child (hT : Kept T) (hprogress : Progress T done trees (item::items)) (h : Waiting T trees item)
    (hc : c∈(takeChildren i item.relaPath item.tree trees).1) :
    Waiting T (takeChildren i item.relaPath item.tree trees).2 c := by
  have hes := hT.sorted _ _ h.tree
  obtain ⟨Q,hQ,hitem⟩ := hprogress.path hT mem_cons_self
  obtain ⟨e,he,_,_,hsub,rfl⟩ := (mem_takeChildren hes.unique).mp hc
  have hQe := validPath_concat.mpr ⟨hQ,hes.names e he⟩
  refine ⟨(h.settle_eq hT hprogress mem_cons_self he).2 ▸ hsub,fun P r hr hP hne => ?_⟩
  rw [hitem,← join_append] at hP
  obtain rfl := join_inj hQe (validPath_append.mp hr).1 hP
  have huntouched := h.below Q ([e.filename]++r) (by simpa using hr) hitem (by simp)
  rw [(takeChildren_eq hes.unique i).2,if_neg,append_assoc,huntouched]
  rintro ⟨x,hx,-,hkey⟩
  have hQx := validPath_concat.mpr ⟨hQ,hes.names x hx⟩
  rw [hitem,← join_append] at hkey
  have hlen := congrArg length (join_inj hr hQx hkey)
  have hpos := length_pos_of_ne_nil hne
  simp only [length_append,length_singleton] at hlen
  omega

theorem Linked.append {parents more : List (Item Id)} (h : Linked T parents item) : Linked T (parents++more) item := by
  unfold Linked at h ⊢
  split
  · rename_i hidx
    simpa [hidx] using h
  · rename_i j hidx
    simp only [hidx] at h
    obtain ⟨parent,es,e,hparent,hrest⟩ := h
    have hlen := (List.getElem?_eq_some_iff.mp hparent).1
    exact ⟨parent,es,e,by rwa [getElem?_append_left hlen],hrest⟩

theorem Scanned.take (h : Scanned T done trees item es) {es' : List (Entry Id)} (hes : (es'.map Entry.filename).Nodup) :
    Scanned T done (takeChildren i p es' trees).2 item es :=
  ⟨h.start,h.tree,fun e he ht => takeChildren_none hes (h.taken e he ht)⟩

theorem Popped.push (hT : Kept T) (h : Popped T done item w) (hw : Waiting T w.trees item) :
    WriteInvariant T done {w with
      trees := (takeChildren w.parents.length item.relaPath item.tree w.trees).2
      parents := w.parents++[item]
      children := (takeChildren w.parents.length item.relaPath item.tree w.trees).1.reverse++w.children} := by
  have hes := hT.sorted _ _ hw.tree
  have hready := hw.ready hT h.progress mem_cons_self
  refine ⟨h.progress.take hes.unique ?_,⟨fun c hc => ?_,fun c hc => ?_,fun q hq => ?_,fun j q hj => ?_⟩,by simp⟩
  · rw [append_assoc,← append_assoc w.children]
    exact (reverse_perm _).append (perm_append_singleton _ _)
  · rcases mem_append.mp hc with hc | hc
    · exact hw.child hT h.progress (mem_reverse.mp hc)
    · exact (h.stacked.waiting c hc).take hT h.progress hes (mem_append_left _ hc)
  · rcases mem_append.mp hc with hc | hc
    · obtain ⟨e,he,ht,_,-,rfl⟩ := (mem_takeChildren hes.unique).mp (mem_reverse.mp hc)
      exact ⟨by simp,item,item.tree,e,by simp,hw.tree,he,ht,rfl⟩
    · obtain ⟨hidx,hlinked⟩ := h.stacked.childLinked c hc
      exact ⟨hidx,hlinked.append⟩
  · rcases mem_append.mp hq with hq | hq
    · obtain ⟨es,hscanned⟩ := h.stacked.scanned q hq
      exact ⟨es,hscanned.take hes.unique⟩
    · obtain rfl := mem_singleton.mp hq
      refine ⟨q.tree,hw.tree,hready.tree,fun e he ht => ?_⟩
      exact ((takeChildren_eq hes.unique _).2 _).trans (if_pos ⟨e,he,ht,rfl⟩)
  · by_cases hlen : j < w.parents.length
    · rw [getElem?_append_left hlen] at hj
      rw [take_append_of_le_length hlen.le]
      exact h.stacked.parentLinked j q hj
    · obtain rfl : j=w.parents.length := by
        have := (List.getElem?_eq_some_iff.mp hj).1
        simp only [length_append,length_singleton] at this
        omega
      obtain rfl : item=q := by simpa using hj
      rw [take_left]
      exact ⟨h.linked,fun hroot => by simp [h.root.mp hroot]⟩

end Push

end
end Gix.TreeEditor
