import Gix.TreeEditor

/-! # Edits of the entries of one tree

Every edit of a tree that is well formed replaces, adds or removes the entry of one name and
leaves a tree that is well formed. -/
namespace Gix.TreeEditor
open Gix.Tree SortedSearch List Entry

variable {Id : Type} {es es' : List (Entry Id)} {n : BString}

/-- `es'` is `es` with the entry of one name replaced by `e`. -/
structure Updated (es : List (Entry Id)) (n : BString) (e : Option (Entry Id)) (es' : List (Entry Id)) :
    Prop where
  sorted : SortedTree es'
  find : ∀ m, findName es' m = if m = n then e else findName es m

variable {e : Entry Id} {post pre : List (Entry Id)}

variable (hes : SortedTree es)
include hes

theorem findName_eq_some : findName es n=some e ↔ e∈es ∧ e.filename=n := by
  constructor
  · intro h
    exact ⟨mem_of_find?_eq_some h,by simpa using find?_some h⟩
  · rintro ⟨he,hn⟩
    exact hes.findName_eq he hn

omit hes in
theorem findName_eq_none : findName es n=none ↔ ∀ e∈es,e.filename≠n := by
  simp [findName]

/-- It is enough to know the entries of the result, and that they are sorted. -/
theorem Updated.of_perm {e : Option (Entry Id)}
    (he : ∀ x∈e,x.filename=n ∧ ValidName n)
    (hperm : es'.Perm (e.toList++es.filter (fun x => x.filename≠n)))
    (hsorted : es'.Pairwise (fun a b => a.cmp b = .lt)) : Updated es n e es' := by
  have hmem : ∀ x,x∈es' ↔ x∈e ∨ x∈es ∧ x.filename≠n := by
    intro x
    rw [hperm.mem_iff]
    simp
  have htree : SortedTree es' := by
    refine ⟨fun x hx => ?_,?_,hsorted⟩
    · rcases (hmem x).mp hx with hx | hx
      · rw [(he x hx).1]
        exact (he x hx).2
      · exact hes.names x hx.1
    · rw [(hperm.map Entry.filename).nodup_iff]
      have hrest : ((es.filter (fun x => x.filename≠n)).map Entry.filename).Nodup :=
        hes.unique.sublist (filter_sublist.map _)
      cases e with
      | none => exact hrest
      | some x =>
        refine nodup_cons.mpr ⟨?_,hrest⟩
        rw [(he x rfl).1]
        simp
  refine ⟨htree,fun m => ?_⟩
  by_cases hm : m=n
  · subst hm
    rw [if_pos rfl]
    cases e with
    | none =>
      rw [findName_eq_none]
      intro x hx
      exact (((hmem x).mp hx).resolve_left (by simp)).2
    | some x => exact (findName_eq_some htree).mpr ⟨(hmem x).mpr (.inl rfl),(he x rfl).1⟩
  · rw [if_neg hm]
    cases hf : findName es m with
    | none =>
      rw [findName_eq_none]
      intro x hx
      rcases (hmem x).mp hx with hx | hx
      · exact fun h => hm (h.symm.trans (he x hx).1)
      · exact findName_eq_none.mp hf x hx.1
    | some x =>
      obtain ⟨hx,hxm⟩ := (findName_eq_some hes).mp hf
      exact (findName_eq_some htree).mpr ⟨(hmem x).mpr (.inr ⟨hx,fun h => hm (hxm.symm.trans h)⟩),hxm⟩

theorem Updated.refl (hn : findName es n=none) : Updated es n none es := by
  refine ⟨hes,fun m => ?_⟩
  by_cases hm : m=n
  · rw [if_pos hm,hm,hn]
  · rw [if_neg hm]

omit hes in
theorem filter_other (hes : SortedTree (pre++e::post)) (hn : e.filename=n) :
    (pre++e::post).filter (fun x => x.filename≠n)=pre++post := by
  have hother : ∀ x∈pre++post,x.filename≠n := by
    intro x hx hxn
    have hnodup := hes.unique
    rw [map_append,map_cons,nodup_middle] at hnodup
    refine (nodup_cons.mp hnodup).1 ?_
    rw [← map_append,hn,← hxn]
    exact mem_map_of_mem hx
  rw [filter_append,filter_cons_of_neg (by simp [hn]),← filter_append]
  exact filter_eq_self.mpr (by simpa using hother)

omit hes in
theorem filter_missing (hn : findName es n=none) : es.filter (fun x => x.filename≠n)=es :=
  filter_eq_self.mpr (by simpa using findName_eq_none.mp hn)

omit hes in
theorem Updated.erase (hes : SortedTree (pre++e::post)) (hn : e.filename=n) :
    Updated (pre++e::post) n none (pre++post) := by
  refine .of_perm hes (by simp) ?_ (hes.sorted.sublist ?_)
  · rw [filter_other hes hn]
    rfl
  · exact (sublist_cons_self e post).append_left pre

variable (hn : ValidName n)
include hn

theorem Updated.insert (he : e.filename=n)
    (hrest : es.filter (fun x => x.filename≠n)=pre++post) (hpre : ∀ a∈pre,compare a.key e.key = .lt)
    (hpost : ∀ b∈post,compare e.key b.key = .lt) : Updated es n (some e) (pre++e::post) := by
  have hvalid := he ▸ hn
  have hmem : ∀ x∈pre++post,x∈es := fun x hx => mem_of_mem_filter (hrest ▸ hx)
  refine .of_perm hes ?_ ?_ ?_
  · rintro x ⟨⟩
    exact ⟨he,hn⟩
  · rw [hrest]
    exact perm_middle
  · have hsorted :=
      hrest ▸ hes.sorted.sublist filter_sublist
    obtain ⟨h1,h2,h3⟩ := pairwise_append.mp hsorted
    refine pairwise_append.mpr ⟨h1,pairwise_cons.mpr ⟨fun b hb => ?_,h2⟩,fun a ha b hb => ?_⟩
    · rw [cmp_eq_key hvalid (hes.names b (hmem b (mem_append_right _ hb)))]
      exact hpost b hb
    · rcases mem_cons.mp hb with rfl | hb
      · rw [cmp_eq_key (hes.names a (hmem a (mem_append_left _ ha))) hvalid]
        exact hpre a ha
      · exact h3 a ha b hb

/-- Sorting makes a well-formed tree of entries with different valid names. -/
theorem Updated.sort (he : e.filename=n)
    (hperm : es'.Perm (e::es.filter (fun x => x.filename≠n))) : Updated es n (some e) (sortEntries es') := by
  have hvalid : ∀ x∈es',ValidName x.filename := by
    intro x hx
    rcases mem_cons.mp (hperm.mem_iff.mp hx) with rfl | hx
    · exact he ▸ hn
    · exact hes.names x (mem_of_mem_filter hx)
  have hkeys : sortEntries es'=es'.mergeSort (fun a b => compare a.key b.key ≠ .gt) := by
    have hmap := map_mergeSort (l := es') (f := id) (r := fun a b => decide (a.cmp b ≠ .gt))
      (s := fun a b => decide (compare a.key b.key ≠ .gt)) (by
        intro a ha b hb
        rw [cmp_eq_key (hvalid a ha) (hvalid b hb)]
        rfl)
    simpa [sortEntries] using hmap
  have hnames : (es'.map Entry.filename).Nodup := by
    rw [(hperm.map Entry.filename).nodup_iff]
    refine nodup_cons.mpr ⟨by simp [he],hes.unique.sublist (filter_sublist.map _)⟩
  refine .of_perm hes ?_ ?_ ?_
  · rintro x ⟨⟩
    exact ⟨he,hn⟩
  · exact (mergeSort_perm es' _).trans hperm
  · have hle : (sortEntries es').Pairwise (fun a b => compare a.key b.key ≠ .gt) := by
      rw [hkeys]
      refine (pairwise_mergeSort ?_ ?_ es').imp (by simp)
      · intro a b c hab hbc
        simp only [decide_eq_true_eq] at *
        exact fun h => (Std.TransCmp.isLE_trans (Ordering.isLE_iff_ne_gt.mpr hab) (Ordering.isLE_iff_ne_gt.mpr hbc) |>
          Ordering.isLE_iff_ne_gt.mp) h
      · intro a b
        simp only [Bool.or_eq_true,decide_eq_true_eq]
        by_cases h : compare a.key b.key = .gt
        · exact .inr (fun h' => by rw [Std.OrientedCmp.gt_iff_lt.mp h] at h'; cases h')
        · exact .inl h
    have hsorted : ((sortEntries es').map Entry.filename).Nodup :=
      ((mergeSort_perm es' _).map Entry.filename).nodup_iff.mpr hnames
    have hne := pairwise_map.mp hsorted
    refine (hle.and hne).imp_of_mem ?_
    rintro a b ha hb ⟨hab,hname⟩
    have ha := hvalid a ((mergeSort_perm es' _).mem_iff.mp ha)
    have hb := hvalid b ((mergeSort_perm es' _).mem_iff.mp hb)
    rw [cmp_eq_key ha hb]
    cases hc : compare a.key b.key with
    | lt => rfl
    | gt => exact absurd hc hab
    | eq => exact absurd (key_inj ha.2 hb.2 (Std.LawfulEqOrd.eq_of_compare hc)).2 hname

/-! The search for a name -/

theorem search_key (t : Bool) :
    binarySearchBy (fun e => cmpEntryWithName e n t) es =
      binarySearchBy (fun e => compare e.key (if t then n++[slash] else n)) es :=
  binarySearchBy_congr fun e he => cmp_names e.mode.isTree t e.filename n (hes.names e he).2 hn.2

omit hes hn in
theorem search_tree (hes : SortedTree (pre++e::post)) (hn : e.filename=n) :
    binarySearchBy (fun x => cmpEntryWithName x n e.mode.isTree) (pre++e::post) = .ok pre.length := by
  have hvalid : ValidName n := hn ▸ hes.names e (by simp)
  rw [search_key hes hvalid]
  exact search_found hes.key_sorted (by rw [key,hn])

/-- No entry has the key of a name as a directory, or as a file, that is not there as such. -/
theorem key_ne {t : Bool}
    (h : ∀ e,findName es n=some e → e.mode.isTree≠t) :
    ∀ e∈es,e.key≠if t then n++[slash] else n := by
  intro e he hk
  obtain ⟨ht,hname⟩ := key_inj (hes.names e he).2 hn.2 hk
  exact h e ((findName_eq_some hes).mpr ⟨he,hname⟩) ht

omit hn in
theorem search_of_some (he : findName es n=some e) (mustBeTree : Bool) :
    ∃ pre post,es=pre++e::post ∧ search es n mustBeTree = .ok pre.length := by
  obtain ⟨hmem,hname⟩ := (findName_eq_some hes).mp he
  have hn : ValidName n := hname ▸ hes.names e hmem
  obtain ⟨pre,post,rfl⟩ := append_of_mem hmem
  refine ⟨pre,post,rfl,?_⟩
  have hfound := search_tree hes hname
  cases ht : e.mode.isTree with
  | false =>
    rw [ht] at hfound
    simp [search,hfound]
  | true =>
    rw [ht] at hfound
    have hkey : ∀ x∈pre++e::post,x.key≠if false then n++[slash] else n := by
      refine key_ne hes hn fun x hx => ?_
      cases he.symm.trans hx
      simp [ht]
    obtain ⟨_,_,_,hmissing,_,_⟩ := search_missing hes.key_sorted hkey
    rw [← search_key hes hn] at hmissing
    simp [search,hmissing,hfound]

theorem search_of_none (hnone : findName es n=none) (mustBeTree : Bool) :
    ∃ pre post,es=pre++post ∧ search es n mustBeTree = .error pre.length ∧
      (∀ a∈pre,compare a.key (if mustBeTree then n++[slash] else n) = .lt) ∧
      ∀ b∈post,compare (if mustBeTree then n++[slash] else n) b.key = .lt := by
  have hkey : ∀ t : Bool,∀ e∈es,e.key≠if t then n++[slash] else n := fun t =>
    key_ne hes hn (by simp [hnone])
  obtain ⟨fpre,fpost,hf,hfile,hfpre,hfpost⟩ := search_missing hes.key_sorted (hkey false)
  obtain ⟨dpre,dpost,hd,hdir,hdpre,hdpost⟩ := search_missing hes.key_sorted (hkey true)
  rw [← search_key hes hn] at hfile hdir
  cases mustBeTree with
  | false => exact ⟨fpre,fpost,hf,by simp [search,hfile,hdir],hfpre,hfpost⟩
  | true => exact ⟨dpre,dpost,hd,by simp [search,hfile,hdir],hdpre,hdpost⟩

/-! What the loop does to the entries at the cursor -/

variable (hash : Hash Id)

omit hes hn in
theorem EntryKind.mode_isTree (kind : EntryKind) : kind.mode.isTree=decide (kind = .tree) := by
  cases kind <;> rfl

omit hes hn in
theorem overwrite_updated (hes : SortedTree (pre++e::post)) (hn : e.filename=n) (mode : EntryMode) (oid : Id) :
    Updated (pre++e::post) n (some ⟨mode,n,oid⟩) (overwrite (pre++e::post) pre.length e mode oid mode.isTree) := by
  have hvalid : ValidName n := hn ▸ hes.names e (by simp)
  have hset : (pre++e::post).set pre.length {e with mode := mode,oid := oid}=pre++⟨mode,n,oid⟩::post := by
    simp [hn]
  unfold overwrite
  rw [hset]
  by_cases ht : e.mode.isTree=mode.isTree
  · -- the key stays the same
    simp only [ht,ne_eq]
    have hkey : e.key=(⟨mode,n,oid⟩ : Entry Id).key := by simp [key,ht,hn]
    obtain ⟨-,hright,hcross⟩ := pairwise_append.mp hes.key_sorted
    refine .insert hes hvalid rfl (filter_other hes hn) (fun a ha => ?_) (fun b hb => ?_)
    · rw [← hkey]
      exact hcross a ha e mem_cons_self
    · rw [← hkey]
      exact (pairwise_cons.mp hright).1 b hb
  · simp only [ht,ne_eq]
    refine .sort hes hvalid rfl ?_
    rw [filter_other hes hn]
    exact perm_middle

theorem removed_entries :
    ∃ es',editEntries hash none n true es=some (es',.stop) ∧ Updated es n none es' := by
  cases he : findName es n with
  | none =>
    obtain ⟨pre,post,-,hsearch,-,-⟩ := search_of_none hes hn he false
    exact ⟨es,by simp [editEntries,hsearch],.refl hes he⟩
  | some e =>
    obtain ⟨pre,post,rfl,hsearch⟩ := search_of_some hes he false
    have hname := ((findName_eq_some hes).mp he).2
    refine ⟨pre++post,?_,.erase hes hname⟩
    simp [editEntries,hsearch,eraseIdx_append_of_length_le]

/-- Removing below a name follows it if it is that of a tree. -/
theorem removing_entries :
    editEntries hash none n false es=some (es,match (findName es n).filter (fun e => e.mode.isTree) with
      | some e => .descend (some e.oid)
      | none => .stop) := by
  cases he : findName es n with
  | none =>
    obtain ⟨pre,post,-,hsearch,-,-⟩ := search_of_none hes hn he true
    simp [editEntries,hsearch]
  | some e =>
    obtain ⟨pre,post,rfl,hsearch⟩ := search_of_some hes he true
    by_cases ht : e.mode.isTree=true <;> simp [editEntries,hsearch,ht,Option.filter]

theorem upserted_entries (kind : EntryKind) (id : Id) (mode : UpsertMode) :
    ∃ es',editEntries hash (some (kind,id,mode)) n true es=some (es',.descend none) ∧
      Updated es n (some ⟨kind.mode,n,id⟩) es' := by
  cases he : findName es n with
  | none =>
    obtain ⟨pre,post,rfl,hsearch,_,_⟩ := search_of_none hes hn he (decide (kind = .tree))
    refine ⟨pre++⟨kind.mode,n,id⟩::post,?_,?_⟩
    · simp [editEntries,hsearch,insertIdx_append]
    · refine .insert hes hn rfl (filter_missing he) ?_ ?_ <;>
        simpa only [key,EntryKind.mode_isTree] using by assumption
  | some e =>
    obtain ⟨pre,post,rfl,hsearch⟩ := search_of_some hes he (decide (kind = .tree))
    have hname := ((findName_eq_some hes).mp he).2
    have hupdated := overwrite_updated hes hname kind.mode id
    rw [EntryKind.mode_isTree] at hupdated
    exact ⟨_,by simp [editEntries,hsearch],hupdated⟩

/-- Upserting below a name follows it if it is that of a tree, and makes it one otherwise. -/
theorem upserting_entries (kind : EntryKind) (id : Id) (mode : UpsertMode) :
    match (findName es n).filter (fun e => e.mode.isTree) with
    | some e => editEntries hash (some (kind,id,mode)) n false es=some (es,.descend (some e.oid))
    | none => ∃ es',editEntries hash (some (kind,id,mode)) n false es=some (es',.descend none) ∧
        Updated es n (some ⟨EntryKind.tree.mode,n,hash.null⟩) es' := by
  cases he : findName es n with
  | none =>
    obtain ⟨pre,post,rfl,hsearch,_,_⟩ := search_of_none hes hn he true
    refine ⟨pre++⟨EntryKind.tree.mode,n,hash.null⟩::post,?_,?_⟩
    · simp [editEntries,hsearch,insertIdx_append]
    · refine .insert hes hn rfl (filter_missing he) ?_ ?_ <;>
        simpa [key,EntryKind.mode_isTree] using by assumption
  | some e =>
    obtain ⟨pre,post,rfl,hsearch⟩ := search_of_some hes he true
    have hname := ((findName_eq_some hes).mp he).2
    by_cases ht : e.mode.isTree=true
    · simp [editEntries,hsearch,ht,Option.filter]
    · have hupdated := overwrite_updated hes hname EntryKind.tree.mode hash.null
      rw [EntryKind.mode_isTree] at hupdated
      simp only [Option.filter_some,ht]
      exact ⟨_,by simp [editEntries,hsearch,ht],hupdated⟩

end Gix.TreeEditor
