import Gix.FlatTree
import Gix.TreeEditorEntries

/-! # The meaning of the kept trees, and what edits make of it

The trees in memory stand for a flattened tree: a directory that is kept counts instead of
the one its entry names. Edits do to it what `FlatTree` says, as long as no directory that
they create is kept from before. -/
namespace Gix.TreeEditor
open Gix.Tree Fallible FlatTree Function Option List

variable {Id : Type}

abbrev Trees (Id : Type) := BString → Option (List (Entry Id))

/-- A path whose components are names. -/
def ValidPath (P : List BString) : Prop := ∀ n ∈ P, ValidName n

instance (P : List BString) : Decidable (ValidPath P) := inferInstanceAs (Decidable (∀ n ∈ P, ValidName n))

/-- The flattened form of the tree at `pre`, some of whose subtrees are kept. -/
def view (T : Trees Id) (lookup : Id → Option (List (Entry Id))) :
    List BString → List (Entry Id) → FlatMap Id
  | _, _, [] => none
  | pre, es, n :: rest => (findName es n).bind (fun e =>
      if e.mode.isTree then match T (join (pre++[n])) with
        | some sub => view T lookup (pre++[n]) sub rest
        | none => leafAt lookup e.mode e.oid rest
      else leafAt lookup e.mode e.oid rest)

/-- The maps an editor can have: the root is there, a tree is kept only below one that is,
and all trees are well formed. -/
structure Kept (T : Trees Id) : Prop where
  root : T [] ≠ none
  named : ∀ k, T k ≠ none → ∃ P, ValidPath P ∧ k = join P
  closed : ∀ P n, ValidPath (P++[n]) → T (join (P++[n])) ≠ none → T (join P) ≠ none
  sorted : ∀ k es, T k = some es → SortedTree es
  finite : ∃ keys : Finset BString, ∀ k, T k ≠ none → k ∈ keys

section Paths
variable {P Q : List BString} {n : BString}

theorem validPath_append : ValidPath (P++Q) ↔ ValidPath P ∧ ValidPath Q := by
  simp [ValidPath,or_imp,forall_and]

theorem validPath_cons : ValidPath (n::P) ↔ ValidName n ∧ ValidPath P := by
  simp [ValidPath]

theorem validPath_concat : ValidPath (P++[n]) ↔ ValidPath P ∧ ValidName n := by
  simp [ValidPath,or_imp,forall_and]

theorem join_ne (hP : ValidPath P) (hQ : ValidPath Q) (h : P≠Q) : join P≠join Q :=
  fun heq => h (join_inj hP hQ heq)

end Paths

variable {T T' : Trees Id} {lookup : Id → Option (List (Entry Id))} {pre : List BString} {es : List (Entry Id)}
  {n : BString}

theorem Kept.below (hT : Kept T) {P r : List BString} (hPr : ValidPath (P++r)) (hP : T (join P)=none) :
    T (join (P++r))=none := by
  induction r using reverseRecOn with
  | nil => rwa [append_nil]
  | append_singleton r m ih =>
    rw [← append_assoc] at hPr ⊢
    by_contra hne
    exact hT.closed _ _ hPr hne (ih (validPath_append.mp hPr).1)

variable {q p : List BString} {kind : EntryKind} {sub : List (Entry Id)} {e : Entry Id}

/-- The view depends on what is kept below the path only. -/
theorem view_congr (hpre : ValidPath pre) (hq : ValidPath q)
    (h : ∀ r,r≠[] → ValidPath (pre++r) → T' (join (pre++r))=T (join (pre++r))) :
    view T' lookup pre es q=view T lookup pre es q := by
  induction q generalizing pre es with
  | nil => rfl
  | cons n q ih =>
    obtain ⟨hn,hq⟩ := validPath_cons.mp hq
    have hpre' := validPath_concat.mpr ⟨hpre,hn⟩
    have hsub : ∀ sub,view T' lookup (pre++[n]) sub q=view T lookup (pre++[n]) sub q := by
      intro sub
      refine ih hpre' hq fun r hr hvalid => ?_
      rw [append_assoc] at hvalid ⊢
      exact h _ (by simp) hvalid
    simp [view,h [n] (by simp) hpre',hsub]

/-- If nothing is kept below a path, the view there is the flattened tree. -/
theorem view_below (hpre : ValidPath pre) (hq : ValidPath q)
    (h : ∀ r,r≠[] → ValidPath (pre++r) → T (join (pre++r))=none) :
    view T lookup pre es q=flat lookup es q := by
  cases q with
  | nil => rfl
  | cons n q =>
    have hn := (validPath_cons.mp hq).1
    have hkey := h [n] (by simp) (validPath_concat.mpr ⟨hpre,hn⟩)
    rw [flat_cons,view,hkey]
    simp

theorem view_empty (q : List BString) : view T lookup pre [] q=none := by
  cases q <;> rfl

theorem view_of_kept (he : findName es n=some e) (ht : e.mode.isTree=true)
    (hsub : T (join (pre++[n]))=some sub) : view T lookup pre es (n::q)=view T lookup (pre++[n]) sub q := by
  simp [view,he,ht,hsub]

/-- What the view has at a name carries the mode of the entry. -/
theorem view_mode {x : EntryMode × Id} (h : view T lookup pre es [n]=some x) :
    ∃ e,findName es n=some e ∧ x.1=e.mode := by
  obtain ⟨e,he,hx⟩ := bind_eq_some_iff.mp h
  refine ⟨e,he,?_⟩
  have hleaf : leafAt lookup e.mode e.oid []=some x → x.1=e.mode := by
    intro hleaf
    simp only [leafAt] at hleaf
    split at hleaf
    · simp at hleaf
    · rw [← some.inj hleaf]
  split at hx
  · split at hx
    · simp [view] at hx
    · exact hleaf hx
  · exact hleaf hx

/-- The tree at a name as the view has it; `none` stands for a name that is not that of a tree. -/
def subtreeAt (T : Trees Id) (lookup : Id → Option (List (Entry Id))) (pre : List BString) (es : List (Entry Id))
    (n : BString) : Option (List (Entry Id)) :=
  ((findName es n).filter (fun e => e.mode.isTree)).map (fun e => (T (join (pre++[n]))).getD (content lookup e.oid))

/-- What is below a name is in the tree at that name. -/
theorem view_subtreeAt (hT : Kept T) (hpre : ValidPath pre) (hn : ValidName n) (hq : ValidPath q) (hne : q≠[]) :
    view T lookup pre es (n::q) =
      view T lookup (pre++[n]) ((subtreeAt T lookup pre es n).getD []) q := by
  have hpre' := validPath_concat.mpr ⟨hpre,hn⟩
  obtain ⟨_,q,rfl⟩ := exists_cons_of_ne_nil hne
  cases he : findName es n with
  | none =>
    have hsub : subtreeAt T lookup pre es n=none := by simp [subtreeAt,he]
    rw [hsub,view,he]
    rfl
  | some e =>
    by_cases ht : e.mode.isTree=true
    · cases hsub : T (join (pre++[n])) with
      | some sub =>
        rw [view_of_kept he ht hsub]
        simp [subtreeAt,he,ht,hsub,Option.filter]
      | none =>
        rw [view_below hpre' hq fun r _ hr => hT.below hr hsub]
        simp [view,subtreeAt,he,ht,hsub,Option.filter,leafAt]
    · have hsub : subtreeAt T lookup pre es n=none := by simp [subtreeAt,he,ht,Option.filter]
      rw [hsub,getD_none,view_empty,view,he]
      simp [ht,leafAt]

/-- Trees can be kept at the paths that are kept and right below them. -/
theorem Kept.update (hT : Kept T) (hes : SortedTree es) {P : List BString} (hP : ValidPath P)
    (hparent : ∀ Q m,P=Q++[m] → T (join Q)≠none) : Kept (Function.update T (join P) (some es)) := by
  have hgrow : ∀ k,T k≠none → Function.update T (join P) (some es) k≠none := by
    intro k hk
    rw [update_apply]
    split
    · simp
    · exact hk
  refine ⟨hgrow [] hT.root,fun k hk => ?_,fun Q m hQ hk => ?_,fun k es' hk => ?_,?_⟩
  · rw [update_apply] at hk
    split at hk
    · exact ⟨P,hP,by assumption⟩
    · exact hT.named k hk
  · rw [update_apply] at hk
    split at hk
    · rename_i heq
      exact hgrow _ (hparent Q m (join_inj hQ hP heq).symm)
    · exact hgrow _ (hT.closed Q m hQ hk)
  · rw [update_apply] at hk
    split at hk
    · rw [← some.inj hk]
      exact hes
    · exact hT.sorted k es' hk
  · obtain ⟨keys,hkeys⟩ := hT.finite
    refine ⟨insert (join P) keys,fun k hk => ?_⟩
    rw [update_apply] at hk
    split at hk
    · exact Finset.mem_insert.mpr (.inl (by assumption))
    · exact Finset.mem_insert_of_mem (hkeys k hk)

variable {es1 : List (Entry Id)}

theorem Kept.replace (hT : Kept T) (hes : T (join pre)=some es) (hpre : ValidPath pre) (hes1 : SortedTree es1) :
    Kept (Function.update T (join pre) (some es1)) := by
  refine hT.update hes1 hpre ?_
  rintro Q m rfl
  exact hT.closed Q m hpre (by simp [hes])

/-- The maps agree away from `P` and what is below it. -/
def SameOutside (P : List BString) (T T' : Trees Id) : Prop :=
  ∀ k, (∀ r, ValidPath (P++r) → k ≠ join (P++r)) → T' k = T k

/-- An edit at `pre` acts on the view as `F`. -/
structure Edited (lookup : Id → Option (List (Entry Id))) (F : FlatMap Id → FlatMap Id) (pre : List BString)
    (T : Trees Id) (es : List (Entry Id)) (T' : Trees Id) : Prop where
  kept : Kept T'
  outside : SameOutside pre T T'
  view : ∃ es', T' (join pre) = some es' ∧
    ∀ q, ValidPath q → view T' lookup pre es' q = F (view T lookup pre es) q

/-- The trees with `es1` at `pre`, and `sub` right below it. -/
def entering (T : Trees Id) (pre : List BString) (n : BString) (es1 sub : List (Entry Id)) : Trees Id :=
  Function.update (Function.update T (join pre) (some es1)) (join (pre++[n])) (some sub)

theorem entering_of_ne {k : BString} (h1 : k≠join (pre++[n])) (h2 : k≠join pre) :
    entering T pre n es1 sub k=T k := by
  rw [entering,update_of_ne h1,update_of_ne h2]

/-- Below a name, nothing but the way there has changed. -/
theorem entered_keys (hpre : ValidPath pre) (hn : ValidName n) {r : List BString}
    (hr : r≠[]) (hvalid : ValidPath (pre++[n]++r)) :
    entering T pre n es1 sub (join (pre++[n]++r))=T (join (pre++[n]++r)) :=
  entering_of_ne (join_ne hvalid (validPath_concat.mpr ⟨hpre,hn⟩) (by simpa using hr)) (join_ne hvalid hpre (by simp))

theorem Kept.entering (hT : Kept T) (hes : T (join pre)=some es) (hpre : ValidPath pre) (hn : ValidName n)
    (hes1 : SortedTree es1) (hsub : SortedTree sub) : Kept (entering T pre n es1 sub) := by
  refine (hT.replace hes hpre hes1).update hsub (validPath_concat.mpr ⟨hpre,hn⟩) ?_
  intro Q m heq
  obtain ⟨rfl,-⟩ := append_inj' heq rfl
  simp

theorem sortedTree_nil : SortedTree ([] : List (Entry Id)) := ⟨by simp,by simp,.nil⟩

/-- A directory that an upsert creates has nothing in it from before, and one that it gives an
id of its own is not kept. -/
def Fresh (T : Trees Id) : List BString → List (Entry Id) → List BString → EntryKind → Prop
  | _, _, [], _ => False
  | pre, _, [n], kind => kind = .tree → T (join (pre++[n])) = none
  | pre, es, n :: m :: rest, kind =>
    ((findName es n).filter (fun e => e.mode.isTree) = none → (T (join (pre++[n]))).getD [] = []) ∧
    match T (join (pre++[n])) with
    | none => True
    | some sub => Fresh T (pre++[n]) sub (m :: rest) kind

theorem fresh_congr (hpre : ValidPath pre) (hp : ValidPath p)
    (h : ∀ r,r≠[] → ValidPath (pre++r) → T' (join (pre++r))=T (join (pre++r))) (hfresh : Fresh T pre es p kind) :
    Fresh T' pre es p kind := by
  induction p generalizing pre es with
  | nil => exact hfresh
  | cons n p ih =>
    obtain ⟨hn,hp⟩ := validPath_cons.mp hp
    have hpre' := validPath_concat.mpr ⟨hpre,hn⟩
    have hkey := h [n] (by simp) hpre'
    cases p with
    | nil => rwa [Fresh,hkey]
    | cons m p =>
      rw [Fresh] at hfresh ⊢
      rw [hkey]
      refine ⟨hfresh.1,?_⟩
      have hbelow := hfresh.2
      split
      · trivial
      · rename_i sub hsub
        simp only [hsub] at hbelow
        refine ih hpre' hp (fun r hr hvalid => ?_) hbelow
        rw [append_assoc] at hvalid ⊢
        exact h _ (by simp) hvalid

theorem fresh_of_none (hpre : ValidPath pre) (hp : ValidPath p) (hne : p≠[])
    (h : ∀ r,r≠[] → ValidPath (pre++r) → T (join (pre++r))=none) : Fresh T pre es p kind := by
  obtain ⟨n,p,rfl⟩ := exists_cons_of_ne_nil hne
  have hn := (validPath_cons.mp hp).1
  have hkey := h [n] (by simp) (validPath_concat.mpr ⟨hpre,hn⟩)
  cases p with
  | nil => exact fun _ => hkey
  | cons m p =>
    rw [Fresh,hkey]
    exact ⟨fun _ => rfl,trivial⟩

section Descent
variable {es1 sub : List (Entry Id)} (hT : Kept T) (hpre : ValidPath pre) (hn : ValidName n)
include hT hpre hn

/-- An edit in the tree at a name, seen from above. -/
theorem Edited.descend (he : findName es1 n=some e) (ht : e.mode.isTree=true) (hother : ∀ m,m≠n → findName es1 m=findName es m)
    (hsub : sub=(subtreeAt T lookup pre es n).getD []) {F G : FlatMap Id → FlatMap Id}
    (hF : ∀ M M' : FlatMap Id,∀ q,M q=M' q → F M q=F M' q)
    (hG : ∀ q,G (TreeEditor.view T lookup pre es) (n::q) =
      if q=[] then none else F (fun r => TreeEditor.view T lookup pre es (n::r)) q)
    (hGne : ∀ m q,m≠n → G (TreeEditor.view T lookup pre es) (m::q)=TreeEditor.view T lookup pre es (m::q))
    (hGnil : G (TreeEditor.view T lookup pre es) []=none)
    (h : Edited lookup F (pre++[n]) (entering T pre n es1 sub) sub T') : Edited lookup G pre T es T' := by
  have hpre' := validPath_concat.mpr ⟨hpre,hn⟩
  obtain ⟨_,hsub',hview⟩ := h.view
  refine ⟨h.kept,fun k hk => ?_,es1,?_,fun q hq => ?_⟩
  · rw [h.outside k (fun r hr => by
      rw [append_assoc] at hr ⊢
      exact hk _ hr)]
    exact entering_of_ne (hk [n] hpre') (by simpa using hk [] (by simpa using hpre))
  · have hne : ∀ r,ValidPath (pre++[n]++r) → join pre≠join (pre++[n]++r) :=
      fun r hr => join_ne hpre hr (by simp)
    rw [h.outside _ hne,entering,update_of_ne (by simpa using hne [] (by simpa using hpre')),update_self]
  · cases q with
    | nil => exact hGnil.symm
    | cons m q =>
      obtain ⟨hm,hq⟩ := validPath_cons.mp hq
      by_cases hmn : m=n
      · subst hmn
        rw [view_of_kept he ht hsub',hview q hq,hG]
        split
        · rename_i hnil
          subst hnil
          rw [← hview [] hq]
          rfl
        · rename_i hne
          refine hF _ _ _ ?_
          rw [view_subtreeAt hT hpre hn hq hne,← hsub]
          exact view_congr (validPath_concat.mpr ⟨hpre,hn⟩) hq fun r hr hvalid => entered_keys hpre hn hr hvalid
      · -- below the other names nothing has changed
        have hprem := validPath_concat.mpr ⟨hpre,hm⟩
        have hsame : ∀ r,ValidPath (pre++m::r) → T' (join (pre++m::r))=T (join (pre++m::r)) := by
          intro r hr
          have hout : ∀ r',ValidPath (pre++[n]++r') → join (pre++m::r)≠join (pre++[n]++r') :=
            fun r' hr' => join_ne hr hr' (by simp [hmn])
          rw [h.outside _ hout]
          exact entering_of_ne (by simpa using hout [] (by simpa using hpre')) (join_ne hr hpre (by simp))
        rw [hGne m q hmn]
        have hsub : ∀ sub,TreeEditor.view T' lookup (pre++[m]) sub q=TreeEditor.view T lookup (pre++[m]) sub q :=
          fun sub => view_congr hprem hq fun r _ hr => by
            rw [append_assoc] at hr ⊢
            exact hsame r hr
        simp [TreeEditor.view,hother m hmn,hsame [] hprem,hsub]

theorem Edited.here {e : Option (Entry Id)} (hes : T (join pre)=some es) (hup : Updated es n e es1)
    (hfresh : ∀ x∈e,x.mode.isTree=true → T (join (pre++[n]))=none) {G : FlatMap Id → FlatMap Id}
    (hG : ∀ q,G (TreeEditor.view T lookup pre es) (n::q)=e.bind (fun x => leafAt lookup x.mode x.oid q))
    (hGne : ∀ m q,m≠n → G (TreeEditor.view T lookup pre es) (m::q)=TreeEditor.view T lookup pre es (m::q))
    (hGnil : G (TreeEditor.view T lookup pre es) []=none) :
    Edited lookup G pre T es (Function.update T (join pre) (some es1)) := by
  have hkeys : ∀ r,r≠[] → ValidPath (pre++r) →
      update T (join pre) (some es1) (join (pre++r))=T (join (pre++r)) :=
    fun r hr hvalid => update_of_ne (join_ne hvalid hpre (by simpa using hr)) _ _
  refine ⟨hT.replace hes hpre hup.sorted,fun k hk => ?_,es1,update_self _ _ _,fun q hq => ?_⟩
  · exact update_of_ne (by simpa using hk [] (by simpa using hpre)) _ _
  · cases q with
    | nil => exact hGnil.symm
    | cons m q =>
      obtain ⟨hm,hq⟩ := validPath_cons.mp hq
      rw [view_congr hpre (validPath_cons.mpr ⟨hm,hq⟩) hkeys]
      by_cases hmn : m=n
      · subst hmn
        rw [hG,TreeEditor.view,hup.find m,if_pos rfl]
        cases e with
        | none => rfl
        | some x =>
          by_cases ht : x.mode.isTree=true
          · simp [hfresh x rfl ht]
          · simp [ht]
      · rw [hGne m q hmn]
        simp [TreeEditor.view,hup.find m,if_neg hmn]

end Descent

/-- The store that trees are looked up in has what the database provides. -/
structure Loads (hash : Hash Id) (find : Find Id) (lookup : Id → Option (List (Entry Id))) : Prop where
  found : ∀ id t, find id = some t → lookup id = some t
  sorted : ∀ id t, find id = some t → SortedTree t
  empty : content lookup hash.emptyTree = []

variable [DecidableEq Id] {hash : Hash Id} {find : Find Id} {s s' : Editor Id} {treeToLookup : Option Id}

/-- Entering a tree fails, or there is one at the path: the one in memory, that of the id, or an empty one. -/
theorem enterTree_cases (hash : Hash Id) (find : Find Id) (treeToLookup : Option Id) (s : Editor Id) :
    (∃ err,enterTree hash find treeToLookup s=some (.error err,s)) ∨ ∃ sub,
    enterTree hash find treeToLookup s=some (.ok (),{s with trees := Function.update s.trees s.pathBuf (some sub)}) ∧
    (s.trees s.pathBuf=some sub ∨
      s.trees s.pathBuf=none ∧ match treeToLookup.filter (fun id => id≠hash.emptyTree) with
        | none => sub=[]
        | some id => find id=some sub) := by
  cases hs : s.trees s.pathBuf with
  | some sub =>
    refine .inr ⟨sub,?_,.inl rfl⟩
    rw [← hs,update_eq_self]
    simp [enterTree,Bind.bind,hs]
  | none =>
    cases hid : treeToLookup.filter (fun id => id≠hash.emptyTree) with
    | none => exact .inr ⟨[],by simp only [enterTree,Bind.bind,get_apply,hs,hid,modify_apply],.inr ⟨rfl,rfl⟩⟩
    | some id =>
      cases hfind : find id with
      | none => exact .inl ⟨_,by simp only [enterTree,Bind.bind,get_apply,hs,hid,hfind]; rfl⟩
      | some tree =>
        exact .inr ⟨tree,by simp only [enterTree,Bind.bind,get_apply,hs,hid,hfind,modify_apply],.inr ⟨rfl,hfind⟩⟩

theorem enterTree_ok (hload : Loads hash find lookup)
    (hrun : enterTree hash find treeToLookup s=some (.ok (),s')) :
    ∃ sub,s'={s with trees := Function.update s.trees s.pathBuf (some sub)} ∧
      sub=(s.trees s.pathBuf).getD ((treeToLookup.map (content lookup)).getD []) ∧
      (s.trees s.pathBuf=none → SortedTree sub) := by
  rcases enterTree_cases hash find treeToLookup s with ⟨_,herr⟩ | ⟨sub,hrun',hsub⟩
  · cases herr.symm.trans hrun
  cases hrun'.symm.trans hrun
  refine ⟨sub,rfl,?_⟩
  rcases hsub with hs | ⟨hs,hsub⟩
  · exact ⟨by simp [hs],fun hnone => by simp [hs] at hnone⟩
  cases hid : treeToLookup.filter (fun id => id≠hash.emptyTree) with
  | none =>
    simp only [hid] at hsub
    refine ⟨?_,fun _ => hsub ▸ sortedTree_nil⟩
    cases treeToLookup with
    | none => simp [hs,hsub]
    | some id =>
      obtain rfl : id=hash.emptyTree := by simpa using hid
      simp [hs,hsub,hload.empty]
  | some id =>
    simp only [hid] at hsub
    obtain ⟨rfl,-⟩ := filter_eq_some_iff.mp hid
    exact ⟨by simp [hs,content,hload.found id sub hsub],fun _ => hload.sorted id sub hsub⟩

section Loop
variable {kindAndId : Option (EntryKind × Id × UpsertMode)} {relaPath : List BString} {es1 : List (Entry Id)}

theorem editPath_stop (hn : n≠[]) (hes : s.trees s.pathBuf=some es)
    (hedit : editEntries hash kindAndId n relaPath.isEmpty es=some (es1,.stop)) :
    editPath hash kindAndId find (n::relaPath) s =
      some (.ok (),{s with trees := Function.update s.trees s.pathBuf (some es1)}) := by
  simp [editPath,Bind.bind,hn,hes,hedit]

/-- Where the loop goes on, the tree at the name is entered first. -/
theorem editPath_enter (hn : n≠[]) (hes : T (join pre)=some es)
    (hedit : editEntries hash kindAndId n relaPath.isEmpty es=some (es1,.descend treeToLookup))
    (hlast : (relaPath.isEmpty && kindAndId.any (fun k => k.2.2 = .normal))=false) :
    editPath hash kindAndId find (n::relaPath) ⟨T,join pre⟩ =
      (do
        enterTree hash find treeToLookup
        editPath hash kindAndId find relaPath : Edit Id Unit) ⟨update T (join pre) (some es1),join (pre++[n])⟩ := by
  rw [editPath,join_append]
  simp only [hn]
  refine (bind_ok get_apply).trans ?_
  simp only [hes,hedit,hlast]
  exact (bind_ok rfl).trans (bind_ok rfl)

end Loop

section
variable (hload : Loads hash find lookup)
include hload

/-- The state in which the loop goes on below a name: the tree there is the one the view has. -/
theorem entered {kindAndId : Option (EntryKind × Id × UpsertMode)}
    {relaPath : List BString} (hT : Kept T) (hpre : ValidPath pre)
    (hn : ValidName n) (hes : T (join pre)=some es) (hne : relaPath≠[]) (hsorted : SortedTree es1)
    (hedit : editEntries hash kindAndId n false es=some (es1,.descend treeToLookup))
    (hlookup : (T (join (pre++[n]))).getD ((treeToLookup.map (content lookup)).getD []) =
      (subtreeAt T lookup pre es n).getD [])
    (hrun : editPath hash kindAndId find (n::relaPath) ⟨T,join pre⟩=some (.ok (),s')) :
    ∃ sub,sub=(subtreeAt T lookup pre es n).getD [] ∧
      Kept (entering T pre n es1 sub) ∧
      editPath hash kindAndId find relaPath ⟨entering T pre n es1 sub,join (pre++[n])⟩=some (.ok (),s') := by
  have hempty : relaPath.isEmpty=false := by simpa using hne
  rw [editPath_enter hn.1 hes (by rwa [hempty]) (by rw [hempty]; rfl)] at hrun
  obtain ⟨_,_,h1,hrest⟩ := of_bind_ok hrun
  obtain ⟨sub,rfl,hsub,hloaded⟩ := enterTree_ok hload h1
  have hkey : join (pre++[n])≠join pre := join_ne (validPath_concat.mpr ⟨hpre,hn⟩) hpre (by simp)
  simp only [update_of_ne hkey] at hsub hloaded
  have hsubsorted : SortedTree sub := by
    cases hk : T (join (pre++[n])) with
    | none => exact hloaded hk
    | some t =>
      rw [hk] at hsub
      rw [hsub]
      exact hT.sorted _ _ hk
  exact ⟨sub,hsub.trans hlookup,hT.entering hes hpre hn hsorted hsubsorted,hrest⟩

theorem editPath_upsert {id : Id} (hT : Kept T) (hpre : ValidPath pre)
    (hp : ValidPath p) (hes : T (join pre)=some es) (hfresh : Fresh T pre es p kind)
    (hrun : editPath hash (some (kind,id,.normal)) find p ⟨T,join pre⟩=some (.ok (),s')) :
    Edited lookup (FlatTree.upsert lookup p kind id) pre T es s'.trees := by
  induction p generalizing pre T es with
  | nil => exact hfresh.elim
  | cons n p ih =>
    obtain ⟨hn,hp⟩ := validPath_cons.mp hp
    have hpre' := validPath_concat.mpr ⟨hpre,hn⟩
    have hsorted := hT.sorted _ _ hes
    cases p with
    | nil =>
      obtain ⟨es1,hedit,hup⟩ := upserted_entries hsorted hn hash kind id .normal
      obtain rfl : ⟨update T (join pre) (some es1),join pre⟩=s' := by simpa [editPath,Bind.bind,hn.1,hes,hedit] using hrun
      refine .here hT hpre hn hes hup ?_ (fun q => ?_) (fun m q hmn => upsert_cons_of_ne hmn) (upsert_above (by simp))
      · rintro x ⟨⟩ ht
        exact hfresh (by simpa [EntryKind.mode_isTree] using ht)
      · rw [upsert_cons]
        rfl
    | cons m p =>
      rw [Fresh] at hfresh
      -- the entry is that of a tree, or it becomes one
      have hstep : ∃ es1 treeToLookup e,editEntries hash (some (kind,id,.normal)) n false es =
            some (es1,.descend treeToLookup) ∧ SortedTree es1 ∧ findName es1 n=some e ∧ e.mode.isTree=true ∧
          (∀ m,m≠n → findName es1 m=findName es m) ∧
          (T (join (pre++[n]))).getD ((treeToLookup.map (content lookup)).getD []) =
            (subtreeAt T lookup pre es n).getD [] := by
        have hupserting := upserting_entries hsorted hn hash kind id .normal
        cases hfind : (findName es n).filter (fun e => e.mode.isTree) with
        | none =>
          simp only [hfind] at hupserting
          obtain ⟨es1,hedit,hup⟩ := hupserting
          refine ⟨es1,none,⟨EntryKind.tree.mode,n,hash.null⟩,hedit,hup.sorted,?_,EntryKind.mode_isTree .tree,?_,?_⟩
          · rw [hup.find,if_pos rfl]
          · exact fun m hm => by rw [hup.find,if_neg hm]
          · simpa [subtreeAt,hfind] using hfresh.1 hfind
        | some e =>
          simp only [hfind] at hupserting
          obtain ⟨he,ht⟩ := filter_eq_some_iff.mp hfind
          refine ⟨es,some e.oid,e,hupserting,hsorted,he,ht,fun _ _ => rfl,?_⟩
          simp [subtreeAt,hfind]
      obtain ⟨es1,treeToLookup,e,hedit,hsorted1,he,ht,hother,hsubtree⟩ := hstep
      obtain ⟨sub,hsub,hT2,hrest⟩ := entered hload hT hpre hn hes (by simp) hsorted1 hedit hsubtree hrun
      have hfresh2 : Fresh (entering T pre n es1 sub) (pre++[n]) sub (m::p) kind := by
        cases hk : T (join (pre++[n])) with
        | none =>
          refine fresh_of_none hpre' hp (by simp) fun r hr hvalid => ?_
          rw [entered_keys hpre hn hr hvalid]
          exact hT.below hvalid hk
        | some t =>
          refine fresh_congr hpre' hp (fun r hr hvalid => entered_keys hpre hn hr hvalid) ?_
          simp only [hk] at hfresh
          have hsubt : sub=t := by
            cases hfind : (findName es n).filter (fun e => e.mode.isTree) with
            | none =>
              simp_all
            | some x => simpa [subtreeAt,hfind,hk] using hsub
          rw [hsubt]
          exact hfresh.2
      refine .descend hT hpre hn he ht hother hsub (F := FlatTree.upsert lookup (m::p) kind id) ?_ ?_
        (fun m q hmn => upsert_cons_of_ne hmn) (upsert_above (by simp))
        (ih hT2 hpre' hp (update_self _ _ _) hfresh2 hrest)
      · intro M M' q hq
        simp [FlatTree.upsert,hq]
      · intro q
        rw [upsert_cons]
        split
        · rename_i hq
          rw [hq,upsert_above (by simp)]
        · rfl

theorem editPath_remove (hne : p≠[]) (hT : Kept T) (hpre : ValidPath pre)
    (hp : ValidPath p) (hes : T (join pre)=some es)
    (hrun : editPath hash none find p ⟨T,join pre⟩=some (.ok (),s')) :
    Edited lookup (FlatTree.remove p) pre T es s'.trees := by
  induction p generalizing pre T es with
  | nil => exact absurd rfl hne
  | cons n p ih =>
    obtain ⟨hn,hp⟩ := validPath_cons.mp hp
    have hpre' := validPath_concat.mpr ⟨hpre,hn⟩
    have hsorted := hT.sorted _ _ hes
    have hnil : FlatTree.remove (n::p) (view T lookup pre es) []=none := by
      rw [remove_above (by simp)]
      rfl
    cases p with
    | nil =>
      obtain ⟨_,hedit,hup⟩ := removed_entries hsorted hn hash
      rw [editPath_stop hn.1 hes hedit] at hrun
      cases hrun
      refine .here hT hpre hn hes hup (by simp) (fun q => ?_) (fun m q hmn => remove_cons_of_ne hmn) hnil
      rw [remove_cons]
      rfl
    | cons m p =>
      have hedit := removing_entries hsorted hn hash
      cases hfind : (findName es n).filter (fun e => e.mode.isTree) with
      | none =>
        simp only [hfind] at hedit
        rw [editPath_stop hn.1 hes hedit] at hrun
        cases hrun
        have hsame : update T (join pre) (some es)=T := by rw [← hes,update_eq_self]
        simp only [hsame]
        -- there is no directory at the name, so there is nothing below it
        have hbelow : ∀ q,ValidPath q → q≠[] → view T lookup pre es (n::q)=none := by
          intro q hq hqne
          rw [view_subtreeAt hT hpre hn hq hqne]
          simp [subtreeAt,hfind,view_empty]
        have hat : (view T lookup pre es [n]).any (fun x => x.1.isTree)=false := by
          cases hx : view T lookup pre es [n] with
          | none => rfl
          | some x =>
            obtain ⟨e,he,hmode⟩ := view_mode hx
            rw [he,filter_eq_none_iff] at hfind
            simpa [hmode] using hfind e rfl
        refine ⟨hT,fun _ _ => rfl,es,hes,fun q hq => ?_⟩
        cases q with
        | nil => exact hnil.symm
        | cons m' q =>
          by_cases hmn : m'=n
          · subst hmn
            rw [remove_cons]
            cases q with
            | nil => rw [remove_above (by simp),hat,if_neg (by simp)]
            | cons m' q =>
              have hq := (validPath_cons.mp hq).2
              simp [FlatTree.remove,hbelow _ hq (by simp)]
          · rw [remove_cons_of_ne hmn]
      | some e =>
        simp only [hfind] at hedit
        obtain ⟨he,ht⟩ := filter_eq_some_iff.mp hfind
        obtain ⟨_,hsub,hT2,hrest⟩ := entered hload hT hpre hn hes (by simp) hsorted hedit
          (by simp [subtreeAt,hfind]) hrun
        refine .descend hT hpre hn he ht (fun _ _ => rfl) hsub (F := FlatTree.remove (m::p)) ?_ ?_
          (fun m q hmn => remove_cons_of_ne hmn) hnil
          (ih (by simp) hT2 hpre' hp (update_self _ _ _) hrest)
        · intro M M' q hq
          simp [FlatTree.remove,hq]
        · intro q
          rw [remove_cons]
          split
          · rename_i hq
            rw [hq,remove_above (by simp)]
            cases hx : view T lookup pre es [n] with
            | none => rfl
            | some x =>
              obtain ⟨_,he',hmode⟩ := view_mode hx
              cases he.symm.trans he'
              simp [hmode,ht]
          · rfl

end

end Gix.TreeEditor
