import Gix.TreeEditorWrite

/-! # Runs that write trees

The trees that are handed to the callback are logged with the ids it returned. Writing comes
to an end, and a root that was written is the flattened form of what the editor stands for
in every store that has what was logged. -/
namespace Gix.TreeEditor
open Gix.Tree FlatTree SortedSearch List Function Item

variable {Id O E : Type} {T : Trees Id} {done : Done Id} {log log' : Log Id} {hash : Hash Id}

/-- The callback, with a log of what it accepted. -/
def logged (out : Out Id O E) : Out Id (O × Log Id) E := fun tree o => match out tree o.1 with
  | (.ok id,o') => (.ok id,(o',o.2++[(tree,id)]))
  | (.error err,o') => (.error err,(o',o.2))

theorem logged_cases (out : Out Id O E) (tree : List (Entry Id)) (o : O × Log Id) :
    (∃ id o',logged out tree o=(.ok id,(o',o.2++[(tree,id)]))) ∨ ∃ err o',logged out tree o=(.error err,(o',o.2)) := by
  rcases h : out tree o.1 with ⟨err | id,o'⟩
  · exact .inr ⟨err,o',by simp [logged,h]⟩
  · exact .inl ⟨id,o',by simp [logged,h]⟩

variable {P : List BString} {trees : Trees Id} {item : Item Id} {es : List (Entry Id)} {keys : Finset BString}

/-- A tree whose subtrees were taken has none left in the map. -/
theorem Scanned.found (hT : Kept T) (h : Scanned T done trees item es) (i : ℕ) :
    (takeChildren i item.relaPath item.tree trees).1=[] := by
  have htree := h.tree ▸ sortedTree_settle _ (hT.sorted _ _ h.start) _
  rw [eq_nil_iff_forall_not_mem]
  intro c hc
  obtain ⟨_,he,ht,_,hsub,-⟩ := (mem_takeChildren htree.unique).mp hc
  rw [h.tree] at he
  obtain ⟨x,hx,hsettle⟩ := mem_filterMap.mp he
  obtain ⟨hname,hmode⟩ := settle_names hsettle
  have := h.taken x hx (hmode ▸ ht)
  rw [hname,this] at hsub
  simp at hsub

/-- The first item is the root, from a map in which nothing is taken yet. -/
theorem popped_root {O : Type} (hes : T []=some es) (o : O) :
    Popped T (fun _ => none) ⟨none,[],es⟩ (⟨Function.update T [] none,[],[],o⟩ : Writing Id O) := by
  refine ⟨⟨by simp,fun k hk _ => ?_,fun k hk => ?_,fun _ _ => rfl⟩,⟨by simp,by simp,by simp,by simp⟩,rfl,by simp,by simp⟩
  · exact update_of_ne (by simpa using hk) _ _
  · obtain rfl : k=[] := by simpa using hk
    exact ⟨by simp,by simp [hes]⟩

theorem waiting_root (hes : T []=some es) : Waiting T (Function.update T [] none) ⟨none,[],es⟩ := by
  refine ⟨hes,fun P r hr hP hne => update_of_ne ?_ _ _⟩
  have hPr := join_ne hr (validPath_append.mp hr).1 (by simpa using hne)
  rwa [← hP] at hPr

/-! Termination: a tree waits, becomes a parent, and is done -/

scoped instance lawfulPath : LawfulBEq BString := inferInstance

/-- The steps that a tree has before it. -/
def rank (done : Done Id) (parents : List (Item Id)) (k : BString) : ℕ :=
  if done k ≠ none then 0 else if k ∈ parents.map Item.relaPath then 1 else 2

def remaining (keys : Finset BString) (done : Done Id) (parents : List (Item Id)) : ℕ :=
  ∑ k ∈ keys, rank done parents k

section Remaining
variable {k : BString} {parents parents' : List (Item Id)}

theorem remaining_finish (hk : k∈keys) (hopen : done k=none) (x : Option Id)
    (hparents : ∀ k',k'≠k → k'∈parents.map relaPath → k'∈parents'.map relaPath) :
    remaining keys (Function.update done k (some x)) parents' < remaining keys done parents := by
  refine Finset.sum_lt_sum (fun k' _ => ?_) ⟨k,hk,?_⟩
  · by_cases hne : k'=k
    · simp [hne,rank]
    · simp only [rank]
      have := hparents k' hne
      split_ifs <;> simp_all
  · simp only [rank]
    split_ifs <;> simp_all

theorem remaining_push {item : Item Id} (hk : item.relaPath∈keys) (hopen : done item.relaPath=none)
    (hnot : item.relaPath∉parents.map relaPath) :
    remaining keys done (parents++[item]) < remaining keys done parents := by
  refine Finset.sum_lt_sum (fun k _ => ?_) ⟨item.relaPath,hk,?_⟩
  · simp only [rank]
    split_ifs <;> simp_all
  · simp [rank,hopen,hnot]

theorem remaining_le (keys : Finset BString) (done : Done Id) (parents : List (Item Id)) : remaining keys done parents ≤ 2*keys.card := by
  have hrank : ∀ k∈keys,rank done parents k ≤ 2 := by
    intro k _
    unfold rank
    split_ifs <;> omega
  exact (Finset.sum_le_card_nsmul _ _ _ hrank).trans_eq (Nat.mul_comm _ _)

end Remaining

variable [DecidableEq Id]

/-- What was logged has no null ids, and makes what is done right. -/
structure LogRight (hash : Hash Id) (T : Trees Id) (log : Log Id) (done : Done Id) : Prop where
  clean : ∀ t id, (t,id) ∈ log → ∀ e ∈ t, e.oid ≠ hash.null
  right : ∀ lookup, Compatible hash lookup log → DoneRight hash lookup T log done

theorem LogRight.finish (h : LogRight hash T log done) (hsub : ∀ x∈log,x∈log')
    (hclean : ∀ t id,(t,id)∈log' → ∀ e∈t,e.oid≠hash.null) {es t : List (Entry Id)}
    (hP : ValidPath P) (hes : T (join P)=some es)
    (hsettled : ∀ lookup,Compatible hash lookup log → Settled hash lookup T P es t) {r : Option Id}
    (hr : r=none ∧ t=[] ∨ ∃ id,r=some id ∧ t≠[] ∧ (t,id)∈log') :
    LogRight hash T log' (Function.update done (join P) (some r)) := by
  refine ⟨hclean,fun lookup hcompat => ?_⟩
  have hright := h.right lookup (hcompat.mono hsub)
  have hP' := hsettled lookup (hcompat.mono hsub)
  refine ⟨fun Q es' hQ hes' hdone => ?_,fun Q es' id hQ hes' hdone => ?_,fun k hk => ?_⟩
  · by_cases hPQ : P=Q
    · subst hPQ
      cases hes.symm.trans hes'
      rcases hr with ⟨-,rfl⟩ | ⟨id,rfl,-⟩
      · exact hP'
      · simp at hdone
    · rw [update_of_ne (join_ne hQ hP (Ne.symm hPQ))] at hdone
      exact hright.left Q es' hQ hes' hdone
  · by_cases hPQ : P=Q
    · subst hPQ
      cases hes.symm.trans hes'
      rcases hr with ⟨rfl,-⟩ | ⟨id',rfl,hne,hlog⟩
      · simp at hdone
      · obtain rfl : id'=id := by simpa using hdone
        exact ⟨t,hlog,hne,hP'⟩
    · rw [update_of_ne (join_ne hQ hP (Ne.symm hPQ))] at hdone
      obtain ⟨t,ht,hrest⟩ := hright.written Q es' id hQ hes' hdone
      exact ⟨t,hsub _ ht,hrest⟩
  · by_cases hkP : k=join P
    · simp [hkP,hes]
    · rw [update_of_ne hkP] at hk
      exact hright.kept k hk

/-- A tree without subtrees left is settled once null ids are dropped. -/
theorem Ready.settled (hT : Kept T) {item : Item Id} {es : List (Entry Id)} {i : ℕ}
    (hright : LogRight hash T log done) (h : Ready T done trees item es)
    (hfound : (takeChildren i item.relaPath item.tree trees).1=[]) (hP : ValidPath P)
    (hpath : item.relaPath=join P) (lookup : Id → Option (List (Entry Id))) (hcompat : Compatible hash lookup log) :
    Settled hash lookup T P es (item.tree.filter (fun e => e.oid≠hash.null)) := by
  have hes := hT.sorted _ _ h.start
  have htree := h.tree ▸ sortedTree_settle _ hes _
  rw [h.tree,hpath]
  refine TreeEditor.settled hcompat (hright.right lookup hcompat) hes hP fun e he ht hkept => ?_
  rw [join_append,← hpath] at hkept ⊢
  by_cases hnone : trees (pushElement item.relaPath e.filename)=none
  · exact h.done e he ht hnone hkept
  · -- an entry that is still there would have been found
    intro hopen
    obtain ⟨sub,hsub⟩ := Option.ne_none_iff_exists'.mp hnone
    have hmem : e∈item.tree := by
      rw [h.tree]
      exact mem_filterMap.mpr ⟨e,he,by simp [settle,hopen]⟩
    have hchild := (mem_takeChildren (i := i) htree.unique).mpr ⟨e,hmem,ht,sub,hsub,rfl⟩
    simp [hfound] at hchild

theorem filename_pushElement (p : BString) {n : BString} (hn : slash∉n) : filename (pushElement p n)=n := by
  rw [filename,rfindByte_pushElement p hn]
  cases p with
  | nil => simp [pushElement]
  | cons b p => simp [pushElement]

/-- The id of a written root is that of its flattened form. -/
def Written (hash : Hash Id) (T : Trees Id) (log : Log Id) (r : Except E Id) : Prop :=
  ∀ id, r = .ok id → ∃ es t, T [] = some es ∧ (t,id) ∈ log ∧ (∀ t id, (t,id) ∈ log → ∀ e ∈ t, e.oid ≠ hash.null) ∧
    ∀ lookup, Compatible hash lookup log → Settled hash lookup T [] es t

variable {mode : WriteMode} {out : Out Id O E} {w : Writing Id (O × Log Id)}

theorem clean_append (hclean : ∀ t id,(t,id)∈log → ∀ e∈t,e.oid≠hash.null) (tree : List (Entry Id)) (id : Id) :
    ∀ t id',(t,id')∈log++[(tree.filter (fun e => e.oid≠hash.null),id)] → ∀ e∈t,e.oid≠hash.null := by
  intro t id' ht e he
  rcases mem_append.mp ht with ht | ht
  · exact hclean t id' ht e he
  · simp only [mem_singleton,Prod.mk.injEq] at ht
    rw [ht.1] at he
    simpa using (mem_filter.mp he).2

/-- What a tree without subtrees left does to its parent, which has an entry for it. -/
theorem processItem_child {O : Type} {w : Writing Id O} {j : ℕ} (mode : WriteMode) (out : Out Id O E) (hT : Kept T)
    (hpop : Popped T done item w) (hfound : (takeChildren w.parents.length item.relaPath item.tree w.trees).1=[])
    (hidx : item.parentIdx=some j) :
    ∃ r w',processItem hash mode out item w=some (r,w') ∧ match r with
      | none => w'.parents.map relaPath=w.parents.map relaPath ∧
        ∃ x,WriteInvariant T (Function.update done item.relaPath (some x)) w' ∧ match x with
          | none => item.tree.filter (fun e => e.oid≠hash.null)=[] ∧ w'.out=w.out
          | some id => item.tree.filter (fun e => e.oid≠hash.null)≠[] ∧
              out (item.tree.filter (fun e => e.oid≠hash.null)) w.out=(.ok id,w'.out)
      | some r => ∃ err,r = .error err := by
  obtain ⟨parent,_,e,_,hparent,htree,hsorted,ht,hname,hfinish⟩ := hpop.finish hT hidx
  have hslash := (hsorted.names e (by simp)).2
  have hsearch := search_tree hsorted rfl
  rw [ht] at hsearch
  simp only [processItem,hfound,hidx]
  simp only [hparent,hname,filename_pushElement _ hslash,htree,hsearch]
  have hpaths : ∀ tree,(w.parents.set j {parent with tree := tree}).map relaPath=w.parents.map relaPath :=
    fun tree => paths_set hparent rfl
  by_cases hempty : item.tree.filter (fun e => e.oid≠hash.null)=[]
  · simp only [hempty]
    refine ⟨none,_,rfl,hpaths _,none,?_,trivial,rfl⟩
    have := hfinish none w.out
    simpa [hname,eraseIdx_append_of_length_le] using this
  · have hempty' : (item.tree.filter (fun e => e.oid≠hash.null)).isEmpty=false := by simpa using hempty
    simp only [hempty']
    rcases hout : out (item.tree.filter (fun e => e.oid≠hash.null)) w.out with ⟨err | id,o'⟩
    · obtain ⟨root,hroot⟩ : ∃ root,w.parents.head? = some root := by
        cases hw : w.parents with
        | nil => simp [hw] at hparent
        | cons root _ => exact ⟨root,rfl⟩
      simp only [hroot]
      exact ⟨_,_,rfl,err,rfl⟩
    · refine ⟨none,_,rfl,hpaths _,some id,?_,hempty,rfl⟩
      have := hfinish (some id) o'
      simpa [hname,modify_split] using this

theorem processItem_finish (mode : WriteMode) (out : Out Id O E) (hT : Kept T) (hpop : Popped T done item w) (hready : Ready T done w.trees item es)
    (hfound : (takeChildren w.parents.length item.relaPath item.tree w.trees).1=[])
    (hright : LogRight hash T w.out.2 done) :
    ∃ r w',processItem hash mode (logged out) item w=some (r,w') ∧
      match r with
      | none => w'.parents.map relaPath=w.parents.map relaPath ∧
        ∃ x,WriteInvariant T (Function.update done item.relaPath (some x)) w' ∧
          LogRight hash T w'.out.2 (Function.update done item.relaPath (some x))
      | some r => Written hash T w'.out.2 r := by
  obtain ⟨P,hP,hpath⟩ := hpop.progress.path hT mem_cons_self
  have hsettled := fun lookup hcompat => hready.settled hT hright hfound hP hpath lookup hcompat
  have hstart := hpath ▸ hready.start
  have hmore : ∀ x : List (Entry Id) × Id,∀ y∈w.out.2,y∈w.out.2++[x] := fun x y hy => mem_append_left _ hy
  have hlogged := logged_cases out (item.tree.filter (fun e => e.oid≠hash.null)) w.out
  cases hidx : item.parentIdx with
  | none =>
    have hroot := hpop.root.mp hidx
    have hlinked := hpop.linked
    simp only [Linked,hidx] at hlinked
    obtain rfl : P=[] := join_inj hP (by simp) (hpath.symm.trans hlinked)
    simp only [processItem,hfound,hidx]
    simp only [hroot]
    rcases hlogged with ⟨id,o',hout⟩ | ⟨err,o',hout⟩
    · rw [hout]
      refine ⟨_,_,rfl,fun id' hid => ?_⟩
      obtain rfl : id=id' := by simpa using hid
      exact ⟨es,_,hstart,mem_append_right _ (by simp),clean_append hright.clean _ _,
        fun lookup hcompat => hsettled lookup (hcompat.mono (hmore _))⟩
    · rw [hout]
      exact ⟨_,_,rfl,fun id hid => by simp at hid⟩
  | some j =>
    obtain ⟨r,w',hrun,hr⟩ := processItem_child mode (logged out) hT hpop hfound hidx
    refine ⟨r,w',hrun,?_⟩
    cases r with
    | some r =>
      obtain ⟨err,rfl⟩ := hr
      exact fun id hid => by simp at hid
    | none =>
      obtain ⟨hpaths,x,hinv,hx⟩ := hr
      refine ⟨hpaths,x,hinv,?_⟩
      rw [hpath]
      cases x with
      | none =>
        rw [hx.2]
        exact hright.finish (fun _ hx => hx) hright.clean hP hstart hsettled (.inl ⟨rfl,hx.1⟩)
      | some id =>
        rcases hlogged with ⟨id',o',hout⟩ | ⟨err,o',hout⟩
        · obtain ⟨⟨⟩,hlog⟩ := Prod.mk.inj (hout.symm.trans hx.2)
          rw [← hlog]
          exact hright.finish (hmore _) (clean_append hright.clean _ _) hP hstart hsettled (.inr ⟨id,rfl,hx.1,by simp⟩)
        · cases hout.symm.trans hx.2

section Loop
variable {w1 : Writing Id (O × Log Id)} {fuel : ℕ}

/-- The loop ends, and a root that it wrote is right. -/
def Ends (hash : Hash Id) (T : Trees Id) (mode : WriteMode) (out : Out Id O E) (fuel : ℕ)
    (w : Writing Id (O × Log Id)) : Prop :=
  ∃ r w', writeLoop hash mode (logged out) fuel w = some (r,w') ∧ Written hash T w'.out.2 r

section
variable (hT : Kept T) (hpop : popItem w=some (item,w1)) (hpopped : Popped T done item w1)
include hT hpop hpopped

theorem ends_finish
    (hready : Ready T done w1.trees item es)
    (hfound : (takeChildren w1.parents.length item.relaPath item.tree w1.trees).1=[])
    (hright : LogRight hash T w1.out.2 done)
    (hnext : ∀ x w2,w2.parents.map relaPath=w1.parents.map relaPath →
      WriteInvariant T (Function.update done item.relaPath (some x)) w2 →
      LogRight hash T w2.out.2 (Function.update done item.relaPath (some x)) → Ends hash T mode out fuel w2) :
    Ends hash T mode out (fuel+1) w := by
  obtain ⟨r,w2,hprocess,hr⟩ := processItem_finish mode out hT hpopped hready hfound hright
  simp only [Ends,writeLoop,hpop,hprocess]
  cases r with
  | some r => exact ⟨r,w2,rfl,hr⟩
  | none =>
    obtain ⟨hpaths,x,hinv,hright⟩ := hr
    exact hnext x w2 hpaths hinv hright

theorem ends_push
    (hwaiting : Waiting T w1.trees item)
    (hfound : (takeChildren w1.parents.length item.relaPath item.tree w1.trees).1≠[])
    (hnext : ∀ w2,w2.parents=w1.parents++[item] → w2.out=w1.out → WriteInvariant T done w2 →
      Ends hash T mode out fuel w2) : Ends hash T mode out (fuel+1) w := by
  have hempty : (takeChildren w1.parents.length item.relaPath item.tree w1.trees).1.isEmpty=false := by
    simpa using hfound
  simp only [Ends,writeLoop,hpop,processItem,hempty]
  exact hnext _ rfl rfl (hpopped.push hT hwaiting)

end

theorem writeLoop_ends (hT : Kept T) (hkeys : ∀ k,T k≠none → k∈keys) (hinv : WriteInvariant T done w)
    (hright : LogRight hash T w.out.2 done) (hfuel : remaining keys done w.parents < fuel) :
    Ends hash T mode out fuel w := by
  induction fuel generalizing w done with
  | zero => simp at hfuel
  | succ fuel ih =>
    obtain ⟨item,w1,hpop,_,hlog,hpopped,hkind⟩ := hinv.pop hT
    rw [← hlog] at hright
    have hkey : item.relaPath∈keys := hkeys _ (hpopped.progress.taken _ (.inl (by simp))).2
    have hopen : done item.relaPath=none := hpopped.progress.waits _ (by simp)
    have hfinish : ∀ es,Ready T done w1.trees item es →
        (takeChildren w1.parents.length item.relaPath item.tree w1.trees).1=[] →
        (∀ k,k≠item.relaPath → k∈w.parents.map relaPath → k∈w1.parents.map relaPath) →
        Ends hash T mode out (fuel+1) w := by
      intro es hready hfound hparents
      refine ends_finish hT hpop hpopped hready hfound hright fun x w2 hpaths hinv2 hright2 => ?_
      have hless := remaining_finish hkey hopen x (hpaths ▸ hparents)
      exact ih hinv2 hright2 (by omega)
    rcases hkind with ⟨hwaiting,hparents⟩ | ⟨es,hready,hscanned,hparents⟩
    · by_cases hfound : (takeChildren w1.parents.length item.relaPath item.tree w1.trees).1=[]
      · exact hfinish _ (hwaiting.ready hT hpopped.progress mem_cons_self) hfound (fun k _ hk => hparents ▸ hk)
      · have hnot : item.relaPath∉w.parents.map relaPath := by
          intro hmem
          refine (nodup_cons.mp hpopped.progress.nodup).1 ?_
          rw [map_append,hparents]
          exact mem_append_right _ hmem
        have hless := remaining_push hkey hopen hnot
        refine ends_push hT hpop hpopped hwaiting hfound fun w2 hparents2 hout hinv2 => ?_
        exact ih hinv2 (hout ▸ hright) (by rw [hparents2,hparents]; omega)
    · refine hfinish es hready (hscanned.found hT _) fun k hk hmem => ?_
      simpa [hparents,hk] using hmem

end Loop

/-- Writing an editor ends, and the id it returns is that of the flattened form of what the
editor stands for. -/
theorem write_written (hash : Hash Id) (out : Out Id O E) {s : Editor Id} (hT : Kept s.trees) {keys : Finset BString}
    (hkeys : ∀ k,s.trees k≠none → k∈keys) {fuel : ℕ} (hfuel : 2*keys.card+1 < fuel) (o : O) :
    ∃ r s' o',write hash (logged out) fuel s (o,[])=some (r,s',o') ∧ Written hash s.trees o'.2 r := by
  obtain ⟨es,hes⟩ := Option.ne_none_iff_exists'.mp hT.root
  obtain ⟨fuel,rfl⟩ : ∃ n,fuel=n+1 := ⟨fuel-1,by omega⟩
  have hpopped := popped_root hes (o,([] : Log Id))
  have hwaiting := waiting_root hes
  have hright : LogRight hash s.trees [] (fun _ => none) :=
    ⟨by simp,fun _ _ => ⟨by simp,by simp,by simp⟩⟩
  have hends : Ends hash s.trees .normal out (fuel+1)
      ⟨update s.trees [] none,[⟨none,[],es⟩],[],(o,[])⟩ := by
    by_cases hfound : (takeChildren 0 [] es (update s.trees [] none)).1=[]
    · refine ends_finish hT rfl hpopped (hwaiting.ready hT hpopped.progress mem_cons_self) hfound hright
        fun x w2 hpaths hinv _ => ?_
      exact absurd (map_eq_nil_iff.mp hpaths) hinv.nonempty
    · refine ends_push hT rfl hpopped hwaiting hfound fun w2 _ hout hinv => ?_
      have hle := remaining_le keys (fun _ => none) w2.parents
      exact writeLoop_ends hT hkeys hinv (hout ▸ hright) (by omega)
  obtain ⟨r,w',hrun,hwritten⟩ := hends
  exact ⟨r,⟨w'.trees,[]⟩,w'.out,by simp [write,writeAtPathbuf,hes,hrun],hwritten⟩

end Gix.TreeEditor
