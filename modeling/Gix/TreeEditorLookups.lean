import Gix.TreeEditorResult

/-! # Sorted trees and lookups that succeed

Whatever edits are tried, the kept trees stay well formed, and writing them finds every tree where
its parent has it. -/
namespace Gix.TreeEditor
open Gix.Tree Fallible FlatTree SortedSearch List Function

variable {Id O E : Type} (hash : Hash Id) {find : Find Id} {T : Trees Id} {s : Editor Id}
  {n : BString} {es : List (Entry Id)} {pre p : List BString}

/-- The computation comes to an end, in a state with a property. -/
def Ending (P : Editor Id → Prop) (x : Option (Except Error Unit × Editor Id)) : Prop := ∃ r s, x = some (r,s) ∧ P s

theorem editEntries_sorted (hes : SortedTree es) (hn : ValidName n)
    (kindAndId : Option (EntryKind × Id × UpsertMode)) (isLast : Bool) :
    ∃ es1 next,editEntries hash kindAndId n isLast es=some (es1,next) ∧ SortedTree es1 := by
  rcases kindAndId with - | ⟨kind,id,mode⟩
  · cases isLast with
    | true =>
      obtain ⟨es1,hedit,hup⟩ := removed_entries hes hn hash
      exact ⟨es1,_,hedit,hup.sorted⟩
    | false => exact ⟨es,_,removing_entries hes hn hash,hes⟩
  · cases isLast with
    | true =>
      obtain ⟨es1,hedit,hup⟩ := upserted_entries hes hn hash kind id mode
      exact ⟨es1,_,hedit,hup.sorted⟩
    | false =>
      have hedit := upserting_entries hes hn hash kind id mode
      split at hedit
      · exact ⟨es,_,hedit,hes⟩
      · obtain ⟨es1,hedit,hup⟩ := hedit
        exact ⟨es1,_,hedit,hup.sorted⟩

variable [DecidableEq Id] (hfind : ∀ id t,find id = some t → SortedTree t)
include hfind

theorem editPath_kept (pre : List BString) (kindAndId : Option (EntryKind × Id × UpsertMode)) (hT : Kept T) (hpre : ValidPath pre)
    (hp : ValidPath p) (hes : T (join pre)=some es) :
    Ending (fun s => Kept s.trees) (editPath hash kindAndId find p ⟨T,join pre⟩) := by
  induction p generalizing pre T es with
  | nil => exact ⟨_,_,rfl,hT⟩
  | cons n p ih =>
    obtain ⟨hn,hp⟩ := validPath_cons.mp hp
    obtain ⟨es1,next,hedit,hsorted⟩ := editEntries_sorted hash (hT.sorted _ _ hes) hn kindAndId p.isEmpty
    have hT1 := hT.replace hes hpre hsorted
    cases next with
    | stop => exact ⟨_,_,editPath_stop hn.1 hes hedit,hT1⟩
    | descend treeToLookup =>
      by_cases hlast : (p.isEmpty && kindAndId.any (fun k => k.2.2 = .normal))=true
      · exact ⟨.ok (),⟨update T (join pre) (some es1),join pre⟩,by simp [editPath,Bind.bind,hn.1,hes,hedit,hlast],hT1⟩
      · rw [editPath_enter hn.1 hes hedit (by simpa using hlast)]
        rcases enterTree_cases hash find treeToLookup ⟨update T (join pre) (some es1),join (pre++[n])⟩ with
          ⟨err,hrun⟩ | ⟨sub,hrun,hsub⟩
        · exact ⟨.error err,⟨update T (join pre) (some es1),join (pre++[n])⟩,by simp [Bind.bind,hrun],hT1⟩
        · have hsorted' : SortedTree sub := by
            rcases hsub with hsub | ⟨-,hsub⟩
            · exact hT1.sorted _ _ hsub
            · split at hsub
              · exact hsub ▸ sortedTree_nil
              · exact hfind _ _ hsub
          rw [bind_ok hrun]
          exact ih _ (hT.entering hes hpre hn hsorted hsorted') (validPath_concat.mpr ⟨hpre,hn⟩) hp (update_self _ _ _)

theorem apply_kept (hT : Kept s.trees) {op : Op Id} (hpath : ValidPath op.path) :
    Ending (fun s => Kept s.trees) (apply hash find op s) := by
  obtain ⟨_,hes⟩ := Option.ne_none_iff_exists'.mp hT.root
  have hrun := fun kindAndId => editPath_kept hash hfind [] kindAndId hT (by simp [ValidPath]) hpath hes
  cases op with
  | upsert path kind id =>
    obtain ⟨r,s',hrun,hs'⟩ := hrun (some (kind,id,.normal))
    exact ⟨r,s',(upsertOrRemove_eq hes).trans hrun,hs'⟩
  | remove path =>
    obtain ⟨r,s',hrun,hs'⟩ := hrun none
    exact ⟨r,s',(upsertOrRemove_eq hes).trans hrun,hs'⟩

omit hfind

/-- A sequence of edits, some of which may fail. -/
def attempt (hash : Hash Id) (find : Find Id) : List (Op Id) → Editor Id → Option (Editor Id)
  | [], s => some s
  | op :: ops, s => (apply hash find op s).bind (fun r => attempt hash find ops r.2)

include hfind

theorem attempt_kept {ops : List (Op Id)} (hT : Kept s.trees) (hpaths : ∀ op∈ops,ValidPath op.path) :
    ∃ s',attempt hash find ops s=some s' ∧ Kept s'.trees := by
  induction ops generalizing s with
  | nil => exact ⟨s,rfl,hT⟩
  | cons op ops ih =>
    obtain ⟨_,_,hrun,hT1⟩ := apply_kept hash hfind hT (hpaths op mem_cons_self)
    obtain ⟨s',hrest,hT'⟩ := ih hT1 fun op hop => hpaths op (mem_cons_of_mem _ hop)
    exact ⟨s',by simp [attempt,hrun,hrest],hT'⟩

omit hfind

/-! The states of the loop that writes -/

variable {w w' : Writing Id O} {item : Item Id} {done : Done Id} {mode : WriteMode} {out : Out Id O E}

inductive Reaches (hash : Hash Id) (mode : WriteMode) (out : Out Id O E) (w : Writing Id O) : Writing Id O → Prop
  | start : Reaches hash mode out w w
  | step {w1 w2 w3 : Writing Id O} {item : Item Id} (h : Reaches hash mode out w w1) (hpop : popItem w1 = some (item,w2))
      (hrun : processItem hash mode out item w2 = some (none,w3)) : Reaches hash mode out w w3

/-- There is a next item, its parent has an entry for it, and the search finds that. -/
def LookupsSucceed (hash : Hash Id) (mode : WriteMode) (out : Out Id O E) (w : Writing Id O) : Prop :=
  ∃ item w1 r, popItem w = some (item,w1) ∧ processItem hash mode out item w1 = some r ∧
    ∀ idx, item.parentIdx = some idx → ∃ parent e i, w1.parents[idx]? = some parent ∧
      binarySearchBy (fun e => cmpEntryWithName e (filename item.relaPath) true) parent.tree = .ok i ∧
      parent.tree[i]? = some e ∧ e.mode.isTree = true ∧ item.relaPath = pushElement parent.relaPath e.filename

/-- What holds when an item was taken to be processed. -/
def Poised (T : Trees Id) (w : Writing Id O) : Prop :=
  ∃ item w1 done, popItem w = some (item,w1) ∧ Popped T done item w1 ∧
    (Waiting T w1.trees item ∨ ∃ es, Scanned T done w1.trees item es)

omit [DecidableEq Id] in
theorem WriteInvariant.poised (hT : Kept T) (h : WriteInvariant T done w) : Poised T w := by
  obtain ⟨item,w1,hpop,-,-,hpopped,hkind⟩ := h.pop hT
  refine ⟨item,w1,done,hpop,hpopped,?_⟩
  rcases hkind with ⟨hwaiting,-⟩ | ⟨es,-,hscanned,-⟩
  · exact .inl hwaiting
  · exact .inr ⟨es,hscanned⟩

theorem processItem_poised (mode : WriteMode) (out : Out Id O E) (hT : Kept T) (hpopped : Popped T done item w)
    (hkind : Waiting T w.trees item ∨ ∃ es,Scanned T done w.trees item es) :
    ∃ r w',processItem hash mode out item w=some (r,w') ∧ (r=none → Poised T w') := by
  by_cases hfound : (takeChildren w.parents.length item.relaPath item.tree w.trees).1=[]
  · cases hidx : item.parentIdx with
    | none =>
      simp only [processItem,hfound,hidx]
      simp only [hpopped.root.mp hidx]
      rcases out (item.tree.filter (fun e => e.oid≠hash.null)) w.out with ⟨_ | _,_⟩
      · exact ⟨_,_,rfl,by simp⟩
      · exact ⟨_,_,rfl,by simp⟩
    | some j =>
      obtain ⟨r,w',hrun,hr⟩ := processItem_child mode out hT hpopped hfound hidx
      refine ⟨r,w',hrun,?_⟩
      rintro rfl
      obtain ⟨-,_,hinv,-⟩ := hr
      exact hinv.poised hT
  · have hwaiting := hkind.resolve_right fun hs => hs.elim fun _ hscanned => hfound (hscanned.found hT _)
    have hempty : (takeChildren w.parents.length item.relaPath item.tree w.trees).1.isEmpty=false := by
      simpa using hfound
    simp only [processItem,hempty]
    exact ⟨_,_,rfl,fun _ => (hpopped.push hT hwaiting).poised hT⟩

theorem Reaches.poised (hT : Kept T) (hw : Poised T w) (h : Reaches hash mode out w w') : Poised T w' := by
  induction h with
  | start => exact hw
  | step h hpop hrun ih =>
    obtain ⟨_,_,_,hpop',hpopped,hkind⟩ := ih
    cases hpop.symm.trans hpop'
    obtain ⟨_,_,hrun',hnext⟩ := processItem_poised hash mode out hT hpopped hkind
    cases hrun.symm.trans hrun'
    exact hnext rfl

theorem Poised.lookupsSucceed (hT : Kept T) (h : Poised T w) : LookupsSucceed hash mode out w := by
  obtain ⟨item,w1,_,hpop,hpopped,hkind⟩ := h
  obtain ⟨_,_,hrun,-⟩ := processItem_poised hash mode out hT hpopped hkind
  refine ⟨item,w1,_,hpop,hrun,fun idx hidx => ?_⟩
  obtain ⟨parent,pre,e,_,hparent,htree,hsorted,ht,hname,-⟩ := hpopped.finish hT hidx
  have hsearch := search_tree hsorted rfl
  rw [ht,← filename_pushElement parent.relaPath (hsorted.names e (by simp)).2,← hname,← htree] at hsearch
  exact ⟨parent,e,pre.length,hparent,hsearch,by simp [htree],ht,hname⟩

/-- The loop of `write()` gets to a state. -/
def Visits (hash : Hash Id) (out : Out Id O E) (s : Editor Id) (o : O) (w : Writing Id O) : Prop :=
  ∃ root, s.trees [] = some root ∧ Reaches hash .normal out ⟨update s.trees [] none,[⟨none,[],root⟩],[],o⟩ w

/-- After any edits of paths with valid names the trees in memory are sorted with unique names, and
`write()` finds each of them where its parent has it. -/
theorem edits_sorted_lookups_succeed (hfind : ∀ id t, find id=some t → SortedTree t) {root : List (Entry Id)}
    (hroot : SortedTree root) {ops : List (Op Id)} (hpaths : ∀ op∈ops, ValidPath op.path) :
    ∃ s, attempt hash find ops (.new root)=some s ∧ (∀ path es, s.trees path=some es → SortedTree es) ∧
      ∀ (out : Out Id O E) o w, Visits hash out s o w → LookupsSucceed hash .normal out w := by
  obtain ⟨s,hrun,hT⟩ := attempt_kept hash hfind (kept_new hroot) hpaths
  refine ⟨s,hrun,hT.sorted,fun out o w ⟨es,hes,hreach⟩ => ?_⟩
  have hstart : Poised s.trees (⟨update s.trees [] none,[⟨none,[],es⟩],[],o⟩ : Writing Id O) :=
    ⟨⟨none,[],es⟩,⟨update s.trees [] none,[],[],o⟩,fun _ => none,rfl,popped_root hes o,.inl (waiting_root hes)⟩
  exact (hreach.poised hash hT hstart).lookupsSucceed hash hT

theorem edits_sorted_lookups_succeed_files :
    ∃ s, attempt ⟨0,1⟩ noTrees [.upsert [[97],[98]] .blob 100,.remove [[97]],.upsert [[97]] .link 101] (.new [])=some s ∧
      (∀ path es, s.trees path=some es → SortedTree es) ∧
      ∀ (out : Out ℕ ℕ Unit) o w, Visits ⟨0,1⟩ out s o w → LookupsSucceed ⟨0,1⟩ .normal out w :=
  edits_sorted_lookups_succeed ⟨0,1⟩ (by simp [noTrees]) sortedTree_nil (by decide)

end Gix.TreeEditor
