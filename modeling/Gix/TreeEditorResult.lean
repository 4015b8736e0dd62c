import Gix.TreeEditorWriteRuns

/-! # The editor as a map of paths

A run of edits followed by a write makes of the flattened root what the operations say. Kept
trees are not dropped when their entry is removed or overwritten, so this takes a condition
on every step: where it creates a directory, nothing of an earlier one may be kept. -/
namespace Gix.TreeEditor
open Gix.Tree Fallible FlatTree List

variable {Id O E : Type} [DecidableEq Id]

section Model
variable (hash : Hash Id) (find : Find Id)

def apply : Op Id → Edit Id Unit
  | .upsert path kind id => upsert hash find path kind id
  | .remove path => remove hash find path

def edit : List (Op Id) → Edit Id Unit
  | [] => pure ()
  | op :: ops => do
    apply hash find op
    edit ops

/-- The condition on a step, in terms of the editor before it. -/
def Meets (s : Editor Id) : Op Id → Prop
  | .upsert path kind _ => Fresh s.trees [] ((s.trees []).getD []) path kind
  | .remove path => path ≠ []

/-- All steps of a sequence of edits meet the condition. -/
def StepsMeet : List (Op Id) → Editor Id → Prop
  | [], _ => True
  | op :: ops, s => Meets s op ∧ ∀ s', apply hash find op s = some (.ok (),s') → StepsMeet ops s'

/-- The database has trees in git's order; the null id names nothing, and nothing has it. -/
structure Database : Prop where
  sorted : ∀ id t, find id = some t → SortedTree t
  clean : ∀ id t, find id = some t → ∀ e ∈ t, e.oid ≠ hash.null
  null : find hash.null = none
  empty : ∀ t, find hash.emptyTree = some t → t = []

/-- The ids of the callback stand for one tree each, also among those of the database. -/
structure Consistent (log : Log Id) : Prop where
  unique : ∀ t t' id, (t,id) ∈ log → (t',id) ∈ log → t = t'
  found : ∀ t t' id, (t,id) ∈ log → find id = some t' → t = t'
  nonnull : ∀ t id, (t,id) ∈ log → id ≠ hash.null
  empty : ∀ t, (t,hash.emptyTree) ∈ log → t = []

/-- The trees that were handed to the callback, and those of the database. -/
def store (log : Log Id) : Id → Option (List (Entry Id)) := fun id =>
  ((log.find? (fun x => x.2 = id)).map Prod.fst) <|> find id

/-- What is written after a sequence of edits is the flattened root with the same operations
applied, null ids dropped. -/
def FlatSemantics (out : Out Id O E) (root : List (Entry Id)) (ops : List (Op Id)) : Prop :=
  ∀ s, edit hash find ops (.new root) = some (.ok (),s) → ∀ o, ∃ bound, ∀ fuel, bound < fuel →
    ∃ r s' o' log, write hash (logged out) fuel s (o,[]) = some (r,s',(o',log)) ∧
      ∀ id, r = .ok id → Consistent hash find log → ∃ t, store find log id = some t ∧
        ∀ P, ValidPath P → flat (store find log) t P =
          dropNull hash.null (ops.foldl (fun M op => op.apply (store find log) M) (flat (store find log) root)) P

end Model

variable {hash : Hash Id} {find : Find Id} {lookup : Id → Option (List (Entry Id))} {s s' : Editor Id}
  {es : List (Entry Id)} {op : Op Id} {ops : List (Op Id)} {log : Log Id} {t : List (Entry Id)} {id : Id}

/-! One edit -/

theorem upsertOrRemove_eq {kindAndId : Option (EntryKind × Id × UpsertMode)} {path : List BString}
    (hes : s.trees s.pathBuf=some es) :
    upsertOrRemoveAtPathbuf hash kindAndId find path s=editPath hash kindAndId find path s := by
  simp [upsertOrRemoveAtPathbuf,Bind.bind,hes]

/-! Sequences of edits -/

section
omit [DecidableEq Id]

variable {q : List BString}

/-- What an operation makes of a map at a path depends on what is at the path. -/
theorem op_apply_congr {M M' : FlatMap Id} (h : M q=M' q) :
    op.apply lookup M q=op.apply lookup M' q := by
  cases op with
  | upsert path kind id => simp only [Op.apply,FlatTree.upsert,h]
  | remove path => simp [Op.apply,FlatTree.remove,h]

theorem foldl_apply_congr {M M' : FlatMap Id} (h : M q=M' q) :
    ops.foldl (fun M op => op.apply lookup M) M q=ops.foldl (fun M op => op.apply lookup M) M' q := by
  induction ops generalizing M M' with
  | nil => exact h
  | cons op ops ih => exact ih (op_apply_congr h)

theorem kept_new {root : List (Entry Id)} (hroot : SortedTree root) : Kept (Editor.new root).trees := by
  have hkey : ∀ k,(Editor.new root).trees k≠none → k=[] := by
    intro k hk
    by_contra hne
    exact hk (if_neg hne)
  refine ⟨by simp [Editor.new],fun k hk => ⟨[],by simp [ValidPath],hkey k hk⟩,fun P n hP hk => ?_,fun k es hk => ?_,
    {[]},fun k hk => Finset.mem_singleton.mpr (hkey k hk)⟩
  · have hne := pushElement_ne_nil (join P) (validPath_concat.mp hP).2.1
    exact absurd (hkey _ hk) (join_append P n ▸ hne)
  · obtain rfl := hkey k (by simp [hk])
    obtain rfl : root=es := by simpa [Editor.new] using hk
    exact hroot

theorem Consistent.nil : Consistent hash find [] := ⟨by simp,by simp,by simp,by simp⟩

end

theorem edit_view (hload : Loads hash find lookup) (hT : Kept s.trees) (hes : s.trees []=some es)
    (hpaths : ∀ op∈ops,ValidPath op.path) (hsteps : StepsMeet hash find ops s)
    (hrun : edit hash find ops s=some (.ok (),s')) :
    Kept s'.trees ∧ ∃ es',s'.trees []=some es' ∧ ∀ q,ValidPath q →
      view s'.trees lookup [] es' q=ops.foldl (fun M op => op.apply lookup M) (view s.trees lookup [] es) q := by
  induction ops generalizing s es with
  | nil =>
    cases hrun
    exact ⟨hT,es,hes,fun _ _ => rfl⟩
  | cons op ops ih =>
    obtain ⟨hmeets,hrest⟩ := hsteps
    obtain ⟨_,s1,hrun1,hrun2⟩ := of_bind_ok hrun
    have hedited : Edited lookup (op.apply lookup) [] s.trees es s1.trees := by
      have hnil : ValidPath [] := by simp [ValidPath]
      have hpath := hpaths op (by simp)
      cases op with
      | upsert path kind id =>
        rw [Meets,hes] at hmeets
        exact editPath_upsert hload hT hnil hpath hes hmeets ((upsertOrRemove_eq hes).symm.trans hrun1)
      | remove path => exact editPath_remove hload hmeets hT hnil hpath hes ((upsertOrRemove_eq hes).symm.trans hrun1)
    obtain ⟨_,hes1,hview1⟩ := hedited.view
    obtain ⟨hT',es',hes',hview⟩ := ih hedited.kept hes1 (fun op hop => hpaths op (by simp [hop])) (hrest s1 hrun1) hrun2
    refine ⟨hT',es',hes',fun q hq => ?_⟩
    rw [hview q hq]
    exact foldl_apply_congr (hview1 q hq)

/-! The store -/

theorem store_logged (hlog : Consistent hash find log) (h : (t,id)∈log) :
    store find log id=some t := by
  cases hfind : log.find? (fun x => x.2=id) with
  | none => simpa using find?_eq_none.mp hfind (t,id) h
  | some x =>
    have hid : x.2=id := by simpa using find?_some hfind
    have hmem : (x.1,id)∈log := hid ▸ mem_of_find?_eq_some hfind
    simp [store,hfind,hlog.unique _ _ _ hmem h]

theorem store_cases (h : store find log id=some t) :
    (t,id)∈log ∨ find id=some t := by
  cases hfind : log.find? (fun x => x.2=id) with
  | none => exact .inr (by simpa [store,hfind] using h)
  | some x =>
    have hid : x.2=id := by simpa using find?_some hfind
    obtain rfl : x.1=t := by simpa [store,hfind] using h
    exact .inl (hid ▸ mem_of_find?_eq_some hfind)

theorem store_loads (hdb : Database hash find) (hlog : Consistent hash find log) : Loads hash find (store find log) := by
  refine ⟨fun id t ht => ?_,hdb.sorted,?_⟩
  · cases hfind : log.find? (fun x => x.2=id) with
    | none => simpa [store,hfind] using ht
    | some x =>
      have hid : x.2=id := by simpa using find?_some hfind
      have hmem : (x.1,id)∈log := hid ▸ mem_of_find?_eq_some hfind
      simp [store,hfind,hlog.found _ _ _ hmem ht]
  · cases hstore : store find log hash.emptyTree with
    | none => simp [content,hstore]
    | some t =>
      rw [content,hstore]
      exact (store_cases hstore).elim (hlog.empty t) (hdb.empty t)

theorem store_compatible (hdb : Database hash find) (hlog : Consistent hash find log)
    (hclean : ∀ t id,(t,id)∈log → ∀ e∈t,e.oid≠hash.null) : Compatible hash (store find log) log := by
  refine ⟨fun t id h => store_logged hlog h,hlog.nonnull,fun id t h => ?_,?_⟩
  · exact (store_cases h).elim (hclean t id) (hdb.clean id t)
  · cases hstore : store find log hash.null with
    | none => simp [content,hstore]
    | some t =>
      rcases store_cases hstore with h | h
      · exact absurd rfl (hlog.nonnull t _ h)
      · simp [hdb.null] at h

/-- The editor implements the operations on maps of paths, as long as no step finds kept what
an earlier step has removed. -/
theorem edit_flat_semantics (out : Out Id O E) {root : List (Entry Id)} (hdb : Database hash find)
    (hroot : SortedTree root) (hpaths : ∀ op ∈ ops, ValidPath op.path)
    (hsteps : StepsMeet hash find ops (.new root)) : FlatSemantics hash find out root ops := by
  intro s hrun o
  have hnew := kept_new hroot
  have hT : Kept s.trees := (edit_view (store_loads hdb .nil) hnew rfl hpaths hsteps hrun).1
  obtain ⟨keys,hkeys⟩ := hT.finite
  refine ⟨2*keys.card+1,fun fuel hfuel => ?_⟩
  obtain ⟨r,s',⟨o',log⟩,hwrite,hwritten⟩ := write_written hash out hT hkeys hfuel o
  refine ⟨r,s',o',log,hwrite,fun id hid hlog => ?_⟩
  obtain ⟨_,t,hes,ht,hclean,hsettled⟩ := hwritten id hid
  have hcompat := store_compatible hdb hlog hclean
  refine ⟨t,store_logged hlog ht,fun P hP => ?_⟩
  obtain ⟨-,_,hes',hview⟩ := edit_view (store_loads hdb hlog) hnew rfl hpaths hsteps hrun
  cases hes.symm.trans hes'
  rw [(hsettled _ hcompat).flat P hP,dropNull,hview P hP]
  congr 1
  refine foldl_apply_congr (view_below (by simp [ValidPath]) hP fun r hr _ => ?_)
  have hne : join r≠[] := join_ne (by simpa using ‹ValidPath ([]++r)›) (by simp [ValidPath]) hr
  exact if_neg hne

def counting : Out ℕ ℕ Unit := fun _ n => (.ok n,n+1)

def noTrees : Find ℕ := fun _ => none

theorem noTrees_database : Database ⟨0,1⟩ noTrees := ⟨by simp [noTrees],by simp [noTrees],rfl,by simp [noTrees]⟩

theorem edit_flat_semantics_files :
    (∃ s, edit ⟨0,1⟩ noTrees [.upsert [[97],[98]] .blob 100,.upsert [[97],[99]] .blob 101,.remove [[97],[98]]]
      (.new []) = some (.ok (),s)) ∧
    FlatSemantics ⟨0,1⟩ noTrees counting []
      [.upsert [[97],[98]] .blob 100,.upsert [[97],[99]] .blob 101,.remove [[97],[98]]] := by
  refine ⟨⟨_,rfl⟩,edit_flat_semantics counting noTrees_database sortedTree_nil (by decide) ?_⟩
  refine ⟨⟨fun _ => rfl,trivial⟩,fun s1 h1 => ?_⟩
  obtain rfl := (Prod.mk.inj (Option.some.inj h1)).2
  refine ⟨⟨fun h => absurd h (by decide),fun h => by cases h⟩,fun s2 h2 => ?_⟩
  exact ⟨cons_ne_nil _ _,fun _ _ => trivial⟩

/-- A directory with the file `b` is removed and created again with the file `c`. -/
def recreate : List (Op ℕ) := [.upsert [[97],[98]] .blob 100,.remove [[97]],.upsert [[97],[99]] .blob 101]

/-- The trees that are written for it: both files are in the directory. -/
def recreated : Log ℕ :=
  [([⟨EntryKind.blob.mode,[98],100⟩,⟨EntryKind.blob.mode,[99],101⟩],2),([⟨EntryKind.tree.mode,[97],2⟩],3)]

theorem recreate_run : ∃ s,edit ⟨0,1⟩ noTrees recreate (.new [])=some (.ok (),s) ∧
    ∀ n,∃ s',write ⟨0,1⟩ (logged counting) (n+10) s (2,[])=some (.ok 3,s',(4,recreated)) :=
  ⟨_,rfl,fun _ => ⟨_,rfl⟩⟩

theorem recreated_consistent : Consistent ⟨0,1⟩ noTrees recreated := by
  have hmem : ∀ t id,(t,id)∈recreated → id=2 ∧ t=recreated[0].1 ∨ id=3 ∧ t=recreated[1].1 := by
    intro t id h
    simpa [recreated,and_comm] using h
  refine ⟨fun t t' id h h' => ?_,by simp [noTrees],fun t id h => ?_,fun t h => ?_⟩
  · rcases hmem t id h with ⟨rfl,rfl⟩ | ⟨rfl,rfl⟩ <;> simpa [eq_comm] using hmem t' _ h'
  · rcases hmem t id h with ⟨rfl,-⟩ | ⟨rfl,-⟩ <;> decide
  · simpa using hmem t 1 h

theorem removed_file_written : Database ⟨0,1⟩ noTrees ∧ (∀ op ∈ recreate, ValidPath op.path) ∧
    ¬ FlatSemantics ⟨0,1⟩ noTrees counting [] recreate := by
  refine ⟨noTrees_database,by decide,fun h => ?_⟩
  obtain ⟨s,hedit,hrun⟩ := recreate_run
  obtain ⟨bound,h⟩ := h s hedit 2
  obtain ⟨_,_,_,_,hwrite,h⟩ := h (bound+10) (by omega)
  obtain ⟨_,hrun⟩ := hrun bound
  simp only [hrun] at hwrite
  obtain ⟨rfl,-,-,rfl⟩ := hwrite
  obtain ⟨_,ht,hflat⟩ := h 3 rfl recreated_consistent
  cases ht
  exact absurd (hflat [[97],[98]] (by decide)) (by decide)

end Gix.TreeEditor
