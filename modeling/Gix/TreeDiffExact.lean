import Gix.TreeDiffRecorder

/-! # The changes between two trees, path by path

Comparing one level accounts for the changes at its own names; what lies below them is the
difference of the pairs of subtrees that it queues. -/
namespace Gix.TreeDiff
open Gix.Tree SortedMerge List Entry

variable {Id : Type}

def entriesOf (it : TreeRefIter Id) : List (Entry Id) :=
  it.filterMap (fun | .ok e => some e | .error _ => none)

@[simp] theorem entriesOf_ok (es : List (Entry Id)) : entriesOf (ok es)=es := by
  simp [entriesOf,ok,filterMap_map]

/-- The entry at a path of a tree whose subtrees are in the object database. -/
def resolve (objects : Find Id) : List (Entry Id) → List BString → Option (EntryMode × Id)
  | _, [] => none
  | es, [n] => (findName es n).map (fun e => (e.mode,e.oid))
  | es, n :: m :: rest => (findName es n).bind (fun e =>
      if e.mode.isTree then match objects e.oid with
        | .ok it => resolve objects (entriesOf it) (m :: rest)
        | .error _ => none
      else none)

variable {sides : List (Side (Entry Id))} {l r : List (Entry Id)} {n : BString}

/-- The elements of the merge with one name, by what both sides have under it. -/
theorem sides_named (hl : SortedTree l) (hr : SortedTree r) (hn : ValidName n) :
    ((merge key l r).filter (fun side => sideName side=n)).Perm
      (meet ((findName l n).filter (fun e => e.mode.isTree=false))
        ((findName r n).filter (fun e => e.mode.isTree=false))++
      meet ((findName l n).filter (fun e => e.mode.isTree=true))
        ((findName r n).filter (fun e => e.mode.isTree=true))) := by
  have hside : ∀ side∈merge key l r,∃ t : Bool,
      side.on key=(if t then sideName side++[slash] else sideName side) := by
    intro side hs
    rcases mem_merge hs with ⟨a,_,rfl⟩ | ⟨b,_,rfl⟩ | ⟨a,_,b,_,rfl,_⟩
    · exact ⟨a.mode.isTree,rfl⟩
    · exact ⟨b.mode.isTree,rfl⟩
    · exact ⟨a.mode.isTree,rfl⟩
  have hblob := merge_filter hl.key_sorted hr.key_sorted n
  have htree := merge_filter hl.key_sorted hr.key_sorted (n++[slash])
  have hb : ∀ {x : List (Entry Id)},SortedTree x → x.find? (fun e => e.key=n) =
      (findName x n).filter (fun e => e.mode.isTree=false) := fun hx => hx.find_key hn false
  have ht : ∀ {x : List (Entry Id)},SortedTree x → x.find? (fun e => e.key=n++[slash]) =
      (findName x n).filter (fun e => e.mode.isTree=true) := fun hx => hx.find_key hn true
  rw [hb hl,hb hr] at hblob
  rw [ht hl,ht hr] at htree
  rw [← hblob,← htree]
  have hsplit := filter_append_perm (fun side => side.on key=n)
    ((merge key l r).filter (fun side => sideName side=n))
  rw [filter_filter,filter_filter] at hsplit
  refine hsplit.symm.trans (List.Perm.of_eq ?_)
  congr 1
  · apply filter_congr
    intro side hs
    obtain ⟨t,ht⟩ := hside side hs
    have hv := (sideName_valid hl.names hr.names hs).2
    by_cases hk : side.on key=n
    · have := key_inj (t := false) hv hn.2 (by rw [← ht]; exact hk)
      simp [this.2]
    · simp [hk]
  · apply filter_congr
    intro side hs
    obtain ⟨t,ht⟩ := hside side hs
    have hv := (sideName_valid hl.names hr.names hs).2
    by_cases hk : side.on key=n++[slash]
    · have := key_inj (t := true) hv hn.2 (by rw [← ht]; exact hk)
      simp [hk,this.2]
    · simp only [hk]
      by_cases hname : sideName side=n
      · cases t with
        | false => simp [ht,hname]
        | true => simp [ht,hname] at hk
      · simp [hname]

def sideEntries (objects : Find Id) : Option Id → List (Entry Id)
  | none => []
  | some oid => match objects oid with
    | .ok it => entriesOf it
    | .error _ => []

theorem sideEntries_loads {objects : Find Id} {a : Option Id} (ha : Loads objects a l) :
    sideEntries objects a=l := by
  cases a with
  | none => exact ha.symm
  | some oid =>
    have ho : objects oid = .ok (ok l) := ha
    simp [sideEntries,ho]

theorem zip_children (P : List BString) (sides : List (Side (Entry Id))) :
    (childLabels P sides).zip (sides.flatMap sidePairs) =
      sides.flatMap (fun side => (sidePairs side).map (fun pair => (P++[sideName side],pair))) := by
  induction sides with
  | nil => rfl
  | cons side sides ih =>
    have hlen : ((sidePairs side).map (fun _ => P++[sideName side])).length=(sidePairs side).length := by simp
    have hz : ((sidePairs side).map (fun _ => P++[sideName side])).zip (sidePairs side) =
        (sidePairs side).map (fun pair => (P++[sideName side],pair)) := by
      induction sidePairs side with
      | nil => rfl
      | cons x xs ih => rw [map_cons,zip_cons_cons,map_cons,ih]
    simp only [childLabels,flatMap_cons] at ih ⊢
    rw [zip_append hlen,hz,ih]

theorem childLabels_valid {P : List BString} (hP : ∀ n∈P,ValidName n)
    (hs : ∀ side∈sides,ValidName (sideName side)) : ∀ Q∈childLabels P sides,∀ n∈Q,ValidName n := by
  intro Q hQ n hn
  obtain ⟨side,hside,hm⟩ := mem_flatMap.mp hQ
  obtain ⟨_,_,rfl⟩ := mem_map.mp hm
  rcases mem_append.mp hn with hn | hn
  · exact hP n hn
  · rw [mem_singleton.mp hn]
    exact hs side hside

variable [DecidableEq Id]

/-- The changes that lead from one entry to another. -/
def expected : Option (EntryMode × Id) → Option (EntryMode × Id) → List (Change Id)
  | none, none => []
  | some a, none => [.deletion a.1 a.2]
  | none, some b => [.addition b.1 b.2]
  | some a, some b =>
    if a.1.isTree = b.1.isTree then if a ≠ b then [.modification a.1 a.2 b.1 b.2] else []
    else [.deletion a.1 a.2,.addition b.1 b.2]

/-- The changes that are reported: the modes are not looked at where the ids agree. -/
def reported : Option (EntryMode × Id) → Option (EntryMode × Id) → List (Change Id)
  | none, none => []
  | some a, none => [.deletion a.1 a.2]
  | none, some b => [.addition b.1 b.2]
  | some a, some b =>
    if a.1.isTree = b.1.isTree then if a.2 ≠ b.2 then [.modification a.1 a.2 b.1 b.2] else []
    else [.deletion a.1 a.2,.addition b.1 b.2]

theorem changes_named (hl : SortedTree l) (hr : SortedTree r) (hn : ValidName n) :
    (((merge key l r).filter (fun side => sideName side=n)).flatMap sideChanges).Perm
      (reported ((findName l n).map (fun e => (e.mode,e.oid))) ((findName r n).map (fun e => (e.mode,e.oid)))) := by
  refine ((sides_named hl hr hn).flatMap_right sideChanges).trans ?_
  cases findName l n with
  | none =>
    cases findName r n with
    | none => simp [meet,reported]
    | some b => cases hb : b.mode.isTree <;> simp [meet,reported,sideChanges,Option.filter,hb]
  | some a =>
    cases findName r n with
    | none => cases ha : a.mode.isTree <;> simp [meet,reported,sideChanges,Option.filter,ha]
    | some b =>
      cases ha : a.mode.isTree <;> cases hb : b.mode.isTree <;>
        simp [meet,reported,sideChanges,Option.filter,ha,hb]
      exact .swap _ _ _

/-- Below a name that queues a pair of subtrees the changes are those of the subtrees. -/
theorem children_named (objects : Find Id) (hl : SortedTree l) (hr : SortedTree r) (hn : ValidName n)
    (m : BString) (q : List BString) :
    (((merge key l r).filter (fun side => sideName side=n)).flatMap (fun side =>
      (sidePairs side).flatMap (fun pair => reported (resolve objects (sideEntries objects pair.1) (m::q))
        (resolve objects (sideEntries objects pair.2) (m::q))))).Perm
      (reported (resolve objects l (n::m::q)) (resolve objects r (n::m::q))) := by
  have hres : ∀ (es : List (Entry Id)),resolve objects es (n::m::q)=(findName es n).bind (fun e =>
      if e.mode.isTree then resolve objects (sideEntries objects (some e.oid)) (m::q) else none) := by
    intro es
    rw [resolve]
    congr 1
    funext e
    cases ho : objects e.oid with
    | ok it => simp [sideEntries,ho]
    | error u => cases q <;> simp [sideEntries,ho,resolve,findName]
  have hnil : resolve objects (sideEntries objects none) (m::q)=none := by
    cases q <;> simp [sideEntries,resolve,findName]
  refine ((sides_named hl hr hn).flatMap_right _).trans ?_
  rw [hres l,hres r]
  cases findName l n with
  | none =>
    cases findName r n with
    | none => simp [meet,reported]
    | some b => cases hb : b.mode.isTree <;> simp [meet,reported,sidePairs,Option.filter,hb,hnil]
  | some a =>
    cases findName r n with
    | none => cases ha : a.mode.isTree <;> simp [meet,reported,sidePairs,Option.filter,ha,hnil]
    | some b =>
      cases ha : a.mode.isTree <;> cases hb : b.mode.isTree <;>
        simp [meet,reported,sidePairs,Option.filter,ha,hb,hnil]

/-- What remains of a path below `P`. -/
def strip : List BString → List BString → Option (List BString)
  | [], t => some t
  | _ :: _, [] => none
  | n :: P, m :: t => if n = m then strip P t else none

theorem strip_append (P Q t : List BString) : strip (P++Q) t=(strip P t).bind (strip Q) := by
  induction P generalizing t with
  | nil => rfl
  | cons n P ih =>
    cases t with
    | nil => rfl
    | cons m t =>
      by_cases h : n=m
      · simpa [strip,h] using ih t
      · simp [strip,h]

theorem strip_eq_some {P t s : List BString} : strip P t=some s ↔ t=P++s := by
  induction P generalizing t with
  | nil => simp [strip]
  | cons n P ih =>
    cases t with
    | nil => simp [strip]
    | cons m t =>
      by_cases h : n=m
      · simp [strip,h,ih]
      · simp [strip,h,Ne.symm h]

/-- The changes recorded at a path. -/
def changesAt (t : List BString) (records : List (Record Id)) : List (Change Id) :=
  (records.filter (fun record => record.path = join t)).map Record.change

/-- The changes between two trees that stand at `P`. -/
def reportedAt (objects : Find Id) (P : List BString) (l r : List (Entry Id)) (t : List BString) :
    List (Change Id) :=
  match strip P t with
  | some (n :: q) => reported (resolve objects l (n :: q)) (resolve objects r (n :: q))
  | _ => []

/-- What is reported below one of the entries, if the path goes on below it. -/
def reportedBelow (objects : Find Id) (l r : List (Entry Id)) (n : BString) : Option (List BString) → List (Change Id)
  | some (n' :: m :: q) => if n = n' then reported (resolve objects l (m :: q)) (resolve objects r (m :: q)) else []
  | _ => []

theorem flatMap_ite {α β : Type} (l : List α) (p : α → Prop) [DecidablePred p] (f : α → List β) :
    l.flatMap (fun x => if p x then f x else [])=(l.filter (fun x => p x)).flatMap f := by
  induction l with
  | nil => rfl
  | cons x l ih =>
    by_cases h : p x
    · simp [h,ih]
    · simp [h,ih]

theorem changesAt_level {P t : List BString} (hP : ∀ n∈P,ValidName n)
    (ht : ∀ n∈t,ValidName n) (hs : ∀ side∈sides,ValidName (sideName side)) :
    changesAt t (levelRecords P sides) =
      sides.flatMap (fun side => if P++[sideName side]=t then sideChanges side else []) := by
  induction sides with
  | nil => rfl
  | cons side sides ih =>
    have hside := hs side mem_cons_self
    have hvalid : ∀ n∈P++[sideName side],ValidName n := by
      intro n hn
      rcases mem_append.mp hn with hn | hn
      · exact hP n hn
      · rw [mem_singleton.mp hn]
        exact hside
    have ih := ih (fun x hx => hs x (mem_cons_of_mem _ hx))
    have hcons : changesAt t (levelRecords P (side::sides))=changesAt t ((sideChanges side).map
        (fun c => ⟨c,join (P++[sideName side])⟩))++changesAt t (levelRecords P sides) := by
      simp [changesAt,levelRecords]
    rw [hcons,ih]
    by_cases heq : P++[sideName side]=t
    · simp [changesAt,heq,filter_map,Function.comp_def]
    · have hne : join (P++[sideName side])≠join t := fun h => heq (join_inj hvalid ht h)
      simp [changesAt,heq,hne]

/-- Comparing one level splits the changes into its own and those of the queued subtrees. -/
theorem reportedAt_level (objects : Find Id) {P t : List BString} {l r : List (Entry Id)} (hl : SortedTree l)
    (hr : SortedTree r) (hP : ∀ n∈P,ValidName n) (ht : ∀ n∈t,ValidName n) :
    (changesAt t (levelRecords P (merge key l r))++
      (merge key l r).flatMap (fun side => (sidePairs side).flatMap (fun pair =>
        reportedAt objects (P++[sideName side]) (sideEntries objects pair.1) (sideEntries objects pair.2) t))).Perm
      (reportedAt objects P l r t) := by
  rw [changesAt_level hP ht (fun side hs => sideName_valid hl.names hr.names hs)]
  have hown : ∀ side : Side (Entry Id),P++[sideName side]=t ↔ strip P t=some [sideName side] :=
    fun side => eq_comm.trans strip_eq_some.symm
  have hchild : ∀ side : Side (Entry Id),∀ pair : Option Id × Option Id,
      reportedAt objects (P++[sideName side]) (sideEntries objects pair.1) (sideEntries objects pair.2) t =
        reportedBelow objects (sideEntries objects pair.1) (sideEntries objects pair.2) (sideName side) (strip P t) := by
    intro side pair
    rw [reportedAt,strip_append]
    rcases strip P t with _ | _ | ⟨n,_ | ⟨m,q⟩⟩
    · rfl
    · rfl
    · by_cases h : sideName side=n <;> simp [strip,reportedBelow]
    · by_cases h : sideName side=n <;> simp [strip,reportedBelow,h]
  simp only [hown,hchild]
  rw [reportedAt]
  have hnil : ∀ side : Side (Entry Id),(sidePairs side).flatMap
      (fun _ => ([] : List (Change Id)))=[] := fun _ => flatMap_eq_nil_iff.mpr (fun _ _ => rfl)
  have hnil' : (merge key l r).flatMap (fun _ => ([] : List (Change Id)))=[] :=
    flatMap_eq_nil_iff.mpr (fun _ _ => rfl)
  rcases hst : strip P t with _ | _ | ⟨n,_ | ⟨m,q⟩⟩
  · simp [reportedBelow]
  · simp [reportedBelow]
  · have hn : ValidName n := ht n (by rw [strip_eq_some.mp hst]; simp)
    have hlevel := changes_named hl hr hn
    rw [← flatMap_ite] at hlevel
    simpa [reportedBelow,hnil,hnil',resolve,eq_comm] using hlevel
  · have hn : ValidName n := ht n (by rw [strip_eq_some.mp hst]; simp)
    have hlevel := children_named objects hl hr hn m q
    rw [← flatMap_ite] at hlevel
    have hif : ∀ side : Side (Entry Id),(sidePairs side).flatMap (fun pair => if sideName side=n then
        reported (resolve objects (sideEntries objects pair.1) (m::q))
          (resolve objects (sideEntries objects pair.2) (m::q)) else []) =
        if sideName side=n then (sidePairs side).flatMap (fun pair =>
          reported (resolve objects (sideEntries objects pair.1) (m::q))
            (resolve objects (sideEntries objects pair.2) (m::q))) else [] := by
      intro side
      by_cases h : sideName side=n
      · simp [h]
      · simp [h]
    simpa [reportedBelow,hif,hnil'] using hlevel

section Induction
variable {objects : Find Id} {q : List (Option Id × Option Id)} {ls : List (List (Entry Id) × List (Entry Id))}
  {labels : List (List BString)}

/-- The records of all levels are the changes between the queued pairs. -/
theorem changesAt_recordsFrom (hq : Levels objects q ls) (hlen : labels.length=q.length)
    (hsorted : ∀ x∈ls,SortedTree x.1 ∧ SortedTree x.2) (hlabels : ∀ P∈labels,∀ n∈P,ValidName n)
    {t : List BString} (ht : ∀ n∈t,ValidName n) :
    (changesAt t (recordsFrom labels ls)).Perm ((labels.zip q).flatMap (fun x =>
      reportedAt objects x.1 (sideEntries objects x.2.1) (sideEntries objects x.2.2) t)) := by
  induction hq generalizing labels with
  | nil =>
    simp [recordsFrom,changesAt]
  | @cons a b l r q ls ha hb hab hl hr rest ih =>
    obtain ⟨P,labels,rfl⟩ := exists_cons_of_length_eq_add_one hlen
    have hlen' : labels.length=q.length := by simpa using hlen
    obtain ⟨hsl,hsr⟩ := hsorted (l,r) mem_cons_self
    obtain ⟨hP,hlabels⟩ := forall_mem_cons.mp hlabels
    have hchildren := childLabels_valid hP fun side hs => sideName_valid hl hr hs
    have ih := @ih (labels++childLabels P (merge key l r)) (by simp [childLabels,hlen'])
      (fun x hx => hsorted x (mem_cons_of_mem _ hx)) (forall_mem_append.mpr ⟨hlabels,hchildren⟩)
    rw [zip_append hlen',zip_children,flatMap_append] at ih
    have hlevel := reportedAt_level objects hsl hsr hP ht
    have happ : changesAt t (recordsFrom (P::labels) ((l,r)::ls)) =
        changesAt t (levelRecords P (merge key l r))++
          changesAt t (recordsFrom (labels++childLabels P (merge key l r)) ls) := by
      simp [changesAt,recordsFrom]
    rw [happ,zip_cons_cons,flatMap_cons,sideEntries_loads ha,sideEntries_loads hb]
    refine ((ih.append_left _).trans ?_).trans (hlevel.append_right _)
    refine (perm_append_comm.append_left _).trans ?_
    simp [flatMap_assoc,flatMap_map]

theorem recordsFrom_path (hq : Levels objects q ls) (hlen : labels.length=q.length)
    (hlabels : ∀ P∈labels,∀ n∈P,ValidName n) :
    ∀ record∈recordsFrom labels ls,∃ P,P≠[] ∧ (∀ n∈P,ValidName n) ∧ record.path=join P := by
  induction hq generalizing labels with
  | nil =>
    simp [recordsFrom]
  | @cons a b l r q ls ha hb hab hl hr rest ih =>
    obtain ⟨P,labels,rfl⟩ := exists_cons_of_length_eq_add_one hlen
    have hlen' : labels.length=q.length := by simpa using hlen
    obtain ⟨hP,hlabels⟩ := forall_mem_cons.mp hlabels
    have hnames : ∀ side∈merge key l r,ValidName (sideName side) :=
      fun side hs => sideName_valid hl hr hs
    intro record hrec
    rcases mem_append.mp hrec with hrec | hrec
    · obtain ⟨side,hside,hm⟩ := mem_flatMap.mp hrec
      obtain ⟨_,_,rfl⟩ := mem_map.mp hm
      refine ⟨P++[sideName side],by simp,?_,rfl⟩
      intro n hn
      rcases mem_append.mp hn with hn | hn
      · exact hP n hn
      · rw [mem_singleton.mp hn]
        exact hnames side hside
    · exact @ih (labels++childLabels P (merge key l r)) (by simp [childLabels,hlen'])
        (forall_mem_append.mpr ⟨hlabels,childLabels_valid hP hnames⟩) record hrec

end Induction

end Gix.TreeDiff
