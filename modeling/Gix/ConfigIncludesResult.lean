import Gix.ConfigIncludes
import Gix.ConfigSectionsResult
import Gix.NamedBlocks
import Gix.SortedSearch

/-! # The order of included sections

Every file is inserted right behind the section that includes it, so the files of one section come out
in the reverse of the order of its values. -/
namespace Gix.Config
open List Option
open ByteCodec (toAsciiLowercase)

def listing (f : File) : List Section := f.sectionOrder.filterMap f.sections

/-! ## Inserting -/

variable {f : File} {w : Includes} {arrange : List Bytes → List Bytes} {ss : List Section}

section Insert
variable {l r : List ℕ} {before x : ℕ}

theorem idxOf?_append (l r : List ℕ) (x : ℕ) : (l++r).idxOf? x=(l.idxOf? x).or ((r.idxOf? x).map (·+l.length)) :=
  findIdx?_append

theorem idxOf?_left (h : x∈l) : ∃ i < l.length,(l++r).idxOf? x=some i := by
  cases hi : l.idxOf? x with
  | none => exact absurd h (idxOf?_eq_none_iff.mp hi)
  | some i => exact ⟨i,(idxOf?_eq_some_iff.mp hi).1,by rw [idxOf?_append,hi]; rfl⟩

theorem idxOf?_right (h : x∉l) (hr : x∈r) : ∃ i,(l++r).idxOf? x=some (i+l.length) := by
  cases hi : r.idxOf? x with
  | none => exact absurd hr (idxOf?_eq_none_iff.mp hi)
  | some i => exact ⟨i,by rw [idxOf?_append,idxOf?_eq_none_iff.mpr h,hi]; rfl⟩

theorem idxOf?_middle (h : before∉l) (r : List ℕ) : (l++before::r).idxOf? before=some l.length := by
  rw [idxOf?_append,idxOf?_eq_none_iff.mpr h]
  simp [idxOf?_cons]

theorem apart_of_nodup (h : (l++x::r).Nodup) : x∉l ∧ x∉r := by
  have hx := (nodup_cons.mp (nodup_middle.mp h)).1
  rwa [mem_append,not_or] at hx

theorem findInsertPosByOrder_skip {order ids skipped : List ℕ} {b : ℕ}
    (h : ∀ id∈skipped,∃ i < b,order.idxOf? id=some i) (pos : ℕ) :
    findInsertPosByOrder order b (skipped++ids) pos=findInsertPosByOrder order b ids (pos+skipped.length) := by
  induction skipped generalizing pos with
  | nil => rfl
  | cons id skipped ih =>
    rw [forall_mem_cons] at h
    obtain ⟨i,hi,hid⟩ := h.1
    simp only [cons_append,findInsertPosByOrder,hid,if_pos hi]
    rw [ih h.2,length_cons,Nat.add_assoc,Nat.add_comm 1]

/-- The place among the ids of a name is behind those up to the section. -/
theorem findInsertPosByOrder_eq (hnodup : (l++before::r).Nodup) (p : ℕ → Bool) :
    findInsertPosByOrder (l++before::r) l.length ((l++before::r).filter p) 0 =
      some ((l++[before]).filter p).length := by
  obtain ⟨-,-,hdisj⟩ := nodup_append.mp hnodup
  obtain ⟨hl,hr⟩ := apart_of_nodup hnodup
  rw [filter_append,findInsertPosByOrder_skip (fun id hid => idxOf?_left (mem_of_mem_filter hid)),
    filter_append]
  cases hp : p before with
  | true =>
    rw [filter_cons_of_pos hp,filter_cons_of_pos hp]
    simp [findInsertPosByOrder,idxOf?_middle hl]
  | false =>
    rw [filter_cons_of_neg (by simp [hp]),filter_cons_of_neg (by simp [hp])]
    cases hcand : r.filter p with
    | nil => simp [findInsertPosByOrder]
    | cons id ids =>
      have hid : id∈r := mem_of_mem_filter (hcand ▸ mem_cons_self : id∈r.filter p)
      have hnot : id∉l++[before] := by
        intro h
        rcases mem_append.mp h with h | h
        · exact hdisj id h id (mem_cons_of_mem before hid) rfl
        · exact hr (mem_singleton.mp h ▸ hid)
      obtain ⟨_,hi⟩ := idxOf?_right hnot hid
      rw [← append_cons,length_append,length_singleton] at hi
      simp only [findInsertPosByOrder,hi]
      rw [if_neg (by omega),if_neg (by omega)]
      simp

theorem WellFormed.of_perm {f' : File} (h : WellFormed f) (horder : f'.sectionOrder.Perm f.sectionOrder)
    (hsections : f'.sections=f.sections) (hcounter : f'.sectionIdCounter=f.sectionIdCounter) : WellFormed f' where
  nodup := horder.nodup_iff.mpr h.nodup
  present id hid := hsections ▸ h.present id (horder.mem_iff.mp hid)
  ordered id s hs := horder.mem_iff.mpr (h.ordered id s (hsections ▸ hs))
  fresh id hid := hcounter ▸ h.fresh id (horder.mem_iff.mp hid)

theorem idsOf_getD (hindexed : Indexed f) (name : Bytes) (subsection : Option Bytes) :
    (idsOf f name subsection).getD []=members f name subsection := by
  rw [hindexed name subsection]
  split_ifs with hnil
  · rw [hnil]
    rfl
  · rfl

theorem found_members (hindexed : Indexed f) (header : Header) :
    (findIds ((f.sectionLookupTree (header.name.map toAsciiLowercase)).getD []) header.subsectionName).getD [] =
      members f header.name header.subsectionName := by
  rw [← idsOf_getD hindexed,idsOf]
  cases f.sectionLookupTree (header.name.map toAsciiLowercase) <;> rfl

abbrev File.names (f : File) (name : Bytes) (subsection : Option Bytes) (id : ℕ) : Bool :=
  (f.sections id).any (Section.named name subsection)

def File.insert (f : File) (s : Section) (l : List ℕ) (before : ℕ) (r : List ℕ) : File :=
  ⟨fun id => if id = f.sectionIdCounter then some s else f.sections id,l++before :: f.sectionIdCounter :: r,
    f.sectionIdCounter+1,f.updateTree s.header (·.insertIdx ((l++[before]).filter fun id =>
      (f.sections id).any (Section.named s.header.name s.header.subsectionName)).length f.sectionIdCounter)⟩

variable (h : WellFormed f)
include h

theorem insertSectionAfter_eq (hindexed : Indexed f) (horder : f.sectionOrder=l++before::r)
    (s : Section) : insertSectionAfter f s before=some (f.insert s l before r,f.sectionIdCounter) := by
  have hnodup := horder ▸ h.nodup
  have hbefore := (apart_of_nodup hnodup).1
  have hpos := findInsertPosByOrder_eq hnodup (f.names s.header.name s.header.subsectionName)
  have hinsert : f.sectionOrder.insertIdx (l.length+1) f.sectionIdCounter=l++before::f.sectionIdCounter::r := by
    have hsplit := SortedSearch.insertIdx_append (l++[before]) r f.sectionIdCounter
    rw [length_append,length_singleton] at hsplit
    rw [horder,append_cons,hsplit,← append_cons]
  rw [← horder] at hpos
  simp only [insertSectionAfter,found_members hindexed,horder ▸ idxOf?_middle hbefore r,hpos,members,
    bind_eq_bind,bind_some,hinsert]
  rfl

theorem WellFormed.insert (horder : f.sectionOrder=l++before::r) (s : Section) :
    WellFormed (f.insert s l before r) := by
  refine (h.push s).of_perm ?_ rfl rfl
  change (l++before::f.sectionIdCounter::r).Perm (f.sectionOrder++[f.sectionIdCounter])
  rw [horder,append_cons,append_cons l before r,append_assoc (l++[before])]
  exact (perm_append_singleton ..).symm.append_left _

/-- The new id is among those of its name where it is in the order. -/
theorem members_insert (horder : f.sectionOrder=l++before::r) (s : Section) (name : Bytes)
    (subsection : Option Bytes) : members (f.insert s l before r) name subsection =
      (l++[before]).filter (f.names name subsection)++
        ((if s.named name subsection then [f.sectionIdCounter] else [])++r.filter (f.names name subsection)) := by
  have hold : ∀ ids : List ℕ,(∀ id∈ids,id∈f.sectionOrder) → ids.filter (fun id =>
      (if id=f.sectionIdCounter then some s else f.sections id).any (Section.named name subsection)) =
        ids.filter (f.names name subsection) := by
    intro ids hids
    refine filter_congr fun id hid => ?_
    rw [if_neg (Nat.ne_of_lt (h.fresh id (hids id hid)))]
  have hfront := hold (l++[before]) fun id hid => by
    rw [horder,append_cons]
    exact mem_append_left r hid
  have hback := hold r fun id hid => by
    rw [horder]
    exact mem_append_right l (mem_cons_of_mem before hid)
  simp only [members,File.insert]
  rw [append_cons,filter_append,hfront,filter_cons,hback]
  by_cases hnamed : s.named name subsection <;> simp [hnamed]

theorem Indexed.insert (hindexed : Indexed f) (horder : f.sectionOrder=l++before::r)
    (s : Section) : Indexed (f.insert s l before r) := by
  intro name subsection
  have hmembers : members f name subsection =
      (l++[before]).filter (f.names name subsection)++r.filter (f.names name subsection) := by
    rw [members,horder,append_cons,filter_append]
  rw [@idsOf_updateTree f _ s _ rfl,members_insert h horder]
  by_cases hnamed : s.named name subsection
  · rw [if_pos hnamed,if_pos hnamed,idsOf_getD hindexed,hmembers,← named_header hnamed,
      SortedSearch.insertIdx_append,if_neg (by simp)]
    rfl
  · rw [if_neg hnamed,if_neg hnamed,nil_append,← hmembers]
    exact hindexed name subsection

/-- What an insertion leaves: the new ids are behind the section, with the sections inserted. -/
structure Inserted (f f' : File) (l : List ℕ) (before : ℕ) (new r : List ℕ) (ss : List Section) : Prop where
  wellFormed : WellFormed f'
  indexed : Indexed f'
  order : f'.sectionOrder = l++before :: (new++r)
  old : ∀ id ∈ f.sectionOrder,f'.sections id = f.sections id
  fresh : ∀ id ∈ new,id ∉ f.sectionOrder
  sections : new.map f'.sections = ss.map some

theorem insertSections_inserted {other : File} {ids : List ℕ} (hindexed : Indexed f)
    (horder : f.sectionOrder=l++before::r) (hnodup : ids.Nodup)
    (hpresent : ∀ id∈ids,∃ s,other.sections id=some s) :
    ∃ f' new,insertSections f other ids before=some f' ∧ Inserted f f' l before new r (ids.filterMap other.sections) := by
  induction ids generalizing f other l before with
  | nil => exact ⟨f,[],rfl,h,hindexed,horder,fun _ _ => rfl,by simp,rfl⟩
  | cons id ids ih =>
    obtain ⟨s,hs⟩ := hpresent id mem_cons_self
    obtain ⟨hid,hnodup⟩ := nodup_cons.mp hnodup
    have hrest : ∀ i∈ids,(if i=id then none else other.sections i)=other.sections i := by
      intro i hi
      rw [if_neg fun heq : i=id => hid (heq ▸ hi)]
    have hold : ∀ i∈f.sectionOrder,i≠f.sectionIdCounter := fun i hi => Nat.ne_of_lt (h.fresh i hi)
    have horder1 : (f.insert s l before r).sectionOrder=(l++[before])++f.sectionIdCounter::r := append_cons ..
    have hpresent1 : ∀ i∈ids,∃ s,File.sections
        {other with sections := fun i => if i=id then none else other.sections i} i=some s :=
      fun i hi => (hpresent i (mem_cons_of_mem id hi)).imp fun s hs => (hrest i hi).trans hs
    obtain ⟨f',new,hrun,hins⟩ := ih (h.insert horder s) (hindexed.insert h horder s) horder1 hnodup hpresent1
    have hmem : ∀ i∈f.sectionOrder,i∈(f.insert s l before r).sectionOrder := by
      intro i hi
      rw [horder] at hi
      rw [horder1]
      simp only [mem_append,mem_cons] at hi ⊢
      tauto
    have hnew : f.sectionIdCounter∈(f.insert s l before r).sectionOrder := by simp [horder1]
    refine ⟨f',f.sectionIdCounter::new,?_,hins.wellFormed,hins.indexed,?_,fun i hi => ?_,?_,?_⟩
    · simp only [insertSections,hs,insertSectionAfter_eq h hindexed horder]
      exact hrun
    · rw [hins.order]
      simp
    · rw [hins.old i (hmem i hi)]
      exact if_neg (hold i hi)
    · intro i hi hmemi
      rcases mem_cons.mp hi with rfl | hi
      · exact hold _ hmemi rfl
      · exact hins.fresh i hi (hmem i hmemi)
    · rw [map_cons,hins.old _ hnew,hins.sections,filterMap_cons_some hs,
        filterMap_congr hrest]
      simp [File.insert]

end Insert

/-! ## The expected order -/

section Order
variable (w : Includes)

def pathsOf (s : Section) : List Bytes := (includePaths w s).toOption.getD []

def fileOf (s : Section) (path : Bytes) : Option Bytes :=
  match w.resolvePath path s.metadata.path with
  | .ok (some file) => if w.isFile file then some file else none
  | _ => none

/-- The files that a section includes, in the order of its values. -/
def files (s : Section) : List Bytes := (pathsOf w s).filterMap (fileOf w s)

def includedMetadata (s : Section) (file : Bytes) : Metadata :=
  ⟨some file,s.metadata.source,s.metadata.level+1,s.metadata.trust⟩

def fileSections (s : Section) (file : Bytes) : List Section :=
  match w.read file with
  | .error _ => []
  | .ok bytes =>
    match fromBytesOwned w bytes (includedMetadata s file) with
    | .error _ => []
    | .ok f => listing f

/-- Each section is followed by the sections of the files it includes, and so on in these. -/
def expand (arrange : List Bytes → List Bytes) : ℕ → List Section → List Section
  | 0,ss => ss
  | n+1,ss => ss.flatMap fun s =>
      s :: (arrange (files w s)).flatMap fun file => expand arrange n (fileSections w s file)

def ordered (n : ℕ) (ss : List Section) : List Section := expand w (fun files => files) n ss

/-- A path of a section is that of a file that exists and can be read. -/
structure Reads (s : Section) (path file : Bytes) (f : File) : Prop where
  resolved : w.resolvePath path s.metadata.path = .ok (some file)
  isFile : w.isFile file = true
  content : ∃ bytes,w.read file = .ok bytes ∧ fromBytesOwned w bytes (includedMetadata s file) = .ok f

/-- The files exist and are nested less than so deep. -/
def Nested : ℕ → List Section → Prop
  | 0,_ => False
  | n+1,ss => ∀ s ∈ ss,∃ paths,includePaths w s = .ok paths ∧
      ∀ path ∈ paths,∃ file f,Reads w s path file f ∧ Nested n (listing f)

/-- In each section the included files that have sections read the same from both ends. -/
def Symmetric : ℕ → List Section → Prop
  | 0,_ => True
  | n+1,ss => ∀ s ∈ ss,
      ((files w s).filter fun file => 0 < (fileSections w s file).length).reverse =
        ((files w s).filter fun file => 0 < (fileSections w s file).length) ∧
      ∀ file ∈ files w s,Symmetric n (fileSections w s file)

end Order

section Loading
variable {s : Section} {path file : Bytes}

theorem listing_push (h : WellFormed f) (s : Section) : listing (pushSectionInternal f s).1=listing f++[s] := by
  have hold : f.sectionOrder.filterMap (pushSectionInternal f s).1.sections=f.sectionOrder.filterMap f.sections :=
    filterMap_congr fun id hid => if_neg (Nat.ne_of_lt (h.fresh id hid))
  change (f.sectionOrder++[f.sectionIdCounter]).filterMap (pushSectionInternal f s).1.sections=_
  rw [filterMap_append,hold]
  simp [listing,pushSectionInternal]

/-- A file that is loaded has the sections that are parsed, with one metadata. -/
theorem fromParseEvents_loaded (sections : List (Header × List Event)) (metadata : Metadata) :
    WellFormed (fromParseEventsNoIncludes sections metadata) ∧ Indexed (fromParseEventsNoIncludes sections metadata) ∧
      listing (fromParseEventsNoIncludes sections metadata)=sections.map fun s => ⟨s.1,s.2,metadata⟩ := by
  have hfold : ∀ f : File,WellFormed f → Indexed f → ∀ sections : List (Header × List Event),
      let f' := sections.foldl (fun f s => (pushSectionInternal f ⟨s.1,s.2,metadata⟩).1) f
      WellFormed f' ∧ Indexed f' ∧ listing f'=listing f++sections.map fun s => ⟨s.1,s.2,metadata⟩ := by
    intro f h hindexed sections
    induction sections generalizing f with
    | nil => exact ⟨h,hindexed,(append_nil _).symm⟩
    | cons s sections ih =>
      obtain ⟨h1,h2,h3⟩ := ih _ (h.push ⟨s.1,s.2,metadata⟩) (hindexed.push h ⟨s.1,s.2,metadata⟩)
      refine ⟨h1,h2,?_⟩
      rw [foldl_cons,h3,listing_push h,append_assoc]
      rfl
  exact hfold .empty wellFormed_empty indexed_empty sections

theorem fromBytesOwned_loaded {bytes : Bytes} {metadata : Metadata} (h : fromBytesOwned w bytes metadata = .ok f) :
    WellFormed f ∧ Indexed f ∧ ∀ s∈listing f,s.metadata=metadata := by
  unfold fromBytesOwned at h
  cases hparse : fromBytes w.bomLength bytes with
  | none => simp [hparse] at h
  | some events =>
    rw [hparse] at h
    obtain ⟨hwf,hindexed,hlisting⟩ := fromParseEvents_loaded
      (splitSections (if w.lossy then discardNonessentialEvents else fun _ => true) events) metadata
    cases h
    refine ⟨hwf,hindexed,fun s hs => ?_⟩
    rw [hlisting] at hs
    obtain ⟨_,-,rfl⟩ := mem_map.mp hs
    rfl

theorem Reads.fileOf (h : Reads w s path file f) : fileOf w s path=some file := by
  simp [Config.fileOf,h.resolved,h.isFile]

theorem Reads.fileSections (h : Reads w s path file f) : fileSections w s file=listing f := by
  obtain ⟨_,hread,hload⟩ := h.content
  simp [Config.fileSections,hread,hload]

theorem fileSections_metadata (w : Includes) (s : Section) (file : Bytes) :
    ∀ t∈fileSections w s file,t.metadata=includedMetadata s file := by
  unfold fileSections
  cases hread : w.read file with
  | error e => simp
  | ok bytes =>
    cases hload : fromBytesOwned w bytes (includedMetadata s file) with
    | error e => simp [hload]
    | ok f =>
      simp only [hload]
      exact (fromBytesOwned_loaded hload).2.2

end Loading

/-! ## What the splices amount to -/

section Splices
variable {n : ℕ} {todo : List (ℕ × Bytes)} {id : ℕ}

/-- What a path of a section puts behind it. -/
def block (w : Includes) (n : ℕ) (s : Section) (path : Bytes) : List Section :=
  (fileOf w s path).toList.flatMap fun file => expand w List.reverse n (fileSections w s file)

/-- The sections of an id with what the paths for it put behind it. -/
def entryOf (w : Includes) (n : ℕ) (f : File) (todo : List (ℕ × Bytes)) (id : ℕ) : List Section :=
  (f.sections id).toList.flatMap fun s => s :: (todo.filter (·.1 = id)).reverse.flatMap fun t => block w n s t.2

theorem entryOf_other (h : ∀ t∈todo,t.1≠id) :
    entryOf w n f todo id=(f.sections id).toList := by
  have hnone : todo.filter (·.1=id)=[] := by
    rw [filter_eq_nil_iff]
    intro t ht
    simpa using h t ht
  cases hs : f.sections id <;> simp [entryOf,hs,hnone]

theorem appendFollowed_run
    (hresolve : ∀ f,WellFormed f → Indexed f → Nested w n (listing f) →
      ∃ f',resolveIncludesRecursive w n f=some (.ok f') ∧ WellFormed f' ∧ Indexed f' ∧
        listing f'=expand w List.reverse n (listing f))
    (h : WellFormed f) (hindexed : Indexed f)
    (htodo : ∀ t∈todo,∃ s,f.sections t.1=some s ∧ ∃ file g,Reads w s t.2 file g ∧ Nested w n (listing g)) :
    ∃ f',appendFollowedIncludesRecursively w (resolveIncludesRecursive w n) todo f=some (.ok f') ∧
      WellFormed f' ∧ Indexed f' ∧ listing f'=f.sectionOrder.flatMap (entryOf w n f todo) := by
  induction todo generalizing f with
  | nil =>
    refine ⟨f,rfl,h,hindexed,?_⟩
    rw [listing,filterMap_eq_flatMap_toList]
    exact flatMap_congr fun id _ => (entryOf_other (by simp)).symm
  | cons t todo ih =>
    obtain ⟨id,path⟩ := t
    rw [forall_mem_cons] at htodo
    obtain ⟨s,hs,file,g,hreads,hnested⟩ := htodo.1
    obtain ⟨_,hread,hload⟩ := hreads.content
    obtain ⟨hgwf,hgindexed,-⟩ := fromBytesOwned_loaded hload
    obtain ⟨g',hg',hg'wf,-,hg'listing⟩ := hresolve g hgwf hgindexed hnested
    obtain ⟨_,_,horder⟩ := append_of_mem (h.ordered id s hs)
    obtain ⟨f1,new,hinsert,hins⟩ := insertSections_inserted h hindexed horder hg'wf.nodup hg'wf.present
    have hin : ∀ t∈todo,t.1∈f.sectionOrder := fun t ht =>
      let ⟨s,hs,_⟩ := htodo.2 t ht
      h.ordered t.1 s hs
    obtain ⟨f',hrun,hwf',hindexed',hlisting⟩ := ih hins.wellFormed hins.indexed fun t ht => by
      rw [hins.old t.1 (hin t ht)]
      exact htodo.2 t ht
    refine ⟨f',?_,hwf',hindexed',?_⟩
    · rw [includedMetadata] at hload
      simp only [appendFollowedIncludesRecursively,hs,hreads.resolved,hreads.isFile,hread,hload,hg',
        appendOrInsert,hinsert]
      exact hrun
    · have hblock : block w n s path=listing g' := by
        rw [block,hreads.fileOf,toList_some,flatMap_singleton,hreads.fileSections,hg'listing]
      have hother : ∀ i∈f.sectionOrder,i≠id → entryOf w n f1 todo i=entryOf w n f ((id,path)::todo) i := by
        intro i hi hne
        rw [entryOf,entryOf,hins.old i hi,filter_cons_of_neg (by simpa using hne.symm)]
      have hid : entryOf w n f1 todo id++listing g'=entryOf w n f ((id,path)::todo) id := by
        rw [entryOf,entryOf,hins.old id (h.ordered id s hs),hs,← hblock]
        simp
      have hnew : new.flatMap (entryOf w n f1 todo)=listing g' := by
        have hsome : new.filterMap f1.sections=listing g' := by
          have hmap := congrArg (filterMap fun x : Option Section => x) hins.sections
          rw [listing]
          simpa using hmap
        rw [← hsome,filterMap_eq_flatMap_toList]
        exact flatMap_congr fun i hi => entryOf_other fun t ht heq => hins.fresh i hi (heq ▸ hin t ht)
      obtain ⟨hnl,hnr⟩ := apart_of_nodup (horder ▸ h.nodup)
      have hl :=
        flatMap_congr fun i hi => hother i (horder ▸ mem_append_left _ hi) fun heq => hnl (heq ▸ hi)
      have hr :=
        flatMap_congr fun i hi => hother i (horder ▸ mem_append_right _ (mem_cons_of_mem id hi)) fun heq => hnr (heq ▸ hi)
      rw [hlisting,hins.order,horder]
      simp [hl,hnew,hr,← hid]

def targets (w : Includes) (f : File) (ids : List ℕ) : List (ℕ × Bytes) :=
  ids.flatMap fun id => ((f.sections id).toList.flatMap (pathsOf w)).map (id,·)

theorem sectionIdsAndIncludePaths_eq {ids : List ℕ}
    (h : ∀ id∈ids,∃ s,f.sections id=some s ∧ ∃ paths,includePaths w s = .ok paths) :
    sectionIdsAndIncludePaths w f ids=some (.ok (targets w f ids)) := by
  induction ids with
  | nil => rfl
  | cons id ids ih =>
    rw [forall_mem_cons] at h
    obtain ⟨s,hs,paths,hpaths⟩ := h.1
    simp only [sectionIdsAndIncludePaths,hs,ih h.2,targets,flatMap_cons]
    simp [pathsOf,hpaths,Except.toOption,Except.map]

theorem filter_targets {ids : List ℕ} {s : Section} (hnodup : ids.Nodup) (hid : id∈ids)
    (hs : f.sections id=some s) : (targets w f ids).filter (·.1=id)=(pathsOf w s).map (id,·) := by
  have hother : ∀ ids : List ℕ,id∉ids → (targets w f ids).filter (·.1=id)=[] := by
    intro ids hid
    rw [filter_eq_nil_iff]
    intro t ht
    obtain ⟨i,hi,ht⟩ := mem_flatMap.mp ht
    obtain ⟨p,-,rfl⟩ := mem_map.mp ht
    simpa using fun heq : i=id => hid (heq ▸ hi)
  obtain ⟨l,r,rfl⟩ := append_of_mem hid
  obtain ⟨hl,hr⟩ := apart_of_nodup hnodup
  have hsplit : targets w f (l++id::r)=targets w f l++((pathsOf w s).map (id,·)++targets w f r) := by
    simp [targets,hs]
  rw [hsplit,filter_append,filter_append,hother l hl,hother r hr,append_nil,
    nil_append,filter_eq_self]
  intro t ht
  obtain ⟨p,-,rfl⟩ := mem_map.mp ht
  simp

theorem resolveIncludesRecursive_run (n : ℕ) (h : WellFormed f) (hindexed : Indexed f)
    (hnested : Nested w n (listing f)) :
    ∃ f',resolveIncludesRecursive w n f=some (.ok f') ∧ WellFormed f' ∧ Indexed f' ∧
      listing f'=expand w List.reverse n (listing f) := by
  induction n generalizing f with
  | zero => exact hnested.elim
  | succ n ih =>
    have hin : ∀ id∈f.sectionOrder,∃ s,f.sections id=some s ∧ ∃ paths,includePaths w s = .ok paths ∧
        ∀ path∈paths,∃ file g,Reads w s path file g ∧ Nested w n (listing g) := by
      intro id hid
      obtain ⟨s,hs⟩ := h.present id hid
      exact ⟨s,hs,hnested s (mem_filterMap.mpr ⟨id,hid,hs⟩)⟩
    have htargets := sectionIdsAndIncludePaths_eq fun id hid =>
      let ⟨s,hs,paths,hpaths,_⟩ := hin id hid
      ⟨s,hs,paths,hpaths⟩
    have htodo : ∀ t∈targets w f f.sectionOrder,∃ s,f.sections t.1=some s ∧
        ∃ file g,Reads w s t.2 file g ∧ Nested w n (listing g) := by
      intro t ht
      obtain ⟨id,hid,ht⟩ := mem_flatMap.mp ht
      obtain ⟨s,hs,paths,hpaths,hreads⟩ := hin id hid
      obtain ⟨path,hpath,rfl⟩ := mem_map.mp ht
      have hmem : path∈paths := by simpa [hs,pathsOf,hpaths,Except.toOption] using hpath
      exact ⟨s,hs,hreads path hmem⟩
    obtain ⟨f',hrun,hwf',hindexed',hlisting⟩ := appendFollowed_run (fun f h hindexed => ih h hindexed) h hindexed htodo
    refine ⟨f',?_,hwf',hindexed',?_⟩
    · simp only [resolveIncludesRecursive,htargets]
      exact hrun
    · rw [hlisting,listing,filterMap_eq_flatMap_toList,expand,flatMap_assoc]
      refine flatMap_congr fun id hid => ?_
      obtain ⟨s,hs⟩ := h.present id hid
      rw [entryOf,hs,filter_targets h.nodup hid hs,toList_some,flatMap_singleton,flatMap_singleton,
        files,← filterMap_reverse,filterMap_eq_flatMap_toList,flatMap_assoc,← map_reverse,
        flatMap_map]
      rfl

end Splices

/-! ## Both orders -/

theorem expand_perm (w : Includes) (n : ℕ) (ss : List Section) : (expand w List.reverse n ss).Perm (ordered w n ss) := by
  induction n generalizing ss with
  | zero => exact .refl ss
  | succ n ih =>
    refine List.Perm.flatMap_left ss fun s _ => .cons s ?_
    exact ((reverse_perm _).flatMap_right _).trans (List.Perm.flatMap_left _ fun file _ => ih _)

theorem fileSections_level (w : Includes) (s : Section) (file : Bytes) :
    ∀ t∈fileSections w s file,s.metadata.level+1 ≤ t.metadata.level := by
  intro t ht
  rw [fileSections_metadata w s file t ht]
  exact le_rfl

/-- Sections of included files have a higher level. -/
theorem expand_level {n level : ℕ}
    (h : ∀ s∈ss,level ≤ s.metadata.level) : ∀ t∈expand w arrange n ss,level ≤ t.metadata.level := by
  induction n generalizing level ss with
  | zero => exact h
  | succ n ih =>
    intro t ht
    obtain ⟨s,hs,ht⟩ := mem_flatMap.mp ht
    rcases mem_cons.mp ht with rfl | ht
    · exact h t hs
    · obtain ⟨file,-,ht⟩ := mem_flatMap.mp ht
      have hlevel := ih (fileSections_level w s file) t ht
      have := h s hs
      omega

/-- The file that a section is from, if it is of a level. -/
def fromFile (level : ℕ) (s : Section) : Option Bytes := if s.metadata.level = level then s.metadata.path else none

theorem expand_fromFile {n level : ℕ}
    (h : ∀ s∈ss,s.metadata.level=level) :
    (expand w arrange n ss).filterMap (fromFile level)=ss.filterMap (fromFile level) := by
  cases n with
  | zero => rfl
  | succ n =>
    rw [expand,filterMap_flatMap,filterMap_eq_flatMap_toList]
    refine flatMap_congr fun s hs => ?_
    have hbelow : ((arrange (files w s)).flatMap fun file => expand w arrange n (fileSections w s file)).filterMap
        (fromFile level)=[] := by
      rw [filterMap_eq_nil_iff]
      intro t ht
      obtain ⟨file,-,ht⟩ := mem_flatMap.mp ht
      have hlevel := expand_level (fileSections_level w s file) t ht
      rw [h s hs] at hlevel
      exact if_neg (by omega)
    rw [filterMap_cons,hbelow]
    cases fromFile level s <;> rfl

theorem ordered_eq_iff (w : Includes) (n : ℕ) (ss : List Section) :
    ordered w n ss=expand w List.reverse n ss ↔ Symmetric w n ss := by
  induction n generalizing ss with
  | zero => exact iff_of_true rfl trivial
  | succ n ih =>
    have hlen : ∀ (n : ℕ) (ss : List Section),(ordered w n ss).length=(expand w reverse n ss).length :=
      fun n ss => (expand_perm w n ss).length_eq.symm
    have hstep : ∀ s,((files w s).flatMap fun file => ordered w n (fileSections w s file)) =
        ((files w s).reverse.flatMap fun file => expand w reverse n (fileSections w s file)) ↔
          ((files w s).filter fun file => 0 < (fileSections w s file).length).reverse =
            ((files w s).filter fun file => 0 < (fileSections w s file).length) ∧
          ∀ file∈files w s,Symmetric w n (fileSections w s file) := by
      intro s
      have hnames : ∀ arrange file,(expand w arrange n (fileSections w s file)).filterMap
          (fromFile (s.metadata.level+1))=replicate (fileSections w s file).length file := by
        intro arrange file
        rw [expand_fromFile fun t ht => by rw [fileSections_metadata w s file t ht]; rfl,← map_const',← filterMap_eq_map]
        refine filterMap_congr fun t ht => ?_
        rw [fromFile,fileSections_metadata w s file t ht]
        exact if_pos rfl
      rw [NamedBlocks.flatMap_eq_reverse_iff (f := fun file => ordered w n (fileSections w s file))
        (fun file _ => hnames _ file) (fun file _ => hnames _ file)
        (fun file _ => hlen n _)]
      · simp [ih]
      · intro file _ hk
        rw [length_eq_zero_iff.mp hk]
        cases n <;> rfl
    rw [ordered,expand,expand,NamedBlocks.flatMap_eq_iff]
    · refine forall₂_congr fun s hs => ?_
      rw [← hstep,cons_inj_right]
      rfl
    · intro s _
      have := (expand_perm w (n+1) [s]).length_eq
      simp only [ordered,expand,flatMap_singleton] at this
      exact this.symm

/-- From a root file, with all files nested less deep than `max_depth`: the sections are in the order of
the include sections and their paths, and are looked up in it, exactly if the files of each include
section read the same from both ends. -/
theorem resolveIncludes_ordered_iff {w : Includes} {bytes : Bytes} {metadata : Metadata} {f : File}
    (hload : fromBytesOwned w bytes metadata = .ok f) (hnested : Nested w w.maxDepth (listing f)) :
    (∃ f',resolveIncludes w f = some (.ok f') ∧ listing f' = ordered w w.maxDepth (listing f) ∧ Mirrors f') ↔
      Symmetric w w.maxDepth (listing f) := by
  have hdepth : w.maxDepth≠0 := by
    intro h0
    rw [h0] at hnested
    exact hnested
  obtain ⟨hwf,hindexed,-⟩ := fromBytesOwned_loaded hload
  obtain ⟨f',hrun,-,hindexed',hlisting⟩ := resolveIncludesRecursive_run w.maxDepth hwf hindexed hnested
  have hresolve : resolveIncludes w f=some (.ok f') := by rw [resolveIncludes,if_neg hdepth,hrun]
  rw [← ordered_eq_iff]
  constructor
  · rintro ⟨g,hg,hordered,-⟩
    rw [hresolve] at hg
    cases hg
    rw [← hordered,hlisting]
  · intro heq
    exact ⟨f',hresolve,by rw [hlisting,heq],mirrors_iff.mpr hindexed'⟩

/-- Files `a` and `b`, each with a value of its own for `x.y`. -/
def sampleFiles : Includes where
  maxDepth := 2
  errOnMaxDepthExceeded := true
  lossy := true
  resolvePath path _ := .ok (some path)
  includeConditionMatch _ _ := .ok false
  isFile path := path = [97] ∨ path = [98]
  read path := if path = [97] then .ok [91,120,93,121,61,49] else .ok [91,120,93,121,61,50]
  bomLength _ := 0

/-- An include section with a path `a`, and one that has a path `b` as well. -/
def sampleRoot : Bytes := 91 :: includeName++[93]++pathName++[61,97]
def sampleRootTwo : Bytes := sampleRoot++10 :: pathName++[61,98]

def sampleInclude (values : List Bytes) : Header × List Event :=
  (⟨includeName,none,none⟩,values.flatMap fun v => [.sectionValueName pathName,.keyValueSeparator,.value v])

def sampleValue (v : UInt8) : Header × List Event :=
  (⟨[120],none,none⟩,[.sectionValueName [121],.keyValueSeparator,.value [v]])

theorem sampleFiles_load {bytes : Bytes} {sections : List (Header × List Event)} (metadata : Metadata)
    (h : (fromBytes (fun _ => 0) bytes).map (splitSections discardNonessentialEvents)=some sections) :
    fromBytesOwned sampleFiles bytes metadata = .ok (fromParseEventsNoIncludes sections metadata) := by
  obtain ⟨_,hparse,rfl⟩ := map_eq_some_iff.mp h
  have hbom : sampleFiles.bomLength=fun _ => 0 := rfl
  rw [fromBytesOwned,hbom,hparse]
  rfl

theorem sampleFiles_nested {values : List Bytes} (h : ∀ v∈values,v=[97] ∨ v=[98])
    (hpaths : includePaths sampleFiles ⟨(sampleInclude values).1,(sampleInclude values).2,sampleMetadata⟩ = .ok values) :
    Nested sampleFiles 2 (listing (fromParseEventsNoIncludes [sampleInclude values] sampleMetadata)) := by
  have hleaf : ∀ v metadata,Nested sampleFiles 1 (listing (fromParseEventsNoIncludes [sampleValue v] metadata)) := by
    intro v metadata s hs
    rw [(fromParseEvents_loaded ..).2.2,map_singleton,mem_singleton] at hs
    exact ⟨[],by rw [hs]; rfl,by simp⟩
  intro s hs
  rw [(fromParseEvents_loaded ..).2.2,map_singleton,mem_singleton] at hs
  subst hs
  refine ⟨values,hpaths,fun path hpath => ?_⟩
  rcases h path hpath with rfl | rfl
  · exact ⟨[97],_,⟨rfl,by decide,_,rfl,sampleFiles_load _ (by decide : _=some [sampleValue 49])⟩,hleaf _ _⟩
  · exact ⟨[98],_,⟨rfl,by decide,_,rfl,sampleFiles_load _ (by decide : _=some [sampleValue 50])⟩,hleaf _ _⟩

theorem resolveIncludes_ordered_sample : ∃ f f',fromBytesOwned sampleFiles sampleRoot sampleMetadata = .ok f ∧
    resolveIncludes sampleFiles f = some (.ok f') ∧ listing f' = ordered sampleFiles 2 (listing f) ∧ Mirrors f' := by
  have hload : fromBytesOwned sampleFiles sampleRoot sampleMetadata =
      .ok (fromParseEventsNoIncludes [sampleInclude [[97]]] sampleMetadata) := sampleFiles_load _ (by decide)
  have hnested := @sampleFiles_nested [[97]] (by simp) (by decide)
  have hsymmetric : Symmetric sampleFiles 2
      (listing (fromParseEventsNoIncludes [sampleInclude [[97]]] sampleMetadata)) := by
    rw [← ordered_eq_iff]
    decide
  obtain ⟨f',hrun,hordered,hmirrors⟩ := (resolveIncludes_ordered_iff hload hnested).mpr hsymmetric
  exact ⟨_,f',hload,hrun,hordered,hmirrors⟩

/-- The value of the file included first is the one that counts. -/
theorem later_include_comes_first : ∃ f f',fromBytesOwned sampleFiles sampleRootTwo sampleMetadata = .ok f ∧
    Nested sampleFiles sampleFiles.maxDepth (listing f) ∧ resolveIncludes sampleFiles f = some (.ok f') ∧
    listing f' ≠ ordered sampleFiles sampleFiles.maxDepth (listing f) ∧
    (listing f').map Section.body = [(sampleInclude [[97],[98]]).2,(sampleValue 50).2,(sampleValue 49).2] ∧
    rawValue f' [120] none [121] = some (.ok [49]) := by
  have hload : fromBytesOwned sampleFiles sampleRootTwo sampleMetadata =
      .ok (fromParseEventsNoIncludes [sampleInclude [[97],[98]]] sampleMetadata) := sampleFiles_load _ (by decide)
  have hnested := @sampleFiles_nested [[97],[98]] (by simp) (by decide)
  have hview : ((resolveIncludes sampleFiles (fromParseEventsNoIncludes [sampleInclude [[97],[98]]] sampleMetadata)).bind
      Except.toOption).map (fun f => ((listing f).map Section.body,rawValue f [120] none [121])) =
        some ([(sampleInclude [[97],[98]]).2,(sampleValue 50).2,(sampleValue 49).2],some (.ok [49])) := by decide
  have hordered : (ordered sampleFiles 2 (listing (fromParseEventsNoIncludes [sampleInclude [[97],[98]]]
      sampleMetadata))).map Section.body =
        [(sampleInclude [[97],[98]]).2,(sampleValue 49).2,(sampleValue 50).2] := by decide
  obtain ⟨f',hf',hview⟩ := map_eq_some_iff.mp hview
  obtain ⟨r,hrun,hr⟩ := bind_eq_some_iff.mp hf'
  obtain ⟨hbodies,hvalue⟩ := Prod.mk.inj hview
  cases r with
  | error e => simp [Except.toOption] at hr
  | ok f1 =>
    cases hr
    refine ⟨_,f',hload,hnested,hrun,fun heq => ?_,hbodies,hvalue⟩
    rw [heq] at hbodies
    exact absurd (hordered.symm.trans hbodies) (by decide)

end Gix.Config
