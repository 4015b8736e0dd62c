import Gix.ConfigSections

/-! # The lookup tree and the order of sections

After any calls the tree has the ids of the order by name as long as no call renames a section, removes
one by a filter, or removes the last of its name. -/
namespace Gix.Config
open List
open ByteCodec (eqIgnoreAsciiCase toAsciiLowercase)

def Section.named (name : Bytes) (subsection : Option Bytes) (s : Section) : Bool :=
  eqIgnoreAsciiCase s.header.name name && s.header.subsectionName = subsection

/-- The ids of the sections of a name, in the order of the file. -/
def members (f : File) (name : Bytes) (subsection : Option Bytes) : List ℕ :=
  f.sectionOrder.filter fun id => (f.sections id).any (Section.named name subsection)

def idsOf (f : File) (name : Bytes) (subsection : Option Bytes) : Option (List ℕ) :=
  (f.sectionLookupTree (name.map toAsciiLowercase)).bind (findIds · subsection)

/-- The lookup finds the ids of the order, and neither reading call panics. -/
structure Mirrors (f : File) : Prop where
  found : ∀ name subsection,(sectionIdsByNameAndSubname f name subsection).toOption.getD [] =
    members f name subsection
  sectionMut : ∀ name subsection,sectionMut f name subsection ≠ none
  rawValue : ∀ name subsection valueName,rawValue f name subsection valueName ≠ none

/-- Order and sections have the same ids, all of them given out before. -/
structure WellFormed (f : File) : Prop where
  nodup : f.sectionOrder.Nodup
  present : ∀ id ∈ f.sectionOrder,∃ s,f.sections id = some s
  ordered : ∀ id s,f.sections id = some s → id ∈ f.sectionOrder
  fresh : ∀ id ∈ f.sectionOrder,id < f.sectionIdCounter

/-- A list of ids is in the tree exactly if it is not empty. -/
def Indexed (f : File) : Prop :=
  ∀ name subsection,idsOf f name subsection =
    if members f name subsection = [] then none else some (members f name subsection)

variable {f : File} {name : Bytes} {subsection : Option Bytes} {id : ℕ} {ids : List ℕ} {s : Section}

theorem toOption_sectionIds :
    (sectionIdsByNameAndSubname f name subsection).toOption=idsOf f name subsection := by
  unfold sectionIdsByNameAndSubname idsOf
  cases f.sectionLookupTree (name.map toAsciiLowercase) with
  | none => rfl
  | some nodes => cases hfind : findIds nodes subsection <;> simp [hfind,Except.toOption]

theorem sectionIds_of_some (h : idsOf f name subsection=some ids) :
    sectionIdsByNameAndSubname f name subsection = .ok ids := by
  rw [← toOption_sectionIds] at h
  cases hids : sectionIdsByNameAndSubname f name subsection with
  | error e => simp [hids,Except.toOption] at h
  | ok ids' =>
    obtain rfl : ids'=ids := by simpa [hids,Except.toOption] using h
    rfl

/-- With a right tree a name is found exactly if there is a section of that name. -/
theorem Indexed.lookup (h : Indexed f) (name : Bytes) (subsection : Option Bytes) :
    (members f name subsection=[] ∧ ∃ e,sectionIdsByNameAndSubname f name subsection = .error e) ∨
      members f name subsection≠[] ∧
        sectionIdsByNameAndSubname f name subsection = .ok (members f name subsection) := by
  by_cases hnil : members f name subsection=[]
  · have hnone := (h name subsection).trans (if_pos hnil)
    rw [← toOption_sectionIds] at hnone
    cases hids : sectionIdsByNameAndSubname f name subsection with
    | error e => exact .inl ⟨hnil,e,rfl⟩
    | ok ids => simp [hids,Except.toOption] at hnone
  · exact .inr ⟨hnil,sectionIds_of_some ((h name subsection).trans (if_neg hnil))⟩

theorem mem_members : id∈members f name subsection ↔
    id∈f.sectionOrder ∧ ∃ s,f.sections id=some s ∧ s.named name subsection := by
  simp [members,Option.any_eq_true]

theorem firstValue_ne_none (h : ∀ id∈ids,∃ s,f.sections id=some s) (valueName : Bytes) :
    firstValue f valueName ids≠none := by
  induction ids with
  | nil => simp [firstValue]
  | cons id ids ih =>
    obtain ⟨s,hs⟩ := h id (by simp)
    simp only [firstValue,hs]
    split
    · simp
    · exact ih fun id hid => h id (by simp [hid])

theorem mirrors_iff : Mirrors f ↔ Indexed f := by
  constructor
  · intro h name subsection
    have hfound := h.found name subsection
    rw [toOption_sectionIds] at hfound
    cases hids : idsOf f name subsection with
    | none =>
      have hnil : members f name subsection=[] := by simpa [hids] using hfound.symm
      rw [if_pos hnil]
    | some ids =>
      rw [hids] at hfound
      subst hfound
      rw [if_neg]
      intro hnil
      have := h.sectionMut name subsection
      simp [Config.sectionMut,sectionIds_of_some hids,hnil] at this
  · intro h
    refine ⟨fun name subsection => ?_,fun name subsection => ?_,fun name subsection valueName => ?_⟩ <;>
      rcases h.lookup name subsection with ⟨hnil,_,he⟩ | ⟨hnil,hids⟩
    · rw [he,hnil]
      rfl
    · rw [hids]
      rfl
    · simp [Config.sectionMut,he]
    · obtain ⟨-,s,hs,-⟩ := mem_members.1 (getLast_mem hnil)
      simp [Config.sectionMut,hids,getLast?_eq_some_getLast hnil,hs]
    · simp [Config.rawValue,he]
    · simp only [Config.rawValue,hids]
      refine firstValue_ne_none (fun id hid => ?_) valueName
      obtain ⟨-,s,hs,-⟩ := mem_members.1 (mem_reverse.1 hid)
      exact ⟨s,hs⟩

/-! The tree after a change -/

theorem findIds_updateIds (change : List ℕ → List ℕ) (nodes : List SectionBodyIdsLut)
    (subsection other : Option Bytes) :
    findIds (updateIds change nodes subsection) other =
      if other=subsection then some (change ((findIds nodes subsection).getD []))
      else findIds nodes other := by
  fun_induction updateIds change nodes subsection with
  | case1 subsection => cases other <;> simp [findIds]
  | case2 => cases other <;> simp [findIds]
  | case3 subsections nodes subsection =>
    cases other with
    | none => simp [findIds]
    | some other =>
      by_cases h : other=subsection
      · subst h
        simp [findIds]
      · simp [findIds,h]
  | case4 ids nodes => cases other <;> simp [findIds]
  | case5 node nodes subsection hnonTerminal hterminal ih =>
    cases node with
    | terminal ids =>
      cases subsection with
      | none => exact absurd rfl (hterminal ids rfl)
      | some subsection => cases other <;> simp [findIds,ih]
    | nonTerminal subsections =>
      cases subsection with
      | some subsection => exact absurd rfl (hnonTerminal subsections subsection rfl)
      | none => cases other <;> simp [findIds,ih]

theorem named_iff {s : Section} : s.named name subsection ↔
    name.map toAsciiLowercase=s.header.name.map toAsciiLowercase ∧
      subsection=s.header.subsectionName := by
  simp only [Section.named,eqIgnoreAsciiCase,Bool.and_eq_true,decide_eq_true_eq]
  exact and_congr eq_comm eq_comm

theorem named_header {s : Section} (h : s.named name subsection) :
    Section.named name subsection=Section.named s.header.name s.header.subsectionName := by
  obtain ⟨hname,hsub⟩ := named_iff.1 h
  funext t
  rw [Bool.eq_iff_iff,named_iff,named_iff,hname,hsub]

theorem members_of_named {s : Section} (h : s.named name subsection) :
    members f name subsection=members f s.header.name s.header.subsectionName := by
  simp [members,named_header h]

theorem idsOf_updateTree {f' : File} {s : Section} {change : List ℕ → List ℕ}
    (htree : f'.sectionLookupTree=f.updateTree s.header change) (name : Bytes)
    (subsection : Option Bytes) :
    idsOf f' name subsection =
      if s.named name subsection then some (change ((idsOf f name subsection).getD []))
      else idsOf f name subsection := by
  simp only [idsOf,htree,File.updateTree,named_iff]
  by_cases hname : name.map toAsciiLowercase=s.header.name.map toAsciiLowercase
  · rw [if_pos hname,Option.bind_some,findIds_updateIds]
    cases f.sectionLookupTree (name.map toAsciiLowercase) with
    | none =>
      by_cases hsub : subsection=s.header.subsectionName
      · simp [hname,findIds]
      · simp [hsub,findIds]
    | some nodes =>
      by_cases hsub : subsection=s.header.subsectionName
      · simp [hname,hsub]
      · simp [hsub]
  · rw [if_neg hname,if_neg (fun h => hname h.1)]

theorem removeId_eq {nodes : List SectionBodyIdsLut} (hfind : findIds nodes subsection=some ids)
    (hid : id∈ids) :
    removeId id nodes subsection=some (updateIds (·.erase id) nodes subsection) := by
  fun_induction removeId id nodes subsection with
  | case1 => simp [findIds] at hfind
  | case2 subsections nodes subsection ids' hids hmem =>
    have : (fun s => if s=subsection then some (ids'.erase id) else subsections s) =
        fun s => if s=subsection then some (((subsections s).getD []).erase id)
          else subsections s := by
      funext s
      split
      · rename_i heq
        simp [heq,hids]
      · rfl
    simp [updateIds,this]
  | case3 subsections nodes subsection ids' hids hmem =>
    obtain rfl : ids'=ids := by simpa [findIds,hids] using hfind
    exact absurd hid hmem
  | case4 subsections nodes subsection hids ih => simp [findIds,hids] at hfind
  | case5 ids' nodes hmem => simp [updateIds]
  | case6 ids' nodes hmem =>
    obtain rfl : ids'=ids := by simpa [findIds] using hfind
    exact absurd hid hmem
  | case7 node nodes subsection hnonTerminal hterminal ih =>
    rw [findIds.eq_4 _ _ _ hnonTerminal hterminal] at hfind
    rw [updateIds.eq_5 _ _ _ _ hnonTerminal hterminal,ih hfind,Option.map_some]

/-! Adding sections -/

section Push

variable (h : WellFormed f)
include h

theorem WellFormed.push (s : Section) :
    WellFormed (pushSectionInternal f s).1 where
  nodup := by
    refine nodup_append.2 ⟨h.nodup,by simp,?_⟩
    intro a ha b hb
    have := h.fresh a ha
    simp only [mem_singleton] at hb
    omega
  present id hid := by
    simp only [pushSectionInternal,mem_append,mem_singleton] at hid ⊢
    split
    · exact ⟨s,rfl⟩
    · rename_i hne
      exact h.present id (hid.resolve_right hne)
  ordered id s' hs := by
    simp only [pushSectionInternal,mem_append,mem_singleton] at hs ⊢
    split at hs
    · rename_i heq
      exact .inr heq
    · exact .inl (h.ordered id s' hs)
  fresh id hid := by
    simp only [pushSectionInternal,mem_append,mem_singleton] at hid ⊢
    rcases hid with hid|rfl
    · have := h.fresh id hid
      omega
    · omega

theorem members_push (s : Section) (name : Bytes) (subsection : Option Bytes) :
    members (pushSectionInternal f s).1 name subsection =
      members f name subsection++(if s.named name subsection then [f.sectionIdCounter] else []) := by
  simp only [members,pushSectionInternal,filter_append]
  congr 1
  · refine filter_congr fun id hid => ?_
    rw [if_neg (Nat.ne_of_lt (h.fresh id hid))]
  · by_cases hnamed : s.named name subsection <;> simp [hnamed]

theorem Indexed.push (hindexed : Indexed f) (s : Section) :
    Indexed (pushSectionInternal f s).1 := by
  intro name subsection
  rw [@idsOf_updateTree f _ s _ rfl,members_push h,hindexed name subsection]
  by_cases hnamed : s.named name subsection
  · by_cases hnil : members f name subsection=[] <;> simp [hnamed,hnil]
  · simp [hnamed]

theorem append_push {other : File} {ids : List ℕ} (hindexed : Indexed f)
    (hnodup : ids.Nodup) (hpresent : ∀ id∈ids,∃ s,other.sections id=some s) :
    ∃ f',appendSections f other ids=some f' ∧ WellFormed f' ∧ Indexed f' := by
  induction ids generalizing f other with
  | nil => exact ⟨f,rfl,h,hindexed⟩
  | cons id ids ih =>
    obtain ⟨s,hs⟩ := hpresent id (by simp)
    obtain ⟨hid,hnodup⟩ := nodup_cons.1 hnodup
    simp only [appendSections,hs]
    refine ih (h.push s) (hindexed.push h s) hnodup fun i hi => ?_
    have hne : i≠id := fun heq => hid (heq ▸ hi)
    simp only [if_neg hne]
    exact hpresent i (by simp [hi])

end Push

/-! Removing sections -/

section Remove

def File.without (f : File) (id : ℕ) (tree : Bytes → Option (List SectionBodyIdsLut)) : File :=
  ⟨fun i => if i = id then none else f.sections i,f.sectionOrder.erase id,f.sectionIdCounter,tree⟩

variable (h : WellFormed f)
include h

theorem WellFormed.without (id : ℕ)
    (tree : Bytes → Option (List SectionBodyIdsLut)) : WellFormed (f.without id tree) where
  nodup := h.nodup.erase id
  present i hi := by
    obtain ⟨hne,hi⟩ := h.nodup.mem_erase_iff.1 hi
    simp only [File.without,if_neg hne]
    exact h.present i hi
  ordered i s hs := by
    simp only [File.without] at hs ⊢
    split at hs
    · cases hs
    · rename_i hne
      exact h.nodup.mem_erase_iff.2 ⟨hne,h.ordered i s hs⟩
  fresh i hi := h.fresh i (mem_of_mem_erase hi)

theorem members_without (id : ℕ)
    (tree : Bytes → Option (List SectionBodyIdsLut)) (name : Bytes) (subsection : Option Bytes) :
    members (f.without id tree) name subsection=(members f name subsection).erase id := by
  have hnodup : (members f name subsection).Nodup := h.nodup.filter _
  rw [hnodup.erase_eq_filter,members,members,File.without,h.nodup.erase_eq_filter,
    filter_filter,filter_filter]
  refine filter_congr fun i _ => ?_
  by_cases hi : i=id
  · simp [hi]
  · simp [hi,Bool.and_comm]

theorem WellFormed.mem_members (hs : f.sections id=some s) :
    id∈members f s.header.name s.header.subsectionName :=
  Config.mem_members.2 ⟨h.ordered id s hs,s,hs,named_iff.2 ⟨rfl,rfl⟩⟩

theorem removeSectionById_eq (hindexed : Indexed f)
    (hs : f.sections id=some s) :
    removeSectionById f id =
      some (f.without id (f.updateTree s.header (·.erase id)),some s) := by
  have hmem := h.mem_members hs
  have hids := hindexed s.header.name s.header.subsectionName
  rw [if_neg (ne_nil_of_mem hmem),idsOf,Option.bind_eq_some_iff] at hids
  obtain ⟨_,hnodes,hfind⟩ := hids
  simp only [removeSectionById,if_pos (h.ordered id s hs),hs,hnodes,removeId_eq hfind hmem,
    Option.map_some]
  congr 3
  funext n
  simp only [File.updateTree]
  split
  · rename_i heq
    simp [heq,hnodes]
  · rfl

/-- The tree stays right if the section was not the last of its name. -/
theorem indexed_without_iff (hindexed : Indexed f)
    (hs : f.sections id=some s) :
    Indexed (f.without id (f.updateTree s.header (·.erase id))) ↔
      (members f s.header.name s.header.subsectionName).length≠1 := by
  have hmem := h.mem_members hs
  have hlookup := @idsOf_updateTree f (f.without id (f.updateTree s.header (·.erase id))) s _ rfl
  constructor
  · intro hafter hone
    obtain ⟨only,honly⟩ := length_eq_one_iff.1 hone
    have hkey := hafter s.header.name s.header.subsectionName
    obtain rfl : id=only := by simpa [honly] using hmem
    rw [hlookup,if_pos (named_iff.2 ⟨rfl,rfl⟩),members_without h,honly] at hkey
    simp at hkey
  · intro hmany name subsection
    rw [hlookup,members_without h,hindexed name subsection]
    by_cases hnamed : s.named name subsection
    · rw [members_of_named hnamed,if_pos hnamed]
      have hlength := length_erase_of_mem hmem
      have hpos := length_pos_of_mem hmem
      have hne : (members f s.header.name s.header.subsectionName).erase id≠[] := by
        rw [← length_pos_iff]
        omega
      simp [ne_nil_of_mem hmem,hne]
    · have hnot : id∉members f name subsection := by
        intro hin
        obtain ⟨-,s',hs',hnamed'⟩ := Config.mem_members.1 hin
        obtain rfl : s=s' := Option.some.inj (hs.symm.trans hs')
        exact hnamed hnamed'
      rw [if_neg hnamed,erase_of_not_mem hnot]

end Remove

/-! Filters and new names -/

def File.passes (f : File) (filter : Metadata → Bool) (id : ℕ) : Bool :=
  (f.sections id).any fun s => filter s.metadata

theorem findFiltered_eq {ids : List ℕ} (filter : Metadata → Bool)
    (h : ∀ id∈ids,∃ s,f.sections id=some s) :
    findFiltered f filter ids=some (ids.find? (f.passes filter)) := by
  induction ids with
  | nil => rfl
  | cons id ids ih =>
    obtain ⟨s,hs⟩ := h id (by simp)
    have hrest := ih fun i hi => h i (by simp [hi])
    by_cases hpass : filter s.metadata
    · simp [findFiltered,hs,hpass,File.passes]
    · simp [findFiltered,hs,hpass,File.passes,hrest]

theorem findFiltered_members (name : Bytes) (subsection : Option Bytes) (filter : Metadata → Bool) :
    (findFiltered f filter (members f name subsection).reverse=some none ∧
      ∀ id∈members f name subsection,f.passes filter id=false) ∨
    ∃ id∈members f name subsection,f.passes filter id ∧
      findFiltered f filter (members f name subsection).reverse=some (some id) := by
  rw [findFiltered_eq filter fun id hid => ?_]
  · cases hfind : (members f name subsection).reverse.find? (f.passes filter) with
    | none => exact .inl ⟨rfl,fun id hid => by simpa using find?_eq_none.1 hfind id (mem_reverse.2 hid)⟩
    | some id => exact .inr ⟨id,mem_reverse.1 (mem_of_find?_eq_some hfind),find?_some hfind,rfl⟩
  · obtain ⟨-,s,hs,-⟩ := mem_members.1 (mem_reverse.1 hid)
    exact ⟨s,hs⟩

theorem not_indexed_of_stale {f' : File} (htree : f'.sectionLookupTree=f.sectionLookupTree) (hindexed : Indexed f)
    (hid : id∈members f name subsection) (hmem : id∉members f' name subsection) : ¬Indexed f' := by
  intro h
  have hkey := h name subsection
  rw [idsOf,htree,← idsOf,hindexed name subsection,if_neg (ne_nil_of_mem hid)] at hkey
  split at hkey
  · cases hkey
  · exact hmem (Option.some.inj hkey ▸ hid)

def File.replace (f : File) (id : ℕ) (s : Section) : File :=
  {f with sections := fun i => if i = id then some s else f.sections i}

theorem WellFormed.replace (h : WellFormed f) (hid : id∈f.sectionOrder) (s : Section) :
    WellFormed (f.replace id s) where
  nodup := h.nodup
  present i hi := by
    simp only [File.replace]
    split
    · exact ⟨s,rfl⟩
    · exact h.present i hi
  ordered i s' hs := by
    simp only [File.replace] at hs ⊢
    split at hs
    · rename_i heq
      exact heq ▸ hid
    · exact h.ordered i s' hs
  fresh := h.fresh

/-- The tree stays right if the new name is the old one. -/
theorem indexed_replace_iff (hindexed : Indexed f) (hid : id∈members f name subsection)
    (s : Section) : Indexed (f.replace id s) ↔ s.named name subsection := by
  constructor
  · contrapose
    intro hnamed
    refine not_indexed_of_stale (f := f) rfl hindexed hid ?_
    simp [mem_members,File.replace,hnamed]
  · intro hnamed name' subsection'
    obtain ⟨-,old,hold,hnamed'⟩ := mem_members.1 hid
    have hsame : members (f.replace id s) name' subsection'=members f name' subsection' := by
      refine filter_congr fun i _ => ?_
      by_cases hi : i=id
      · subst hi
        have hkeys : s.named name' subsection'=old.named name' subsection' := by
          obtain ⟨h₁,h₂⟩ := named_iff.1 hnamed
          obtain ⟨h₃,h₄⟩ := named_iff.1 hnamed'
          rw [Bool.eq_iff_iff,named_iff,named_iff,← h₁,← h₂,← h₃,← h₄]
        simp [File.replace,hold,hkeys]
      · simp [File.replace,hi]
    rw [hsame]
    exact hindexed name' subsection'

/-! Calls -/

/-- A call that changes sections. A file that is appended has its sections in order. -/
inductive Op
  | newSection (name : Bytes) (subsection : Option Bytes) (metadata : Metadata) (nl : Bytes)
  | pushSection (s : Section)
  | removeSection (name : Bytes) (subsection : Option Bytes)
  | removeSectionById (id : ℕ)
  | removeSectionFilter (name : Bytes) (subsection : Option Bytes) (filter : Metadata → Bool)
  | renameSection (name : Bytes) (subsection : Option Bytes) (newName : Bytes)
    (newSubsection : Option Bytes)
  | renameSectionFilter (name : Bytes) (subsection : Option Bytes) (newName : Bytes)
    (newSubsection : Option Bytes) (filter : Metadata → Bool)
  | append (other : {f : File // WellFormed f})

/-- The file after a call, `none` for a panic. -/
def step (f : File) : Op → Option File
  | .newSection name subsection metadata nl => some (newSection f name subsection metadata nl).1
  | .pushSection s => some (pushSection f s)
  | .removeSection name subsection => (removeSection f name subsection).map (·.1)
  | .removeSectionById id => (removeSectionById f id).map (·.1)
  | .removeSectionFilter name subsection filter =>
    (removeSectionFilter f name subsection filter).map (·.1)
  | .renameSection name subsection newName newSubsection =>
    (renameSection f name subsection newName newSubsection).map (·.1)
  | .renameSectionFilter name subsection newName newSubsection filter =>
    (renameSectionFilter f name subsection newName newSubsection filter).map (·.1)
  | .append other => append f other

/-- The new name is refused, or the old one up to its case. -/
def KeepsName (name : Bytes) (subsection : Option Bytes) (newName : Bytes)
    (newSubsection : Option Bytes) : Prop :=
  ∀ header,Header.new newName newSubsection = .ok header →
    eqIgnoreAsciiCase newName name ∧ newSubsection = subsection

/-- The calls that keep the tree: no section that is the only one of its name is removed, none is
removed by a filter, and none gets another name. -/
def Keeps (f : File) : Op → Prop
  | .newSection _ _ _ _ | .pushSection _ | .append _ => True
  | .removeSection name subsection => (members f name subsection).length ≠ 1
  | .removeSectionById id =>
    ∀ s,f.sections id = some s → (members f s.header.name s.header.subsectionName).length ≠ 1
  | .removeSectionFilter name subsection filter =>
    ∀ id ∈ members f name subsection,f.passes filter id = false
  | .renameSection name subsection newName newSubsection =>
    members f name subsection = [] ∨ KeepsName name subsection newName newSubsection
  | .renameSectionFilter name subsection newName newSubsection filter =>
    (∀ id ∈ members f name subsection,f.passes filter id = false) ∨
      KeepsName name subsection newName newSubsection

section Step

theorem header_new_ok {newName : Bytes} {newSubsection : Option Bytes} {header : Header}
    (h : Header.new newName newSubsection = .ok header) :
    header.name=newName ∧ header.subsectionName=newSubsection := by
  unfold Header.new at h
  split at h
  · split at h
    · cases h
      exact ⟨rfl,rfl⟩
    · split at h
      · cases h
      · cases h
        exact ⟨rfl,rfl⟩
  · cases h

/-- The call does not panic, and the tree stays right exactly if it keeps it. -/
def Steps (f : Option File) (keeps : Prop) : Prop := ∃ f',f = some f' ∧ WellFormed f' ∧ (Indexed f' ↔ keeps)

variable (h : WellFormed f) (hindexed : Indexed f)
include h hindexed

theorem steps_same {keeps : Prop} (hkeeps : keeps) : Steps (some f) keeps := ⟨f,rfl,h,iff_of_true hindexed hkeeps⟩

theorem renameId_step (hid : id∈members f name subsection) (newName : Bytes) (newSubsection : Option Bytes) :
    Steps ((renameId f id newName newSubsection).map (·.1)) (KeepsName name subsection newName newSubsection) := by
  obtain ⟨horder,s,hs,-⟩ := mem_members.1 hid
  simp only [renameId,hs]
  cases hheader : Header.new newName newSubsection with
  | error e => exact steps_same h hindexed (by simp [KeepsName,hheader])
  | ok header =>
    refine ⟨_,rfl,h.replace horder {s with header := header},?_⟩
    rw [← File.replace,indexed_replace_iff hindexed hid]
    obtain ⟨hname,hsub⟩ := header_new_ok hheader
    simp [KeepsName,hheader,Section.named,hname,hsub]

theorem removeSectionById_step (id : ℕ) :
    Steps ((removeSectionById f id).map (·.1)) (Keeps f (.removeSectionById id)) := by
  unfold Keeps
  cases hs : f.sections id with
  | none =>
    have hid : id∉f.sectionOrder := by
      intro hid
      obtain ⟨s,hsome⟩ := h.present id hid
      rw [hs] at hsome
      cases hsome
    rw [removeSectionById,if_neg hid]
    exact steps_same h hindexed (by simp [hs])
  | some s =>
    rw [removeSectionById_eq h hindexed hs]
    refine ⟨_,rfl,h.without _ _,?_⟩
    rw [indexed_without_iff h hindexed hs]
    simp [hs]

theorem removeSectionFilter_step (name : Bytes) (subsection : Option Bytes) (filter : Metadata → Bool) :
    Steps ((removeSectionFilter f name subsection filter).map (·.1))
      (Keeps f (.removeSectionFilter name subsection filter)) := by
  unfold removeSectionFilter Keeps
  rcases hindexed.lookup name subsection with ⟨hnil,_,he⟩ | ⟨-,hids⟩
  · rw [he]
    exact steps_same h hindexed (by simp [hnil])
  rw [hids]
  rcases findFiltered_members (f := f) name subsection filter with ⟨hfind,hnone⟩ | ⟨id,hid,hpass,hfind⟩ <;> simp [hfind]
  · exact steps_same h hindexed hnone
  · rw [if_pos (mem_members.1 hid).1]
    refine ⟨f.without id f.sectionLookupTree,rfl,h.without id _,iff_of_false ?_ fun hnone => ?_⟩
    · refine not_indexed_of_stale (f := f) rfl hindexed hid ?_
      rw [members_without h]
      exact (h.nodup.filter _).not_mem_erase
    · simp [hnone id hid] at hpass

/-- No call panics on a file whose tree is right, and the tree stays right exactly if the call keeps
it. -/
theorem step_indexed (op : Op) : Steps (step f op) (Keeps f op) := by
  cases op with
  | newSection name subsection metadata nl =>
    simp only [step,newSection]
    cases Header.new name subsection with
    | error e => exact steps_same h hindexed trivial
    | ok header => exact ⟨_,rfl,h.push _,iff_of_true (hindexed.push h _) trivial⟩
  | pushSection s => exact ⟨_,rfl,h.push s,iff_of_true (hindexed.push h s) trivial⟩
  | removeSection name subsection =>
    simp only [step,Keeps,removeSection]
    rcases hindexed.lookup name subsection with ⟨hnil,e,he⟩ | ⟨hnil,hids⟩
    · rw [he]
      exact steps_same h hindexed (by simp [hnil])
    · obtain ⟨-,s,hs,hnamed⟩ := mem_members.1 (getLast_mem hnil)
      obtain ⟨f',hf',hwell,hiff⟩ := removeSectionById_step h hindexed
        ((members f name subsection).getLast hnil)
      refine ⟨f',?_,hwell,?_⟩
      · simpa [hids,getLast?_eq_some_getLast hnil] using hf'
      · have hlength := congrArg length (@members_of_named f _ _ s hnamed)
        rw [hiff,hlength]
        simp [Keeps,hs]
  | removeSectionById id => exact removeSectionById_step h hindexed id
  | removeSectionFilter name subsection filter =>
    exact removeSectionFilter_step h hindexed name subsection filter
  | renameSection name subsection newName newSubsection =>
    simp only [step,renameSection]
    rcases hindexed.lookup name subsection with ⟨hnil,e,he⟩ | ⟨hnil,hids⟩
    · rw [he]
      exact steps_same h hindexed (.inl hnil)
    · obtain ⟨f',hf',hwell,hiff⟩ := renameId_step h hindexed (getLast_mem hnil) newName
        newSubsection
      refine ⟨f',?_,hwell,hiff.trans ⟨.inr,fun hor => hor.resolve_left hnil⟩⟩
      simpa [hids,getLast?_eq_some_getLast hnil] using hf'
  | renameSectionFilter name subsection newName newSubsection filter =>
    simp only [step,Keeps,renameSectionFilter]
    rcases hindexed.lookup name subsection with ⟨hnil,e,he⟩ | ⟨-,hids⟩
    · rw [he]
      exact steps_same h hindexed (by simp [hnil])
    rw [hids]
    rcases findFiltered_members (f := f) name subsection filter with ⟨hfind,hnone⟩ | ⟨id,hid,hpass,hfind⟩ <;> simp only [hfind]
    · exact steps_same h hindexed (.inl hnone)
    · obtain ⟨f',hf',hwell,hiff⟩ := renameId_step h hindexed hid newName newSubsection
      refine ⟨f',hf',hwell,hiff.trans ⟨.inr,fun hor => hor.resolve_left fun hnone => ?_⟩⟩
      simp [hnone id hid] at hpass
  | append other =>
    obtain ⟨f',hf',hwell,hindexed'⟩ := append_push h hindexed other.2.nodup other.2.present
    exact ⟨f',hf',hwell,iff_of_true hindexed' trivial⟩

end Step

/-- No call panics, and after each of them the lookup mirrors the file. -/
def AllMirror (f : File) : List Op → Prop
  | [] => True
  | op :: ops => ∃ f',step f op = some f' ∧ Mirrors f' ∧ AllMirror f' ops

/-- Every call keeps the tree of the file it is made on. -/
def AllKeep (f : File) : List Op → Prop
  | [] => True
  | op :: ops => Keeps f op ∧ ∀ f',step f op = some f' → AllKeep f' ops

theorem allMirror_iff {f : File} (h : WellFormed f) (hindexed : Indexed f) (ops : List Op) :
    AllMirror f ops ↔ AllKeep f ops := by
  induction ops generalizing f with
  | nil => exact Iff.rfl
  | cons op ops ih =>
    obtain ⟨_,hf',hwell,hiff⟩ := step_indexed h hindexed op
    simp only [AllMirror,AllKeep,hf',Option.some.injEq,exists_eq_left',forall_eq',mirrors_iff,hiff]
    exact and_congr_right fun hkeeps => ih hwell (hiff.2 hkeeps)

theorem wellFormed_empty : WellFormed File.empty :=
  ⟨nodup_nil,by simp [File.empty],by simp [File.empty],by simp [File.empty]⟩

theorem indexed_empty : Indexed File.empty := by
  intro name subsection
  rfl

/-- Whatever is called on a new file, the lookup mirrors it after each call exactly if every call keeps
the tree. -/
theorem empty_allMirror_iff (ops : List Op) : AllMirror File.empty ops ↔ AllKeep File.empty ops :=
  allMirror_iff wellFormed_empty indexed_empty ops

def sampleA : Bytes := [97]
def sampleB : Bytes := [98]

def sampleMetadata : Metadata := ⟨none,.api,0,.full⟩

/-- Two sections of one name, of which one is removed again. -/
theorem empty_allMirror_three : AllMirror File.empty
    [.newSection sampleA (some sampleB) sampleMetadata [10],
      .newSection sampleA (some sampleB) sampleMetadata [10],
      .removeSection sampleA (some sampleB)] := by
  refine (empty_allMirror_iff _).2 ⟨trivial,?_⟩
  rintro _ ⟨⟩
  refine ⟨trivial,?_⟩
  rintro _ ⟨⟩
  exact ⟨by unfold Keeps; decide,fun _ _ => trivial⟩

/-- A section that was removed by its name panics when it is looked for again. -/
theorem removed_section_panics : ¬AllMirror File.empty
    [.newSection sampleA none sampleMetadata [10],.removeSection sampleA none] := by
  rintro ⟨_,⟨⟩,-,f,hf,hmirrors,-⟩
  have hpanic : (removeSection (newSection File.empty sampleA none sampleMetadata [10]).1
      sampleA none).bind (fun r => sectionMut r.1 sampleA none)=none := by decide
  have hstep : (removeSection (newSection File.empty sampleA none sampleMetadata [10]).1
      sampleA none).map (·.1)=some f := hf
  obtain ⟨r,hr,rfl⟩ := Option.map_eq_some_iff.1 hstep
  rw [hr] at hpanic
  exact hmirrors.sectionMut sampleA none hpanic

end Gix.Config
