import Gix.AttributeSearch
import Gix.FirstVisit

/-! # Ids of attributes

Names are numbered in the order in which they are met first, and a name never changes its id. After all
files were added the collection has the last definition of each macro. -/
namespace Gix.Attributes
open List MetadataCollection TrackedAssignment

namespace MetadataCollection

def names (c : MetadataCollection) : List Bytes := c.nameToMeta.map Prod.fst

def macrosOf (c : MetadataCollection) (name : Bytes) : List TrackedAssignment :=
  (c.get name).elim [] Metadata.macroAttributes

end MetadataCollection

def Tracked (c : MetadataCollection) (a : TrackedAssignment) : Prop := c.names[a.id]? = some a.inner.name

/-- Names are numbered, and the macros are those of the definitions. -/
structure Sound (c : MetadataCollection) (definitions : Bytes → List Assignment) : Prop where
  nodup : c.names.Nodup
  numbered : ∀ i (e : Bytes × Metadata),c.nameToMeta[i]? = some e → e.2.id = i
  macros : ∀ name,(c.macrosOf name).map TrackedAssignment.inner = definitions name
  tracked : ∀ name,∀ a ∈ c.macrosOf name,Tracked c a

/-- More names, behind those there were. -/
def Grows (c c' : MetadataCollection) : Prop := ∃ more,c'.names = c.names++more

section Grow
variable {c c' c'' : MetadataCollection} {a : TrackedAssignment} {name : Bytes} {definitions : Bytes → List Assignment}
  {metadata : Metadata}

theorem Grows.refl (c : MetadataCollection) : Grows c c := ⟨[],(append_nil _).symm⟩

theorem Grows.trans (h : Grows c c') (h' : Grows c' c'') : Grows c c'' := by
  obtain ⟨more,hmore⟩ := h
  obtain ⟨more',hmore'⟩ := h'
  exact ⟨more++more',by rw [hmore',hmore,append_assoc]⟩

theorem Tracked.grows (h : Tracked c a) (hg : Grows c c') : Tracked c' a := by
  obtain ⟨_,hmore⟩ := hg
  rw [Tracked,hmore,List.getElem?_append_left (List.getElem?_eq_some_iff.mp h).1]
  exact h

theorem get_eq_some (h : c.get name=some metadata) : (name,metadata)∈c.nameToMeta := by
  obtain ⟨e,he,rfl⟩ := Option.map_eq_some_iff.mp h
  have hname : e.1=name := by simpa using find?_some he
  rw [← hname]
  exact mem_of_find?_eq_some he

theorem find?_key_eq_none {α : Type} {key : α → Bytes} {l : List α} :
    l.find? (fun a => key a=name)=none ↔ name∉l.map key := by
  rw [find?_eq_none,mem_map]
  constructor
  · rintro h ⟨a,ha,hname⟩
    exact h a ha (by simpa using hname)
  · intro h a ha hname
    exact h ⟨a,ha,by simpa using hname⟩

theorem get_eq_none : c.get name=none ↔ name∉c.names := Option.map_eq_none_iff.trans find?_key_eq_none

theorem Sound.id_of_get (h : Sound c definitions) (hget : c.get name=some metadata) :
    c.names[metadata.id]? = some name := by
  obtain ⟨i,hi,he⟩ := mem_iff_getElem.mp (get_eq_some hget)
  have hsome : c.nameToMeta[i]? = some (name,metadata) := by rw [getElem?_eq_getElem hi,he]
  have hid := h.numbered i _ hsome
  rw [hid,names,getElem?_map,hsome]
  rfl

theorem Sound.get_of_mem {e : Bytes × Metadata} (h : Sound c definitions) (he : e∈c.nameToMeta) :
    c.get e.1=some e.2 := by
  cases hget : c.get e.1 with
  | none => exact absurd (mem_map_of_mem he) (get_eq_none.mp hget)
  | some metadata =>
    have hmem := get_eq_some hget
    have heq := inj_on_of_nodup_map h.nodup hmem he rfl
    rw [← heq]

end Grow

section Numbering
variable {c : MetadataCollection} {definitions : Bytes → List Assignment} {name : Bytes}

theorem get_insert (hnew : name∉c.names) (other : Bytes) :
    (c.insert name).get other=if other=name then some ⟨c.nameToMeta.length,[]⟩ else c.get other := by
  rw [MetadataCollection.get,MetadataCollection.insert,find?_append]
  by_cases hother : other=name
  · have hnone : c.nameToMeta.find? (fun e => e.1=other)=none := by
      rw [hother]
      exact Option.map_eq_none_iff.mp (get_eq_none.mpr hnew)
    rw [hnone]
    simp [hother]
  · rw [if_neg hother,MetadataCollection.get]
    cases c.nameToMeta.find? (fun e => e.1=other) <;> simp [Ne.symm hother]

theorem macrosOf_insert (hnew : name∉c.names) : (c.insert name).macrosOf=c.macrosOf := by
  funext other
  rw [macrosOf,macrosOf,get_insert hnew]
  split_ifs with h
  · rw [h,get_eq_none.mpr hnew]
    rfl
  · rfl

theorem grows_insert (c : MetadataCollection) (name : Bytes) : Grows c (c.insert name) :=
  ⟨[name],by simp [names,MetadataCollection.insert]⟩

variable (h : Sound c definitions)
include h

theorem Sound.insert (hnew : name∉c.names) :
    Sound (c.insert name) definitions where
  nodup := by
    have hnames : (c.insert name).names=c.names++[name] := by
      simp [names,MetadataCollection.insert]
    rw [hnames]
    refine nodup_append.mpr ⟨h.nodup,by simp,fun n hn n' hn' heq => ?_⟩
    exact hnew (mem_singleton.mp hn' ▸ heq ▸ hn)
  numbered i e he := by
    rw [MetadataCollection.insert] at he
    rcases Nat.lt_or_ge i c.nameToMeta.length with hi | hi
    · rw [getElem?_append_left hi] at he
      exact h.numbered i e he
    · rw [getElem?_append_right hi,getElem?_singleton] at he
      split_ifs at he with h0
      cases he
      change c.nameToMeta.length=i
      omega
  macros := by
    rw [macrosOf_insert hnew]
    exact h.macros
  tracked other a ha := by
    rw [macrosOf_insert hnew] at ha
    exact (h.tracked other a ha).grows (grows_insert c name)

theorem idForAttribute_sound (name : Bytes) :
    Sound (c.idForAttribute name).1 definitions ∧ Grows c (c.idForAttribute name).1 ∧
      (c.idForAttribute name).1.names[(c.idForAttribute name).2]? = some name := by
  unfold idForAttribute
  cases hget : c.get name with
  | some metadata => exact ⟨h,.refl c,h.id_of_get hget⟩
  | none =>
    refine ⟨h.insert (get_eq_none.mp hget),grows_insert c name,?_⟩
    simp [names,MetadataCollection.insert]

theorem assignOrder_sound (attrs : List TrackedAssignment) :
    Sound (c.assignOrderToAttributes attrs).1 definitions ∧ Grows c (c.assignOrderToAttributes attrs).1 ∧
      (∀ a∈(c.assignOrderToAttributes attrs).2,Tracked (c.assignOrderToAttributes attrs).1 a) ∧
      (c.assignOrderToAttributes attrs).2.map inner=attrs.map inner := by
  induction attrs generalizing c with
  | nil => exact ⟨h,.refl c,by simp [assignOrderToAttributes],rfl⟩
  | cons a attrs ih =>
    obtain ⟨h1,hg1,hid⟩ := idForAttribute_sound h a.inner.name
    obtain ⟨h2,hg2,htracked,hinner⟩ := ih h1
    refine ⟨h2,hg1.trans hg2,?_,?_⟩
    · intro b hb
      rcases mem_cons.mp hb with rfl | hb
      · exact Tracked.grows hid hg2
      · exact htracked b hb
    · exact congrArg (a.inner :: ·) hinner

end Numbering

/-! ## Definitions -/

def Mapping.tracked (m : Mapping) : List TrackedAssignment :=
  match m.value with
  | .macroAssignments _ assignments => assignments
  | .assignments assignments => assignments

def Mapping.assigned (m : Mapping) : List Assignment := m.tracked.map TrackedAssignment.inner

def redefine (definitions : Bytes → List Assignment) (m : Mapping) : Bytes → List Assignment :=
  if m.isMacro then fun name => if name = m.pattern.text then m.assigned else definitions name else definitions

def definitions (files : List AttributeFile) : List (Bytes × List Assignment) :=
  (files.flatMap AttributeFile.mappings).filterMap fun m => if m.isMacro then some (m.pattern.text,m.assigned) else none

def definition (files : List AttributeFile) (name : Bytes) : List Assignment :=
  ((definitions files).filter fun d => d.1 = name).getLast?.elim [] Prod.snd

theorem foldl_redefine (mappings : List Mapping) (before : Bytes → List Assignment) (name : Bytes) :
    mappings.foldl redefine before name =
      ((mappings.filterMap fun m => if m.isMacro then some (m.pattern.text,m.assigned) else none).filter
        fun d => d.1=name).getLast?.elim (before name) Prod.snd := by
  induction mappings generalizing before with
  | nil => rfl
  | cons m mappings ih =>
    rw [foldl_cons,ih]
    by_cases hdefines : m.isMacro=true
    · by_cases hname : m.pattern.text=name
      · simp only [filterMap_cons,hdefines,if_true,filter_cons,hname,decide_true,redefine,getLast?_cons]
        cases (filter (fun d : Bytes × List Assignment => decide (d.1=name)) (filterMap (fun m : Mapping =>
          if m.isMacro=true then some (m.pattern.text,m.assigned) else none) mappings)).getLast? <;> rfl
      · simp [hdefines,hname,redefine,Ne.symm hname]
    · simp [hdefines,redefine]

structure Numbers (c : MetadataCollection) (m m' : Mapping) : Prop where
  pattern : m'.pattern = m.pattern
  sequenceNumber : m'.sequenceNumber = m.sequenceNumber
  isMacro : m'.isMacro = m.isMacro
  assigned : m'.assigned = m.assigned
  tracked : ∀ a ∈ m'.tracked,Tracked c a

section Define
variable {c c' : MetadataCollection} {known : Bytes → List Assignment} {m m' : Mapping}

theorem Numbers.grows (h : Numbers c m m') (hg : Grows c c') : Numbers c' m m' :=
  {h with tracked := fun a ha => (h.tracked a ha).grows hg}

theorem names_define (c : MetadataCollection) (name : Bytes) (attrs : List TrackedAssignment) :
    (c.define name attrs).names=c.names := by
  rw [names,MetadataCollection.define,map_map]
  refine map_congr_left fun e _ => ?_
  rw [Function.comp_apply]
  split_ifs with h
  · exact h.symm
  · rfl

theorem get_define (c : MetadataCollection) (name : Bytes) (attrs : List TrackedAssignment) (other : Bytes) :
    (c.define name attrs).get other =
      if other=name then (c.get name).map fun metadata => {metadata with macroAttributes := attrs} else c.get other := by
  have hfind : (c.define name attrs).nameToMeta.find? (fun e => e.1=other) =
      (c.nameToMeta.find? fun e => e.1=other).map fun e =>
        if e.1=name then (name,{e.2 with macroAttributes := attrs}) else e := by
    rw [MetadataCollection.define,find?_map]
    congr 2
    funext e
    rw [Function.comp_apply]
    split_ifs with h
    · rw [h]
    · rfl
  rw [MetadataCollection.get,hfind]
  cases hget : c.nameToMeta.find? (fun e => e.1=other) with
  | none =>
    have hnone : c.get other=none := by rw [MetadataCollection.get,hget]; rfl
    split_ifs with h
    · rw [← h,hnone]
      rfl
    · exact hnone.symm
  | some e =>
    have hname : e.1=other := by simpa using find?_some hget
    have hsome : c.get other=some e.2 := by rw [MetadataCollection.get,hget]; rfl
    split_ifs with h
    · rw [← h,hsome]
      simp [hname]
    · rw [hsome]
      simp [hname,h]

theorem Sound.define {name : Bytes} {attrs : List TrackedAssignment} (h : Sound c known) (hname : name∈c.names)
    (hattrs : ∀ a∈attrs,Tracked c a) :
    Sound (c.define name attrs) fun other => if other=name then attrs.map inner else known other := by
  have hmacros : ∀ other,(c.define name attrs).macrosOf other=if other=name then attrs else c.macrosOf other := by
    intro other
    rw [macrosOf,get_define]
    split_ifs with hother
    · cases hget : c.get name with
      | none => exact absurd hname (get_eq_none.mp hget)
      | some metadata => rfl
    · rfl
  have hgrows : Grows c (c.define name attrs) := ⟨[],by rw [names_define,append_nil]⟩
  refine ⟨by rw [names_define]; exact h.nodup,fun i e he => ?_,fun other => ?_,fun other a ha => ?_⟩
  · rw [MetadataCollection.define,getElem?_map] at he
    obtain ⟨e',he',rfl⟩ := Option.map_eq_some_iff.mp he
    have hid := h.numbered i e' he'
    split_ifs
    · exact hid
    · exact hid
  · rw [hmacros]
    split_ifs
    · rfl
    · exact h.macros other
  · rw [hmacros] at ha
    split_ifs at ha
    · exact (hattrs a ha).grows hgrows
    · exact (h.tracked other a ha).grows hgrows

theorem updateFromList_sound (h : Sound c known) (patterns : List Mapping) :
    Sound (c.updateFromList patterns).1 (patterns.foldl redefine known) ∧ Grows c (c.updateFromList patterns).1 ∧
      List.Forall₂ (Numbers (c.updateFromList patterns).1) patterns (c.updateFromList patterns).2 := by
  induction patterns generalizing c known with
  | nil => exact ⟨h,.refl c,.nil⟩
  | cons m patterns ih =>
    obtain ⟨pattern,value,_⟩ := m
    cases value with
    | assignments attrs =>
      obtain ⟨h1,hg1,htracked,hinner⟩ := assignOrder_sound h attrs
      obtain ⟨h2,hg2,hrest⟩ := ih h1
      exact ⟨h2,hg1.trans hg2,.cons ⟨rfl,rfl,rfl,hinner,fun a ha => (htracked a ha).grows hg2⟩ hrest⟩
    | macroAssignments id attrs =>
      obtain ⟨h1,hg1,hid⟩ := idForAttribute_sound h pattern.text
      obtain ⟨h2,hg2,htracked,hinner⟩ := assignOrder_sound h1 attrs
      have hname : pattern.text∈((c.idForAttribute pattern.text).1.assignOrderToAttributes attrs).1.names := by
        obtain ⟨_,hmore⟩ := hg2
        rw [hmore]
        exact mem_append_left _ (mem_of_getElem? hid)
      have h3 := h2.define hname htracked
      rw [hinner] at h3
      obtain ⟨h4,hg4,hrest⟩ := ih h3
      have hg3 : Grows ((c.idForAttribute pattern.text).1.assignOrderToAttributes attrs).1
          (((c.idForAttribute pattern.text).1.assignOrderToAttributes attrs).1.define pattern.text
            ((c.idForAttribute pattern.text).1.assignOrderToAttributes attrs).2) :=
        ⟨[],by rw [names_define,append_nil]⟩
      exact ⟨h4,((hg1.trans hg2).trans hg3).trans hg4,
        .cons ⟨rfl,rfl,rfl,hinner,fun a ha => ((htracked a ha).grows hg3).grows hg4⟩ hrest⟩

end Define

/-! ## Files -/

/-- The list of a file that was added. -/
structure Added (c : MetadataCollection) (f : AttributeFile) (list : PatternList) : Prop where
  base : list.base = f.base
  mappings : List.Forall₂ (Numbers c) f.mappings list.patterns

theorem addFiles_sound (files : List AttributeFile) :
    Sound (addFiles files).2 (definition files) ∧ List.Forall₂ (Added (addFiles files).2) files (addFiles files).1 := by
  have hempty : Sound ⟨[]⟩ fun _ => [] := ⟨nodup_nil,by simp,fun _ => rfl,by simp [macrosOf,
    MetadataCollection.get]⟩
  suffices hfold : Sound (addFiles files).2 ((files.flatMap AttributeFile.mappings).foldl redefine fun _ => []) ∧
      List.Forall₂ (Added (addFiles files).2) files (addFiles files).1 by
    refine ⟨?_,hfold.2⟩
    have hdefinition : definition files=(files.flatMap AttributeFile.mappings).foldl redefine fun _ => [] := by
      funext name
      rw [foldl_redefine]
      rfl
    rw [hdefinition]
    exact hfold.1
  induction files using reverseRecOn with
  | nil => exact ⟨hempty,.nil⟩
  | append_singleton files f ih =>
    have hadd : addFiles (files++[f])=addPatternsBuffer (addFiles files).1 (addFiles files).2 f := by
      rw [addFiles,foldl_append]
      rfl
    obtain ⟨h1,hg1,hlist⟩ := updateFromList_sound ih.1 f.mappings
    rw [hadd]
    refine ⟨?_,?_⟩
    · rw [flatMap_append,foldl_append,flatMap_singleton]
      exact h1
    · have hold : List.Forall₂ (Added ((addFiles files).2.updateFromList f.mappings).1) files (addFiles files).1 :=
        ih.2.imp fun g list hg => ⟨hg.base,hg.mappings.imp fun m m' hm => hm.grows hg1⟩
      exact rel_append hold (.cons ⟨rfl,hlist⟩ .nil)

end Gix.Attributes
