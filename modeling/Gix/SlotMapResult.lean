import Gix.SlotMap

/-! # No index file is lost from the slot map

The slots of the index stay apart and hold the files on disk as long as the files to add find
slots before the search comes to one that is in use. -/
namespace Gix.SlotMap
open List Function IndexAndPacks IndexInfo
variable {n : ℕ} {P : Type}

/-! What a slot holds -/

def Slot.held (slot : Slot P) : Option (P × ℕ) := slot.files.map fun b => (b.indexPath,b.mtime)

variable {p : P} {slot : Slot P} {i : Fin n} {s : Store n P} {info : IndexInfo P} {g : ℕ} {stable : Bool}
  {t : ℕ}

theorem held_eq_some : slot.held=some (p,t) ↔
    ∃ b,slot.files=some b ∧ b.indexPath=p ∧ b.mtime=t := by
  simp [Slot.held]

theorem held_assure {b : IndexAndPacks P} (h : slot.files=some b) (g : ℕ) :
    (assureSlotMatchesIndex slot b g).held=slot.held := by
  unfold assureSlotMatchesIndex
  split
  · simp [Slot.held,h,putBack]
  · rfl

theorem held_intoIndexAndPacks (info : IndexInfo P) (g : ℕ) :
    (Slot.mk (some info.intoIndexAndPacks) g).held=some (info.path,info.mtime) := by
  simp only [intoIndexAndPacks]
  split <;> rfl

/-! Slots that are cleared -/

variable {stable : Bool} {i : Fin n} {s : Store n P} {disk : Disk P}

section Remove
variable {g : ℕ} {files : Fin n → Slot P} {l : List (Fin n)}

theorem held_trash (slot : Slot P) (g : ℕ) :
    (Slot.mk (slot.files.map trash) g).held=slot.held := by
  cases h : slot.files <;> simp [Slot.held,h,trash]

theorem held_removeSlot (j : Fin n) : (removeSlot stable g files j i).held=(files i).held ∨
    (removeSlot stable g files j i).held=none ∧ i=j ∧ stable=false := by
  by_cases hi : i=j
  · subst hi
    rw [removeSlot,update_self]
    cases stable with
    | true => exact .inl (held_trash _ _)
    | false => exact .inr ⟨rfl,rfl,rfl⟩
  · exact .inl (by rw [removeSlot,update_of_ne hi])

/-- A cleared slot keeps its file or has none; the file goes only if no handle needs it. -/
theorem held_foldl_removeSlot : (l.foldl (removeSlot stable g) files i).held=(files i).held ∨
    (l.foldl (removeSlot stable g) files i).held=none ∧ i∈l ∧ stable=false := by
  induction l generalizing files with
  | nil => exact .inl rfl
  | cons j l ih =>
    rw [foldl_cons]
    rcases @ih (removeSlot stable g files j) with h | ⟨h,hi,hs⟩
    · rw [h]
      rcases held_removeSlot j with h | ⟨h,hi,hs⟩
      · exact .inl h
      · exact .inr ⟨h,hi ▸ mem_cons_self,hs⟩
    · exact .inr ⟨h,mem_cons_of_mem _ hi,hs⟩

end Remove

variable [DecidableEq P] {seen : List (IndexInfo P)} {m : Matching n P} {st : Probe n P}

/-! Files that have a slot -/

theorem mem_idxByIndexPath (h : (p,i)∈idxByIndexPath s) :
    i∈s.index.slotIndices ∧ ∃ t,(s.files i).held=some (p,t) := by
  have hall : ∀ (l : List (Fin n)) (m : List (P × Fin n)),
      (∀ e∈m,e.2∈s.index.slotIndices ∧ ∃ t,(s.files e.2).held=some (e.1,t)) →
      (∀ j∈l,j∈s.index.slotIndices) →
      ∀ e∈l.foldl (fun m i => (s.files i).files.elim m fun b => insertPath m b.indexPath i) m,e.2∈s.index.slotIndices ∧ ∃ t,(s.files e.2).held=some (e.1,t) := by
    intro l
    induction l with
    | nil => exact fun m hm _ => hm
    | cons j l ih =>
      intro m hm hl
      refine ih _ ?_ fun k hk => hl k (mem_cons_of_mem _ hk)
      intro e he
      cases hb : (s.files j).files with
      | none => exact hm e (by simpa [hb] using he)
      | some b =>
        simp only [hb,Option.elim_some] at he
        rcases mem_append.mp he with he | he
        · exact hm e (mem_of_mem_filter he)
        · rw [mem_singleton.mp he]
          exact ⟨hl j mem_cons_self,b.mtime,held_eq_some.mpr ⟨b,hb,rfl,rfl⟩⟩
  refine hall s.index.slotIndices [] (by simp) (fun _ h => h) (p,i) ?_
  rw [idxByIndexPath] at h
  convert h using 3 with m
  funext i
  cases (s.files i).files <;> rfl

theorem mem_of_lookup {l : List (P × Fin n)} (h : l.lookup p=some i) : (p,i)∈l := by
  obtain ⟨_,_,rfl,-⟩ := lookup_eq_some_iff.mp h
  simp

theorem lookup_filter_notMem {l : List (P × Fin n)} {ps : List P} (h : p∉ps) :
    (l.filter fun e => e.1∉ps).lookup p=l.lookup p := by
  induction l with
  | nil => rfl
  | cons e l ih =>
    by_cases he : e.1∈ps
    · have hne : (p == e.1)=false := by
        rw [beq_eq_false_iff_ne]
        exact fun h' => h (h' ▸ he)
      rw [filter_cons_of_neg (by simpa using he),ih,lookup_cons,hne]
    · rw [filter_cons_of_pos (by simpa using he),lookup_cons,lookup_cons,ih]

/-- The file is in a slot of the index and stays there. -/
def keepsSlot (s : Store n P) (info : IndexInfo P) : Bool :=
  match (idxByIndexPath s).lookup info.path with
  | some i => !(info.isMultiIndex && (s.files i).held ≠ some (info.path,info.mtime))
  | none => false

/-- What the files on disk up to now made of the slots. -/
structure Matched (s : Store n P) (seen : List (IndexInfo P)) (m : Matching n P) : Prop where
  paths : m.idxByIndexPath = (idxByIndexPath s).filter fun e => e.1 ∉ seen.map IndexInfo.path
  held : ∀ i, (m.files i).held = (s.files i).held
  untouched : ∀ i ∉ m.newSlotMapIndices, m.files i = s.files i
  toAdd : m.indexPathsToAdd.map Prod.fst = seen.filter (!keepsSlot s ·)
  moved : ∀ e ∈ m.indexPathsToAdd, ∀ i, e.2 = some i →
    i ∈ s.index.slotIndices ∧ ∃ t, (s.files i).held = some (e.1.path,t)
  kept : List.Forall₂ (fun i info => i ∈ s.index.slotIndices ∧
    ∃ t, (s.files i).held = some (info.path,t) ∧ (info.isMultiIndex → t = info.mtime))
    m.newSlotMapIndices (seen.filter (keepsSlot s))

theorem Matched.step (h : Matched s seen m)
    (hnew : info.path∉seen.map path) :
    Matched s (seen++[info]) (matchIndex s.index.generation m info) := by
  have hlookup : m.idxByIndexPath.lookup info.path=(idxByIndexPath s).lookup info.path := by
    rw [h.paths,lookup_filter_notMem hnew]
  have hpaths : m.idxByIndexPath.filter (·.1≠info.path) =
      (idxByIndexPath s).filter fun e => e.1∉(seen++[info]).map path := by
    rw [h.paths,filter_filter]
    refine filter_congr fun e _ => ?_
    rw [map_append,map_singleton,Bool.eq_iff_iff]
    simp only [Bool.and_eq_true,decide_eq_true_eq,mem_append,mem_singleton,not_or]
    exact and_comm
  unfold matchIndex
  rw [hlookup]
  cases hl : (idxByIndexPath s).lookup info.path with
  | none =>
    have hk : keepsSlot s info=false := by simp [keepsSlot,hl]
    refine ⟨?_,h.held,h.untouched,?_,?_,?_⟩
    · rw [← hpaths]
      refine (filter_eq_self.mpr fun e he => ?_).symm
      have hne := lookup_eq_none_iff.mp (hlookup.trans hl) e he
      exact decide_eq_true fun hp => by simp [hp] at hne
    · simp [h.toAdd,hk]
    · intro e he i hi
      rcases mem_append.mp he with he | he
      · exact h.moved e he i hi
      · simp only [mem_singleton] at he
        simp [he] at hi
    · simpa [hk] using h.kept
  | some i =>
    obtain ⟨hi,t,hheld⟩ := mem_idxByIndexPath (mem_of_lookup hl)
    obtain ⟨b,hb,-,hbt⟩ := held_eq_some.mp ((h.held i).trans hheld)
    simp only [hb]
    split
    · rename_i hchanged
      obtain ⟨hmulti,hne⟩ : info.isMultiIndex=true ∧ b.mtime≠info.mtime := by
        simpa using hchanged
      have hk : keepsSlot s info=false := by
        simp [keepsSlot,hl,hheld,hmulti,← hbt,hne]
      refine ⟨hpaths,h.held,h.untouched,?_,?_,?_⟩
      · simp [h.toAdd,hk]
      · intro e he j hj
        rcases mem_append.mp he with he | he
        · exact h.moved e he j hj
        · obtain rfl := mem_singleton.mp he
          cases hj
          exact ⟨hi,t,hheld⟩
      · simpa [hk] using h.kept
    · rename_i hsame
      have hmtime : info.isMultiIndex=true → t=info.mtime := by
        intro hmulti
        by_contra hne
        exact hsame (by simp [hmulti,hbt,hne])
      have hk : keepsSlot s info=true := by
        cases hm : info.isMultiIndex with
        | false => simp [keepsSlot,hl,hm]
        | true => simp [keepsSlot,hl,hheld,hmtime hm]
      refine ⟨hpaths,?_,?_,?_,h.moved,?_⟩
      · intro j
        rw [← h.held j]
        dsimp only
        by_cases hj : j=i
        · subst hj
          rw [update_self,held_assure hb]
        · rw [update_of_ne hj]
      · intro j hj
        dsimp only at hj ⊢
        rw [update_of_ne (fun he => hj (by simp [he]))]
        exact h.untouched j fun hm => hj (mem_append_left _ hm)
      · simp [h.toAdd,hk]
      · have hone : [info].filter (keepsSlot s)=[info] := by simp [hk]
        rw [filter_append,hone]
        exact rel_append h.kept (.cons ⟨hi,t,hheld,hmtime⟩ .nil)

theorem Matched.foldl (h : Matched s seen m)
    {later : List (IndexInfo P)} (hnodup : ((seen++later).map path).Nodup) :
    Matched s (seen++later) (later.foldl (matchIndex s.index.generation) m) := by
  induction later generalizing seen m with
  | nil => simpa using h
  | cons info later ih =>
    have hsplit : seen++info::later=seen++[info]++later := by simp
    rw [hsplit] at hnodup ⊢
    refine ih (h.step ?_) hnodup
    rw [map_append,map_append] at hnodup
    have hdisj := (nodup_append.mp (nodup_append.mp hnodup).1).2.2
    exact fun hmem => hdisj _ hmem _ (by simp) rfl

theorem matchIndices_matched (s : Store n P) (disk : Disk P) :
    Matched s disk.indices (matchIndices s disk) := by
  have h : Matched s [] ⟨s.files,idxByIndexPath s,[],[]⟩ :=
    ⟨by simp,fun _ => rfl,fun _ _ => rfl,rfl,by simp,.nil⟩
  simpa [matchIndices] using h.foldl disk.nodup

/-! First fit -/

section Fits
variable {α β : Type} {used : β → Bool} {takes : α → β → Prop} {slot : β} {order : List β}
  {file : α} {files : List α}

/-- No slot is in use, or the files have slots in order before the first that is. -/
def Fits (used : β → Bool) (takes : α → β → Prop) (order : List β) (files : List α) : Prop :=
  (∀ i ∈ order, used i = false) ∨
    ∃ slots, slots.Sublist (order.takeWhile (!used ·)) ∧ List.Forall₂ takes files slots

variable (h : Fits used takes (slot :: order) (file :: files))
include h

theorem Fits.unused : used slot=false := by
  rcases h with h | ⟨_,hsub,htakes⟩
  · exact h slot mem_cons_self
  · by_contra hused
    rw [takeWhile_cons_of_neg (by simpa using hused)] at hsub
    obtain rfl := sublist_nil.mp hsub
    cases htakes

theorem Fits.take :
    Fits used takes order files := by
  have hunused := h.unused
  rcases h with h | ⟨_,hsub,htakes⟩
  · exact .inl fun i hi => h i (mem_cons_of_mem _ hi)
  · rw [takeWhile_cons_of_pos (by simp [hunused])] at hsub
    cases htakes with
    | cons _ hlater => exact .inr ⟨_,hsub.of_cons_cons,hlater⟩

/-- The first slot is of no use if it does not take the first file. -/
theorem Fits.skip (hnot : ¬takes file slot) :
    Fits used takes order (file::files) := by
  have hunused := h.unused
  rcases h with h | ⟨slots,hsub,htakes⟩
  · exact .inl fun i hi => h i (mem_cons_of_mem _ hi)
  · rw [takeWhile_cons_of_pos (by simp [hunused])] at hsub
    cases hsub with
    | cons _ hsub => exact .inr ⟨slots,hsub,htakes⟩
    | cons_cons _ hsub =>
      cases htakes with
      | cons htake _ => exact absurd htake hnot

end Fits

/-! Files that need a slot -/

/-- A slot of the index with a file that is on disk, or that is going to be cleared. -/
def inUse (s : Store n P) (stable : Bool) (disk : Disk P) (i : Fin n) : Bool :=
  i ∈ s.index.slotIndices &&
    (s.files i).files.any fun b => b.indexPath ∈ disk.paths || !stable

def Takes (s : Store n P) (stable : Bool) (info : IndexInfo P) (i : Fin n) : Prop :=
  ∀ b, (s.files i).files = some b → refuses stable b info = false

theorem trySetIndexSlot_eq_none (hslot : slot=s.files i) (h : trySetIndexSlot stable g slot info=none) :
    ¬Takes s stable info i := by
  subst hslot
  unfold trySetIndexSlot at h
  split at h
  · rename_i b hb
    split at h
    · rename_i hr
      exact fun htakes => absurd hr (by simp [htakes b hb])
    · simp at h
  · simp at h

theorem trySetIndexSlot_held {slot' : Slot P} {wasEmpty : Bool}
    (h : trySetIndexSlot stable g slot info=some (slot',wasEmpty)) : slot'.held=some (info.path,info.mtime) := by
  unfold trySetIndexSlot at h
  split at h
  · split at h
    · simp at h
    · cases h
      exact held_intoIndexAndPacks info _
  · cases h
    exact held_intoIndexAndPacks info _

/-- What a search does from one state to the next: `landed` are the slots it gave to files. -/
structure Probed (used : Fin n → Bool) (order : List (Fin n))
    (files : List (IndexInfo P × Option (Fin n))) (st st' : Probe n P)
    (result : Except Failure Unit) (landed : List (Fin n)) : Prop where
  order : landed.Sublist order
  unused : ∀ i ∈ landed, used i = false
  indices : st'.newSlotMapIndices = st.newSlotMapIndices++landed
  rest : ∀ i ∉ landed, st'.files i = st.files i
  removed : ∀ i ∈ st'.slotIndicesToRemove, i ∈ st.slotIndicesToRemove ∨ ∃ e ∈ files, e.2 = some i
  held : result = .ok () →
    List.Forall₂ (fun i e => (st'.files i).held = some (e.1.path,e.1.mtime)) landed files
  full : result = .ok () ∨ ∃ needed, result = .error (.insufficientSlots n needed)

omit [DecidableEq P] in
theorem Probed.ended {used : Fin n → Bool} {order : List (Fin n)} :
    Probed used order [] st st (.ok ()) [] :=
  ⟨nil_sublist _,by simp,by simp,fun _ _ => rfl,fun _ => .inl,fun _ => .nil,.inl rfl⟩

theorem probe_probed {used : Fin n → Bool} {order : List (Fin n)} {files : List (IndexInfo P × Option (Fin n))}
    (hfits : Fits used (Takes s stable) order (files.map Prod.fst)) (hnodup : order.Nodup)
    (hmoved : ∀ e∈files,∀ i,e.2=some i → used i=true)
    (hsame : ∀ i∈order,used i=false → st.files i=s.files i) :
    ∃ landed,Probed used order files st (probe stable g order files st).1
      (probe stable g order files st).2 landed := by
  induction order generalizing files st with
  | nil =>
    cases files with
    | nil => exact ⟨[],.ended⟩
    | cons e files =>
      exact ⟨[],nil_sublist _,by simp,by simp [probe],fun _ _ => rfl,fun _ => .inl,
        by simp [probe],.inr ⟨_,rfl⟩⟩
  | cons i order ih =>
    cases files with
    | nil => exact ⟨[],.ended⟩
    | cons e files =>
      obtain ⟨info,moveFrom⟩ := e
      have hunused := hfits.unused
      have hmove : moveFrom≠some i := by
        intro he
        rw [hmoved _ mem_cons_self i he] at hunused
        simp at hunused
      have hi := hsame i mem_cons_self hunused
      obtain ⟨hnotMem,hnodup⟩ := nodup_cons.mp hnodup
      rw [probe,if_neg hmove]
      cases ht : trySetIndexSlot stable g (st.files i) info with
      | none =>
        have hskip : Fits used (Takes s stable) order (((info,moveFrom)::files).map Prod.fst) :=
          hfits.skip (trySetIndexSlot_eq_none hi ht)
        obtain ⟨landed,h⟩ := ih hskip hnodup hmoved
          fun j hj => hsame j (mem_cons_of_mem _ hj)
        exact ⟨landed,h.order.cons i,h.unused,h.indices,h.rest,h.removed,h.held,h.full⟩
      | some r =>
        obtain ⟨slot,wasEmpty⟩ := r
        let next : Probe n P := ⟨update st.files i slot,st.newSlotMapIndices++[i],
          st.slotIndicesToRemove++moveFrom.toList,st.needsGenerationChange || !wasEmpty⟩
        have hnext : ∀ j∈order,used j=false → next.files j=s.files j := by
          intro j hj hu
          have hne : j≠i := fun he => hnotMem (he ▸ hj)
          rw [← hsame j (mem_cons_of_mem _ hj) hu]
          exact update_of_ne hne _ _
        obtain ⟨landed,h⟩ := ih hfits.take hnodup
          (fun e he => hmoved e (mem_cons_of_mem _ he)) hnext
        have hlanded : i∉landed := fun hmem => hnotMem (h.order.subset hmem)
        refine ⟨i::landed,h.order.cons_cons i,?_,?_,?_,?_,?_,h.full⟩
        · simpa [hunused] using h.unused
        · rw [h.indices,append_assoc]
          rfl
        · intro j hj
          obtain ⟨hne,hj⟩ := not_or.mp fun h => hj (mem_cons.mpr h)
          rw [h.rest j hj]
          exact update_of_ne hne _ _
        · intro j hj
          rcases h.removed j hj with hj | ⟨e,he,hj⟩
          · rcases mem_append.mp hj with hj | hj
            · exact .inl hj
            · exact .inr ⟨_,mem_cons_self,by simpa using hj⟩
          · exact .inr ⟨e,mem_cons_of_mem _ he,hj⟩
        · intro hok
          refine .cons ?_ (h.held hok)
          rw [h.rest i hlanded]
          change (update st.files i slot i).held=_
          rw [update_self,trySetIndexSlot_held ht]

/-! Consolidation -/

/-- The files to add have slots, in the order they are looked at, before the first slot that is in
use. -/
def HasRoom (s : Store n P) (stable : Bool) (disk : Disk P) : Prop :=
  Fits (inUse s stable disk) (Takes s stable) (probeOrder s.index)
    (disk.indices.filter (!keepsSlot s ·))

theorem inUse_of_held {disk : Disk P} (hi : i∈s.index.slotIndices) (hheld : (s.files i).held=some (p,t))
    (h : p∈disk.paths ∨ stable=false) : inUse s stable disk i=true := by
  obtain ⟨_,hb,rfl,-⟩ := held_eq_some.mp hheld
  simpa [inUse,hi,hb] using h

section Search

theorem exists_of_forall₂ {α β : Type} {r : α → β → Prop} {l₁ : List α} {l₂ : List β}
    (h : List.Forall₂ r l₁ l₂) {a : α} (ha : a∈l₁) : ∃ b∈l₂,r a b := by
  obtain ⟨n,rfl⟩ := get_of_mem ha
  exact ⟨_,get_mem l₂ _,h.get n.2 (h.length_eq ▸ n.2)⟩

/-- A slot that stays holds a file on disk that does not need another one. -/
theorem kept_held (hi : i∈(matchIndices s disk).newSlotMapIndices) :
    i∈s.index.slotIndices ∧ ∃ info∈disk.indices,keepsSlot s info=true ∧
      ∃ t,(s.files i).held=some (info.path,t) := by
  obtain ⟨info,hinfo,hmem,t,hheld,-⟩ := exists_of_forall₂ (matchIndices_matched s disk).kept hi
  obtain ⟨hinfo,hkeeps⟩ := mem_filter.mp hinfo
  exact ⟨hmem,info,hinfo,hkeeps,t,hheld⟩

theorem kept_inUse (hi : i∈(matchIndices s disk).newSlotMapIndices) : inUse s stable disk i=true := by
  obtain ⟨hmem,_,hinfo,-,_,hheld⟩ := kept_held hi
  exact inUse_of_held hmem hheld (.inl (mem_map_of_mem hinfo))

/-- A file that is moved is on disk, and its old slot is one of the index. -/
theorem moved_held {e : IndexInfo P × Option (Fin n)} (he : e∈(matchIndices s disk).indexPathsToAdd)
    (hi : e.2=some i) :
    i∈s.index.slotIndices ∧ e.1∈disk.indices ∧ keepsSlot s e.1=false ∧
      ∃ t,(s.files i).held=some (e.1.path,t) := by
  have hm := matchIndices_matched s disk
  obtain ⟨hmem,t,hheld⟩ := hm.moved e he i hi
  have hin : e.1∈disk.indices.filter (!keepsSlot s ·) := by
    rw [← hm.toAdd]
    exact mem_map_of_mem he
  obtain ⟨hin,hkeeps⟩ := mem_filter.mp hin
  exact ⟨hmem,hin,by simpa using hkeeps,t,hheld⟩

variable (h : HasRoom s stable disk)
include h

theorem search_probed :
    ∃ landed,Probed (inUse s stable disk) (probeOrder s.index)
      (matchIndices s disk).indexPathsToAdd
      ⟨(matchIndices s disk).files,(matchIndices s disk).newSlotMapIndices,
        (matchIndices s disk).idxByIndexPath.map Prod.snd,false⟩
      (search stable disk s).1 (search stable disk s).2 landed := by
  have hm := matchIndices_matched s disk
  have hfits : Fits (inUse s stable disk) (Takes s stable) (probeOrder s.index)
      ((matchIndices s disk).indexPathsToAdd.map Prod.fst) := by
    rw [hm.toAdd]
    exact h
  refine probe_probed hfits (nodup_rotate.mpr (nodup_finRange n)) ?_ ?_
  · intro e he i hi
    obtain ⟨hmem,hin,-,_,hheld⟩ := moved_held he hi
    exact inUse_of_held hmem hheld (.inl (mem_map_of_mem hin))
  · intro i _ hunused
    refine hm.untouched i fun hkept => ?_
    rw [kept_inUse hkept] at hunused
    simp at hunused

theorem search_held (hi : inUse s stable disk i=true) :
    ((search stable disk s).1.files i).held=(s.files i).held := by
  obtain ⟨landed,hp⟩ := search_probed h
  have hnot : i∉landed := by
    intro hmem
    rw [hp.unused i hmem] at hi
    simp at hi
  rw [hp.rest i hnot]
  exact (matchIndices_matched s disk).held i

/-- The slots of the new index hold the files on disk. -/
theorem search_exact (hok : (search stable disk s).2 = .ok ()) :
    List.Forall₂ (fun i info => ∃ t,((search stable disk s).1.files i).held=some (info.path,t) ∧
        (info.isMultiIndex → t=info.mtime)) (search stable disk s).1.newSlotMapIndices
      (disk.indices.filter (keepsSlot s)++disk.indices.filter (!keepsSlot s ·)) := by
  have hm := matchIndices_matched s disk
  obtain ⟨_,hp⟩ := search_probed h
  rw [hp.indices]
  refine rel_append ?_ ?_
  · have hkept : ∀ i∈(matchIndices s disk).newSlotMapIndices,
        ((search stable disk s).1.files i).held=(s.files i).held :=
      fun i hi => search_held h (kept_inUse hi)
    refine ((forall₂_and_left _ _).mpr ⟨hkept,hm.kept⟩).imp ?_
    rintro i info ⟨hsame,-,t,hheld,hmtime⟩
    exact ⟨t,hsame.trans hheld,hmtime⟩
  · rw [← hm.toAdd,forall₂_map_right_iff]
    exact (hp.held hok).imp fun i e he => ⟨e.1.mtime,he,fun _ => rfl⟩

/-- A slot that is cleared held a file of the index; the file is gone, or it has another slot. -/
theorem removed_held (hi : i∈(search stable disk s).1.slotIndicesToRemove) :
    i∈s.index.slotIndices ∧ ∃ p t,(s.files i).held=some (p,t) ∧
      ∀ info∈disk.indices,info.path=p → keepsSlot s info=false := by
  obtain ⟨_,hp⟩ := search_probed h
  rcases hp.removed i hi with hi | ⟨e,he,hi⟩
  · obtain ⟨⟨p,_⟩,hmem,rfl⟩ := mem_map.mp hi
    rw [(matchIndices_matched s disk).paths] at hmem
    obtain ⟨hmem,hgone⟩ := mem_filter.mp hmem
    obtain ⟨hmem,t,hheld⟩ := mem_idxByIndexPath hmem
    refine ⟨hmem,p,t,hheld,?_⟩
    rintro info hinfo rfl
    exact absurd (mem_map_of_mem hinfo) (of_decide_eq_true hgone)
  · obtain ⟨hmem,hin,hkeeps,t,hheld⟩ := moved_held he hi
    refine ⟨hmem,e.1.path,t,hheld,?_⟩
    intro info hinfo hpath
    rw [inj_on_of_nodup_map disk.nodup hinfo hin hpath]
    exact hkeeps

/-- A slot of the new index is cleared only while indices have to be stable. -/
theorem search_removed (hi : i∈(search stable disk s).1.newSlotMapIndices)
    (hremoved : i∈(search stable disk s).1.slotIndicesToRemove) : stable=true := by
  obtain ⟨hmem,_,_,hheld,hgone⟩ := removed_held h hremoved
  obtain ⟨_,hp⟩ := search_probed h
  rw [hp.indices] at hi
  rcases mem_append.mp hi with hi | hi
  · obtain ⟨-,info,hinfo,hkeeps,_,hheld'⟩ := kept_held hi
    cases hheld'.symm.trans hheld
    simp [hgone info hinfo rfl] at hkeeps
  · by_contra hstable
    have hunused := hp.unused i hi
    rw [inUse_of_held hmem hheld (.inr (by simpa using hstable))] at hunused
    simp at hunused

omit h

/-! Outcomes -/

/-- A new index fails with the slots as the search left them, or it is there and slots are
cleared. -/
theorem install_cases (st : Probe n P) :
    (∃ e,install stable disk s st=({s with files := st.files},.error e)) ∨
    ∃ g,(install stable disk s st).2 = .ok () ∧
      (install stable disk s st).1.index.slotIndices=st.newSlotMapIndices ∧
      (install stable disk s st).1.files =
        st.slotIndicesToRemove.foldl (removeSlot stable g) st.files := by
  unfold install
  dsimp only
  split
  · exact .inl ⟨_,rfl⟩
  split
  · exact .inl ⟨_,rfl⟩
  · refine .inr ⟨_,rfl,?_,rfl⟩
    split
    · rfl
    · rename_i hsame
      exact not_not.mp (not_or.mp hsame).1

end Search

/-- What one consolidation has to do to a store. -/
structure Consistent (s : Store n P) (disk : Disk P) (s' : Store n P)
    (result : Except Failure Unit) : Prop where
  distinct : result = .ok () → s'.index.slotIndices.Nodup
  exact : result = .ok () → (s'.index.slotIndices.map fun i =>
    (s'.files i).files.map IndexAndPacks.indexPath).Perm (disk.paths.map some)
  current : result = .ok () → ∀ info ∈ disk.indices, info.isMultiIndex = true →
    ∃ i ∈ s'.index.slotIndices, (s'.files i).held = some (info.path,info.mtime)
  kept : ∀ i ∈ s.index.slotIndices, ∀ b, (s.files i).files = some b → b.indexPath ∈ disk.paths →
    ∀ b', (s'.files i).files = some b' → b'.indexPath = b.indexPath
  full : n < disk.indices.length → ∃ needed, result = .error (.insufficientSlots n needed)

section Consistent

variable {files : Fin n → Slot P} {l : List (Fin n)}

omit [DecidableEq P] in
theorem map_path_eq {infos : List (IndexInfo P)}
    (h : List.Forall₂ (fun i info => ∃ t,(files i).held=some (info.path,t) ∧
      (info.isMultiIndex → t=info.mtime)) l infos) :
    l.map (fun i => (files i).files.map indexPath) =
      infos.map (some ∘ path) := by
  induction h with
  | nil => rfl
  | cons hr _ ih =>
    obtain ⟨t,hheld,-⟩ := hr
    obtain ⟨_,hb,hpath,-⟩ := held_eq_some.mp hheld
    simp [ih,hb,hpath]

theorem filter_keeps_perm (s : Store n P) (disk : Disk P) :
    (disk.indices.filter (keepsSlot s)++disk.indices.filter (!keepsSlot s ·)).Perm disk.indices :=
  filter_append_perm (keepsSlot s) disk.indices

theorem map_path_perm
    (h : List.Forall₂ (fun i info => ∃ t,(files i).held=some (info.path,t) ∧
      (info.isMultiIndex → t=info.mtime)) l
      (disk.indices.filter (keepsSlot s)++disk.indices.filter (!keepsSlot s ·))) :
    (l.map fun i => (files i).files.map indexPath).Perm (disk.paths.map some) := by
  rw [map_path_eq h,Disk.paths,map_map]
  exact (filter_keeps_perm s disk).map _

omit [DecidableEq P] in
theorem nodup_of_perm
    (h : (l.map fun i => (files i).files.map indexPath).Perm (disk.paths.map some)) :
    l.Nodup :=
  .of_map _ (h.nodup_iff.mpr (disk.nodup.map (Option.some_injective P)))

variable (h : HasRoom s stable disk)
include h

theorem consolidate_kept {i : Fin n} (hi : inUse s stable disk i=true) :
    ((consolidateWithDiskState stable disk s).1.files i).held=(s.files i).held ∨
      ((consolidateWithDiskState stable disk s).1.files i).held=none := by
  rw [← search_held h hi]
  unfold consolidateWithDiskState
  split
  · exact .inl rfl
  · rcases install_cases (search stable disk s).1 with ⟨_,he⟩ | ⟨_,-,-,hfiles⟩
    · rw [he]
      exact .inl rfl
    · rw [hfiles]
      exact held_foldl_removeSlot.imp id And.left

/-- The slots of the new index hold the files on disk also when the others are cleared. -/
theorem consolidate_exact
    (hok : (consolidateWithDiskState stable disk s).2 = .ok ()) :
    List.Forall₂ (fun i info => ∃ t,
        ((consolidateWithDiskState stable disk s).1.files i).held=some (info.path,t) ∧
        (info.isMultiIndex → t=info.mtime))
      (consolidateWithDiskState stable disk s).1.index.slotIndices
      (disk.indices.filter (keepsSlot s)++disk.indices.filter (!keepsSlot s ·)) := by
  cases hsearch : (search stable disk s).2 with
  | error e => simp [consolidateWithDiskState,hsearch] at hok
  | ok _ =>
    have hinstall : consolidateWithDiskState stable disk s =
        install stable disk s (search stable disk s).1 := by
      simp only [consolidateWithDiskState,hsearch]
    rw [hinstall] at hok ⊢
    rcases install_cases (search stable disk s).1 with ⟨e,he⟩ | ⟨g,-,hindices,hfiles⟩
    · rw [he] at hok
      simp at hok
    · rw [hindices,hfiles]
      have hsame : ∀ i∈(search stable disk s).1.newSlotMapIndices,
          ((search stable disk s).1.slotIndicesToRemove.foldl (removeSlot stable g)
            (search stable disk s).1.files i).held=((search stable disk s).1.files i).held := by
        intro i hi
        rcases held_foldl_removeSlot with hheld | ⟨-,hremoved,hstable⟩
        · exact hheld
        · rw [search_removed h hi hremoved] at hstable
          simp at hstable
      refine ((forall₂_and_left _ _).mpr ⟨hsame,search_exact h hsearch⟩).imp ?_
      rintro i info ⟨heq,t,hheld,hmtime⟩
      exact ⟨t,heq.trans hheld,hmtime⟩

/-- With more files than slots the search comes to its end. -/
theorem consolidate_full (hlen : n < disk.indices.length) :
    ∃ needed,(consolidateWithDiskState stable disk s).2 =
      .error (.insufficientSlots n needed) := by
  obtain ⟨_,hp⟩ := search_probed h
  rcases hp.full with hok | ⟨needed,herr⟩
  · have hexact := search_exact h hok
    have hnodup := nodup_of_perm (map_path_perm hexact)
    have hcard := hnodup.length_le_card
    rw [Fintype.card_fin,hexact.length_eq,(filter_keeps_perm s disk).length_eq] at hcard
    omega
  · refine ⟨needed,?_⟩
    unfold consolidateWithDiskState
    rw [herr]

theorem consolidate_consistent :
    Consistent s disk (consolidateWithDiskState stable disk s).1
      (consolidateWithDiskState stable disk s).2 where
  distinct hok := nodup_of_perm (map_path_perm (consolidate_exact h hok))
  exact hok := map_path_perm (consolidate_exact h hok)
  current hok info hinfo hmulti := by
    have hmem := (filter_keeps_perm s disk).mem_iff.mpr hinfo
    obtain ⟨i,hi,_,hheld,hmtime⟩ := exists_of_forall₂ (consolidate_exact h hok).flip hmem
    exact ⟨i,hi,hmtime hmulti ▸ hheld⟩
  kept i hi b hb hpath b' hb' := by
    have hheld :=
      held_eq_some.mpr ⟨b,hb,rfl,rfl⟩
    have hheld' := held_eq_some.mpr ⟨b',hb',rfl,rfl⟩
    rcases consolidate_kept h (inUse_of_held hi hheld (.inl hpath)) with hsame | hnone
    · rw [hheld,hheld'] at hsame
      exact congrArg Prod.fst (Option.some.inj hsame)
    · simp [hheld'] at hnone
  full := consolidate_full h

end Consistent

/-! Runs -/

/-- In a run in which all files to add have room, whatever is loaded in between, each
consolidation leaves the index files of the disk in slots of their own. -/
theorem run_consistent (n : ℕ) (actions : List (Action n P))
    (h : Throughout HasRoom (Store.new n P) actions) :
    Throughout (fun s stable disk => Consistent s disk (consolidateWithDiskState stable disk s).1
      (consolidateWithDiskState stable disk s).2) (Store.new n P) actions := by
  generalize Store.new n P=s at h ⊢
  induction actions generalizing s with
  | nil => trivial
  | cons a later ih =>
    cases a with
    | consolidate stable disk => exact ⟨consolidate_consistent h.1,ih _ h.2⟩
    | load i index data => exact ih _ h

/-- Single indices of these names on disk. -/
def diskOf (paths : List ℕ) (h : paths.Nodup) : Disk ℕ :=
  ⟨[0],paths.map fun p => ⟨p,false,1,0⟩,by simpa [Function.comp_def] using h⟩

/-- Two files come one after the other to two slots. -/
def twoFiles : List (Action 2 ℕ) :=
  [.consolidate false (diskOf [1] (by decide)),.consolidate false (diskOf [1,2] (by decide))]

theorem run_consistent_two_files :
    Throughout (fun s stable disk => Consistent s disk (consolidateWithDiskState stable disk s).1
      (consolidateWithDiskState stable disk s).2) (Store.new 2 ℕ) twoFiles := by
  have hempty : ((Action.perform (Store.new 2 ℕ)
      (.consolidate false (diskOf [1] (by decide)))).files 1).files=none := by decide
  refine run_consistent 2 twoFiles ⟨.inl (by decide),.inr ⟨[1],by decide,?_⟩,trivial⟩
  refine .cons ?_ .nil
  intro b hb
  simp [hempty] at hb

/-- Three slots with the files 1 to 3, of which the second went away. -/
def twoOfThree : Store 3 ℕ :=
  [.consolidate false (diskOf [1,2,3] (by decide)),
    .consolidate false (diskOf [1,3] (by decide))].foldl Action.perform (Store.new 3 ℕ)

/-- File 4 overwrites file 1 while the slot of file 2 is free: slot 0 is in the index twice and
file 1 is in none. -/
theorem live_slot_overwritten :
    let r := consolidateWithDiskState false (diskOf [1,3,4] (by decide)) twoOfThree
    r.2 = .ok () ∧ twoOfThree.index.slotIndices=[0,2] ∧ r.1.index.slotIndices=[0,2,0] ∧
      (r.1.files 0).held=some (4,0) ∧ (r.1.files 1).held=none ∧
      ¬Consistent twoOfThree (diskOf [1,3,4] (by decide)) r.1 r.2 := by
  refine ⟨by decide,by decide,by decide,by decide,by decide,?_⟩
  intro h
  exact absurd (h.distinct (by decide)) (by decide)

end Gix.SlotMap
