import Gix.AttributeIds

/-! # Precedence of attributes

The slots are filled in the order in which assignments are met: lists, lines and assignments from the
last to the first, each macro followed by its definition. -/
namespace Gix.Attributes
open FirstVisit List Outcome TrackedAssignment MetadataCollection
open Option (map_eq_none_iff map_some not_isNone map_eq_some_iff bind_some)

/-- An assignment that is met, and the macro whose definition it is from. -/
structure Visit where
  assignment : Assignment
  source : Option Bytes

abbrev Visit.name (v : Visit) : Bytes := v.assignment.name

/-- A visit to an assignment of a line. -/
abbrev Visit.direct (a : Assignment) : Visit := ⟨a,none⟩

abbrev metNames (met : List Visit) : List Bytes := met.map Visit.name

/-- What a match keeps of a visit. -/
def Visit.record (hashes : Hashes) (v : Visit) : UInt64 × Option Bytes := (hashes.assignment v.assignment,v.source)

def recorded (c : MetadataCollection) (m : Match) : UInt64 × Option Bytes :=
  (m.assignment,m.kind.sourceId.bind fun id => c.names[id]?)

/-- The visit that an element of the stack stands for. -/
abbrev visitOf (c : MetadataCollection) (t : ℕ × Assignment × Option ℕ) : Visit :=
    ⟨t.2.1,t.2.2.bind fun id => c.names[id]?⟩

/-- What the slots hold after some assignments were met, of which `wanted` are counted. -/
structure Fills (hashes : Hashes) (c : MetadataCollection) (chosen : List (Bytes × Option ℕ)) (wanted : List Bytes)
    (out : Outcome) (met : List Visit) : Prop where
  nodup : (metNames met).Nodup
  length : out.matchesById.length = c.names.length
  macros : ∀ (i : ℕ) (slot : Slot) (name : Bytes),out.matchesById[i]? = some slot → c.names[i]? = some name →
    slot.macroAttributes = c.macrosOf name
  slots : ∀ (i : ℕ) (slot : Slot) (name : Bytes),out.matchesById[i]? = some slot → c.names[i]? = some name →
    slot.matched.map (recorded c) = (met.find? (·.name = name)).map (Visit.record hashes)
  stored : ∀ key,out.assignments key = (met.map Visit.assignment).find? (hashes.assignment · = key)
  kept : out.selected = chosen
  selected : ∀ (i : ℕ) (name : Bytes),c.names[i]? = some name →
    ((out.selected = [] ∨ ∃ s ∈ out.selected,s.2 = some i) ↔ name ∈ wanted)
  remaining : ∃ n,out.remaining = some n ∧ n+(met.filter (·.name ∈ wanted)).length = wanted.length

variable {hashes : Hashes} {c : MetadataCollection} {chosen : List (Bytes × Option ℕ)} {wanted : List Bytes}
  {out : Outcome} {met full : List Visit}
  {known : Bytes → List Assignment} {name : Bytes}
  {slots : List Slot} {entries : List (Bytes × Metadata)} {selected : List (Bytes × Option ℕ)}

section Slots
variable {i : ℕ}

variable (h : Fills hashes c chosen wanted out met)
include h

theorem Fills.slot (hi : c.names[i]? = some name) :
    ∃ slot,out.matchesById[i]? = some slot ∧ slot.macroAttributes=c.macrosOf name ∧
      slot.matched.map (recorded c)=(met.find? (·.name=name)).map (Visit.record hashes) := by
  have hlt := h.length ▸ (List.getElem?_eq_some_iff.mp hi).1
  have hslot := getElem?_eq_getElem hlt
  exact ⟨_,hslot,h.macros i _ name hslot hi,h.slots i _ name hslot hi⟩

omit h in
theorem matched_isNone {slot : Slot} (h : slot.matched.map (recorded c)=(met.find? (·.name=name)).map
    (Visit.record hashes)) :
    slot.matched.isNone=true ↔ name∉metNames met := by
  rw [← find?_key_eq_none,Option.isNone_iff_eq_none,← map_eq_none_iff,h,map_eq_none_iff]

theorem Fills.isUnmatched (hi : c.names[i]? = some name) :
    out.isUnmatched i=some (decide (name∉metNames met)) := by
  obtain ⟨slot,hslot,-,hmatched⟩ := h.slot hi
  rw [Outcome.isUnmatched,hslot,map_some,Option.some.injEq,Bool.eq_iff_iff,matched_isNone hmatched,
    decide_eq_true_iff]

theorem Fills.unmatchedAttrs {attrs : List TrackedAssignment}
    (hattrs : ∀ a∈attrs,Tracked c a) :
    out.unmatchedAttrs attrs=some (attrs.filter fun a => a.inner.name∉metNames met) := by
  induction attrs with
  | nil => rfl
  | cons a attrs ih =>
    rw [forall_mem_cons] at hattrs
    rw [Outcome.unmatchedAttrs,h.isUnmatched hattrs.1,ih hattrs.2]
    by_cases ha : a.inner.name∈metNames met
    · rw [filter_cons_of_neg (by simpa using ha),decide_eq_false (not_not.mpr ha)]
      rfl
    · rw [filter_cons_of_pos (by simpa using ha),decide_eq_true ha]
      rfl

omit h in
theorem wanted_subperm (wanted : List Bytes) (hnodup : (metNames met).Nodup) :
    (metNames (met.filter (·.name∈wanted))).Subperm wanted := by
  refine subperm_of_subset (hnodup.sublist (filter_sublist.map _)) fun name hname => ?_
  obtain ⟨_,ha,rfl⟩ := mem_map.mp hname
  simpa using (mem_filter.mp ha).2

theorem Fills.done (hdone : out.remaining=some 0) :
    ∀ name∈wanted,name∈metNames met := by
  obtain ⟨_,hn,_⟩ := h.remaining
  rw [hdone,Option.some.injEq] at hn
  have hperm := (wanted_subperm wanted h.nodup).perm_of_length_le (by rw [length_map]; omega)
  intro name hname
  obtain ⟨_,ha,rfl⟩ := mem_map.mp (hperm.mem_iff.mpr hname)
  exact mem_map_of_mem (mem_of_mem_filter ha)

end Slots

/-! ## Filling -/

section Fill
variable {pattern : Pattern} {source : Option Bytes} {sequenceNumber : ℕ}

variable {a : Assignment} {id n : ℕ} {slot : Slot} {parent : Option ℕ}

theorem fillSlot_cases (c : MetadataCollection) {i : ℕ} {slot' : Slot}
    (h : (Outcome.fillSlot hashes pattern source sequenceNumber out id slot a parent).matchesById[i]? =
      some slot') :
    (i=id ∧ slot'.macroAttributes=slot.macroAttributes ∧
        slot'.matched.map (recorded c)=some ((visitOf c (id,a,parent)).record hashes)) ∨
      i≠id ∧ out.matchesById[i]? = some slot' := by
  rw [Outcome.fillSlot,getElem?_set] at h
  by_cases hi : id=i
  · rw [if_pos hi] at h
    split at h
    · cases h
      refine .inl ⟨hi.symm,rfl,?_⟩
      rw [map_some,recorded]
      split_ifs <;> rfl
    · cases h
  · rw [if_neg hi] at h
    exact .inr ⟨Ne.symm hi,h⟩

/-- A slot is filled for the first assignment of its name. -/
theorem Fills.fillSlot (parent : Option ℕ) (hc : c.names.Nodup) (h : Fills hashes c chosen wanted out met)
    (hid : c.names[id]? = some a.name) (hslot : out.matchesById[id]? = some slot) (hnew : a.name∉metNames met)
    (hn : n+((met++[visitOf c (id,a,parent)]).filter (·.name∈wanted)).length=wanted.length) :
    Fills hashes c chosen wanted {Outcome.fillSlot hashes pattern source sequenceNumber out id slot a parent with
      remaining := some n} (met++[visitOf c (id,a,parent)]) := by
  refine ⟨nodup_concat h.nodup hnew,?_,?_,?_,?_,h.kept,h.selected,⟨n,rfl,hn⟩⟩
  · simpa [Outcome.fillSlot] using h.length
  · intro i slot' name hslot' hname
    rcases fillSlot_cases c hslot' with ⟨rfl,hmacros,-⟩ | ⟨-,hslot'⟩
    · rw [hmacros]
      exact h.macros i slot name hslot hname
    · exact h.macros i slot' name hslot' hname
  · intro i slot' name hslot' hname
    rw [find?_append,find?_singleton]
    rcases fillSlot_cases c hslot' with ⟨rfl,-,hmatched⟩ | ⟨hi,hslot'⟩
    · obtain rfl : name=a.name := Option.some.inj (hname.symm.trans hid)
      rw [find?_key_eq_none.mpr hnew,hmatched]
      simp [visitOf]
    · have hne : ¬a.name=name := fun heq => hi ((getElem?_inj (List.getElem?_eq_some_iff.mp hname).1 hc).mp
        (hname.trans (heq ▸ hid.symm)))
      rw [if_neg (by simpa using hne),Option.or_none]
      exact h.slots i slot' name hslot' hname
  · intro key
    rw [map_append,map_singleton,find?_append,find?_singleton,← h.stored key]
    simp only [Outcome.fillSlot,RefMap.insert]
    by_cases hkey : key=hashes.assignment a
    · rw [if_pos hkey,if_pos (by simpa using hkey.symm)]
      cases out.assignments key <;> rfl
    · rw [if_neg hkey,if_neg (by simpa using Ne.symm hkey),Option.or_none]

variable {attrs : List TrackedAssignment}

/-- The definitions that may still come on the stack. -/
def pending (out : Outcome) : ℕ :=
  ((out.matchesById.filter fun slot => slot.matched.isNone).map fun slot => slot.macroAttributes.length).sum

theorem pending_fillSlot (hslot : out.matchesById[id]? = some slot)
    (hnone : slot.matched.isNone=true) :
    pending (Outcome.fillSlot hashes pattern source sequenceNumber out id slot a parent) +
        slot.macroAttributes.length =
      pending out := by
  obtain ⟨hlt,hget⟩ := List.getElem?_eq_some_iff.mp hslot
  have hsplit : out.matchesById=out.matchesById.take id++slot::out.matchesById.drop (id+1) := by
    rw [← hget,getElem_cons_drop,take_append_drop]
  have hset : (Outcome.fillSlot hashes pattern source sequenceNumber out id slot a parent).matchesById =
      out.matchesById.take id++_::out.matchesById.drop (id+1) := set_eq_take_append_cons_drop.trans (if_pos hlt)
  rw [pending,pending,hset]
  conv_rhs => rw [hsplit]
  simp only [filter_append,filter_cons,hnone]
  simp
  omega

/-- Filling a slot counts down if its name is wanted. -/
theorem Fills.reduce (pattern : Pattern) (source : Option Bytes) (sequenceNumber : ℕ) (hc : c.names.Nodup)
    (h : Fills hashes c chosen wanted out met) (hid : c.names[id]? = some a.name)
      (hslot : out.matchesById[id]? = some slot)
    (hnone : slot.matched.isNone=true) (hnew : a.name∉metNames met) :
    ∃ n out',reduceAndCheckIfDone (Outcome.fillSlot hashes pattern source sequenceNumber out id slot a parent) id =
        some (decide (n=0),out') ∧ out'.remaining=some n ∧ out'.attrsStack=out.attrsStack ∧
      pending out'+slot.macroAttributes.length=pending out ∧
      Fills hashes c chosen wanted out' (met++[visitOf c (id,a,parent)]) := by
  obtain ⟨n,hn,hcount⟩ := h.remaining
  have hselected := h.selected id a.name hid
  have hreduce : ∃ m,
      reduceAndCheckIfDone (Outcome.fillSlot hashes pattern source sequenceNumber out id slot a parent) id =
        some (decide (m=0),{Outcome.fillSlot hashes pattern source sequenceNumber out id slot a parent with
          remaining := some m}) ∧
      m+((met++[visitOf c (id,a,parent)]).filter (·.name∈wanted)).length=wanted.length := by
    by_cases hwanted : a.name∈wanted
    · have hfilter : ((met++[visitOf c (id,a,parent)]).filter (·.name∈wanted)).length=(met.filter
        (·.name∈wanted)).length+1 := by
        rw [filter_append,filter_cons_of_pos (by simpa using hwanted)]
        simp
      have hle := (wanted_subperm wanted (nodup_concat (a := visitOf c (id,a,parent)) h.nodup hnew)).length_le
      rw [length_map] at hle
      obtain ⟨m,rfl⟩ : ∃ m,n=m+1 := ⟨n-1,by omega⟩
      refine ⟨m,?_,by omega⟩
      rw [reduceAndCheckIfDone,if_pos (by exact hselected.mpr hwanted)]
      simp [Outcome.fillSlot,hn]
    · refine ⟨n,?_,by rw [filter_append,filter_cons_of_neg (by simpa using hwanted)]; simpa using hcount⟩
      rw [reduceAndCheckIfDone,if_neg (by exact fun hs => hwanted (hselected.mp hs))]
      simp [isDone,Outcome.fillSlot,hn]
  obtain ⟨m,hreduce,hm⟩ := hreduce
  exact ⟨m,_,hreduce,rfl,rfl,pending_fillSlot hslot hnone,h.fillSlot parent hc hid hslot hnew hm⟩

/-- Where a search is: at the end of what is to be met, or done before. -/
inductive Ends (hashes : Hashes) (c : MetadataCollection) (chosen : List (Bytes × Option ℕ)) (wanted : List Bytes)
    (full : List Visit) (out : Outcome) : Bool → Prop
  | complete : Fills hashes c chosen wanted out full → out.attrsStack = [] →
    Ends hashes c chosen wanted full out false
  | stopped {met more} : Fills hashes c chosen wanted out met → out.remaining = some 0 → full = met++more →
      Ends hashes c chosen wanted full out true

abbrev childrenOf (known : Bytes → List Assignment) (name : Bytes) : List Visit :=
    (known name).reverse.map fun a => ⟨a,some name⟩

abbrev MeetsAs (known : Bytes → List Assignment) := Meets Visit.name (childrenOf known)

/-- What is pushed is met as if all of the assignments were. -/
theorem Fills.pushAttrs (known : Bytes → List Assignment) (parent : Option ℕ)
    (h : Fills hashes c chosen wanted out met) (hattrs : ∀ a∈attrs,Tracked c a) :
    ∃ stack,out.pushAttrs attrs parent=some {out with attrsStack := stack++out.attrsStack} ∧
      stack.length ≤ attrs.length ∧ (∀ t∈stack,c.names[t.1]? = some t.2.1.name) ∧
      ∀ todo full,MeetsAs known (stack.map (visitOf c)++todo) met full ↔
        MeetsAs known (((attrs.map inner).reverse.map fun a =>
          ⟨a,parent.bind fun id => c.names[id]?⟩)++todo) met full := by
  refine ⟨((attrs.filter fun a => a.inner.name∉metNames met).map fun a => (a.id,a.inner,parent)).reverse,?_,?_,?_,
    ?_⟩
  · rw [Outcome.pushAttrs,h.unmatchedAttrs hattrs]
    rfl
  · rw [length_reverse,length_map]
    exact length_filter_le ..
  · intro t ht
    obtain ⟨a,ha,rfl⟩ := mem_map.mp (mem_reverse.mp ht)
    exact hattrs a (mem_of_mem_filter ha)
  · intro todo full
    have hstack : (((attrs.filter fun a => a.inner.name∉metNames met).map fun a =>
      (a.id,a.inner,parent)).reverse.map
        (visitOf c))=((attrs.map inner).reverse.map fun a => ⟨a,parent.bind fun id => c.names[id]?⟩).filter
          fun v => v.name∉metNames met := by
      rw [← map_reverse,map_map,filter_map,← map_reverse,filter_map,map_map,filter_reverse]
      rfl
    rw [hstack]
    exact meets_filter fun a _ ha => by simpa using ha

theorem fillLoop_ends (hc : Sound c known) {n : ℕ} (h : Fills hashes c chosen wanted out met)
    (hstack : ∀ t∈out.attrsStack,c.names[t.1]? = some t.2.1.name)
    (hmeets : MeetsAs known (out.attrsStack.map (visitOf c)) met full)
    (hn : out.attrsStack.length+pending out < n) :
    ∃ done out',fillLoop hashes pattern source sequenceNumber n out=some (done,out') ∧
      Ends hashes c chosen wanted full out' done := by
  induction n generalizing out met with
  | zero => omega
  | succ n ih =>
    cases hpop : out.attrsStack with
    | nil =>
      rw [hpop] at hmeets
      cases hmeets
      exact ⟨false,out,by rw [fillLoop,hpop],.complete h hpop⟩
    | cons t stack =>
      obtain ⟨id,a,parent⟩ := t
      rw [hpop,forall_mem_cons] at hstack
      rw [hpop] at hmeets
      rw [hpop,length_cons] at hn
      obtain ⟨slot,hslot,hmacros,hmatched⟩ := h.slot hstack.1
      have hrest : Fills hashes c chosen wanted {out with attrsStack := stack} met := {h with}
      by_cases hseen : a.name∈metNames met
      · have hsome : slot.matched.isSome=true := by
          rw [← not_isNone,Bool.not_eq_true',← Bool.not_eq_true,matched_isNone hmatched]
          exact not_not.mpr hseen
        obtain ⟨done,out',hrun,hends⟩ := ih hrest hstack.2 ((meets_seen hseen).mp hmeets) (by
          change stack.length+pending out < n
          omega)
        refine ⟨done,out',?_,hends⟩
        simp only [fillLoop,hpop,hslot,hsome]
        exact hrun
      · have hnone := (matched_isNone hmatched).mpr hseen
        obtain ⟨m,out1,hreduce,hm,hstack1,_,hfills⟩ :=
          hrest.reduce pattern source sequenceNumber hc.nodup hstack.1 hslot hnone hseen
        have hnew := (meets_new hseen).mp hmeets
        obtain ⟨more,hmore⟩ := hnew.extends
        cases m with
        | zero =>
          refine ⟨true,out1,?_,.stopped hfills hm hmore⟩
          simp only [fillLoop,hpop,hslot,← not_isNone,hnone,hreduce]
          rfl
        | succ m =>
          obtain ⟨pushed,hpush,_,hpushed,hiff⟩ := hfills.pushAttrs known (some id) (hmacros ▸ hc.tracked a.name)
          rw [hmacros,hc.macros a.name,bind_some,hstack.1] at hiff
          rw [hstack1] at hpush
          have hpushes : Fills hashes c chosen wanted {out1 with attrsStack := pushed++stack}
              (met++[visitOf c (id,a,parent)]) := {hfills with}
          have hmeets1 : MeetsAs known ((pushed++stack).map (visitOf c)) (met++[visitOf c (id,a,parent)]) full := by
            rw [map_append]
            exact (hiff _ _).mpr hnew
          have hbound : (pushed++stack).length+pending out1 < n := by
            have hbefore : pending {out with attrsStack := stack}=pending out := rfl
            rw [length_append]
            omega
          obtain ⟨done,out',hrun,hends⟩ := ih hpushes (forall_mem_append.mpr ⟨hpushed,hstack.2⟩) hmeets1 hbound
          refine ⟨done,out',?_,hends⟩
          have hdone : decide (m+1=0)=false := rfl
          simp only [fillLoop,hpop,hslot,← not_isNone,hnone,hreduce,hdone,hpush]
          exact hrun

theorem fillAttributes_ends (pattern : Pattern) (source : Option Bytes) (sequenceNumber : ℕ) (hc : Sound c known)
    (h : Fills hashes c chosen wanted out met) (hempty : out.attrsStack=[])
    (hattrs : ∀ a∈attrs,Tracked c a)
    (hmeets : MeetsAs known ((attrs.map inner).reverse.map Visit.direct) met full) :
    ∃ done out',out.fillAttributes hashes pattern source sequenceNumber attrs=some (done,out') ∧
      Ends hashes c chosen wanted full out' done := by
  obtain ⟨stack,hpush,-,hstack,hiff⟩ := h.pushAttrs known none hattrs
  rw [hempty,append_nil] at hpush
  have hstart : MeetsAs known (stack.map (visitOf c)) met full := by
    have hnil := hiff [] full
    rw [append_nil,append_nil] at hnil
    exact hnil.mpr hmeets
  have hfills : Fills hashes c chosen wanted {out with attrsStack := stack} met := {h with}
  have hbound : stack.length+pending {out with attrsStack := stack} <
      fillBound {out with attrsStack := stack} := by
    have hle : pending {out with attrsStack := stack} ≤
        (out.matchesById.map fun slot => slot.macroAttributes.length).sum :=
          (filter_sublist.map _).sum_le_sum (by simp)
    simp only [fillBound]
    omega
  obtain ⟨done,out',hrun,hends⟩ := fillLoop_ends hc hfills hstack hstart hbound
  exact ⟨done,out',by rw [Outcome.fillAttributes,hpush]; exact hrun,hends⟩

end Fill

/-! ## Lines, lists and files -/

section Lines
variable {R : Type} (strip : Option Bytes → Option R) (matching : Pattern → R → Bool)

def matchingLines (f : AttributeFile) : List Mapping :=
  match strip f.base with
  | none => []
  | some relativePath => f.mappings.filter fun m => !m.isMacro && matching m.pattern relativePath

/-- The assignments for a path: of the files, the matching lines and the assignments in them the last
one is first. -/
def assignmentsFor (files : List AttributeFile) : List Assignment :=
  files.reverse.flatMap fun f => (matchingLines strip matching f).reverse.flatMap fun m =>
    m.assigned.reverse

/-- What is met for a path, in this order. -/
def Met (files : List AttributeFile) (met : List Assignment) : Prop :=
  Meets Assignment.name (fun name => (definition files name).reverse)
    (assignmentsFor strip matching files)
    [] met

/-- The same with the macro that each assignment results from. -/
def Visited (files : List AttributeFile) (met : List Visit) : Prop :=
  MeetsAs (definition files) ((assignmentsFor strip matching files).map Visit.direct) [] met

variable {strip matching} in
theorem Visited.toMet {files : List AttributeFile} {met : List Visit}
    (h : Visited strip matching files met) :
    Met strip matching files (met.map Visit.assignment) := by
  have hback : ∀ (source : Option Bytes) (l : List Assignment),
    (l.map fun a => Visit.mk a source).map Visit.assignment=l :=
    fun _ l => by simp [Function.comp_def]
  rw [Met,← hback none (assignmentsFor strip matching files)]
  exact Meets.map Visit.assignment (fun _ => rfl) (fun name => hback (some name) _) h

end Lines

section Search
variable {R : Type} {strip : Option Bytes → Option R} {matching : Pattern → R → Bool}
  {mid : List Visit} {m : Mapping} {f : AttributeFile}

theorem Ends.extend {done : Bool} (h : Ends hashes c chosen wanted mid out done) (hdone : out.remaining=some 0)
    (hmore : ∃ more,full=mid++more) : Ends hashes c chosen wanted full out true := by
  obtain ⟨more,rfl⟩ := hmore
  cases h with
  | complete h _ => exact .stopped h hdone rfl
  | @stopped met more' h _ heq => exact .stopped h hdone (by rw [heq,append_assoc])

theorem Fills.hasUnspecified (h : Fills hashes c chosen wanted out met) {attrs : List TrackedAssignment}
    (hattrs : ∀ a∈attrs,Tracked c a) :
    out.hasUnspecifiedAttributes (attrs.map TrackedAssignment.id) =
      some (decide (∃ a∈attrs,a.inner.name∉metNames met)) := by
  induction attrs with
  | nil => simp [hasUnspecifiedAttributes]
  | cons a attrs ih =>
    rw [forall_mem_cons] at hattrs
    rw [map_cons,hasUnspecifiedAttributes,h.isUnmatched hattrs.1,ih hattrs.2]
    by_cases ha : a.inner.name∈metNames met
    · rw [decide_eq_false (not_not.mpr ha)]
      simp only [exists_mem_cons_iff,ha,not_true,false_or]
    · simp only [exists_mem_cons_iff,ha,not_false_eq_true,true_or,decide_true]

theorem matchPatterns_ends (hc : Sound c known) (source : Option Bytes) {relativePath : R} {ms ms' : List Mapping}
    (hms : List.Forall₂ (Numbers c) ms ms') (hplain : ∀ m∈ms,m.isMacro=false)
    (h : Fills hashes c chosen wanted out met) (hempty : out.attrsStack=[])
    (hmeets : MeetsAs known ((ms.filter fun m => matching m.pattern relativePath).flatMap
      fun m => m.assigned.reverse.map Visit.direct) met full) :
    ∃ done out',matchPatterns hashes matching source relativePath ms' out=some out' ∧
      Ends hashes c chosen wanted full out' done := by
  induction hms generalizing out met with
  | nil =>
    cases hmeets
    exact ⟨false,out,rfl,.complete h hempty⟩
  | @cons m m' ms ms' hm _ ih =>
    rw [forall_mem_cons] at hplain
    have hvalue : ∃ attrs,m'.value = .assignments attrs ∧ m'.tracked=attrs := by
      have hdefines := hm.isMacro.trans hplain.1
      rw [Mapping.tracked]
      cases hvalue : m'.value with
      | macroAssignments id attrs => simp [Mapping.isMacro,hvalue] at hdefines
      | assignments attrs => exact ⟨attrs,rfl,rfl⟩
    obtain ⟨attrs,hvalue,htracked⟩ := hvalue
    have hattrs := htracked ▸ hm.tracked
    have hassigned : attrs.map inner=m.assigned := by rw [← hm.assigned,Mapping.assigned,htracked]
    have hunspecified := h.hasUnspecified hattrs
    simp only [matchPatterns,hvalue,hunspecified,hm.pattern]
    cases hmatch : matching m.pattern relativePath with
    | false =>
      rw [filter_cons_of_neg (by simp [hmatch])] at hmeets
      rw [Bool.and_false]
      exact ih hplain.2 h hempty hmeets
    | true =>
      rw [filter_cons_of_pos (by simpa using hmatch),flatMap_cons] at hmeets
      obtain ⟨_,hline,hrest⟩ := hmeets.split
      rw [← hassigned] at hline
      rw [Bool.and_true]
      by_cases hnew : ∃ a∈attrs,a.inner.name∉metNames met
      · obtain ⟨done,out1,hfill,hends⟩ :=
          fillAttributes_ends m.pattern source m'.sequenceNumber hc h hempty hattrs hline
        rw [decide_eq_true hnew,hfill]
        cases hends with
        | complete hfills hstack => exact ih hplain.2 hfills hstack hrest
        | stopped hfills hdone heq =>
          exact ⟨true,out1,rfl,Ends.extend (.stopped hfills hdone heq) hdone hrest.extends⟩
      · have hseen : ∀ v∈(attrs.map inner).reverse.map Visit.direct,v.name∈metNames met := by
          intro v hv
          obtain ⟨_,ha,rfl⟩ := mem_map.mp hv
          obtain ⟨b,hb,rfl⟩ := mem_map.mp (mem_reverse.mp ha)
          by_contra hb'
          exact hnew ⟨b,hb,hb'⟩
        rw [(meets_all_seen hseen).mp hline] at hrest
        rw [decide_eq_false hnew]
        exact ih hplain.2 h hempty hrest

theorem toMapping_cases {l : Line} (h : l.toMapping=some m) :
    (∃ name,l.kind = .macroName name ∧ m.pattern=⟨name,macroMode,none⟩ ∧ m.isMacro=true) ∨
      l.kind = .pattern m.pattern ∧ m.pattern.mode≠macroMode ∧ m.isMacro=false := by
  unfold Line.toMapping at h
  cases hkind : l.kind with
  | macroName name =>
    rw [hkind] at h
    obtain ⟨attrs,-,rfl⟩ := map_eq_some_iff.mp h
    exact .inl ⟨name,rfl,rfl,rfl⟩
  | pattern p =>
    simp only [hkind] at h
    split_ifs at h with hnegative
    obtain ⟨attrs,-,rfl⟩ := map_eq_some_iff.mp h
    refine .inr ⟨rfl,fun heq => hnegative ?_,rfl⟩
    rw [heq]
    decide

theorem mayUseGlobPattern_eq (h : m∈f.mappings) :
    mayUseGlobPattern m.pattern = !m.isMacro := by
  obtain ⟨_,-,hline⟩ := mem_filterMap.mp (mem_of_mem_filter h)
  obtain ⟨_,rfl,hl⟩ := Option.bind_eq_some_iff.mp hline
  rcases toMapping_cases hl with ⟨_,-,hpattern,hdef⟩ | ⟨-,hmode,hdef⟩
  · rw [hpattern,hdef]
    rfl
  · simp [mayUseGlobPattern,hmode,hdef]

theorem matchList_ends (hc : Sound c known) {list : PatternList} (hlist : Added c f list)
    (h : Fills hashes c chosen wanted out met) (hempty : out.attrsStack=[])
    (hmeets : MeetsAs known ((matchingLines strip matching f).reverse.flatMap
      fun m => m.assigned.reverse.map Visit.direct) met full) :
    ∃ done found out',matchList hashes strip matching list out=some (found,out') ∧
      Ends hashes c chosen wanted full out' done := by
  rw [matchingLines] at hmeets
  rw [matchList,hlist.base]
  cases hstrip : strip f.base with
  | none =>
    rw [hstrip] at hmeets
    cases hmeets
    exact ⟨false,false,out,rfl,.complete h hempty⟩
  | some relativePath =>
    rw [hstrip] at hmeets
    have hlines : List.Forall₂ (Numbers c) (f.mappings.reverse.filter fun m => !m.isMacro)
        (list.patterns.reverse.filter fun m => mayUseGlobPattern m.pattern) := by
      have hall := (forall₂_and_left _ _).mpr ⟨fun m hm => mem_reverse.mp hm,rel_reverse hlist.mappings⟩
      refine ((forall₂_and_left _ _).mp (rel_filter ?_ hall)).2
      rintro m m' ⟨hm,hnumbers⟩
      simp [hnumbers.pattern,mayUseGlobPattern_eq hm]
    have hplain : ∀ m∈f.mappings.reverse.filter (fun m => !m.isMacro),m.isMacro=false := by
      intro m hm
      simpa using (mem_filter.mp hm).2
    have hfilter :
        (f.mappings.filter fun m => !m.isMacro && matching m.pattern relativePath).reverse =
        (f.mappings.reverse.filter fun m => !m.isMacro).filter fun m =>
          matching m.pattern relativePath := by
      rw [filter_filter,filter_reverse]
      congr 2
      funext m
      exact Bool.and_comm ..
    simp only [hfilter] at hmeets
    obtain ⟨done,out',hrun,hends⟩ := matchPatterns_ends hc list.source hlines hplain h hempty hmeets
    exact ⟨done,_,out',by simp only [hrun]; rfl,hends⟩

theorem matchLists_ends (hc : Sound c known) {fs : List AttributeFile} {lists : List PatternList}
    (hlists : List.Forall₂ (Added c) fs lists) (hasMatch : Bool) (h : Fills hashes c chosen wanted out met)
    (hempty : out.attrsStack=[])
    (hmeets : MeetsAs known (fs.flatMap fun f =>
      (matchingLines strip matching f).reverse.flatMap fun m =>
        m.assigned.reverse.map Visit.direct) met full) :
    ∃ done found out',matchLists hashes strip matching lists hasMatch out=some (found,out') ∧
      Ends hashes c chosen wanted full out' done := by
  induction hlists generalizing out met hasMatch with
  | nil =>
    cases hmeets
    exact ⟨false,hasMatch,out,rfl,.complete h hempty⟩
  | @cons f list fs lists hlist _ ih =>
    obtain ⟨_,hfile,hrest⟩ := hmeets.split
    obtain ⟨done,found,out1,hrun,hends⟩ := matchList_ends hc hlist h hempty hfile
    simp only [matchLists,hrun]
    cases hends with
    | stopped hfills hdone heq =>
      rw [isDone,hdone]
      exact ⟨true,_,out1,rfl,Ends.extend (.stopped hfills hdone heq) hdone hrest.extends⟩
    | complete hfills hstack =>
      obtain ⟨n,hn,-⟩ := hfills.remaining
      rw [isDone,hn]
      cases n with
      | zero => exact ⟨true,_,out1,rfl,Ends.extend (.complete hfills hstack) hn hrest.extends⟩
      | succ n => exact ih _ hfills hstack hrest

end Search

/-! ## Initialized outcomes -/

theorem setMacros_length (slots : List Slot) (entries : List (Bytes × Metadata)) :
    (setMacros slots entries).length=slots.length := by
  induction entries generalizing slots with
  | nil => rfl
  | cons e entries ih =>
    rw [setMacros,foldl_cons,← setMacros,ih]
    split_ifs
    · rfl
    · exact length_modify ..

theorem setMacros_other {i : ℕ}
    (h : i∉entries.map fun e => e.2.id) : (setMacros slots entries)[i]? = slots[i]? := by
  induction entries generalizing slots with
  | nil => rfl
  | cons e entries ih =>
    rw [map_cons,mem_cons,not_or] at h
    rw [setMacros,foldl_cons,← setMacros,ih h.2]
    split_ifs
    · rfl
    · rw [getElem?_modify]
      simp only [if_neg (Ne.symm h.1)]
      cases slots[i]? <;> rfl

theorem setMacros_entry {e : Bytes × Metadata}
    (hnodup : (entries.map fun e => e.2.id).Nodup) (he : e∈entries) (hslot : slots[e.2.id]? = some ⟨none,[]⟩) :
    (setMacros slots entries)[e.2.id]? = some ⟨none,e.2.macroAttributes⟩ := by
  induction entries generalizing slots with
  | nil => simp at he
  | cons x entries ih =>
    rw [map_cons,nodup_cons] at hnodup
    rw [setMacros,foldl_cons,← setMacros]
    rcases mem_cons.mp he with rfl | he
    · rw [setMacros_other hnodup.1]
      split_ifs with hnil
      · rw [hslot,hnil]
      · rw [getElem?_modify,hslot]
        simp
    · refine ih hnodup.2 he ?_
      have hne : x.2.id≠e.2.id := fun heq => hnodup.1 (heq ▸ mem_map_of_mem he)
      split_ifs
      · exact hslot
      · rw [getElem?_modify,hslot]
        simp [hne]

def wantedNames (c : MetadataCollection) (selected : List (Bytes × Option ℕ)) : List Bytes :=
  if selected = [] then c.names else (selected.filter fun s => s.2.isSome).map Prod.fst

theorem setMacros_collection (hc : Sound c known) {i : ℕ} {name : Bytes} (hi : c.names[i]? = some name) :
    (setMacros (List.replicate c.nameToMeta.length ⟨none,[]⟩) c.nameToMeta)[i]? =
      some ⟨none,c.macrosOf name⟩ := by
  rw [names,getElem?_map] at hi
  obtain ⟨e,he,rfl⟩ := map_eq_some_iff.mp hi
  have hmem := mem_of_getElem? he
  have hid := hc.numbered i e he
  have hids : (c.nameToMeta.map fun e => e.2.id)=range c.nameToMeta.length := by
    refine ext_getElem? fun j => ?_
    rw [getElem?_map]
    cases hj : c.nameToMeta[j]? with
    | none => rw [getElem?_eq_none (by simpa using getElem?_eq_none_iff.mp hj)]; rfl
    | some x =>
      rw [getElem?_range (List.getElem?_eq_some_iff.mp hj).1,map_some,hc.numbered j x hj]
  have hslot : (replicate c.nameToMeta.length (Slot.mk none []))[e.2.id]? = some ⟨none,[]⟩ := by
    rw [getElem?_replicate,if_pos (hid ▸ (List.getElem?_eq_some_iff.mp he).1)]
  rw [← hid,setMacros_entry (hids ▸ nodup_range) hmem hslot,macrosOf,hc.get_of_mem hmem]
  rfl

theorem initializeAll_eq (c : MetadataCollection)
    (hselected : ∀ s∈selected,s.2=(c.get s.1).map Metadata.id) :
    initializeAll c {Outcome.default with selected := selected}=Outcome.reset {Outcome.default with
      matchesById := setMacros (List.replicate c.nameToMeta.length ⟨none,[]⟩) c.nameToMeta
      selected := selected} := by
  have hsame : (selected.map fun s => (s.1,s.2.or ((c.get s.1).map Metadata.id)))=selected := by
    conv_rhs => rw [← map_id selected]
    refine map_congr_left fun s hs => ?_
    rw [← hselected s hs]
    obtain ⟨_,id⟩ := s
    cases id <;> rfl
  rw [initializeAll]
  cases hnames : c.nameToMeta with
  | nil => rfl
  | cons e entries =>
    rw [← hnames,if_pos (by simp [Outcome.default,hnames])]
    simp [Outcome.default,hsame]

theorem initializeAll_fills (hashes : Hashes) (hc : Sound c known)
    (hselected : ∀ s∈selected,s.2=(c.get s.1).map Metadata.id) :
    Fills hashes c selected (wantedNames c selected)
      (initializeAll c {Outcome.default with selected := selected}) [] := by
  rw [initializeAll_eq c hselected]
  have hlength : (setMacros (replicate c.nameToMeta.length ⟨none,[]⟩) c.nameToMeta).length=c.names.length := by
    rw [setMacros_length,length_replicate,names,length_map]
  have hslots : ∀ (i : ℕ) (slot : Slot) (name : Bytes),((setMacros (replicate c.nameToMeta.length ⟨none,[]⟩)
      c.nameToMeta).map fun slot => {slot with matched := none})[i]? = some slot → c.names[i]? = some name →
        slot=⟨none,c.macrosOf name⟩ := by
    intro i slot name hslot hi
    rw [getElem?_map,setMacros_collection hc hi] at hslot
    exact (Option.some.inj hslot).symm
  refine ⟨nodup_nil,?_,?_,?_,fun _ => rfl,rfl,?_,?_⟩
  · exact (length_map _).trans hlength
  · intro i slot name hslot hi
    rw [hslots i slot name hslot hi]
  · intro i slot name hslot hi
    rw [hslots i slot name hslot hi]
    rfl
  · intro i name hi
    unfold wantedNames
    split_ifs with hnil
    · exact iff_of_true (.inl hnil) (mem_of_getElem? hi)
    · rw [mem_map]
      constructor
      · rintro (h | ⟨s,hs,hid⟩)
        · exact absurd h hnil
        · have hsome := hselected s hs
          rw [hid] at hsome
          obtain ⟨metadata,hget,rfl⟩ := map_eq_some_iff.mp hsome.symm
          have hname := (hc.id_of_get hget).symm.trans hi
          exact ⟨s,mem_filter.mpr ⟨hs,by simp [hid]⟩,Option.some.inj hname⟩
      · rintro ⟨s,hs,rfl⟩
        obtain ⟨hs,hsome⟩ := mem_filter.mp hs
        obtain ⟨_,hj⟩ := Option.isSome_iff_exists.mp hsome
        have hid := hselected s hs
        rw [hj] at hid
        obtain ⟨metadata,hget,rfl⟩ := map_eq_some_iff.mp hid.symm
        have hknown := hc.id_of_get hget
        rw [(getElem?_inj (List.getElem?_eq_some_iff.mp hknown).1 hc.nodup).mp (hknown.trans hi.symm)] at hj
        exact .inr ⟨s,hs,hj⟩
  · refine ⟨_,rfl,?_⟩
    rw [filter_nil,length_nil,Nat.add_zero]
    unfold wantedNames
    by_cases hnil : selected=[]
    · rw [if_pos hnil,if_pos hnil]
      exact (length_map _).trans hlength
    · rw [if_neg hnil,if_neg hnil,length_map]

/-! ## Reports -/

/-- The state that is reported for a name, which has no id if it is in no file. -/
def reported (c : MetadataCollection) (out : Outcome) (name : Bytes) : Option State :=
  (c.get name).bind fun metadata => out.stateById metadata.id

/-- The state under the hash of an assignment: that of the first one with this hash. -/
def storedState (hashes : Hashes) (met : List Assignment) (a : Assignment) : State :=
  ((met.find? (hashes.assignment · = hashes.assignment a)).getD a).state

/-- The macro that an attribute is reported to result from. -/
def sourceOf (c : MetadataCollection) (out : Outcome) (name : Bytes) : Option Bytes :=
  (c.get name).bind fun metadata => ((out.matchesById[metadata.id]?).bind Slot.matched).bind fun m =>
    m.kind.sourceId.bind fun id => c.names[id]?

/-- What is reported for a visit after all that was met. -/
def reportOf (hashes : Hashes) (met : List Visit) (v : Visit) : State :=
  storedState hashes (met.map Visit.assignment) v.assignment

theorem Fills.reported (hc : Sound c known) (h : Fills hashes c chosen wanted out met) (hname : name∈c.names) :
    reported c out name=(met.find? (·.name=name)).map (reportOf hashes met) ∧
      sourceOf c out name=(met.find? (·.name=name)).bind Visit.source := by
  cases hget : c.get name with
  | none => exact absurd hname (get_eq_none.mp hget)
  | some metadata =>
    obtain ⟨slot,hslot,-,hmatched⟩ := h.slot (hc.id_of_get hget)
    rw [Attributes.reported,sourceOf,hget,bind_some,bind_some,Outcome.stateById,hslot,bind_some]
    cases hfind : met.find? (·.name=name) with
    | none =>
      rw [hfind,Option.map_none,map_eq_none_iff] at hmatched
      rw [hmatched]
      exact ⟨rfl,rfl⟩
    | some v =>
      rw [hfind] at hmatched
      obtain ⟨m,hm,hrecord⟩ := map_eq_some_iff.mp hmatched
      have hkey : m.assignment=hashes.assignment v.assignment := congrArg Prod.fst hrecord
      refine ⟨?_,by rw [hm]; exact congrArg Prod.snd hrecord⟩
      rw [hm,bind_some,hkey,h.stored,map_some,reportOf,storedState]
      cases hfirst : (met.map Visit.assignment).find? (hashes.assignment · = hashes.assignment v.assignment) with
      | none => exact absurd (by simp) (find?_eq_none.mp hfirst _ (mem_map_of_mem (mem_of_find?_eq_some hfind)))
      | some b => rfl

theorem find?_extend {α : Type} {p : α → Bool} {met more : List α} (h : met.find? p≠none) :
    (met++more).find? p=met.find? p := by
  rw [find?_append,Option.or_of_isSome (Option.isSome_iff_ne_none.mpr h)]

/-- A search that is done early reports what it would report at the end. -/
theorem Ends.reported {done : Bool} (hc : Sound c known) (h : Ends hashes c chosen wanted full out done)
    (hname : name∈c.names)
    (hwanted : name∈wanted) : reported c out name=(full.find? (·.name=name)).map (reportOf hashes full) ∧
      sourceOf c out name=(full.find? (·.name=name)).bind Visit.source := by
  cases h with
  | complete h _ => exact h.reported hc hname
  | @stopped met more h hdone heq =>
    have hmet : met.find? (·.name=name)≠none := by
      rw [Ne,find?_key_eq_none,not_not]
      exact h.done hdone name hwanted
    obtain ⟨hstate,hsource⟩ := h.reported hc hname
    rw [hstate,hsource,heq,find?_extend hmet]
    refine ⟨?_,rfl⟩
    cases hfind : met.find? (·.name=name) with
    | none => rfl
    | some v =>
      have hfirst : (met.map Visit.assignment).find?
        (hashes.assignment · = hashes.assignment v.assignment)≠none := by
        intro hnone
        exact find?_eq_none.mp hnone _ (mem_map_of_mem (mem_of_find?_eq_some hfind)) (by simp)
      rw [map_some,map_some,reportOf,reportOf,storedState,storedState,map_append,find?_extend hfirst]

section Precedence
variable {R : Type} {files : List AttributeFile} {strip : Option Bytes → Option R}
    {matching : Pattern → R → Bool}

theorem forall₂_left {α β : Type} {r : α → β → Prop} {l : List α} {l' : List β} (h : List.Forall₂ r l l') :
    ∀ a∈l,∃ b∈l',r a b := by
  intro a ha
  obtain ⟨n,rfl⟩ := get_of_mem ha
  exact ⟨_,get_mem l' _,h.get n.2 (h.length_eq ▸ n.2)⟩

theorem name_known {attrs : List TrackedAssignment} {assigned : List Assignment}
    (h : attrs.map inner=assigned) (htracked : ∀ a∈attrs,Tracked c a) :
    ∀ a∈assigned,a.name∈c.names := by
  intro a ha
  rw [← h] at ha
  obtain ⟨t,ht,rfl⟩ := mem_map.mp ha
  exact mem_of_getElem? (htracked t ht)

theorem assigned_known : ∀ a∈assignmentsFor strip matching files,
    a.name∈(addFiles files).2.names := by
  intro a ha
  obtain ⟨f,hf,ha⟩ := mem_flatMap.mp ha
  obtain ⟨m,hm,ha⟩ := mem_flatMap.mp ha
  have hmem : m∈f.mappings := by
    rw [mem_reverse,matchingLines] at hm
    split at hm
    · exact absurd hm not_mem_nil
    · exact mem_of_mem_filter hm
  obtain ⟨_,-,hlist⟩ := forall₂_left (addFiles_sound files).2 f (mem_reverse.mp hf)
  obtain ⟨_,-,hm'⟩ := forall₂_left hlist.mappings m hmem
  exact name_known hm'.assigned hm'.tracked a (mem_reverse.mp ha)

theorem definition_known (name : Bytes) : ∀ a∈(definition files name).reverse,a.name∈(addFiles files).2.names := by
  obtain ⟨hc,-⟩ := addFiles_sound files
  intro a ha
  exact name_known (hc.macros name) (hc.tracked name) a (mem_reverse.mp ha)

def selection (c : MetadataCollection) (names : List Bytes) : List (Bytes × Option ℕ) :=
  names.map fun name => (name,(c.get name).map Metadata.id)

theorem mem_wantedNames {names : List Bytes} {name : Bytes} (h : names=[] ∨ name∈names) (hname : name∈c.names) :
    name∈wantedNames c (selection c names) := by
  unfold wantedNames
  split_ifs with hnil
  · exact hname
  · cases hget : c.get name with
    | none => exact absurd hname (get_eq_none.mp hget)
    | some metadata =>
      have hmem : name∈names := h.resolve_left fun hnil' => hnil (by rw [hnil']; rfl)
      exact mem_map.mpr ⟨_,mem_filter.mpr ⟨mem_map_of_mem hmem,by simp [hget]⟩,rfl⟩

/-- A search reports the first assignment that was met, or the one that is stored in its place. -/
theorem search_reported (hashes : Hashes) (hmet : Visited strip matching files met)
    (names : List Bytes) :
    ∃ found out,patternMatchingRelativePath hashes strip matching (addFiles files).1
        (.initializeWithSelection (addFiles files).2 names .default)=some (found,out) ∧
      out.selected=selection (addFiles files).2 names ∧
      ∀ name,names=[] ∨ name∈names →
        reported (addFiles files).2 out name=(met.find? (·.name=name)).map (reportOf hashes met) ∧
        sourceOf (addFiles files).2 out name=(met.find? (·.name=name)).bind Visit.source := by
  obtain ⟨hc,hlists⟩ := addFiles_sound files
  have hselected : ∀ s∈selection (addFiles files).2 names,s.2=((addFiles files).2.get s.1).map Metadata.id := by
    intro s hs
    obtain ⟨name,-,rfl⟩ := mem_map.mp hs
    rfl
  have hfills := initializeAll_fills hashes hc hselected
  have hempty : (initializeAll (addFiles files).2 {Outcome.default with
      selected := selection (addFiles files).2 names}).attrsStack=[] := by rw [initializeAll_eq _ hselected]; rfl
  have hmeets := hmet
  simp only [Visited,assignmentsFor,map_flatMap] at hmeets
  obtain ⟨_,found,out,hrun,hends⟩ := matchLists_ends hc (rel_reverse hlists) false hfills hempty hmeets
  refine ⟨found,out,hrun,?_,fun name hname => ?_⟩
  · cases hends with
    | complete h _ => exact h.kept
    | stopped h _ _ => exact h.kept
  · by_cases hknown : name∈(addFiles files).2.names
    · exact hends.reported hc hknown (mem_wantedNames hname hknown)
    · have hnone : met.find? (·.name=name)=none := by
        rw [find?_key_eq_none,mem_map]
        rintro ⟨v,hv,rfl⟩
        exact hknown (Meets.forall (p := fun v : Visit => v.name∈(addFiles files).2.names) hmet
          (forall_mem_map.mpr assigned_known) (fun name => forall_mem_map.mpr (definition_known name))
            (by simp) v hv)
      rw [hnone,reported,sourceOf,get_eq_none.mpr hknown]
      exact ⟨rfl,rfl⟩

/-- The state of a visit is reported if no other one that was met has its hash. -/
theorem reportOf_eq {v : Visit} (hhashes : ∀ a∈met.map Visit.assignment,∀ b∈met.map Visit.assignment,
    hashes.assignment a=hashes.assignment b → a.state=b.state)
      (hv : v∈met) : reportOf hashes met v=v.assignment.state := by
  rw [reportOf,storedState]
  cases hstored : (met.map Visit.assignment).find? (hashes.assignment · = hashes.assignment v.assignment) with
  | none => rfl
  | some b =>
    exact hhashes b (mem_of_find?_eq_some hstored) _ (mem_map_of_mem hv) (by simpa using find?_some hstored)

theorem visited_exists (strip : Option Bytes → Option R) (matching : Pattern → R → Bool)
    (files : List AttributeFile) :
    ∃ met,Visited strip matching files met :=
  meets_exists (forall_mem_map.mpr assigned_known) (fun name => forall_mem_map.mpr (definition_known name))
    (by simp) nodup_nil

def firstState (met : List Assignment) (name : Bytes) : Option State :=
    (met.find? (·.name = name)).map Assignment.state

end Precedence

def everywhere : Pattern := ⟨[42],0,some 0⟩

/-- The macros `a` and `b` have each other in their definitions. -/
def cyclicMacros : AttributeFile where
  parsed := [some ⟨.macroName [97],[some ⟨[98],.set⟩,some ⟨[99],.set⟩],1⟩,
    some ⟨.macroName [98],[some ⟨[97],.unset⟩,some ⟨[100],.unset⟩],2⟩,
    some ⟨.pattern everywhere,[some ⟨[100],.set⟩,some ⟨[97],.set⟩],3⟩]
  source := []
  base := none
  allowMacros := true

def firstByte : Hashes := ⟨fun _ => 0,fun a => (a.name.headD 0).toUInt64,fun _ => 0⟩

def longName (n : ℕ) : Assignment := ⟨List.replicate (n+1) 97,.value (List.replicate (n+1) 97)⟩

def oneLine (n m : ℕ) : AttributeFile :=
  ⟨[some ⟨.pattern everywhere,[some (longName n),some (longName m)],1⟩],[],none,true⟩

theorem longName_inj {n m : ℕ} (h : n≠m) :
    (longName n).name≠(longName m).name ∧ (longName n).state≠(longName m).state := by
  have hlist : replicate (n+1) (97 : UInt8)≠replicate (m+1) 97 := by
    intro heq
    have hlen := congrArg length heq
    rw [length_replicate,length_replicate] at hlen
    omega
  exact ⟨hlist,fun heq => hlist (State.value.inj heq)⟩

end Gix.Attributes
