import Gix.HandshakeRefsRuns

/-! # What an advertisement is answered with

The machine's end is described by counts alone: how often a path is announced as symbolic, and on
how many lines it stands. -/
namespace Gix.Handshake
open List InternalRef Advert Option
open Gix.Pack (Bytes ObjectId)
open ByteCodec CommitObject

/-! Counts -/

def Advert.isPlain (path : Bytes) : Advert → Bool
  | .plain path' _ => path' = path
  | _ => false

def Advert.isPeeled : Advert → Bool
  | .peeled _ _ => true
  | _ => false

def plains (path : Bytes) (as : List Advert) : ℕ := as.countP (Advert.isPlain path)

def waiting (path : Bytes) (pending : List Pending) : ℕ := pending.countP (·.1 = path)

variable {pending pending' symrefs : List Pending} {results results' : List InternalRef}
  {as front back : List Advert} {a : Advert} {path : Bytes} {r : InternalRef} {object : ObjectId}

section Counts
variable {target : Option Bytes}

theorem waiting_pos (h : (path,target)∈pending) : 0 < waiting path pending :=
  countP_pos_iff.2 ⟨_,h,by simp⟩

theorem waiting_eq_zero : waiting path pending=0 ↔ ∀ target,(path,target)∉pending := by
  simp only [waiting,countP_eq_zero,decide_eq_true_eq,Prod.forall]
  exact ⟨fun h target hmem => h path target hmem rfl,fun h _ target hmem heq => h target (heq ▸ hmem)⟩

theorem plains_cons (path : Bytes) (a : Advert) (as : List Advert) :
    plains path (a::as)=plains path as+(if a.isPlain path then 1 else 0) := by
  simp [plains,countP_cons]

theorem Step.waiting_after (h : Step pending results a pending' results') (path : Bytes) :
    waiting path pending'=waiting path pending-(if a.isPlain path then 1 else 0) := by
  cases h with
  | @symbolic _ path' target _ h =>
    have := (perm_cons_erase h).countP_eq fun s : Pending => s.1=path
    simp only [isPlain,waiting,countP_cons,decide_eq_true_eq] at this ⊢
    omega
  | @direct _ path' _ h =>
    by_cases heq : path'=path
    · subst heq
      rw [waiting_eq_zero.2 h]
      simp
    · simp [isPlain,heq]
  | peeled => simp [isPlain]
  | ignored => simp [isPlain]

theorem Runs.waiting_after (h : Runs pending results as pending' results') (path : Bytes) :
    waiting path pending'=waiting path pending-plains path as := by
  induction h with
  | nil => simp [plains]
  | cons step runs ih =>
    rw [ih,step.waiting_after path,plains_cons]
    omega

theorem Runs.split (h : Runs pending results (front++back) pending' results') :
    ∃ pending₁ results₁,Runs pending results front pending₁ results₁ ∧
      Runs pending₁ results₁ back pending' results' := by
  induction front generalizing pending results with
  | nil => exact ⟨pending,results,.nil,h⟩
  | cons a front ih =>
    cases h with
    | cons step runs =>
      obtain ⟨pending₁,results₁,hfront,hback⟩ := ih runs
      exact ⟨pending₁,results₁,.cons step hfront,hback⟩

theorem Step.found (h : Step pending results a pending' results')
    (hfound : ∀ r∈results,∃ ref,r.toRef=some ref) : ∀ r∈results',∃ ref,r.toRef=some ref := by
  cases h with
  | @symbolic _ path target object _ =>
    exact forall_mem_append.2 ⟨hfound,by cases target <;> simp [toRef]⟩
  | direct _ => exact forall_mem_append.2 ⟨hfound,by simp [toRef]⟩
  | peeled => exact forall_mem_append.2 ⟨(forall_mem_append.1 hfound).1,by simp [toRef]⟩
  | ignored => exact hfound

theorem Runs.found (h : Runs pending results as pending' results')
    (hfound : ∀ r∈results,∃ ref,r.toRef=some ref) : ∀ r∈results',∃ ref,r.toRef=some ref := by
  induction h with
  | nil => exact hfound
  | cons step _ ih => exact ih (step.found hfound)

end Counts

/-! When a run stops -/

/-- The last line before, the dummy one apart, is one of the path that no symref is met by. -/
def Untaken (symrefs : List Pending) (front : List Advert) (path : Bytes) (tag : ObjectId) : Prop :=
  ∃ before between,front = before++.plain path tag :: between ∧ (∀ a ∈ between,a = .ignored) ∧
    waiting path symrefs ≤ plains path before

/-- Every `^{}` line has its line before it. -/
def Peelable (symrefs : List Pending) (as : List Advert) : Prop :=
  ∀ front path object back,as = front++.peeled path object :: back →
    ∃ tag,Untaken symrefs front path tag

section Stop
variable {tag : ObjectId}

theorem untaken_ignored :
    Untaken symrefs (front++[.ignored]) path tag ↔ Untaken symrefs front path tag := by
  constructor
  · rintro ⟨before,between,heq,hignored,hcount⟩
    obtain rfl | ⟨between,_,rfl⟩ := between.eq_nil_or_concat
    · have := append_inj_right' heq (by simp)
      simp at this
    · rw [concat_eq_append,← cons_append,← append_assoc] at heq
      refine ⟨before,between,append_inj_left' heq rfl,fun a ha => hignored a ?_,hcount⟩
      simp [ha]
  · rintro ⟨before,between,rfl,hignored,hcount⟩
    refine ⟨before,between++[.ignored],by simp,fun a ha => ?_,hcount⟩
    rcases mem_append.1 ha with ha|ha
    · exact hignored a ha
    · simpa using ha

theorem untaken_append_singleton (ha : a ≠ .ignored) :
    Untaken symrefs (front++[a]) path tag ↔
      a = .plain path tag ∧ waiting path symrefs ≤ plains path front := by
  constructor
  · rintro ⟨before,between,heq,hignored,hcount⟩
    obtain rfl | ⟨between,last,rfl⟩ := between.eq_nil_or_concat
    · have hfront := append_inj_left' heq rfl
      have hlast := append_inj_right' heq rfl
      exact ⟨by simpa using hlast,hfront ▸ hcount⟩
    · rw [concat_eq_append,← cons_append,← append_assoc] at heq
      have hlast := append_inj_right' heq rfl
      refine absurd (hignored last (by simp)) ?_
      rwa [← (by simpa using hlast : a=last)]
  · rintro ⟨rfl,hcount⟩
    exact ⟨front,[],rfl,by simp,hcount⟩

/-- The last result is a direct one exactly if its line can be peeled. -/
theorem Runs.last_direct (h : Runs symrefs [] front pending results) :
    results.getLast? = some (.direct path tag) ↔ Untaken symrefs front path tag := by
  induction front using reverseRecOn generalizing pending results with
  | nil =>
    cases h
    simp [Untaken]
  | append_singleton front a ih =>
    obtain ⟨_,_,hfront,hlast⟩ := h.split
    have hcount := hfront.waiting_after path
    cases hlast with
    | cons step runs =>
      cases runs
      cases step with
      | symbolic hmem =>
        rw [untaken_append_singleton (by simp)]
        simp only [getLast?_append,getLast?_singleton,some_or,some.injEq,
          reduceCtorEq,false_iff]
        rintro ⟨⟨rfl,-⟩,hle⟩
        have := waiting_pos hmem
        omega
      | direct hnone =>
        rw [untaken_append_singleton (by simp)]
        simp only [getLast?_append,getLast?_singleton,some_or,some.injEq,
          direct.injEq,plain.injEq,iff_self_and]
        rintro ⟨rfl,-⟩
        have := waiting_eq_zero.2 hnone
        omega
      | peeled =>
        rw [untaken_append_singleton (by simp)]
        simp
      | ignored => rw [untaken_ignored,ih hfront]

theorem Stops.not_peelable (h : Stops symrefs [] as) : ¬Peelable symrefs as := by
  obtain ⟨front,a,back,_,_,rfl,hruns,hrefused⟩ := h
  intro hpeelable
  cases a with
  | ignored => exact hrefused
  | plain path object => exact hrefused
  | peeled path object =>
    obtain ⟨tag,htag⟩ := hpeelable front path object back rfl
    exact hrefused tag (hruns.last_direct.2 htag)

theorem Runs.peelable (h : Runs symrefs [] as pending results) : Peelable symrefs as := by
  rintro front path object back rfl
  obtain ⟨_,_,hfront,hback⟩ := h.split
  cases hback with
  | cons step _ =>
    cases step with
    | @peeled _ _ tag _ => exact ⟨tag,hfront.last_direct.1 (by simp)⟩

end Stop

/-! The references the lines stand for -/

/-- Symbolic with an announced target if a symref names the path, else peeled if its `^{}` line is
next, else direct. -/
def Expected (symrefs : List Pending) (path : Bytes) (object : ObjectId) (next : Option Advert)
    (r : Ref) : Prop :=
  (∃ target,(path,some target) ∈ symrefs ∧ r = .symbolic path target none object) ∨
  ((∀ target,(path,some target) ∉ symrefs) ∧
    ((∃ peeled,next = some (.peeled path peeled) ∧ r = .peeled path object peeled) ∨
      (∀ peeled,next ≠ some (.peeled path peeled)) ∧ r = .direct path object))

/-- One reference for each line that is no `^{}` line. -/
def Described (symrefs : List Pending) : List Advert → List Ref → Prop
  | [],refs => refs = []
  | .plain path object :: as,refs =>
    ∃ r rest,refs = r :: rest ∧ Expected symrefs path object as.head? r ∧ Described symrefs as rest
  | _ :: as,refs => Described symrefs as refs

/-- The symrefs are met by the lines: every one has a line of its own, one with a target has all the
lines of its path, and no dummy line stands before a `^{}` line. -/
structure Matches (symrefs : List Pending) (as : List Advert) : Prop where
  met : ∀ path,waiting path symrefs ≤ plains path as
  all : ∀ path target,(path,some target) ∈ symrefs → plains path as ≤ waiting path symrefs ∧
    (path,none) ∉ symrefs
  adjacent : ∀ front path object back,as ≠ front++.ignored :: .peeled path object :: back

/-- What the next line makes of the last result. -/
def close (results : List InternalRef) : Option Advert → List InternalRef
  | some (.peeled path object) =>
    match results.getLast? with
    | some (.direct _ tag) => results.dropLast++[.peeled path tag object]
    | _ => results
  | _ => results

theorem close_append_of_not_direct (hr : ∀ path tag,r ≠ .direct path tag)
    (next : Option Advert) : close (results++[r]) next=results++[r] := by
  unfold close
  split
  · split
    · rename_i hlast
      simp only [getLast?_append,getLast?_singleton,some_or,
        some.injEq] at hlast
      exact absurd hlast (hr _ _)
    · rfl
  · rfl

/-- A `^{}` line is only taken behind its direct reference. -/
theorem Runs.head_peeled {path : Bytes} (hruns : Runs pending results as pending' results')
    (hhead : as.head? = some (.peeled path object)) :
    ∃ tag,results.getLast? = some (.direct path tag) := by
  cases hruns with
  | nil => simp at hhead
  | cons step _ =>
    simp only [head?_cons,some.injEq] at hhead
    subst hhead
    cases step with
    | @peeled _ _ tag _ => exact ⟨tag,by simp⟩

/-- The state a run that matches goes through. -/
structure Due (symrefs pending : List Pending) (as : List Advert) : Prop where
  subset : pending ⊆ symrefs
  all : ∀ path target,(path,some target) ∈ symrefs → plains path as ≤ waiting path pending
  reachable : ∀ path target,(path,some target) ∈ symrefs → (path,none) ∉ symrefs
  adjacent : ∀ front path object back,as ≠ front++.ignored :: .peeled path object :: back

theorem Due.step (h : Due symrefs pending (a::as)) (hstep : Step pending results a pending' results') :
    Due symrefs pending' as where
  subset := by
    cases hstep with
    | symbolic => exact fun _ hmem => h.subset (mem_of_mem_erase hmem)
    | direct => exact h.subset
    | peeled => exact h.subset
    | ignored => exact h.subset
  all path target hmem := by
    have := h.all path target hmem
    rw [plains_cons] at this
    rw [hstep.waiting_after path]
    omega
  reachable := h.reachable
  adjacent front path object back heq := h.adjacent (a::front) path object back (by rw [heq]; rfl)

theorem filterMap_append_singleton {ref : Ref} (h : r.toRef=some ref) :
    (results++[r]).filterMap toRef=results.filterMap toRef++[ref] := by
  simp [h]

theorem Runs.described (hruns : Runs pending results as pending' results')
    (h : Due symrefs pending as) :
    ∃ later,results'.filterMap toRef =
      (close results as.head?).filterMap toRef++later ∧ Described symrefs as later := by
  induction hruns with
  | nil => exact ⟨[],by simp [close],rfl⟩
  | @cons pending results a pending₁ results₁ as pending₂ results₂ hstep hruns ih =>
    obtain ⟨later,heq,hlater⟩ := ih (h.step hstep)
    cases hstep with
    | ignored =>
      refine ⟨later,?_,hlater⟩
      rw [heq]
      cases hhead : as.head? with
      | none => rfl
      | some next =>
        cases next with
        | peeled path object =>
          obtain ⟨back,rfl⟩ := head?_eq_some_iff.1 hhead
          exact absurd rfl (h.adjacent [] path object back)
        | _ => rfl
    | @peeled results path tag object =>
      refine ⟨later,?_,hlater⟩
      rw [heq,close_append_of_not_direct (by simp)]
      simp [close]
    | @symbolic results path target object hmem =>
      rw [close_append_of_not_direct (by simp)] at heq
      cases target with
      | some target =>
        rw [filterMap_append_singleton (by rfl),append_assoc] at heq
        exact ⟨_,heq,_,later,rfl,.inl ⟨target,h.subset hmem,rfl⟩,hlater⟩
      | none =>
        rw [filterMap_append_singleton (by rfl),append_assoc] at heq
        refine ⟨_,heq,_,later,rfl,.inr ⟨fun target htarget => ?_,.inr ⟨fun object hnext => ?_,rfl⟩⟩,
          hlater⟩
        · exact h.reachable path target htarget (h.subset hmem)
        · obtain ⟨tag,hlast⟩ := hruns.head_peeled hnext
          simp at hlast
    | @direct results path object hnone =>
      have hunnamed : ∀ target,(path,some target)∉symrefs := by
        intro target htarget
        have hall := h.all path target htarget
        rw [plains_cons,waiting_eq_zero.2 hnone] at hall
        simp [isPlain] at hall
      by_cases hnext : ∃ peeled,as.head? = some (.peeled path peeled)
      · obtain ⟨peeled,hpeeled⟩ := hnext
        have hclose : close (results++[.direct path object]) as.head? =
            results++[.peeled path object peeled] := by
          simp [hpeeled,close]
        rw [hclose,filterMap_append_singleton (by rfl),append_assoc] at heq
        exact ⟨_,heq,_,later,rfl,.inr ⟨hunnamed,.inl ⟨peeled,hpeeled,rfl⟩⟩,hlater⟩
      · have hclose : close (results++[.direct path object]) as.head? =
            results++[.direct path object] := by
          cases hhead : as.head? with
          | none => rfl
          | some next =>
            cases next with
            | peeled path' peeled =>
              obtain ⟨tag,hlast⟩ := hruns.head_peeled hhead
              obtain ⟨rfl,-⟩ : path=path' ∧ object=tag := by simpa using hlast
              exact absurd ⟨peeled,hhead⟩ hnext
            | _ => rfl
        rw [hclose,filterMap_append_singleton (by rfl),append_assoc] at heq
        exact ⟨_,heq,_,later,rfl,.inr ⟨hunnamed,.inr ⟨fun peeled hpeeled => hnext ⟨peeled,hpeeled⟩,
          rfl⟩⟩,hlater⟩

section Backward
variable {refs : List Ref}

def Ref.isSymbolic (path : Bytes) : Ref → Bool
  | .symbolic path' _ _ _ => path' = path
  | _ => false

def Ref.isPeeled : Ref → Bool
  | .peeled _ _ _ => true
  | _ => false

def reachable (path : Bytes) (pending : List Pending) : ℕ :=
  pending.countP fun symref => symref.1 = path ∧ symref.2.isSome

theorem waiting_eq (path : Bytes) (pending : List Pending) :
    waiting path pending=reachable path pending+pending.count (path,none) := by
  induction pending with
  | nil => rfl
  | cons symref pending ih =>
    obtain ⟨path',target⟩ := symref
    simp only [waiting,reachable,countP_cons,count_cons] at ih ⊢
    rw [ih]
    by_cases hpath : path'=path
    · cases target <;> simp <;> omega
    · simp [hpath]

def refsOf (p : Ref → Bool) (results : List InternalRef) : ℕ := (results.filterMap InternalRef.toRef).countP p

/-- The symbolic references of a path are as many as symrefs with a target have been met. -/
theorem Step.symbolics (h : Step pending results a pending' results') (path : Bytes) :
    refsOf (Ref.isSymbolic path) results'+reachable path pending' =
      refsOf (Ref.isSymbolic path) results+reachable path pending := by
  cases h with
  | @symbolic _ path' target object h =>
    have herase := (perm_cons_erase h).countP_eq fun symref : Pending => symref.1=path ∧ symref.2.isSome
    cases target <;> simp [refsOf,toRef,Ref.isSymbolic,reachable,countP_cons] at herase ⊢ <;> omega
  | direct _ => simp [refsOf,toRef,Ref.isSymbolic]
  | peeled => simp [refsOf,toRef,Ref.isSymbolic]
  | ignored => rfl

theorem Runs.symbolics (h : Runs pending results as pending' results') (path : Bytes) :
    refsOf (Ref.isSymbolic path) results'+reachable path pending' =
      refsOf (Ref.isSymbolic path) results+reachable path pending := by
  induction h with
  | nil => rfl
  | cons step _ ih => rw [ih,step.symbolics path]

theorem Step.peels (h : Step pending results a pending' results') :
    refsOf Ref.isPeeled results'=refsOf Ref.isPeeled results+(if a.isPeeled then 1 else 0) := by
  cases h with
  | @symbolic _ _ target _ _ =>
    cases target <;> simp [refsOf,toRef,Ref.isPeeled,isPeeled]
  | direct _ => simp [refsOf,toRef,Ref.isPeeled,isPeeled]
  | peeled => simp [refsOf,toRef,Ref.isPeeled,isPeeled]
  | ignored => rfl

theorem Runs.peels (h : Runs pending results as pending' results') :
    refsOf Ref.isPeeled results'=refsOf Ref.isPeeled results+as.countP isPeeled := by
  induction h with
  | nil => rfl
  | cons step _ ih =>
    rw [ih,step.peels,countP_cons]
    omega

theorem Described.symbolics (h : Described symrefs as refs) {target : Bytes}
    (hnamed : (path,some target)∈symrefs) :
    refs.countP (Ref.isSymbolic path)=plains path as := by
  induction as generalizing refs with
  | nil =>
    obtain rfl := h
    rfl
  | cons a as ih =>
    rw [plains_cons]
    cases a with
    | plain path' object =>
      obtain ⟨_,_,rfl,hr,hrest⟩ := h
      rw [countP_cons,ih hrest]
      obtain ⟨_,-,rfl⟩|⟨hunnamed,⟨_,-,rfl⟩|⟨-,rfl⟩⟩ := hr
      · simp [Ref.isSymbolic,isPlain]
      all_goals
        have hne : path'≠path := fun heq => hunnamed target (heq ▸ hnamed)
        simp [Ref.isSymbolic,isPlain,hne]
    | peeled _ _ => simpa [isPlain] using ih h
    | ignored => simpa [isPlain] using ih h

/-- Whether the next line is a `^{}` line, as a number. -/
def peelsNext (as : List Advert) : ℕ := if as.head?.any Advert.isPeeled then 1 else 0

def followed : List Advert → ℕ
  | [] => 0
  | .plain _ _ :: as => followed as+peelsNext as
  | _ :: as => followed as

theorem Described.peels (h : Described symrefs as refs) :
    refs.countP Ref.isPeeled ≤ followed as := by
  induction as generalizing refs with
  | nil =>
    obtain rfl := h
    simp
  | cons a as ih =>
    cases a with
    | plain path object =>
      obtain ⟨_,_,rfl,hr,hrest⟩ := h
      have := ih hrest
      rw [countP_cons,followed]
      obtain ⟨_,-,rfl⟩|⟨-,⟨peeled,hnext,rfl⟩|⟨-,rfl⟩⟩ := hr
      · simp only [Ref.isPeeled,Bool.false_eq_true,if_false]
        omega
      · have hone : peelsNext as=1 := by simp [peelsNext,hnext,isPeeled]
        simp only [Ref.isPeeled,if_true]
        omega
      · simp only [Ref.isPeeled,Bool.false_eq_true,if_false]
        omega
    | peeled _ _ => exact ih h
    | ignored => exact ih h

theorem followed_cons_le (a : Advert) (as : List Advert) :
    followed (a::as) ≤ followed as+peelsNext as := by
  cases a <;> simp [followed]

theorem countP_isPeeled_cons (a : Advert) (as : List Advert) :
    (a::as).countP isPeeled=as.countP isPeeled+peelsNext (a::as) := by
  cases a <;> simp [countP_cons,peelsNext,isPeeled]

theorem followed_le (as : List Advert) :
    followed as+peelsNext as ≤ as.countP isPeeled := by
  induction as with
  | nil => simp [followed,peelsNext]
  | cons a as ih =>
    have := followed_cons_le a as
    rw [countP_isPeeled_cons]
    omega

theorem followed_lt (h : as=front++.ignored :: .peeled path object::back) :
    followed as+peelsNext as < as.countP isPeeled := by
  subst h
  induction front with
  | nil =>
    have := followed_le (.peeled path object::back)
    simp [followed,peelsNext,isPeeled] at this ⊢
    omega
  | cons a front ih =>
    have := followed_cons_le a (front++.ignored :: .peeled path object::back)
    rw [cons_append,countP_isPeeled_cons]
    omega

/-- A complete run is described by its lines exactly if these match the symrefs. -/
theorem Runs.described_iff (hruns : Runs symrefs [] as [] results)
    (hperm : refs.Perm (results.filterMap toRef)) :
    (∃ ordered,refs.Perm ordered ∧ Described symrefs as ordered) ↔ Matches symrefs as := by
  have hmet : ∀ path,waiting path symrefs ≤ plains path as := by
    intro path
    have hend : 0=waiting path symrefs-plains path as := hruns.waiting_after path
    omega
  constructor
  · rintro ⟨ordered,hordered,hdescribed⟩
    have hsame := hperm.symm.trans hordered
    refine ⟨hmet,fun path target hmem => ?_,fun front path object back heq => ?_⟩
    · have hcount := hsame.countP_eq (Ref.isSymbolic path)
      rw [hdescribed.symbolics hmem] at hcount
      have hreachable := hruns.symbolics path
      have hwaiting := waiting_eq path symrefs
      have hle := hmet path
      simp only [refsOf,countP_nil,filterMap_nil] at hreachable hwaiting
      refine ⟨by omega,fun hnone => ?_⟩
      have := count_pos_iff.2 hnone
      omega
    · have hcount := hsame.countP_eq Ref.isPeeled
      have hpeels := hruns.peels
      simp only [refsOf] at hpeels
      have hle := hdescribed.peels
      have hlt := followed_lt heq
      omega
  · intro hmatches
    have hdue : Due symrefs symrefs as :=
      ⟨fun _ h => h,fun path target h => (hmatches.all path target h).1,
        fun path target h => (hmatches.all path target h).2,hmatches.adjacent⟩
    obtain ⟨later,heq,hlater⟩ := hruns.described hdue
    refine ⟨later,?_,hlater⟩
    have hclose : close [] as.head? = [] := by
      unfold close
      split <;> rfl
    rw [heq,hclose] at hperm
    exact hperm

end Backward

/-! The advertisement as a whole -/

/-- The symrefs of the capabilities, `none` if one of them is malformed. -/
def symrefsOf (capabilities : List Bytes) : Option (List Pending) :=
  ((capabilities.filterMap symrefValue).mapM parseSymref).toOption

/-- An error, or one reference for each line, in some order; never a panic. -/
def Answered (trimEnd : Bytes → Bytes) (capabilities lines : List Bytes) : Prop :=
  match fromV1Refs trimEnd capabilities lines with
  | none => False
  | some (.error _) => True
  | some (.ok refs) => ∃ symrefs as ordered,symrefsOf capabilities = some symrefs ∧
      lines.mapM (advert trimEnd) = some as ∧ refs.Perm ordered ∧ Described symrefs as ordered

section Whole
variable {trimEnd : Bytes → Bytes} {capabilities lines : List Bytes} {outRefs : List InternalRef}

theorem answered_of_error {e : Error} (h : fromV1Refs trimEnd capabilities lines=some (.error e)) :
    Answered trimEnd capabilities lines := by
  simp [Answered,h]

theorem fromCapabilities_of_none (h : symrefsOf capabilities=none) :
    ∃ e,fromCapabilities capabilities = .error e := by
  unfold symrefsOf at h
  unfold fromCapabilities
  cases hparse : (capabilities.filterMap symrefValue).mapM parseSymref with
  | error e => exact ⟨e,rfl⟩
  | ok symrefs => simp [hparse,Except.toOption] at h

theorem fromCapabilities_of_some (h : symrefsOf capabilities=some symrefs) :
    fromCapabilities capabilities = .ok (symrefs.map Pending.lookup) := by
  unfold symrefsOf at h
  unfold fromCapabilities
  cases hparse : (capabilities.filterMap symrefValue).mapM parseSymref with
  | error e => simp [hparse,Except.toOption] at h
  | ok symrefs' =>
    obtain rfl : symrefs'=symrefs := by simpa [hparse,Except.toOption] using h
    rfl

theorem mapM_toRef_of_pending {symref : Pending}
    (h : symref.lookup∈outRefs) : outRefs.mapM toRef=none := by
  induction outRefs with
  | nil => simp at h
  | cons r outRefs ih =>
    rcases mem_cons.1 h with rfl|h
    · rfl
    · cases r.toRef <;> simp [ih h]

theorem mapM_toRef_of_found
    (h : ∀ r∈outRefs,∃ ref,r.toRef=some ref) :
    outRefs.mapM toRef=some (outRefs.filterMap toRef) := by
  induction outRefs with
  | nil => rfl
  | cons r outRefs ih =>
    obtain ⟨ref,href⟩ := h r (by simp)
    have hrest := ih fun r hr => h r (mem_cons_of_mem _ hr)
    simp [href,hrest]

/-- A run to the end is answered exactly if the lines match the symrefs. -/
theorem answered_of_runs {n : ℕ} {results : List InternalRef} {pending : List Pending}
    (hsymrefs : symrefsOf capabilities=some symrefs)
    (has : lines.mapM (advert trimEnd)=some as)
    (hok : parseLines trimEnd (symrefs.map Pending.lookup).length lines
      (symrefs.map Pending.lookup)=some (.ok outRefs))
    (hruns : Runs symrefs [] as pending results) (htracks : Tracks n outRefs pending results) :
    Answered trimEnd capabilities lines ↔ Matches symrefs as := by
  have hcode : fromV1Refs trimEnd capabilities lines =
      (outRefs.mapM toRef).map .ok := by
    simp only [fromV1Refs,fromCapabilities_of_some hsymrefs,hok]
  cases pending with
  | cons symref pending =>
    have hmem := htracks.mem_outRefs (mem_cons_self)
    have hpanic : fromV1Refs trimEnd capabilities lines=none := by
      rw [hcode,mapM_toRef_of_pending hmem,map_none]
    have hleft : ¬Answered trimEnd capabilities lines := by simp [Answered,hpanic]
    refine ⟨fun h => absurd h hleft,fun h => ?_⟩
    have hpos : 0 < waiting symref.1 (symref::pending) :=
      waiting_pos (mem_cons_self)
    have hend := hruns.waiting_after symref.1
    have hmet := h.met symref.1
    omega
  | nil =>
    have hperm := htracks.perm
    have hfound := hruns.found (by simp)
    have hrefs := mapM_toRef_of_found fun r hr => hfound r (hperm.mem_iff.1 hr)
    rw [← hruns.described_iff (hperm.filterMap toRef)]
    rw [hrefs] at hcode
    simp [Answered,hcode,hsymrefs,has]

/-- An advertisement is answered by an error or by its references exactly if it is malformed, or has
a `^{}` line that does not follow its line, or its lines match the symrefs it announces. -/
theorem answered_iff (trimEnd : Bytes → Bytes) (capabilities lines : List Bytes) :
    Answered trimEnd capabilities lines ↔
      ∀ symrefs as,symrefsOf capabilities = some symrefs → lines.mapM (advert trimEnd) = some as →
        Peelable symrefs as → Matches symrefs as := by
  cases hsymrefs : symrefsOf capabilities with
  | none =>
    obtain ⟨e,he⟩ := fromCapabilities_of_none hsymrefs
    have : Answered trimEnd capabilities lines := @answered_of_error _ _ _ e (by simp [fromV1Refs,he])
    simp [this]
  | some symrefs =>
    have hcaps := fromCapabilities_of_some hsymrefs
    have htracks := Tracks.initial symrefs
    cases has : lines.mapM (advert trimEnd) with
    | none =>
      obtain ⟨e,he⟩ := parseLines_of_none htracks has
      have : Answered trimEnd capabilities lines :=
        @answered_of_error _ _ _ e (by simp only [fromV1Refs,hcaps,he])
      simp [this]
    | some as =>
      obtain ⟨hstops,e,he⟩|⟨_,_,_,hok,hruns,htracks⟩ :=
        parseLines_run htracks has
      · have : Answered trimEnd capabilities lines :=
          @answered_of_error _ _ _ e (by simp only [fromV1Refs,hcaps,he])
        refine iff_of_true this ?_
        rintro _ _ ⟨⟩ ⟨⟩ hpeelable
        exact absurd hpeelable hstops.not_peelable
      · rw [answered_of_runs hsymrefs has hok hruns htracks]
        refine ⟨?_,fun h => h symrefs as rfl rfl hruns.peelable⟩
        rintro h _ _ ⟨⟩ ⟨⟩ -
        exact h

end Whole

/-- `symref=HEAD:a` -/
def headSymref : Bytes := [115,121,109,114,101,102,61,72,69,65,68,58,97]

def headLine : Bytes := List.replicate 40 48++[32,72,69,65,68]

theorem answered_head : Answered id [headSymref] [headLine] := by
  have hsymrefs : symrefsOf [headSymref]=some [([72,69,65,68],some [97])] := by decide
  have has : [headLine].mapM (advert id)=some [.plain [72,69,65,68] (Vector.replicate 20 0)] := by
    decide
  refine (answered_iff id [headSymref] [headLine]).2 ?_
  rw [hsymrefs,has]
  rintro _ _ ⟨⟩ ⟨⟩ -
  refine ⟨fun path => ?_,fun path target => ?_,fun front path object back heq => ?_⟩
  · simp [waiting,plains,isPlain]
  · simp only [mem_singleton]
    rintro ⟨⟩
    decide
  · have := congrArg length heq
    simp only [length_append,length_cons,length_nil] at this
    omega

/-- `HEAD` announced as symbolic, with no line for it, is a panic. -/
theorem head_without_line : ¬Answered id [headSymref] [] := by
  have : fromV1Refs id [headSymref] []=none := by decide
  simp [Answered,this]

end Gix.Handshake
