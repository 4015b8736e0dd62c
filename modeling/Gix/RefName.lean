import Gix.PackEntry

/-! # Names of references

`gix-ref/src/name.rs`, `fullname.rs` and the functions that map names to files and to names
in `packed-refs`. Namespaces and the precomposition of unicode are left out. -/
namespace Gix.Ref
open Gix.Pack List Option

abbrev FullName := Bytes

def ascii (s : List Char) : Bytes := s.map (fun c => c.toNat.toUInt8)

def slash : UInt8 := 47

/-- `strip_prefix()` -/
def stripLeading : Bytes → Bytes → Option Bytes
  | [], name => some name
  | _ :: _, [] => none
  | a :: leading, b :: name => if a = b then stripLeading leading name else none

inductive Category
  | tag | localBranch | remoteBranch | note | pseudoRef | mainPseudoRef | mainRef
  | linkedPseudoRef (name : Bytes)
  | linkedRef (name : Bytes)
  | bisect | rewritten | worktreePrivate
deriving DecidableEq,Repr

namespace Category

def leading : Category → Bytes
  | tag => ascii ['r','e','f','s','/','t','a','g','s','/']
  | localBranch => ascii ['r','e','f','s','/','h','e','a','d','s','/']
  | remoteBranch => ascii ['r','e','f','s','/','r','e','m','o','t','e','s','/']
  | note => ascii ['r','e','f','s','/','n','o','t','e','s','/']
  | mainPseudoRef => ascii ['m','a','i','n','-','w','o','r','k','t','r','e','e','/']
  | mainRef => ascii ['m','a','i','n','-','w','o','r','k','t','r','e','e','/','r','e','f','s','/']
  | pseudoRef => []
  | linkedPseudoRef _ => ascii ['w','o','r','k','t','r','e','e','s','/']
  | linkedRef _ => ascii ['w','o','r','k','t','r','e','e','s','/']
  | bisect => ascii ['r','e','f','s','/','b','i','s','e','c','t','/']
  | rewritten => ascii ['r','e','f','s','/','r','e','w','r','i','t','t','e','n','/']
  | worktreePrivate => ascii ['r','e','f','s','/','w','o','r','k','t','r','e','e','/']

def isWorktreePrivate : Category → Bool
  | mainPseudoRef | pseudoRef | linkedPseudoRef _ | worktreePrivate | rewritten | bisect => true
  | _ => false

end Category

def refsDir : Bytes := ascii ['r','e','f','s','/']

def isPseudoRef (name : Bytes) : Bool := name.all (fun b => (65 ≤ b && b ≤ 90) || b == 95)

/-- `category_and_short_name()` for names in the main worktree or another one. -/
def worktreeCategory (name : Bytes) : Option (Category × Bytes) :=
  match stripLeading Category.mainPseudoRef.leading name with
  | some short =>
    if refsDir.isPrefixOf short then some (.mainRef,short)
    else if isPseudoRef short then some (.mainPseudoRef,short) else none
  | none => match stripLeading (Category.linkedPseudoRef []).leading name with
    | none => none
    | some rest => match rest.dropWhile (· ≠ slash) with
      | [] => none
      | _ :: short =>
        let worktree := rest.takeWhile (· ≠ slash)
        if refsDir.isPrefixOf short then some (.linkedRef worktree,short)
        else if isPseudoRef short then some (.linkedPseudoRef worktree,short) else none

def categoryAndShortName (name : FullName) : Option (Category × Bytes) :=
  match [Category.tag,.localBranch,.remoteBranch].findSome? (fun c => (stripLeading c.leading name).map (c,·)) with
  | some r => some r
  | none => match [Category.note,.bisect,.worktreePrivate,.rewritten].find? (fun c => c.leading.isPrefixOf name) with
    | some c => some (c,name.drop refsDir.length)
    | none => if isPseudoRef name then some (.pseudoRef,name) else worktreeCategory name

def transformFullNameForLookup (name : FullName) : Option FullName :=
  match categoryAndShortName name with
  | some (.mainRef,short) | some (.linkedRef _,short) => some short
  | some (.tag,_) | some (.remoteBranch,_) | some (.localBranch,_) | some (.bisect,_) | some (.rewritten,_)
  | some (.note,_) => some name
  | some (.mainPseudoRef,_) | some (.pseudoRef,_) | some (.linkedPseudoRef _,_) | some (.worktreePrivate,_) => none
  | none => some name

/-- `possibly_adjust_name_for_prefixes()` -/
def possiblyAdjustName (name : FullName) : Option FullName :=
  match categoryAndShortName name with
  | some (.bisect,_) | some (.rewritten,_) | some (.worktreePrivate,_) | some (.linkedPseudoRef _,_)
  | some (.pseudoRef,_) | some (.mainPseudoRef,_) => none
  | some (.tag,_) | some (.localBranch,_) | some (.remoteBranch,_) | some (.note,_) => some name
  | some (.mainRef,short) | some (.linkedRef _,short) =>
    if (categoryAndShortName short).any (fun r => !r.1.isWorktreePrivate) then some short else none
  | none => some name

inductive Base
  | gitDir | commonDir
deriving DecidableEq,Repr

abbrev Path := Base × Bytes

/-- `to_base_dir_and_relative_name()`, not for reflogs. -/
def loosePath (name : FullName) : Path :=
  match categoryAndShortName name with
  | some (.linkedPseudoRef _,_) => (.commonDir,name)
  | some (.tag,_) | some (.localBranch,_) | some (.remoteBranch,_) | some (.note,_) => (.commonDir,name)
  | some (.mainRef,short) | some (.mainPseudoRef,short) => (.commonDir,short)
  | some (.linkedRef _,short) =>
    if (categoryAndShortName short).any (fun r => r.1.isWorktreePrivate) then (.commonDir,name) else (.commonDir,short)
  | some (.pseudoRef,_) | some (.bisect,_) | some (.rewritten,_) | some (.worktreePrivate,_) => (.gitDir,name)
  | none => (.commonDir,name)

def looksLikeFullName (name : Bytes) : Bool :=
  refsDir.isPrefixOf name || Category.mainPseudoRef.leading.isPrefixOf name ||
    (Category.linkedPseudoRef []).leading.isPrefixOf name || isPseudoRef name

/-- `construct_full_name_ref()`, where `inbetween` has its slash. -/
def constructFullNameRef (inbetween name : Bytes) : FullName :=
  (if looksLikeFullName name then [] else refsDir)++inbetween++name

def tagsDir : Bytes := ascii ['t','a','g','s','/']
def headsDir : Bytes := ascii ['h','e','a','d','s','/']
def remotesDir : Bytes := ascii ['r','e','m','o','t','e','s','/']
def headFile : Bytes := ascii ['H','E','A','D']

/-- A name to look for, and whether also in `packed-refs`. -/
structure Candidate where
  name : FullName
  packed : Bool

/-- The names that `find_one_with_verified_input()` looks for. -/
def candidates (partialName : Bytes) : List Candidate :=
  [[],tagsDir,headsDir,remotesDir].map (fun inbetween => ⟨constructFullNameRef inbetween partialName,true⟩)++
    if partialName = headFile then [] else [⟨constructFullNameRef remotesDir (partialName++slash :: headFile),false⟩]

variable {name short : Bytes} {c : Category} {packedName name' : FullName}

theorem stripLeading_length {leading : Bytes} (h : stripLeading leading name=some short) : short.length ≤ name.length := by
  induction leading generalizing name with
  | nil => exact (some.inj h) ▸ Nat.le_refl _
  | cons a leading ih =>
    cases name with
    | nil => simp [stripLeading] at h
    | cons b name =>
      simp only [stripLeading] at h
      split at h
      · exact Nat.le_succ_of_le (ih h)
      · simp at h

theorem worktreeCategory_length (h : worktreeCategory name=some (c,short)) : short.length ≤ name.length := by
  unfold worktreeCategory at h
  split at h
  · rename_i rest hrest
    have := stripLeading_length hrest
    split at h
    · cases h
      exact this
    · split at h
      · cases h
        exact this
      · simp at h
  · split at h
    · simp at h
    · rename_i rest hrest
      have := stripLeading_length hrest
      split at h
      · simp at h
      · rename_i b after hafter
        have hlen : (b::after).length ≤ rest.length := by
          rw [← hafter]
          exact (dropWhile_sublist _).length_le
        rw [length_cons] at hlen
        have hshort : short=after := by
          split at h
          · exact (Prod.mk.inj (some.inj h)).2.symm
          · split at h
            · exact (Prod.mk.inj (some.inj h)).2.symm
            · simp at h
        rw [hshort]
        omega

theorem short_length (h : categoryAndShortName name=some (c,short)) : short.length ≤ name.length := by
  unfold categoryAndShortName at h
  split at h
  · rename_i r hr
    obtain ⟨_,-,hc'⟩ := exists_of_findSome?_eq_some hr
    obtain ⟨_,hshort,rfl⟩ := map_eq_some_iff.mp hc'
    cases h
    exact stripLeading_length hshort
  · split at h
    · cases h
      simp
    · split at h
      · cases h
        exact Nat.le_refl _
      · exact worktreeCategory_length h

theorem lookup_length (h : transformFullNameForLookup name=some packedName) :
    packedName.length ≤ name.length := by
  unfold transformFullNameForLookup at h
  split at h <;> simp only [some.injEq,reduceCtorEq] at h <;> subst h
  case h_1 hshort => exact short_length hshort
  case h_2 hshort => exact short_length hshort
  all_goals exact Nat.le_refl _

theorem loosePath_length (name : FullName) : (loosePath name).2.length ≤ name.length := by
  unfold loosePath
  split
  case h_6 hshort => exact short_length hshort
  case h_7 hshort => exact short_length hshort
  case h_8 hshort =>
    split
    · exact Nat.le_refl _
    · exact short_length hshort
  all_goals exact Nat.le_refl _

/-- A name that can be packed is looked up where it was packed. -/
theorem lookup_of_adjusted (h : possiblyAdjustName name=some packedName) :
    transformFullNameForLookup name=some packedName := by
  unfold possiblyAdjustName at h
  unfold transformFullNameForLookup
  cases hcat : categoryAndShortName name with
  | none => simpa [hcat] using h
  | some r =>
    obtain ⟨c,_⟩ := r
    cases c <;> simp_all

/-! Candidates -/

/-- A name that stands for itself everywhere. -/
structure Plain (name : FullName) : Prop where
  path : loosePath name = (.commonDir,name)
  lookup : transformFullNameForLookup name = some name

theorem plain_constructed (inbetween : Bytes) (h : inbetween∈[tagsDir,headsDir,remotesDir]) (name : Bytes) :
    Plain (constructFullNameRef inbetween name) := by
  unfold constructFullNameRef
  simp only [mem_cons,not_mem_nil,or_false] at h
  split <;> rcases h with rfl | rfl | rfl <;> exact ⟨rfl,rfl⟩

theorem constructed_length (inbetween name : Bytes) : (constructFullNameRef inbetween name).length =
    (if looksLikeFullName name then 0 else 5)+inbetween.length+name.length := by
  unfold constructFullNameRef
  split
  · simp
  · rw [length_append,length_append]
    rfl

/-- The names under which a reference is reported. -/
def reported (name : FullName) : List FullName := name :: (transformFullNameForLookup name).toList

/-- Two names that have nothing in common. -/
structure Apart (name name' : FullName) : Prop where
  path : loosePath name ≠ loosePath name'
  reported : List.Disjoint (reported name) (reported name')

theorem reported_length (h : name'∈reported name) : name'.length ≤ name.length := by
  rcases mem_cons.mp h with rfl | h
  · exact Nat.le_refl _
  · exact lookup_length (by simpa using h)

theorem Plain.reported_eq (h : Plain name) (hname' : name'∈reported name) : name'=name := by
  simpa [reported,h.lookup] using hname'

theorem Plain.apart_of_longer (h : Plain name) {shorter : FullName} (hlen : shorter.length < name.length) :
    Apart shorter name := by
  constructor
  · intro hpath
    have := loosePath_length shorter
    rw [hpath,h.path] at this
    exact absurd hlen (Nat.not_lt.mpr this)
  · intro name' hshorter hname
    have := reported_length hshorter
    rw [h.reported_eq hname] at this
    exact absurd hlen (Nat.not_lt.mpr this)

theorem Plain.apart_of_ne (h : Plain name) {other : FullName} (hother : Plain other) (hne : name≠other) :
    Apart name other := by
  constructor
  · rw [h.path,hother.path]
    simpa using hne
  · intro name' hname hname'
    exact hne ((h.reported_eq hname).symm.trans (hother.reported_eq hname'))

theorem apart_head {inbetween : Bytes} (h : inbetween∈[[],tagsDir,headsDir,remotesDir]) (name : Bytes) :
    Apart (constructFullNameRef inbetween name) (constructFullNameRef remotesDir (name++slash::headFile)) := by
  have hremotes := plain_constructed remotesDir (by simp) (name++slash::headFile)
  have hlen : (name++slash::headFile).length=name.length+5 := by simp [headFile,ascii]
  have hinbetween : inbetween=[] ∨ inbetween∈[tagsDir,headsDir,remotesDir] := by simpa using h
  have hdirs : ∀ dir∈[[],tagsDir,headsDir,remotesDir],dir.length ≤ remotesDir.length := by decide
  have hdir := hdirs inbetween h
  by_cases hfull : looksLikeFullName name=false ∧ looksLikeFullName (name++slash::headFile)=true ∧ inbetween≠[]
  · -- the one is in `refs/` and the other in `remotes/`
    obtain ⟨hname,happended,hne⟩ := hfull
    refine (plain_constructed inbetween (hinbetween.resolve_left hne) name).apart_of_ne hremotes ?_
    simp only [constructFullNameRef,happended,hname]
    intro heq
    have := congrArg (fun l : Bytes => l[2]?) heq
    simp [refsDir,remotesDir,ascii] at this
  · refine hremotes.apart_of_longer ?_
    rw [constructed_length,constructed_length]
    by_cases hname : looksLikeFullName name=true
    · rw [if_pos hname]
      omega
    · rw [if_neg hname]
      by_cases happended : looksLikeFullName (name++slash::headFile)=true
      · obtain rfl : inbetween=[] := by simpa [hname,happended] using hfull
        have : remotesDir.length=8 := rfl
        rw [length_nil]
        omega
      · rw [if_neg happended]
        omega

theorem candidates_apart (partialName : Bytes) : (candidates partialName).Pairwise (fun c c' => Apart c.name c'.name) := by
  have hfirst : ([[],tagsDir,headsDir,remotesDir].map
      (fun inbetween => (⟨constructFullNameRef inbetween partialName,true⟩ : Candidate))).Pairwise
        (fun c c' => Apart c.name c'.name) := by
    simp only [map_cons,map_nil,pairwise_cons,mem_cons,not_mem_nil,or_false,forall_eq_or_imp,
      forall_eq,List.Pairwise.nil,IsEmpty.forall_iff,implies_true,and_true]
    refine ⟨⟨?_,?_,?_⟩,⟨?_,?_⟩,?_⟩ <;> refine (plain_constructed _ (by decide) partialName).apart_of_longer ?_ <;>
      simp [constructed_length,tagsDir,headsDir,remotesDir,ascii]
  unfold candidates
  split
  · rwa [append_nil]
  · refine pairwise_append.mpr ⟨hfirst,pairwise_singleton _ _,?_⟩
    intro c hc c' hc'
    obtain ⟨inbetween,hinbetween,rfl⟩ := mem_map.mp hc
    rw [mem_singleton] at hc'
    subst hc'
    exact apart_head hinbetween partialName

end Gix.Ref
