import Gix.HandshakeRefs

/-! # The advertisement as an ordered machine

The announced symrefs wait in a list of their own, and the references stand in the order of their
lines; the vector of the code is a permutation of both. -/
namespace Gix.Handshake
open List InternalRef
open Gix.Pack (Bytes ObjectId)
open ByteCodec CommitObject

section SwapRemove
variable {α : Type} {l : List α} {i : ℕ} {x : α}

theorem swapRemove_append_singleton (l : List α) (last : α) (i : ℕ) :
    swapRemove (l++[last]) i=((l++[last]).set i last).dropLast := by
  simp [swapRemove]

theorem swapRemove_perm (h : l[i]? = some x) : l.Perm (x::swapRemove l i) := by
  obtain rfl | ⟨l,last,rfl⟩ := l.eq_nil_or_concat
  · simp at h
  rw [concat_eq_append] at h ⊢
  rw [swapRemove_append_singleton]
  rcases Nat.lt_trichotomy i l.length with hlt|heq|_
  · rw [getElem?_append_left hlt] at h
    obtain ⟨a,b,rfl,rfl⟩ : ∃ a b,l=a++x::b ∧ i=a.length := by
      obtain ⟨_,rfl⟩ := List.getElem?_eq_some_iff.1 h
      exact ⟨l.take i,l.drop (i+1),by simp,by simp; omega⟩
    have hset : ((a++x::b)++[last]).set a.length last=(a++last::b)++[last] := by
      simp
    rw [hset,dropLast_concat,append_assoc]
    refine perm_middle.trans (List.Perm.cons x ?_)
    exact (perm_append_singleton last b).append_left a
  · subst heq
    obtain rfl : last=x := by simpa using h
    simp
  · rw [getElem?_eq_none (by simp; omega)] at h
    cases h

theorem getElem?_of_swapRemove {j : ℕ} (h : (swapRemove l i)[j]? = some x) (hj : j≠i) :
    l[j]? = some x := by
  obtain rfl | ⟨l,_,rfl⟩ := l.eq_nil_or_concat
  · simp [swapRemove] at h
  rw [concat_eq_append] at h ⊢
  rw [swapRemove_append_singleton,getElem?_dropLast] at h
  split at h
  · rwa [getElem?_set_ne (Ne.symm hj)] at h
  · cases h

end SwapRemove

/-! What a line says -/

inductive Advert
  | ignored
  | peeled (path : Bytes) (object : ObjectId)
  | plain (path : Bytes) (object : ObjectId)
deriving DecidableEq

/-- `none` for a line that is refused whatever stands before it. -/
def advert (trimEnd : Bytes → Bytes) (line : Bytes) : Option Advert :=
  match cut 32 (trimEnd line) with
  | none => none
  | some (hexHash,path) =>
    if path = [] then none
    else
      match stripPeeled path with
      | some stripped =>
        if hexHash.all (· = 48) ∧ stripped = capabilitiesPath then some .ignored
        else (idFromHex hexHash).toOption.map (.peeled stripped)
      | none => (idFromHex hexHash).toOption.map (.plain path)

abbrev Pending := Bytes × Option Bytes

def Pending.lookup (symref : Pending) : InternalRef := .symbolicForLookup symref.1 symref.2

/-- What one line does to the symrefs that wait and to the references so far. -/
inductive Step : List Pending → List InternalRef → Advert → List Pending → List InternalRef → Prop
  | symbolic {pending results path target object} (h : (path,target) ∈ pending) :
    Step pending results (.plain path object) (pending.erase (path,target))
      (results++[.symbolic path target none object])
  | direct {pending results path object} (h : ∀ target,(path,target) ∉ pending) :
    Step pending results (.plain path object) pending (results++[.direct path object])
  | peeled {pending results path tag object} :
    Step pending (results++[.direct path tag]) (.peeled path object) pending
      (results++[.peeled path tag object])
  | ignored {pending results} : Step pending results .ignored pending results

inductive Runs : List Pending → List InternalRef → List Advert → List Pending → List InternalRef →
    Prop
  | nil {pending results} : Runs pending results [] pending results
  | cons {pending results a pending₁ results₁ as pending₂ results₂}
    (step : Step pending results a pending₁ results₁)
    (runs : Runs pending₁ results₁ as pending₂ results₂) :
    Runs pending results (a :: as) pending₂ results₂

/-- The line is one the machine takes no step for. -/
def Refused (results : List InternalRef) : Advert → Prop
  | .peeled path _ => ∀ tag,results.getLast? ≠ some (.direct path tag)
  | _ => False

/-! The vector of the code -/

/-- The vector has the symrefs that wait and the references; the former are all among the first `n`,
and its end is the end of the latter. -/
structure Tracks (n : ℕ) (outRefs : List InternalRef) (pending : List Pending)
    (results : List InternalRef) : Prop where
  perm : outRefs.Perm (pending.map Pending.lookup++results)
  found : ∀ r ∈ results,∀ symref : Pending,r ≠ symref.lookup
  front : ∀ {i} {symref : Pending},outRefs[i]? = some symref.lookup → i < n
  last : results ≠ [] → outRefs.getLast? = results.getLast?

namespace Tracks
variable {n : ℕ} {outRefs results : List InternalRef} {pending : List Pending}

theorem initial (symrefs : List Pending) :
    Tracks (symrefs.map Pending.lookup).length (symrefs.map Pending.lookup) symrefs [] where
  perm := by simp
  found := by simp
  front h := (List.getElem?_eq_some_iff.1 h).1
  last h := absurd rfl h

variable (h : Tracks n outRefs pending results)
include h

theorem mem_pending {symref : Pending}
    (hmem : symref.lookup∈outRefs) : symref∈pending := by
  rcases mem_append.1 (h.perm.mem_iff.1 hmem) with hmem|hmem
  · obtain ⟨_,_,heq⟩ := mem_map.1 hmem
    simp only [Pending.lookup,symbolicForLookup.injEq] at heq
    rwa [← Prod.ext heq.1 heq.2]
  · exact absurd rfl (h.found _ hmem symref)

theorem mem_outRefs {symref : Pending}
    (hmem : symref∈pending) : symref.lookup∈outRefs :=
  h.perm.mem_iff.2 (mem_append_left _ (mem_map_of_mem hmem))

/-- A direct reference at the end of the vector is the last result. -/
theorem last_direct {path : Bytes} {tag : ObjectId} :
    outRefs.getLast? = some (.direct path tag) ↔ results.getLast? = some (.direct path tag) := by
  by_cases hres : results=[]
  · subst hres
    simp only [getLast?_nil,reduceCtorEq,iff_false]
    intro hlast
    have hmem := h.perm.mem_iff.1 (mem_of_getLast? hlast)
    simp [Pending.lookup] at hmem
  · rw [h.last hres]

omit h in
theorem push {r : InternalRef} (hr : ∀ symref : Pending,r≠symref.lookup)
    (perm : outRefs.Perm (pending.map Pending.lookup++results))
    (found : ∀ r∈results,∀ symref : Pending,r≠symref.lookup)
    (front : ∀ {i} {symref : Pending},outRefs[i]? = some symref.lookup → i < n) :
    Tracks n (outRefs++[r]) pending (results++[r]) where
  perm := by
    rw [← append_assoc]
    exact perm.append_right _
  found := forall_mem_append.2 ⟨found,by simpa using hr⟩
  front {i symref} hi := by
    rw [getElem?_append] at hi
    split at hi
    · exact front hi
    · exact absurd (mem_singleton.1 (mem_of_getElem? hi)).symm (hr symref)
  last _ := by simp

theorem not_pending {path : Bytes}
    (hnone : (outRefs.take n).findIdx? (lookupSymbolHasPath path)=none)
    (target : Option Bytes) : (path,target)∉pending := by
  intro hmem
  obtain ⟨i,hi⟩ := getElem?_of_mem (h.mem_outRefs hmem)
  have htake : (outRefs.take n)[i]? = some (Pending.lookup (path,target)) := by
    rw [getElem?_take_of_lt (h.front hi),hi]
  have := findIdx?_eq_none_iff.1 hnone _ (mem_of_getElem? htake)
  simp [lookupSymbolHasPath,Pending.lookup] at this

end Tracks

/-! The code takes the steps of the machine -/

section Refines
variable {trimEnd : Bytes → Bytes} {n : ℕ} {outRefs results : List InternalRef}
  {pending : List Pending} {line : Bytes} {a : Advert}

variable (h : Tracks n outRefs pending results)
variable {path hexHash : Bytes}

include h

theorem parsePlain_step
    {object : ObjectId} (hid : idFromHex hexHash = .ok object) :
    ∃ outRefs' pending' results',parsePlain n outRefs path hexHash=some (.ok outRefs') ∧
      Step pending results (.plain path object) pending' results' ∧
      Tracks n outRefs' pending' results' := by
  simp only [parsePlain,hid]
  cases hfind : (outRefs.take n).findIdx? (lookupSymbolHasPath path) with
  | none => exact ⟨_,_,_,rfl,.direct (h.not_pending hfind),.push (by simp [Pending.lookup]) h.perm h.found h.front⟩
  | some i =>
    obtain ⟨hi,hpath,-⟩ := findIdx?_eq_some_iff_getElem.1 hfind
    simp only [length_take,lt_inf_iff] at hi
    rw [getElem_take] at hpath
    have hget := getElem?_eq_getElem hi.2
    generalize outRefs[i]=r at hpath hget
    cases r with
    | symbolicForLookup path' target =>
      obtain rfl : path'=path := by simpa [lookupSymbolHasPath] using hpath
      simp only [hget]
      have hmem : (path',target)∈pending := h.mem_pending (mem_of_getElem? hget)
      have hpending := (perm_cons_erase hmem).map Pending.lookup
      have hboth := (swapRemove_perm hget).symm.trans (h.perm.trans (hpending.append_right results))
      refine ⟨_,_,_,rfl,.symbolic hmem,
        .push (by simp [Pending.lookup]) (List.Perm.cons_inv hboth) h.found fun {j symref} hj => ?_⟩
      by_cases hji : j=i
      · exact hji ▸ hi.1
      · exact h.front (getElem?_of_swapRemove hj hji)
    | _ => simp [lookupSymbolHasPath] at hpath

theorem parsePeeled_step
    {object : ObjectId} (hid : idFromHex hexHash = .ok object) :
    (Refused results (.peeled path object) ∧ ∃ e,parsePeeled outRefs path hexHash = .error e) ∨
    ∃ outRefs' pending' results',parsePeeled outRefs path hexHash = .ok outRefs' ∧
      Step pending results (.peeled path object) pending' results' ∧
      Tracks n outRefs' pending' results' := by
  by_cases hlast : ∃ tag,results.getLast? = some (.direct path tag)
  · obtain ⟨tag,hlast⟩ := hlast
    have hout := h.last_direct.2 hlast
    obtain ⟨front,rfl⟩ := getLast?_eq_some_iff.1 hlast
    obtain ⟨kept,rfl⟩ := getLast?_eq_some_iff.1 hout
    have hperm := h.perm
    rw [← append_assoc,perm_append_right_iff] at hperm
    refine .inr ⟨kept++[.peeled path tag object],_,_,?_,.peeled,
      .push (by simp [Pending.lookup]) hperm (forall_mem_append.1 h.found).1 fun {i symref} hi => ?_⟩
    · simp [parsePeeled,unpackDirect,hid,Except.map]
    · rw [← getElem?_append_left (List.getElem?_eq_some_iff.1 hi).1] at hi
      exact h.front hi
  · refine .inl ⟨fun tag htag => hlast ⟨tag,htag⟩,?_⟩
    unfold parsePeeled
    split
    · exact ⟨_,rfl⟩
    · rename_i previousPath tag hprevious
      obtain ⟨r,hr,hdirect⟩ := Option.bind_eq_some_iff.1 hprevious
      cases r with
      | direct path' object' =>
        obtain ⟨rfl,rfl⟩ : path'=previousPath ∧ object'=tag := by
          simpa [unpackDirect] using hdirect
        have hne : path'≠path := by
          rintro rfl
          exact hlast ⟨object',h.last_direct.1 hr⟩
        exact ⟨_,if_pos hne⟩
      | _ => simp [unpackDirect] at hdirect

omit h in
theorem parsePeeled_error {e : Error} (hid : idFromHex hexHash = .error e) :
    ∃ e,parsePeeled outRefs path hexHash = .error e := by
  unfold parsePeeled
  split
  · exact ⟨_,rfl⟩
  · split
    · exact ⟨_,rfl⟩
    · exact ⟨e,by rw [hid]; rfl⟩

omit h in
theorem parseV1_cases (trimEnd : Bytes → Bytes) (n : ℕ) (outRefs : List InternalRef)
    (line : Bytes) :
    (advert trimEnd line=none ∧ ∃ e,parseV1 trimEnd n outRefs line=some (.error e)) ∨
    (advert trimEnd line=some .ignored ∧ parseV1 trimEnd n outRefs line=some (.ok outRefs)) ∨
    (∃ path hexHash,advert trimEnd line=(idFromHex hexHash).toOption.map (.peeled path) ∧
      parseV1 trimEnd n outRefs line=some (parsePeeled outRefs path hexHash)) ∨
    (∃ path hexHash,advert trimEnd line=(idFromHex hexHash).toOption.map (.plain path) ∧
      parseV1 trimEnd n outRefs line=parsePlain n outRefs path hexHash) := by
  cases hcut : cut 32 (trimEnd line) with
  | none => exact .inl (by simp [advert,parseV1,hcut])
  | some split =>
    obtain ⟨hexHash,path⟩ := split
    by_cases hpath : path=[]
    · exact .inl (by simp [advert,parseV1,hcut,hpath])
    simp only [advert,parseV1,hcut,if_neg hpath]
    cases hstrip : stripPeeled path with
    | none => exact .inr (.inr (.inr ⟨path,hexHash,rfl,rfl⟩))
    | some stripped =>
      by_cases hdummy : hexHash.all (· = 48) ∧ stripped=capabilitiesPath
      · simp only [if_pos hdummy]
        exact .inr (.inl ⟨trivial,trivial⟩)
      · simp only [if_neg hdummy]
        exact .inr (.inr (.inl ⟨stripped,hexHash,rfl,rfl⟩))

omit h in
theorem parseV1_of_none (h : advert trimEnd line=none) :
    ∃ e,parseV1 trimEnd n outRefs line=some (.error e) := by
  obtain ⟨-,herr⟩|⟨ha,-⟩|⟨path,hexHash,ha,hparse⟩|⟨path,hexHash,ha,hparse⟩ :=
    parseV1_cases trimEnd n outRefs line
  · exact herr
  · simp [ha] at h
  · cases hid : idFromHex hexHash with
    | ok object => simp [ha,hid,Except.toOption] at h
    | error e =>
      obtain ⟨e,he⟩ := @parsePeeled_error outRefs path _ _ hid
      exact ⟨e,by rw [hparse,he]⟩
  · cases hid : idFromHex hexHash with
    | ok object => simp [ha,hid,Except.toOption] at h
    | error e => exact ⟨e,by simp [hparse,parsePlain,hid]⟩

theorem parseV1_step (ha : advert trimEnd line=some a) :
    (Refused results a ∧ ∃ e,parseV1 trimEnd n outRefs line=some (.error e)) ∨
    ∃ outRefs' pending' results',parseV1 trimEnd n outRefs line=some (.ok outRefs') ∧
      Step pending results a pending' results' ∧ Tracks n outRefs' pending' results' := by
  obtain ⟨hnone,-⟩|⟨hsome,hparse⟩|⟨path,hexHash,hsome,hparse⟩|⟨path,hexHash,hsome,hparse⟩ :=
    parseV1_cases trimEnd n outRefs line
  · simp [hnone] at ha
  · obtain rfl : .ignored=a := by simpa [hsome] using ha
    exact .inr ⟨_,_,_,hparse,.ignored,h⟩
  · rw [hsome] at ha
    cases hid : idFromHex hexHash with
    | error e => simp [hid,Except.toOption] at ha
    | ok object =>
      obtain rfl : .peeled path object=a := by simpa [hid,Except.toOption] using ha
      obtain ⟨hrefused,e,he⟩|⟨outRefs',pending',results',hok,hstep,htracks⟩ :=
        @parsePeeled_step _ _ _ _ h path _ _ hid
      · exact .inl ⟨hrefused,e,by rw [hparse,he]⟩
      · exact .inr ⟨outRefs',pending',results',by rw [hparse,hok],hstep,htracks⟩
  · rw [hsome] at ha
    cases hid : idFromHex hexHash with
    | error e => simp [hid,Except.toOption] at ha
    | ok object =>
      obtain rfl : .plain path object=a := by simpa [hid,Except.toOption] using ha
      rw [hparse]
      exact .inr (parsePlain_step h hid)

/-- A run that ends before a line the machine refuses. -/
def Stops (pending : List Pending) (results : List InternalRef) (as : List Advert) : Prop :=
  ∃ front a back pending' results',as = front++a :: back ∧
    Runs pending results front pending' results' ∧ Refused results' a

omit h in
theorem Stops.cons {pending₁ : List Pending} {results₁ : List InternalRef} {as : List Advert}
    (step : Step pending results a pending₁ results₁) (h : Stops pending₁ results₁ as) :
    Stops pending results (a::as) := by
  obtain ⟨front,b,back,pending',results',rfl,hruns,hrefused⟩ := h
  exact ⟨a::front,b,back,pending',results',rfl,.cons step hruns,hrefused⟩

/-- If all lines say something, the code runs as the machine does, or both stop. -/
theorem parseLines_run {lines : List Bytes} {as : List Advert}
    (has : lines.mapM (advert trimEnd)=some as) :
    (Stops pending results as ∧ ∃ e,parseLines trimEnd n lines outRefs=some (.error e)) ∨
    ∃ outRefs' pending' results',parseLines trimEnd n lines outRefs=some (.ok outRefs') ∧
      Runs pending results as pending' results' ∧ Tracks n outRefs' pending' results' := by
  induction lines generalizing outRefs pending results as with
  | nil =>
    obtain rfl : as=[] := by simpa using has.symm
    exact .inr ⟨outRefs,pending,results,rfl,.nil,h⟩
  | cons line lines ih =>
    rw [mapM_cons] at has
    obtain ⟨a,ha,htail⟩ := Option.bind_eq_some_iff.1 has
    obtain ⟨as,has',heq⟩ := Option.bind_eq_some_iff.1 htail
    cases heq
    obtain ⟨hrefused,e,he⟩|⟨_,_,_,hok,hstep,htracks⟩ := parseV1_step h ha
    · exact .inl ⟨⟨[],a,as,pending,results,rfl,.nil,hrefused⟩,e,by simp [parseLines,he]⟩
    · simp only [parseLines,hok]
      obtain ⟨hstops,herr⟩|⟨outRefs',pending',results',hok,hruns,htracks⟩ := ih htracks has'
      · exact .inl ⟨hstops.cons hstep,herr⟩
      · exact .inr ⟨outRefs',pending',results',hok,.cons hstep hruns,htracks⟩

theorem parseLines_of_none {lines : List Bytes}
    (has : lines.mapM (advert trimEnd)=none) :
    ∃ e,parseLines trimEnd n lines outRefs=some (.error e) := by
  induction lines generalizing outRefs pending results with
  | nil => simp at has
  | cons line lines ih =>
    cases ha : advert trimEnd line with
    | none =>
      obtain ⟨e,he⟩ := @parseV1_of_none trimEnd n outRefs line ha
      exact ⟨e,by simp [parseLines,he]⟩
    | some a =>
      obtain ⟨-,e,he⟩|⟨_,_,_,hok,-,htracks⟩ := parseV1_step h ha
      · exact ⟨e,by simp [parseLines,he]⟩
      · have has' : lines.mapM (advert trimEnd)=none := by
          cases hrest : lines.mapM (advert trimEnd) with
          | none => rfl
          | some as => simp [ha,hrest] at has
        simp only [parseLines,hok]
        exact ih htracks has'

end Refines

end Gix.Handshake
