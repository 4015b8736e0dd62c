import Gix.ReferenceName

/-! # Names of references that are made valid

What a name may not have in it, and what is mended of each byte. -/
namespace Gix.ReferenceName
open List Option
open Pack (Bytes)

/-- `reference::name_partial_or_sanitize()`, `none` for a panic. -/
def namePartialOrSanitize (path : Bytes) : Option Bytes :=
  match nameInner path .sanitize with
  | some (.ok (some out)) => some out
  | _ => none

/-! What a name may not have in it -/

def lockText : Bytes := [46,108,111,99,107]

variable {l done out : Bytes} {componentEnd : ℕ} {previous b : UInt8}

theorem endsWithLock_iff : endsWithLock l=true ↔ lockText <:+ l :=
  isSuffixOf_iff_suffix

theorem not_lock_of_suffix {l' : Bytes} (h : l <:+ l') (hl' : endsWithLock l'=false) : endsWithLock l=false :=
  Bool.eq_false_iff.mpr fun hl => Bool.eq_false_iff.mp hl' (endsWithLock_iff.mpr ((endsWithLock_iff.mp hl).trans h))

def Plain (b : UInt8) : Prop := invalid b = false ∧ b ≠ 42

/-- Two bytes may follow each other. -/
def Apart (a b : UInt8) : Prop :=
  ¬(b = 46 ∧ a = 46) ∧ ¬(b = 46 ∧ a = 47) ∧ ¬(b = 123 ∧ a = 64) ∧ ¬(b = 47 ∧ a = 47)

structure Valid (l : Bytes) : Prop where
  nonempty : l ≠ []
  head : l.head? ≠ some 47 ∧ l.head? ≠ some 46
  last : l.getLast? ≠ some 47 ∧ l.getLast? ≠ some 46
  plain : ∀ b ∈ l, Plain b
  chain : l.IsChain Apart
  components : ∀ a c, l = a++47 :: c → endsWithLock a = false
  lock : endsWithLock l = false

theorem apart_dash (a : UInt8) : Apart a 45 := by
  unfold Apart
  simp

theorem apart_last {front rest : Bytes} (h : (front++b::rest).IsChain Apart) :
    Apart (front.getLast?.getD 0) b := by
  cases hlast : front.getLast? with
  | none =>
    unfold Apart
    simp
  | some a =>
    obtain ⟨_,rfl⟩ := getLast?_eq_some_iff.mp hlast
    rw [append_assoc] at h
    exact (isChain_append.mp h).2.1.rel

theorem nameInnerLoop_of_valid {input rest : Bytes} (h : Valid input) (hinput : input=done++rest) (componentEnd : ℕ) :
    nameInnerLoop input rest done.length (done.getLast?.getD 0) componentEnd none = .ok none := by
  induction rest generalizing done componentEnd with
  | nil => rfl
  | cons b rest ih =>
    obtain ⟨hinvalid,hstar⟩ := h.plain b (by simp [hinput])
    obtain ⟨h1,h2,h3,h4⟩ := apart_last (hinput ▸ h.chain)
    have hdone : input.take done.length=done := by rw [hinput]; exact take_left
    have hcomponent : ¬(b=47 ∧
        endsWithLock ((input.take done.length).drop componentEnd)=true) := by
      rintro ⟨rfl,hlock⟩
      rw [hdone,not_lock_of_suffix (drop_suffix _ _) (h.components done rest hinput)] at hlock
      cases hlock
    have hend : ∀ k,¬(done.length+1=input.length ∧ endsWithLock (input.drop k)=true) := by
      rintro k ⟨-,hlock⟩
      rw [not_lock_of_suffix (drop_suffix _ _) h.lock] at hlock
      cases hlock
    have hnext := @ih (done++[b]) (by simp [hinput]) (if b=47 then done.length else componentEnd)
    rw [nameInnerLoop,visitByte,if_neg (by simp [hinvalid]),if_neg hstar,if_neg h1,if_neg h2,if_neg h3,if_neg h4,
      keepByte,closeComponent,if_neg hcomponent]
    simpa [Except.bind,closeName,hend,Except.map,bind] using hnext

theorem namePartial_of_valid (h : Valid l) : namePartial l = .ok () := by
  have hloop := nameInnerLoop_of_valid h (nil_append l).symm 0
  simp only [length_nil,getLast?_nil,getD_none] at hloop
  simp [namePartial,tagName,nameInner,h.nonempty,h.last,h.head,hloop,Except.map]

/-! Texts that end with `.lock` -/

def lockRuns (n : ℕ) : Bytes := (List.replicate n lockText).flatten

theorem lockRuns_succ (n : ℕ) : lockRuns (n+1)=lockText++lockRuns n := by
  simp [lockRuns,replicate_succ]

theorem lockRuns_succ' (n : ℕ) : lockRuns (n+1)=lockRuns n++lockText := by
  simp [lockRuns,replicate_succ']

/-- What is truncated is a run of locks, and none is left. -/
theorem truncateLocks_spec (out : Bytes) :
    (∃ n,out=truncateLocks out++lockRuns n) ∧ endsWithLock (truncateLocks out)=false := by
  unfold truncateLocks
  have hout : out=out.reverse.reverse := (reverse_reverse out).symm
  generalize out.reverse=r at hout ⊢
  subst hout
  fun_induction dropLocks r with
  | case1 r ih =>
    obtain ⟨⟨n,hn⟩,hlock⟩ := ih
    refine ⟨⟨n+1,?_⟩,hlock⟩
    rw [lockRuns_succ',← append_assoc,← hn]
    simp [lockText]
  | case2 r hr =>
    refine ⟨⟨0,by simp [lockRuns]⟩,?_⟩
    rw [Bool.eq_false_iff]
    intro hlock
    obtain ⟨front,hfront⟩ := endsWithLock_iff.mp hlock
    refine hr front.reverse ?_
    rw [← reverse_reverse r,← hfront]
    simp [lockText]

theorem truncateLocks_of_not_lock (h : endsWithLock out=false) :
    truncateLocks out=out := by
  obtain ⟨⟨n,hn⟩,-⟩ := truncateLocks_spec out
  cases n with
  | zero => simpa [lockRuns] using hn.symm
  | succ n =>
    have hlock : endsWithLock out=true := by
      rw [endsWithLock_iff,hn,lockRuns_succ',← append_assoc]
      exact suffix_append _ _
    simp [hlock] at h

theorem truncateLocks_lockRuns (n : ℕ) : truncateLocks (lockRuns n)=[] := by
  induction n with
  | zero => rfl
  | succ n ih =>
    rw [lockRuns_succ',truncateLocks,reverse_append]
    exact ih

theorem not_lock_of_last (h : out.getLast? = some b) (hb : b≠107) :
    endsWithLock out=false := by
  rw [Bool.eq_false_iff]
  intro hlock
  obtain ⟨_,rfl⟩ := endsWithLock_iff.mp hlock
  simp [lockText] at h
  exact hb h.symm

theorem mem_lockText (h : b∈lockText) : Plain b ∧ b≠47 ∧ b≠45 ∧ b≠123 := by
  simp only [lockText,mem_cons,not_mem_nil,or_false] at h
  rcases h with rfl | rfl | rfl | rfl | rfl <;> exact ⟨⟨by decide,by decide⟩,by decide⟩

theorem mem_lockRuns {n : ℕ} (h : b∈lockRuns n) : b∈lockText := by
  obtain ⟨_,hl,hb⟩ := mem_flatten.mp h
  rwa [eq_of_mem_replicate hl] at hb

/-! One byte of a name that is made valid -/

/-- What a byte does to the output: a dash for it, nothing, itself, or a slash behind a component
without `.lock`. -/
inductive Visited (done : Bytes) (b previous : UInt8) (componentEnd : ℕ) (out : Bytes) :
    Bytes → ℕ → Prop
  | dash (h : b ≠ 47) (hb : ¬Plain b ∨ b = 46 ∧ previous = 47 ∨ b = 123 ∧ previous = 64) :
      Visited done b previous componentEnd out (out++[45]) componentEnd
  | drop (h : b = previous) (hb : b = 46 ∨ b = 47) :
      Visited done b previous componentEnd out out componentEnd
  | keep (h : b ≠ 47) (hb : Plain b) (hprevious : Apart previous b) :
      Visited done b previous componentEnd out (out++[b]) componentEnd
  | slash (h : b = 47) (hprevious : previous ≠ 47) :
      Visited done b previous componentEnd out
        ((if endsWithLock (done.drop componentEnd) then truncateLocks out else out)++[47]) done.length

/-- The end of the name is looked at behind the last byte only. -/
def closed (input out : Bytes) (componentEnd : ℕ) : Bytes :=
  if endsWithLock (input.drop (componentEnd+1)) then truncateLocks out else out

theorem closed_of_not_lock {input out : Bytes} (h : endsWithLock out=false) (componentEnd : ℕ) :
    closed input out componentEnd=out := by
  rw [closed]
  split
  · exact truncateLocks_of_not_lock h
  · rfl

theorem endsWithLock_dash (out : Bytes) : endsWithLock (out++[45])=false :=
  @not_lock_of_last _ 45 (by simp) (by decide)

theorem closeName_some (done rest out : Bytes) (b : UInt8) (componentEnd : ℕ) :
    closeName (done++b::rest) done.length componentEnd (some out) =
      .ok (some (if rest=[] then closed (done++[b]) out componentEnd else out)) := by
  cases rest with
  | nil =>
    rw [closeName,closed,if_pos rfl]
    split
    · rename_i h
      rw [if_pos h.2]
      rfl
    · rename_i h
      rw [if_neg fun hlock => h ⟨by simp,hlock⟩]
  | cons c rest =>
    rw [closeName,if_neg (by simp),if_neg (cons_ne_nil _ _)]

theorem visitByte_some {rest out : Bytes} {b : UInt8}
    (hlast : (b=46 ∨ b=47) → b=previous → endsWithLock out=false) :
    ∃ out' componentEnd',Visited done b previous componentEnd out out' componentEnd' ∧
      visitByte (done++b::rest) b done.length previous componentEnd (some out) =
        .ok (some (if rest=[] then closed (done++[b]) out' componentEnd' else out'),
          componentEnd') := by
  have hdash := @closed_of_not_lock (done++[b]) _ (endsWithLock_dash out) componentEnd
  unfold visitByte
  split
  · rename_i hinvalid
    have hne : b≠47 := by rintro rfl; simp [invalid] at hinvalid
    refine ⟨_,_,.dash hne (.inl fun h => by simp [h.1] at hinvalid),?_⟩
    rw [hdash,ite_self]
    rfl
  rename_i hinvalid
  split
  · rename_i hstar
    refine ⟨_,_,.dash (by rw [hstar]; decide) (.inl fun h => h.2 hstar),?_⟩
    rw [hdash,ite_self]
    rfl
  rename_i hstar
  split
  · rename_i hdots
    have hsame : b=previous := hdots.1.trans hdots.2.symm
    refine ⟨_,_,.drop hsame (.inl hdots.1),?_⟩
    rw [closed_of_not_lock (hlast (.inl hdots.1) hsame),ite_self]
    rfl
  rename_i hdots
  split
  · rename_i hdot
    refine ⟨_,_,.dash (by rw [hdot.1]; decide) (.inr (.inl hdot)),?_⟩
    rw [hdash,ite_self]
    rfl
  rename_i hdot
  split
  · rename_i hbrace
    refine ⟨_,_,.dash (by rw [hbrace.1]; decide) (.inr (.inr hbrace)),?_⟩
    rw [hdash,ite_self]
    rfl
  rename_i hbrace
  split
  · rename_i hslashes
    have hsame : b=previous := hslashes.1.trans hslashes.2.symm
    refine ⟨_,_,.drop hsame (.inr hslashes.1),?_⟩
    rw [closed_of_not_lock (hlast (.inr hslashes.1) hsame),ite_self]
    rfl
  rename_i hslashes
  have hplain : Plain b := ⟨by simpa using hinvalid,hstar⟩
  have htake : (done++b::rest).take done.length=done := take_left
  unfold keepByte closeComponent
  rw [htake]
  by_cases hb : b=47
  · refine ⟨_,_,.slash hb fun hp => hslashes ⟨hb,hp⟩,?_⟩
    subst hb
    by_cases hlock : endsWithLock (done.drop componentEnd)=true
    · simp [hlock,and_self,mend,Except.bind,closeName_some,Except.map]
    · simp [hlock,Except.bind,closeName_some,Except.map]
  · refine ⟨_,_,.keep hb hplain ⟨hdots,hdot,hbrace,hslashes⟩,?_⟩
    simp [hb,Except.bind,closeName_some,Except.map]

/-! Runs -/

/-- What holds of the output for the part of the name that is read. -/
structure Clean (done : Bytes) (previous : UInt8) (out : Bytes) : Prop where
  plain : ∀ b ∈ out, Plain b
  chain : out.IsChain Apart
  last : out = [] ∧ previous = 0 ∨ out.getLast? = some previous ∨
    out.getLast? = some 45 ∧ previous ≠ 47
  components : ∀ a c, out = a++47 :: c → endsWithLock a = false
  locks : ∀ p, p ≠ [] → p <+: lockText → p <:+ out → p <:+ done

theorem Clean.not_lock (h : Clean done previous out) (hb : previous=46 ∨ previous=47) :
    endsWithLock out=false := by
  rcases h.last with ⟨rfl,-⟩ | hlast | ⟨hlast,-⟩
  · rfl
  · refine not_lock_of_last hlast ?_
    rcases hb with rfl | rfl <;> decide
  · exact not_lock_of_last hlast (by decide)

/-- The output may go on with a byte that may follow the one before it. -/
theorem Clean.apart (h : Clean done previous out) (hb : Apart previous b) :
    ∀ a∈out.getLast?,Apart a b := by
  intro a ha
  rcases h.last with ⟨rfl,-⟩ | hlast | ⟨hlast,-⟩
  · simp at ha
  · obtain rfl : previous=a := some.inj (hlast.symm.trans ha)
    exact hb
  · obtain rfl : 45=a := some.inj (hlast.symm.trans ha)
    unfold Apart
    simp

theorem isChain_concat (h : out.IsChain Apart)
    (hb : ∀ a∈out.getLast?,Apart a b) : (out++[b]).IsChain Apart := by
  refine isChain_append.mpr ⟨h,.singleton b,?_⟩
  intro a ha c hc
  obtain rfl : b=c := by simpa using hc
  exact hb a ha

theorem components_concat (hb : b≠47)
    (h : ∀ a c,out=a++47::c → endsWithLock a=false) :
    ∀ a c,out++[b]=a++47::c → endsWithLock a=false := by
  intro a c hsplit
  rcases eq_nil_or_concat c with rfl | ⟨c,_,rfl⟩
  · obtain ⟨-,hd⟩ := append_inj' hsplit rfl
    simp only [cons.injEq,and_true] at hd
    exact absurd hd hb
  · rw [concat_eq_append,← cons_append,← append_assoc] at hsplit
    exact h a c (append_inj' hsplit rfl).1

theorem suffix_concat_iff {p : Bytes} (hp : p≠[]) : p <:+ l++[b] ↔ ∃ q,p=q++[b] ∧ q <:+ l := by
  constructor
  · intro h
    obtain ⟨q,_,rfl⟩ := (eq_nil_or_concat p).resolve_left hp
    rw [concat_eq_append] at h ⊢
    obtain ⟨t,ht⟩ := h
    rw [← append_assoc] at ht
    obtain ⟨hq,hc⟩ := append_inj' ht rfl
    exact ⟨q,by rw [hc],t,hq⟩
  · rintro ⟨q,rfl,t,rfl⟩
    exact ⟨t,by simp⟩

theorem not_piece_of_last {p : Bytes} (hp : p≠[]) (hpiece : p <+: lockText) (hb : b∉lockText) :
    ¬p <:+ l++[b] := by
  intro h
  obtain ⟨_,rfl,-⟩ := (suffix_concat_iff hp).mp h
  exact hb (hpiece.subset (by simp))

/-- The only piece of `.lock` that ends with a dot is the dot. -/
theorem piece_dot {q : Bytes} (h : q++[46] <+: lockText) : q=[] := by
  have hlen : q.length+1 ≤ 5 := by simpa [lockText] using h.length_le
  have htake := prefix_iff_eq_take.mp h
  match q,hlen with
  | [],_ => rfl
  | [_],_ | [_,_],_ | [_,_,_],_ | [_,_,_,_],_ => simp [lockText] at htake

theorem Clean.lock (h : Clean done previous out) (hlock : endsWithLock out=true) :
    endsWithLock done=true :=
  endsWithLock_iff.mpr (h.locks lockText (by decide) (prefix_refl _) (endsWithLock_iff.mp hlock))

theorem Clean.component (h : Clean done previous out)
    (hcomponent : endsWithLock done=true → endsWithLock (done.drop componentEnd)=true) :
    (∃ n,out=(if endsWithLock (done.drop componentEnd) then truncateLocks out else out)++
        lockRuns n) ∧
      endsWithLock (if endsWithLock (done.drop componentEnd) then truncateLocks out else out) =
        false := by
  split
  · exact truncateLocks_spec out
  · rename_i hnot
    refine ⟨⟨0,by simp [lockRuns]⟩,?_⟩
    rw [Bool.eq_false_iff]
    exact fun hlock => hnot (hcomponent (h.lock hlock))

theorem Clean.step {out out' : Bytes} {componentEnd' : ℕ} (h : Clean done previous out)
    (hcomponent : endsWithLock done=true →
      endsWithLock (done.drop componentEnd)=true) (hv : Visited done b previous componentEnd out out' componentEnd') :
    Clean (done++[b]) b out' := by
  cases hv with
  | dash hne hb =>
    refine ⟨forall_mem_append.mpr ⟨h.plain,by simp [Plain,invalid]⟩,isChain_concat h.chain fun a _ => apart_dash a,
      .inr (.inr ⟨by simp,hne⟩),components_concat (by decide) h.components,?_⟩
    · exact fun p hp hpiece hsuffix => absurd hsuffix (not_piece_of_last hp hpiece (by decide))
  | drop hsame hb =>
    subst hsame
    have hlast : out.getLast? = some b ∨ out.getLast? = some 45 ∧ b≠47 := by
      refine h.last.resolve_left ?_
      rintro ⟨-,rfl⟩
      simp at hb
    refine ⟨h.plain,h.chain,.inr hlast,h.components,?_⟩
    intro p hp hpiece hsuffix
    -- a piece at the end of the output can only be the dot that is repeated
    obtain ⟨front,c,rfl⟩ := (eq_nil_or_concat out).resolve_left (by rintro rfl; simp at hlast)
    rw [concat_eq_append] at hsuffix hlast
    simp only [getLast?_append,getLast?_singleton,some_or,some.injEq]
      at hlast
    by_cases hdot : b=46 ∧ c=b
    · obtain ⟨rfl,rfl⟩ := hdot
      obtain ⟨q,rfl,-⟩ := (suffix_concat_iff hp).mp hsuffix
      rw [piece_dot hpiece]
      exact suffix_append _ _
    · refine absurd hsuffix (not_piece_of_last hp hpiece ?_)
      rcases hlast with rfl | ⟨rfl,-⟩
      · obtain rfl : c=47 := hb.resolve_left fun h46 => hdot ⟨h46,rfl⟩
        decide
      · decide
  | keep hne hplain hapart =>
    refine ⟨forall_mem_append.mpr ⟨h.plain,by simpa using hplain⟩,isChain_concat h.chain (h.apart hapart),
      .inr (.inl (by simp)),components_concat hne h.components,?_⟩
    · intro p hp hpiece hsuffix
      obtain ⟨q,rfl,hq⟩ := (suffix_concat_iff hp).mp hsuffix
      refine (suffix_concat_iff hp).mpr ⟨q,rfl,?_⟩
      by_cases hnil : q=[]
      · exact hnil ▸ nil_suffix
      · exact h.locks q hnil ((prefix_append q [b]).trans hpiece) hq
  | slash hb hprevious =>
    subst hb
    obtain ⟨⟨n,hout⟩,hnot⟩ := h.component hcomponent
    generalize (if endsWithLock (done.drop componentEnd)=true then truncateLocks out else out) =
      front at hout hnot ⊢
    have hapart : ∀ a∈front.getLast?,Apart a 47 := by
      intro a ha
      have hne : a≠47 := by
        rintro rfl
        cases n with
        | zero =>
          obtain rfl : out=front := by simpa [lockRuns] using hout
          rcases h.last with ⟨rfl,-⟩ | hlast | ⟨hlast,-⟩
          · simp at ha
          · exact hprevious (some.inj (hlast.symm.trans ha))
          · simp [hlast] at ha
        | succ n =>
          have hchain := (isChain_append.mp (hout ▸ h.chain)).2.2 47 ha 46
            (by simp [lockRuns_succ,lockText])
          exact hchain.2.1 ⟨rfl,rfl⟩
      unfold Apart
      simp [hne]
    refine ⟨forall_mem_append.mpr ⟨(forall_mem_append.mp (hout ▸ h.plain)).1,by simp [Plain,invalid]⟩,
      isChain_concat (isChain_append.mp (hout ▸ h.chain)).1 hapart,.inr (.inl (by simp)),?_,?_⟩
    · intro a c hsplit
      rcases eq_nil_or_concat c with rfl | ⟨c,_,rfl⟩
      · obtain ⟨rfl,-⟩ := append_inj' hsplit rfl
        exact hnot
      · rw [concat_eq_append,← cons_append,← append_assoc] at hsplit
        obtain ⟨rfl,-⟩ := append_inj' hsplit rfl
        refine h.components a (c++lockRuns n) ?_
        rw [hout]
        simp
    · exact fun p hp hpiece hsuffix => absurd hsuffix (not_piece_of_last hp hpiece (by decide))

end Gix.ReferenceName
