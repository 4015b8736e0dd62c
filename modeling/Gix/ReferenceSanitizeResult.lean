import Gix.ReferenceSanitize

/-! # Made valid, or nothing left

The output for a name is valid. Only where all of it is truncated or trimmed away there is no first
byte to look at. -/
namespace Gix.ReferenceName
open List
open Pack (Bytes)

/-! Names nothing is left of -/

/-- What is left of the output so far if the name ended here: runs of `.lock` with a piece of one
behind them, a slash, or something that stays. -/
inductive Fate
  | locks (n k : ℕ)
  | slashes
  | lasting
deriving DecidableEq

variable {out : Bytes} {b previous : UInt8} {componentEnd : ℕ}

def Fate.step : Fate → UInt8 → Fate
  | .locks n k,b =>
    if b = 47 then (if k = 0 then .slashes else .lasting)
    else if b = 46 ∧ k = 1 then .locks n 1
    else if lockText[k]? = some b then (if k = 4 then .locks (n+1) 0 else .locks n (k+1))
    else .lasting
  | .slashes,b => if b = 47 then .slashes else .lasting
  | .lasting,_ => .lasting

def fateOf (done : Bytes) : Fate := done.foldl Fate.step (.locks 0 0)

theorem fateOf_concat (done : Bytes) (b : UInt8) : fateOf (done++[b])=(fateOf done).step b := by
  simp [fateOf]

def Fated (out : Bytes) : Fate → Prop
  | .locks n k => k < 5 ∧ out = lockRuns n++lockText.take k
  | .slashes => out = [47]
  | .lasting => out ≠ [] ∧ out ≠ [47] ∧ ∀ n, ¬out <+: lockRuns n

theorem lasting_of_mem (hb : b∈out) (hlock : b∉lockText)
    (hout : out≠[47]) : Fated out .lasting := by
  refine ⟨ne_nil_of_mem hb,hout,?_⟩
  exact fun n hn => hlock (mem_lockRuns (hn.subset hb))

theorem concat_ne {b c : UInt8} (h : b≠c) : out++[b]≠[c] := by
  intro heq
  obtain ⟨-,hb⟩ := append_inj' (heq.trans (nil_append [c]).symm) rfl
  exact h (by simpa using hb)

theorem lasting_append (h : Fated out .lasting) (l : Bytes) :
    Fated (out++l) .lasting := by
  obtain ⟨hne,hslash,hnot⟩ := h
  refine ⟨by simp [hne],?_,fun n hn => hnot n ((prefix_append out l).trans hn)⟩
  intro heq
  rcases append_eq_singleton_iff.mp heq with ⟨h,-⟩ | ⟨h,-⟩
  · exact hne h
  · exact hslash h

/-- A piece behind runs of `.lock` goes on as `.lock` does. -/
theorem lockText_next {n m k : ℕ} (hk : k < 5)
    (h : lockRuns n++lockText.take k++[b] <+: lockRuns m) : lockText[k]? = some b := by
  induction n generalizing m with
  | zero =>
    cases m with
    | zero => simp [lockRuns] at h
    | succ m =>
      obtain ⟨_,ht⟩ := h
      have hlen : (lockText.take k).length=k := by simp [lockText]; omega
      have hlock : (lockRuns (m+1))[k]? = lockText[k]? := by
        rw [lockRuns_succ,getElem?_append_left (by simpa [lockText] using hk)]
      rw [← hlock,← ht]
      simp [lockRuns,hlen]
  | succ n ih =>
    cases m with
    | zero => simp [lockRuns] at h
    | succ m =>
      rw [lockRuns_succ,lockRuns_succ,append_assoc,append_assoc,
        prefix_append_right_inj,← append_assoc] at h
      exact ih h

/-- Where the component that is read starts. -/
def Component (done : Bytes) (componentEnd : ℕ) : Prop :=
  componentEnd = 0 ∨ done[componentEnd]? = some 47

variable {l done out' : Bytes} {componentEnd' : ℕ}

theorem Component.lock (h : Component l componentEnd) (hlock : endsWithLock l=true) :
    endsWithLock (l.drop componentEnd)=true ∧
      (endsWithLock (l.drop (componentEnd+1))=true ∨ l=lockText) := by
  obtain ⟨front,rfl⟩ := endsWithLock_iff.mp hlock
  have hdrop : ∀ k ≤ front.length,endsWithLock ((front++lockText).drop k)=true := by
    intro k hk
    rw [drop_append_of_le_length hk]
    exact endsWithLock_iff.mpr (suffix_append _ _)
  rcases h with rfl | h
  · refine ⟨hlock,?_⟩
    cases front with
    | nil => exact .inr rfl
    | cons c front => exact .inl (hdrop 1 (by simp))
  · have hlt : componentEnd < front.length := by
      by_contra hge
      rw [getElem?_append_right (by omega)] at h
      exact absurd (mem_of_getElem? h) (by decide)
    exact ⟨hdrop _ hlt.le,.inl (hdrop _ hlt)⟩

theorem Component.step (h : Component done componentEnd)
    (hv : Visited done b previous componentEnd out out' componentEnd') : Component (done++[b]) componentEnd' := by
  have hsame : Component (done++[b]) componentEnd := by
    refine h.imp id fun h => ?_
    obtain ⟨hlt,-⟩ := List.getElem?_eq_some_iff.mp h
    rwa [getElem?_append_left hlt]
  cases hv with
  | dash | drop | keep => exact hsame
  | slash hb _ => exact .inr (by simp [hb])

theorem last_lockPiece {n k : ℕ} (hk : k < 5)
    (h : (lockRuns n++lockText.take k).getLast? = some b) :
    b∈lockText ∧ (b=46 ↔ k=1) := by
  have hmem : b∈lockText := by
    rcases mem_append.mp (mem_of_getLast? h) with hb | hb
    · exact mem_lockRuns hb
    · exact mem_of_mem_take hb
  refine ⟨hmem,?_⟩
  match k,hk with
  | 0,_ =>
    cases n with
    | zero => simp [lockRuns] at h
    | succ n =>
      rw [lockRuns_succ'] at h
      simp [lockText] at h
      subst h
      simp
  | 1,_ | 2,_ | 3,_ | 4,_ =>
    simp [lockText] at h
    subst h
    simp

theorem lockPiece_not_lock {n k : ℕ} (hk : k < 5) (h0 : k≠0) : endsWithLock (lockRuns n++lockText.take k)=false := by
  match k,hk with
  | 1,_ | 2,_ | 3,_ | 4,_ => exact not_lock_of_last (by simp [lockText]; rfl) (by decide)

theorem fated_step {fate : Fate} (h : Fated out fate)
    (hclean : Clean done previous out)
    (hcomponent : endsWithLock done=true → endsWithLock (done.drop componentEnd)=true)
    (hv : Visited done b previous componentEnd out out' componentEnd') : Fated out' (fate.step b) := by
  cases fate with
  | lasting =>
    cases hv with
    | dash | keep => exact lasting_append h _
    | drop => exact h
    | slash hb _ =>
      obtain ⟨⟨n,hout⟩,-⟩ := hclean.component hcomponent
      generalize (if endsWithLock (done.drop componentEnd)=true then truncateLocks out else out) =
        front at hout ⊢
      have hfront : front≠[] := by
        rintro rfl
        exact h.2.2 n (by rw [hout]; simp)
      refine @lasting_of_mem _ 47 (by simp) (by decide) ?_
      simpa using hfront
  | slashes =>
    obtain rfl : out=[47] := h
    have hprevious : previous=47 := by
      rcases hclean.last with ⟨h,-⟩ | h | ⟨h,-⟩
      · simp at h
      · simpa using h.symm
      · simp at h
    cases hv with
    | dash hne _ | keep hne _ _ =>
      rw [Fate.step,if_neg hne]
      exact @lasting_of_mem _ 47 (by simp) (by decide) (by simp)
    | drop hsame _ =>
      rw [Fate.step,if_pos (hsame.trans hprevious)]
      rfl
    | slash _ hnot => exact absurd hprevious hnot
  | locks n k =>
    obtain ⟨hk,hout⟩ := h
    have hlast : out=[] ∧ previous=0 ∨ previous∈lockText ∧ (previous=46 ↔ k=1) := by
      refine hclean.last.imp_right ?_
      rintro (hlast | ⟨hlast,-⟩)
      · exact last_lockPiece hk (hout ▸ hlast)
      · exact absurd (last_lockPiece hk (hout ▸ hlast)).1 (by decide)
    have hnoSlash : previous≠47 := by
      rintro rfl
      rcases hlast with ⟨-,h⟩ | ⟨h,-⟩
      · simp at h
      · exact absurd h (by decide)
    cases hv with
    | dash hne hb =>
      have hnot : b∉lockText := by
        intro hmem
        obtain ⟨hplain,-,-,hbrace⟩ := mem_lockText hmem
        rcases hb with hb | ⟨-,hb⟩ | ⟨hb,-⟩
        · exact hb hplain
        · exact hnoSlash hb
        · exact hbrace hb
      have hdot : ¬(b=46 ∧ k=1) := fun hb => hnot (by rw [hb.1]; decide)
      rw [Fate.step,if_neg hne,if_neg hdot,if_neg fun h => hnot (mem_of_getElem? h)]
      exact @lasting_of_mem _ 45 (by simp) (by decide) (concat_ne (by decide))
    | drop hsame hb =>
      subst hsame
      obtain rfl := hb.resolve_right hnoSlash
      obtain rfl : k=1 := by
        rcases hlast with ⟨-,h⟩ | ⟨-,h⟩
        · simp at h
        · exact h.mp rfl
      exact ⟨hk,hout⟩
    | keep hne hplain hapart =>
      have hdot : ¬(b=46 ∧ k=1) := by
        rintro ⟨rfl,rfl⟩
        rcases hlast with ⟨h,-⟩ | ⟨-,h⟩
        · simp [hout,lockText] at h
        · exact hapart.1 ⟨rfl,h.mpr rfl⟩
      rw [Fate.step,if_neg hne,if_neg hdot]
      split
      · rename_i hnext
        have htake : lockText.take k++[b]=lockText.take (k+1) := by
          rw [take_add_one,hnext]
          rfl
        split
        · rename_i h4
          subst h4
          refine ⟨by omega,?_⟩
          rw [hout,append_assoc,htake,lockRuns_succ']
          simp [lockText]
        · exact ⟨by omega,by rw [hout,append_assoc,htake]⟩
      · rename_i hnext
        exact ⟨by simp,concat_ne hne,fun m hm => hnext (lockText_next hk (hout ▸ hm))⟩
    | slash hb _ =>
      subst hb
      rw [Fate.step]
      by_cases h0 : k=0
      · subst h0
        rw [take_zero,append_nil] at hout
        have hfront : (if endsWithLock (done.drop componentEnd)=true then truncateLocks out
            else out)=[] := by
          split
          · rw [hout,truncateLocks_lockRuns]
          · rename_i hnot
            cases n with
            | zero => exact hout
            | succ n =>
              refine absurd (hcomponent (hclean.lock ?_)) hnot
              rw [hout,lockRuns_succ']
              exact endsWithLock_iff.mpr (suffix_append _ _)
        rw [hfront]
        rfl
      · rw [if_neg h0]
        have hne : out≠[] := by
          intro h
          have hnil := (append_eq_nil_iff.mp (hout.symm.trans h)).2
          simp [lockText,h0] at hnil
        rw [truncateLocks_of_not_lock (hout ▸ lockPiece_not_lock hk h0)]
        exact @lasting_of_mem _ 47 (by simp) (by decide) (by simpa using hne)

/-! The output of a name -/

structure Reached (done : Bytes) (previous : UInt8) (componentEnd : ℕ) (out : Bytes) : Prop where
  clean : Clean done previous out
  component : Component done componentEnd
  fated : Fated out (fateOf done)

theorem Reached.start : Reached [] 0 0 [] :=
  ⟨⟨by simp,.nil,.inl ⟨rfl,rfl⟩,by simp,fun p hp _ h => absurd (suffix_nil.mp h) hp⟩,.inl rfl,
    ⟨by decide,rfl⟩⟩

theorem Reached.step
    (h : Reached done previous componentEnd out) (hv : Visited done b previous componentEnd out out' componentEnd') :
    Reached (done++[b]) b componentEnd' out' := by
  have hcomponent : endsWithLock done=true → endsWithLock (done.drop componentEnd)=true :=
    fun hlock => (h.component.lock hlock).1
  refine ⟨h.clean.step hcomponent hv,h.component.step hv,?_⟩
  rw [fateOf_concat]
  exact fated_step h.fated h.clean hcomponent hv

/-- The loop ends with what the whole name leads to, its last component closed. -/
theorem nameInnerLoop_some {rest out : Bytes} {b previous : UInt8} {componentEnd : ℕ}
    (h : Reached done previous componentEnd out) :
    ∃ previous' componentEnd' out',Reached (done++b::rest) previous' componentEnd' out' ∧
      nameInnerLoop (done++b::rest) (b::rest) done.length previous componentEnd (some out) =
        .ok (some (closed (done++b::rest) out' componentEnd')) := by
  induction rest generalizing done b previous componentEnd out with
  | nil =>
    obtain ⟨out',componentEnd',hv,hvisit⟩ := @visitByte_some done componentEnd previous [] out b
      fun hb hsame => h.clean.not_lock (hsame ▸ hb)
    refine ⟨b,componentEnd',out',h.step hv,?_⟩
    rw [nameInnerLoop,hvisit]
    rfl
  | cons c rest ih =>
    obtain ⟨out',componentEnd',hv,hvisit⟩ := @visitByte_some done componentEnd previous
      (c::rest) out b fun hb hsame => h.clean.not_lock (hsame ▸ hb)
    obtain ⟨previous',componentEnd'',out'',hreached,hloop⟩ := @ih (done++[b]) out' c b
      componentEnd' (h.step hv)
    have hassoc : done++[b]++c::rest=done++b::c::rest := by simp
    rw [hassoc] at hreached hloop
    refine ⟨previous',componentEnd'',out'',hreached,?_⟩
    rw [length_append] at hloop
    rw [nameInnerLoop,hvisit]
    exact hloop

/-- The output of the loop for a whole name. -/
structure Written (out : Bytes) : Prop where
  plain : ∀ b ∈ out, Plain b
  chain : out.IsChain Apart
  components : ∀ a c, out = a++47 :: c → endsWithLock a = false
  lock : endsWithLock out = false ∨ out = lockText

theorem closed_eq_append (input out : Bytes) (componentEnd : ℕ) :
    ∃ n,out=closed input out componentEnd++lockRuns n := by
  unfold closed
  split
  · exact (truncateLocks_spec out).1
  · exact ⟨0,by simp [lockRuns]⟩

theorem Reached.written {input : Bytes}
    (h : Reached input previous componentEnd out) : Written (closed input out componentEnd) := by
  obtain ⟨n,hout⟩ := closed_eq_append input out componentEnd
  refine ⟨?_,(isChain_append.mp (hout ▸ h.clean.chain)).1,?_,?_⟩
  · intro b hb
    exact h.clean.plain b (hout ▸ mem_append_left _ hb)
  · intro a c hsplit
    refine h.clean.components a (c++lockRuns n) ?_
    rw [hout,hsplit]
    simp
  · unfold closed
    split
    · exact .inl (truncateLocks_spec out).2
    · rename_i hnot
      cases hlock : endsWithLock out with
      | false => exact .inl rfl
      | true =>
        obtain rfl := (h.component.lock (h.clean.lock hlock)).2.resolve_left hnot
        exact .inr h.fated.2

/-! Both ends of the output -/

theorem eq_replicate_takeWhile (l : Bytes) :
    l.takeWhile (· = 47)=List.replicate (l.takeWhile (· = 47)).length 47 := by
  refine eq_replicate_iff.mpr ⟨rfl,fun b hb => ?_⟩
  simpa using mem_takeWhile_imp hb

theorem head_dropWhile (l : Bytes) : (l.dropWhile (· = 47)).head? ≠ some 47 := by
  intro h
  have hnot := head?_dropWhile_not (fun b : UInt8 => decide (b=47)) l
  rw [h] at hnot
  simp at hnot

theorem trimSlashes_spec (out : Bytes) : ∃ m n,
    out=List.replicate m 47++trimSlashes out++List.replicate n 47 ∧
      (trimSlashes out).head? ≠ some 47 ∧ (trimSlashes out).getLast? ≠ some 47 := by
  unfold trimSlashes
  have hend : out=(out.reverse.dropWhile (· = 47)).reverse++
      replicate (out.reverse.takeWhile (· = 47)).length 47 := by
    rw [← reverse_replicate,← eq_replicate_takeWhile,← reverse_append,
      takeWhile_append_dropWhile,reverse_reverse]
  have hlast : ((out.reverse.dropWhile (· = 47)).reverse).getLast? ≠ some 47 := by
    rw [getLast?_reverse]
    exact head_dropWhile _
  generalize (out.reverse.dropWhile (· = 47)).reverse=front at hend hlast ⊢
  have hstart : front=replicate (front.takeWhile (· = 47)).length 47++
      front.dropWhile (· = 47) := by
    rw [← eq_replicate_takeWhile,takeWhile_append_dropWhile]
  refine ⟨_,_,by rw [← hstart]; exact hend,head_dropWhile front,?_⟩
  intro h
  refine hlast ?_
  rw [hstart,getLast?_append_of_ne_nil _ (by rintro hnil; simp [hnil] at h)]
  exact h

/-- What is between the slashes. -/
structure Trimmed (core : Bytes) : Prop extends Written core where
  nonempty : core ≠ []
  head : core.head? ≠ some 47
  last : core.getLast? ≠ some 47

theorem Written.trimmed (h : Written out) (hne : trimSlashes out≠[]) :
    Trimmed (trimSlashes out) := by
  obtain ⟨m,n,hout,hhead,hlast⟩ := trimSlashes_spec out
  generalize trimSlashes out=core at hne hout hhead hlast
  have hinside : core <:+: out := ⟨_,_,hout.symm⟩
  have hchain : core.IsChain Apart := by
    rw [hout,append_assoc] at h
    exact (isChain_append.mp (isChain_append.mp h.chain).2.1).1
  refine ⟨⟨fun b hb => h.plain b (hinside.subset hb),hchain,?_,?_⟩,hne,hhead,hlast⟩
  · intro a c hsplit
    refine not_lock_of_suffix (suffix_append (replicate m 47) a) (h.components _ (c++replicate n 47) ?_)
    rw [hout,hsplit]
    simp
  · cases n with
    | succ n => exact .inl (not_lock_of_suffix (suffix_append _ _) (h.components (replicate m 47++core) _ hout))
    | zero =>
      rw [replicate_zero,append_nil] at hout
      rcases h.lock with hlock | hlock
      · exact .inl (not_lock_of_suffix (hout ▸ suffix_append _ _) hlock)
      · cases m with
        | zero => exact .inr (by simpa [hlock] using hout.symm)
        | succ m => simp [hlock,lockText,replicate_succ] at hout

theorem not_lock_cons (hb : b≠46) (h : endsWithLock l=false) : endsWithLock (b::l)=false := by
  rw [Bool.eq_false_iff] at h ⊢
  intro hlock
  rcases suffix_cons_iff.mp (endsWithLock_iff.mp hlock) with heq | hsuffix
  · simp only [lockText,cons.injEq] at heq
    exact hb heq.1.symm
  · exact h (endsWithLock_iff.mpr hsuffix)

/-- A dash in the place of a dot at the start. -/
theorem Trimmed.mendHead {core : Bytes} (h : Trimmed core) :
    Trimmed (if core.head? = some 46 then core.set 0 45 else core) ∧
      (if core.head? = some 46 then core.set 0 45 else core).head? ≠ some 46 ∧
      endsWithLock (if core.head? = some 46 then core.set 0 45 else core)=false := by
  split
  · rename_i hdot
    obtain ⟨tail,rfl⟩ := head?_eq_some_iff.mp hdot
    have hnot : endsWithLock (45::tail)=false := by
      refine not_lock_cons (by decide) ?_
      rcases h.lock with hfalse | heq
      · exact not_lock_of_suffix (suffix_cons _ _) hfalse
      · obtain rfl : tail=[108,111,99,107] := by simpa [lockText] using heq
        decide
    refine ⟨⟨⟨forall_mem_cons.mpr ⟨by simp [Plain,invalid],(forall_mem_cons.mp h.plain).2⟩,?_,?_,.inl hnot⟩,by simp,by simp,?_⟩,
      by simp,hnot⟩
    · refine h.chain.tail.cons fun b _ => ?_
      unfold Apart
      simp
    · intro a c hsplit
      cases a with
      | nil => simp at hsplit
      | cons d a =>
        obtain ⟨rfl,htail⟩ := cons_eq_cons.mp hsplit
        exact not_lock_cons (by decide) (not_lock_of_suffix (suffix_cons _ _) (h.components (46::a) c (by rw [htail]; rfl)))
    · have hlast := h.last
      cases tail with
      | nil => simp
      | cons c tail => simpa using hlast
  · rename_i hdot
    refine ⟨h,hdot,h.lock.resolve_right ?_⟩
    rintro rfl
    exact hdot rfl

theorem mendDots_valid {core : Bytes} (h : Trimmed core) : Valid (mendDots core) := by
  obtain ⟨h,hhead,hnot⟩ := h.mendHead
  unfold mendDots
  generalize (if core.head? = some 46 then core.set 0 45 else core)=name at h hhead hnot ⊢
  dsimp only
  split
  · rename_i hdot
    obtain ⟨front,rfl⟩ := getLast?_eq_some_iff.mp hdot
    have hset : (front++[46]).set ((front++[46]).length-1) 45=front++[45] := by
      simp
    have hfront : front≠[] := by
      rintro rfl
      exact hhead rfl
    rw [hset]
    refine ⟨by simp,?_,by simp,forall_mem_append.mpr ⟨(forall_mem_append.mp h.plain).1,by simp [Plain,invalid]⟩,
      isChain_concat (isChain_append.mp h.chain).1 fun a _ => apart_dash a,?_,endsWithLock_dash front⟩
    · have hsame : (front++[45]).head? = (front++[46]).head? := by
        rw [head?_append_of_ne_nil _ hfront,head?_append_of_ne_nil _ hfront]
      rw [hsame]
      exact ⟨h.head,hhead⟩
    · refine components_concat (by decide) fun a c hsplit => ?_
      refine h.components a (c++[46]) ?_
      rw [hsplit]
      simp
  · rename_i hdot
    exact ⟨h.nonempty,⟨h.head,hhead⟩,⟨h.last,hdot⟩,h.plain,h.chain,h.components,hnot⟩

/-! Names that vanish -/

/-- `.lock` as often as one likes, with more than one dot where one likes. -/
inductive DottedLocks : Bytes → Prop
  | nil : DottedLocks []
  | cons (n : ℕ) {l : Bytes} (h : DottedLocks l) :
      DottedLocks (List.replicate (n+1) 46++[108,111,99,107]++l)

/-- Nothing but runs of `.lock` and then slashes, and not just one `.lock`. -/
def Vanishes (path : Bytes) : Prop :=
  path ≠ [] ∧ path ≠ lockText ∧ ∃ locks n, DottedLocks locks ∧ path = locks++List.replicate n 47

theorem DottedLocks.concat (h : DottedLocks l) (n : ℕ) :
    DottedLocks (l++List.replicate (n+1) 46++[108,111,99,107]) := by
  induction h with
  | nil => simpa using DottedLocks.nil.cons n
  | cons m _ ih => simpa using ih.cons m

theorem foldl_repeated {fate : Fate} (h : (fate.step b).step b=fate.step b) (j : ℕ) :
    (List.replicate (j+1) b).foldl Fate.step fate=fate.step b := by
  induction j with
  | zero => rfl
  | succ j ih =>
    rw [replicate_succ',foldl_append,ih]
    exact h

theorem DottedLocks.fate (h : DottedLocks l) (n : ℕ) : ∃ m,l.foldl Fate.step (.locks n 0) = .locks m 0 := by
  induction h generalizing n with
  | nil => exact ⟨n,rfl⟩
  | cons j _ ih =>
    rw [foldl_append,foldl_append,foldl_repeated (by rfl)]
    exact ih (n+1)

theorem Vanishes.fate {path : Bytes} (h : Vanishes path) :
    fateOf path = .slashes ∨ ∃ n,fateOf path = .locks n 0 := by
  obtain ⟨-,-,locks,j,hlocks,rfl⟩ := h
  obtain ⟨m,hm⟩ := hlocks.fate 0
  rw [fateOf,foldl_append,hm]
  cases j with
  | zero => exact .inr ⟨m,rfl⟩
  | succ j => exact .inl (foldl_repeated rfl j)

/-- What the name is like that leads to a fate. -/
def Leads (done : Bytes) : Fate → Prop
  | .locks n 0 => DottedLocks done ∧ (n = 0 → done = [])
  | .locks _ (k+1) => ∃ l j, DottedLocks l ∧
      done = l++List.replicate (j+1) 46++[108,111,99,107].take k
  | .slashes => ∃ l j, DottedLocks l ∧ done = l++List.replicate (j+1) 47
  | .lasting => True

theorem Leads.step {fate : Fate} (h : Leads done fate) (b : UInt8) : Leads (done++[b]) (fate.step b) := by
  match fate,h with
  | .lasting,_ => trivial
  | .slashes,⟨l,j,hl,hdone⟩ =>
    rw [Fate.step]
    split
    · rename_i hb
      exact ⟨l,j+1,hl,by rw [hdone,hb,append_assoc,← replicate_succ']⟩
    · trivial
  | .locks n 0,⟨hl,_⟩ =>
    rw [Fate.step]
    split
    · rename_i hb
      exact ⟨done,0,hl,by rw [hb]; rfl⟩
    split
    · rename_i hb
      simp at hb
    split
    · rename_i hb
      obtain rfl : 46=b := by simpa [lockText] using hb
      exact ⟨done,0,hl,by simp⟩
    · trivial
  | .locks n (k+1),⟨l,j,hl,hdone⟩ =>
    rw [Fate.step]
    split
    · rw [if_neg (by omega)]
      trivial
    split
    · rename_i hb
      obtain ⟨rfl,_⟩ := hb
      obtain rfl : k=0 := by omega
      refine ⟨l,j+1,hl,?_⟩
      rw [hdone,take_zero,append_nil,append_nil,append_assoc,
        ← replicate_succ']
    split
    · rename_i hb
      have htake : [108,111,99,107].take k++[b]=([108,111,99,107] : Bytes).take (k+1) := by
        have hnext : ([108,111,99,107] : Bytes)[k]? = some b := by simpa [lockText] using hb
        rw [take_add_one,hnext]
        rfl
      split
      · obtain rfl : k=3 := by omega
        refine ⟨?_,by simp⟩
        rw [hdone,append_assoc,htake]
        exact hl.concat j
      · exact ⟨l,j,hl,by rw [hdone,append_assoc,htake]⟩
    · trivial

theorem leads_fateOf (done : Bytes) : Leads done (fateOf done) := by
  induction done using reverseRecOn with
  | nil => exact ⟨.nil,fun _ => rfl⟩
  | append_singleton done b ih =>
    rw [fateOf_concat]
    exact ih.step b

theorem trimSlashes_eq_nil : trimSlashes out=[] ↔ ∀ b∈out,b=47 := by
  constructor
  · intro h b hb
    obtain ⟨_,_,hout,-⟩ := trimSlashes_spec out
    rw [h,append_nil] at hout
    rw [hout] at hb
    rcases mem_append.mp hb with hb | hb <;> exact eq_of_mem_replicate hb
  · intro h
    have hrest : out.reverse.dropWhile (· = 47)=[] := dropWhile_eq_nil_iff.mpr (by simpa using h)
    rw [trimSlashes,hrest]
    rfl

/-- Slashes do not follow each other in the output. -/
theorem eq_of_all_slash (h : out.IsChain Apart) (hall : ∀ b∈out,b=47) :
    out=[] ∨ out=[47] := by
  match out,h,hall with
  | [],_,_ => exact .inl rfl
  | [b],_,hall => exact .inr (by rw [hall b mem_cons_self])
  | b::c::out,h,hall =>
    exact absurd ⟨hall c (by simp),hall b (by simp)⟩ h.rel.2.2.2

theorem Reached.vanishes_iff {input : Bytes}
    (h : Reached input previous componentEnd out) (hinput : input≠[]) :
    trimSlashes (closed input out componentEnd)=[] ↔ Vanishes input := by
  have hfated := h.fated
  have hleads := leads_fateOf input
  cases hfate : fateOf input with
  | slashes =>
    rw [hfate] at hfated hleads
    obtain rfl : out=[47] := hfated
    obtain ⟨l,j,hl,hpath⟩ := hleads
    rw [closed_of_not_lock (by decide)]
    refine iff_of_true (by decide) ⟨hinput,?_,l,j+1,hl,hpath⟩
    rintro rfl
    exact absurd hfate (by decide)
  | lasting =>
    rw [hfate] at hfated
    refine iff_of_false ?_ ?_
    · intro htrim
      obtain ⟨n,hout⟩ := closed_eq_append input out componentEnd
      have hchain := hout ▸ h.clean.chain
      rcases eq_of_all_slash (isChain_append.mp hchain).1 (trimSlashes_eq_nil.mp htrim) with
        hclosed | hclosed
      · rw [hclosed] at hout
        exact hfated.2.2 n (hout ▸ prefix_refl _)
      · rw [hclosed] at hout hchain
        cases n with
        | zero => exact hfated.2.1 (by simpa [lockRuns] using hout)
        | succ n =>
          exact hchain.rel.2.1 ⟨rfl,rfl⟩
    · intro hv
      rcases hv.fate with hslashes | ⟨n,hlocks⟩
      · simp [hfate] at hslashes
      · simp [hfate] at hlocks
  | locks n k =>
    rw [hfate] at hfated hleads
    obtain ⟨hk,hout⟩ := hfated
    -- no output with a dot in it goes away by its slashes
    have hdot : 46∈out → trimSlashes out≠[] := by
      intro hmem htrim
      exact absurd (trimSlashes_eq_nil.mp htrim 46 hmem) (by decide)
    by_cases h0 : k=0
    · subst h0
      obtain ⟨hlocks,hn⟩ := hleads
      obtain ⟨n,rfl⟩ := Nat.exists_eq_succ_of_ne_zero fun hz => hinput (hn hz)
      rw [take_zero,append_nil] at hout
      have hlock : endsWithLock out=true := by
        rw [hout,lockRuns_succ']
        exact endsWithLock_iff.mpr (suffix_append _ _)
      unfold closed
      split
      · rename_i hend
        rw [hout,truncateLocks_lockRuns]
        refine iff_of_true rfl ⟨hinput,?_,input,0,hlocks,by simp⟩
        rintro rfl
        rcases h.component with rfl | hslash
        · exact absurd hend (by decide)
        · exact absurd (mem_of_getElem? hslash) (by decide)
      · rename_i hend
        have hinput := (h.component.lock (h.clean.lock hlock)).2.resolve_left hend
        refine iff_of_false (hdot ?_) fun hv => hv.2.1 hinput
        rw [hout,lockRuns_succ]
        simp [lockText]
    · have hmem : 46∈out := by
        obtain ⟨k,rfl⟩ := Nat.exists_eq_succ_of_ne_zero h0
        simp [hout,lockText]
      rw [closed_of_not_lock (hout ▸ lockPiece_not_lock hk h0)]
      refine iff_of_false (hdot hmem) fun hv => ?_
      rcases hv.fate with hslashes | ⟨_,hlocks⟩
      · simp [hfate] at hslashes
      · exact h0 (by simpa using (Fate.locks.inj (hfate.symm.trans hlocks)).2)

/-! Names that are valid already -/

theorem visitByte_of_ok {input out : Bytes} {b previous : UInt8} {bytePos componentEnd : ℕ} {r : Option Bytes × ℕ}
    (h : visitByte input b bytePos previous componentEnd none = .ok r) :
    r.1=none ∧ visitByte input b bytePos previous componentEnd (some out) = .ok (some (out++[b]),r.2) := by
  simp only [visitByte,keepByte,closeComponent,closeName,mend] at h ⊢
  split_ifs at h ⊢ <;> cases h <;> exact ⟨rfl,rfl⟩

theorem nameInnerLoop_of_ok {input rest out : Bytes} {bytePos componentEnd : ℕ} {previous : UInt8} {r : Option Bytes}
    (h : nameInnerLoop input rest bytePos previous componentEnd none = .ok r) :
    r=none ∧ nameInnerLoop input rest bytePos previous componentEnd (some out) = .ok (some (out++rest)) := by
  induction rest generalizing bytePos previous componentEnd out with
  | nil => cases h; simp [nameInnerLoop]
  | cons b rest ih =>
    rw [nameInnerLoop] at h ⊢
    cases hvisit : visitByte input b bytePos previous componentEnd none with
    | error e => simp [hvisit,bind,Except.bind] at h
    | ok visited =>
      obtain ⟨hnone,hkept⟩ := @visitByte_of_ok input out b previous bytePos componentEnd visited hvisit
      have hrest : nameInnerLoop input rest (bytePos+1) b visited.2 none = .ok r := by
        rw [← hnone]
        rwa [hvisit] at h
      obtain ⟨hr,hloop⟩ := @ih (out++[b]) _ _ _ hrest
      rw [hkept]
      exact ⟨hr,hloop.trans (by simp)⟩

theorem dropWhile_of_head (h : l.head? ≠ some 47) : l.dropWhile (· = 47)=l := by
  cases l with
  | nil => rfl
  | cons b l =>
    simpa using h

theorem trimSlashes_of_ends (hhead : l.head? ≠ some 47) (hlast : l.getLast? ≠ some 47) : trimSlashes l=l := by
  rw [← head?_reverse] at hlast
  rw [trimSlashes,dropWhile_of_head hlast,reverse_reverse,dropWhile_of_head hhead]

/-- A name that is accepted is the one that is written. -/
theorem sanitize_of_namePartial {path : Bytes} (h : namePartial path = .ok ()) :
    namePartialOrSanitize path=some path := by
  rw [namePartial,tagName,nameInner] at h
  simp only [and_true,reduceCtorEq,if_false] at h
  by_cases hne : path=[]
  · simp [hne,Except.map] at h
  by_cases hlast : path.getLast?=some 47
  · simp [hne,hlast,Except.map] at h
  by_cases hhead : path.head?=some 47
  · simp [hne,hlast,hhead,Except.map] at h
  rw [if_neg hne,if_neg hlast,if_neg hhead] at h
  cases hloop : nameInnerLoop path path 0 0 0 none with
  | error e => simp [hloop,Except.map] at h
  | ok u =>
    obtain ⟨rfl,hout⟩ := @nameInnerLoop_of_ok path path [] 0 0 0 u hloop
    rw [hloop] at h
    by_cases hdotHead : path.head?=some 46
    · simp [hdotHead,Except.map] at h
    by_cases hdotLast : path.getLast?=some 46
    · simp [hdotHead,hdotLast,Except.map] at h
    simp [namePartialOrSanitize,nameInner,hne,hout,trimSlashes_of_ends hhead hlast,mendDots,hdotHead,
      hdotLast]

/-! The result -/

/-- The name that is written is accepted, and it is the given one if that is. -/
def Sanitizes (path : Bytes) : Prop :=
  ∃ out, namePartialOrSanitize path = some out ∧ namePartial out = .ok () ∧
    (namePartial path = .ok () → out = path)

/-- Every name is made a valid one without a panic, except for those nothing is left of. -/
theorem name_partial_or_sanitize_iff (path : Bytes) : Sanitizes path ↔ ¬Vanishes path := by
  cases path with
  | nil =>
    refine iff_of_true ⟨[45],by decide,by decide,fun h => ?_⟩ fun h => h.1 rfl
    exact absurd h (by decide)
  | cons b rest =>
    obtain ⟨_,componentEnd,out,hreached,hloop⟩ :=
      @nameInnerLoop_some [] rest [] b 0 0 .start
    rw [nil_append] at hreached
    rw [nil_append,length_nil] at hloop
    have hv := hreached.vanishes_iff (cons_ne_nil b rest)
    have hsanitize : namePartialOrSanitize (b::rest) =
        if trimSlashes (closed (b::rest) out componentEnd)=[] then none
        else some (mendDots (trimSlashes (closed (b::rest) out componentEnd))) := by
      rw [namePartialOrSanitize,nameInner,if_neg (cons_ne_nil b rest),if_neg (by simp),
        if_neg (by simp),if_pos rfl,hloop]
      split <;> simp_all
    rw [← hv]
    constructor
    · rintro ⟨name,hname,-⟩ htrim
      simp [hsanitize,htrim] at hname
    · intro htrim
      rw [if_neg htrim] at hsanitize
      refine ⟨_,hsanitize,namePartial_of_valid (mendDots_valid (hreached.written.trimmed htrim)),?_⟩
      intro haccepted
      exact Option.some.inj (hsanitize.symm.trans (sanitize_of_namePartial haccepted))

/-- A slash, and `..lock`. -/
theorem nothing_left :
    namePartialOrSanitize [47] = none ∧ namePartialOrSanitize [46,46,108,111,99,107] = none := by
  decide

/-- A name with a slash in front, two dots, a lock and a dot behind a slash. -/
theorem name_partial_or_sanitize_sample :
    Sanitizes [47,97,46,46,98,46,108,111,99,107,47,46,99] ∧
      namePartialOrSanitize [47,97,46,46,98,46,108,111,99,107,47,46,99] =
        some [97,46,98,47,45,99] := by
  refine ⟨(name_partial_or_sanitize_iff _).mpr ?_,by decide⟩
  intro hv
  rcases hv.fate with h | ⟨_,h⟩
  · exact absurd h (by decide)
  · simp [fateOf,Fate.step] at h

end Gix.ReferenceName
