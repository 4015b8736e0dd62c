import Gix.RefSpecMatch

/-! # All mappings of a group of ref specs

The mappings of all specs in order, of which those that were there before and those that a negative
spec names are left out. -/
namespace Gix.RefSpec
open List Matcher Mapping
open Option (bind_some bind_eq_bind isSome_iff_exists)
open Pack (Bytes ObjectId)
open SeenSet (firsts)
open ByteCodec (cut_eq_none)

/-! What there should be -/

/-- Object ids are mapped without being advertised. -/
def objectMapping (spec : RefSpecRef) (specIndex : ℕ) : Option Mapping :=
  (spec.src.bind fromHex).map (fun id => ⟨none,.objectId id,spec.dst.map localName,specIndex⟩)

def itemMapping (spec : RefSpecRef) (specIndex : ℕ) (item : Item) (itemIndex : ℕ) : Option Mapping :=
  (spec.src.bind (fun src => mapsTo src spec.dst item.fullRefName)).map (fun rhs => ⟨some itemIndex,.fullName item.fullRefName,rhs,specIndex⟩)

def itemMappings (items : List Item) (spec : RefSpecRef) (specIndex : ℕ) : List Mapping :=
  if spec.mode = .negative ∨ (spec.src.bind fromHex).isSome then []
  else items.zipIdx.filterMap (fun x => itemMapping spec specIndex x.1 x.2)

/-- The objects first, then for each positive spec all items that match. -/
def candidates (specs : List RefSpecRef) (items : List Item) : List Mapping :=
  specs.zipIdx.filterMap (fun x => objectMapping x.1 x.2)++specs.zipIdx.flatMap (fun x => itemMappings items x.1 x.2)

/-- A negative spec names the source. -/
def excluded (specs : List RefSpecRef) (m : Mapping) : Bool :=
  match m.lhs with
  | .objectId _ => false
  | .fullName name => specs.any (fun spec => spec.mode = .negative && (spec.src.any (fun src => decide (names src name))))

def wanted (specs : List RefSpecRef) (items : List Item) : List Mapping := (candidates specs items).filter (fun m => !excluded specs m)

/-- The first mapping for each pair of source and destination -/
def Exact (specs : List RefSpecRef) (items : List Item) (r : Option (List Mapping)) : Prop :=
  ∃ out, r = some out ∧ out = firsts Mapping.key [] (wanted specs items) ∧ (out.map Mapping.key).Nodup

section Loops
variable {hash : Source × Option Bytes → UInt64} {items : List Item} {specs : List RefSpecRef}

theorem foldl_pushUnique (l : List Mapping) (out : List Mapping) (seen : List UInt64) :
    (l.foldl (pushUnique hash) (out,seen)).1=out++firsts (fun m => hash m.key) seen l := by
  induction l generalizing out seen with
  | nil => simp [firsts]
  | cons m l ih =>
    rw [foldl_cons,firsts,pushUnique]
    by_cases hm : hash m.key∈seen
    · simp only [SeenSet.insert_mem hm,if_pos hm]
      exact ih out seen
    · simp only [SeenSet.insert_not_mem hm,if_neg hm]
      rw [ih,append_assoc,singleton_append]

variable {id : ObjectId} {spec : RefSpecRef}

theorem lhs_object (h : spec.src.bind fromHex=some id) :
    (of spec).lhs=some (.object id) ∧ ∃ src,spec.src=some src ∧ 42∉src := by
  obtain ⟨src,hsrc,hid⟩ := Option.bind_eq_some_iff.mp h
  obtain ⟨hcut,hrefs⟩ := fromHex_plain hid
  exact ⟨by simp [of,hsrc,Needle.of,hcut,hrefs,hid],src,hsrc,cut_eq_none.mp hcut⟩

theorem lhs_other (h : spec.src.bind fromHex=none) (id : ObjectId) : (of spec).lhs≠some (.object id) := by
  intro heq
  cases hsrc : spec.src with
  | none => simp [of,hsrc] at heq
  | some src =>
    rw [hsrc,bind_some] at h
    simp only [of,hsrc,Option.map_some,Needle.of,h] at heq
    split at heq
    · cases heq
    · split at heq <;> cases heq

theorem rhs_object (hp : Parsed spec) (h : spec.src.bind fromHex=some id) :
    Needle.toBstr (of spec).rhs=some (spec.dst.map localName) := by
  obtain ⟨-,src,hsrc,hplain⟩ := lhs_object h
  cases hdst : spec.dst with
  | none => simp [of,hdst,Needle.toBstr]
  | some dst =>
    have hcut : ByteCodec.cut 42 dst=none := by
      rw [cut_eq_none]
      intro hmem
      by_cases hmode : spec.mode = .negative
      · simp [(hp.negative hmode).1] at hdst
      · obtain ⟨_,hsrc',hmem'⟩ := (hp.balanced hmode).mpr ⟨dst,hdst,hmem⟩
        rw [hsrc] at hsrc'
        exact hplain (Option.some.inj hsrc' ▸ hmem')
    simp [of,hdst,Needle.toBstr,toBstrReplace_plain hcut]

theorem objectLoop_eq (hp : ∀ spec∈specs,Parsed spec) (idx : ℕ) (s : List Mapping × List UInt64) :
    objectLoop hash idx specs s=some (((specs.zipIdx idx).filterMap (fun x => objectMapping x.1 x.2)).foldl (pushUnique hash) s) := by
  induction specs generalizing idx s with
  | nil => rfl
  | cons spec specs ih =>
    rw [forall_mem_cons] at hp
    rw [zipIdx_cons,objectLoop]
    cases hid : spec.src.bind fromHex with
    | some id =>
      simp only [filterMap_cons,objectMapping,hid,Option.map_some,foldl_cons,(lhs_object hid).1,rhs_object hp.1 hid,
        bind_eq_bind,bind_some]
      exact ih hp.2 _ _
    | none =>
      simp only [filterMap_cons,objectMapping,hid,Option.map_none]
      split
      · rename_i id hlhs
        exact absurd hlhs (lhs_other hid id)
      · exact ih hp.2 _ _

theorem itemLoop_eq {src : Bytes} (hp : Parsed spec) (hsrc : spec.src=some src) (hhex : fromHex src=none)
    (hno : ∀ item∈items,¬Overlaps src item.fullRefName) (specIndex idx : ℕ) (s : List Mapping × List UInt64) :
    itemLoop hash (of spec) specIndex idx items s =
      some (((items.zipIdx idx).filterMap (fun x => itemMapping spec specIndex x.1 x.2)).foldl (pushUnique hash) s) := by
  induction items generalizing idx s with
  | nil => rfl
  | cons item items ih =>
    rw [forall_mem_cons] at hno
    rw [zipIdx_cons,itemLoop,matchesLhs_eq hp hsrc hhex hno.1]
    simp only [bind_eq_bind,bind_some]
    cases hmaps : mapsTo src spec.dst item.fullRefName with
    | none =>
      have hmapping : itemMapping spec specIndex item idx=none := by simp [itemMapping,hsrc,hmaps]
      simp only [filterMap_cons,hmapping]
      exact ih hno.2 _ _
    | some rhs =>
      have hmapping : itemMapping spec specIndex item idx=some ⟨some idx,.fullName item.fullRefName,rhs,specIndex⟩ := by
        simp [itemMapping,hsrc,hmaps]
      simp only [filterMap_cons,hmapping,foldl_cons]
      exact ih hno.2 _ _

theorem itemLoop_overlaps {src : Bytes} (hp : Parsed spec) (hsrc : spec.src=some src)
    (h : ∃ item∈items,Overlaps src item.fullRefName) (specIndex idx : ℕ) (s : List Mapping × List UInt64) :
    itemLoop hash (of spec) specIndex idx items s=none := by
  induction items generalizing idx s with
  | nil => simp at h
  | cons item items ih =>
    rw [itemLoop]
    cases hmatch : (of spec).matchesLhs item with
    | none => rfl
    | some r =>
      simp only [bind_eq_bind,bind_some]
      obtain ⟨item',hitem',hoverlaps⟩ := h
      rcases mem_cons.mp hitem' with rfl | hitem'
      · obtain ⟨_,_,hcut,hboth⟩ := hoverlaps
        rw [matchesLhs_glob hp hsrc hcut,if_pos hboth] at hmatch
        cases hmatch
      · exact ih ⟨item',hitem',hoverlaps⟩ _ _

/-- No advertised name overlaps with the pattern of a positive spec. -/
def NoOverlap (specs : List RefSpecRef) (items : List Item) : Prop :=
  ∀ spec ∈ specs, spec.mode ≠ .negative → ∀ src, spec.src = some src → ∀ item ∈ items, ¬Overlaps src item.fullRefName

theorem itemMatcher_other (h : spec.src.bind fromHex=none) : itemMatcher spec=some (of spec) := by
  rw [itemMatcher]
  split
  · rename_i id hlhs
    exact absurd hlhs (lhs_other h id)
  · rfl

variable (hp : ∀ spec ∈ specs,Parsed spec)
include hp

theorem specLoop_eq (hno : NoOverlap specs items) (idx : ℕ) (s : List Mapping × List UInt64) :
    specLoop hash items idx specs s=some (((specs.zipIdx idx).flatMap (fun x => itemMappings items x.1 x.2)).foldl (pushUnique hash) s) := by
  induction specs generalizing idx s with
  | nil => rfl
  | cons spec specs ih =>
    rw [forall_mem_cons] at hp
    have hrest : NoOverlap specs items := fun spec' hspec' => hno spec' (mem_cons_of_mem spec hspec')
    rw [zipIdx_cons,flatMap_cons,foldl_append,specLoop]
    by_cases hmode : spec.mode = .negative
    · rw [if_pos hmode,itemMappings,if_pos (Or.inl hmode)]
      exact ih hp.2 hrest _ _
    · rw [if_neg hmode,itemMappings]
      cases hid : spec.src.bind fromHex with
      | some id =>
        simp only [itemMatcher,(lhs_object hid).1,Option.isSome_some,or_true,if_true]
        exact ih hp.2 hrest _ _
      | none =>
        obtain ⟨src,hsrc⟩ := isSome_iff_exists.mp hp.1.src
        have hhex : fromHex src=none := by simpa [hsrc] using hid
        simp only [itemMatcher_other hid,Option.isSome_none,Bool.false_eq_true,or_false,hmode,if_false,
          itemLoop_eq hp.1 hsrc hhex (hno spec mem_cons_self hmode src hsrc),bind_eq_bind,bind_some]
        exact ih hp.2 hrest _ _

theorem specLoop_overlaps (h : ¬NoOverlap specs items) (idx : ℕ) (s : List Mapping × List UInt64) :
    specLoop hash items idx specs s=none := by
  induction specs generalizing idx s with
  | nil => exact absurd (fun spec hspec => by simp at hspec) h
  | cons spec specs ih =>
    rw [forall_mem_cons] at hp
    rw [specLoop]
    by_cases hrest : NoOverlap specs items
    · -- The pattern of the first spec is the one that overlaps.
      have hfirst : spec.mode ≠ .negative ∧ ∃ src,spec.src=some src ∧ ∃ item∈items,Overlaps src item.fullRefName := by
        by_contra hcon
        refine h fun spec' hspec' hmode src hsrc item hitem hoverlaps => ?_
        rcases mem_cons.mp hspec' with rfl | hspec'
        · exact hcon ⟨hmode,src,hsrc,item,hitem,hoverlaps⟩
        · exact hrest spec' hspec' hmode src hsrc item hitem hoverlaps
      obtain ⟨hmode,src,hsrc,hitems⟩ := hfirst
      have hid : spec.src.bind fromHex=none := by
        obtain ⟨item,-,_,_,hcut,-⟩ := hitems
        cases hid : spec.src.bind fromHex with
        | none => rfl
        | some id =>
          obtain ⟨-,_,hsrc',hplain⟩ := lhs_object hid
          rw [hsrc] at hsrc'
          rw [Option.some.inj hsrc',cut_eq_none.mpr hplain] at hcut
          cases hcut
      simp [if_neg hmode,itemMatcher_other hid,itemLoop_overlaps hp.1 hsrc hitems]
    · split
      · exact ih hp.2 hrest _ _
      · split
        · exact ih hp.2 hrest _ _
        · cases itemLoop hash _ idx 0 items s with
          | none => rfl
          | some s' => exact ih hp.2 hrest _ _

/-! Negative specs -/

omit hp in
theorem excluded_cons (spec : RefSpecRef) (specs : List RefSpecRef) (m : Mapping) :
    excluded (spec::specs) m=(excluded [spec] m || excluded specs m) := by
  cases hlhs : m.lhs with
  | objectId id => simp [excluded,hlhs]
  | fullName name => simp [excluded,hlhs]

omit hp in
theorem excluded_filter (specs : List RefSpecRef) : excluded (specs.filter (fun spec => spec.mode = .negative))=excluded specs := by
  funext m
  cases hlhs : m.lhs with
  | objectId id => simp [excluded,hlhs]
  | fullName name => simp [excluded,hlhs,any_filter]

omit hp in
theorem retain_eq (hp : Parsed spec) (hmode : spec.mode = .negative) (out : List Mapping) :
    retain (of spec) out=some (out.filter (fun m => !excluded [spec] m)) := by
  obtain ⟨src,hsrc⟩ := isSome_iff_exists.mp hp.src
  obtain ⟨_,hplain⟩ := hp.negative hmode
  obtain ⟨hmem,hhex⟩ := hplain src hsrc
  have hcut := cut_eq_none.mpr hmem
  induction out with
  | nil => rfl
  | cons m out ih =>
    rw [retain]
    cases hlhs : m.lhs with
    | objectId id => simp [ih,excluded,hlhs]
    | fullName name =>
      simp only [matchesLhs_plain hp hsrc hhex hcut,mapsTo,hcut,ih,bind_eq_bind,bind_some]
      by_cases hnames : names src name <;> simp [excluded,hlhs,hmode,hsrc,hnames]

theorem retainAll_eq (hmode : ∀ spec∈specs,spec.mode = .negative) (out : List Mapping) :
    retainAll (specs.filterMap itemMatcher) out=some (out.filter (fun m => !excluded specs m)) := by
  induction specs generalizing out with
  | nil =>
    have hnone : ∀ m,excluded [] m=false := by
      intro m
      cases hlhs : m.lhs <;> simp [excluded,hlhs]
    simp [retainAll,hnone]
  | cons spec specs ih =>
    rw [forall_mem_cons] at hp hmode
    have hhex : spec.src.bind fromHex=none := by
      obtain ⟨src,hsrc⟩ := isSome_iff_exists.mp hp.1.src
      simpa [hsrc] using ((hp.1.negative hmode.1).2 src hsrc).2
    rw [filterMap_cons_some (itemMatcher_other hhex),retainAll,retain_eq hp.1 hmode.1]
    simp [ih hp.2 hmode.2,excluded_cons spec specs,Bool.and_comm]

omit hp in
theorem not_excluded (h : (specs.any (fun spec => spec.mode = .negative) && !items.isEmpty)=false) :
    ∀ m∈candidates specs items,excluded specs m=false := by
  intro m hm
  cases hlhs : m.lhs with
  | objectId id => simp [excluded,hlhs]
  | fullName name =>
    rcases Bool.and_eq_false_iff.mp h with hnone | hempty
    · simp only [excluded,hlhs]
      rw [any_eq_false] at hnone ⊢
      intro spec hspec
      simp [hnone spec hspec]
    · obtain rfl : items=[] := by simpa using hempty
      rw [candidates,mem_append] at hm
      rcases hm with hm | hm
      · obtain ⟨_,-,hx⟩ := mem_filterMap.mp hm
        obtain ⟨id,-,rfl⟩ := Option.map_eq_some_iff.mp hx
        simp at hlhs
      · simp [itemMappings] at hm

theorem matchRemotes_eq (hno : NoOverlap specs items)
    (hhash : ∀ a∈(candidates specs items).map key,∀ b∈(candidates specs items).map key,hash a=hash b → a=b) :
    matchRemotes hash specs items=some (firsts key [] (wanted specs items)) := by
  have hfold : (((specs.zipIdx.flatMap (fun x => itemMappings items x.1 x.2))).foldl (pushUnique hash)
      ((specs.zipIdx.filterMap (fun x => objectMapping x.1 x.2)).foldl (pushUnique hash) ([],[]))).1 =
        firsts key [] (candidates specs items) := by
    rw [← foldl_append,← candidates,foldl_pushUnique,nil_append]
    exact SeenSet.firsts_hash hash [] _ (by simpa using hhash)
  have hkey : ∀ a b : Mapping,a.key=b.key → (!excluded specs a) = !excluded specs b := by
    intro a b heq
    rw [excluded,excluded,(Prod.mk.inj heq).1]
  rw [matchRemotes,objectLoop_eq hp]
  simp only [bind_eq_bind,bind_some,specLoop_eq hp hno,hfold,wanted]
  rw [← SeenSet.firsts_filter hkey [] [] _ (by simp)]
  split
  · rw [retainAll_eq (fun spec hspec => hp spec (mem_filter.mp hspec).1) (fun spec hspec => by simpa using (mem_filter.mp hspec).2),
      excluded_filter]
  · rename_i hnone
    refine congrArg some (filter_eq_self.mpr fun m hm => ?_).symm
    rw [not_excluded (Bool.eq_false_iff.mpr hnone) m (SeenSet.firsts_fresh _ _ m hm).1]
    rfl

end Loops

/-- Matching is exact unless a name overlaps with a pattern. -/
theorem match_remotes_exact_iff (revSpec : Bytes → Bool) (hash : Source × Option Bytes → UInt64) (specs : List RefSpecRef) (items : List Item)
    (hparsed : ∀ spec ∈ specs, ∃ text, parse revSpec text .fetch = .ok spec)
    (hhash : ∀ a ∈ (candidates specs items).map Mapping.key, ∀ b ∈ (candidates specs items).map Mapping.key, hash a = hash b → a = b) :
    Exact specs items (matchRemotes hash (fromFetchSpecs specs) items) ↔ NoOverlap specs items := by
  have hp : ∀ spec∈specs, Parsed spec := by
    intro spec hspec
    obtain ⟨text,htext⟩ := hparsed spec hspec
    exact parse_fetch htext
  have hall : fromFetchSpecs specs=specs := by
    rw [fromFetchSpecs,filter_eq_self]
    exact fun spec hspec => decide_eq_true (hp spec hspec).fetch
  rw [hall]
  constructor
  · rintro ⟨out,hout,-⟩
    by_contra hno
    rw [matchRemotes,objectLoop_eq hp] at hout
    simp only [bind_eq_bind,bind_some,specLoop_overlaps hp hno,Option.bind_none] at hout
    cases hout
  · intro hno
    exact ⟨_,matchRemotes_eq hp hno hhash,rfl,SeenSet.firsts_nodup [] _⟩

/-- `refs/heads/*:refs/remotes/*` -/
def smallSpec : RefSpecRef := ⟨.normal,.fetch,some (refs++heads++[42]),some (refs++remotes++[42])⟩

/-- `refs/heads/a:refs/remotes/a` -/
def namedSpec : RefSpecRef := ⟨.normal,.fetch,some (refs++heads++[97]),some (refs++remotes++[97])⟩

/-- `refs/heads/a` and `refs/heads/b` -/
def smallItems : List Item := [⟨refs++heads++[97],ObjectId.null,none⟩,⟨refs++heads++[98],ObjectId.null,none⟩]

def lastByte : Source × Option Bytes → UInt64
  | (.fullName name,_) => (name.getLast?.getD 0).toUInt64
  | (.objectId _,_) => 0

/-- Both specs match `refs/heads/a`, which comes once. -/
theorem match_remotes_exact_small :
    Exact [smallSpec,namedSpec] smallItems (matchRemotes lastByte (fromFetchSpecs [smallSpec,namedSpec]) smallItems) ∧
    (candidates [smallSpec,namedSpec] smallItems).length = 3 ∧
    (matchRemotes lastByte (fromFetchSpecs [smallSpec,namedSpec]) smallItems).map List.length = some 2 := by
  refine ⟨(match_remotes_exact_iff (fun _ => false) lastByte [smallSpec,namedSpec] smallItems ?_ ?_).mpr ?_,by decide +kernel,
    by decide +kernel⟩
  · intro spec hspec
    rcases mem_pair.mp hspec with rfl | rfl
    · exact ⟨refs++heads++42::58::(refs++remotes++[42]),by decide +kernel⟩
    · exact ⟨refs++heads++97::58::(refs++remotes++[97]),by decide +kernel⟩
  · decide +kernel
  · intro spec hspec _ src hsrc item hitem
    rintro ⟨before,after,hcut,-,-,hlt⟩
    rcases mem_pair.mp hspec with rfl | rfl
    · cases hsrc
      obtain ⟨rfl,rfl⟩ : refs++heads=before ∧ []=after := by
        have : ByteCodec.cut 42 (refs++heads++[42])=some (refs++heads,[]) := by decide +kernel
        exact Prod.mk.inj (Option.some.inj (this.symm.trans hcut))
      rcases mem_pair.mp hitem with rfl | rfl <;> simp at hlt
    · cases hsrc
      have : ByteCodec.cut 42 (refs++heads++[97])=none := by decide +kernel
      rw [this] at hcut
      cases hcut

/-- `refs/*/heads:refs/*/heads` and a reference `refs/heads` -/
theorem overlapping_name : parse (fun _ => false) (refs++42 :: 47 :: (heads.dropLast++58 :: (refs++42 :: 47 :: heads.dropLast))) .fetch =
      .ok ⟨.normal,.fetch,some (refs++42 :: 47 :: heads.dropLast),some (refs++42 :: 47 :: heads.dropLast)⟩ ∧
    matchRemotes (fun _ => 0) [⟨.normal,.fetch,some (refs++42 :: 47 :: heads.dropLast),some (refs++42 :: 47 :: heads.dropLast)⟩]
      [⟨refs++heads.dropLast,ObjectId.null,none⟩] = none := by
  refine ⟨by decide +kernel,by decide +kernel⟩

end Gix.RefSpec
