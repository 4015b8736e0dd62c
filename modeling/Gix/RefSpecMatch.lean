import Gix.RefSpec
import Gix.Fallible

/-! # What ref specs stand for

A pattern has an asterisk for any part of a name, which the destination has as well. Other names
match themselves or all that they can be short for. References that a negative spec names are left
out, and so is what was there before. -/
namespace Gix.RefSpec
open List Option Needle Attempt
open Pack (Bytes ObjectId)
open ByteCodec (cut cut_eq_none cut_eq_some hex unhex hexValue)
open SeenSet (firsts)

/-! Specs as they are parsed -/

structure Parsed (spec : RefSpecRef) : Prop where
  fetch : spec.op = .fetch
  src : spec.src.isSome
  balanced : spec.mode ≠ .negative → ((∃ src, spec.src = some src ∧ 42 ∈ src) ↔ ∃ dst, spec.dst = some dst ∧ 42 ∈ dst)
  negative : spec.mode = .negative → spec.dst = none ∧ ∀ src, spec.src = some src → 42 ∉ src ∧ fromHex src = none

variable {revSpec : Bytes → Bool} {v : Bytes}
  {hadPattern : Bool} {id : ObjectId} {mode : Mode} {text : Bytes} {spec : RefSpecRef}

theorem validated_ok {allowRevspecs : Bool} {spec : Option Bytes}
    (h : validated revSpec allowRevspecs spec = .ok hadPattern) : hadPattern=true ↔ ∃ s,spec=some s ∧ 42∈s := by
  cases spec with
  | none =>
    cases h
    simp
  | some spec =>
    rw [validated] at h
    have hmem : 42∈spec ↔ 0 < spec.count 42 := count_pos_iff.symm
    simp only [some.injEq,exists_eq_left',hmem]
    split at h
    · cases h
    · split at h
      · rename_i hone
        rw [hone]
        split at h
        · cases h
        · cases h
          simp
      · rw [show spec.count 42=0 by omega]
        split at h
        · cases h
          simp
        · split_ifs at h
          cases h
          simp

theorem unhex_digits {l x : Bytes} (h : unhex l=some x) : ∀ d∈l,(hexValue d).isSome := by
  induction l using twoStepInduction generalizing x with
  | nil => simp
  | singleton d => cases h
  | cons_cons hi lo l ih _ =>
    cases hhi : hexValue hi with
    | none => simp [unhex,hhi] at h
    | some hi' =>
      cases hlo : hexValue lo with
      | none => simp [unhex,hlo] at h
      | some lo' =>
        cases hl : unhex l with
        | none => simp [unhex,hl] at h
        | some rest =>
          simp only [forall_mem_cons,hhi,hlo,isSome_some,true_and]
          exact ih hl

theorem fromHex_some (h : fromHex v=some id) : v.length=40 ∧ ∀ d∈v,(hexValue d).isSome := by
  rw [fromHex] at h
  split at h
  · rename_i hlen
    obtain ⟨_,hx,-⟩ := bind_eq_some_iff.mp h
    exact ⟨hlen,unhex_digits hx⟩
  · cases h

/-- An id in hexadecimal has no asterisk, and it is no full name. -/
theorem fromHex_plain (h : fromHex v=some id) : cut 42 v=none ∧ refs.isPrefixOf v=false := by
  obtain ⟨-,hdigits⟩ := fromHex_some h
  constructor
  · refine cut_eq_none.mpr fun hmem => ?_
    have := hdigits 42 hmem
    simp [hexValue] at this
  · cases v with
    | nil => rfl
    | cons d v =>
      have hd : d≠114 := by
        rintro rfl
        have := hdigits 114 (by simp)
        simp [hexValue] at this
      simp [refs,isPrefixOf,Ne.symm hd]

theorem fromHex_none (h : looksLikeObjectHash v=false) : fromHex v=none := by
  cases hv : fromHex v with
  | none => rfl
  | some id =>
    obtain ⟨hlen,hdigits⟩ := fromHex_some hv
    have : v.all isHexDigit=true := all_eq_true.mpr hdigits
    simp [looksLikeObjectHash,hlen,this] at h

theorem sides_fetch {spec : Bytes} {found : Option RefSpecRef} {src dst : Option Bytes}
    (h : sides .fetch mode spec = .ok (found,src,dst)) :
    (found=some (fetchHeadOnly mode) ∧ mode ≠ .negative) ∨
      (found=none ∧ (mode = .negative → dst=none) ∧ (mode ≠ .negative → src.isSome)) := by
  rw [sides] at h
  cases hcut : cut 58 spec with
  | some parts =>
    obtain ⟨s,_⟩ := parts
    rw [hcut] at h
    by_cases hmode : mode = .negative
    · simp [hmode] at h
    · simp only [hmode] at h
      refine Or.inr ?_
      cases hs : nonEmpty s with
      | none =>
        simp only [hs] at h
        obtain ⟨rfl,rfl,-⟩ := h
        exact ⟨rfl,fun h => absurd h hmode,fun _ => rfl⟩
      | some s' =>
        simp only [hs] at h
        obtain ⟨rfl,rfl,-⟩ := h
        exact ⟨rfl,fun h => absurd h hmode,fun _ => rfl⟩
  | none =>
    simp only [hcut,true_and] at h
    split at h
    · rename_i hhead
      cases h
      exact Or.inl ⟨rfl,hhead.1⟩
    · rename_i hhead
      cases h
      refine Or.inr ⟨rfl,fun _ => rfl,fun hmode => ?_⟩
      simp [nonEmpty,show spec≠[] from fun hnil => hhead ⟨hmode,hnil⟩]

theorem checkNegative_ok {src : Option Bytes} (h : checkNegative hadPattern src = .ok ()) :
    hadPattern=false ∧ ∃ s,src=some s ∧ looksLikeObjectHash s=false := by
  cases src with
  | none => cases h
  | some s =>
    rw [checkNegative] at h
    split_ifs at h with hpattern hhash
    exact ⟨by simpa using hpattern,s,rfl,by simpa using hhash⟩

theorem parseSides_fetch
    (h : parseSides revSpec .fetch mode text = .ok spec) : Parsed spec := by
  obtain ⟨⟨_,_,_⟩,hsides,h⟩ := of_bind_ok h
  rcases sides_fetch hsides with ⟨rfl,hmode⟩ | ⟨rfl,hdst,hsrc⟩
  · cases h
    refine ⟨rfl,rfl,fun _ => ?_,fun h => absurd h hmode⟩
    simp [fetchHeadOnly,head]
  · obtain ⟨srcHadPattern,hsrcPattern,h⟩ := of_bind_ok h
    obtain ⟨dstHadPattern,hdstPattern,h⟩ := of_bind_ok h
    have hsrc' := validated_ok hsrcPattern
    have hdst' := validated_ok hdstPattern
    split_ifs at h with hbalanced hmode
    · obtain ⟨_,hnegative,h⟩ := of_bind_ok h
      cases h
      obtain ⟨hpattern,s,hs,hhash⟩ := checkNegative_ok hnegative
      refine ⟨rfl,by rw [hs]; rfl,fun hne => absurd hmode hne,fun _ => ⟨hdst hmode,fun s' hs' => ?_⟩⟩
      cases hs.symm.trans hs'
      refine ⟨fun hmem => ?_,fromHex_none hhash⟩
      have := hsrc'.mpr ⟨s,hs,hmem⟩
      simp [hpattern] at this
    · cases h
      have hsome := hsrc hmode
      refine ⟨rfl,by simpa using hsome,fun _ => ?_,fun hneg => absurd hneg hmode⟩
      have heq : srcHadPattern=dstHadPattern := by
        by_contra hne
        exact hbalanced ⟨hmode,hne⟩
      rw [← hsrc',← hdst',heq]

theorem parse_fetch (h : parse revSpec text .fetch = .ok spec) : Parsed spec := by
  unfold parse at h
  split at h
  · exact parseSides_fetch h
  · exact parseSides_fetch h
  · cases h
    exact ⟨rfl,rfl,fun _ => by simp [fetchHeadOnly,head],fun h => by simp [fetchHeadOnly] at h⟩
  · exact parseSides_fetch h

/-! Names -/

/-- The part of a name that an asterisk stands for. -/
def capture (before after name : Bytes) : Option Bytes :=
  if before.length+after.length ≤ name.length ∧ before <+: name ∧ after <:+ name then
    some ((name.drop before.length).take (name.length-after.length-before.length))
  else none

/-- Full names name themselves, others what they can be expanded to. -/
def names (src name : Bytes) : Prop := if refs <+: src then name = src else name ∈ expandPartialName src

instance (src name : Bytes) : Decidable (names src name) := inferInstanceAs (Decidable (ite _ _ _))

/-- The name of a local reference for a destination without an asterisk -/
def localName (dst : Bytes) : Bytes :=
  if refs <+: dst then dst
  else match fromHex dst with
    | some id => refs++heads++hex id.toList
    | none => refs++(if tags <+: dst ∨ remotes <+: dst then [] else heads)++dst

/-- The destination of a name, if there is a match. -/
def mapsTo (src : Bytes) (dst : Option Bytes) (name : Bytes) : Option (Option Bytes) :=
  match cut 42 src with
  | some (before,after) => (capture before after name).map (fun x => (dst.bind (cut 42)).map (fun side => side.1++x++side.2))
  | none => if names src name then some (dst.map localName) else none

/-- The name has both parts of the pattern, but they overlap. -/
def Overlaps (src name : Bytes) : Prop :=
  ∃ before after, cut 42 src = some (before,after) ∧ before <+: name ∧ after <:+ name ∧ name.length < before.length+after.length

/-! Matchers -/

section Matchers
variable {src dst before after : Bytes} (item : Item)

theorem take_drop_of_cut (h : cut 42 src=some (before,after)) : src.take before.length=before ∧ src.drop (before.length+1)=after := by
  rw [(cut_eq_some.mp h).1]
  simp

theorem matchItem_plain (hcut : cut 42 src=none) (hhex : fromHex src=none) :
    (of src).matchItem item=if names src item.fullRefName then .normal else .none := by
  simp only [of,hcut,hhex,names,← isPrefixOf_iff_prefix]
  split
  · simp [matchItem,eq_comm]
  · rfl

theorem matchItem_glob (hcut : cut 42 src=some (before,after)) : (of src).matchItem item =
    if before <+: item.fullRefName ∧ after <:+ item.fullRefName then .globRange before.length (item.fullRefName.length-after.length) else .none := by
  obtain ⟨htake,hdrop⟩ := take_drop_of_cut hcut
  simp only [of,hcut,matchItem,htake,hdrop]
  by_cases hbefore : before <+: item.fullRefName
  · have hlen := hbefore.length_le
    have htake' := prefix_iff_eq_take.mp hbefore
    rw [if_neg (Nat.not_lt.mpr hlen),if_neg (not_not.mpr htake'.symm)]
    by_cases hafter : after <:+ item.fullRefName
    · simp [hbefore,hafter]
    · have : after.isSuffixOf item.fullRefName=false := Bool.eq_false_iff.mpr (mt isSuffixOf_iff_suffix.mp hafter)
      simp [hafter]
  · have hne : item.fullRefName.take before.length≠before := fun heq => hbefore (prefix_iff_eq_take.mpr heq.symm)
    simp [hbefore,hne]

theorem toBstrReplace_plain (hcut : cut 42 dst=none) : (of dst).toBstrReplace none=some (localName dst) := by
  simp only [of,hcut,localName,← isPrefixOf_iff_prefix]
  split
  · rfl
  · cases fromHex dst with
    | some id => rfl
    | none => simp [toBstrReplace]

end Matchers

section Spec
variable {spec : RefSpecRef} {src : Bytes} {item : Item}

variable (hp : Parsed spec)
include hp

variable (hsrc : spec.src = some src)
include hsrc

theorem matchesLhs_plain (hhex : fromHex src=none) (hcut : cut 42 src=none) :
    (Matcher.of spec).matchesLhs item =
      some ((mapsTo src spec.dst item.fullRefName).isSome,(mapsTo src spec.dst item.fullRefName).getD none) := by
  have hlhs := matchItem_plain item hcut hhex
  simp only [Matcher.matchesLhs,Matcher.of,hsrc,map_some,mapsTo,hcut]
  cases hdst : spec.dst with
  | none =>
    simp only [map_none,hlhs]
    by_cases hnames : names src item.fullRefName <;> simp [hnames]
  | some dst =>
    have hplain : cut 42 dst=none := by
      rw [cut_eq_none] at hcut ⊢
      intro hmem
      by_cases hmode : spec.mode = .negative
      · simp [(hp.negative hmode).1] at hdst
      · obtain ⟨_,hsrc',hmem'⟩ := (hp.balanced hmode).mpr ⟨dst,hdst,hmem⟩
        rw [hsrc] at hsrc'
        exact hcut (some.inj hsrc' ▸ hmem')
    simp only [map_some,hlhs]
    by_cases hnames : names src item.fullRefName <;> simp [hnames,toBstrReplace_plain hplain]

theorem matchesLhs_glob {before after : Bytes} (hcut : cut 42 src=some (before,after)) :
    (Matcher.of spec).matchesLhs item =
      if before <+: item.fullRefName ∧ after <:+ item.fullRefName ∧ item.fullRefName.length < before.length+after.length then none
      else some ((mapsTo src spec.dst item.fullRefName).isSome,(mapsTo src spec.dst item.fullRefName).getD none) := by
  have hmem : 42∈src := by
    rw [(cut_eq_some.mp hcut).1]
    simp
  have hmode : spec.mode ≠ .negative := fun hmode => ((hp.negative hmode).2 src hsrc).1 hmem
  obtain ⟨dst,hdst,hmem'⟩ := (hp.balanced hmode).mp ⟨src,hsrc,hmem⟩
  obtain ⟨⟨_,_⟩,hdcut⟩ : ∃ x,cut 42 dst=some x := ne_none_iff_exists'.mp (mt cut_eq_none.mp (not_not.mpr hmem'))
  simp only [Matcher.matchesLhs,Matcher.of,hsrc,hdst,map_some,mapsTo,hcut,matchItem_glob item hcut,bind_some,capture]
  by_cases hmatch : before <+: item.fullRefName ∧ after <:+ item.fullRefName
  · obtain ⟨htake,hdrop⟩ := take_drop_of_cut hdcut
    simp only [hmatch,if_true,true_and,and_true,of,hdcut,toBstrReplace,htake,hdrop]
    have hlen := hmatch.2.length_le
    by_cases hoverlap : item.fullRefName.length < before.length+after.length
    · rw [if_pos hoverlap,if_neg (by omega)]
      rfl
    · rw [if_neg hoverlap,if_pos (by omega),if_pos (by omega),drop_take]
      rfl
  · have hno : ¬(before <+: item.fullRefName ∧ after <:+ item.fullRefName ∧ item.fullRefName.length < before.length+after.length) :=
      fun h => hmatch ⟨h.1,h.2.1⟩
    simp only [hmatch,hno,and_false]
    rfl

/-- A match is what the spec stands for, unless the parts of its pattern overlap. -/
theorem matchesLhs_eq (hhex : fromHex src=none) (hno : ¬Overlaps src item.fullRefName) :
    (Matcher.of spec).matchesLhs item =
      some ((mapsTo src spec.dst item.fullRefName).isSome,(mapsTo src spec.dst item.fullRefName).getD none) := by
  cases hcut : cut 42 src with
  | none => exact matchesLhs_plain hp hsrc hhex hcut
  | some parts =>
    rw [matchesLhs_glob hp hsrc hcut,if_neg]
    exact fun h => hno ⟨parts.1,parts.2,hcut,h⟩

end Spec
end Gix.RefSpec
