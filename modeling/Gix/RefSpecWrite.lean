import Gix.RefSpec
import Gix.Fallible

/-! # Ref specs in writing

`gix-refspec/src/write.rs` and `instruction()` of `spec.rs`: a spec is written from what it asks
for, without the marker if that changes nothing. -/
namespace Gix.RefSpec
open List Attempt Option ReferenceName
open Pack (Bytes)
open ByteCodec (cut cut_append cut_eq_none cut_eq_some)

inductive Push
  | allMatchingBranches (allowNonFastForward : Bool)
  | delete (refOrPattern : Bytes)
  | matching (src dst : Bytes) (allowNonFastForward : Bool)
deriving DecidableEq,Repr

inductive Fetch
  | only (src : Bytes)
  | exclude (src : Bytes)
  | andUpdate (src dst : Bytes) (allowNonFastForward : Bool)
deriving DecidableEq,Repr

inductive Instruction
  | push (push : Push)
  | fetch (fetch : Fetch)
deriving DecidableEq,Repr

/-- `instruction()`, which panics for what is not a spec. -/
def RefSpecRef.instruction (spec : RefSpecRef) : Option Instruction :=
  match spec.op with
  | .fetch => match spec.mode, spec.src, spec.dst with
    | .negative, some src, none => some (.fetch (.exclude src))
    | .negative, _, _ => none
    | _, some src, none => some (.fetch (.only src))
    | mode, some src, some dst => some (.fetch (.andUpdate src dst (mode = .force)))
    | _, none, _ => none
  | .push => match spec.mode, spec.src, spec.dst with
    | .negative, _, _ => none
    | mode, some src, none => some (.push (.matching src src (mode = .force)))
    | _, none, some dst => some (.push (.delete dst))
    | mode, none, none => some (.push (.allMatchingBranches (mode = .force)))
    | mode, some src, some dst => some (.push (.matching src dst (mode = .force)))

def plus (allowNonFastForward : Bool) : Bytes := if allowNonFastForward then [43] else []

def Instruction.writeTo : Instruction → Bytes
  | .push (.matching src dst allowNonFastForward) => plus allowNonFastForward++src++58 :: dst
  | .push (.allMatchingBranches allowNonFastForward) => plus allowNonFastForward++[58]
  | .push (.delete refOrPattern) => 58 :: refOrPattern
  | .fetch (.only src) => src
  | .fetch (.exclude src) => 94 :: src
  | .fetch (.andUpdate src dst allowNonFastForward) => plus allowNonFastForward++src++58 :: dst

def RefSpecRef.toBstring (spec : RefSpecRef) : Option Bytes := spec.instruction.map Instruction.writeTo

/-! Parsing what was written -/

/-- What is written of a spec is parsed as a spec that asks for the same. -/
def Rewritten (revSpec : Bytes → Bool) (operation : Operation) (spec : RefSpecRef) : Prop :=
  ∃ text spec', spec.toBstring = some text ∧ parse revSpec text operation = .ok spec' ∧ spec'.instruction = spec.instruction

variable {revSpec : Bytes → Bool} {operation : Operation} {force : Bool} {text s d : Bytes} {src dst : Option Bytes} {spec : RefSpecRef}

/-- An `@` is short for `HEAD`. -/
def atHead (s : Bytes) : Bytes := if s = [64] then head else s

/-- The mode of a spec that is not negative -/
def positive (force : Bool) : Mode := if force then .force else .normal

theorem positive_ne : positive force ≠ .negative := by cases force <;> simp [positive]

/-- Both sides are valid, and both are patterns or none is. -/
def Matched (revSpec : Bytes → Bool) (operation : Operation) (src dst : Option Bytes) : Prop :=
  ∃ pattern, validated revSpec (operation = .push && dst.isSome) src = .ok pattern ∧ validated revSpec false dst = .ok pattern

theorem parseSides_iff (hsides : sides operation (positive force) text = .ok (none,src,dst)) :
    parseSides revSpec operation (positive force) text = .ok spec ↔
      Matched revSpec operation (src.map atHead) dst ∧ spec=⟨positive force,operation,src.map atHead,dst⟩ := by
  delta atHead
  constructor
  · intro h
    obtain ⟨_,hfound,h⟩ := of_bind_ok h
    cases hsides.symm.trans hfound
    obtain ⟨pattern,hsrc,h⟩ := of_bind_ok h
    obtain ⟨pattern',hdst,h⟩ := of_bind_ok h
    split_ifs at h with hsame hnegative
    · exact absurd hnegative positive_ne
    cases h
    obtain rfl : pattern=pattern' := by simpa [positive_ne] using hsame
    exact ⟨⟨pattern,hsrc,hdst⟩,rfl⟩
  · rintro ⟨⟨pattern,hsrc,hdst⟩,rfl⟩
    simp [parseSides,hsides,bind,Except.bind,hsrc,hdst,positive_ne,pure,Except.pure]

/-- What may start a spec without a marker. -/
def Plain (s : Bytes) : Prop := s ≠ [] ∧ s.head? ≠ some 94 ∧ s.head? ≠ some 43

theorem parse_marked (force : Bool) (h : force=false → Plain text) :
    parse revSpec (plus force++text) operation=parseSides revSpec operation (positive force) text := by
  cases force with
  | false =>
    obtain ⟨_,_,_⟩ := h rfl
    change parse revSpec text operation=_
    unfold parse
    split <;> simp_all [positive]
  | true => rfl

/-- What the source of a spec is like. -/
structure Sourced (text s : Bytes) : Prop where
  nonempty : s ≠ []
  colon : 58 ∉ s
  short : atHead s = s
  start : s.head? = text.head? ∨ s = head ∧ text.head? ≠ some 43

theorem sourced_head (h : text.head? ≠ some 43) : Sourced text head := ⟨by simp [head],by decide,by decide,.inr ⟨rfl,h⟩⟩

theorem sourced_cut (hs : s≠[]) (hcolon : 58∉s) (hstart : s.head? = text.head?) : Sourced text (atHead s) := by
  unfold atHead
  split
  · rename_i hat
    exact sourced_head (by rw [← hstart,hat]; simp)
  · rename_i hat
    exact ⟨hs,hcolon,if_neg hat,.inl hstart⟩

theorem sides_ok {found : Option RefSpecRef} (h : sides operation (positive force) text = .ok (found,src,dst)) :
    (found=some (fetchHeadOnly (positive force)) ∧ operation = .fetch ∧ text=[]) ∨
      found=none ∧ (∀ s∈src.map atHead,Sourced text s) ∧ (operation = .fetch → src≠none) ∧
        ∀ d,dst=some d ↔ d≠[] ∧ ∃ a,cut 58 text=some (a,d) := by
  rw [sides] at h
  cases hcut : cut 58 text with
  | none =>
    simp only [hcut] at h
    split_ifs at h with hhead
    · cases h
      exact .inl ⟨rfl,hhead.1,hhead.2.2⟩
    · cases h
      by_cases hnil : text=[]
      · exact .inr ⟨rfl,by simp [nonEmpty,hnil],fun hfetch => absurd ⟨hfetch,positive_ne,hnil⟩ hhead,by simp⟩
      · rw [show nonEmpty text=some text from if_neg hnil]
        exact .inr ⟨rfl,fun s hs => some.inj hs ▸ sourced_cut hnil (cut_eq_none.mp hcut) rfl,nofun,by simp⟩
  | some parts =>
    obtain ⟨a,b⟩ := parts
    obtain ⟨rfl,hcolon⟩ := cut_eq_some.mp hcut
    have hdst : ∀ d,nonEmpty b=some d ↔ d≠[] ∧ ∃ a',some (a,b)=some (a',d) := by
      intro d
      by_cases hb : b=[]
      · simp [nonEmpty,hb]
      · simpa [nonEmpty,hb] using fun h : b=d => h ▸ hb
    simp only [hcut,positive_ne] at h
    refine .inr ?_
    cases a with
    | nil =>
      cases operation <;> cases h
      · exact ⟨rfl,nofun,nofun,hdst⟩
      · exact ⟨rfl,fun s hs => some.inj hs ▸ sourced_head (by simp),nofun,hdst⟩
    | cons x a =>
      simp only [show nonEmpty (x::a)=some (x::a) from rfl] at h
      split_ifs at h
      cases h
      exact ⟨rfl,fun s hs => some.inj hs ▸ sourced_cut (cons_ne_nil x a) hcolon rfl,nofun,hdst⟩

theorem Sourced.plain (h : Sourced text s) (hplain : Plain text) (rest : Bytes) : Plain (s++rest) := by
  obtain ⟨_,s,rfl⟩ := exists_cons_of_ne_nil h.nonempty
  rcases h.start with hstart | ⟨hhead,-⟩
  · exact ⟨by simp,hstart ▸ hplain.2⟩
  · cases hhead
    exact ⟨by simp,by simp⟩

theorem Sourced.parse_colon (hs : Sourced text s) (hplain : force=false → Plain text) (hd : d≠[])
    (hmatched : Matched revSpec operation (some s) (some d)) :
    parse revSpec (plus force++s++58::d) operation = .ok ⟨positive force,operation,some s,some d⟩ := by
  have hsides : sides operation (positive force) (s++58::d) = .ok (none,some s,some d) := by
    simp [sides,cut_append hs.colon,positive_ne,nonEmpty,hs.nonempty,hd]
  rw [append_assoc,parse_marked force fun h => hs.plain (hplain h) _,parseSides_iff hsides,map_some,hs.short]
  exact ⟨hmatched,rfl⟩

theorem validated_plain (h : validated revSpec false (some s) = .ok false) :
    namePartial s = .ok () ∧ ∀ allow,validated revSpec allow (some s) = .ok false := by
  by_cases hmany : 1 < s.count 42
  · simp [validated,hmany] at h
  by_cases hone : s.count 42=1
  · simp only [validated,hone,Nat.lt_irrefl,if_false,if_true] at h
    split at h <;> cases h
  cases hname : namePartial s with
  | ok _ => exact ⟨rfl,fun allow => by simp [validated,hmany,hone,hname]⟩
  | error e => simp [validated,hmany,hone,hname] at h

theorem rewritten_push (h : ∀ s∈src,Sourced text s) (hplain : force=false → Plain text) (hd : ∀ d∈dst,d≠[])
    (hmatched : Matched revSpec .push src dst) : Rewritten revSpec .push ⟨positive force,.push,src,dst⟩ := by
  cases src with
  | none =>
    cases dst with
    | none => cases force <;> exact ⟨_,⟨positive _,.push,none,none⟩,rfl,rfl,rfl⟩
    | some d =>
      have hsides : sides .push (positive false) (58::d) = .ok (none,none,some d) := by simp [sides,cut,positive,nonEmpty,hd d rfl]
      cases force <;> exact ⟨_,_,rfl,(parseSides_iff hsides).mpr ⟨hmatched,rfl⟩,rfl⟩
  | some s =>
    have hs := h s rfl
    cases dst with
    | none =>
      obtain ⟨_,hsrc,hdst⟩ := hmatched
      cases hdst
      have hname := (validated_plain hsrc).2
      have hparse := hs.parse_colon hplain hs.nonempty (show Matched revSpec .push _ _ from ⟨false,hname _,hname _⟩)
      cases force <;> exact ⟨_,_,rfl,hparse,rfl⟩
    | some d =>
      have hparse := hs.parse_colon hplain (hd d rfl) hmatched
      cases force <;> exact ⟨_,_,rfl,hparse,rfl⟩

theorem namePartial_caret (s : Bytes) : namePartial (94::s) ≠ .ok () := by
  intro h
  have hloop : nameInnerLoop (94::s) (94::s) 0 0 0 none = .error (.invalidByte 94) := rfl
  by_cases hlast : (94::s).getLast?=some 47 <;> simp [namePartial,tagName,nameInner,hlast,hloop,Except.map] at h

/-- Behind a marker that is left out there may be no other. -/
theorem rewritten_only (hs : Sourced text s) (hmatched : Matched revSpec .fetch (some s) none) :
    Rewritten revSpec .fetch ⟨positive force,.fetch,some s,none⟩ ↔ s.head? ≠ some 43 := by
  have hwritten : (⟨positive force,.fetch,some s,none⟩ : RefSpecRef).instruction=some (.fetch (.only s)) := by cases force <;> rfl
  have hsides : ∀ force s,58∉s → s≠[] → sides .fetch (positive force) s = .ok (none,some s,none) := fun force s hcolon hne => by
    simp [sides,cut_eq_none.mpr hcolon,nonEmpty,hne]
  rw [Rewritten,RefSpecRef.toBstring,hwritten]
  constructor
  · rintro ⟨_,spec,hwrite,hparse,hsame⟩ hhead
    cases hwrite
    obtain ⟨rest,rfl⟩ := head?_eq_some_iff.mp hhead
    by_cases hnil : rest=[]
    · subst hnil
      cases hparse
      cases hsame
    · obtain ⟨-,rfl⟩ := (parseSides_iff (hsides true rest (not_mem_of_not_mem_cons hs.colon) hnil)).mp hparse
      have heq : atHead rest=43::rest := by simpa [RefSpecRef.instruction,positive] using hsame
      unfold atHead at heq
      split at heq
      · cases heq
      · exact cons_ne_self _ _ heq.symm
  · intro hplus
    have hcaret : s.head? ≠ some 94 := by
      intro hhead
      obtain ⟨rest,rfl⟩ := head?_eq_some_iff.mp hhead
      obtain ⟨_,hsrc,hdst⟩ := hmatched
      cases hdst
      exact namePartial_caret rest (validated_plain hsrc).1
    have hparse := (parseSides_iff (hsides false s hs.colon hs.nonempty)).mpr ⟨(congrArg some hs.short).symm ▸ hmatched,rfl⟩
    rw [map_some,hs.short] at hparse
    exact ⟨s,_,rfl,(parse_marked false fun _ => ⟨hs.nonempty,hcaret,hplus⟩).trans hparse,rfl⟩

theorem rewritten_positive (force : Bool) (hplain : force=false → Plain text) (h : parseSides revSpec operation (positive force) text = .ok spec) :
    Rewritten revSpec operation spec ↔
      (operation = .fetch → force=true → text.head? = some 43 → ∃ src dst,cut 58 text=some (src,dst) ∧ dst≠[]) := by
  obtain ⟨⟨_,src,dst⟩,hsides,hfound⟩ := of_bind_ok h
  obtain ⟨rfl,rfl,rfl⟩ | ⟨rfl,hsrc,hfetch,hd⟩ := sides_ok hsides
  · cases hfound
    refine iff_of_true ⟨head,fetchHeadOnly .normal,?_,rfl,?_⟩ (by simp) <;> cases force <;> rfl
  obtain ⟨hmatched,rfl⟩ := (parseSides_iff hsides).mp h
  cases operation with
  | push => exact iff_of_true (rewritten_push hsrc hplain (fun d h => ((hd d).mp h).1) hmatched) nofun
  | fetch =>
    obtain ⟨_,rfl⟩ := ne_none_iff_exists'.mp (hfetch rfl)
    have hs := hsrc _ rfl
    cases dst with
    | some d =>
      obtain ⟨hne,a,hcut⟩ := (hd d).mp rfl
      have hparse := hs.parse_colon hplain hne hmatched
      refine iff_of_true ?_ fun _ _ _ => ⟨a,d,hcut,hne⟩
      cases force <;> exact ⟨_,_,rfl,hparse,rfl⟩
    | none =>
      refine (rewritten_only hs hmatched).trans ⟨fun hne _ _ hhead => ?_,fun h hhead => ?_⟩
      · rcases hs.start with hstart | ⟨-,hnot⟩
        · exact absurd (hstart.trans hhead) hne
        · exact absurd hhead hnot
      · rcases hs.start with hstart | ⟨hs',-⟩
        · cases force with
          | false => exact (hplain rfl).2.2 (hstart ▸ hhead)
          | true =>
            obtain ⟨a,d,hcut,hne⟩ := h rfl rfl (hstart ▸ hhead)
            cases (hd d).mpr ⟨hne,a,hcut⟩
        · rw [hs'] at hhead
          cases hhead

/-- If a spec that forces an update names no destination, its marker is left out, and another one may be taken for it. -/
theorem rewritten_iff (revSpec : Bytes → Bool) (text : Bytes) (operation : Operation) {spec : RefSpecRef}
    (h : parse revSpec text operation = .ok spec) : Rewritten revSpec operation spec ↔
      ∀ body,text = 43 :: body → operation = .fetch → body.head? = some 43 → ∃ src dst,cut 58 body = some (src,dst) ∧ dst ≠ [] := by
  unfold parse at h
  split at h
  · rename_i body
    obtain rfl : operation = .fetch := by cases operation <;> simp_all
    refine iff_of_true ?_ (by simp)
    cases hcut : cut 58 body with
    | some parts => simp [parseSides,sides,hcut,bind,Except.bind] at h
    | none =>
      by_cases hnil : body=[]
      · subst hnil
        cases h
      · have hs := sourced_cut hnil (cut_eq_none.mp hcut) rfl
        have hsame : parseSides revSpec .fetch .negative (atHead body)=parseSides revSpec .fetch .negative body := by
          have hhead : (if atHead body=[64] then head else atHead body)=if body=[64] then head else body := hs.short
          simp [parseSides,sides,cut_eq_none.mpr hs.colon,hcut,nonEmpty,hs.nonempty,hnil,bind,Except.bind,hhead]
        have hsides : sides .fetch .negative body = .ok (none,some body,none) := by simp [sides,hcut,nonEmpty,hnil]
        obtain ⟨_,hfound,hchecks⟩ := of_bind_ok h
        cases hsides.symm.trans hfound
        obtain ⟨_,-,hchecks⟩ := of_bind_ok hchecks
        obtain ⟨_,-,hchecks⟩ := of_bind_ok hchecks
        obtain ⟨_,-,hchecks⟩ := of_bind_ok hchecks
        cases hchecks
        exact ⟨94::atHead body,_,rfl,hsame.trans h,rfl⟩
  · rw [rewritten_positive true (by simp) h]
    simp
  · cases operation with
    | push => cases h
    | fetch =>
      cases h
      exact iff_of_true ⟨head,_,rfl,rfl,rfl⟩ nofun
  · rename_i hcaret hplus hne
    have hplain : Plain text := by
      refine ⟨hne,fun hhead => ?_,fun hhead => ?_⟩
      all_goals obtain ⟨rest,rfl⟩ := head?_eq_some_iff.mp hhead
      · exact hcaret rest rfl
      · exact hplus rest rfl
    rw [rewritten_positive false (fun _ => hplain) h]
    exact iff_of_true (by simp) fun body htext => absurd htext (hplus body)

theorem rewritten_forced : Rewritten (fun _ => false) .fetch ⟨.force,.fetch,some head,some head⟩ :=
  (rewritten_iff (fun _ => false) (43::(head++58::head)) .fetch rfl).mpr (by simp [head])

/-- Of `++a`, only `+a` is left, which asks for `a`. -/
theorem rewritten_marker : parse (fun _ => false) [43,43,97] .fetch = .ok ⟨.force,.fetch,some [43,97],none⟩ ∧
    (⟨.force,.fetch,some [43,97],none⟩ : RefSpecRef).toBstring = some [43,97] ∧
    parse (fun _ => false) [43,97] .fetch = .ok ⟨.force,.fetch,some [97],none⟩ ∧
    (⟨.force,.fetch,some [97],none⟩ : RefSpecRef).instruction = some (.fetch (.only [97])) ∧
    (⟨.force,.fetch,some [43,97],none⟩ : RefSpecRef).instruction = some (.fetch (.only [43,97])) := by decide

end Gix.RefSpec
