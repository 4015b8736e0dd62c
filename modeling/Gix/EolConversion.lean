import Mathlib

/-! # Conversion of line endings

`gix-filter/src/eol/`: what is decided from statistics of a buffer is done to the buffer itself. The
counters are within the length of a buffer, and memory is always there. -/
namespace Gix.Filter.Eol
open List Option Except

abbrev Bytes := List UInt8

inductive Mode | lf | crLf deriving DecidableEq
inductive AutoCrlf | input | enabled | disabled deriving DecidableEq

inductive AttributesDigest
  | binary | text | textInput | textCrlf | textAuto | textAutoCrlf | textAutoInput
deriving DecidableEq

structure Configuration where
  autoCrlf : AutoCrlf
  eol : Option Mode

/-- Without a configuration it is the `native` mode of the platform. -/
def Configuration.toEol (native : Mode) (config : Configuration) : Mode :=
  match config.autoCrlf with
  | .enabled => .crLf
  | .input => .lf
  | .disabled => config.eol.getD native

namespace AttributesDigest

def toEol (native : Mode) (config : Configuration) : AttributesDigest → Option Mode
  | binary => none
  | textInput | textAutoInput => some .lf
  | textCrlf | textAutoCrlf => some .crLf
  | text | textAuto => some (config.toEol native)

def isAutoText : AttributesDigest → Bool
  | textAuto | textAutoCrlf | textAutoInput => true
  | _ => false

end AttributesDigest

structure Stats where
  null : ℕ
  loneCr : ℕ
  loneLf : ℕ
  crlf : ℕ
  printable : ℕ
  nonPrintable : ℕ
deriving DecidableEq

namespace Stats

def add (s : Stats) (b : UInt8) : Stats :=
  if b = 13 then {s with loneCr := s.loneCr+1}
  else if b = 10 then {s with loneLf := s.loneLf+1}
  else if b = 127 then {s with nonPrintable := s.nonPrintable+1}
  else if b < 32 then
    if b = 8 ∨ b = 9 ∨ b = 27 ∨ b = 12 then {s with printable := s.printable+1}
    else if b = 0 then {s with nonPrintable := s.nonPrintable+1, null := s.null+1}
    else {s with nonPrintable := s.nonPrintable+1}
  else {s with printable := s.printable+1}

def fromBytes : Bytes → Stats
  | [] => ⟨0,0,0,0,0,0⟩
  | 13 :: 10 :: bytes => {fromBytes bytes with crlf := (fromBytes bytes).crlf+1}
  | b :: bytes => (fromBytes bytes).add b

def isBinary (s : Stats) : Bool := 0 < s.loneCr || 0 < s.null || s.printable >>> 7 < s.nonPrintable

def willConvertLfToCrlf (native : Mode) (s : Stats) (digest : AttributesDigest) (config : Configuration) : Bool :=
  if digest.toEol native config ≠ some .crLf then false
  else if s.loneLf = 0 then false
  else if digest.isAutoText && (s.isBinary || 0 < s.loneCr || 0 < s.crlf) then false
  else true

end Stats

inductive RoundTripCheck
  | fail (relaPath : Bytes)
  | warn (relaPath : Bytes)

inductive Error
  | roundTrip (msg : String) (path : Bytes)
  | fetchObjectFromIndex
deriving DecidableEq

structure Options where
  roundTripCheck : Option RoundTripCheck
  config : Configuration

/-- The loop that leaves out each CR before a LF. -/
def removeCr : Bytes → Bytes
  | [] => []
  | b :: bytes => if b = 13 ∧ bytes.head? = some 10 then removeCr bytes else b :: removeCr bytes

/-- Whether the object in the index, which may be fetched, has a CRLF. -/
def hasCrlfInIndex (buf : Bytes) : Bool :=
  13 ∈ buf && !(Stats.fromBytes buf).isBinary && 0 < (Stats.fromBytes buf).crlf

/-- The error of a check that was asked for, with what an add and a checkout would make of the statistics. -/
def roundTripError (native : Mode) (check : RoundTripCheck) (stats : Stats) (convertCrlfToLf : Bool)
    (digest : AttributesDigest) (config : Configuration) : Option Error :=
  let added := if convertCrlfToLf then {stats with loneLf := stats.loneLf+stats.crlf, crlf := 0} else stats
  let newStats := if added.willConvertLfToCrlf native digest config
    then {added with crlf := added.crlf+added.loneLf, loneLf := 0} else added
  match check with
  | .warn _ => none
  | .fail relaPath =>
    if 0 < stats.crlf ∧ newStats.crlf = 0 then some (.roundTrip "CRLF would be replaced by LF" relaPath)
    else if 0 < stats.loneLf ∧ newStats.loneLf = 0 then some (.roundTrip "LF would be replaced by CRLF" relaPath)
    else none

/-- The buffer if it was written; `indexObject` is what the function for it returns. -/
def convertToGit (native : Mode) (src : Bytes) (digest : AttributesDigest) (indexObject : Except Unit (Option Bytes))
    (options : Options) : Except Error (Option Bytes) :=
  if digest = .binary ∨ src = [] then .ok none
  else
    let stats := Stats.fromBytes src
    if digest.isAutoText && stats.isBinary then .ok none
    else
      match if digest.isAutoText then indexObject else .ok none with
      | .error _ => .error .fetchObjectFromIndex
      | .ok object =>
        let convertCrlfToLf := 0 < stats.crlf && !object.any hasCrlfInIndex
        match options.roundTripCheck.bind fun check =>
          roundTripError native check stats convertCrlfToLf digest options.config with
        | some err => .error err
        | none =>
          if convertCrlfToLf then .ok (some (if stats.loneCr = 0 then src.filter (· ≠ 13) else removeCr src))
          else .ok none

/-- The loop from one CR or LF to the next. -/
def insertCr : Bytes → Bytes
  | [] => []
  | 13 :: 10 :: bytes => 13 :: 10 :: insertCr bytes
  | b :: bytes => if b = 10 then 13 :: 10 :: insertCr bytes else b :: insertCr bytes

/-- The buffer if it was written. -/
def convertToWorktree (native : Mode) (src : Bytes) (digest : AttributesDigest) (config : Configuration) : Option Bytes :=
  if src = [] ∨ digest.toEol native config ≠ some .crLf then none
  else if (Stats.fromBytes src).willConvertLfToCrlf native digest config then some (insertCr src)
  else none

/-! ## Statistics of what is written -/

section Loops
variable {l : Bytes} {b : UInt8}

variable (h : ¬(b = 13 ∧ l.head? = some 10))
include h

theorem insertCr_cons :
    insertCr (b::l)=if b=10 then 13::10::insertCr l else b::insertCr l := by
  rw [insertCr]
  rintro bytes rfl rfl
  exact h ⟨rfl,rfl⟩

open Stats

theorem fromBytes_cons : Stats.fromBytes (b::l)=(Stats.fromBytes l).add b := by
  rw [Stats.fromBytes]
  rintro bytes rfl rfl
  exact h ⟨rfl,rfl⟩

theorem removeCr_cons : removeCr (b::l)=b::removeCr l := by rw [removeCr,if_neg h]

omit h

theorem removeCr_crlf (l : Bytes) : removeCr (13::10::l)=10::removeCr l := by simp [removeCr]

theorem crlf_add (s : Stats) (b : UInt8) : (s.add b).crlf=s.crlf := by
  unfold add
  split_ifs <;> rfl

theorem crlf_cons : (Stats.fromBytes (b::l)).crlf=0 ↔ ¬(b=13 ∧ l.head? = some 10) ∧ (Stats.fromBytes l).crlf=0 := by
  by_cases h : b=13 ∧ l.head? = some 10
  · obtain ⟨rfl,hhead⟩ := h
    obtain ⟨l,rfl⟩ := head?_eq_some_iff.mp hhead
    simp [Stats.fromBytes]
  · rw [fromBytes_cons h,crlf_add]
    exact (and_iff_right h).symm

/-- Induction over CRLF and the other bytes. -/
theorem crlf_induction {motive : Bytes → Prop} (nil : motive []) (crlf : ∀ l,motive l → motive (13::10::l))
    (cons : ∀ b l,¬(b=13 ∧ l.head? = some 10) → motive l → motive (b::l)) (l : Bytes) : motive l := by
  induction l using Stats.fromBytes.induct with
  | case1 => exact nil
  | case2 l ih => exact crlf l ih
  | case3 b l hb ih =>
    refine cons b l ?_ ih
    rintro ⟨rfl,hhead⟩
    cases l with
    | nil => cases hhead
    | cons c l => exact hb l rfl (by rw [some.inj hhead])

theorem head_insertCr (l : Bytes) : (insertCr l).head? ≠ some 10 := by
  induction l using crlf_induction with
  | nil => simp [insertCr]
  | crlf l _ => simp [insertCr]
  | cons b l h _ =>
    rw [insertCr_cons h]
    split_ifs with hb
    · simp
    · simpa using hb

theorem fromBytes_insertCr (l : Bytes) : Stats.fromBytes (insertCr l)={Stats.fromBytes l with
    crlf := (Stats.fromBytes l).crlf+(Stats.fromBytes l).loneLf,loneLf := 0} := by
  induction l using crlf_induction with
  | nil => rfl
  | crlf l ih =>
    rw [insertCr,Stats.fromBytes,Stats.fromBytes,ih]
    simp only [Stats.mk.injEq,true_and,and_true]
    omega
  | cons b l h ih =>
    rw [insertCr_cons h,fromBytes_cons h]
    split_ifs with hb
    · rw [Stats.fromBytes,ih,hb]
      simp [add]
      omega
    · rw [fromBytes_cons fun hc => head_insertCr l hc.2,ih]
      unfold add
      split_ifs <;> rfl

theorem removeCr_insertCr (l : Bytes) : removeCr (insertCr l)=removeCr l := by
  induction l using crlf_induction with
  | nil => rfl
  | crlf l ih => rw [insertCr,removeCr_crlf,removeCr_crlf,ih]
  | cons b l h ih =>
    rw [insertCr_cons h,removeCr_cons h]
    split_ifs with hb
    · rw [removeCr_crlf,ih,hb]
    · rw [removeCr_cons fun hc => head_insertCr l hc.2,ih]

theorem removeCr_eq_self (h : (Stats.fromBytes l).crlf=0) : removeCr l=l := by
  induction l using crlf_induction with
  | nil => rfl
  | crlf l _ => simp [Stats.fromBytes] at h
  | cons b l hb ih =>
    rw [removeCr_cons hb,ih (crlf_cons.mp h).2]

theorem filter_eq_removeCr (h : (Stats.fromBytes l).loneCr=0) : l.filter (· ≠ 13)=removeCr l := by
  induction l using crlf_induction with
  | nil => rfl
  | crlf l ih => simpa [removeCr_crlf] using ih h
  | cons b l hb ih =>
    rw [fromBytes_cons hb] at h
    have hne : b≠13 := by
      rintro rfl
      simp [add] at h
    rw [removeCr_cons hb,filter_cons_of_pos (by simpa using hne),ih (by
      unfold add at h
      split_ifs at h <;> exact h)]

theorem head_removeCr (l : Bytes) : (removeCr l).head? = some 10 ↔ l.head? = some 10 ∨ [13,10] <+: l := by
  induction l using crlf_induction with
  | nil => simp [removeCr]
  | crlf l _ => simp [removeCr_crlf]
  | cons b l h _ =>
    rw [removeCr_cons h]
    refine (or_iff_left fun hcrlf => ?_).symm
    obtain ⟨rfl,hl⟩ := cons_prefix_cons.mp hcrlf
    obtain ⟨_,rfl⟩ := hl
    exact h ⟨rfl,rfl⟩

/-- A CR is left before a LF only where two were. -/
theorem crlf_removeCr (l : Bytes) : (Stats.fromBytes (removeCr l)).crlf=0 ↔ ¬[13,13,10] <:+: l := by
  induction l using crlf_induction with
  | nil => simp [removeCr,Stats.fromBytes]
  | crlf l ih =>
    rw [removeCr_crlf,crlf_cons,ih]
    simp [infix_cons_iff]
  | cons b l h ih =>
    rw [removeCr_cons h,crlf_cons,ih,head_removeCr,infix_cons_iff,cons_prefix_cons,not_or]
    refine and_congr_left fun _ => not_congr ⟨?_,?_⟩
    · rintro ⟨rfl,hhead⟩
      exact ⟨rfl,hhead.resolve_left fun hl => h ⟨rfl,hl⟩⟩
    · rintro ⟨rfl,hcrlf⟩
      exact ⟨rfl,.inr hcrlf⟩

theorem crlf_eq_zero (l : Bytes) : (Stats.fromBytes l).crlf=0 ↔ ¬[13,10] <:+: l := by
  induction l with
  | nil => simp [Stats.fromBytes]
  | cons b l ih =>
    rw [crlf_cons,ih,infix_cons_iff,not_or]
    refine and_congr_left fun _ => not_congr ?_
    cases l <;> simp [eq_comm]

theorem loneCr_pos (h : [13,13,10] <:+: l) : 0 < (Stats.fromBytes l).loneCr := by
  induction l using crlf_induction with
  | nil => simp at h
  | crlf l ih => exact ih (by simpa [infix_cons_iff] using h)
  | cons b l hb ih =>
    rw [fromBytes_cons hb]
    rcases infix_cons_iff.mp h with hcr | h
    · obtain ⟨rfl,-⟩ := cons_prefix_cons.mp hcr
      simp [add]
    · have hl := ih h
      unfold add
      split_ifs
      · exact Nat.succ_pos _
      all_goals exact hl

theorem insertCr_removeCr (hlf : (Stats.fromBytes l).loneLf=0) :
    (insertCr (removeCr l)).length+(Stats.fromBytes (removeCr l)).crlf=l.length ∧
      ((Stats.fromBytes (removeCr l)).crlf=0 → insertCr (removeCr l)=l) := by
  induction l using crlf_induction with
  | nil => exact ⟨rfl,fun _ => rfl⟩
  | crlf l ih =>
    obtain ⟨hlength,heq⟩ := ih hlf
    rw [removeCr_crlf,insertCr_cons (by simp),if_pos rfl,fromBytes_cons (by simp),crlf_add]
    refine ⟨by simpa using by omega,fun h => by rw [heq h]⟩
  | cons b l h ih =>
    rw [fromBytes_cons h] at hlf
    have hb : b≠10 := by
      rintro rfl
      simp [add] at hlf
    have hl : (Stats.fromBytes l).loneLf=0 := by
      unfold add at hlf
      split_ifs at hlf <;> exact hlf
    obtain ⟨hlength,heq⟩ := ih hl
    rw [removeCr_cons h]
    by_cases hc : b=13 ∧ (removeCr l).head? = some 10
    · obtain ⟨rfl,hhead⟩ := hc
      obtain ⟨_,hm⟩ := head?_eq_some_iff.mp hhead
      rw [hm,insertCr_cons (by simp),if_pos rfl,fromBytes_cons (by simp),crlf_add] at hlength
      rw [hm,insertCr,Stats.fromBytes]
      simp only [length_cons] at hlength ⊢
      exact ⟨by omega,fun h => absurd h (by simp)⟩
    · rw [insertCr_cons hc,if_neg hb,fromBytes_cons hc,crlf_add,length_cons,length_cons]
      exact ⟨by omega,fun h => by rw [heq h]⟩

theorem length_le_insertCr (l : Bytes) : l.length ≤ (insertCr l).length := by
  induction l using crlf_induction with
  | nil => exact Nat.le_refl 0
  | crlf l ih => simpa [insertCr] using ih
  | cons b l h ih =>
    rw [insertCr_cons h]
    split_ifs
    · simpa using by omega
    · simpa using ih

end Loops

/-! ## There and back -/

section RoundTrip
variable {native : Mode} {src : Bytes} {digest : AttributesDigest} {config : Configuration}

def checkedOut (native : Mode) (src : Bytes) (digest : AttributesDigest) (config : Configuration) : Bytes :=
  (convertToWorktree native src digest config).getD src

theorem checkedOut_eq : checkedOut native src digest config =
    if (Stats.fromBytes src).willConvertLfToCrlf native digest config then insertCr src else src := by
  rw [checkedOut,convertToWorktree]
  by_cases hnone : src=[] ∨ digest.toEol native config≠some .crLf
  · rw [if_pos hnone,if_neg]
    · rfl
    · rcases hnone with rfl | hne
      · simp [Stats.willConvertLfToCrlf,Stats.fromBytes]
      · simp [Stats.willConvertLfToCrlf,hne]
  · split_ifs <;> rfl

theorem willConvert_iff {s : Stats} : s.willConvertLfToCrlf native digest config=true ↔
    digest.toEol native config=some .crLf ∧ 0 < s.loneLf ∧
      (digest.isAutoText=true → s.isBinary=false ∧ s.loneCr=0 ∧ s.crlf=0) := by
  unfold Stats.willConvertLfToCrlf
  split_ifs with heol hlf hauto
  · simp [heol]
  · simp [hlf]
  · simp only [false_iff,not_and]
    intro _ _ h
    simp_all
  · simp only [Bool.and_eq_true,not_and] at hauto
    simp only [true_iff]
    exact ⟨not_not.mp heol,Nat.pos_of_ne_zero hlf,fun h => by simpa [and_assoc] using hauto h⟩

theorem convertToGit_ok {indexObject : Except Unit (Option Bytes)} {options : Options} {written : Option Bytes}
    (h : convertToGit native src digest indexObject options = .ok written) :
    (written=none ∧ (digest = .binary ∨ src=[] ∨ digest.isAutoText=true ∧ (Stats.fromBytes src).isBinary=true)) ∨
      ∃ convert : Bool,(convert=true → 0 < (Stats.fromBytes src).crlf) ∧
        (∀ check,options.roundTripCheck=some check →
          roundTripError native check (Stats.fromBytes src) convert digest options.config=none) ∧
        written=if convert then some (removeCr src) else none := by
  by_cases hnone : digest = .binary ∨ src=[]
  · rw [convertToGit,if_pos hnone] at h
    exact .inl ⟨(ok.inj h).symm,hnone.imp_right .inl⟩
  rw [convertToGit,if_neg hnone] at h
  by_cases hbinary : (digest.isAutoText && (Stats.fromBytes src).isBinary)=true
  · simp only [if_pos hbinary] at h
    exact .inl ⟨(ok.inj h).symm,.inr (.inr (by simpa using hbinary))⟩
  simp only [if_neg hbinary] at h
  split at h
  · cases h
  · rename_i object _
    split at h
    · cases h
    · rename_i hcheck
      refine .inr ⟨0 < (Stats.fromBytes src).crlf && !object.any hasCrlfInIndex,?_,?_,?_⟩
      · intro hconvert
        simpa using (Bool.and_eq_true_iff.mp hconvert).1
      · intro check hsome
        rwa [hsome] at hcheck
      · split_ifs at h with hconvert hcr
        · rw [if_pos hconvert,← filter_eq_removeCr hcr]
          exact (ok.inj h).symm
        · rw [if_pos hconvert]
          exact (ok.inj h).symm
        · rw [if_neg hconvert]
          exact (ok.inj h).symm

/-- A check that does not fail sees the two conversions or none. -/
theorem roundTripError_none {stats : Stats} {convert : Bool} {relaPath : Bytes} (hcrlf : convert=true → 0 < stats.crlf)
    (h : roundTripError native (.fail relaPath) stats convert digest config=none) :
    if convert then stats.loneLf=0 ∧
        ({stats with loneLf := stats.crlf,crlf := 0} : Stats).willConvertLfToCrlf native digest config=true
      else ¬stats.willConvertLfToCrlf native digest config=true := by
  cases convert with
  | false =>
    simp only [roundTripError,Bool.false_eq_true,if_false] at h ⊢
    intro hwill
    have hlf := (willConvert_iff.mp hwill).2.1
    simp only [hwill,if_true] at h
    split_ifs at h with h1 h2
    exact h2 ⟨hlf,trivial⟩
  | true =>
    have hpos := hcrlf rfl
    simp only [roundTripError,if_true] at h ⊢
    split_ifs at h with hwill h1 h2 h1
    · have hlf : stats.loneLf=0 := by
        by_contra hne
        exact h2 ⟨Nat.pos_of_ne_zero hne,rfl⟩
      simpa [hlf] using hwill
    · exact absurd ⟨hpos,rfl⟩ h1

/-- What a check lets pass is restored, unless a CR before a CRLF becomes a part of it. -/
theorem convertToGit_restores_iff (native : Mode) (src : Bytes) (digest : AttributesDigest)
    (indexObject : Except Unit (Option Bytes)) (config : Configuration) (relaPath : Bytes) :
    (∀ written,convertToGit native src digest indexObject ⟨some (.fail relaPath),config⟩ = .ok written →
      checkedOut native (written.getD src) digest config = src) ↔
    digest.isAutoText = true ∨ digest.toEol native config ≠ some .crLf ∨ 0 < (Stats.fromBytes src).loneLf ∨
      ¬[13,13,10] <:+: src := by
  constructor
  · intro h
    by_contra hnot
    simp only [not_or,not_not,Nat.pos_iff_ne_zero] at hnot
    obtain ⟨hauto,heol,hlf,hcr⟩ := hnot
    have hkept : (Stats.fromBytes (removeCr src)).crlf≠0 := fun hzero => (crlf_removeCr src).mp hzero hcr
    have hpos : 0 < (Stats.fromBytes src).crlf := by
      rw [Nat.pos_iff_ne_zero]
      exact fun hzero => hkept (by rwa [removeCr_eq_self hzero])
    have hsome : ¬(digest = .binary ∨ src=[]) := by
      rintro (rfl | rfl)
      · cases heol
      · exact absurd hpos (by decide)
    have hwill : ({Stats.fromBytes src with loneLf := (Stats.fromBytes src).crlf,crlf := 0} : Stats).willConvertLfToCrlf
        native digest config=true := willConvert_iff.mpr ⟨heol,hpos,fun hd => absurd hd hauto⟩
    have hrun : convertToGit native src digest indexObject ⟨some (.fail relaPath),config⟩ = .ok (some (removeCr src)) := by
      have hcr := (loneCr_pos hcr).ne'
      simp [convertToGit,hsome,hauto,roundTripError,hpos,hlf,hwill,hpos.ne',hcr]
    have hrestored := h _ hrun
    have hlength := (insertCr_removeCr hlf).1
    have hle := length_le_insertCr (removeCr src)
    rw [getD_some,checkedOut_eq] at hrestored
    split_ifs at hrestored <;> rw [hrestored] at hlength hle <;> omega
  · intro h written hrun
    rcases convertToGit_ok hrun with ⟨rfl,hnone⟩ | ⟨convert,hpos,hcheck,rfl⟩
    · rw [checkedOut_eq,getD_none,if_neg]
      rw [willConvert_iff]
      rintro ⟨heol,hlf,hauto⟩
      rcases hnone with rfl | rfl | ⟨hdigest,hbinary⟩
      · cases heol
      · exact absurd hlf (by decide)
      · exact absurd hbinary (by simp [hauto hdigest])
    have hdecided := roundTripError_none hpos (hcheck _ rfl)
    cases convert with
    | false => rw [checkedOut_eq,if_neg Bool.false_ne_true,getD_none,if_neg hdecided]
    | true =>
      obtain ⟨hlf,hwill⟩ := hdecided
      obtain ⟨heol,-,hauto⟩ := willConvert_iff.mp hwill
      have hcr : ¬[13,13,10] <:+: src := by
        rcases h with h | h | h | h
        · intro hcr
          have hzero := (hauto h).2.1
          exact absurd (loneCr_pos hcr) (by simpa using hzero)
        · exact absurd heol h
        · omega
        · exact h
      have hcrlf := (crlf_removeCr src).mpr hcr
      have hback := (insertCr_removeCr hlf).2 hcrlf
      have hstats := fromBytes_insertCr (removeCr src)
      rw [hback,hcrlf,Nat.zero_add] at hstats
      have hsame : {Stats.fromBytes src with loneLf := (Stats.fromBytes src).crlf,crlf := 0}=Stats.fromBytes (removeCr src) := by
        rw [hstats,← hcrlf]
      rw [hsame] at hwill
      rw [checkedOut_eq,if_pos rfl,getD_some,hback,if_pos hwill]

theorem two_cr_before_lf_are_not_restored :
    convertToGit .lf [13,13,10] .textCrlf (.ok none) ⟨some (.fail []),⟨.disabled,none⟩⟩ = .ok (some [13,10]) ∧
      checkedOut .lf [13,10] .textCrlf ⟨.disabled,none⟩ = [13,10] := by decide

/-- Without a check a CRLF is converted, unless the index has one or the content is binary. -/
theorem convertToGit_unchecked {indexObject : Option Bytes} (hindex : indexObject.any hasCrlfInIndex=false) :
    convertToGit native src digest (.ok indexObject) ⟨none,config⟩ =
      .ok (if (digest = .binary ∨ src=[]) ∨ (digest.isAutoText && (Stats.fromBytes src).isBinary)=true ∨
        (Stats.fromBytes src).crlf=0 then none else some (removeCr src)) := by
  have hcr : (if (Stats.fromBytes src).loneCr=0 then src.filter (· ≠ 13) else removeCr src)=removeCr src := by
    split_ifs with h
    · exact filter_eq_removeCr h
    · rfl
  rw [convertToGit]
  by_cases hnone : digest = .binary ∨ src=[]
  · rw [if_pos hnone,if_pos (.inl hnone)]
  by_cases hbinary : (digest.isAutoText && (Stats.fromBytes src).isBinary)=true
  · simp only [if_neg hnone,if_pos hbinary,if_pos (Or.inr (Or.inl hbinary))]
  simp only [if_neg hnone,if_neg hbinary,hcr]
  rcases Nat.eq_zero_or_pos (Stats.fromBytes src).crlf with hzero | hpos
  · cases digest.isAutoText <;> simp [hzero]
  · rw [if_neg (not_or.mpr ⟨hnone,not_or.mpr ⟨hbinary,hpos.ne'⟩⟩)]
    cases digest.isAutoText <;> simp [hindex,hpos]

/-- Without a CRLF in it, what is checked out is added as what it was. -/
theorem checkedOut_added (native : Mode) (src : Bytes) (digest : AttributesDigest) (config : Configuration)
    (indexObject : Option Bytes) (hsrc : ¬[13,10] <:+: src) (hindex : indexObject = none ∨ indexObject = some src) :
    (convertToGit native (checkedOut native src digest config) digest (.ok indexObject) ⟨none,config⟩).map
      (·.getD (checkedOut native src digest config)) = .ok src := by
  have hcrlf := (crlf_eq_zero src).mpr hsrc
  have hobject : indexObject.any hasCrlfInIndex=false := by
    rcases hindex with rfl | rfl
    · rfl
    · simp [hasCrlfInIndex,hcrlf]
  rw [checkedOut_eq]
  by_cases hwill : (Stats.fromBytes src).willConvertLfToCrlf native digest config=true
  · obtain ⟨heol,hlf,hauto⟩ := willConvert_iff.mp hwill
    have hstats := fromBytes_insertCr src
    have hsome : ¬(digest = .binary ∨ insertCr src=[]) := by
      rintro (rfl | hnil)
      · cases heol
      · have hle := length_le_insertCr src
        rw [hnil,length_nil,Nat.le_zero,length_eq_zero_iff] at hle
        exact absurd (hle ▸ hlf) (by decide)
    have htext : ¬(digest.isAutoText && (Stats.fromBytes (insertCr src)).isBinary)=true := by
      simp only [Bool.and_eq_true,not_and,hstats]
      intro hd
      simpa [Stats.isBinary] using (hauto hd).1
    have hpos : 0 < (Stats.fromBytes (insertCr src)).crlf := by
      rw [hstats]
      exact Nat.lt_of_lt_of_le hlf (Nat.le_add_left ..)
    rw [if_pos hwill,convertToGit_unchecked hobject,if_neg (not_or.mpr ⟨hsome,not_or.mpr ⟨htext,hpos.ne'⟩⟩),
      removeCr_insertCr,removeCr_eq_self hcrlf]
    rfl
  · rw [if_neg hwill,convertToGit_unchecked hobject,if_pos (.inr (.inr hcrlf))]
    rfl

theorem checkedOut_added_sample : checkedOut .lf [97,10,13] .textCrlf ⟨.disabled,none⟩ = [97,13,10,13] ∧
    (convertToGit .lf (checkedOut .lf [97,10,13] .textCrlf ⟨.disabled,none⟩) .textCrlf (.ok (some [97,10,13]))
      ⟨none,⟨.disabled,none⟩⟩).map (·.getD (checkedOut .lf [97,10,13] .textCrlf ⟨.disabled,none⟩)) = .ok [97,10,13] :=
  ⟨by decide,checkedOut_added .lf [97,10,13] .textCrlf ⟨.disabled,none⟩ (some [97,10,13]) (by decide) (.inr rfl)⟩

end RoundTrip

end Gix.Filter.Eol
