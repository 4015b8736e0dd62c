import Gix.PathComponent

/-! # Where accepted components lead to

No component that is accepted is the directory of the repository. But `.` and `..` are refused only by the
check of the last byte, which needs two of the protections. -/
namespace Gix.PathComponent
open ByteCodec List

/-- A component is entered: `..` leaves the directory, which is not possible above the root. -/
def enter (place : List Bytes) (c : Bytes) : Option (List Bytes) :=
  if c = [] ∨ c = [46] then some place
  else if c = [46,46] then place.casesOn none fun _ above => some above
  else some (c :: place)

/-- Where a path leads to from the root, the last name first. -/
def resolve (path : Bytes) : Option (List Bytes) := (path.splitOn 47).foldlM enter []

def Below (path : Bytes) : Prop := ∃ name place,resolve path = some (name :: place)

def ups (cs : List Bytes) : ℕ := cs.count [46,46]
def downs (cs : List Bytes) : ℕ := cs.countP fun c => c ≠ [46] ∧ c ≠ [46,46]

/-- No beginning goes up more often than down, and the whole goes up less often. -/
def Descends (cs : List Bytes) : Prop := (∀ front,front <+: cs → ups front ≤ downs front) ∧ ups cs < downs cs

/-- The name without a stream, and without dots and spaces at its end. -/
def ntfsName (c : Bytes) : Bytes := (c.takeWhile (· ≠ 58)).rdropWhile fun b => b = 46 || b = 32

/-- `git~1` -/
def gitShortname : Bytes := git++[126,49]

/-- Whether a file system that is protected takes a name for `.git`. -/
def denotesGit (chars : Bytes → List Char) (options : Options) (c : Bytes) : Bool :=
  eqIgnoreAsciiCase c (46 :: git) ||
  options.protectHfs && ((chars c).filter (!ignorable ·)).map Char.toLower = ['.','g','i','t'] ||
  options.protectNtfs && (eqIgnoreAsciiCase (ntfsName c) (46 :: git) || eqIgnoreAsciiCase (ntfsName c) gitShortname)

/-- What `chars()` of `bstr` does with ASCII. -/
def ReadsAscii (chars : Bytes → List Char) : Prop :=
  ∀ l : Bytes,(∀ b ∈ l,b < 128) → chars l = l.map fun b => Char.ofNat b.toNat

variable {chars : Bytes → List Char} {c : Bytes} {mode : Option Mode} {options : Options}

theorem component_ok (h : component chars c mode options = .ok ()) :
    c≠[] ∧ checkSeparators chars c options.protectWindows = .ok () ∧
      (options.protectHfs=true → checkHfs chars c mode = .ok ()) ∧
      (options.protectNtfs=true → checkNtfs c mode options.protectWindows = .ok ()) ∧
      (options.protectHfs=false → options.protectNtfs=false → checkPlain c mode = .ok ()) := by
  obtain ⟨w,f,n⟩ := options
  by_cases hc : c=[]
  · rw [hc] at h
    cases h
  · cases hs : checkSeparators chars c w <;> cases f <;> cases n <;> cases hf : checkHfs chars c mode <;>
      cases hn : checkNtfs c mode w <;> simp_all [component,bind,Except.bind]

/-! ## The directory of the repository -/

theorem isDoneNtfs_trailing {t : Bytes} (ht : ∀ b∈t,(b=46 || b=32)=true) (c : Bytes) :
    isDoneNtfs (t++c.dropWhile (· ≠ 58))=true := by
  induction t with
  | nil =>
    induction c with
    | nil => rfl
    | cons b c ih =>
      by_cases hb : b=58
      · simp [hb,isDoneNtfs]
      · simpa [hb] using ih
  | cons b t ih =>
    rw [forall_mem_cons] at ht
    have hb : b=46 ∨ b=32 := by simpa using ht.1
    rcases hb with rfl | rfl <;> simpa [isDoneNtfs] using ih ht.2

theorem ntfsName_eq {text : Bytes} (h : eqIgnoreAsciiCase (ntfsName c) text=true) :
    startsWithIgnoreCase c text=true ∧ isDoneNtfs (c.drop text.length)=true := by
  have hlen : (ntfsName c).length=text.length := by
    simpa using congrArg length (of_decide_eq_true h)
  have hsplit : c=ntfsName c++((c.takeWhile (· ≠ 58)).rtakeWhile (fun b => b=46 || b=32)++c.dropWhile (· ≠ 58)) := by
    rw [← append_assoc,ntfsName,rdropWhile_append_rtakeWhile,takeWhile_append_dropWhile]
  rw [hsplit,← hlen,startsWithIgnoreCase,drop_left,← hlen]
  exact ⟨by simpa using h,isDoneNtfs_trailing (@mem_rtakeWhile_imp _ _ _) c⟩

theorem isDotGitNtfs_of_name
    (h : eqIgnoreAsciiCase (ntfsName c) (46::git)=true ∨ eqIgnoreAsciiCase (ntfsName c) gitShortname=true) :
    isDotGitNtfs c=true := by
  rw [isDotGitNtfs]
  rcases h with h | h
  · obtain ⟨hstart,hdone⟩ := ntfsName_eq h
    exact (if_pos hstart).trans hdone
  · obtain ⟨hstart,hdone⟩ := ntfsName_eq h
    rw [if_neg ?_]
    · exact (if_pos hstart).trans hdone
    · intro hdot
      cases c with
      | nil => exact Bool.noConfusion hstart
      | cons b c =>
        simp only [startsWithIgnoreCase,eqIgnoreAsciiCase,gitShortname,git,cons_append,length_cons,take_succ_cons,
          map_cons,cons.injEq,Bool.and_eq_true,decide_eq_true_eq] at hstart hdot
        exact absurd (hstart.2.1.symm.trans hdot.2.1) (by decide)

theorem toAsciiLowercase_eq {b x : UInt8} (h : toAsciiLowercase b=x) : b=x ∨ b=x-32 := by
  unfold toAsciiLowercase at h
  split_ifs at h
  · exact .inr (by rw [← h,UInt8.add_sub_cancel])
  · exact .inl h

theorem isDotHfs_of_plain (hchars : ReadsAscii chars) (h : eqIgnoreAsciiCase c (46::git)=true) :
    isDotHfs chars c ['g','i','t']=true := by
  obtain ⟨_,l,rfl,ha,h⟩ := map_eq_cons_iff.mp (of_decide_eq_true h)
  obtain ⟨_,l,rfl,hb,h⟩ := map_eq_cons_iff.mp h
  obtain ⟨_,l,rfl,hd,h⟩ := map_eq_cons_iff.mp h
  obtain ⟨_,l,rfl,he,h⟩ := map_eq_cons_iff.mp h
  obtain rfl := map_eq_nil_iff.mp h
  rcases toAsciiLowercase_eq ha with rfl | rfl
  · rcases toAsciiLowercase_eq hb with rfl | rfl <;> rcases toAsciiLowercase_eq hd with rfl | rfl <;>
      rcases toAsciiLowercase_eq he with rfl | rfl <;> rw [isDotHfs,hchars _ (by decide +kernel)] <;> decide
  · exact absurd ha (by decide)

theorem isDotHfs_of_chars (h : ((chars c).filter (!ignorable ·)).map Char.toLower=['.','g','i','t']) :
    isDotHfs chars c ['g','i','t']=true := by
  obtain ⟨x,_,hl,hx,h⟩ := map_eq_cons_iff.mp h
  have hdot : x = '.' := by
    unfold Char.toLower at hx
    split_ifs at hx with hupper
    · have hval : x.val+32=46 := congrArg Char.val hx
      grind
    · exact hx
  simp [isDotHfs,hl,hdot,h]

theorem not_of_ok {p : Bool} {e : Error} {r : Except Error Unit} (h : (if p then .error e else r) = .ok ()) : p=false := by
  cases p with
  | false => rfl
  | true => cases h

/-- Whatever is protected, nothing that is taken for `.git` is accepted. -/
theorem denotesGit_of_ok (hchars : ReadsAscii chars) (h : component chars c mode options = .ok ()) :
    denotesGit chars options c=false := by
  obtain ⟨-,-,hhfs,hntfs,hplain⟩ := component_ok h
  have hhfs : options.protectHfs=true → isDotHfs chars c ['g','i','t']=false := fun hon => not_of_ok (hhfs hon)
  have hntfs : options.protectNtfs=true → isDotGitNtfs c=false := fun hon => not_of_ok (hntfs hon)
  rw [denotesGit,Bool.eq_false_iff]
  intro hgit
  simp only [Bool.or_eq_true,Bool.and_eq_true,decide_eq_true_eq] at hgit
  rcases hgit with (hgit | ⟨hon,hgit⟩) | ⟨hon,hgit⟩
  · cases hon : options.protectHfs with
    | true => exact absurd (isDotHfs_of_plain hchars hgit) (by simp [hhfs hon])
    | false =>
      cases hon' : options.protectNtfs with
      | true =>
        have hlen : c.length=4 := by simpa [git] using congrArg length (of_decide_eq_true hgit)
        have hdot : isDotGitNtfs c=true := by
          rw [isDotGitNtfs,if_pos (by simpa [startsWithIgnoreCase,hlen,take_of_length_le hlen.le,git] using hgit),drop_of_length_le (by simp [hlen])]
          rfl
        exact absurd hdot (by simp [hntfs hon'])
      | false => exact absurd hgit (by simp [not_of_ok (hplain hon hon')])
  · exact absurd (isDotHfs_of_chars hgit) (by simp [hhfs hon])
  · exact absurd (isDotGitNtfs_of_name hgit) (by simp [hntfs hon])

/-! ## The way down -/

/-- Either all components can be entered, or some beginning leaves the root. -/
def Entered (place cs : List Bytes) : Prop :=
  (∃ place',cs.foldlM enter place = some place' ∧ place'.length+ups cs = place.length+downs cs ∧
    ∀ front,front <+: cs → ups front ≤ place.length+downs front) ∨
  cs.foldlM enter place = none ∧ ∃ front,front <+: cs ∧ place.length+downs front < ups front

/-- What one component does to the place and to both counts. -/
theorem Entered.cons {place place1 cs : List Bytes} {u d : ℕ} (h : Entered place1 cs) (henter : enter place c=some place1)
    (hcount : ∀ l,ups (c::l)=ups l+u ∧ downs (c::l)=downs l+d) (hlen : place1.length+u=place.length+d) :
    Entered place (c::cs) := by
  have hrun : (c::cs).foldlM enter place=cs.foldlM enter place1 := by rw [foldlM_cons,henter]; rfl
  rw [Entered,hrun]
  rcases h with ⟨place',hplace,hbalance,hfronts⟩ | ⟨hnone,front,hfront,hup⟩
  · refine .inl ⟨place',hplace,by rw [(hcount cs).1,(hcount cs).2]; omega,fun front hfront => ?_⟩
    rcases prefix_cons_iff.mp hfront with rfl | ⟨front,rfl,htail⟩
    · simp [ups]
    · have := hfronts front htail
      rw [(hcount front).1,(hcount front).2]
      omega
  · refine .inr ⟨hnone,c::front,cons_prefix_cons.mpr ⟨rfl,hfront⟩,?_⟩
    rw [(hcount front).1,(hcount front).2]
    omega

theorem entered {cs : List Bytes} (h : ∀ c∈cs,c≠[]) (place : List Bytes) : Entered place cs := by
  induction cs generalizing place with
  | nil => exact .inl ⟨place,rfl,rfl,by simp [ups]⟩
  | cons c cs ih =>
    rw [forall_mem_cons] at h
    by_cases hdot : c=[46]
    · exact (ih h.2 place).cons (u := 0) (d := 0) (by simp [enter,hdot]) (fun l => by simp [ups,downs,hdot]) rfl
    by_cases hdots : c=[46,46]
    · cases place with
      | nil => exact .inr ⟨by simp [enter,hdots],[c],by simp,by simp [ups,downs,hdots]⟩
      | cons name place =>
        exact (ih h.2 place).cons (u := 1) (d := 0) (by simp [enter,hdots]) (fun l => by simp [ups,downs,hdots]) rfl
    · exact (ih h.2 (c::place)).cons (u := 0) (d := 1) (by simp [enter,h.1,hdot,hdots])
        (fun l => by simp [ups,downs,hdot,hdots]) rfl

theorem below_iff {cs : List Bytes} (hne : cs≠[]) (h : ∀ c∈cs,47∉c ∧ c≠[]) :
    Below ([47].intercalate cs) ↔ Descends cs := by
  rw [Below,resolve,splitOn_intercalate 47 (fun c hc => (h c hc).1) hne]
  rcases entered (fun c hc => (h c hc).2) [] with ⟨place',hplace,hbalance,hfronts⟩ | ⟨hnone,front,hfront,hup⟩
  · rw [hplace]
    simp only [length_nil,Nat.zero_add] at hbalance hfronts
    constructor
    · rintro ⟨name,place,heq⟩
      obtain rfl := Option.some.inj heq
      exact ⟨hfronts,by rw [length_cons] at hbalance; omega⟩
    · rintro ⟨-,hlt⟩
      obtain ⟨name,place,rfl⟩ := exists_cons_of_length_pos (show 0 < place'.length by omega)
      exact ⟨name,place,rfl⟩
  · rw [hnone]
    simp only [length_nil,Nat.zero_add] at hup
    constructor
    · rintro ⟨_,_,heq⟩
      cases heq
    · exact fun hdown => absurd (hdown.1 front hfront) (by omega)

theorem descends_of_names {cs : List Bytes} (hne : cs≠[]) (h : ∀ c∈cs,c≠[46] ∧ c≠[46,46]) : Descends cs := by
  have hups : ∀ front,front <+: cs → ups front=0 := fun front hfront =>
    count_eq_zero.mpr fun hmem => (h _ (hfront.subset hmem)).2 rfl
  refine ⟨fun front hfront => by rw [hups front hfront]; exact Nat.zero_le _,?_⟩
  rw [hups cs (prefix_refl cs),downs,countP_eq_length.mpr (by simpa using h)]
  exact length_pos_iff.mpr hne

theorem plain_of_ok (h : component chars c mode options = .ok ()) : 47∉c ∧ c≠[] := by
  obtain ⟨hne,hseparators,-⟩ := component_ok h
  refine ⟨fun hslash => ?_,hne⟩
  rw [checkSeparators] at hseparators
  split_ifs at hseparators with hon hslashes
  exact hslashes (.inl hslash)

/-- The last byte is checked if both protections are on. -/
theorem name_of_ok (hwindows : options.protectWindows=true) (hntfs : options.protectNtfs=true)
    (h : component chars c mode options = .ok ()) : c≠[46] ∧ c≠[46,46] := by
  obtain ⟨-,-,-,hok,-⟩ := component_ok h
  have hok := hok hntfs
  rw [checkNtfs,hwindows] at hok
  constructor <;> rintro rfl <;> cases hmode : isSymlink mode <;> rw [hmode] at hok <;> exact absurd hok (by decide)

/-- What is accepted never denotes the directory of the repository. A path of such components is below the root
if and only if it goes down more often than up, from its beginning on; so it is if no component is `.` or `..`, which
the protections of Windows and NTFS refuse together. -/
theorem components_below_iff (hchars : ReadsAscii chars) (options : Options) (cs : List (Bytes × Option Mode)) (hne : cs ≠ [])
    (hok : ∀ c ∈ cs,component chars c.1 c.2 options = .ok ()) :
    (∀ c ∈ cs,denotesGit chars options c.1 = false) ∧
      (Below ([47].intercalate (cs.map Prod.fst)) ↔ Descends (cs.map Prod.fst)) ∧
      ((options.protectWindows = true ∧ options.protectNtfs = true ∨ ∀ c ∈ cs,c.1 ≠ [46] ∧ c.1 ≠ [46,46]) →
        Below ([47].intercalate (cs.map Prod.fst))) := by
  have hne' : cs.map Prod.fst≠[] := by simpa using hne
  have hiff := below_iff hne' (forall_mem_map.mpr fun c hc => plain_of_ok (hok c hc))
  refine ⟨fun c hc => denotesGit_of_ok hchars (hok c hc),hiff,fun hcond => hiff.mpr (descends_of_names hne' ?_)⟩
  rw [forall_mem_map]
  intro c hc
  rcases hcond with ⟨hwindows,hntfs⟩ | hnames
  · exact name_of_ok hwindows hntfs (hok c hc)
  · exact hnames c hc

/-- `a/b` with nothing protected, and with everything. -/
theorem components_below_sample : Below ([47].intercalate [[97],[98]]) ∧ ∀ on,
    denotesGit asciiChars ⟨on,on,on⟩ [97] = false ∧ denotesGit asciiChars ⟨on,on,on⟩ [98] = false := by
  have h : ∀ on,_ := fun on => components_below_iff (fun _ _ => rfl : ReadsAscii asciiChars) ⟨on,on,on⟩ [([97],none),([98],none)]
    (by decide) (by cases on <;> decide)
  exact ⟨(h true).2.2 (.inl ⟨rfl,rfl⟩),fun on => ⟨(h on).1 ([97],none) (by decide),(h on).1 ([98],none) (by decide)⟩⟩

theorem component_dots_leave : component asciiChars [46,46] none ⟨false,true,true⟩ = .ok () ∧
    ¬Below ([47].intercalate [[46,46]]) := by
  refine ⟨by decide,?_⟩
  rintro ⟨name,place,hplace⟩
  exact absurd hplace (by rw [show resolve ([47].intercalate [[46,46]])=none by decide]; simp)

end Gix.PathComponent
