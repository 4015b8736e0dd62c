import Gix.ReferenceName
import Gix.RefName
import Gix.TreeEntry

/-! # Enumerating loose references

`gix-ref/src/store/file/loose/iter.rs` walks a directory, siblings sorted by file name, and `overlay_iter.rs`
merges what it yields with that of the common directory and the packed references. The walk compares
components as they are on disk, the merge whole names that may be precomposed. Nothing fails to be read. -/
namespace Gix.LooseRefs
open Gix.Tree SortedMerge ReferenceName List

/-- The files and directories of a directory, in the order of the walk. -/
inductive Dir
  | nil
  | file (name : BString) (rest : Dir)
  | dir (name : BString) (children rest : Dir)

def Dir.names : Dir → List BString
  | .nil => []
  | .file name rest => name :: rest.names
  | .dir name _ rest => name :: rest.names

/-- Siblings are sorted by file name. -/
def Dir.Listed : Dir → Prop
  | .nil => True
  | .file name rest => ValidName name ∧ (∀ m ∈ rest.names, compare name m = .lt) ∧ rest.Listed
  | .dir name children rest =>
    ValidName name ∧ (∀ m ∈ rest.names, compare name m = .lt) ∧ children.Listed ∧ rest.Listed

/-- `walkdir_sorted_new()`: the components of the paths of all files. -/
def walk (path : List BString) : Dir → List (List BString)
  | .nil => []
  | .file name rest => (path++[name]) :: walk path rest
  | .dir name children rest => walk (path++[name]) children++walk path rest

/-- The first name has a slash where the second has a smaller byte, behind the same beginning. -/
def Clash : BString → BString → Prop
  | a :: x, b :: y => a = slash ∧ b < slash ∨ a = b ∧ Clash x y
  | _, _ => False

/-- `SortedLoosePaths::at()` a path below its base. -/
structure SortedLoosePaths where
  precompose : BString → BString
  filenamePrefix : Option BString
  path : List BString
  dir : Dir

namespace SortedLoosePaths
variable (s : SortedLoosePaths)

def fullName (file : List BString) : BString := [slash].intercalate (file.map s.precompose)

/-- The checks of `SortedLoosePaths::next()`. -/
def accepts (file : List BString) : Bool :=
  s.filenamePrefix.all (fun p => p.isPrefixOf ((file.getLast?.map s.precompose).getD [])) &&
    (namePartial (s.fullName file)).isOk

def files : List (List BString) := (walk s.path s.dir).filter s.accepts

/-- What the iterator yields. -/
def names : List BString := s.files.map s.fullName

/-- Siblings are sorted, and no slash is composed. -/
def Listed : Prop := (∀ c ∈ s.path, slash ∉ c) ∧ s.dir.Listed ∧ ∀ c, slash ∉ c → slash ∉ s.precompose c

/-- Of two files the composed components are in the order of the walk and the names do not clash, or neither
is so. -/
def Agrees : Prop := s.files.Pairwise fun f g => Clash (s.fullName g) (s.fullName f) ∨
  compare (f.map s.precompose) (g.map s.precompose) = .lt ∧ ¬Clash (s.fullName f) (s.fullName g)

end SortedLoosePaths

/-- What is left of the iterators; references have a name and a target. -/
structure LooseThenPacked (α : Type) where
  iterGitDir : List (BString × α)
  iterCommonDir : Option (List (BString × α))
  iterPacked : List (BString × α)

inductive IterKind | git | gitAndConsumeCommon | common

def isWorktreePrivate (name : BString) : Bool := (Ref.categoryAndShortName name).any fun r => r.1.isWorktreePrivate

namespace LooseThenPacked
variable {α : Type}

def advanceToNonPrivate (iter : List (BString × α)) : List (BString × α) :=
    iter.dropWhile fun r => isWorktreePrivate r.1

def peekLoose (gitDir : List (BString × α)) : Option (List (BString × α)) → Option (BString × IterKind)
  | none => gitDir.head?.map fun r => (r.1,.git)
  | some commonDir => match gitDir, commonDir with
    | [], [] => none
    | [], c :: _ => some (c.1,.common)
    | g :: _, [] => some (g.1,.git)
    | g :: _, c :: _ => match compare g.1 c.1 with
      | .lt => some (g.1,.git)
      | .eq => some (g.1,.gitAndConsumeCommon)
      | .gt => some (c.1,.common)

/-- `loose_iter(kind).next()` -/
def looseIter (s : LooseThenPacked α) : IterKind → Option ((BString × α) × LooseThenPacked α)
  | .git => s.iterGitDir.head?.map fun r => (r,{s with iterGitDir := s.iterGitDir.tail})
  | .gitAndConsumeCommon => s.iterGitDir.head?.map fun r =>
    (r,{s with iterGitDir := s.iterGitDir.tail, iterCommonDir := s.iterCommonDir.map List.tail})
  | .common => (s.iterCommonDir.bind List.head?).map fun r =>
      (r,{s with iterCommonDir := s.iterCommonDir.map List.tail})

/-- `LooseThenPacked::next()` -/
def next (s : LooseThenPacked α) : Option ((BString × α) × LooseThenPacked α) :=
  let s := {s with iterCommonDir := s.iterCommonDir.map advanceToNonPrivate}
  match peekLoose s.iterGitDir s.iterCommonDir, s.iterPacked with
  | none, [] => none
  | none, p :: packed => some (p,{s with iterPacked := packed})
  | some (_,kind), [] => s.looseIter kind
  | some (name,kind), p :: packed => match compare name p.1 with
    | .lt => s.looseIter kind
    | .eq => {s with iterPacked := packed}.looseIter kind
    | .gt => some (p,{s with iterPacked := packed})

def size (s : LooseThenPacked α) : ℕ := s.iterGitDir.length+(s.iterCommonDir.getD []).length+s.iterPacked.length

def collect : ℕ → LooseThenPacked α → List (BString × α)
  | 0, _ => []
  | n+1, s => match s.next with
    | none => []
    | some (r,s) => r :: collect n s

def all (s : LooseThenPacked α) : List (BString × α) := s.collect s.size

end LooseThenPacked

scoped instance lawfulName : LawfulBEq BString := inferInstance

/-- Names come in ascending order, so that with any packed references each name comes once: with its target
in the git directory if it has one, else with that in the common directory if it is not private to a worktree,
and with the packed one only if there is neither. -/
def InOrder {α : Type} (target commonTarget : BString → α) (names : List BString)
    (common : Option (List BString)) : Prop :=
  Sorted id names ∧ (∀ l ∈ common, Sorted id l) ∧ ∀ packed, Sorted Prod.fst packed → ∀ name,
    (LooseThenPacked.all ⟨names.map (fun n => (n,target n)),common.map (·.map fun n => (n,commonTarget n)),
      packed⟩).filter
        (fun r => r.1 = name) =
      if name ∈ names then [(name,target name)]
      else if name ∈ common.getD [] ∧ !isWorktreePrivate name then [(name,commonTarget name)]
      else (packed.find? (fun r => r.1 = name)).toList

section
variable {x y s t p : BString} {a b : UInt8}

theorem Clash.gt (h : Clash x y) : compare y x = .lt := by
  induction x generalizing y with
  | nil => cases h
  | cons a x ih =>
    cases y with
    | nil => cases h
    | cons b y =>
      rcases h with ⟨rfl,hb⟩ | ⟨rfl,h⟩
      · simp [Std.compare_eq_lt.mpr hb]
      · simpa using ih h

/-- How a name relates to one that comes later in the walk. -/
def Before (x y : BString) : Prop := ¬ Clash y x ∧ (Clash x y ∨ compare x y = .lt)

theorem before_append : Before (p++x) (p++y) ↔ Before x y := by
  induction p with
  | nil => rfl
  | cons c p ih =>
    have hc : ¬ (c=slash ∧ c < slash) := fun h => UInt8.lt_irrefl slash (h.1 ▸ h.2)
    simpa [Before,Clash,hc] using ih

/-- The first name ends where its component does, or goes on with a slash. -/
theorem before_of_lt (hx : slash∉x) (hy : slash∉y) (h : compare x y = .lt) (hs : s=[] ∨ ∃ r,s=slash::r) :
    Before (x++s) (y++t) := by
  induction x generalizing y with
  | nil =>
    cases y with
    | nil => cases h
    | cons b y =>
      have hb : b≠slash := fun heq => hy (by simp [heq])
      rcases hs with rfl | ⟨r,rfl⟩
      · exact ⟨by simp [Clash],.inr rfl⟩
      · refine ⟨by simp [Clash,hb],?_⟩
        rcases UInt8.lt_or_lt_of_ne hb with hlt | hgt
        · exact .inl (.inl ⟨rfl,hlt⟩)
        · exact .inr (by simp [Std.compare_eq_lt.mpr hgt])
  | cons a x ih =>
    cases y with
    | nil => cases h
    | cons b y =>
      by_cases hab : a=b
      · subst hab
        have hlt : Before (x++s) (y++t) := ih (by simp_all) (by simp_all) (by simpa using h)
        exact before_append (p := [a]).mpr hlt
      · have hb : b≠slash := fun heq => hy (by simp [heq])
        refine ⟨by simp [Clash,hb,Ne.symm hab],.inr ?_⟩
        have hne : compare a b ≠ .eq := fun heq => hab (Std.LawfulEqOrd.eq_of_compare heq)
        rw [compare_cons,then_of_ne hne] at h
        rw [cons_append,cons_append,compare_cons,h]
        rfl
end

/-! The order of the walk -/

variable {d : Dir} {path : List BString} {α : Type}

theorem mem_walk {f : List BString} (hd : d.Listed) (h : f∈walk path d) :
    ∃ m∈d.names,∃ t,f=path++m::t ∧ slash∉m ∧ ∀ c∈t,slash∉c := by
  induction d generalizing path with
  | nil => cases h
  | file name rest ih =>
    rcases mem_cons.mp h with rfl | h
    · exact ⟨name,mem_cons_self,[],rfl,hd.1.2,by simp⟩
    · obtain ⟨m,hm,hrest⟩ := ih hd.2.2 h
      exact ⟨m,mem_cons_of_mem _ hm,hrest⟩
  | dir name children rest ihc ih =>
    rcases mem_append.mp h with h | h
    · obtain ⟨m,-,t,rfl,hm,ht⟩ := ihc hd.2.2.1 h
      exact ⟨name,mem_cons_self,m::t,by simp,hd.1.2,forall_mem_cons.mpr ⟨hm,ht⟩⟩
    · obtain ⟨m,hm,hrest⟩ := ih hd.2.2.2 h
      exact ⟨m,mem_cons_of_mem _ hm,hrest⟩

theorem compare_behind {m m' : BString} {t t' : List BString} (h : compare m m' = .lt) :
    compare (path++m::t) (path++m'::t') = .lt := by
  induction path with
  | nil => simp [List.compare_cons_cons,h]
  | cons c path ih => simpa [List.compare_cons_cons] using ih

theorem walk_ascends (hd : d.Listed) : (walk path d).Pairwise (fun f g => compare f g = .lt) := by
  induction d generalizing path with
  | nil => exact .nil
  | file name rest ih =>
    obtain ⟨-,hnames,hrest⟩ := hd
    refine pairwise_cons.mpr ⟨fun g hg => ?_,ih hrest⟩
    obtain ⟨m,hm,t,rfl,-⟩ := mem_walk hrest hg
    exact compare_behind (hnames m hm)
  | dir name children rest ihc ih =>
    obtain ⟨-,hnames,hchildren,hrest⟩ := hd
    refine pairwise_append.mpr ⟨ihc hchildren,ih hrest,fun f hf g hg => ?_⟩
    obtain ⟨m,-,t,rfl,-⟩ := mem_walk hchildren hf
    obtain ⟨m',hm',t',rfl,-⟩ := mem_walk hrest hg
    rw [append_assoc]
    exact compare_behind (hnames m' hm')

theorem intercalate_cons (c : BString) (t : List BString) : ∃ s,[slash].intercalate (c::t)=c++s ∧
    (t=[] ∧ s=[] ∨ t≠[] ∧ s=slash::[slash].intercalate t) := by
  cases t with
  | nil => exact ⟨[],by simp,.inl ⟨rfl,rfl⟩⟩
  | cons d t => exact ⟨slash::[slash].intercalate (d::t),by simp [List.intercalate_cons_cons],.inr ⟨by simp,rfl⟩⟩

/-- Components that ascend make names of which the first one is smaller, or goes on with a slash where the other has
a smaller byte. -/
theorem before_of_components {f g : List BString} (hne : f≠[]) (hf : ∀ c∈f,slash∉c) (hg : ∀ c∈g,slash∉c)
    (h : compare f g = .lt) : Before ([slash].intercalate f) ([slash].intercalate g) := by
  induction f generalizing g with
  | nil => exact absurd rfl hne
  | cons a f ih =>
    cases g with
    | nil => cases h
    | cons b g =>
      rw [forall_mem_cons] at hf hg
      obtain ⟨s,hs,hfirst⟩ := intercalate_cons a f
      obtain ⟨t,ht,hsecond⟩ := intercalate_cons b g
      rw [hs,ht]
      rw [List.compare_cons_cons,Ordering.then_eq_lt] at h
      rcases h with hlt | ⟨heq,hlt⟩
      · refine before_of_lt hf.1 hg.1 hlt (hfirst.imp And.right fun hr => ⟨_,hr.2⟩)
      · obtain rfl := Std.LawfulEqOrd.eq_of_compare heq
        rcases hsecond with ⟨rfl,-⟩ | ⟨-,rfl⟩
        · cases f <;> cases hlt
        refine before_append.mpr ?_
        rcases hfirst with ⟨-,rfl⟩ | ⟨hf0,rfl⟩
        · exact ⟨by simp [Clash],.inr rfl⟩
        · exact before_append (p := [slash]).mpr (ih hf0 hf.2 hg.2 hlt)

theorem lt_iff {f g : List BString} (hf : f≠[]) (hg : g≠[]) (hfplain : ∀ c∈f,slash∉c) (hgplain : ∀ c∈g,slash∉c) :
    compare ([slash].intercalate f) ([slash].intercalate g) = .lt ↔
      Clash ([slash].intercalate g) ([slash].intercalate f) ∨
      compare f g = .lt ∧ ¬Clash ([slash].intercalate f) ([slash].intercalate g) := by
  have hself : ∀ x : BString,compare x x ≠ .lt := fun x => by rw [Std.ReflOrd.compare_self]; decide
  have hclash : ∀ {x y},Clash x y → compare x y ≠ .lt := fun h hlt => hself _ (Std.TransCmp.lt_trans hlt h.gt)
  cases hc : compare f g with
  | lt =>
    obtain ⟨hnot,hor⟩ := before_of_components hf hfplain hgplain hc
    simp only [hnot,true_and,false_or]
    exact ⟨fun hlt h => hclash h hlt,hor.resolve_left⟩
  | eq =>
    obtain rfl := Std.LawfulEqOrd.eq_of_compare hc
    simpa [hself] using fun h => hself _ (Clash.gt h)
  | gt =>
    obtain ⟨-,hor⟩ := before_of_components hg hgplain hfplain (Std.OrientedCmp.gt_iff_lt.mp hc)
    simp only [reduceCtorEq,false_and,or_false]
    exact ⟨fun hlt => hor.resolve_right fun hgt => hself _ (Std.TransCmp.lt_trans hlt hgt),Clash.gt⟩

variable {s : SortedLoosePaths}

theorem SortedLoosePaths.files_ascend (hs : s.Listed) : s.files.Pairwise fun f g => compare f g = .lt :=
  (walk_ascends hs.2.1).filter _

/-- When the names ascend. -/
theorem SortedLoosePaths.names_ascend (hs : s.Listed) : Sorted id s.names ↔ s.Agrees := by
  have hplain : ∀ f∈s.files,f.map s.precompose≠[] ∧ ∀ c∈f.map s.precompose,slash∉c := by
    intro f hf
    obtain ⟨m,-,t,rfl,hm,ht⟩ := mem_walk hs.2.1 (mem_of_mem_filter hf)
    refine ⟨by simp,forall_mem_map.mpr fun c hc => hs.2.2 c ?_⟩
    exact forall_mem_append.mpr ⟨hs.1,forall_mem_cons.mpr ⟨hm,ht⟩⟩ c hc
  rw [Sorted,names,pairwise_map]
  refine Pairwise.iff_of_mem fun hf hg => ?_
  exact lt_iff (hplain _ hf).1 (hplain _ hg).1 (hplain _ hf).2 (hplain _ hg).2

/-! What is merged -/

section Overlay
variable {l r : List (BString × α)} {x y : BString × α}

def pick : Side (BString × α) → BString × α
  | .left l => l
  | .right p => p
  | .both l _ => l

/-- All of the first list, and what only the second one has. -/
def overlay (l r : List (BString × α)) : List (BString × α) := (SortedMerge.merge Prod.fst l r).map pick

@[simp] theorem overlay_nil_left : overlay [] r=r := by
  simp [overlay,SortedMerge.merge,pick,Function.comp_def]

@[simp] theorem overlay_nil_right : overlay l []=l := by
  simp [overlay,merge_nil_right,pick,Function.comp_def]

theorem overlay_lt (h : compare x.1 y.1 = .lt) : overlay (x::l) (y::r)=x::overlay l (y::r) := by
  simp [overlay,SortedMerge.merge,h,pick]

theorem overlay_eq (h : compare x.1 y.1 = .eq) : overlay (x::l) (y::r)=x::overlay l r := by
  simp [overlay,SortedMerge.merge,h,pick]

theorem overlay_gt (h : compare x.1 y.1 = .gt) : overlay (x::l) (y::r)=y::overlay (x::l) r := by
  simp [overlay,SortedMerge.merge,h,pick]

theorem pick_on (side : Side (BString × α)) : (pick side).1=side.on Prod.fst := by
  cases side <;> rfl

theorem overlay_sorted (hl : Sorted Prod.fst l) (hr : Sorted Prod.fst r) : Sorted Prod.fst (overlay l r) := by
  refine pairwise_map.mpr ((merge_sorted hl hr).imp fun h => ?_)
  rwa [pick_on,pick_on]

theorem overlay_filter (hl : Sorted Prod.fst l) (hr : Sorted Prod.fst r) (name : BString) :
    (overlay l r).filter (fun x => x.1=name) =
      ((l.find? (fun x => x.1=name)).or (r.find? (fun x => x.1=name))).toList := by
  rw [overlay,filter_map]
  simp only [Function.comp_def,pick_on,merge_filter hl hr name]
  cases l.find? (fun x => x.1=name) <;> cases r.find? (fun x => x.1=name) <;> rfl

theorem overlay_find (hl : Sorted Prod.fst l) (hr : Sorted Prod.fst r) (name : BString) :
    (overlay l r).find? (fun x => x.1=name)=(l.find? (fun x => x.1=name)).or (r.find? (fun x => x.1=name)) := by
  rw [← head?_filter,overlay_filter hl hr]
  cases (l.find? (fun x => x.1=name)).or (r.find? (fun x => x.1=name)) <;> rfl

end Overlay

namespace LooseThenPacked
variable {s : LooseThenPacked α}

def nonPrivate (l : List (BString × α)) : List (BString × α) := l.filter fun r => !isWorktreePrivate r.1

def loose (s : LooseThenPacked α) : List (BString × α) :=
    overlay s.iterGitDir (nonPrivate (s.iterCommonDir.getD []))

def overlaid (s : LooseThenPacked α) : List (BString × α) := overlay s.loose s.iterPacked

/-- The next of the loose references, if the one of the common directory is not private. -/
theorem looseIter_spec (s : LooseThenPacked α) (hs : ∀ r∈(s.iterCommonDir.getD []).head?,
    isWorktreePrivate r.1=false) :
    (peekLoose s.iterGitDir s.iterCommonDir=none ∧ s.loose=[]) ∨
    ∃ r kind s',peekLoose s.iterGitDir s.iterCommonDir=some (r.1,kind) ∧ s.loose=r::loose s' ∧
      ∀ packed,{s with iterPacked := packed}.looseIter kind=some (r,{s' with iterPacked := packed}) ∧
        size {s' with iterPacked := packed} < size {s with iterPacked := packed} := by
  obtain ⟨git,common,packed⟩ := s
  rcases common with _ | _ | ⟨c,common⟩
  case none | some.nil =>
    cases git with
    | nil => exact .inl ⟨rfl,by simp [loose,nonPrivate]⟩
    | cons g git =>
      exact .inr ⟨g,.git,⟨git,_,packed⟩,rfl,by simp [loose,nonPrivate],fun _ => ⟨rfl,by simp [size]⟩⟩
  case some.cons =>
    have hc : nonPrivate (c::common)=c::nonPrivate common := filter_cons_of_pos (by simp [hs c rfl])
    cases git with
    | nil =>
      exact .inr ⟨c,.common,⟨[],some common,packed⟩,rfl,by simp [loose,hc],fun _ => ⟨rfl,by simp [size]⟩⟩
    | cons g git =>
      cases hcmp : compare g.1 c.1 with
      | lt =>
        exact .inr ⟨g,.git,⟨git,some (c::common),packed⟩,by simp [peekLoose,hcmp],
          by simp [loose,hc,overlay_lt hcmp],fun _ => ⟨rfl,by simp [size]⟩⟩
      | eq =>
        exact .inr ⟨g,.gitAndConsumeCommon,⟨git,some common,packed⟩,by simp [peekLoose,hcmp],
          by simp [loose,hc,overlay_eq hcmp],fun _ => ⟨rfl,by simp [size]; omega⟩⟩
      | gt =>
        exact .inr ⟨c,.common,⟨g::git,some common,packed⟩,by simp [peekLoose,hcmp],
          by simp [loose,hc,overlay_gt hcmp],fun _ => ⟨rfl,by simp [size]⟩⟩

theorem advance_spec (l : List (BString × α)) : nonPrivate (advanceToNonPrivate l)=nonPrivate l ∧
    (advanceToNonPrivate l).length ≤ l.length ∧ ∀ r∈(advanceToNonPrivate l).head?,isWorktreePrivate r.1=false := by
  refine ⟨?_,(dropWhile_suffix _).length_le,fun r hr => ?_⟩
  · have hskip : nonPrivate (l.takeWhile fun r => isWorktreePrivate r.1)=[] :=
      filter_eq_nil_iff.mpr fun r hr => by simpa using mem_takeWhile_imp hr
    rw [← nil_append (nonPrivate (advanceToNonPrivate l)),← hskip,nonPrivate,nonPrivate,nonPrivate,← filter_append,
      advanceToNonPrivate,takeWhile_append_dropWhile]
  · have := head?_dropWhile_not (fun r => isWorktreePrivate r.1) l
    rwa [← advanceToNonPrivate,hr] at this

theorem next_spec (s : LooseThenPacked α) : (s.next=none ∧ s.overlaid=[]) ∨
    ∃ r s',s.next=some (r,s') ∧ s.overlaid=r::s'.overlaid ∧ s'.size < s.size := by
  obtain ⟨git,common,packed⟩ := s
  -- the state after private names were skipped
  obtain ⟨common',hcommon,hsame,hle,hhead⟩ : ∃ common',common.map advanceToNonPrivate=common' ∧
      nonPrivate (common'.getD [])=nonPrivate (common.getD []) ∧ (common'.getD []).length ≤
        (common.getD []).length ∧
      ∀ r∈(common'.getD []).head?,isWorktreePrivate r.1=false := by
    cases common with
    | none => exact ⟨none,rfl,rfl,le_rfl,by simp⟩
    | some l => exact ⟨_,rfl,advance_spec l⟩
  have hloose : ∀ packed,loose ⟨git,common,packed⟩=loose ⟨git,common',packed⟩ := fun _ => by rw [loose,loose,hsame]
  have hsize : ∀ packed,size ⟨git,common',packed⟩ ≤ size ⟨git,common,packed⟩ := fun _ => by simp only [size]; omega
  simp only [next,hcommon,overlaid,hloose]
  rcases looseIter_spec ⟨git,common',packed⟩ hhead with ⟨hpeek,hnil⟩ | ⟨r,kind,s',hpeek,hcons,hiter⟩
  · simp only [hpeek]
    rw [hnil]
    cases packed with
    | nil => exact .inl ⟨rfl,overlay_nil_left⟩
    | cons p packed =>
      refine .inr ⟨p,_,rfl,?_,?_⟩
      · change _=p::overlay (loose ⟨git,common',p::packed⟩) packed
        rw [hnil,overlay_nil_left,overlay_nil_left]
      · have := hsize packed
        simp only [size,length_cons] at this ⊢
        omega
  · simp only [hpeek]
    rw [hcons]
    cases packed with
    | nil => exact .inr ⟨r,_,(hiter []).1,by simp [loose],lt_of_lt_of_le (hiter []).2 (hsize [])⟩
    | cons p packed =>
      cases hcmp : compare r.1 p.1 with
      | lt =>
        refine .inr ⟨r,_,?_,overlay_lt hcmp,lt_of_lt_of_le (hiter (p::packed)).2 (hsize (p::packed))⟩
        simpa only [hcmp] using (hiter (p::packed)).1
      | eq =>
        refine .inr ⟨r,⟨s'.iterGitDir,s'.iterCommonDir,packed⟩,?_,overlay_eq hcmp,?_⟩
        · simpa only [hcmp] using (hiter packed).1
        have := (hiter packed).2
        have := hsize packed
        simp only [size,length_cons] at *
        omega
      | gt =>
        refine .inr ⟨p,⟨git,common',packed⟩,by simp only [hcmp],?_,?_⟩
        · rw [overlay_gt hcmp,← hcons]
          rfl
        · have := hsize packed
          simp only [size,length_cons] at this ⊢
          omega

theorem collect_eq {n : ℕ} (hn : s.size ≤ n) : s.collect n=s.overlaid := by
  induction n generalizing s with
  | zero =>
    rcases next_spec s with ⟨-,hnil⟩ | ⟨_,_,-,-,hlt⟩
    · exact hnil.symm
    · omega
  | succ n ih =>
    rcases next_spec s with ⟨hnext,hnil⟩ | ⟨r,s',hnext,hcons,hlt⟩
    · rw [collect,hnext,hnil]
    · rw [collect,hnext,hcons,← ih (by omega)]

end LooseThenPacked

/-! The result -/

theorem find_target (target : BString → α) (names : List BString) (name : BString) :
    (names.map (fun n => (n,target n))).find? (fun r => r.1=name)=if name∈names then some
      (name,target name) else none := by
  rw [find?_map]
  cases hn : names.find? ((fun r : BString × α => decide (r.1=name)) ∘ fun n => (n,target n)) with
  | none =>
    have hnot : name∉names := fun hmem => by simpa using find?_eq_none.mp hn name hmem
    simp [hnot]
  | some n =>
    obtain rfl : n=name := by simpa using find?_some hn
    simp [mem_of_find?_eq_some hn]

theorem inOrder_iff (target commonTarget : BString → α) (names : List BString) (common : Option (List BString)) :
    InOrder target commonTarget names common ↔ Sorted id names ∧ ∀ l∈common,Sorted id l := by
  refine ⟨fun h => ⟨h.1,h.2.1⟩,fun ⟨hnames,hcommon⟩ => ⟨hnames,hcommon,fun packed hpacked name => ?_⟩⟩
  have hgit : Sorted Prod.fst (names.map (fun n => (n,target n))) := pairwise_map.mpr hnames
  have hshared : LooseThenPacked.nonPrivate ((common.map (·.map fun n => (n,commonTarget n))).getD []) =
      ((common.getD []).filter (fun n => !isWorktreePrivate n)).map fun n => (n,commonTarget n) := by
    cases common with
    | none => rfl
    | some l => simp [LooseThenPacked.nonPrivate,filter_map,Function.comp_def]
  have hrest : Sorted Prod.fst (((common.getD []).filter (fun n => !isWorktreePrivate n)).map fun n =>
    (n,commonTarget n)) := by
    refine pairwise_map.mpr (Pairwise.filter _ ?_)
    cases common with
    | none => exact .nil
    | some l => exact hcommon l rfl
  rw [LooseThenPacked.all,LooseThenPacked.collect_eq le_rfl,LooseThenPacked.overlaid,LooseThenPacked.loose,hshared,
    overlay_filter (overlay_sorted hgit hrest) hpacked,overlay_find hgit hrest,find_target,find_target]
  simp only [mem_filter]
  split_ifs <;> rfl

/-- The directory `a` with the file `b`, and next to it another file. -/
def nested (name : BString) : Dir := .dir [97] (.file [98] .nil) (.file name .nil)

/-- Composes `e` and the accent, and nothing else. -/
def compose (name : BString) : BString := if name = [101,204,129] then [195,169] else name

theorem compose_plain (c : BString) (hc : slash∉c) : slash∉compose c := by
  unfold compose
  split
  · decide
  · exact hc

theorem nested_listed {name : BString} (hname : ValidName name) (h : compare [97] name = .lt) :
    (nested name).Listed :=
  ⟨by decide,by simpa [Dir.names] using h,⟨by decide,by simp [Dir.names],trivial⟩,hname,by simp [Dir.names],trivial⟩

end Gix.LooseRefs
