import Gix.SortedMerge

/-! # Tree entries and their order

`gix-object/src/tree/mod.rs`: entries are ordered by their names as if the name of a tree
ended in a slash. For names without slashes this is the lexicographic order of the names
with that slash written out. -/
namespace Gix.Tree
open SortedMerge List

abbrev BString := List UInt8

/-- `b'/'` -/
def slash : UInt8 := 47

structure EntryMode where
  value : UInt16
  deriving DecidableEq,Repr

inductive EntryKind | tree | blob | blobExecutable | link | commit
  deriving DecidableEq,Repr

/-- `EntryKind as u16` -/
def EntryKind.mode : EntryKind → EntryMode
  | .tree => ⟨0o040000⟩
  | .blob => ⟨0o100644⟩
  | .blobExecutable => ⟨0o100755⟩
  | .link => ⟨0o120000⟩
  | .commit => ⟨0o160000⟩

namespace EntryMode

def ifmt : UInt16 := 0o170000

def isTree (m : EntryMode) : Bool := m.value &&& ifmt == 0o040000
def isCommit (m : EntryMode) : Bool := m.value &&& ifmt == 0o160000

end EntryMode

/-- `tree::Entry`, and `tree::EntryRef` which borrows it. -/
structure Entry (Id : Type) where
  mode : EntryMode
  filename : BString
  oid : Id
  deriving DecidableEq,Repr

/-- `TreeRefIter`: the entries still to come, any of which may fail to decode. -/
abbrev TreeRefIter (Id : Type) := List (Except Unit (Entry Id))

variable {Id : Type}

/-- The byte behind the common part of two names, a slash where a tree's name ends. -/
def Entry.byteAt (e : Entry Id) (common : ℕ) : Option UInt8 :=
  e.filename[common]? <|> if e.mode.isTree then some slash else none

/-- `Ord::cmp()` of entries. -/
def Entry.cmp (a b : Entry Id) : Ordering :=
  let common := min a.filename.length b.filename.length
  (compare (a.filename.take common) (b.filename.take common)).then
    (compare (a.byteAt common) (b.byteAt common))

/-- The name with the slash of a tree written out. -/
def Entry.key (e : Entry Id) : BString := if e.mode.isTree then e.filename++[slash] else e.filename

/-- Names that can be a component of a path. -/
def ValidName (n : BString) : Prop := n ≠ [] ∧ slash ∉ n

instance (n : BString) : Decidable (ValidName n) := inferInstanceAs (Decidable (_ ∧ _))

theorem compare_cons (b c : UInt8) (x y : BString) :
    compare (b::x) (c::y)=(compare b c).then (compare x y) := by
  simp

theorem then_of_ne {o p : Ordering} (h : o ≠ .eq) : o.then p=o := by
  cases o with
  | lt => rfl
  | eq => exact absurd rfl h
  | gt => rfl

/-- The comparison on bare names, each of which may be that of a tree. -/
theorem cmp_names (s t : Bool) (x y : BString) (hx : slash∉x) (hy : slash∉y) :
    (compare (x.take (min x.length y.length)) (y.take (min x.length y.length))).then
      (compare (x[min x.length y.length]? <|> if s then some slash else none)
        (y[min x.length y.length]? <|> if t then some slash else none)) =
    compare (if s then x++[slash] else x) (if t then y++[slash] else y) := by
  induction x generalizing y with
  | nil =>
    cases y with
    | nil => cases s <;> cases t <;> decide
    | cons c y =>
      have hne : compare slash c ≠ .eq := by
        intro h
        exact hy (by rw [Std.LawfulEqOrd.eq_of_compare h]; exact mem_cons_self)
      have hc : (if t then (c::y)++[slash] else c::y)=c::(if t then y++[slash] else y) := by
        cases t <;> rfl
      rw [hc]
      cases s with
      | false => rfl
      | true =>
        show compare (some slash) (some c)=compare [slash] (c::_)
        rw [compare_cons,then_of_ne hne]
        rfl
  | cons b x ih =>
    have hb : (if s then (b::x)++[slash] else b::x)=b::(if s then x++[slash] else x) := by
      cases s <;> rfl
    rw [hb]
    cases y with
    | nil =>
      have hne : compare b slash ≠ .eq := by
        intro h
        exact hx (by rw [← Std.LawfulEqOrd.eq_of_compare h]; exact mem_cons_self)
      cases t with
      | false => rfl
      | true =>
        show compare (some b) (some slash)=compare (b::_) [slash]
        rw [compare_cons,then_of_ne hne]
        rfl
    | cons c y =>
      have ih := ih y (fun h => hx (mem_cons_of_mem _ h)) (fun h => hy (mem_cons_of_mem _ h))
      have hc : (if t then (c::y)++[slash] else c::y)=c::(if t then y++[slash] else y) := by
        cases t <;> rfl
      rw [hc,compare_cons,← ih]
      simp only [length_cons,Nat.succ_min_succ,take_succ_cons,compare_cons,
        getElem?_cons_succ,Ordering.then_assoc]

theorem Entry.cmp_eq_key {a b : Entry Id} (ha : ValidName a.filename) (hb : ValidName b.filename) :
    a.cmp b=compare a.key b.key :=
  cmp_names a.mode.isTree b.mode.isTree a.filename b.filename ha.2 hb.2

/-- Without slashes in names the key tells the name and whether it is that of a tree. -/
theorem key_inj {s t : Bool} {x y : BString} (hx : slash∉x) (hy : slash∉y)
    (h : (if s then x++[slash] else x)=if t then y++[slash] else y) : s=t ∧ x=y := by
  cases s with
  | false =>
    cases t with
    | false => exact ⟨rfl,h⟩
    | true =>
      exfalso
      apply hx
      have hxy : x=y++[slash] := h
      rw [hxy]
      exact mem_append_right _ mem_cons_self
  | true =>
    cases t with
    | false =>
      exfalso
      apply hy
      have hxy : x++[slash]=y := h
      rw [← hxy]
      exact mem_append_right _ mem_cons_self
    | true => exact ⟨rfl,append_cancel_right h⟩

/-- Trees as git writes them: path components as names, each once, in the order of entries. -/
structure SortedTree (es : List (Entry Id)) : Prop where
  names : ∀ e ∈ es, ValidName e.filename
  unique : (es.map Entry.filename).Nodup
  sorted : es.Pairwise (fun a b => a.cmp b = .lt)

def findName (es : List (Entry Id)) (n : BString) : Option (Entry Id) := es.find? (fun e => e.filename = n)

section Names
variable {l : List (Entry Id)} {n : BString}

variable (hl : SortedTree l)
include hl

theorem SortedTree.key_sorted : Sorted Entry.key l := by
  refine hl.sorted.imp_of_mem ?_
  intro a b ha hb hab
  rwa [← Entry.cmp_eq_key (hl.names a ha) (hl.names b hb)]

theorem SortedTree.eq_of_name {a b : Entry Id} (ha : a∈l) (hb : b∈l)
    (h : a.filename=b.filename) : a=b :=
  inj_on_of_nodup_map hl.unique ha hb h

theorem SortedTree.findName_eq {e : Entry Id} (he : e∈l) (hn : e.filename=n) :
    findName l n=some e := by
  cases hf : findName l n with
  | none => exact absurd hn (by simpa using find?_eq_none.mp hf e he)
  | some x =>
    have hx : x.filename=n := by simpa using find?_some hf
    rw [hl.eq_of_name (mem_of_find?_eq_some hf) he (hx.trans hn.symm)]

/-- Looking for a name as that of a tree or of something else. -/
theorem SortedTree.find_key (hn : ValidName n) (t : Bool) :
    l.find? (fun e => e.key=if t then n++[slash] else n)=(findName l n).filter (fun e => e.mode.isTree=t) := by
  have hkey : ∀ e∈l,e.key=(if t then n++[slash] else n) ↔ e.filename=n ∧ e.mode.isTree=t := by
    intro e he
    constructor
    · intro hk
      obtain ⟨h1,h2⟩ := key_inj (hl.names e he).2 hn.2 hk
      exact ⟨h2,h1⟩
    · rintro ⟨rfl,rfl⟩
      rfl
  cases hf : findName l n with
  | none =>
    rw [Option.filter_none,find?_eq_none]
    intro e he
    have hne : ¬ e.filename=n := by simpa using find?_eq_none.mp hf e he
    simp [hkey e he,hne]
  | some e =>
    have he := mem_of_find?_eq_some hf
    have hname : e.filename=n := by simpa using find?_some hf
    by_cases ht : e.mode.isTree=t
    · cases hfk : l.find? (fun e => e.key=if t then n++[slash] else n) with
      | none =>
        have := find?_eq_none.mp hfk e he
        simp [hkey e he,hname,ht] at this
      | some x =>
        have hx := mem_of_find?_eq_some hfk
        have hxk := (hkey x hx).mp (by simpa using find?_some hfk)
        rw [hl.eq_of_name hx he (hxk.1.trans hname.symm),Option.filter_some,if_pos (by simpa using ht)]
    · have hnone : l.find? (fun e => e.key=if t then n++[slash] else n)=none := by
        rw [find?_eq_none]
        intro x hx
        simp only [decide_eq_true_eq]
        intro hk
        have hxk := (hkey x hx).mp hk
        exact ht (hl.eq_of_name hx he (hxk.1.trans hname.symm) ▸ hxk.2)
      rw [hnone,Option.filter_some,if_neg (by simpa using ht)]

end Names
end Gix.Tree
