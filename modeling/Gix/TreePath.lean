import Gix.TreeEntry

/-! # Paths in a tree

A path is written as its components with slashes between them. As long as no component is
empty or has a slash itself, the components can be told from the path. -/
namespace Gix.Tree
open List

def rfindByte (p : BString) (b : UInt8) : Option ℕ :=
  (p.reverse.findIdx? (· == b)).map (fun i => p.length-1-i)

def popElement (p : BString) : BString :=
  match rfindByte p slash with
  | some pos => p.take pos
  | none => []

/-- `push_element()` of the recorder in `gix-diff`, `push_path_component()` of the editor. -/
def pushElement (p name : BString) : BString :=
  (if p.isEmpty then p else p++[slash])++name

def join (components : List BString) : BString := components.foldl pushElement []

theorem join_append (P : List BString) (n : BString) : join (P++[n])=pushElement (join P) n := by
  simp [join]

variable {n : BString}

/-- The last slash of a path is the one in front of its last component. -/
theorem rfindByte_pushElement (p : BString) (hn : slash∉n) :
    rfindByte (pushElement p n) slash=if p.isEmpty then none else some p.length := by
  have hfind : ∀ m : BString,slash∉m → ∀ rest,(m++slash::rest).findIdx? (· == slash)=some m.length := by
    intro m hm rest
    induction m with
    | nil => simp [findIdx?_cons]
    | cons b m ih =>
      have hb : b≠slash := fun h => hm (by simp [h])
      have ih := ih (fun h => hm (mem_cons_of_mem _ h))
      simp [findIdx?_cons,hb,ih]
  cases p with
  | nil =>
    have hnone : n.reverse.findIdx? (· == slash)=none := by
      rw [findIdx?_eq_none_iff]
      intro x hx
      simp only [beq_eq_false_iff_ne]
      rintro rfl
      exact hn (mem_reverse.mp hx)
    simp [pushElement,rfindByte,hnone]
  | cons b p =>
    have hrev : (pushElement (b::p) n).reverse=n.reverse++slash::(b::p).reverse := by
      simp [pushElement]
    have hidx := hfind n.reverse (fun h => hn (mem_reverse.mp h)) (b::p).reverse
    have hlen : (pushElement (b::p) n).length-1-n.reverse.length=(b::p).length := by
      simp [pushElement]
      omega
    simp only [rfindByte,hrev,hidx,Option.map_some,hlen]
    simp

theorem popElement_pushElement (p : BString) (hn : slash∉n) :
    popElement (pushElement p n)=p := by
  rw [popElement,rfindByte_pushElement p hn]
  cases p with
  | nil => rfl
  | cons b p => simp [pushElement]

theorem pushElement_inj {p m : BString} (h : pushElement p m=pushElement p n) : m=n :=
  append_cancel_left h

theorem pushElement_ne_nil (p : BString) (hn : n≠[]) : pushElement p n≠[] := by
  simp [pushElement,hn]

/-- Components without slashes can be read off their path. -/
theorem join_inj {P Q : List BString} (hP : ∀ n∈P,ValidName n) (hQ : ∀ n∈Q,ValidName n)
    (h : join P=join Q) : P=Q := by
  induction P using reverseRecOn generalizing Q with
  | nil =>
    rcases eq_nil_or_concat Q with rfl | ⟨Q,m,rfl⟩
    · rfl
    · rw [concat_eq_append] at hQ h
      rw [join_append] at h
      exact absurd h.symm (pushElement_ne_nil _ (hQ m (by simp)).1)
  | append_singleton P n ih =>
    have hn := hP n (by simp)
    rw [join_append] at h
    rcases eq_nil_or_concat Q with rfl | ⟨Q,m,rfl⟩
    · exact absurd h (pushElement_ne_nil _ hn.1)
    · rw [concat_eq_append] at hQ h ⊢
      have hm := hQ m (by simp)
      rw [join_append] at h
      have hpop := congrArg popElement h
      rw [popElement_pushElement _ hn.2,popElement_pushElement _ hm.2] at hpop
      obtain rfl := ih (fun x hx => hP x (by simp [hx])) (fun x hx => hQ x (by simp [hx])) hpop
      rw [pushElement_inj h]

end Gix.Tree
