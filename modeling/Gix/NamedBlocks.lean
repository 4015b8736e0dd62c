import Mathlib

/-! # Lists made of blocks

Blocks whose elements say which block they are from can be told apart in a list of all of them. -/
namespace Gix.NamedBlocks
open List
variable {α β : Type} {f g : β → List α} {l l' : List β}

theorem flatMap_eq_iff (hlen : ∀ b∈l,(f b).length=(g b).length) :
    l.flatMap f=l.flatMap g ↔ ∀ b∈l,f b=g b := by
  induction l with
  | nil => simp
  | cons b l ih =>
    rw [forall_mem_cons] at hlen
    rw [flatMap_cons,flatMap_cons,forall_mem_cons,← ih hlen.2]
    constructor
    · intro h
      exact append_inj h hlen.1
    · rintro ⟨hb,hl⟩
      rw [hb,hl]

theorem flatMap_filter {p : β → Bool} (h : ∀ b∈l,p b=false → f b=[]) : (l.filter p).flatMap f=l.flatMap f := by
  induction l with
  | nil => rfl
  | cons b l ih =>
    rw [forall_mem_cons] at h
    cases hp : p b with
    | true => rw [filter_cons_of_pos hp,flatMap_cons,flatMap_cons,ih h.2]
    | false =>
      rw [filter_cons_of_neg (by simp [hp]),flatMap_cons,h.1 hp]
      exact ih h.2

variable {k : β → ℕ}

/-- The names, each as often as its block has it, tell which blocks there are. -/
theorem filter_of_names (h : l.flatMap (fun b => List.replicate (k b) b)=l'.flatMap fun b => List.replicate (k b) b) :
    l.filter (0 < k ·)=l'.filter (0 < k ·) := by
  have hnil : ∀ (l : List β),∀ b∈l,decide (0 < k b)=false → replicate (k b) b=[] := by
    intro l b _ hb
    simpa using hb
  rw [← flatMap_filter (hnil l),← flatMap_filter (hnil l')] at h
  have hpos : ∀ (l : List β),∀ b∈l.filter (0 < k ·),0 < k b := fun l b hb => by simpa using (mem_filter.mp hb).2
  have hl := hpos l
  have hl' := hpos l'
  generalize l.filter (0 < k ·)=l at h hl
  generalize l'.filter (0 < k ·)=l' at h hl'
  induction l generalizing l' with
  | nil =>
    cases l' with
    | nil => rfl
    | cons b l' =>
      have hb := hl' b mem_cons_self
      simp at h
      omega
  | cons a l ih =>
    have ha := hl a mem_cons_self
    cases l' with
    | nil =>
      simp at h
      omega
    | cons b l' =>
      obtain ⟨n,hn⟩ : ∃ n,k a=n+1 := ⟨k a-1,by omega⟩
      obtain ⟨m,hm⟩ : ∃ m,k b=m+1 := ⟨k b-1,by have := hl' b mem_cons_self; omega⟩
      have hab : a=b := by
        rw [flatMap_cons,flatMap_cons,hn,hm] at h
        exact (cons.inj h).1
      subst hab
      rw [ih (fun b hb => hl b (mem_cons_of_mem a hb)) l' (append_cancel_left h)
        fun b hb => hl' b (mem_cons_of_mem a hb)]

/-- Blocks in one order are the blocks in the other order only if their names read the same from
both ends. -/
theorem flatMap_eq_reverse_iff {name : α → Option β} (hf : ∀ b∈l,(f b).filterMap name=List.replicate (k b) b)
    (hg : ∀ b∈l,(g b).filterMap name=List.replicate (k b) b) (hlen : ∀ b∈l,(f b).length=(g b).length)
    (hnil : ∀ b∈l,k b=0 → f b=[]) :
    l.flatMap f=l.reverse.flatMap g ↔
      (l.filter (0 < k ·)).reverse=l.filter (0 < k ·) ∧ ∀ b∈l,f b=g b := by
  have hfnil : ∀ b∈l,decide (0 < k b)=false → f b=[] := by
    intro b hb hk
    exact hnil b hb (by simpa using hk)
  have hgnil : ∀ b∈l,decide (0 < k b)=false → g b=[] := by
    intro b hb hk
    rw [← length_eq_zero_iff,← hlen b hb,hfnil b hb hk,length_nil]
  have hrev : l.reverse.flatMap g=(l.filter (0 < k ·)).reverse.flatMap g := by
    rw [← filter_reverse,flatMap_filter fun b hb => hgnil b (mem_reverse.mp hb)]
  constructor
  · intro h
    have hnames : l.filter (0 < k ·)=l.reverse.filter (0 < k ·) := by
      refine filter_of_names ?_
      have hmap := congrArg (filterMap name) h
      rw [filterMap_flatMap,filterMap_flatMap,flatMap_congr hf,
        flatMap_congr fun b hb => hg b (mem_reverse.mp hb)] at hmap
      exact hmap
    rw [filter_reverse] at hnames
    refine ⟨hnames.symm,fun b hb => ?_⟩
    rw [hrev,← hnames,← flatMap_filter hfnil,
      flatMap_eq_iff fun b hb => hlen b (mem_of_mem_filter hb)] at h
    cases hk : decide (0 < k b) with
    | true => exact h b (mem_filter.mpr ⟨hb,hk⟩)
    | false => rw [hfnil b hb hk,hgnil b hb hk]
  · rintro ⟨hnames,h⟩
    rw [hrev,hnames,← flatMap_filter hfnil]
    exact flatMap_congr fun b hb => h b (mem_of_mem_filter hb)

end Gix.NamedBlocks
