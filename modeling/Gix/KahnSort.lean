import Mathlib

/-! # Topological order by counting edges

Every element is emitted once all edges into it have been consumed by the elements emitted
before it. The edges are those of a `log`, a list in which an element may occur more than
once and then counts that often. Elements in `skip` are never released by an edge. The
counters start at one plus the number of edges, and an element is released when its
counter comes down to one. -/
namespace Gix.KahnSort
open List Function

variable {α : Type} [DecidableEq α] (succ : α → List α) (skip : α → Bool)

/-- How many edges lead from an occurrence in `l` to `p`. -/
def edges (l : List α) (p : α) : ℕ := (l.map (fun c => (succ c).count p)).sum

/-- Consume one edge to each of `ps`; the second part are the released elements. -/
def release : (α → ℤ) → List α → (α → ℤ) × List α
  | degree, [] => (degree,[])
  | degree, p :: ps =>
    if skip p then release degree ps
    else
      let r := release (Function.update degree p (degree p-1)) ps
      (r.1,if degree p-1 = 1 then p :: r.2 else r.2)

variable {succ skip}

@[simp] theorem edges_nil (p : α) : edges succ [] p=0 := rfl

theorem edges_append (l m : List α) (p : α) : edges succ (l++m) p=edges succ l p+edges succ m p := by
  simp [edges]

@[simp] theorem edges_singleton (c p : α) : edges succ [c] p=(succ c).count p := by simp [edges]

variable {l m ps : List α} {p : α} {c : α} {degree : α → ℤ}

theorem edges_perm (h : l.Perm m) (p : α) : edges succ l p=edges succ m p :=
  (h.map _).sum_eq

theorem edges_eq_zero : edges succ l p=0 ↔ ∀ c∈l,p∉succ c := by
  induction l with
  | nil => simp
  | cons c l ih =>
    have h : edges succ (c::l) p=(succ c).count p+edges succ l p := by simp [edges]
    rw [h,Nat.add_eq_zero_iff,ih,count_eq_zero,forall_mem_cons]

section
variable (hm : ∀ c,m.count c ≤ l.count c)
include hm

/-- If an emitted part has all the edges into `p`, it has all occurrences of their sources. -/
theorem count_eq_of_edges_le (he : edges succ l p ≤ edges succ m p)
    (hp : p∈succ c) : m.count c=l.count c := by
  have hd := subperm_append_diff_self_of_count_le (fun c _ => hm c)
  have h0 : edges succ (l.diff m) p=0 := by
    rw [← edges_perm hd p,edges_append] at he
    omega
  have hc : c∉l.diff m := fun h => edges_eq_zero.mp h0 c h hp
  rw [← hd.count_eq,count_append,count_eq_zero_of_not_mem hc,Nat.add_zero]

theorem edges_le_of_count_eq (heq : ∀ c∈l,p∈succ c → m.count c=l.count c) :
    edges succ l p ≤ edges succ m p := by
  have hd := subperm_append_diff_self_of_count_le (fun c _ => hm c)
  have h0 : edges succ (l.diff m) p=0 := by
    apply edges_eq_zero.mpr
    intro c hc hp
    have h1 := heq c (hd.mem_iff.mp (mem_append_right _ hc)) hp
    have h2 := hd.count_eq c
    have h3 := count_pos_iff.mpr hc
    rw [count_append] at h2
    omega
  rw [← edges_perm hd p,edges_append]
  omega

theorem edges_le_of_count_le (p : α) : edges succ m p ≤ edges succ l p := by
  have hd := subperm_append_diff_self_of_count_le (fun c _ => hm c)
  rw [← edges_perm hd p,edges_append]
  omega

end

theorem release_skip (hp : skip p=true) : (release skip degree ps).1 p=degree p := by
  induction ps generalizing degree with
  | nil => rfl
  | cons q ps ih =>
    by_cases hq : skip q=true
    · simp [release,hq,ih]
    · have hne : p≠q := fun h => hq (h ▸ hp)
      simp [release,hq,ih,update_of_ne hne]

theorem release_degree (hp : skip p=false) :
    (release skip degree ps).1 p=degree p-ps.count p := by
  induction ps generalizing degree with
  | nil => simp [release]
  | cons q ps ih =>
    by_cases hq : skip q=true
    · have hne : q≠p := fun h => by simp [h,hp] at hq
      simp [release,hq,ih,count_cons_of_ne hne]
    · by_cases hne : q=p
      · subst hne
        simp only [release,hq,if_false,ih,update_self,count_cons_self,Bool.false_eq_true]
        omega
      · simp only [release,hq,if_false,ih,update_of_ne (Ne.symm hne),
          count_cons_of_ne hne,Bool.false_eq_true]

/-- An element is released once if its counter passes one on its way down. -/
theorem release_count (p : α) :
    (release skip degree ps).2.count p =
      if skip p=false ∧ 2 ≤ degree p ∧ degree p-ps.count p ≤ 1 then 1 else 0 := by
  induction ps generalizing degree with
  | nil =>
    have h : ¬ (2 ≤ degree p ∧ degree p ≤ 1) := by omega
    simp [release,h]
  | cons q ps ih =>
    by_cases hq : skip q=true
    · simp only [release,hq,if_true,ih]
      by_cases hne : q=p
      · simp [← hne,hq]
      · rw [count_cons_of_ne hne]
    · by_cases hne : q=p
      · subst hne
        simp only [release,hq,if_false,Bool.false_eq_true]
        have hs : skip q=false := by simpa using hq
        have hc : ((q::ps).count q : ℤ)=ps.count q+1 := by simp
        rw [hc]
        by_cases h1 : degree q-1=1
        · have h4 : 2 ≤ degree q ∧ degree q-((ps.count q : ℤ)+1) ≤ 1 := by omega
          simp only [h1,if_true,count_cons_self,ih,h4]
          simp
        · simp only [h1,if_false,ih,update_self,hs,true_and]
          congr 1
          apply propext
          omega
      · have hr : (release skip degree (q::ps)).2.count p =
            (release skip (update degree q (degree q-1)) ps).2.count p := by
          simp only [release,hq,if_false,Bool.false_eq_true]
          split
          · exact count_cons_of_ne hne
          · rfl
        rw [hr,ih,update_of_ne (Ne.symm hne),count_cons_of_ne hne]

variable (succ skip) (log heads : List α)

/-- All edges of the log into an element that some edge leads to have been consumed. -/
def Released (out : List α) (p : α) : Prop :=
  skip p = false ∧ 1 ≤ edges succ log p ∧ edges succ log p ≤ edges succ out p

instance (out : List α) (p : α) : Decidable (Released succ skip log out p) :=
  inferInstanceAs (Decidable (_ ∧ _ ∧ _))

/-- The elements to start with: no edge leads to them. The log is closed under edges. -/
structure Input : Prop where
  head_edges : ∀ p ∈ heads, edges succ log p = 0
  head_count : ∀ p, heads.count p ≤ log.count p
  closed : ∀ c ∈ log, ∀ p ∈ succ c, p ∈ log

/-- What holds between two steps; `ready` are the released elements not yet emitted. -/
structure Invariant (degree : α → ℤ) (ready out : List α) : Prop where
  count_eq : ∀ p, out.count p+ready.count p =
    if p ∈ heads then heads.count p else if Released succ skip log out p then 1 else 0
  degree_eq : ∀ p, skip p = false → p ∉ out → degree p = 1+edges succ log p-edges succ out p
  degree_out : ∀ p ∈ out, degree p ≤ 0
  order : ∀ a p b, out = a++p :: b → ∀ c ∈ log, p ∈ succ c → c ∈ a

variable {succ skip log heads} {degree : α → ℤ} {ready out : List α}

theorem Invariant.initial (hd : ∀ p,skip p=false → degree p=1+edges succ log p)
    (hr : ready.Perm heads) : Invariant succ skip log heads degree ready [] where
  count_eq p := by
    by_cases hp : p∈heads
    · simp [hp,hr.count_eq]
    · have hnot : ¬ Released succ skip log [] p := by
        rintro ⟨_,h1,h2⟩
        simp only [edges_nil] at h2
        omega
      simp [hp,hnot,hr.count_eq,count_eq_zero_of_not_mem hp]
  degree_eq p hs _ := by simpa using hd p hs
  degree_out p hp := by simp at hp
  order a p b h := by simp at h

variable (hin : Input succ log heads)
include hin

variable (hi : Invariant succ skip log heads degree ready out) {x : α}
include hi

theorem Invariant.count_le
    (p : α) :
    out.count p+ready.count p ≤ log.count p := by
  rw [hi.count_eq]
  split
  · exact hin.head_count p
  · split
    next hr =>
      have hne : edges succ log p≠0 := by have := hr.2.1; omega
      obtain ⟨c,hc,hp⟩ : ∃ c∈log,p∈succ c := by
        by_contra hno
        exact hne (edges_eq_zero.mpr (fun c hc hp => hno ⟨c,hc,hp⟩))
      exact count_pos_iff.mpr (hin.closed c hc p hp)
    next => exact Nat.zero_le _

theorem Invariant.mem_log (hx : x∈out) : x∈log := by
  have hle := hi.count_le hin x
  have hpos := count_pos_iff.mpr hx
  exact count_pos_iff.mp (by omega)

/-- An element that is ready has all its predecessors emitted. -/
theorem Invariant.predecessors
    (hx : x∈ready)
    (hc : c∈log) (hp : x∈succ c) : c∈out := by
  have hpos : 1 ≤ out.count x+ready.count x := by
    have := count_pos_iff.mpr hx
    omega
  rw [hi.count_eq] at hpos
  by_cases hh : x∈heads
  · exact absurd hp (edges_eq_zero.mp (hin.head_edges x hh) c hc)
  · have hr : Released succ skip log out x := by
      by_contra hno
      simp [hh,hno] at hpos
    have heq := count_eq_of_edges_le
      (fun d => le_trans (Nat.le_add_right _ _) (hi.count_le hin d)) hr.2.2 hp
    have := count_pos_iff.mpr hc
    exact count_pos_iff.mp (by omega)

theorem Invariant.step
    {rest next : List α}
    (hp : ready.Perm (x::rest))
    (hn : next.Perm ((release skip (Function.update degree x 0) (succ x)).2++rest)) :
    Invariant succ skip log heads (release skip (Function.update degree x 0) (succ x)).1 next (out++[x]) := by
  have hx : x∈ready := hp.mem_iff.mpr mem_cons_self
  have hedges : ∀ p,edges succ (out++[x]) p=edges succ out p+(succ x).count p := by
    intro p
    rw [edges_append,edges_singleton]
  have hle : ∀ p,edges succ (out++[x]) p ≤ edges succ log p := by
    apply edges_le_of_count_le
    intro c
    have h1 := hi.count_le hin c
    have h2 := hp.count_eq c
    rw [count_cons] at h2
    rw [count_append,count_singleton]
    omega
  -- a released element's counter has already come down to one
  have hlow : ∀ p,Released succ skip log out p → update degree x 0 p ≤ 1 := by
    rintro p ⟨hs,h1,h2⟩
    by_cases hpx : p=x
    · simp [hpx]
    · rw [update_of_ne hpx]
      by_cases ho : p∈out
      · have := hi.degree_out p ho
        omega
      · rw [hi.degree_eq p hs ho]
        omega
  refine ⟨?_,?_,?_,?_⟩
  · intro p
    have h1 := hi.count_eq p
    have h2 := hp.count_eq p
    have h3 := hn.count_eq p
    have h4 := hle p
    have hnew : (release skip (update degree x 0) (succ x)).2.count p=_ := release_count p
    rw [count_append] at h3
    rw [count_append,count_singleton]
    rw [count_cons] at h2
    by_cases hh : p∈heads
    · have h0 := hin.head_edges p hh
      have hk : (succ x).count p=0 := by have := hedges p; omega
      rw [if_pos hh] at h1 ⊢
      rw [if_neg (by rw [hk]; omega)] at hnew
      omega
    · rw [if_neg hh] at h1 ⊢
      by_cases hr : Released succ skip log out p
      · have hr' : Released succ skip log (out++[x]) p := ⟨hr.1,hr.2.1,by have := hedges p; have := hr.2.2; omega⟩
        have := hlow p hr
        rw [if_pos hr] at h1
        rw [if_pos hr']
        rw [if_neg (by omega)] at hnew
        omega
      · rw [if_neg hr] at h1
        have hpx : p≠x := by
          rintro rfl
          have := count_pos_iff.mpr hx
          omega
        have ho : p∉out := fun h => by have := count_pos_iff.mpr h; omega
        rw [update_of_ne hpx] at hnew
        have hiff : (skip p=false ∧ 2 ≤ degree p ∧ degree p-(succ x).count p ≤ 1) ↔
            Released succ skip log (out++[x]) p := by
          constructor
          · rintro ⟨hs,hd,hk⟩
            rw [hi.degree_eq p hs ho] at hd hk
            have := hedges p
            exact ⟨hs,by omega,by omega⟩
          · rintro ⟨hs,hd,hk⟩
            have hlt : edges succ out p < edges succ log p := by
              by_contra hge
              exact hr ⟨hs,hd,by omega⟩
            rw [hi.degree_eq p hs ho]
            have := hedges p
            exact ⟨hs,by omega,by omega⟩
        simp only [hiff] at hnew
        omega
  · intro p hs ho
    have hpx : p≠x := fun h => ho (by simp [h])
    have ho' : p∉out := fun h => ho (by simp [h])
    rw [release_degree hs,update_of_ne hpx,hi.degree_eq p hs ho',hedges]
    omega
  · intro p ho
    have hd : update degree x 0 p ≤ 0 := by
      by_cases hpx : p=x
      · simp [hpx]
      · rw [update_of_ne hpx]
        exact hi.degree_out p ((mem_append.mp ho).resolve_right (by simpa using hpx))
    cases hs : skip p with
    | true => rwa [release_skip hs]
    | false =>
      rw [release_degree hs]
      omega
  · intro a p b hab c hc hpc
    rcases eq_nil_or_concat b with rfl | ⟨b,y,rfl⟩
    · obtain ⟨rfl,hxp⟩ := append_inj' hab rfl
      obtain rfl : x=p := by simpa using hxp
      exact hi.predecessors hin hx hc hpc
    · have hab' : out++[x]=(a++p::b)++[y] := by simpa using hab
      exact hi.order a p b (append_inj' hab' rfl).1 c hc hpc

omit hin hi in
/-- What was emitted in the end: the heads, and what all edges into were consumed. -/
theorem Invariant.count_out (hi : Invariant succ skip log heads degree [] out) (p : α) :
    out.count p=if p∈heads then heads.count p else if Released succ skip log out p then 1 else 0 := by
  simpa using hi.count_eq p

omit hin hi in
theorem Invariant.nodup (hh : heads.Nodup) (hi : Invariant succ skip log heads degree [] out) : out.Nodup := by
  apply nodup_iff_count_le_one.mpr
  intro p
  rw [hi.count_out]
  split
  · exact nodup_iff_count_le_one.mp hh p
  · split <;> omega

/-- All that lies on a path to an emitted element was emitted before it. -/
theorem Invariant.path_before
    (hc : c∈log) (hcp : Relation.TransGen (fun x y => y∈succ x) c p) : ∀ a b,out=a++p::b → c∈a := by
  have hlog : ∀ q,Relation.TransGen (fun x y => y∈succ x) c q → q∈log := by
    intro q hq
    induction hq with
    | single h => exact hin.closed c hc _ h
    | tail _ h ih => exact hin.closed _ ih _ h
  induction hcp with
  | single h => exact fun a b hab => hi.order a _ b hab c hc h
  | tail hcq hqp ih =>
    intro a b hab
    obtain ⟨a',b',rfl⟩ := append_of_mem (hi.order a _ b hab _ (hlog _ hcq) hqp)
    exact mem_append_left _ (ih a' (b'++_::b) (by simpa using hab))

theorem Invariant.length_le
    : (out++ready).length ≤ log.length := by
  apply List.Subperm.length_le
  apply subperm_ext_iff.mpr
  intro c _
  rw [count_append]
  exact hi.count_le hin c

end Gix.KahnSort
