import Mathlib

/-! # Worklist searches with a seen-set

A search pops any element of its frontier, yields it, and adds those successors to the
frontier that were not seen before and that a predicate accepts. Nothing is said about
the order in which the frontier is emptied. -/
namespace Gix.Worklist
open List

variable {α : Type} [DecidableEq α]

/-- Mark `ps` as seen from left to right; the second part are the accepted new ones. -/
def discover (accept : α → Bool) : List α → List α → List α × List α
  | seen, [] => (seen,[])
  | seen, p :: ps =>
    if p ∈ seen then discover accept seen ps
    else
      let r := discover accept (p :: seen) ps
      (r.1,if accept p then p :: r.2 else r.2)

variable {accept : α → Bool} {x : α}

theorem mem_discover_seen {seen ps : List α} :
    x∈(discover accept seen ps).1 ↔ x∈seen ∨ x∈ps := by
  induction ps generalizing seen with
  | nil => simp [discover]
  | cons p ps ih =>
    by_cases hp : p∈seen
    · have hx : x=p → x∈seen := fun h => h ▸ hp
      simp only [discover,hp,if_true,ih,mem_cons]
      tauto
    · simp only [discover,hp,if_false,ih,mem_cons]
      tauto

theorem mem_discover_new {seen ps : List α} :
    x∈(discover accept seen ps).2 ↔ x∈ps ∧ x∉seen ∧ accept x=true := by
  induction ps generalizing seen with
  | nil => simp [discover]
  | cons p ps ih =>
    by_cases hx : x=p
    · subst hx
      by_cases hp : x∈seen <;> by_cases ha : accept x=true <;> simp [discover,hp,ha,ih]
    · by_cases hp : p∈seen <;> by_cases ha : accept p=true <;> simp [discover,hp,ha,hx,ih]

theorem nodup_discover_new {seen ps : List α} : (discover accept seen ps).2.Nodup := by
  induction ps generalizing seen with
  | nil => simp [discover]
  | cons p ps ih =>
    by_cases hp : p∈seen
    · simpa [discover,hp] using ih
    · simp only [discover,hp,if_false]
      split
      · exact nodup_cons.mpr ⟨fun hm => (mem_discover_new.mp hm).2.1 mem_cons_self,ih⟩
      · exact ih

variable (accept) (succ : α → List α) (roots : List α)

/-- Steps of the search: to an accepted successor. -/
def Step (x y : α) : Prop := y ∈ succ x ∧ accept y = true

/-- Everything the search has to yield: from an accepted root through accepted elements. -/
def Found (x : α) : Prop := ∃ r ∈ roots, accept r = true ∧ Relation.ReflTransGen (Step accept succ) r x

/-- What holds between two pops. -/
structure Invariant (frontier seen out : List α) : Prop where
  nodup : (out++frontier).Nodup
  seen_of_mem : ∀ x ∈ out++frontier, x ∈ seen
  mem_of_seen : ∀ x ∈ seen, accept x = true → x ∈ out++frontier
  found : ∀ x ∈ out++frontier, Found accept succ roots x
  roots_seen : ∀ x ∈ roots, x ∈ seen
  closed : ∀ x ∈ out, ∀ y ∈ succ x, y ∈ seen

variable {accept succ roots} {frontier seen out : List α}

section
omit [DecidableEq α]

theorem Found.step {y : α} (h : Found accept succ roots x) (hy : y∈succ x) (ha : accept y=true) :
    Found accept succ roots y := by
  obtain ⟨r,hm,hr,hs⟩ := h
  exact ⟨r,hm,hr,hs.tail ⟨hy,ha⟩⟩

/-- Once the frontier is empty, exactly the elements to be found were yielded. -/
theorem Invariant.complete (hi : Invariant accept succ roots [] seen out) (x : α) :
    x∈out ↔ Found accept succ roots x := by
  constructor
  · intro hx
    exact hi.found x (by simpa using hx)
  · rintro ⟨r,hr,ha,hs⟩
    induction hs with
    | refl => simpa using hi.mem_of_seen r (hi.roots_seen r hr) ha
    | tail _ h ih => simpa using hi.mem_of_seen _ (hi.closed _ ih _ h.1) h.2

end

omit [DecidableEq α] in
theorem Invariant.of_perm (hi : Invariant accept succ roots frontier seen out) {frontier' : List α}
    (hperm : frontier'.Perm frontier) : Invariant accept succ roots frontier' seen out := by
  have hmem : ∀ x,x∈out++frontier' ↔ x∈out++frontier := fun x => (hperm.append_left out).mem_iff
  exact ⟨(hperm.append_left out).nodup_iff.mpr hi.nodup,fun x hx => hi.seen_of_mem x ((hmem x).mp hx),
    fun x hx ha => (hmem x).mpr (hi.mem_of_seen x hx ha),fun x hx => hi.found x ((hmem x).mp hx),hi.roots_seen,hi.closed⟩

theorem Invariant.initial :
    Invariant accept succ roots (discover accept [] roots).2 (discover accept [] roots).1 [] where
  nodup := by simpa using nodup_discover_new
  seen_of_mem x hx := by
    have h := mem_discover_new.mp (by simpa using hx)
    exact mem_discover_seen.mpr (.inr h.1)
  mem_of_seen x hx ha := by
    have h := (mem_discover_seen.mp hx).resolve_left (not_mem_nil)
    simpa using mem_discover_new.mpr ⟨h,by simp,ha⟩
  found x hx := by
    have h := mem_discover_new.mp (by simpa using hx)
    exact ⟨x,h.1,h.2.2,.refl⟩
  roots_seen x hx := mem_discover_seen.mpr (.inr hx)
  closed x hx := by simp at hx

/-- Popping any element and discovering its successors keeps the invariant. -/
theorem Invariant.step (hi : Invariant accept succ roots frontier seen out) {rest next : List α}
    (hp : frontier.Perm (x::rest)) (hn : next.Perm ((discover accept seen (succ x)).2++rest)) :
    Invariant accept succ roots next (discover accept seen (succ x)).1 (out++[x]) := by
  have hmem : ∀ y,y∈(out++[x])++next ↔ y∈out++frontier ∨ y∈(discover accept seen (succ x)).2 := by
    simp only [mem_append,hp.mem_iff,hn.mem_iff,mem_cons]
    tauto
  have hx : x∈out++frontier := mem_append_right _ (hp.mem_iff.mpr mem_cons_self)
  constructor
  · have h1 : ((out++[x])++next).Perm ((discover accept seen (succ x)).2++(out++frontier)) := by
      rw [perm_iff_count]
      simp only [count_append,hn.count_eq,hp.count_eq,count_cons,count_nil]
      omega
    refine h1.nodup_iff.mpr (nodup_append.mpr ⟨nodup_discover_new,hi.nodup,?_⟩)
    rintro a ha b hb rfl
    exact (mem_discover_new.mp ha).2.1 (hi.seen_of_mem a hb)
  · intro y hy
    rcases (hmem y).mp hy with hy | hy
    · exact mem_discover_seen.mpr (.inl (hi.seen_of_mem y hy))
    · exact mem_discover_seen.mpr (.inr (mem_discover_new.mp hy).1)
  · intro y hy ha
    apply (hmem y).mpr
    by_cases hs : y∈seen
    · exact .inl (hi.mem_of_seen y hs ha)
    · have hm := (mem_discover_seen.mp hy).resolve_left hs
      exact .inr (mem_discover_new.mpr ⟨hm,hs,ha⟩)
  · intro y hy
    rcases (hmem y).mp hy with hy | hy
    · exact hi.found y hy
    · have hm := mem_discover_new.mp hy
      exact (hi.found x hx).step hm.1 hm.2.2
  · intro y hy
    exact mem_discover_seen.mpr (.inl (hi.roots_seen y hy))
  · intro y hy z hz
    rcases mem_append.mp hy with hy | hy
    · exact mem_discover_seen.mpr (.inl (hi.closed y hy z hz))
    · rw [mem_singleton.mp hy] at hz
      exact mem_discover_seen.mpr (.inr hz)

/-! Roots may also be queued as often as they are listed; `log` are the pops so far. -/
section Repeated
variable (succ roots)

/-- What holds between two pops: beyond the roots only `fresh` elements were queued. -/
structure Walked (fresh frontier seen log : List α) : Prop where
  nodup : fresh.Nodup
  not_root : ∀ x ∈ fresh, x ∉ roots
  perm : (log++frontier).Perm (roots++fresh)
  mem_seen : ∀ x, x ∈ seen ↔ x ∈ roots++fresh
  closed : ∀ x ∈ log, ∀ y ∈ succ x, y ∈ seen
  reach : ∀ x ∈ seen, ∃ r ∈ roots, Relation.ReflTransGen (fun x y => y ∈ succ x) r x

variable {succ roots} {fresh log : List α}

section
omit [DecidableEq α]

theorem Walked.initial (hf : frontier.Perm roots) (hs : ∀ x,x∈seen ↔ x∈roots) :
    Walked succ roots [] frontier seen [] where
  nodup := .nil
  not_root := by simp
  perm := by simpa using hf
  mem_seen := by simpa using hs
  closed := by simp
  reach x hx := ⟨x,(hs x).mp hx,.refl⟩

theorem Walked.mem_log (hw : Walked succ roots fresh [] seen log) (x : α) :
    x∈log ↔ ∃ r∈roots,Relation.ReflTransGen (fun x y => y∈succ x) r x := by
  have hseen : ∀ y,y∈log ↔ y∈seen := by
    intro y
    rw [hw.mem_seen,← hw.perm.mem_iff,append_nil]
  constructor
  · intro hx
    exact hw.reach x ((hseen x).mp hx)
  · rintro ⟨r,hr,hc⟩
    induction hc with
    | refl => exact (hseen r).mpr ((hw.mem_seen r).mpr (mem_append_left _ hr))
    | tail _ hy ih => exact (hseen _).mpr (hw.closed _ ih _ hy)

end

theorem Walked.step (hw : Walked succ roots fresh frontier seen log) {rest next seen' : List α}
    (hp : frontier.Perm (x::rest))
    (hn : next.Perm ((discover (fun _ => true) seen (succ x)).2++rest))
    (hs : ∀ y,y∈seen' ↔ y∈(discover (fun _ => true) seen (succ x)).1) :
    Walked succ roots ((discover (fun _ => true) seen (succ x)).2++fresh) next seen' (log++[x]) := by
  have hx : x∈seen := by
    apply (hw.mem_seen x).mpr
    apply hw.perm.mem_iff.mp
    exact mem_append_right _ (hp.mem_iff.mpr mem_cons_self)
  constructor
  · refine nodup_append.mpr ⟨nodup_discover_new,hw.nodup,?_⟩
    rintro a ha b hb rfl
    exact (mem_discover_new.mp ha).2.1 ((hw.mem_seen a).mpr (mem_append_right _ hb))
  · intro y hy hr
    rcases mem_append.mp hy with hy | hy
    · exact (mem_discover_new.mp hy).2.1 ((hw.mem_seen y).mpr (mem_append_left _ hr))
    · exact hw.not_root y hy hr
  · rw [perm_iff_count]
    intro a
    have h1 := hw.perm.count_eq a
    simp only [count_append,hp.count_eq,hn.count_eq,count_cons,count_nil] at h1 ⊢
    omega
  · intro y
    rw [hs,mem_discover_seen]
    simp only [mem_append,mem_discover_new,hw.mem_seen]
    tauto
  · intro y hy z hz
    rw [hs,mem_discover_seen]
    rcases mem_append.mp hy with hy | hy
    · exact .inl (hw.closed y hy z hz)
    · rw [mem_singleton.mp hy] at hz
      exact .inr hz
  · intro y hy
    rcases mem_discover_seen.mp ((hs y).mp hy) with hy | hy
    · exact hw.reach y hy
    · obtain ⟨r,hr,hc⟩ := hw.reach x hx
      exact ⟨r,hr,hc.tail hy⟩

/-- A root was popped as often as it was listed, everything else once. -/
theorem Walked.count_log (hw : Walked succ roots fresh [] seen log) (hx : x∈log) :
    log.count x=if x∈roots then roots.count x else 1 := by
  have hp : log.Perm (roots++fresh) := by simpa using hw.perm
  rw [hp.count_eq]
  by_cases hr : x∈roots
  · have hf : x∉fresh := fun h => hw.not_root x h hr
    simp [hr,count_eq_zero_of_not_mem hf]
  · have hf : x∈fresh := (mem_append.mp (hp.mem_iff.mp hx)).resolve_left hr
    simp [hr,count_eq_zero_of_not_mem hr,count_eq_one_of_mem hw.nodup hf]

end Repeated

/-- How many pops are still possible: the frontier and what was not seen yet. -/
def potential (all frontier seen : List α) : ℕ :=
  frontier.length+(all.filter (fun x => decide (x ∉ seen))).length

theorem potential_step {all rest next : List α} (hp : frontier.Perm (x::rest))
    (hn : next.Perm ((discover accept seen (succ x)).2++rest)) (hsucc : ∀ y∈succ x,y∈all) :
    potential all next (discover accept seen (succ x)).1 < potential all frontier seen := by
  have hsub : ((discover accept seen (succ x)).2++all.filter (fun y => decide (y∉(discover accept seen (succ x)).1))).Subperm
      (all.filter fun y => decide (y∉seen)) := by
    rw [subperm_ext_iff]
    intro y hy
    rw [count_append]
    by_cases hnew : y∈(discover accept seen (succ x)).2
    · obtain ⟨hy,hs,-⟩ := mem_discover_new.mp hnew
      have hseen : y∈(discover accept seen (succ x)).1 := mem_discover_seen.mpr (.inr hy)
      rw [count_eq_one_of_mem nodup_discover_new hnew,count_eq_zero_of_not_mem (by simp [hseen])]
      exact count_pos_iff.mpr (mem_filter.mpr ⟨hsucc y hy,by simpa using hs⟩)
    · have hleft := of_decide_eq_true (mem_filter.mp ((mem_append.mp hy).resolve_left hnew)).2
      have hs : y∉seen := fun h => hleft (mem_discover_seen.mpr (.inl h))
      refine Nat.le_of_eq ?_
      rw [count_eq_zero_of_not_mem hnew,Nat.zero_add,count_filter (by simpa using hleft),count_filter (by simpa using hs)]
  have hlen := hsub.length_le
  have h1 := hp.length_eq
  have h2 := hn.length_eq
  simp only [length_cons,length_append] at h1 h2 hlen
  unfold potential
  omega

end Gix.Worklist
