import Gix.TopoWalkOrder

/-! # The set and the order of the commits a topological walk yields

With distinct tips and no ends every commit comes after all its children and once only. In
general the walk yields what can be reached from the tips and not from the ends unless a
tip is also an end that nothing leads to, or a tip that something leads to is listed again:
it is then yielded once but its parents wait for it to be yielded as often as it is listed. -/
namespace Gix.Commit
open List

variable {Id : Type}

/-- In an acyclic history a property passes from the children to the parents. -/
theorem History.Acyclic.induction {h : History Id} (ha : h.Acyclic) {P : Id → Prop}
    (step : ∀ p∈h.commits,(∀ c∈h.commits,p∈h.parents c → P c) → P p) :
    ∀ p∈h.commits,P p := by
  have : Finite {c // c∈h.commits} := finite_toSet h.commits
  let r : {c // c∈h.commits} → {c // c∈h.commits} → Prop := fun c p => h.Ancestor c.1 p.1
  have : IsTrans _ r := ⟨fun _ _ _ hab hbc => hab.trans hbc⟩
  have : Std.Irrefl r := ⟨fun c hc => ha c.1 hc⟩
  have hwf := Finite.wellFounded_of_trans_of_irrefl r
  intro p hp
  induction hx : (⟨p,hp⟩ : {c // c∈h.commits}) using hwf.induction generalizing p with
  | _ x ih =>
    subst hx
    apply step p hp
    intro c hc hpc
    exact ih ⟨c,hc⟩ (Relation.TransGen.single hpc) c hc rfl

/-- Some commit that can be reached from `roots` has `c` as its parent. -/
def History.HasChild (h : History Id) (roots : List Id) (c : Id) : Prop :=
  ∃ d, h.ReachableFrom roots d ∧ c ∈ h.parents d

namespace Topo
open PriorityQueue KahnSort Fallible

variable [DecidableEq Id] {HE : Heap GenAndCommitTime Id} {HI : Heap ℤ (Info Id)}
  {h : History Id} {tips ends : List Id} {w : Topo Id HE HI} {log out : List Id} {d : Id → ℤ}

/-- With enough fuel the walk is built and ends, having released commits edge by edge. -/
theorem walk_over (HE : Heap GenAndCommitTime Id) (HI : Heap ℤ (Info Id)) (predicate : Id → Bool) (sorting : Sorting)
    (hr : ∀ r∈tips++ends,r∈h.commits) {fuel : ℕ} (hf : loopBound h (tips++ends) < fuel) :
    ∃ (w : Topo Id HE HI) (log out : List Id) (d : Id → ℤ),
      walk HE HI {builder h tips ends sorting with predicate := predicate} fuel =
        some (((out.filter predicate).map (info h)).map .ok) ∧
      Built h tips ends w log ∧
      KahnSort.Invariant h.parents (skipped w.states) log (heads h log tips) d [] out := by
  obtain ⟨w,log,hbuild,rfl,hb⟩ := build_over HE HI predicate sorting
    (fun t ht => hr t (mem_append_left _ ht)) (fun e he => hr e (mem_append_right _ he)) hf
  have hlen := hb.length_log
  obtain ⟨out,d,hcol,hk⟩ := hb.emitting.collect_over (hb.settled hr) fuel
    (show log.length < fuel+0 by omega) (show log.length < fuel+0 by omega)
  refine ⟨w,log,out,d,?_,hb,by simpa using hk⟩
  simp only [walk,hbuild,hcol,map_map]
  rfl

omit [DecidableEq Id] in
@[simp] theorem map_info_id (h : History Id) (l : List Id) : (l.map (info h)).map Info.id=l := by
  simp [info,Function.comp_def]

/-- Both sortings yield each commit that the predicate accepts at most once, after all such children,
without an error. -/
theorem children_first (HE : Heap GenAndCommitTime Id) (HI : Heap ℤ (Info Id)) (h : History Id)
    (tips : List Id) (ht : ∀ t ∈ tips, t ∈ h.commits) (hnd : tips.Nodup) (predicate : Id → Bool) (sorting : Sorting)
    (fuel : ℕ) (hf : loopBound h tips < fuel) :
    ∃ l : List (Info Id), walk HE HI {builder h tips [] sorting with predicate := predicate} fuel = some (l.map .ok) ∧
      (l.map Info.id).Nodup ∧
      ∀ a p b, l.map Info.id = a++p :: b → (∀ c ∈ b, ¬ h.Ancestor c p) ∧
        ∀ c, h.ReachableFrom tips c → predicate c → p ∈ h.parents c → c ∈ a := by
  have hr : ∀ r∈tips++[], r∈h.commits := by simpa using ht
  obtain ⟨_,log,out,_,hw,hb,hk⟩ := walk_over HE HI predicate sorting hr (by simpa using hf)
  have hnodup : out.Nodup := hk.nodup (hnd.filter _)
  have hlog : ∀ c, c∈log ↔ h.ReachableFrom tips c := by simpa using hb.mem_log
  refine ⟨(out.filter predicate).map (info h),hw,?_⟩
  rw [map_info_id]
  refine ⟨hnodup.filter _,?_⟩
  intro a p b hsplit
  -- the order is that of all commits the walk releases
  obtain ⟨front,back,rfl,rfl,hback⟩ := filter_eq_append_iff.mp hsplit
  obtain ⟨passed,rest,rfl,hpassed,-,rfl⟩ := filter_eq_cons_iff.mp hback
  have hab : front++(passed++p::rest)=(front++passed)++p::rest := by rw [append_assoc]
  constructor
  · intro c hc hanc
    have hmem : c∈rest := (mem_filter.mp hc).1
    have hca := hk.path_before (hb.settled hr).input (hk.mem_log (hb.settled hr).input (by simp [hmem])) hanc _ _ hab
    rw [hab] at hnodup
    exact (nodup_append.mp hnodup).2.2 c hca c (mem_cons_of_mem _ hmem) rfl
  · intro c hc hpred hpc
    have hca := hk.order _ p _ hab c ((hlog c).mpr hc) hpc
    exact mem_filter.mpr ⟨(mem_append.mp hca).resolve_right fun hin => hpassed c hin hpred,hpred⟩

def fork : History ℕ := .ofParents [2,1,0] (fun c => if c = 0 then [] else [0])
  (fun c => (c : ℤ)) (by decide)

theorem children_first_fork :
    ∃ l : List (Info ℕ),
      walk (sorted GenAndCommitTime ℕ) (sorted ℤ (Info ℕ)) {builder fork [0,1,2] [] .topoOrder with predicate := (· ≠ 1)} 7 =
        some (l.map .ok) ∧ (l.map Info.id).Nodup ∧
      ∀ a p b, l.map Info.id = a++p :: b → (∀ c ∈ b, ¬ fork.Ancestor c p) ∧
        ∀ c, fork.ReachableFrom [0,1,2] c → decide (c ≠ 1) → p ∈ fork.parents c → c ∈ a :=
  children_first _ _ fork [0,1,2] (by decide) (by decide) (· ≠ 1) .topoOrder 7 (by decide)

theorem crossed_closed : ∀ c∈[2,1,0],∀ p∈if c=0 then [] else if c=1 then [0] else [0,1],p∈[2,1,0] := by
  decide

/-- The merge 2 has the newer commit 1 as its second parent. -/
def crossed : History ℕ := .ofParents [2,1,0] (fun c => if c = 0 then [] else if c = 1 then [0] else [0,1])
  (fun c => if c = 1 then 5 else (c : ℤ)) crossed_closed

/-- If only first parents are followed, the second parent of a merge can come before the merge. -/
theorem second_parent_first : crossed.Acyclic ∧ crossed.Ancestor 2 1 ∧ ∀ sorting,
    walk (sorted GenAndCommitTime ℕ) (sorted ℤ (Info ℕ)) {builder crossed [1,2] [] sorting with parents := .first} 7 =
      some ([1,2,0].map (fun c => .ok (info crossed c))) := by
  refine ⟨History.acyclic_of_lt fun c p hp => ?_,.single (show 1∈crossed.parents 2 by decide),fun sorting => ?_⟩
  · have hp : p∈if c=0 then [] else if c=1 then [0] else [0,1] := hp
    split_ifs at hp <;> simp at hp <;> omega
  · cases sorting <;> decide +kernel

section YieldedSet

theorem Built.edges_eq_zero_iff (hb : Built h tips ends w log) (c : Id) :
    edges h.parents log c=0 ↔ ¬ h.HasChild (tips++ends) c := by
  rw [edges_eq_zero]
  constructor
  · rintro h0 ⟨d,hd,hc⟩
    exact h0 d ((hb.mem_log d).mpr hd) hc
  · intro hno d hd hc
    exact hno ⟨d,(hb.mem_log d).mp hd,hc⟩

theorem Built.mem_heads (hb : Built h tips ends w log) (c : Id) :
    c∈heads h log tips ↔ c∈tips ∧ ¬ h.HasChild (tips++ends) c := by
  simp [heads,hb.edges_eq_zero_iff]

variable (hb : Built h tips ends w log) (hr : ∀ r ∈ tips++ends, r ∈ h.commits)
  (hk : KahnSort.Invariant h.parents (skipped w.states) log (heads h log tips) d [] out)

include hb hr hk

/-- A tip without a child is yielded as often as it is listed. Anything else is yielded
once, if it is not skipped and all its children were yielded as often as expanded. -/
theorem mem_out (p : Id) : p∈out ↔ (p∈tips ∧ ¬ h.HasChild (tips++ends) p) ∨
    (skipped w.states p=false ∧ h.HasChild (tips++ends) p ∧
      ∀ c,h.ReachableFrom (tips++ends) c → p∈h.parents c → out.count c=log.count c) := by
  have hle : ∀ x,out.count x ≤ log.count x := fun x => by simpa using hk.count_le (hb.settled hr).input x
  have hchild : 1 ≤ edges h.parents log p ↔ h.HasChild (tips++ends) p := by
    have := hb.edges_eq_zero_iff p
    rw [Nat.one_le_iff_ne_zero,ne_eq,this,not_not]
  rw [← count_pos_iff,hk.count_out]
  by_cases hh : p∈heads h log tips
  · have hm := (hb.mem_heads p).mp hh
    simp [hh,hm]
  · have hiff : Released h.parents (skipped w.states) log out p ↔
        (skipped w.states p=false ∧ h.HasChild (tips++ends) p ∧
          ∀ c,h.ReachableFrom (tips++ends) c → p∈h.parents c → out.count c=log.count c) := by
      constructor
      · rintro ⟨hs,h1,h2⟩
        exact ⟨hs,hchild.mp h1,fun c _ hpc => count_eq_of_edges_le hle h2 hpc⟩
      · rintro ⟨hs,h1,h2⟩
        exact ⟨hs,hchild.mpr h1,edges_le_of_count_eq hle (fun c hc hpc => h2 c ((hb.mem_log c).mp hc) hpc)⟩
    have hnh : ¬ (p∈tips ∧ ¬ h.HasChild (tips++ends) p) := fun hm => hh ((hb.mem_heads p).mpr hm)
    by_cases hrel : Released h.parents (skipped w.states) log out p
    · simpa [hh,hrel,hnh] using hiff.mp hrel
    · simpa [hh,hrel,hnh] using mt hiff.mpr hrel

omit hr in
theorem count_out_of_child {p : Id} (hp : h.HasChild (tips++ends) p) : out.count p ≤ 1 := by
  have hh : p∉heads h log tips := fun hm => ((hb.mem_heads p).mp hm).2 hp
  rw [hk.count_out,if_neg hh]
  split <;> omega

/-- Nothing is yielded that cannot be reached from a tip. -/
theorem reachable_of_mem_out (ha : h.Acyclic) : ∀ p∈h.commits,p∈out → h.ReachableFrom tips p := by
  refine ha.induction (P := fun p => p∈out → h.ReachableFrom tips p) ?_
  intro p _ ih hp
  rcases (mem_out hb hr hk p).mp hp with ⟨ht,_⟩ | ⟨_,⟨c,hc,hpc⟩,hall⟩
  · exact .tip ht
  · have hpos := count_pos_iff.mpr ((hb.mem_log c).mpr hc)
    have hcount := hall c hc hpc
    exact (ih c (hc.mem hr) hpc (count_pos_iff.mp (by omega))).parent hpc

/-- Nothing behind an end is yielded if every tip that is an end has a child. -/
theorem not_behind_end (ha : h.Acyclic) (he : ∀ t∈tips,t∈ends → h.HasChild (tips++ends) t) :
    ∀ p∈h.commits,p∈out → ¬ h.ReachableFrom ends p := by
  refine ha.induction (P := fun p => p∈out → ¬ h.ReachableFrom ends p) ?_
  rintro p hpc ih hp ⟨e,hee,hep⟩
  rcases Relation.ReflTransGen.cases_tail hep with rfl | ⟨c,hec,hcp⟩
  · rcases (mem_out hb hr hk p).mp hp with ⟨ht,hno⟩ | ⟨hs,_⟩
    · exact hno (he p ht hee)
    · have hs' : skipped w.states p=true := hb.ends_uninteresting p hee
      simp [hs'] at hs
  · have hcr : h.ReachableFrom (tips++ends) c := ⟨e,mem_append_right _ hee,hec⟩
    rcases (mem_out hb hr hk p).mp hp with ⟨_,hno⟩ | ⟨_,_,hall⟩
    · exact hno ⟨c,hcr,hcp⟩
    · have hpos := count_pos_iff.mpr ((hb.mem_log c).mpr hcr)
      have hcount := hall c hcr hcp
      exact ih c (hcr.mem hr) hcp (count_pos_iff.mp (by omega)) ⟨e,hee,hec⟩

omit hr in
/-- A commit in front of the ends that was yielded was yielded as often as it is expanded,
unless it is a repeated tip with a child. -/
theorem count_out_eq {c : Id} (hm : c∈out) (hc : h.ReachableFrom tips c) (he : c∉ends)
    (hrep : h.HasChild (tips++ends) c → tips.count c ≤ 1) : out.count c=log.count c := by
  have hpos := count_pos_iff.mpr hm
  have hcr : h.ReachableFrom (tips++ends) c := by
    obtain ⟨t,ht,htc⟩ := hc
    exact ⟨t,mem_append_left _ ht,htc⟩
  have hlog := hb.count_log c ((hb.mem_log c).mpr hcr)
  rw [count_append,count_eq_zero_of_not_mem he] at hlog
  by_cases ht : c∈tips
  · rw [if_pos (mem_append_left _ ht)] at hlog
    have htpos := count_pos_iff.mpr ht
    by_cases hch : h.HasChild (tips++ends) c
    · have h1 := count_out_of_child hb hk hch
      have h2 := hrep hch
      omega
    · have h0 := (hb.edges_eq_zero_iff c).mpr hch
      rw [hk.count_out,if_pos ((hb.mem_heads c).mpr ⟨ht,hch⟩),heads,count_filter (by simpa using h0)]
      omega
  · have hch : h.HasChild (tips++ends) c := by
      obtain ⟨t,htm,htc⟩ := hc
      rcases Relation.ReflTransGen.cases_tail htc with rfl | ⟨b,htb,hbc⟩
      · exact absurd htm ht
      · exact ⟨b,⟨t,mem_append_left _ htm,htb⟩,hbc⟩
    rw [if_neg (fun hm => (mem_append.mp hm).elim ht he)] at hlog
    have h1 := count_out_of_child hb hk hch
    omega

/-- Everything in front of the ends is yielded if repeated tips do not hold it back. -/
theorem yielded_of_reachable (ha : h.Acyclic)
    (hrep : ∀ t,2 ≤ tips.count t → h.HasChild (tips++ends) t → ¬ h.ReachableFrom ends t →
      ∀ p∈h.parents t,h.ReachableFrom ends p) :
    ∀ p∈h.commits,h.ReachableFrom tips p → ¬ h.ReachableFrom ends p → p∈out := by
  refine ha.induction (P := fun p => h.ReachableFrom tips p → ¬ h.ReachableFrom ends p → p∈out) ?_
  intro p _ ih hp hne
  apply (mem_out hb hr hk p).mpr
  by_cases hch : h.HasChild (tips++ends) p
  · refine .inr ⟨?_,hch,?_⟩
    · cases hs : skipped w.states p with
      | false => rfl
      | true => exact absurd (hb.scope p hs) hne
    · intro c hc hpc
      have hce : ¬ h.ReachableFrom ends c := fun hce => hne (hce.parent hpc)
      have hct : h.ReachableFrom tips c := by
        obtain ⟨r,hm,hrc⟩ := hc
        rcases mem_append.mp hm with hm | hm
        · exact ⟨r,hm,hrc⟩
        · exact absurd ⟨r,hm,hrc⟩ hce
      refine count_out_eq hb hk (ih c (hc.mem hr) hpc hct hce) hct (fun hm => hce (.tip hm)) ?_
      intro hcc
      by_contra hlt
      exact hne (hrep c (by omega) hcc hce p hpc)
  · refine .inl ⟨?_,hch⟩
    obtain ⟨t,ht,htp⟩ := hp
    rcases Relation.ReflTransGen.cases_tail htp with rfl | ⟨c,htc,hcp⟩
    · exact ht
    · exact absurd ⟨c,⟨t,mem_append_left _ ht,htc⟩,hcp⟩ hch

end YieldedSet

/-- The inputs for which the walk yields what was asked for: a tip that is also an end has
a child among the explored commits, and a tip that is listed more than once, has a child
and is not behind an end has all its parents behind an end. -/
def Separated (h : History Id) (tips ends : List Id) : Prop :=
  (∀ t ∈ tips, t ∈ ends → h.HasChild (tips++ends) t) ∧
    ∀ t, 2 ≤ tips.count t → h.HasChild (tips++ends) t → ¬ h.ReachableFrom ends t →
      ∀ p ∈ h.parents t, h.ReachableFrom ends p

/-- The walk yields the commits reachable from the tips and not from the ends exactly for
separated inputs. -/
theorem yields_requested_iff (HE : Heap GenAndCommitTime Id) (HI : Heap ℤ (Info Id)) (h : History Id)
    (ha : h.Acyclic) (tips ends : List Id) (ht : ∀ t ∈ tips, t ∈ h.commits) (hn : ∀ e ∈ ends, e ∈ h.commits)
    (sorting : Sorting) (fuel : ℕ) (hf : loopBound h (tips++ends) < fuel) :
    ∃ l : List (Info Id), walk HE HI (builder h tips ends sorting) fuel = some (l.map .ok) ∧
      ((∀ c, c ∈ l.map Info.id ↔ h.ReachableFrom tips c ∧ ¬ h.ReachableFrom ends c) ↔
        Separated h tips ends) := by
  have hr : ∀ r∈tips++ends, r∈h.commits := fun r hm => (mem_append.mp hm).elim (ht r) (hn r)
  obtain ⟨_,_,out,_,hw,hb,hk⟩ := walk_over HE HI (fun _ => true) sorting hr hf
  rw [filter_true] at hw
  have hmem : ∀ c∈out, c∈h.commits := fun c hc => (hb.settled hr).commits c (hk.mem_log (hb.settled hr).input hc)
  refine ⟨out.map (info h),hw,?_⟩
  rw [map_info_id]
  constructor
  · intro hset
    constructor
    · -- otherwise the tip is a head and is yielded itself
      intro t htt hte
      by_contra hno
      exact ((hset t).mp ((mem_out hb hr hk t).mpr (.inl ⟨htt,hno⟩))).2 (.tip hte)
    · -- the parent was released by a tip that was yielded once only
      intro t h2 hch hte p hp
      by_contra hpe
      have htt : t∈tips := count_pos_iff.mp (by omega)
      have htr : h.ReachableFrom (tips++ends) t := .tip (mem_append_left _ htt)
      have hpo := (hset p).mpr ⟨(History.ReachableFrom.tip htt).parent hp,hpe⟩
      rcases (mem_out hb hr hk p).mp hpo with ⟨_,hno⟩ | ⟨_,_,hall⟩
      · exact hno ⟨t,htr,hp⟩
      · have h1 := count_out_of_child hb hk hch
        have hlog := hb.count_log t ((hb.mem_log t).mpr htr)
        rw [if_pos (mem_append_left _ htt),count_append] at hlog
        have := hall t htr hp
        omega
  · rintro ⟨he,hrep⟩ c
    constructor
    · intro hc
      exact ⟨reachable_of_mem_out hb hr hk ha c (hmem c hc) hc,not_behind_end hb hr hk ha he c (hmem c hc) hc⟩
    · rintro ⟨hct,hce⟩
      exact yielded_of_reachable hb hr hk ha hrep c (hct.mem ht) hct hce

theorem fork_acyclic : fork.Acyclic := by
  refine History.acyclic_of_lt fun c p hp => ?_
  have hp : p∈if c=0 then [] else [0] := hp
  split_ifs at hp <;> simp at hp
  omega

theorem yields_requested_fork :
    ∃ l : List (Info ℕ),
      walk (sorted GenAndCommitTime ℕ) (sorted ℤ (Info ℕ)) (builder fork [1,2] [0] .dateOrder) 7 =
        some (l.map .ok) ∧
      ((∀ c, c ∈ l.map Info.id ↔ fork.ReachableFrom [1,2] c ∧ ¬ fork.ReachableFrom [0] c) ↔
        Separated fork [1,2] [0]) :=
  yields_requested_iff _ _ fork fork_acyclic [1,2] [0] (by decide) (by decide) .dateOrder 7 (by decide)

theorem row_closed : ∀ c∈[2,1,0],∀ p∈if c=0 then [] else [c-1],p∈[2,1,0] := by
  decide

def row : History ℕ := .ofParents [2,1,0] (fun c => if c = 0 then [] else [c-1])
  (fun c => (c : ℤ)) row_closed

theorem row_acyclic : row.Acyclic := by
  refine History.acyclic_of_lt fun c p hp => ?_
  have hp : p∈if c=0 then [] else [c-1] := hp
  split_ifs at hp <;> simp at hp
  omega

/-- A tip that is an end is yielded all the same, and the parent of a repeated tip with a
child is lost. -/
theorem yields_end_loses_parent :
    (∃ l : List (Info ℕ),
      walk (sorted GenAndCommitTime ℕ) (sorted ℤ (Info ℕ)) (builder row [0] [0] .dateOrder) 6 =
        some (l.map .ok) ∧ 0 ∈ l.map Info.id ∧ row.ReachableFrom [0] 0) ∧
    (∃ l : List (Info ℕ),
      walk (sorted GenAndCommitTime ℕ) (sorted ℤ (Info ℕ)) (builder row [1,1,2] [] .dateOrder) 7 =
        some (l.map .ok) ∧ 0 ∉ l.map Info.id ∧ row.ReachableFrom [1,1,2] 0 ∧ ¬ row.ReachableFrom [] 0) ∧
    row.Acyclic := by
  refine ⟨⟨[info row 0],by decide +kernel,by decide,.tip (by decide)⟩,
    ⟨[info row 2,info row 1],by decide +kernel,by decide,⟨1,by decide,.single ?_⟩,?_⟩,row_acyclic⟩
  · show 0∈row.parents 1
    decide
  · rintro ⟨e,he,_⟩
    simp at he

end Topo
end Gix.Commit
