import Gix.MergeBasePaint

/-! # What is thinned out

The walks from the parents of the results go on to first parents only, as the loop over the
parents of a commit ends with the first one. -/
namespace Gix.Revision
open List GenThenTime
open Gix.Commit (History generationNumberInfinity)

variable {Id : Type} [LinearOrder Id] {h : History Id} {x : Id} {results : List Id}

/-- One step from a commit to its first parent. -/
def FirstParent (h : History Id) (c p : Id) : Prop := (h.parents c).head? = some p

/-- Reached from a parent of one of `results` by first parents. -/
def Covered (h : History Id) (results : List Id) (x : Id) : Prop :=
  ∃ c ∈ results, ∃ p ∈ h.parents c, Relation.ReflTransGen (FirstParent h) p x

omit [LinearOrder Id] in
theorem FirstParent.parent {c p : Id} (hp : FirstParent h c p) : h.Parent c p := mem_of_head? hp

omit [LinearOrder Id] in
theorem Covered.ancestor (hx : Covered h results x) : ∃ c∈results,h.Ancestor c x := by
  obtain ⟨c,hc,p,hp,hpath⟩ := hx
  have hreach : h.Reachable p x := by
    induction hpath with
    | refl => exact .refl
    | tail _ hstep ih => exact ih.tail hstep.parent
  exact ⟨c,hc,Relation.TransGen.head' hp hreach⟩

/-- Not all of some commits are ancestors of others. -/
theorem exists_not_behind (hacyclic : h.Acyclic) (hne : results≠[]) :
    ∃ c∈results,∀ c'∈results,¬h.Ancestor c' c := by
  let r : {c // c∈results} → {c // c∈results} → Prop := fun a b => h.Ancestor a.1 b.1
  have : IsTrans _ r := ⟨fun _ _ _ hab hbc => Relation.TransGen.trans hab hbc⟩
  have : Std.Irrefl r := ⟨fun a => hacyclic a.1⟩
  have hwf := Finite.wellFounded_of_trans_of_irrefl r
  obtain ⟨c,hc⟩ := exists_mem_of_ne_nil results hne
  obtain ⟨m,-,hm⟩ := hwf.has_min Set.univ ⟨⟨c,hc⟩,trivial⟩
  exact ⟨m.1,m.2,fun c' hc' => hm ⟨c',hc'⟩ trivial⟩

/-! Marks -/

section Marks
variable {g : Graph Id Flags} {walkStart : List (Id × GenThenTime)}

/-- The results `done` are marked, and the walks start at `starts`. -/
structure Marked (h : History Id) (results done starts : List Id) (g : Graph Id Flags) (walkStart : List (Id × GenThenTime)) : Prop where
  loaded : Loaded h g
  kept : ∀ c ∈ results, (g.map c).isSome = true
  result : ∀ x, (g.data x).result = decide (x ∈ done)
  stale : ∀ x, (g.data x).stale = true ↔ x ∈ walkStart.map Prod.fst
  starts : ∀ x, x ∈ walkStart.map Prod.fst ↔ x ∈ starts
  present : ∀ x ∈ walkStart.map Prod.fst, (g.map x).isSome = true
  key : ∀ e ∈ walkStart, e.2 = keyOf h e.1

variable {results done starts : List Id}

variable (hm : Marked h results done starts g walkStart)
include hm

theorem Marked.parent (hx : x∈h.commits) :
    Marked h results done (starts++[x]) (g.set x (markWalkStart x (commitOf h g x) walkStart).1) (markWalkStart x (commitOf h g x) walkStart).2 := by
  have hkept : ∀ c (d : Commit Id Flags),(g.map c).isSome=true → ((g.set x d).map c).isSome=true := by
    intro c d hc
    simp [hc]
  unfold markWalkStart
  split
  · rename_i hstale
    have hmem := (hm.stale x).mp hstale
    have hsame := data_touch h g x
    refine ⟨hm.loaded.set hx (g.data x),fun c hc => hkept c _ (hm.kept c hc),?_,?_,?_,fun y hy => hkept y _ (hm.present y hy),hm.key⟩
    · intro y
      rw [hsame,hm.result]
    · intro y
      rw [hsame,hm.stale]
    · intro y
      rw [hm.starts,mem_append,mem_singleton]
      constructor
      · exact .inl
      · rintro (hy | rfl)
        · exact hy
        · exact (hm.starts y).mp hmem
  · refine ⟨hm.loaded.set hx _,fun c hc => hkept c _ (hm.kept c hc),?_,?_,?_,?_,?_⟩
    · intro y
      rw [data_set]
      split
      · rename_i hy
        rw [hy]
        simpa [Flags.STALE] using hm.result x
      · exact hm.result y
    · intro y
      rw [data_set]
      split
      · rename_i hy
        simp [hy,Flags.STALE]
      · rename_i hy
        rw [hm.stale]
        simp [hy]
    · intro y
      rw [map_append,mem_append,hm.starts,mem_append]
      rfl
    · intro y hy
      rw [map_append,mem_append] at hy
      rcases hy with hy | hy
      · exact hkept y _ (hm.present y hy)
      · obtain rfl : y=x := by simpa using hy
        simp
    · intro e he
      rcases mem_append.mp he with he | he
      · exact hm.key e he
      · obtain rfl := mem_singleton.mp he
        rfl

theorem Marked.parents {ids : List Id} (hids : ∀ id∈ids,id∈h.commits) :
    ∃ g' walkStart',forEachCommit (source h) markWalkStart ids g walkStart = .ok (g',walkStart') ∧
      Marked h results done (starts++ids) g' walkStart' := by
  have hdata : ∀ (id : Id) c w,∃ d,(markWalkStart id c w).1={c with data := d} := by
    intro id c w
    unfold markWalkStart
    split
    · exact ⟨c.data,rfl⟩
    · exact ⟨_,rfl⟩
  obtain ⟨g',w',hrun,-,hm'⟩ := forEachCommit_rule (P := fun ids g' w' => Marked h results done (starts++ids) g' w') hids hdata hm.loaded
    (by simpa using hm) (fun done' id g w hid _ hm => by simpa using hm.parent (hids id hid))
  exact ⟨g',w',hrun,hm'⟩

theorem Marked.mark {c : Id} (hc : c∈results) :
    Marked h results (done++[c]) starts (g.set c {commitOf h g c with data := (g.data c).union Flags.RESULT}) walkStart := by
  have hmem := hm.loaded.mem_of_isSome (hm.kept c hc)
  refine ⟨hm.loaded.set hmem _,fun x hx => by simp [hm.kept x hx],?_,?_,hm.starts,fun x hx => by simp [hm.present x hx],hm.key⟩
  · intro x
    rw [data_set]
    split
    · rename_i hx
      simp [hx,Flags.RESULT]
    · rename_i hx
      simp [hm.result,hx]
  · intro x
    rw [data_set]
    split
    · rename_i hx
      rw [hx,← hm.stale]
      simp [Flags.RESULT]
    · exact hm.stale x

omit hm

theorem markResults_spec {commits : List (Id × GenThenTime)} (hcommits : ∀ c∈commits.map Prod.fst,c∈results)
    (hm : Marked h results done starts g walkStart) : ∃ g' walkStart',markResults (source h) commits g walkStart = .ok (g',walkStart') ∧
      Marked h results (done++commits.map Prod.fst) (starts++(commits.map Prod.fst).flatMap h.parents) g' walkStart' := by
  induction commits generalizing g walkStart done starts with
  | nil => exact ⟨g,walkStart,rfl,by simpa using hm⟩
  | cons c commits ih =>
    obtain ⟨hc,hcs⟩ := forall_mem_cons.mp hcommits
    have hpresent := hm.kept c.1 hc
    obtain ⟨_,_,hrun1,hm1⟩ := (hm.mark hc).parents (h.closed c.1 (hm.loaded.mem_of_isSome hpresent))
    obtain ⟨g2,w2,hrun2,hm2⟩ := ih hcs hm1
    refine ⟨g2,w2,?_,by simpa using hm2⟩
    simp only [commitOf] at hrun1
    simp [markResults,hm.loaded.get hpresent,commitOf,hrun1,hrun2]

theorem setStale_eq (hl : Loaded h g) (hx : (g.map x).isSome=true) (stale : Bool) :
    setStale stale x g = .ok (g.set x {commitOf h g x with data := {g.data x with stale := stale}}) := by
  simp [setStale,hl.get hx]

theorem unmarkWalkStart_spec (hl : Loaded h g) (hpresent : ∀ x∈walkStart.map Prod.fst,(g.map x).isSome=true) :
    ∃ g',unmarkWalkStart walkStart g = .ok g' ∧ Loaded h g' ∧ (∀ x,(g.map x).isSome=true → (g'.map x).isSome=true) ∧
      ∀ x,g'.data x=if x∈walkStart.map Prod.fst then {g.data x with stale := false} else g.data x := by
  induction walkStart generalizing g with
  | nil => exact ⟨g,rfl,hl,fun _ => id,by simp⟩
  | cons e walkStart ih =>
    obtain ⟨he,hes⟩ := forall_mem_cons.mp hpresent
    have hl' := hl.set (hl.mem_of_isSome he) {g.data e.1 with stale := false}
    obtain ⟨g',hrun,hload,hkept,hdata⟩ := ih hl' (fun x hx => by simp [hes x hx])
    refine ⟨g',?_,hload,fun x hx => hkept x (by simp [hx]),?_⟩
    · simp only [unmarkWalkStart,setStale_eq hl he]
      exact hrun
    · intro x
      rw [hdata,data_set]
      by_cases hx : x=e.1
      · by_cases hmem : x∈walkStart.map Prod.fst <;> simp [hx]
      · rw [if_neg hx]
        simp only [map_cons,mem_cons,hx,false_or]

end Marks

/-! Walks -/

section Walks
variable {results : List Id} {sorted : List (Id × GenThenTime)} {s s' : Walk Id} {x : Id}

/-- Nothing is lost on the way from one graph to another. -/
structure Grown (g g' : Graph Id Flags) : Prop where
  stale : ∀ x, (g.data x).stale = true → (g'.data x).stale = true
  present : ∀ x, (g.map x).isSome = true → (g'.map x).isSome = true

omit [LinearOrder Id] in
theorem Grown.refl (g : Graph Id Flags) : Grown g g := ⟨fun _ => id,fun _ => id⟩

variable {g : Graph Id Flags} {below : List (Id × GenThenTime)} {e : Id × GenThenTime}

omit [LinearOrder Id] in
theorem Grown.trans {g' g'' : Graph Id Flags} (h1 : Grown g g') (h2 : Grown g' g'') : Grown g g'' :=
  ⟨fun x hx => h2.stale x (h1.stale x hx),fun x hx => h2.present x (h1.present x hx)⟩

theorem Grown.set {c : Commit Id Flags} (hc : (g.data x).stale=true → c.data.stale=true) : Grown g (g.set x c) := by
  constructor
  · intro y hy
    rw [data_set]
    split
    · rename_i hyx
      exact hc (hyx ▸ hy)
    · exact hy
  · intro y hy
    simp [hy]

/-- What holds between the rounds of a walk. -/
structure Walking (h : History Id) (results : List Id) (s : Walk Id) : Prop where
  loaded : Loaded h s.graph
  kept : ∀ c ∈ results, (s.graph.map c).isSome = true
  onStack : ∀ e ∈ s.stack, (s.graph.map e.1).isSome = true ∧ (s.graph.data e.1).stale = true ∧ e.2 = keyOf h e.1
  covered : ∀ x, (s.graph.data x).stale = true → Covered h results x
  closed : ∀ x, (s.graph.data x).stale = true → x ∉ s.stack.map Prod.fst → ∀ p, FirstParent h x p → (s.graph.data p).stale = true
  result : ∀ x, (s.graph.data x).result = true → x ∈ results
  visited : ∀ c ∈ results, (s.graph.data c).result = false → (s.graph.data c).stale = true
  count : s.stillIndependent = results.countP (fun c => (s.graph.data c).result)
  minGen : s.minGen ≤ generationNumberInfinity

theorem stale_visited (h : History Id) (g : Graph Id Flags) (x y : Id) :
    ((g.set x {commitOf h g x with data := {g.data x with result := false}}).data y).stale=(g.data y).stale := by
  rw [data_set]
  split
  · rename_i hy
    rw [hy]
  · rfl

variable (hw : Walking h results s)
include hw

theorem Walking.visit (hnodup : results.Nodup) (hx : (s.graph.map x).isSome=true)
    (hstale : (s.graph.data x).stale=true) (hresult : (s.graph.data x).result=true) :
    Walking h results {s with
      graph := s.graph.set x {commitOf h s.graph x with data := {s.graph.data x with result := false}}
      stillIndependent := s.stillIndependent-1} := by
  have hsame := stale_visited h s.graph x
  refine ⟨hw.loaded.set (hw.loaded.mem_of_isSome hx) _,fun c hc => by simp [hw.kept c hc],?_,?_,?_,?_,?_,?_,hw.minGen⟩
  · intro e he
    obtain ⟨hp,hs,hk⟩ := hw.onStack e he
    exact ⟨by simp [hp],by rw [hsame,hs],hk⟩
  · intro y hy
    rw [hsame] at hy
    exact hw.covered y hy
  · intro y hy hstack p hp
    rw [hsame] at hy ⊢
    exact hw.closed y hy hstack p hp
  · intro y hy
    rw [data_set] at hy
    split at hy
    · simp at hy
    · exact hw.result y hy
  · intro c hc hfalse
    rw [hsame]
    rw [data_set] at hfalse
    split at hfalse
    · rename_i hcx
      rw [hcx,hstale]
    · exact hw.visited c hc hfalse
  · have hperm := perm_cons_erase (hw.result x hresult)
    have hothers : ∀ c∈results.erase x,c≠x := by
      rintro c hc rfl
      exact hnodup.not_mem_erase hc
    have hx1 : results.countP (fun c => (s.graph.data c).result)=(results.erase x).countP (fun c => (s.graph.data c).result)+1 := by
      rw [hperm.countP_eq]
      exact countP_cons_of_pos hresult
    rw [hw.count,hx1,hperm.countP_eq,countP_cons_of_neg (by simp)]
    refine countP_congr fun c hc => ?_
    rw [data_set,if_neg (hothers c hc)]

omit hw [LinearOrder Id] in
theorem advance_le (fuel pos : ℕ) (hsorted : ∀ c∈sorted,generation c.2 ≤ generationNumberInfinity) :
    (sorted[advanceMinGenPos g sorted fuel pos]?.elim 0 (fun c => generation c.2)) ≤ generationNumberInfinity := by
  cases hget : sorted[advanceMinGenPos g sorted fuel pos]? with
  | none => exact Nat.zero_le _
  | some c => exact hsorted c (mem_of_getElem? hget)

/-- A walk is over with one result left, or it goes on with the same commits being stale. -/
theorem visitResult_spec (hnodup : results.Nodup)
    (hsorted : ∀ c∈sorted,generation c.2 ≤ generationNumberInfinity) (hx : (s.graph.map x).isSome=true)
    (hstale : (s.graph.data x).stale=true) :
    (∃ s',visitResult sorted x (commitOf h s.graph x) s = .done s' ∧ Walking h results s' ∧ s'.stillIndependent ≤ 1 ∧
      Grown s.graph s'.graph) ∨
    ∃ s',visitResult sorted x (commitOf h s.graph x) s = .yield s' ∧ Walking h results s' ∧ s'.stack=s.stack ∧
      (∀ y,(s'.graph.data y).stale=(s.graph.data y).stale) ∧ Grown s.graph s'.graph := by
  unfold visitResult
  split
  · rename_i hresult
    have hvisit := hw.visit hnodup hx hstale hresult
    have hsame := stale_visited h s.graph x
    have hgrown : Grown s.graph (s.graph.set x {commitOf h s.graph x with data := {s.graph.data x with result := false}}) :=
      Grown.set fun hs => hs
    dsimp only
    split
    · rename_i hle
      exact .inl ⟨_,rfl,hvisit,hle,hgrown⟩
    · split
      · exact .inr ⟨_,rfl,⟨hvisit.loaded,hvisit.kept,hvisit.onStack,hvisit.covered,hvisit.closed,hvisit.result,hvisit.visited,hvisit.count,
          advance_le _ _ hsorted⟩,rfl,hsame,hgrown⟩
      · exact .inr ⟨_,rfl,hvisit,rfl,hsame,hgrown⟩
  · exact .inr ⟨s,rfl,hw,rfl,fun _ => rfl,.refl _⟩

/-- The top of the stack goes, as its first parent is stale. -/
theorem Walking.pop (hstack : s.stack=e::below)
    (hparent : ∀ p,FirstParent h e.1 p → (s.graph.data p).stale=true) :
    Walking h results {s with stack := below} := by
  refine ⟨hw.loaded,hw.kept,?_,hw.covered,?_,hw.result,hw.visited,hw.count,hw.minGen⟩
  · intro e' he'
    exact hw.onStack e' (by rw [hstack]; exact mem_cons_of_mem _ he')
  · intro y hy hnot p hp
    by_cases hye : y=e.1
    · exact hparent p (hye ▸ hp)
    · exact hw.closed y hy (by simpa [hstack,hye] using hnot) p hp

theorem Walking.touch (hx : x∈h.commits) :
    Walking h results {s with graph := s.graph.set x (commitOf h s.graph x)} := by
  have hsame := data_touch h s.graph x
  refine ⟨hw.loaded.set hx (s.graph.data x),fun c hc => by simp [hw.kept c hc],?_,?_,?_,?_,?_,?_,hw.minGen⟩
  · intro e he
    obtain ⟨h1,h2,h3⟩ := hw.onStack e he
    exact ⟨by simp [h1],by rw [hsame,h2],h3⟩
  all_goals simp only [hsame]
  · exact hw.covered
  · exact hw.closed
  · exact hw.result
  · exact hw.visited
  · exact hw.count

/-- A commit that is marked as stale is put on the stack. -/
theorem Walking.mark {p : Id} {d : Flags} (hp : p∈h.commits) (hcovered : Covered h results p) (hstale : d.stale=true)
    (hflags : d.result=(s.graph.data p).result) :
    Walking h results {s with graph := s.graph.set p {commitOf h s.graph p with data := d},stack := (p,keyOf h p)::s.stack} := by
  have hdata : ∀ y,((s.graph.set p {commitOf h s.graph p with data := d}).data y).stale=(decide (y=p) || (s.graph.data y).stale) := by
    intro y
    by_cases hy : y=p <;> simp [hy,hstale]
  have hresult : ∀ y,((s.graph.set p {commitOf h s.graph p with data := d}).data y).result=(s.graph.data y).result := by
    intro y
    by_cases hy : y=p <;> simp [hy,hflags]
  refine ⟨hw.loaded.set hp _,fun c hc => by simp [hw.kept c hc],?_,?_,?_,?_,?_,?_,hw.minGen⟩
  · intro e' he'
    rcases mem_cons.mp he' with rfl | he'
    · exact ⟨by simp,by rw [hdata]; simp,rfl⟩
    · obtain ⟨h1,h2,h3⟩ := hw.onStack e' he'
      exact ⟨by simp [h1],by rw [hdata,h2,Bool.or_true],h3⟩
  · intro y hy
    rw [hdata,Bool.or_eq_true,decide_eq_true_eq] at hy
    rcases hy with rfl | hy
    · exact hcovered
    · exact hw.covered y hy
  · intro y hy hnot q hq
    rw [hdata,Bool.or_eq_true,decide_eq_true_eq] at hy ⊢
    obtain ⟨hyp,hold⟩ := not_or.mp (mt mem_cons.mpr hnot)
    exact .inr (hw.closed y (hy.resolve_left hyp) hold q hq)
  · intro y hy
    rw [hresult] at hy
    exact hw.result y hy
  · intro c hc hfalse
    rw [hresult] at hfalse
    rw [hdata,hw.visited c hc hfalse,Bool.or_true]
  · simp only [hresult]
    exact hw.count

theorem Walking.push (hstack : s.stack=e::below) {p : Id} (hp : FirstParent h e.1 p) :
    Walking h results {s with
      graph := s.graph.set p {commitOf h s.graph p with data := (s.graph.data p).union Flags.STALE}
      stack := (p,keyOf h p)::s.stack} := by
  have htop : e∈s.stack := by rw [hstack]; exact mem_cons_self
  obtain ⟨hpresent,hstale,-⟩ := hw.onStack e htop
  have hmem := h.closed e.1 (hw.loaded.mem_of_isSome hpresent) p hp.parent
  obtain ⟨c,hc,q,hq,hpath⟩ := hw.covered e.1 hstale
  exact hw.mark hmem ⟨c,hc,q,hq,hpath.tail hp⟩ (by simp [Flags.STALE]) (by simp [Flags.STALE])

def Walk.potential (h : History Id) (s : Walk Id) : ℕ :=
  s.stack.length+2*(h.commits.toFinset.filter (fun x => (s.graph.data x).stale = false)).card

/-- A walk ends with nothing on the stack, or one result left. -/
def Walked (h : History Id) (results : List Id) (s : Walk Id) : Prop := Walking h results s ∧ (s.stack = [] ∨ s.stillIndependent ≤ 1)

theorem pushParents_spec (hstack : s.stack=e::below) :
    ∃ g stack,pushParents (source h) (h.parents e.1) s.graph s.stack = .ok (g,stack) ∧ Grown s.graph g ∧
      Walking h results {s with graph := g,stack := if stack.length=s.stack.length then below else stack} ∧
      Walk.potential h {s with graph := g,stack := if stack.length=s.stack.length then below else stack} < s.potential h := by
  have hlen : s.stack.length=below.length+1 := by rw [hstack,length_cons]
  have htop : e∈s.stack := by rw [hstack]; exact mem_cons_self
  cases hparents : h.parents e.1 with
  | nil =>
    refine ⟨s.graph,s.stack,rfl,.refl _,?_,?_⟩
    · rw [if_pos rfl]
      exact hw.pop hstack (by simp [FirstParent,hparents])
    · simp only [if_true,Walk.potential]
      omega
  | cons p ps =>
    have hp : FirstParent h e.1 p := by rw [FirstParent,hparents]; rfl
    have hmem := h.closed e.1 (hw.loaded.mem_of_isSome (hw.onStack e htop).1) p hp.parent
    have hrun := getOrInsertFullCommit_eq hw.loaded hmem (pushParent p) s.stack
    cases hstale : (s.graph.data p).stale with
    | true =>
      have hpush : pushParent p (commitOf h s.graph p) s.stack=(commitOf h s.graph p,s.stack) := by
        rw [pushParent,commitOf_data,if_pos hstale]
      have hw1 := hw.touch hmem
      refine ⟨s.graph.set p (commitOf h s.graph p),s.stack,by simp [pushParents,hrun,hpush],Grown.set fun hs => hs,?_,?_⟩
      · rw [if_pos rfl]
        refine hw1.pop hstack ?_
        intro q hq
        obtain rfl : p=q := Option.some.inj (hp.symm.trans hq)
        rw [data_touch,hstale]
      · simp only [if_true,Walk.potential,data_touch]
        omega
    | false =>
      have hpush : pushParent p (commitOf h s.graph p) s.stack =
          ({commitOf h s.graph p with data := (s.graph.data p).union Flags.STALE},(p,keyOf h p)::s.stack) := by
        rw [pushParent,commitOf_data,if_neg (by rw [hstale]; exact Bool.false_ne_true)]
        rfl
      have hlonger : ¬((p,keyOf h p)::s.stack).length=s.stack.length := by simp
      refine ⟨s.graph.set p {commitOf h s.graph p with data := (s.graph.data p).union Flags.STALE},(p,keyOf h p)::s.stack,
        by simp [pushParents,hrun,hpush],Grown.set fun hs => by simp [Flags.STALE],?_,?_⟩
      · rw [if_neg hlonger]
        exact hw.push hstack hp
      · have hfewer : (h.commits.toFinset.filter (fun y => ((s.graph.set p {commitOf h s.graph p with
            data := (s.graph.data p).union Flags.STALE}).data y).stale=false)).card <
            (h.commits.toFinset.filter (fun y => (s.graph.data y).stale=false)).card := by
          apply Finset.card_lt_card
          rw [Finset.ssubset_iff_of_subset]
          · refine ⟨p,by simp [hmem,hstale],by simp [Flags.STALE]⟩
          · intro y hy
            rw [Finset.mem_filter] at hy ⊢
            refine ⟨hy.1,?_⟩
            have hstill := hy.2
            rw [data_set] at hstill
            split at hstill
            · simp [Flags.STALE] at hstill
            · exact hstill
        rw [if_neg hlonger]
        unfold Walk.potential
        dsimp only at hfewer ⊢
        rw [length_cons]
        omega

omit hw in
theorem walk_rounds (g : Graph Id Flags) (hnodup : results.Nodup) (hsorted : ∀ c∈sorted,generation c.2 ≤ generationNumberInfinity) :
    StepLoop.Rounds (walkStep (source h) sorted) (fun s => Walking h results s ∧ Grown g s.graph)
      (fun s => Walked h results s ∧ Grown g s.graph) (Walk.potential h) := by
  rintro s ⟨hw,hgrown⟩
  cases hstack : s.stack with
  | nil => exact .inl ⟨s,by simp [walkStep,hstack],⟨hw,.inl hstack⟩,hgrown⟩
  | cons e below =>
    obtain ⟨x,info⟩ := e
    obtain ⟨hpresent,hstale,hkey⟩ := hw.onStack (x,info) (by rw [hstack]; exact mem_cons_self)
    have hgen : info.generation=generationNumberInfinity := by
      rw [show info=keyOf h x from hkey]
      rfl
    rcases visitResult_spec hw hnodup hsorted hpresent hstale with ⟨s1,hvisit,hw1,hle,hg1⟩ | ⟨s1,hvisit,hw1,hst1,hsame,hg1⟩
    · left
      refine ⟨s1,?_,⟨hw1,.inr hle⟩,hgrown.trans hg1⟩
      simp [walkStep,hstack,hw.loaded.get hpresent,hvisit]
    · right
      obtain ⟨_,stack,hrun,hg2,hw2,hlt⟩ := pushParents_spec hw1 (hst1.trans hstack)
      have hpot : s1.potential h=s.potential h := by
        simp [Walk.potential,hst1,hsame]
      refine ⟨_,?_,⟨hw2,(hgrown.trans hg1).trans hg2⟩,hpot ▸ hlt⟩
      have hnot : ¬info.generation < s1.minGen := by
        rw [hgen]
        exact Nat.not_lt.mpr hw1.minGen
      simp only [walkStep,hstack,hw.loaded.get hpresent,hvisit,if_neg hnot]
      simp [commitOf,hrun]

def Walk.started (h : History Id) (e : Id × GenThenTime) (s : Walk Id) : Walk Id :=
  {s with graph := s.graph.set e.1 {commitOf h s.graph e.1 with data := {s.graph.data e.1 with stale := true}}, stack := [e]}

theorem Walking.started (hempty : s.stack=[])
    (hpresent : (s.graph.map e.1).isSome=true) (hstart : ∃ c∈results,e.1∈h.parents c)
    (hkey : e.2=keyOf h e.1) : Walking h results (s.started h e) := by
  obtain ⟨c,hc,hp⟩ := hstart
  have hmark := hw.mark (d := {s.graph.data e.1 with stale := true}) (hw.loaded.mem_of_isSome hpresent) ⟨c,hc,e.1,hp,.refl⟩ rfl rfl
  rw [hempty,← hkey] at hmark
  exact hmark

omit hw

theorem walkAll_spec (hnodup : results.Nodup) (hsorted : ∀ c∈sorted,generation c.2 ≤ generationNumberInfinity)
    {walkStart : List (Id × GenThenTime)} (hstarts : ∀ e∈walkStart,(∃ c∈results,e.1∈h.parents c) ∧ e.2=keyOf h e.1)
    (hw : Walked h results s) (hpresent : ∀ e∈walkStart,(s.graph.map e.1).isSome=true) :
    ∃ s' bound,Walked h results s' ∧ Grown s.graph s'.graph ∧
      (s'.stillIndependent ≤ 1 ∨ ∀ e∈walkStart,(s'.graph.data e.1).stale=true) ∧
      ∀ fuel > bound,walkAll (source h) sorted fuel walkStart s=some (.ok s') := by
  induction walkStart generalizing s with
  | nil => exact ⟨s,0,hw,.refl _,.inr (by simp),fun _ _ => rfl⟩
  | cons e walkStart ih =>
    obtain ⟨⟨hstart,hkey⟩,hstarts⟩ := forall_mem_cons.mp hstarts
    obtain ⟨hpe,hpes⟩ := forall_mem_cons.mp hpresent
    by_cases hcount : s.stillIndependent > 1
    · have hw1 := hw.1.started (hw.2.resolve_right (by omega)) hpe hstart hkey
      have hg1 : Grown s.graph (s.started h e).graph := Grown.set fun _ => rfl
      obtain ⟨_,⟨hw2,hg2⟩,hrun⟩ := StepLoop.run_ends (walk_rounds _ hnodup hsorted) ⟨hw1,.refl _⟩
      obtain ⟨s3,bound,hw3,hg3,hend,hall⟩ := ih hstarts hw2 (fun e' he' => hg2.present _ (hg1.present _ (hpes e' he')))
      refine ⟨s3,max ((s.started h e).potential h) bound,hw3,(hg1.trans hg2).trans hg3,?_,?_⟩
      · rcases hend with hend | hend
        · exact .inl hend
        · refine .inr (forall_mem_cons.mpr ⟨?_,hend⟩)
          exact hg3.stale _ (hg2.stale _ (by simp [Walk.started]))
      · intro fuel hfuel
        simp only [walkAll,if_pos hcount,setStale_eq hw.1.loaded hpe]
        have hrun := hrun fuel (lt_of_le_of_lt (le_max_left _ _) hfuel)
        unfold Walk.started at hrun
        rw [hrun]
        exact hall fuel (lt_of_le_of_lt (le_max_right _ _) hfuel)
    · refine ⟨s,0,hw,.refl _,.inl (by omega),?_⟩
      intro fuel _
      simp [walkAll,if_neg hcount]

/-- In the end, the stale results are those that are covered. With one result left this is so as
not all of them can be behind others. -/
theorem Walked.stale_iff (hacyclic : h.Acyclic) (hw : Walked h results s)
    (hend : s.stillIndependent ≤ 1 ∨ ∀ c∈results,∀ p∈h.parents c,(s.graph.data p).stale=true) (hx : x∈results) :
    (s.graph.data x).stale=true ↔ Covered h results x := by
  refine ⟨hw.1.covered x,fun hcov => ?_⟩
  by_cases hcount : s.stillIndependent ≤ 1
  · by_contra hstale
    have hfirst : (s.graph.data x).result=true := by
      by_contra hresult
      exact hstale (hw.1.visited x hx (by simpa using hresult))
    rw [hw.1.count,countP_eq_length_filter] at hcount
    have hothers : ∀ c∈results,Covered h results c := by
      intro c hc
      by_cases hresult : (s.graph.data c).result=true
      · have heq : c=x := by
          have hcl : c∈results.filter (fun c => (s.graph.data c).result) := mem_filter.mpr ⟨hc,hresult⟩
          have hxl : x∈results.filter (fun c => (s.graph.data c).result) := mem_filter.mpr ⟨hx,hfirst⟩
          rcases hl : results.filter (fun c => (s.graph.data c).result) with _ | ⟨_,_ | ⟨_,_⟩⟩
          all_goals rw [hl] at hcount hcl hxl
          · exact absurd hcl not_mem_nil
          · rw [mem_singleton.mp hcl,mem_singleton.mp hxl]
          · simp at hcount
        exact heq ▸ hcov
      · exact hw.1.covered c (hw.1.visited c hc (by simpa using hresult))
    obtain ⟨c,hc,hlast⟩ := exists_not_behind hacyclic (ne_nil_of_mem hx)
    obtain ⟨c',hc',hanc⟩ := (hothers c hc).ancestor
    exact hlast c' hc' hanc
  · have hempty := hw.2.resolve_right hcount
    obtain ⟨c,hc,p,hp,hpath⟩ := hcov
    clear hx
    induction hpath with
    | refl => exact hend.resolve_left hcount c hc p hp
    | tail _ hstep ih => exact hw.1.closed _ ih (by simp [hempty]) _ hstep

end Walks

/-- `remove_redundant()` keeps what is not reached from the parents of results by first parents. -/
theorem removeRedundant_spec (hacyclic : h.Acyclic) {g : Graph Id Flags} (hl : Loaded h g) {commits : List (Id × GenThenTime)}
    (hnodup : (commits.map Prod.fst).Nodup) (hpresent : ∀ c∈commits.map Prod.fst,(g.map c).isSome=true)
    (hkey : ∀ e∈commits,e.2=keyOf h e.1) :
    ∃ bases g' bound,(∀ fuel > bound,removeRedundant (source h) fuel commits g=some (.ok (bases,g'))) ∧ bases.Nodup ∧
      ∀ x,x∈bases ↔ x∈commits.map Prod.fst ∧ ¬Covered h (commits.map Prod.fst) x := by
  by_cases hempty : commits=[]
  · exact ⟨[],g,0,fun _ _ => by simp [removeRedundant,hempty],.nil,by simp [hempty]⟩
  have hm : Marked h (commits.map Prod.fst) [] [] (g.clearCommitData (fun _ => default)) [] :=
    ⟨hl.clear,fun c hc => by rw [map_clear_isSome,hpresent c hc],by simp,by simp,by simp,by simp,by simp⟩
  obtain ⟨_,starts,hmark,hm1⟩ := markResults_spec (fun _ => id) hm
  have hperm := mergeSort_perm starts (fun a b => a.1 ≤ b.1)
  have hids := hperm.map Prod.fst
  obtain ⟨g2,hunmark,hl2,hkept,hdata⟩ := unmarkWalkStart_spec hm1.loaded (fun x hx => hm1.present x (hids.mem_iff.mp hx))
  have hstale : ∀ x,(g2.data x).stale=false := by
    intro x
    rw [hdata]
    split
    · rfl
    · rename_i hx
      rw [hids.mem_iff,← hm1.stale] at hx
      simpa using hx
  have hresult : ∀ x,(g2.data x).result=decide (x∈commits.map Prod.fst) := by
    intro x
    rw [hdata]
    split <;> simpa using hm1.result x
  have hsorted : ∀ c∈commits.mergeSort (fun a b => a.2 ≤ b.2),generation c.2 ≤ generationNumberInfinity := by
    intro c hc
    rw [hkey c ((mergeSort_perm _ _).mem_iff.mp hc)]
    exact le_refl _
  have hw : Walked h (commits.map Prod.fst) ⟨g2,[],commits.length,0,(commits.mergeSort (fun a b => a.2 ≤ b.2))[0]?.elim 0
      (fun c => generation c.2)⟩ := by
    refine ⟨⟨hl2,fun c hc => hkept c (hm1.kept c hc),by simp,by simp [hstale],by simp [hstale],?_,?_,?_,?_⟩,.inl rfl⟩
    · intro x hx
      simpa [hresult] using hx
    · intro c hc hfalse
      rw [hresult,decide_eq_false_iff_not] at hfalse
      exact absurd hc hfalse
    · have hall : ∀ c∈commits.map Prod.fst,(g2.data c).result=true := fun c hc => by rw [hresult,decide_eq_true hc]
      exact ((countP_eq_length.mpr hall).trans (length_map Prod.fst)).symm
    · cases hget : (commits.mergeSort (fun a b => a.2 ≤ b.2))[0]? with
      | none => exact Nat.zero_le _
      | some c => exact hsorted c (mem_of_getElem? hget)
  have hstarts : ∀ e∈(starts.mergeSort (fun a b => a.1 ≤ b.1)).reverse,
      (∃ c∈commits.map Prod.fst,e.1∈h.parents c) ∧ e.2=keyOf h e.1 := by
    intro e he
    have he := hperm.mem_iff.mp (mem_reverse.mp he)
    have hmem := (hm1.starts e.1).mp (mem_map_of_mem he)
    exact ⟨by simpa using hmem,hm1.key e he⟩
  have hthere : ∀ e∈(starts.mergeSort (fun a b => a.1 ≤ b.1)).reverse,(g2.map e.1).isSome=true := by
    intro e he
    have he := hperm.mem_iff.mp (mem_reverse.mp he)
    exact hkept e.1 (hm1.present e.1 (mem_map_of_mem he))
  obtain ⟨s,bound,hw',-,hend,hrun⟩ := walkAll_spec hnodup hsorted hstarts hw hthere
  refine ⟨_,s.graph,bound,?_,hnodup.filter (notStale s.graph),?_⟩
  · intro fuel hfuel
    simp only [removeRedundant,List.isEmpty_iff,if_neg hempty,hmark,hunmark,hrun fuel hfuel]
  · intro x
    rw [mem_filter]
    refine and_congr_right fun hx => ?_
    rw [← hw'.stale_iff hacyclic ?_ hx,notStale,hw'.1.loaded.get (hw'.1.kept x hx)]
    · simp
    · refine hend.imp_right fun hall c hc p hp => ?_
      have hstart := (hm1.starts p).mpr (by simpa using ⟨c,by simpa using hc,hp⟩)
      obtain ⟨e,he,rfl⟩ := mem_map.mp hstart
      exact hall e (mem_reverse.mpr (hperm.mem_iff.mpr he))

end Gix.Revision
