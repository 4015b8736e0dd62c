import Gix.TreeDiff

/-! # Level by level through two trees

For a delegate that never cancels, comparing two lists of entries is a merge of them: each
of its elements is reported to the delegate and queues the subtrees it names. -/
namespace Gix.TreeDiff
open Gix.Tree Fallible SortedMerge
open List hiding merge

variable {Id D : Type} [DecidableEq Id] (v : Visit Id D)

/-- The delegate lets the comparison go on. -/
def Proceeds : Prop := ∀ c d, (v.visit c d).1 = .proceed

def report (c : Change Id) (d : D) : D := (v.visit c d).2

/-- The delegate after an entry that is on one side only. -/
def entryDelegate (e : Entry Id) (c : Change Id) (d : D) : D :=
  let d := report v c (v.pushPathComponent e.filename d)
  if e.mode.isTree then v.pushBackTrackedPathComponent e.filename (v.popPathComponent d) else d

/-- The delegate after one element of the merge. -/
def sideDelegate : Side (Entry Id) → D → D
  | .left e, d => entryDelegate v e (.deletion e.mode e.oid) d
  | .right e, d => entryDelegate v e (.addition e.mode e.oid) d
  | .both a b, d => match a.mode.isTree,b.mode.isTree with
    | true, true =>
      let d := v.pushBackTrackedPathComponent a.filename d
      if a.oid ≠ b.oid then report v (.modification a.mode a.oid b.mode b.oid) d else d
    | false, true => report v (.addition b.mode b.oid) (report v (.deletion a.mode a.oid)
        (v.pushBackTrackedPathComponent a.filename d))
    | true, false => report v (.addition b.mode b.oid) (report v (.deletion a.mode a.oid)
        (v.pushBackTrackedPathComponent a.filename d))
    | false, false =>
      let d := v.pushPathComponent a.filename d
      if a.oid ≠ b.oid then report v (.modification a.mode a.oid b.mode b.oid) d else d

/-- The pair of subtrees that one element of the merge queues. -/
def sidePairs : Side (Entry Id) → List (Option Id × Option Id)
  | .left e => if e.mode.isTree then [(some e.oid,none)] else []
  | .right e => if e.mode.isTree then [(none,some e.oid)] else []
  | .both a b => match a.mode.isTree,b.mode.isTree with
    | true, true => [(some a.oid,some b.oid)]
    | false, true => [(none,some b.oid)]
    | true, false => [(some a.oid,none)]
    | false, false => []

/-- The delegate after all elements, with the path as it was before. -/
def levelDelegate (sides : List (Side (Entry Id))) (d : D) : D :=
  sides.foldl (fun d side => v.popPathComponent (sideDelegate v side d)) d

/-- The state with more queued and the delegate moved on. -/
def State.advance (s : State Id D) (pairs : List (Option Id × Option Id)) (d : D) : State Id D :=
  {s with trees := s.trees++pairs, delegate := d}

variable {v} (hv : Proceeds v) {s : State Id D}

omit [DecidableEq Id] in
include hv in
theorem visitOrCancel_proceeds (c : Change Id) :
    visitOrCancel v c s=some (.ok (),{s with delegate := report v c s.delegate}) := by
  simp [visitOrCancel,hv c s.delegate,report]

omit [DecidableEq Id] in
include hv in
theorem visitEntry_spec (e : Entry Id) (c : Change Id) (pair : Option Id × Option Id) :
    visitEntryScheduleRecursion v e c pair s=some (.ok (),
      s.advance (if e.mode.isTree then [pair] else []) (entryDelegate v e c s.delegate)) := by
  have hvis : visitOrCancel v c {s with delegate := v.pushPathComponent e.filename s.delegate} =
      some (.ok (),_) := visitOrCancel_proceeds hv c
  rw [visitEntryScheduleRecursion,pushPathComponent,bind_ok (modify_apply _),bind_ok hvis]
  cases ht : e.mode.isTree with
  | true => simp [State.advance,entryDelegate,ht,popPathComponent,pushBackTrackedPathComponent,pushBack,bind]
  | false => simp [State.advance,entryDelegate,ht]

include hv in
theorem handleEqual_spec (a b : Entry Id) :
    handleLhsAndRhsWithEqualFilenames v a b s=some (.ok (),
      s.advance (sidePairs (.both a b)) (sideDelegate v (.both a b) s.delegate)) := by
  have hvis := fun (s : State Id D) c => visitOrCancel_proceeds hv (s := s) c
  by_cases ho : a.oid=b.oid <;> cases ha : a.mode.isTree <;> cases hb : b.mode.isTree <;>
    simp [handleLhsAndRhsWithEqualFilenames,sidePairs,sideDelegate,State.advance,ha,hb,ho,
      pushBackTrackedPathComponent,pushPathComponent,bind,pushBack,hvis]

/-- The entries of a tree that decodes. -/
def ok (es : List (Entry Id)) : TreeRefIter Id := es.map .ok

variable {rhs : Entry Id} {ls rs : List (Entry Id)}

include hv in
/-- Catching up on the left emits a part of the merge. -/
theorem catchupLhs_spec (hn : ∀ e∈ls,ValidName e.filename) (hr : ValidName rhs.filename)
    (hs : s.lhsEntries=ok ls) :
    ∃ ls' sides d,catchupLhsLoop v rhs (ok ls) s=some (.ok (),
        {s with lhsEntries := ok ls',trees := s.trees++sides.flatMap sidePairs,delegate := d}) ∧
      (∀ rs,merge Entry.key ls (rhs::rs)=sides++merge Entry.key ls' rs) ∧
      (∃ done,ls=done++ls') ∧ v.popPathComponent d=levelDelegate v sides (v.popPathComponent s.delegate) := by
  induction ls generalizing s with
  | nil =>
    refine ⟨[],[.right rhs],_,?_,by simp [merge],⟨[],rfl⟩,rfl⟩
    simp only [ok,map_nil,catchupLhsLoop,popPathComponent]
    rw [bind_ok (modify_apply _),addEntryScheduleRecursion,visitEntry_spec hv]
    simp [State.advance,sidePairs,sideDelegate,hs,ok]
  | cons a ls ih =>
    have hk := Entry.cmp_eq_key (hn a mem_cons_self) hr
    have hcons : ok (a::ls) = .ok a::ok ls := rfl
    rw [hcons,catchupLhsLoop]
    cases hc : a.cmp rhs with
    | eq =>
      refine ⟨ls,[.both a rhs],_,?_,?_,⟨[a],rfl⟩,rfl⟩
      · simp only [popPathComponent]
        rw [bind_ok (modify_apply _),bind_ok (modify_apply _),handleEqual_spec hv]
        simp [State.advance]
      · intro rs
        rw [merge,← hk,hc]
        rfl
    | gt =>
      refine ⟨a::ls,[.right rhs],_,?_,?_,⟨[],rfl⟩,rfl⟩
      · simp only [popPathComponent]
        rw [bind_ok (modify_apply _),addEntryScheduleRecursion,visitEntry_spec hv]
        simp [State.advance,sidePairs,sideDelegate,← hs]
      · intro rs
        rw [merge,← hk,hc]
        rfl
    | lt =>
      obtain ⟨ls',sides,d,hrun,hm,⟨done,hdone⟩,hd⟩ := ih (s := {s with
          lhsEntries := ok ls
          trees := s.trees++sidePairs (.left a)
          delegate := sideDelegate v (.left a) (v.popPathComponent s.delegate)})
        (fun e he => hn e (mem_cons_of_mem _ he)) rfl
      refine ⟨ls',.left a::sides,d,?_,?_,⟨a::done,by simp [hdone]⟩,hd⟩
      · simp only [popPathComponent]
        rw [bind_ok (modify_apply _),bind_ok (modify_apply _),deleteEntryScheduleRecursion,
          bind_ok (visitEntry_spec hv a _ _)]
        refine Eq.trans hrun ?_
        simp
      · intro rs
        rw [merge,← hk,hc]
        simp [hm]

include hv in
/-- Catching up on the right emits a part of the merge. -/
theorem catchupRhs_spec {lhs : Entry Id} (hn : ∀ e∈rs,ValidName e.filename) (hl : ValidName lhs.filename)
    (hs : s.rhsEntries=ok rs) :
    ∃ rs' sides d,catchupRhsLoop v lhs (ok rs) s=some (.ok (),
        {s with rhsEntries := ok rs',trees := s.trees++sides.flatMap sidePairs,delegate := d}) ∧
      (∀ ls,merge Entry.key (lhs::ls) rs=sides++merge Entry.key ls rs') ∧
      (∃ done,rs=done++rs') ∧ v.popPathComponent d=levelDelegate v sides (v.popPathComponent s.delegate) := by
  induction rs generalizing s with
  | nil =>
    refine ⟨[],[.left lhs],_,?_,fun ls => by simp [merge_nil_right],⟨[],rfl⟩,rfl⟩
    simp only [ok,map_nil,catchupRhsLoop,popPathComponent]
    rw [bind_ok (modify_apply _),deleteEntryScheduleRecursion,visitEntry_spec hv]
    simp [State.advance,sidePairs,sideDelegate,hs,ok]
  | cons b rs ih =>
    have hk := Entry.cmp_eq_key hl (hn b mem_cons_self)
    have hcons : ok (b::rs) = .ok b::ok rs := rfl
    rw [hcons,catchupRhsLoop]
    cases hc : lhs.cmp b with
    | eq =>
      refine ⟨rs,[.both lhs b],_,?_,?_,⟨[b],rfl⟩,rfl⟩
      · simp only [popPathComponent]
        rw [bind_ok (modify_apply _),bind_ok (modify_apply _),handleEqual_spec hv]
        simp [State.advance]
      · intro ls
        rw [merge,← hk,hc]
        rfl
    | lt =>
      refine ⟨b::rs,[.left lhs],_,?_,?_,⟨[],rfl⟩,rfl⟩
      · simp only [popPathComponent]
        rw [bind_ok (modify_apply _),deleteEntryScheduleRecursion,visitEntry_spec hv]
        simp [State.advance,sidePairs,sideDelegate,← hs]
      · intro ls
        rw [merge,← hk,hc]
        rfl
    | gt =>
      obtain ⟨rs',sides,d,hrun,hm,⟨done,hdone⟩,hd⟩ := ih (s := {s with
          rhsEntries := ok rs
          trees := s.trees++sidePairs (.right b)
          delegate := sideDelegate v (.right b) (v.popPathComponent s.delegate)})
        (fun e he => hn e (mem_cons_of_mem _ he)) rfl
      refine ⟨rs',.right b::sides,d,?_,?_,⟨b::done,by simp [hdone]⟩,hd⟩
      · simp only [popPathComponent]
        rw [bind_ok (modify_apply _),bind_ok (modify_apply _),addEntryScheduleRecursion,
          bind_ok (visitEntry_spec hv b _ _)]
        refine Eq.trans hrun ?_
        simp
      · intro ls
        rw [merge,← hk,hc]
        simp [hm]

omit [DecidableEq Id] in
theorem visited {first rest : Walk Id D Unit} {s s' s'' : State Id D} (hfirst : first s=some (.ok (),s'))
    (hrest : rest s'=some (.ok (),s'')) : ((first >>= fun _ => rest) >>= fun _ => pure false) s=some (.ok false,s'') :=
  bind_ok ((bind_ok hfirst).trans hrest)

variable (objects : Find Id)

include hv in
/-- One round with entries left emits a part of the merge. -/
theorem neededRound_entries {l r : List (Entry Id)} (hl : ∀ e∈l,ValidName e.filename)
    (hr : ∀ e∈r,ValidName e.filename) (hne : l≠[] ∨ r≠[]) (q : List (Option Id × Option Id)) (d0 : D) :
    ∃ l' r' sides d,neededRound v objects ⟨ok l,ok r,q,true,d0⟩=some (.ok false,
        ⟨ok l',ok r',q++sides.flatMap sidePairs,true,d⟩) ∧
      merge Entry.key l r=sides++merge Entry.key l' r' ∧ (∃ done,l=done++l') ∧ (∃ done,r=done++r') ∧
      l'.length+r'.length < l.length+r.length ∧
      v.popPathComponent d=levelDelegate v sides d0 := by
  cases l with
  | nil =>
    cases r with
    | nil => simp at hne
    | cons b r =>
      refine ⟨[],r,[.right b],sideDelegate v (.right b) d0,?_,?_,⟨[],rfl⟩,⟨[b],rfl⟩,by simp,rfl⟩
      · simp [neededRound,bind,ok,decoded,addEntryScheduleRecursion,visitEntry_spec hv,State.advance,
          sidePairs,sideDelegate]
      · simp [merge]
  | cons a l =>
    cases r with
    | nil =>
      refine ⟨l,[],[.left a],sideDelegate v (.left a) d0,?_,?_,⟨[a],rfl⟩,⟨[],rfl⟩,by simp,rfl⟩
      · simp [neededRound,bind,ok,decoded,deleteEntryScheduleRecursion,visitEntry_spec hv,State.advance,
          sidePairs,sideDelegate]
      · simp [merge_nil_right]
    | cons b r =>
      have hav := hl a mem_cons_self
      have hbv := hr b mem_cons_self
      have hk := Entry.cmp_eq_key hav hbv
      cases hc : a.cmp b with
      | eq =>
        refine ⟨l,r,[.both a b],sideDelegate v (.both a b) d0,?_,?_,⟨[a],rfl⟩,⟨[b],rfl⟩,by simp; omega,rfl⟩
        · simp [neededRound,bind,ok,decoded,hc,handleEqual_spec hv,State.advance]
        · rw [merge,← hk,hc]
          rfl
      | lt =>
        obtain ⟨l',sides,d,hrun,hm,⟨done,hdone⟩,hd⟩ := catchupLhs_spec hv
          (s := ⟨ok l,ok r,q++sidePairs (.left a),true,sideDelegate v (.left a) d0⟩)
          (fun e he => hl e (mem_cons_of_mem _ he)) hbv rfl
        refine ⟨l',r,.left a::sides,d,?_,?_,⟨a::done,by simp [hdone]⟩,⟨[b],rfl⟩,?_,hd⟩
        · simp only [neededRound,ok,map_cons,decoded]
          rw [bind_ok pure_apply,bind_ok pure_apply,hc]
          refine (visited (visitEntry_spec hv a _ _) hrun).trans ?_
          simp [ok]
        · rw [merge,← hk,hc]
          simp [hm]
        · simp [hdone]
          omega
      | gt =>
        obtain ⟨r',sides,d,hrun,hm,⟨done,hdone⟩,hd⟩ := catchupRhs_spec hv
          (s := ⟨ok l,ok r,q++sidePairs (.right b),true,sideDelegate v (.right b) d0⟩)
          (fun e he => hr e (mem_cons_of_mem _ he)) hav rfl
        refine ⟨l,r',.right b::sides,d,?_,?_,⟨[a],rfl⟩,⟨b::done,by simp [hdone]⟩,?_,hd⟩
        · simp only [neededRound,ok,map_cons,decoded]
          rw [bind_ok pure_apply,bind_ok pure_apply,hc]
          refine (visited (visitEntry_spec hv b _ _) hrun).trans ?_
          simp [ok]
        · rw [merge,← hk,hc]
          simp [hm]
        · simp [hdone]
          omega

variable (v) in
/-- What a round starts with: the path that the round before left is popped. -/
def resumed (popPath : Bool) (d : D) : D := if popPath then v.popPathComponent d else d

omit [DecidableEq Id] in
theorem startRound_spec : startRound v s =
    some (.ok (),{s with popPath := true,delegate := resumed v s.popPath s.delegate}) := rfl

include hv in
/-- All rounds of one level emit the merge. -/
theorem neededLoop_level {l r : List (Entry Id)} (hl : ∀ e∈l,ValidName e.filename)
    (hr : ∀ e∈r,ValidName e.filename) (q : List (Option Id × Option Id)) (b : Bool) (d : D) :
    ∃ n b' d',(∀ fuel,neededLoop v objects (n+fuel) ⟨ok l,ok r,q,b,d⟩ =
        neededLoop v objects fuel ⟨[],[],q++(merge Entry.key l r).flatMap sidePairs,b',d'⟩) ∧
      resumed v b' d'=levelDelegate v (merge Entry.key l r) (resumed v b d) := by
  induction hlen : l.length+r.length using Nat.strongRecOn generalizing l r q b d with
  | _ len ih =>
    by_cases hne : l≠[] ∨ r≠[]
    · obtain ⟨l',r',sides,d1,hround,hm,⟨_,hdl⟩,⟨_,hdr⟩,hlt,hd⟩ :=
        neededRound_entries hv objects hl hr hne q (resumed v b d)
      obtain ⟨n,b',d',hrun,hd'⟩ := ih (l'.length+r'.length) (hlen ▸ hlt)
        (fun e he => hl e (by rw [hdl]; exact mem_append_right _ he))
        (fun e he => hr e (by rw [hdr]; exact mem_append_right _ he))
        (q++sides.flatMap sidePairs) true d1 rfl
      refine ⟨n+1,b',d',?_,?_⟩
      · intro fuel
        have hfuel : n+1+fuel=(n+fuel)+1 := by omega
        rw [hfuel,neededLoop,bind_ok startRound_spec,bind_ok hround,hm,flatMap_append,← append_assoc]
        exact hrun fuel
      · have hd : resumed v true d1=levelDelegate v sides (resumed v b d) := hd
        rw [hd',hd,hm]
        exact foldl_append.symm
    · have hle : l=[] ∧ r=[] := by
        constructor
        · by_contra h; exact hne (.inl h)
        · by_contra h; exact hne (.inr h)
      obtain ⟨rfl,rfl⟩ := hle
      exact ⟨0,b,d,fun fuel => by simp [merge,ok],by simp [merge,levelDelegate]⟩

/-- The entries of one side of a queued pair. -/
def Loads : Option Id → List (Entry Id) → Prop
  | none, l => l = []
  | some oid, l => objects oid = .ok (ok l)

/-- The pairs of trees that are compared, in order, starting from the queued ones. -/
inductive Levels : List (Option Id × Option Id) → List (List (Entry Id) × List (Entry Id)) → Prop
  | nil : Levels [] []
  | cons {a b : Option Id} {l r : List (Entry Id)} {q : List (Option Id × Option Id)}
      {ls : List (List (Entry Id) × List (Entry Id))} (ha : Loads objects a l) (hb : Loads objects b r)
      (hab : a ≠ none ∨ b ≠ none) (hl : ∀ e ∈ l, ValidName e.filename) (hr : ∀ e ∈ r, ValidName e.filename)
      (rest : Levels (q++(merge Entry.key l r).flatMap sidePairs) ls) : Levels ((a,b) :: q) ((l,r) :: ls)

variable (v) in
/-- The delegate through all levels, each of which starts with its tracked path. -/
def runLevels : List (List (Entry Id) × List (Entry Id)) → D → Option D
  | [], d => some d
  | (l,r) :: ls, d => (v.popFrontTrackedPathAndSetCurrent d).bind
      (fun d => runLevels ls (levelDelegate v (merge Entry.key l r) d))

include hv in
/-- With both sides exhausted the queued pairs are compared in order. -/
theorem neededLoop_levels {q : List (Option Id × Option Id)} {ls : List (List (Entry Id) × List (Entry Id))}
    (hq : Levels objects q ls) (b : Bool) {d d' : D} (hd : runLevels v ls (resumed v b d)=some d') :
    ∃ n,∀ fuel,n < fuel → ∃ b',neededLoop v objects fuel ⟨[],[],q,b,d⟩=some (.ok (),⟨[],[],[],b',d'⟩) := by
  induction hq generalizing b d with
  | nil =>
    obtain rfl : resumed v b d=d' := by simpa [runLevels] using hd
    refine ⟨0,fun fuel hf => ⟨true,?_⟩⟩
    obtain ⟨n,rfl⟩ := Nat.exists_eq_succ_of_ne_zero (Nat.pos_iff_ne_zero.mp hf)
    rw [neededLoop,bind_ok startRound_spec]
    simp [neededRound,nextTrees,bind]
  | @cons x y l r q ls ha hb hab hl hr rest ih =>
    obtain ⟨d1,hd1,hrest⟩ := Option.bind_eq_some_iff.mp hd
    obtain ⟨n,b',_,hrun,hd2⟩ := neededLoop_level hv objects hl hr q false d1
    obtain ⟨m,hm⟩ := ih b' (by rw [hd2]; exact hrest)
    refine ⟨n+m+1,fun fuel hf => ?_⟩
    obtain ⟨b'',hfin⟩ := hm (fuel-1-n) (by omega)
    refine ⟨b'',?_⟩
    have hfuel : fuel=(n+(fuel-1-n))+1 := by omega
    rw [hfuel,neededLoop,bind_ok startRound_spec]
    have hnext : neededRound v objects ⟨[],[],(x,y)::q,true,resumed v b d⟩=some (.ok false,⟨ok l,ok r,q,false,d1⟩) := by
      change nextTrees v objects _=_
      cases x with
      | none =>
        cases y with
        | none => simp at hab
        | some rhs =>
          obtain rfl : l=[] := ha
          have hb : objects rhs = .ok (ok r) := hb
          simp [nextTrees,bind,popFrontTrackedPath,hd1,findTreeIter,hb,ok]
      | some lhs =>
        have ha : objects lhs = .ok (ok l) := ha
        cases y with
        | none =>
          obtain rfl : r=[] := hb
          simp [nextTrees,bind,popFrontTrackedPath,hd1,findTreeIter,ha,ok]
        | some rhs =>
          have hb : objects rhs = .ok (ok r) := hb
          simp [nextTrees,bind,popFrontTrackedPath,hd1,findTreeIter,ha,hb]
    rw [bind_ok hnext]
    exact (hrun _).trans hfin

end Gix.TreeDiff
