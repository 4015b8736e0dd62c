import Gix.TreeDiff

/-! # One walk for all delegates

Which entries a diff visits, and in which order, depends on the delegate only through the
actions it returns. Two delegates that act alike see the same changes. -/
namespace Gix.TreeDiff
open Gix.Tree Fallible Along

variable {Id D E : Type} {v : Visit Id D} {w : Visit Id E} {R : D → E → Prop}

/-- What `v` does, `w` does as well, and it keeps them related by `R`. -/
structure Simulates (v : Visit Id D) (w : Visit Id E) (R : D → E → Prop) : Prop where
  popFront : ∀ d d' e, R d e → v.popFrontTrackedPathAndSetCurrent d = some d' →
    ∃ e', w.popFrontTrackedPathAndSetCurrent e = some e' ∧ R d' e'
  pushBack : ∀ c d e, R d e → R (v.pushBackTrackedPathComponent c d) (w.pushBackTrackedPathComponent c e)
  push : ∀ c d e, R d e → R (v.pushPathComponent c d) (w.pushPathComponent c e)
  pop : ∀ d e, R d e → R (v.popPathComponent d) (w.popPathComponent e)
  visit : ∀ c d e, R d e → (v.visit c d).1 = (w.visit c e).1 ∧ R (v.visit c d).2 (w.visit c e).2

/-- Two walks at the same place. -/
structure Alongside (R : D → E → Prop) (s : State Id D) (t : State Id E) : Prop where
  lhs : s.lhsEntries = t.lhsEntries
  rhs : s.rhsEntries = t.rhsEntries
  trees : s.trees = t.trees
  popPath : s.popPath = t.popPath
  delegate : R s.delegate t.delegate

section Simulation

theorem pushBack_follows (pair : Option Id × Option Id) :
    Along (Alongside R) (pushBack pair : Walk Id D Unit) (pushBack pair) :=
  .modify fun _ _ h => {h with trees := by simp [h.trees]}

theorem decoded_follows (entry : Except Unit (Entry Id)) :
    Along (Alongside R) (decoded entry : Walk Id D (Entry Id)) (decoded entry) := by
  cases entry with
  | ok e => exact fun _ _ => .some _
  | error e => exact fun _ _ => .some _

theorem findTreeIter_follows (objects : Find Id) (oid : Id) :
    Along (Alongside R) (findTreeIter objects oid : Walk Id D (TreeRefIter Id)) (findTreeIter objects oid) := by
  unfold findTreeIter
  cases objects oid with
  | ok it => exact fun _ _ => .some _
  | error e => exact fun _ _ => .some _

variable (sim : Simulates v w R)
include sim

theorem popPathComponent_follows : Along (Alongside R) (popPathComponent v) (popPathComponent w) :=
  .modify fun _ _ h => {h with delegate := sim.pop _ _ h.delegate}

theorem pushPathComponent_follows (c : BString) :
    Along (Alongside R) (pushPathComponent v c) (pushPathComponent w c) :=
  .modify fun _ _ h => {h with delegate := sim.push _ _ _ h.delegate}

theorem pushBackTracked_follows (c : BString) :
    Along (Alongside R) (pushBackTrackedPathComponent v c) (pushBackTrackedPathComponent w c) :=
  .modify fun _ _ h => {h with delegate := sim.pushBack _ _ _ h.delegate}

theorem popFrontTrackedPath_follows : Along (Alongside R) (popFrontTrackedPath v) (popFrontTrackedPath w) := by
  intro s t h r s' hr
  obtain ⟨_,hd,hs⟩ := Option.map_eq_some_iff.mp hr
  cases hs
  obtain ⟨e,he,hde⟩ := sim.popFront _ _ _ h.delegate hd
  exact ⟨{t with delegate := e},by simp [popFrontTrackedPath,he],{h with delegate := hde}⟩

theorem visitOrCancel_follows (c : Change Id) : Along (Alongside R) (visitOrCancel v c) (visitOrCancel w c) := by
  intro s t h
  obtain ⟨ha,hd⟩ := sim.visit c _ _ h.delegate
  simp only [visitOrCancel,ha]
  exact .some _ {h with delegate := hd}

theorem visitEntry_follows (entry : Entry Id) (c : Change Id) (pair : Option Id × Option Id) :
    Along (Alongside R) (visitEntryScheduleRecursion v entry c pair) (visitEntryScheduleRecursion w entry c pair) := by
  refine (pushPathComponent_follows sim _).bind fun _ => ?_
  refine (visitOrCancel_follows sim _).bind fun _ => ?_
  split
  · refine (popPathComponent_follows sim).bind fun _ => ?_
    exact (pushBackTracked_follows sim _).bind fun _ => pushBack_follows _
  · exact fun _ _ => .some _

theorem startRound_follows : Along (Alongside R) (startRound v) (startRound w) := by
  refine .modify fun s t h => {h with popPath := rfl,delegate := ?_}
  rw [← h.popPath]
  cases s.popPath
  · exact h.delegate
  · exact sim.pop _ _ h.delegate

theorem nextTrees_follows (objects : Find Id) : Along (Alongside R) (nextTrees v objects) (nextTrees w objects) := by
  intro s t h
  unfold nextTrees
  rw [bind_ok rfl,bind_ok rfl,← h.trees]
  cases hq : s.trees with
  | nil => exact .some _ h
  | cons pair trees =>
    obtain ⟨lhs,rhs⟩ := pair
    refine (modify fun _ _ h => {h with trees := rfl}).bind (fun _ => ?_) s t h
    have hpop := popFrontTrackedPath_follows sim
    have hfind := @findTreeIter_follows Id D E R objects
    have hend : Along (Alongside R) (pure false : Walk Id D Bool) (pure false) :=
      fun _ _ => .some _
    cases lhs with
    | none =>
      cases rhs with
      | none => exact fun _ _ _ => .stuck _
      | some rhs =>
        refine hpop.bind fun _ => (hfind rhs).bind fun _ => ?_
        exact (modify fun _ _ h => {h with rhs := rfl,popPath := rfl}).bind fun _ => hend
    | some lhs =>
      cases rhs with
      | none =>
        refine hpop.bind fun _ => (hfind lhs).bind fun _ => ?_
        exact (modify fun _ _ h => {h with lhs := rfl,popPath := rfl}).bind fun _ => hend
      | some rhs =>
        refine hpop.bind fun _ => (hfind lhs).bind fun _ => ?_
        refine (modify fun _ _ h => {h with lhs := rfl}).bind fun _ => (hfind rhs).bind fun _ => ?_
        exact (modify fun _ _ h => {h with rhs := rfl,popPath := rfl}).bind fun _ => hend

variable [DecidableEq Id]

theorem handleEqual_follows (lhs rhs : Entry Id) :
    Along (Alongside R) (handleLhsAndRhsWithEqualFilenames v lhs rhs)
      (handleLhsAndRhsWithEqualFilenames w lhs rhs) := by
  unfold handleLhsAndRhsWithEqualFilenames
  cases lhs.mode.isTree <;> cases rhs.mode.isTree
  case true.true =>
    refine (pushBackTracked_follows sim _).bind fun _ => ?_
    split
    · exact (visitOrCancel_follows sim _).bind fun _ => pushBack_follows _
    · exact pushBack_follows _
  case false.false =>
    refine (pushPathComponent_follows sim _).bind fun _ => ?_
    split
    · exact visitOrCancel_follows sim _
    · exact fun _ _ => .some _
  all_goals
    refine (pushBackTracked_follows sim _).bind fun _ => ?_
    refine (visitOrCancel_follows sim _).bind fun _ => ?_
    exact (visitOrCancel_follows sim _).bind fun _ => pushBack_follows _

theorem catchupRhsLoop_follows (lhs : Entry Id) (rest : TreeRefIter Id) :
    Along (Alongside R) (catchupRhsLoop v lhs rest) (catchupRhsLoop w lhs rest) := by
  have hpop := popPathComponent_follows sim
  induction rest with
  | nil => exact hpop.bind fun _ => visitEntry_follows sim _ _ _
  | cons x rest ih =>
    cases x with
    | error e => exact fun _ _ => .some _
    | ok rhs =>
      unfold catchupRhsLoop
      cases lhs.cmp rhs with
      | lt => exact hpop.bind fun _ => visitEntry_follows sim _ _ _
      | eq =>
        refine (modify fun _ _ h => {h with rhs := rfl}).bind fun _ => ?_
        exact hpop.bind fun _ => handleEqual_follows sim _ _
      | gt =>
        refine (modify fun _ _ h => {h with rhs := rfl}).bind fun _ => ?_
        exact hpop.bind fun _ => (visitEntry_follows sim _ _ _).bind fun _ => ih

theorem catchupLhsLoop_follows (rhs : Entry Id) (rest : TreeRefIter Id) :
    Along (Alongside R) (catchupLhsLoop v rhs rest) (catchupLhsLoop w rhs rest) := by
  have hpop := popPathComponent_follows sim
  induction rest with
  | nil => exact hpop.bind fun _ => visitEntry_follows sim _ _ _
  | cons x rest ih =>
    cases x with
    | error e => exact fun _ _ => .some _
    | ok lhs =>
      unfold catchupLhsLoop
      cases lhs.cmp rhs with
      | gt => exact hpop.bind fun _ => visitEntry_follows sim _ _ _
      | eq =>
        refine (modify fun _ _ h => {h with lhs := rfl}).bind fun _ => ?_
        exact hpop.bind fun _ => handleEqual_follows sim _ _
      | lt =>
        refine (modify fun _ _ h => {h with lhs := rfl}).bind fun _ => ?_
        exact hpop.bind fun _ => (visitEntry_follows sim _ _ _).bind fun _ => ih

variable (objects : Find Id)

theorem neededRound_follows : Along (Alongside R) (neededRound v objects) (neededRound w objects) := by
  intro s t h
  have hnext : ∀ ls rs,Alongside R {s with lhsEntries := ls,rhsEntries := rs}
      {t with lhsEntries := ls,rhsEntries := rs} := fun ls rs => {h with lhs := rfl,rhs := rfl}
  have hend : Along (Alongside R) (pure false : Walk Id D Bool) (pure false) :=
      fun _ _ => .some _
  unfold neededRound
  rw [← h.lhs,← h.rhs]
  cases hl : s.lhsEntries with
  | nil =>
    cases hr : s.rhsEntries with
    | nil => exact nextTrees_follows sim objects s t h
    | cons rhs rs =>
      refine (decoded_follows rhs).bind (fun _ => ?_) _ _ (hnext [] rs)
      exact (visitEntry_follows sim _ _ _).bind fun _ => hend
  | cons lhs ls =>
    cases hr : s.rhsEntries with
    | nil =>
      refine (decoded_follows lhs).bind (fun _ => ?_) _ _ (hnext ls [])
      exact (visitEntry_follows sim _ _ _).bind fun _ => hend
    | cons rhs rs =>
      refine (decoded_follows lhs).bind (fun lhs => ?_) _ _ (hnext ls rs)
      refine (decoded_follows rhs).bind fun rhs => ?_
      cases lhs.cmp rhs with
      | eq => exact (handleEqual_follows sim _ _).bind fun _ => hend
      | lt =>
        refine bind ((visitEntry_follows sim _ _ _).bind fun _ s t h => ?_) fun _ => hend
        change Follows _ (catchupLhsLoop v rhs s.lhsEntries s) (catchupLhsLoop w rhs t.lhsEntries t)
        rw [← h.lhs]
        exact catchupLhsLoop_follows sim _ _ s t h
      | gt =>
        refine bind ((visitEntry_follows sim _ _ _).bind fun _ s t h => ?_) fun _ => hend
        change Follows _ (catchupRhsLoop v lhs s.rhsEntries s) (catchupRhsLoop w lhs t.rhsEntries t)
        rw [← h.rhs]
        exact catchupRhsLoop_follows sim _ _ s t h

theorem neededLoop_follows (fuel : ℕ) : Along (Alongside R) (neededLoop v objects fuel) (neededLoop w objects fuel) := by
  induction fuel with
  | zero => exact fun _ _ _ => .stuck _
  | succ fuel ih =>
    refine (startRound_follows sim).bind fun _ => ?_
    refine (neededRound_follows sim objects).bind fun finished => ?_
    cases finished
    · exact ih
    · exact fun _ _ => .some _

theorem neededToObtain_follows {fuel : ℕ} {lhs rhs : TreeRefIter Id} {d d' : D} {e : E} {r : Except Error Unit}
    (h : R d e) (hv : neededToObtain v objects fuel lhs rhs d=some (r,d')) :
    ∃ e',neededToObtain w objects fuel lhs rhs e=some (r,e') ∧ R d' e' := by
  obtain ⟨⟨r',s⟩,hs,hp⟩ := Option.map_eq_some_iff.mp hv
  cases hp
  have hstart : Alongside R ⟨lhs,rhs,[],false,d⟩ ⟨lhs,rhs,[],false,e⟩ := ⟨rfl,rfl,rfl,rfl,h⟩
  obtain ⟨t,ht,hst⟩ := neededLoop_follows sim objects fuel _ _ hstart r' s hs
  exact ⟨t.delegate,by simp [neededToObtain,ht],hst.delegate⟩

end Simulation

section Fuel
variable [DecidableEq Id] {objects : Find Id}

theorem neededLoop_fuel (fuel more : ℕ) (s : State Id D) :
    Follows Eq (neededLoop v objects fuel s) (neededLoop v objects (fuel+more) s) := by
  induction fuel generalizing s with
  | zero => exact .stuck _
  | succ fuel ih =>
    rw [Nat.succ_add]
    refine (Follows.refl _).bind fun _ s _ hs => hs ▸ ?_
    refine (Follows.refl _).bind fun finished s _ hs => hs ▸ ?_
    cases finished
    · exact ih s
    · exact .refl _

theorem neededToObtain_fuel {fuel : ℕ} {lhs rhs : TreeRefIter Id} {d d' : D} {r : Except Error Unit}
    (h : neededToObtain v objects fuel lhs rhs d=some (r,d')) (more : ℕ) :
    neededToObtain v objects (fuel+more) lhs rhs d=some (r,d') := by
  obtain ⟨⟨r',s⟩,hs,hp⟩ := Option.map_eq_some_iff.mp h
  obtain ⟨_,ht,rfl⟩ := neededLoop_fuel fuel more _ r' s hs
  rw [neededToObtain,ht,Option.map_some,hp]

end Fuel
end Gix.TreeDiff
