import Gix.TreeDiffLevels

/-! # The recorder on its way through two trees

The recorder keeps the path of each queued pair of trees, and what it records of a level
carries the path of that level with the name of the entry. -/
namespace Gix.TreeDiff
open Gix.Tree SortedMerge List

variable {Id : Type} [DecidableEq Id]

def sideName : Side (Entry Id) → BString
  | .left e => e.filename
  | .right e => e.filename
  | .both a _ => a.filename

/-- The changes that an element of the merge is reported as. -/
def sideChanges : Side (Entry Id) → List (Change Id)
  | .left e => [.deletion e.mode e.oid]
  | .right e => [.addition e.mode e.oid]
  | .both a b =>
    if a.mode.isTree = b.mode.isTree then
      if a.oid ≠ b.oid then [.modification a.mode a.oid b.mode b.oid] else []
    else [.deletion a.mode a.oid,.addition b.mode b.oid]

/-- A recorder that tracks paths, at `p`. -/
def recording (deque : List BString) (p : BString) (records : List (Record Id)) : Recorder Id :=
  ⟨deque,p,some .path,records⟩

theorem recorder_side (side : Side (Entry Id)) (hn : slash∉sideName side) (deque : List BString) (p : BString)
    (records : List (Record Id)) :
    sideDelegate recorder side (recording deque p records) =
      recording (deque++(sidePairs side).map (fun _ => pushElement p (sideName side)))
        (pushElement p (sideName side))
        (records++(sideChanges side).map (fun c => ⟨c,pushElement p (sideName side)⟩)) := by
  cases side with
  | left e | right e =>
    have hpop := popElement_pushElement p hn
    cases ht : e.mode.isTree <;>
      simp [sideDelegate,entryDelegate,report,recorder,recording,sidePairs,sideChanges,sideName,ht]
    exact congrArg (pushElement · e.filename) hpop
  | both a b =>
    by_cases ho : a.oid=b.oid <;> cases ha : a.mode.isTree <;> cases hb : b.mode.isTree <;>
      simp [sideDelegate,report,recorder,recording,sidePairs,sideChanges,sideName,ha,hb,ho]

/-- The components of the subtrees that a level at `P` queues. -/
def childLabels (P : List BString) (sides : List (Side (Entry Id))) : List (List BString) :=
  sides.flatMap (fun side => (sidePairs side).map (fun _ => P++[sideName side]))

/-- The records of a level at `P`. -/
def levelRecords (P : List BString) (sides : List (Side (Entry Id))) : List (Record Id) :=
  sides.flatMap (fun side => (sideChanges side).map (fun c => ⟨c,join (P++[sideName side])⟩))

theorem recorder_level (sides : List (Side (Entry Id))) (hn : ∀ side∈sides,slash∉sideName side)
    (deque : List BString) (P : List BString) (records : List (Record Id)) :
    levelDelegate recorder sides (recording deque (join P) records) =
      recording (deque++(childLabels P sides).map join) (join P) (records++levelRecords P sides) := by
  induction sides generalizing deque records with
  | nil => simp [levelDelegate,childLabels,levelRecords]
  | cons side sides ih =>
    have hside := hn side mem_cons_self
    have hpop : recorder.popPathComponent (sideDelegate recorder side (recording deque (join P) records)) =
        recording (deque++(sidePairs side).map (fun _ => join (P++[sideName side]))) (join P)
          (records++(sideChanges side).map (fun c => ⟨c,join (P++[sideName side])⟩)) := by
      rw [recorder_side side hside]
      simp [recorder,recording,popElement_pushElement _ hside,join_append]
    have hstep : levelDelegate recorder (side::sides) (recording deque (join P) records) =
        levelDelegate recorder sides (recorder.popPathComponent
          (sideDelegate recorder side (recording deque (join P) records))) := rfl
    rw [hstep,hpop,ih (fun x hx => hn x (mem_cons_of_mem _ hx))]
    simp [childLabels,levelRecords]

/-- The records of all levels, where `labels` are the components of the queued pairs. -/
def recordsFrom : List (List BString) → List (List (Entry Id) × List (Entry Id)) → List (Record Id)
  | P :: labels, (l,r) :: ls => levelRecords P (merge Entry.key l r)++
      recordsFrom (labels++childLabels P (merge Entry.key l r)) ls
  | _, _ => []

omit [DecidableEq Id] in
theorem sideName_valid {l r : List (Entry Id)} (hl : ∀ e∈l,ValidName e.filename)
    (hr : ∀ e∈r,ValidName e.filename) {side : Side (Entry Id)} (h : side∈merge Entry.key l r) :
    ValidName (sideName side) := by
  rcases mem_merge h with ⟨a,ha,rfl⟩ | ⟨b,hb,rfl⟩ | ⟨a,ha,b,hb,rfl,_⟩
  · exact hl a ha
  · exact hr b hb
  · exact hl a ha

theorem runLevels_recorder {objects : Find Id} {q : List (Option Id × Option Id)}
    {ls : List (List (Entry Id) × List (Entry Id))} (hq : Levels objects q ls) (labels : List (List BString))
    (hlen : labels.length=q.length) (p : BString) (records : List (Record Id)) :
    ∃ p',runLevels recorder ls (recording (labels.map join) p records) =
      some (recording [] p' (records++recordsFrom labels ls)) := by
  induction hq generalizing labels p records with
  | nil =>
    obtain rfl : labels=[] := length_eq_zero_iff.mp hlen
    exact ⟨p,by simp [runLevels,recordsFrom]⟩
  | @cons a b l r q ls ha hb hab hl hr rest ih =>
    obtain ⟨P,labels,rfl⟩ := exists_cons_of_length_eq_add_one hlen
    have hnames : ∀ side∈merge Entry.key l r,slash∉sideName side :=
      fun side hs => (sideName_valid hl hr hs).2
    obtain ⟨p',hp'⟩ := ih (labels++childLabels P (merge Entry.key l r)) (by
      have hl : labels.length=q.length := by simpa using hlen
      simp [childLabels,hl]) (join P) (records++levelRecords P (merge Entry.key l r))
    refine ⟨p',?_⟩
    have hpop : recorder.popFrontTrackedPathAndSetCurrent (recording ((P::labels).map join) p records) =
        some (recording (labels.map join) (join P) records) := rfl
    rw [runLevels,hpop,Option.bind_some,recorder_level _ hnames,← map_append,hp',recordsFrom,
      append_assoc]

end Gix.TreeDiff
