import Gix.TreeDiffExact

/-! # What the difference of two trees tells

At every path the recorder receives the changes that lead from the left to the right tree,
except that an entry is taken for unchanged if its id is, whatever its mode. -/
namespace Gix.TreeDiff
open Gix.Tree SortedMerge List Entry

variable {Id : Type}

section Available
variable (objects : Find Id)

/-- A sorted tree all of whose subtrees are in the object database, to a depth. -/
def Available : ℕ → List (Entry Id) → Prop
  | 0, _ => False
  | depth+1, es => SortedTree es ∧ ∀ e ∈ es, e.mode.isTree = true →
      ∃ sub, objects e.oid = .ok (ok sub) ∧ Available depth sub

/-- One side of a queued pair is available, or there is none. -/
def SideAvailable (depth : ℕ) : Option Id → Prop
  | none => True
  | some oid => ∃ sub, objects oid = .ok (ok sub) ∧ Available objects depth sub

variable {objects} {depth : ℕ} {l r : List (Entry Id)}

theorem Available.sorted (hl : Available objects depth l) : SortedTree l := by
  cases depth with
  | zero => exact hl.elim
  | succ depth => exact hl.1

theorem Available.succ (hl : Available objects depth l) : Available objects (depth+1) l := by
  induction depth generalizing l with
  | zero => exact hl.elim
  | succ depth ih =>
    refine ⟨hl.1,fun e he ht => ?_⟩
    obtain ⟨sub,ho,hs⟩ := hl.2 e he ht
    exact ⟨sub,ho,ih hs⟩

theorem Available.mono {depth' : ℕ} (hd : depth ≤ depth') (hl : Available objects depth l) :
    Available objects depth' l := by
  induction hd with
  | refl => exact hl
  | step _ ih => exact ih.succ

/-- The pairs that a level queues are available, one side at least being a tree. -/
theorem Available.pairs (hl : Available objects (depth+1) l) (hr : Available objects (depth+1) r) :
    ∀ pair∈(merge key l r).flatMap sidePairs,SideAvailable objects depth pair.1 ∧
      SideAvailable objects depth pair.2 ∧ (pair.1≠none ∨ pair.2≠none) := by
  intro pair hp
  obtain ⟨_,hside,hm⟩ := mem_flatMap.mp hp
  rcases mem_merge hside with ⟨a,ha,rfl⟩ | ⟨b,hb,rfl⟩ | ⟨a,ha,b,hb,rfl,_⟩
  · cases ht : a.mode.isTree with
    | false => simp [sidePairs,ht] at hm
    | true =>
      obtain rfl : pair=(some a.oid,none) := by simpa [sidePairs,ht] using hm
      exact ⟨hl.2 a ha ht,trivial,.inl (by simp)⟩
  · cases ht : b.mode.isTree with
    | false => simp [sidePairs,ht] at hm
    | true =>
      obtain rfl : pair=(none,some b.oid) := by simpa [sidePairs,ht] using hm
      exact ⟨trivial,hr.2 b hb ht,.inr (by simp)⟩
  · cases hat : a.mode.isTree with
    | false =>
      cases hbt : b.mode.isTree with
      | false => simp [sidePairs,hat,hbt] at hm
      | true =>
        obtain rfl : pair=(none,some b.oid) := by simpa [sidePairs,hat,hbt] using hm
        exact ⟨trivial,hr.2 b hb hbt,.inr (by simp)⟩
    | true =>
      cases hbt : b.mode.isTree with
      | false =>
        obtain rfl : pair=(some a.oid,none) := by simpa [sidePairs,hat,hbt] using hm
        exact ⟨hl.2 a ha hat,trivial,.inl (by simp)⟩
      | true =>
        obtain rfl : pair=(some a.oid,some b.oid) := by simpa [sidePairs,hat,hbt] using hm
        exact ⟨hl.2 a ha hat,hr.2 b hb hbt,.inl (by simp)⟩

theorem SideAvailable.loads {a : Option Id} (ha : SideAvailable objects (depth+1) a) :
    ∃ l,Loads objects a l ∧ Available objects (depth+1) l := by
  cases a with
  | none => exact ⟨[],rfl,⟨by simp,by simp,.nil⟩,by simp⟩
  | some oid => exact ha

/-- The levels that follow from a queue of available pairs: those of the queue first, then
those of the subtrees, which are less deep. -/
theorem exists_levels (q : List (Option Id × Option Id)) (hq : ∀ pair∈q,SideAvailable objects depth pair.1 ∧
      SideAvailable objects depth pair.2 ∧ (pair.1≠none ∨ pair.2≠none)) :
    ∃ ls,Levels objects q ls ∧ ∀ x∈ls,SortedTree x.1 ∧ SortedTree x.2 := by
  induction depth generalizing q with
  | zero =>
    cases q with
    | nil => exact ⟨[],.nil,by simp⟩
    | cons pair q =>
      obtain ⟨ha,hb,hne⟩ := hq pair mem_cons_self
      obtain ⟨a,b⟩ := pair
      cases a with
      | some oid => exact ha.elim (fun _ h => h.2.elim)
      | none =>
        cases b with
        | some oid => exact hb.elim (fun _ h => h.2.elim)
        | none => simp at hne
  | succ depth ih =>
    -- `later` are the subtrees queued so far
    have hqueue : ∀ later : List (Option Id × Option Id),(∀ pair∈later,SideAvailable objects depth pair.1 ∧
        SideAvailable objects depth pair.2 ∧ (pair.1≠none ∨ pair.2≠none)) →
        ∃ ls,Levels objects (q++later) ls ∧ ∀ x∈ls,SortedTree x.1 ∧ SortedTree x.2 := by
      induction q with
      | nil => exact ih
      | cons pair q ihq =>
        intro later hlater
        obtain ⟨ha,hb,hne⟩ := hq pair mem_cons_self
        obtain ⟨l,hll,hla⟩ := ha.loads
        obtain ⟨r,hrl,hra⟩ := hb.loads
        obtain ⟨ls,hls,hsorted⟩ := ihq (fun x hx => hq x (mem_cons_of_mem _ hx))
          (later++(merge key l r).flatMap sidePairs) (by
            intro x hx
            rcases mem_append.mp hx with hx | hx
            · exact hlater x hx
            · exact hla.pairs hra x hx)
        rw [← append_assoc] at hls
        refine ⟨(l,r)::ls,.cons hll hrl hne hla.1.names hra.1.names hls,?_⟩
        intro x hx
        rcases mem_cons.mp hx with rfl | hx
        · exact ⟨hla.1,hra.1⟩
        · exact hsorted x hx
    simpa using hqueue [] (by simp)

/-- Only paths made of names lead to an entry. -/
theorem resolve_valid {es : List (Entry Id)} (hes : Available objects depth es)
    {P : List BString} {a : EntryMode × Id} (h : resolve objects es P=some a) : ∀ n∈P,ValidName n := by
  induction P generalizing es depth with
  | nil => simp
  | cons n P ih =>
    have hname : ∀ e,findName es n=some e → e∈es ∧ ValidName n := by
      intro e he
      have hmem := mem_of_find?_eq_some he
      have hn : e.filename=n := by simpa using find?_some he
      exact ⟨hmem,hn ▸ hes.sorted.names e hmem⟩
    cases P with
    | nil =>
      obtain ⟨e,he,_⟩ := Option.map_eq_some_iff.mp h
      simpa using (hname e he).2
    | cons m P =>
      obtain ⟨e,he,hsub⟩ := Option.bind_eq_some_iff.mp h
      obtain ⟨hmem,hv⟩ := hname e he
      cases ht : e.mode.isTree with
      | false => simp [ht] at hsub
      | true =>
        cases depth with
        | zero => exact hes.elim
        | succ depth =>
          obtain ⟨sub,ho,hs⟩ := hes.2 e hmem ht
          have hrec : resolve objects sub (m::P)=some a := by simpa [ht,ho] using hsub
          intro x hx
          rcases mem_cons.mp hx with rfl | hx
          · exact hv
          · exact ih hs hrec x hx

end Available

variable [DecidableEq Id]

/-- The entry a change leads to. -/
def Change.result : Change Id → Option (EntryMode × Id)
  | .addition m o => some (m,o)
  | .deletion _ _ => none
  | .modification _ _ m o => some (m,o)

/-- What a path holds after the changes recorded at it. -/
def replay (x : Option (EntryMode × Id)) (cs : List (Change Id)) : Option (EntryMode × Id) :=
  match cs.filterMap Change.result with
  | e :: _ => some e
  | [] => if cs.isEmpty then x else none

theorem replay_expected {x y : Option (EntryMode × Id)} {cs : List (Change Id)} (h : cs.Perm (expected x y)) :
    replay x cs=y := by
  have hres := h.filterMap Change.result
  have hempty : cs.isEmpty=(expected x y).isEmpty := by
    rw [Bool.eq_iff_iff,List.isEmpty_iff,List.isEmpty_iff,← List.length_eq_zero_iff,h.length_eq,
      length_eq_zero_iff]
  rw [replay,hempty]
  cases x with
  | none =>
    cases y with
    | none =>
      rw [List.Perm.eq_nil hres]
      rfl
    | some b => rw [perm_singleton.mp hres]
  | some a =>
    cases y with
    | none =>
      rw [List.Perm.eq_nil hres]
      rfl
    | some b =>
      by_cases ht : a.1.isTree=b.1.isTree
      · by_cases hab : a=b
        · have hnil : expected (some a) (some b)=[] := by simp [expected,hab]
          rw [hnil] at hres ⊢
          rw [List.Perm.eq_nil hres,hab]
          rfl
        · have hone : expected (some a) (some b)=[.modification a.1 a.2 b.1 b.2] := by simp [expected,ht,hab]
          rw [hone] at hres
          rw [perm_singleton.mp hres]
      · have htwo : expected (some a) (some b)=[.deletion a.1 a.2,.addition b.1 b.2] := by simp [expected,ht]
        rw [htwo] at hres
        rw [perm_singleton.mp hres]

/-- The recorded changes are those between the two flattened trees: at each path they are
the expected ones, up to order, and make the left entry the right one. -/
structure Exact (objects : Find Id) (l r : List (Entry Id)) (records : List (Record Id)) : Prop where
  changes : ∀ P, (∀ n ∈ P, ValidName n) →
    (changesAt P records).Perm (expected (resolve objects l P) (resolve objects r P))
  transforms : ∀ P, (∀ n ∈ P, ValidName n) →
    replay (resolve objects l P) (changesAt P records) = resolve objects r P
  paths : ∀ record ∈ records, ∃ P, P ≠ [] ∧ (∀ n ∈ P, ValidName n) ∧ record.path = join P

/-- No entry changes its mode alone, unless between a tree and something else. -/
def SameModes (objects : Find Id) (l r : List (Entry Id)) : Prop :=
  ∀ P a b, resolve objects l P = some a → resolve objects r P = some b → a.2 = b.2 →
    a.1.isTree = b.1.isTree → a.1 = b.1

/-- The changes reported at a path are the expected ones if the mode did not change alone. -/
theorem reported_perm_expected {x y : Option (EntryMode × Id)} :
    (reported x y).Perm (expected x y) ↔ ∀ a b,x=some a → y=some b → a.2=b.2 →
      a.1.isTree=b.1.isTree → a.1=b.1 := by
  cases x with
  | none => cases y <;> simp [reported,expected]
  | some a =>
    cases y with
    | none => simp [reported,expected]
    | some b =>
      have hsome : (∀ a' b',some a=some a' → some b=some b' → a'.2=b'.2 →
          a'.1.isTree=b'.1.isTree → a'.1=b'.1) ↔ (a.2=b.2 → a.1.isTree=b.1.isTree → a.1=b.1) := by
        constructor
        · exact fun h => h a b rfl rfl
        · rintro h a' b' ⟨⟩ ⟨⟩
          exact h
      rw [hsome]
      by_cases ht : a.1.isTree=b.1.isTree
      · by_cases ho : a.2=b.2
        · by_cases hm : a.1=b.1
          · simp [reported,expected,Prod.ext_iff,hm]
          · simp [reported,expected,Prod.ext_iff,ht,ho]
        · simp [reported,expected,Prod.ext_iff,ho]
      · simp [reported,expected,ht]

/-- What the recorder has at the end: at each path the changes that `reported` says, each with a path. -/
theorem recorder_changes (objects : Find Id) (l r : List (Entry Id)) (depthL depthR : ℕ)
    (hl : Available objects depthL l) (hr : Available objects depthR r) :
    ∃ bound p records,(∀ fuel,bound < fuel → neededToObtain recorder objects fuel (ok l) (ok r)
        Recorder.default=some (.ok (),⟨[],p,some .path,records⟩)) ∧
      (∀ P,(∀ n∈P,ValidName n) → (changesAt P records).Perm
        (reported (resolve objects l P) (resolve objects r P))) ∧
      ∀ record∈records,∃ P,P≠[] ∧ (∀ n∈P,ValidName n) ∧ record.path=join P := by
  have hl' := (hl.mono (Nat.le_max_left depthL depthR)).succ
  have hr' := (hr.mono (Nat.le_max_right depthL depthR)).succ
  obtain ⟨ls,hls,hsorted⟩ := exists_levels _ (hl'.pairs hr')
  have hnames : ∀ side∈merge key l r,ValidName (sideName side) :=
    fun side hs => sideName_valid hl.sorted.names hr.sorted.names hs
  have hroot := recorder_level (merge key l r) (fun side hs => (hnames side hs).2) [] [] []
  have hlen : (childLabels [] (merge key l r)).length=((merge key l r).flatMap sidePairs).length := by
    simp [childLabels]
  obtain ⟨p,hrun⟩ := runLevels_recorder hls (childLabels [] (merge key l r)) hlen (join [])
    (levelRecords [] (merge key l r))
  obtain ⟨n,b,_,hlevel,hd⟩ := neededLoop_level (v := recorder) (fun _ _ => rfl) objects hl.sorted.names hr.sorted.names []
    false (Recorder.default : Recorder Id)
  obtain ⟨m,hm⟩ := neededLoop_levels (fun _ _ => rfl) objects hls b (by
    have hstart : resumed recorder false (Recorder.default : Recorder Id)=recording [] (join []) [] := rfl
    rw [hd,hstart,hroot]
    simpa using hrun)
  have hlabels : ∀ P∈childLabels [] (merge key l r),∀ n∈P,ValidName n :=
    childLabels_valid (by simp) hnames
  refine ⟨n+m,p,levelRecords [] (merge key l r)++recordsFrom (childLabels [] (merge key l r)) ls,
    fun fuel hfuel => ?_,?_,?_⟩
  · obtain ⟨_,hfin⟩ := hm (fuel-n) (by omega)
    have hsplit : fuel=n+(fuel-n) := by omega
    rw [neededToObtain,hsplit,hlevel,List.nil_append,hfin]
    rfl
  · -- the root and what it queues make up the changes between the two trees
    intro P hP
    have h1 := changesAt_recordsFrom hls hlen hsorted hlabels hP
    have h2 := reportedAt_level objects hl.sorted hr.sorted (P := []) (by simp) hP
    rw [zip_children] at h1
    have happ : changesAt P (levelRecords [] (merge key l r)++
        recordsFrom (childLabels [] (merge key l r)) ls) =
        changesAt P (levelRecords [] (merge key l r))++
          changesAt P (recordsFrom (childLabels [] (merge key l r)) ls) := by simp [changesAt]
    have h3 : reportedAt objects [] l r P=reported (resolve objects l P) (resolve objects r P) := by
      cases P <;> simp [reportedAt,strip,resolve,reported]
    rw [happ,← h3]
    refine (h1.append_left _).trans (List.Perm.trans ?_ h2)
    simp [flatMap_assoc,flatMap_map]
  · intro record hrec
    rcases mem_append.mp hrec with hrec | hrec
    · obtain ⟨side,hside,hm⟩ := mem_flatMap.mp hrec
      obtain ⟨_,_,rfl⟩ := mem_map.mp hm
      refine ⟨[]++[sideName side],by simp,?_,rfl⟩
      intro n hn
      rw [nil_append,mem_singleton] at hn
      rw [hn]
      exact hnames side hside
    · exact recordsFrom_path hls hlen hlabels record hrec

/-- The recorder's changes are exact if and only if no entry changes its mode alone. -/
theorem recorder_exact_iff (objects : Find Id) (l r : List (Entry Id)) (depthL depthR : ℕ)
    (hl : Available objects depthL l) (hr : Available objects depthR r) :
    ∃ bound p records, (∀ fuel, bound < fuel → neededToObtain recorder objects fuel (ok l) (ok r)
        Recorder.default = some (.ok (),⟨[],p,some .path,records⟩)) ∧
      (Exact objects l r records ↔ SameModes objects l r) := by
  obtain ⟨bound,p,records,hrun,hchanges,hpaths⟩ := recorder_changes objects l r depthL depthR hl hr
  refine ⟨bound,p,records,hrun,?_⟩
  constructor
  · intro hex P a b ha hb ho ht
    have hP := resolve_valid hl ha
    have hperm := (hchanges P hP).symm.trans (hex.changes P hP)
    exact reported_perm_expected.mp hperm a b ha hb ho ht
  · intro hsame
    have hexp : ∀ P, (∀ n∈P, ValidName n) → (changesAt P records).Perm
        (expected (resolve objects l P) (resolve objects r P)) :=
      fun P hP => (hchanges P hP).trans (reported_perm_expected.mpr (hsame P))
    exact ⟨hexp,fun P hP => replay_expected (hexp P hP),hpaths⟩

/-- An object database with one tree, under id 9: it has a file `b` that is object 1. -/
def oneTree : Find ℕ := fun oid =>
  if oid = 9 then .ok (ok [⟨EntryKind.blob.mode,[98],1⟩]) else .error ()

/-- A tree with a file `a` and the subtree `d` of that database. -/
def plainFile : List (Entry ℕ) := [⟨EntryKind.blob.mode,[97],0⟩,⟨EntryKind.tree.mode,[100],9⟩]

/-- The same tree with `a` made executable. -/
def executableFile : List (Entry ℕ) := [⟨EntryKind.blobExecutable.mode,[97],0⟩,⟨EntryKind.tree.mode,[100],9⟩]

theorem oneTree_available {es : List (Entry ℕ)} (hes : SortedTree es)
    (hoid : ∀ e∈es,e.mode.isTree=true → e.oid=9) : Available oneTree 2 es := by
  refine ⟨hes,fun e he ht => ⟨[⟨EntryKind.blob.mode,[98],1⟩],?_,⟨by decide,by decide,by decide⟩,?_⟩⟩
  · simp [oneTree,hoid e he ht]
  · intro e he ht
    obtain rfl := mem_singleton.mp he
    exact absurd ht (by decide)

theorem plainFile_available : Available oneTree 2 plainFile :=
  oneTree_available ⟨by decide,by decide,by decide⟩ (by decide)

theorem recorder_exact_plainFile :
    ∃ bound p records, (∀ fuel, bound < fuel → neededToObtain recorder oneTree fuel (ok plainFile) (ok [])
        Recorder.default = some (.ok (),⟨[],p,some .path,records⟩)) ∧
      (Exact oneTree plainFile [] records ↔ SameModes oneTree plainFile []) :=
  recorder_exact_iff oneTree plainFile [] 2 1 plainFile_available
    ⟨⟨by simp,by simp,.nil⟩,by simp⟩

/-- Making a file executable is not reported. -/
theorem mode_change_unreported :
    Available oneTree 2 plainFile ∧ Available oneTree 2 executableFile ∧
      resolve oneTree plainFile [[97]] ≠ resolve oneTree executableFile [[97]] ∧
      neededToObtain recorder oneTree 5 (ok plainFile) (ok executableFile) Recorder.default =
        some (.ok (),⟨[],[100],some .path,[]⟩) := by
  refine ⟨plainFile_available,oneTree_available ⟨by decide,by decide,by decide⟩ (by decide),by decide,?_⟩
  rfl

end Gix.TreeDiff
