import Gix.RefLookup

/-! # When lookups see the old or the new value

They do in all interleavings just if the value could be read from `packed-refs` all the time
whenever the transaction removes the loose file. -/
namespace Gix.Ref
open Gix.Pack Interleaving List Update Candidate Vector Reaches

variable {ι : Type} {env : Env ι} {a b : ι} {s : Store ι} {u : Update} {partialName : Bytes}
  {pre post : List Candidate} {c : Candidate} {name : FullName} {old : Target}

/-- A transaction that commits an object update of an existing reference, and lookups, one of
which is about this reference. -/
structure UpdateStart (env : Env ι) (a b : ι) (s : Store ι) (u : Update) (partialName : Bytes) (pre post : List Candidate)
    (c : Candidate) (name : FullName) (old : Target) : Prop where
  transaction : s.party a = .transaction u .new
  lookup : s.party b = .lookup (.start partialName)
  others : ∀ i, i ≠ a → ∃ l, s.party i = .lookup l
  timely : Timely s.shared
  candidates : candidates partialName = pre++c :: post
  reference : c.name = u.name
  missing : ∀ d ∈ pre, d.find s.shared s.shared.packedRefs = none
  found : c.find s.shared s.shared.packedRefs = some (.ok (some (name,old)))
  log : u.log = .andReference
  object : ∃ id, u.new = .object id ∧ env.peels id = true
  admits : u.admits (some old) = true
  unlocked : s.shared.packedLock = none ∧ s.shared.looseLock (loosePath u.name) = none

/-- Whatever happens, the lookup gives the old or the new value, and it comes to an end. -/
def LooksUp [DecidableEq ι] (env : Env ι) (b : ι) (s : Store ι) (u : Update) (old : Target) : Prop :=
  ∀ s', Reaches (Move env) s s' → (∀ r, s'.party b = .lookup (.done r) → OldOrNew u old r) ∧
    ∃ s'' r, Reaches (Move env) s' s'' ∧ s''.party b = .lookup (.done r)

/-! Every interleaving -/

/-- The states of the lookup. -/
def Looking (u : Update) (before : Files ι) (partialName : Bytes) (pre post : List Candidate) (c : Candidate) (old : Target) :
    Lookup → Prop
  | .start partialName' => partialName' = partialName
  | .search packed rest => Near u before (packed.getD (fun _ => none)) ∧ ∃ pre', pre' ⊆ pre ∧ rest = pre'++c :: post
  | .done r => OldOrNew u old r

structure LookupInvariant (a b : ι) (u : Update) (before : Files ι) (partialName : Bytes) (pre post : List Candidate)
    (c : Candidate) (old : Target) (s : Store ι) : Prop where
  transaction : ∃ t, s.party a = .transaction u t ∧ Updating u before s.shared t a
  others : ∀ i, i ≠ a → ∃ l, s.party i = .lookup l
  lookup : ∃ l, s.party b = .lookup l ∧ Looking u before partialName pre post c old l

variable (h : UpdateStart env a b s u partialName pre post c name old)
include h

theorem UpdateStart.ne : b≠a := by
  rintro rfl
  have := h.lookup
  rw [h.transaction] at this
  simp at this

theorem UpdateStart.apart :
    (∀ d∈pre,Apart d.name u.name) ∧ ∀ d∈post,Apart u.name d.name := by
  have hapart := candidates_apart partialName
  rw [h.candidates] at hapart
  obtain ⟨-,hpost,hpre⟩ := pairwise_append.mp hapart
  rw [← h.reference]
  exact ⟨fun d hd => hpre d hd c mem_cons_self,fun d hd => rel_of_pairwise_cons hpost hd⟩

theorem UpdateStart.invariant :
    LookupInvariant a b u s.shared partialName pre post c old s := by
  refine ⟨⟨.new,h.transaction,h.timely,fun _ _ => rfl,.inl rfl,fun name => .inl rfl,?_,?_,?_,?_⟩,h.others,
    _,h.lookup,rfl⟩ <;> simp [Transaction.new]

omit h

variable [DecidableEq ι]

section Run
variable {start : Store ι} (hstart : UpdateStart env a b start u partialName pre post c name old)
  (hbefore : PackedBefore u start.shared c old)
include hstart hbefore

theorem Looking.step {files files' : Files ι} {t : Transaction} {l l' : Lookup} {i : ι}
    (h : Updating u start.shared files t a) (hl : Looking u start.shared partialName pre post c old l)
    (hstep : l.step env i files=some (files',l')) : Looking u start.shared partialName pre post c old l' := by
  cases l with
  | start partialName' =>
    cases hstep
    obtain rfl : partialName'=partialName := hl
    refine ⟨?_,pre,List.Subset.refl _,hstart.candidates⟩
    rw [h.timely.recentSnapshot]
    exact h.packed
  | search packed rest =>
    obtain ⟨hpacked,pre',hsub,rfl⟩ := hl
    cases pre' with
    | nil =>
      obtain ⟨r,hr,hold⟩ := find_oldOrNew h hstart.reference hpacked hstart.found hbefore
      simp only [nil_append,Lookup.step,hr] at hstep
      cases hstep
      exact hold
    | cons d pre' =>
      obtain ⟨hd,hsub⟩ := cons_subset.mp hsub
      have hapart := hstart.apart.1 d hd
      have hnone := hstart.missing d hd
      have hnone : d.find files packed=none := by
        unfold find at hnone ⊢
        rw [h.others _ hapart.path]
        split at hnone
        · simp at hnone
        · simp at hnone
        · rcases hpacked.inPacked with hsame | ⟨_,_,hedit,hname,-⟩
          · rwa [← hsame] at hnone
          · exact absurd (packedEdit_new hedit).2 (hapart.reported hname)
      simp only [cons_append,Lookup.step,hnone] at hstep
      cases hstep
      exact ⟨hpacked,pre',hsub,rfl⟩
  | done r => simp [Lookup.step] at hstep

theorem LookupInvariant.step (h : LookupInvariant a b u start.shared partialName pre post c old s) {i : ι}
    {next : Files ι × Party} (hmove : Move env i (s.shared,s.party i) next) :
    LookupInvariant a b u start.shared partialName pre post c old (s.set i next) := by
  obtain ⟨t,ht,hupdating⟩ := h.transaction
  generalize hstate : (s.shared,s.party i)=state at hmove
  -- there is only one transaction
  have htransaction : ∀ v w,s.party i = .transaction v w → i=a ∧ v=u ∧ w=t := by
    intro v w hi
    by_cases hia : i=a
    · subst hia
      rw [ht] at hi
      cases hi
      exact ⟨rfl,rfl,rfl⟩
    · obtain ⟨l,hl⟩ := h.others i hia
      rw [hl] at hi
      simp at hi
  have hkeep : ∀ {files' : Files ι} {t' : Transaction},Updating u start.shared files' t' a →
      LookupInvariant a b u start.shared partialName pre post c old (s.set a (files',.transaction u t')) := by
    intro files' t' hupdating'
    refine ⟨⟨t',by simp,hupdating'⟩,fun j hj => ?_,?_⟩
    · rw [set_party_of_ne hj]
      exact h.others j hj
    · rw [set_party_of_ne hstart.ne]
      exact h.lookup
  cases hmove with
  | step hstep =>
    obtain ⟨rfl,hi⟩ := Prod.mk.inj hstate
    obtain ⟨rfl,rfl,rfl⟩ := htransaction _ _ hi
    exact hkeep (hupdating.step hstep)
  | fail hphase =>
    obtain ⟨rfl,hi⟩ := Prod.mk.inj hstate
    obtain ⟨rfl,rfl,rfl⟩ := htransaction _ _ hi
    exact hkeep hupdating.fail
  | look hstep =>
    rename_i files files' l l'
    obtain ⟨rfl,hi⟩ := Prod.mk.inj hstate
    have hia : i≠a := by
      rintro rfl
      rw [ht] at hi
      simp at hi
    refine ⟨⟨t,by rw [set_party_of_ne hia.symm]; exact ht,hupdating.look hstep⟩,fun j hj => ?_,?_⟩
    · by_cases hji : j=i
      · subst hji
        exact ⟨l',by simp⟩
      · rw [set_party_of_ne hji]
        exact h.others j hj
    · obtain ⟨lb,hlb,hlooking⟩ := h.lookup
      by_cases hbi : b=i
      · subst hbi
        rw [hlb] at hi
        cases hi
        exact ⟨l',by simp,hlooking.step hstart hbefore hupdating hstep⟩
      · exact ⟨lb,by rw [set_party_of_ne hbi]; exact hlb,hlooking⟩

end Run

/-! A lookup comes to an end -/

/-- The result is not about a reference other than the given ones. -/
def About (rest : List Candidate) (r : Found) : Prop :=
  ∀ name t, r = .ok (some (name,t)) → ∃ d ∈ rest, name ∈ reported d.name

variable {files : Files ι} {packed : Option Buffer} {t : Transaction}

omit [DecidableEq ι] in
theorem find_about {d : Candidate} {r : Found} (h : d.find files packed=some r) : About [d] r := by
  rintro name t rfl
  unfold find at h
  split at h
  · obtain ⟨rfl,-⟩ : d.name=name ∧ _ := by simpa using h
    exact ⟨d,by simp,by simp [reported]⟩
  · simp at h
  · obtain ⟨⟨name',_⟩,hin,heq⟩ := Option.map_eq_some_iff.mp h
    obtain ⟨rfl,-⟩ : name'=name ∧ _ := by simpa using heq
    exact ⟨d,by simp,inPacked_reported hin⟩

theorem search_finishes (env : Env ι) (b : ι) (files : Files ι) (packed : Option Buffer) (rest : List Candidate) :
    ∃ r,About rest r ∧ Relation.ReflTransGen (Move env b) (files,.lookup (.search packed rest)) (files,.lookup (.done r)) := by
  induction rest with
  | nil => exact ⟨.ok none,by simp [About],.single (.look rfl)⟩
  | cons d rest ih =>
    cases hd : d.find files packed with
    | some r =>
      refine ⟨r,fun name t hr => ?_,.single (.look (by simp [Lookup.step,hd]))⟩
      obtain ⟨d',hd',hname⟩ := find_about hd name t hr
      exact ⟨d',by simp_all,hname⟩
    | none =>
      obtain ⟨r,habout,hrun⟩ := ih
      refine ⟨r,fun name t hr => ?_,.head (.look (by simp [Lookup.step,hd])) hrun⟩
      obtain ⟨d',hd',hname⟩ := habout name t hr
      exact ⟨d',mem_cons_of_mem _ hd',hname⟩

theorem lookup_finishes (env : Env ι) (b : ι) (files : Files ι) (l : Lookup) :
    ∃ files' r,Relation.ReflTransGen (Move env b) (files,.lookup l) (files',.lookup (.done r)) := by
  cases l with
  | start partialName =>
    obtain ⟨r,-,hrun⟩ := search_finishes env b (files.takeSnapshot env b).2 (files.takeSnapshot env b).1 (candidates partialName)
    exact ⟨_,r,.head (.look rfl) hrun⟩
  | search packed rest =>
    obtain ⟨r,-,hrun⟩ := search_finishes env b files packed rest
    exact ⟨files,r,hrun⟩
  | done r => exact ⟨files,r,.refl⟩

/-! A transaction that moves the reference to `packed-refs` -/

/-- The transaction can go on alone until it is done and the loose file is gone. -/
def Removes (env : Env ι) (a : ι) (u : Update) (files : Files ι) (t : Transaction) : Prop :=
  ∃ files' t', Relation.ReflTransGen (Move env a) (files,.transaction u t) (files',.transaction u t') ∧ t'.phase = .done ∧
    files'.loose (loosePath u.name) = none

theorem Removes.step {files' : Files ι} {t' : Transaction} (hstep : u.step env a files t=some (files',t'))
    (h : Removes env a u files' t') : Removes env a u files t := by
  obtain ⟨last,tlast,hrun,hlast⟩ := h
  exact ⟨last,tlast,.head (.step hstep) hrun,hlast⟩

variable (hremoves : u.removesLoose = true)
include hremoves

theorem removes_finally (files : Files ι) (ht : t.phase = .removeLoose) :
    Removes env a u files t := by
  refine ⟨_,_,.single (.step (by simp only [step,ht,if_pos hremoves]; rfl)),rfl,?_⟩
  simp

theorem removes_checked (hadmits : u.admits (some old)=true) (files : Files ι)
    (ht : t.phase = .check) (hold : t.existing=some old) : Removes env a u files t := by
  have hmode : u.deleteLooseRefs=true ∧ u.isSymbolic=false := by
    simp only [removesLoose,Bool.and_eq_true,Bool.not_eq_true'] at hremoves
    exact ⟨hremoves.1.1,hremoves.2⟩
  have hwrites : u.writesLoose (some old)=false := by simp [writesLoose,hmode]
  refine .step (by simp only [step,ht,hold,hadmits,hwrites]; rfl) ?_
  refine .step (by simp only [step]; rfl) ?_
  refine .step (by simp only [step]; rfl) ?_
  by_cases hhas : t.hasPacked=true
  · cases hedit : u.packedEdit <;>
      refine .step (by simp only [step,hhas,hedit]; rfl) ?_ <;>
      exact .step (by simp only [step]; rfl) (removes_finally hremoves _ rfl)
  · exact .step (by simp only [step,if_neg hhas]; rfl) (removes_finally hremoves _ rfl)

variable (h : UpdateStart env a b s u partialName pre post c name old)
include h

theorem removes_new
    (hpacked : files.packedLock=none) (hlock : files.looseLock (loosePath u.name)=none)
    (hloose : files.looseTarget (loosePath u.name)=some old) : Removes env a u files .new := by
  obtain ⟨id,hid,hpeels⟩ := h.object
  have hmode : u.packedRefs = .deletionsAndNonSymbolicUpdatesRemoveLooseSourceReference := by
    simp only [removesLoose,Bool.and_eq_true,deleteLooseRefs,decide_eq_true_eq] at hremoves
    exact hremoves.1.1
  have hread : ∀ (files : Files ι) (t : Transaction),t.phase = .read → files.looseTarget (loosePath u.name)=some old →
      files.looseLock (loosePath u.name)=none → Removes env a u files t := by
    intro files t ht hloose hlock
    refine .step (by simp only [step,ht,hloose]; rfl) ?_
    by_cases hhas : t.hasPacked=true
    · exact removes_checked hremoves h.admits files (by simp [hhas]) rfl
    · refine .step (by simp only [step,if_neg hhas,hlock]; rfl) ?_
      exact removes_checked hremoves h.admits _ rfl rfl
  refine .step (by simp only [step,hmode]; rfl) ?_
  cases hname : u.packedName with
  | none => exact hread files _ (by simp [packedPhase,hname]) hloose hlock
  | some packedName =>
    have hedit : u.packedEdit=some (packedName,id) := by simp [packedEdit,hname,hmode,hid]
    have hphase : u.packedPhase = .lockPacked := by simp [packedPhase,hname,hedit]
    refine .step (by simp only [step,hphase,hpacked]; rfl) ?_
    refine .step (by simp only [step]; rfl) ?_
    refine .step (by simp only [step,hedit,Option.all_some,hpeels]; rfl) ?_
    exact hread _ _ rfl hloose hlock

omit hremoves

omit h in
/-- A lookup goes on to the reference if the names before it are missing. -/
theorem search_skips (env : Env ι) (b : ι) {rest : List Candidate} (h : ∀ d∈pre,d.find files packed=none) :
    Relation.ReflTransGen (Move env b) (files,.lookup (.search packed (pre++rest))) (files,.lookup (.search packed rest)) := by
  induction pre with
  | nil => exact .refl
  | cons d pre ih =>
    refine .head (.look (by simp [Lookup.step,h d mem_cons_self])) (ih fun d hd => ?_)
    exact h d (mem_cons_of_mem _ hd)

/-- If the loose file is gone and the snapshot is of no use, the lookup gives something else. -/
theorem search_misses
    (hloose : files.loose (loosePath u.name)=none)
    (hpacked : ¬∃ name id,c.inPacked packed=some (name,id) ∧ (.object id=old ∨ .object id=u.new)) :
    ∃ r,¬OldOrNew u old r ∧
      Relation.ReflTransGen (Move env b) (files,.lookup (.search packed (c::post))) (files,.lookup (.done r)) := by
  cases hin : c.inPacked packed with
  | some found =>
    obtain ⟨name',id⟩ := found
    refine ⟨.ok (some (name',.object id)),?_,.single (.look (by
      simp [Lookup.step,find,h.reference,hloose,hin]))⟩
    rintro ⟨name'',-,hr | hr⟩
    · exact hpacked ⟨name',id,hin,.inl (by simpa using (Prod.mk.inj (Option.some.inj (Except.ok.inj hr))).2)⟩
    · exact hpacked ⟨name',id,hin,.inr (by simpa using (Prod.mk.inj (Option.some.inj (Except.ok.inj hr))).2)⟩
  | none =>
    obtain ⟨r,habout,hrun⟩ := search_finishes env b files packed post
    refine ⟨r,?_,.head (.look (by simp [Lookup.step,find,h.reference,hloose,hin])) hrun⟩
    rintro ⟨name',hname',hr⟩
    obtain ⟨d,hd,hname⟩ : ∃ d∈post,name'∈reported d.name := by
      rcases hr with hr | hr <;> exact habout name' _ hr
    exact (h.apart.2 d hd).reported hname' hname

/-- The snapshot is taken, the reference is moved to `packed-refs`, and then the loose file is
opened. -/
theorem UpdateStart.misses
    (hnot : ¬PackedBefore u s.shared c old) : ¬LooksUp env b s u old := by
  obtain ⟨hremoves,_,hpacked⟩ : u.removesLoose=true ∧ s.shared.loose (loosePath u.name)≠none ∧
      ¬∃ name id,c.inPacked s.shared.packedRefs=some (name,id) ∧ (.object id=old ∨ .object id=u.new) := by
    simpa only [PackedBefore,Classical.not_imp] using hnot
  have hloose : s.shared.looseTarget (loosePath u.name)=some old := by
    have hfound := h.found
    unfold find at hfound
    rw [h.reference] at hfound
    unfold Files.looseTarget
    split at hfound
    · rename_i t ht
      rw [ht]
      have hsame : u.name=name ∧ t=old := by simpa using hfound
      exact congrArg some hsame.2
    · simp at hfound
    · contradiction
  -- the lookup takes the snapshot and goes on to the reference
  have hsnapshot := (h.timely.takeSnapshot env b).1
  obtain ⟨files1,hfiles1⟩ : ∃ files1,files1=(s.shared.takeSnapshot env b).2 := ⟨_,rfl⟩
  have hfind1 : ∀ d : Candidate,d.find files1 s.shared.packedRefs=d.find s.shared s.shared.packedRefs := by
    intro d
    rw [hfiles1]
    rfl
  have hrun1 : Relation.ReflTransGen (Move env b) (s.shared,s.party b)
      (files1,.lookup (.search s.shared.packedRefs (c::post))) := by
    rw [h.lookup]
    have hstep : (Lookup.start partialName).step env b s.shared=some (files1,.search s.shared.packedRefs (pre++c::post)) := by
      rw [← h.candidates,← hsnapshot,hfiles1]
      rfl
    exact .head (.look hstep) (search_skips env b fun d hd => (hfind1 d).trans (h.missing d hd))
  -- the transaction runs to its end
  obtain ⟨files2,t,hrun2,-,hgone⟩ : Removes env a u files1 .new := by
    rw [hfiles1]
    exact removes_new h hremoves h.unlocked.1 h.unlocked.2 hloose
  obtain ⟨r,hr,hrun3⟩ := search_misses h hgone hpacked
  let s1 := s.set b (files1,.lookup (.search s.shared.packedRefs (c::post)))
  let s2 := s1.set a (files2,.transaction u t)
  have hreach1 : Reaches (Move env) s s1 := alone hrun1
  have hreach2 : Reaches (Move env) s1 s2 := by
    refine alone ?_
    rw [set_party_of_ne h.ne.symm,h.transaction]
    exact hrun2
  have hreach3 : Reaches (Move env) s2 (s2.set b (files2,.lookup (.done r))) := by
    refine alone ?_
    rw [set_party_of_ne h.ne,set_party_self]
    exact hrun3
  intro hlooks
  exact hr ((hlooks _ ((hreach1.trans hreach2).trans hreach3)).1 r set_party_self)

omit h

/-- A lookup sees the old or the new value in all interleavings just if a transaction that removes
the loose file finds one of them in `packed-refs`. -/
theorem looksUp_iff (env : Env ι) (a b : ι) (s : Store ι) (u : Update) (partialName : Bytes) (pre post : List Candidate)
    (c : Candidate) (name : FullName) (old : Target) (h : UpdateStart env a b s u partialName pre post c name old) :
    LooksUp env b s u old ↔ PackedBefore u s.shared c old := by
  constructor
  · intro hlooks
    by_contra hnot
    exact h.misses hnot hlooks
  · intro hbefore s' hrun
    have hinv := hrun.invariant h.invariant fun s i next hs hmove => hs.step h hbefore hmove
    obtain ⟨l,hl,hlooking⟩ := hinv.lookup
    constructor
    · intro r hr
      rw [hl] at hr
      cases hr
      exact hlooking
    · obtain ⟨_,r,hfinish⟩ := lookup_finishes env b s'.shared l
      exact ⟨_,r,alone (hl ▸ hfinish),set_party_self⟩

/-- A branch in `packed-refs`, which is also loose with another value, is moved to `packed-refs`. -/
def packingBranch (packed : ObjectId) : Store Bool :=
  let branch := ascii ['r','e','f','s','/','h','e','a','d','s','/','m']
  ⟨⟨Function.update (fun _ => none) (loosePath branch) (some (.target (.object (Vector.replicate 20 1)))),fun _ => none,
      some ⟨Function.update (fun _ => none) branch (some packed),0⟩,none,fun _ => none,0⟩,
    fun x => if x then .transaction ⟨branch,.mustExist,.object (Vector.replicate 20 2),.andReference,
        .deletionsAndNonSymbolicUpdatesRemoveLooseSourceReference⟩ .new
      else .lookup (.start branch)⟩

theorem packingBranch_start (packed : ObjectId) : ∃ u pre post c name,UpdateStart ⟨fun _ => true,id⟩ true false
    (packingBranch packed) u (ascii ['r','e','f','s','/','h','e','a','d','s','/','m']) pre post c name
    (.object (replicate 20 1)) ∧ c.inPacked (packingBranch packed).shared.packedRefs=some (name,packed) := by
  refine ⟨_,[],_,_,_,⟨rfl,rfl,?_,?_,rfl,rfl,by simp,rfl,rfl,⟨_,rfl,rfl⟩,rfl,rfl,rfl⟩,rfl⟩
  · rintro (_ | _) hi
    · exact ⟨_,rfl⟩
    · exact absurd rfl hi
  · refine ⟨fun f hf => ?_,by simp [packingBranch]⟩
    cases hf
    exact Nat.le_refl 0

theorem looksUp_packed_before : ∃ u, LooksUp ⟨fun _ => true,id⟩ false (packingBranch (Vector.replicate 20 1)) u
    (.object (Vector.replicate 20 1)) ∧ u.removesLoose = true := by
  obtain ⟨u,_,_,_,name,hstart,hpacked⟩ := packingBranch_start (replicate 20 1)
  refine ⟨u,(looksUp_iff _ _ _ _ _ _ _ _ _ _ _ hstart).mpr fun _ _ => ⟨name,_,hpacked,.inl rfl⟩,?_⟩
  have hu := hstart.transaction
  cases hu
  rfl

/-- The branch had the value 1 and gets the value 2, but the lookup gives 0. -/
theorem packed_value_returned : (∃ u pre post c name, UpdateStart ⟨fun _ => true,id⟩ true false
    (packingBranch (Vector.replicate 20 0)) u (ascii ['r','e','f','s','/','h','e','a','d','s','/','m']) pre post c name
    (.object (Vector.replicate 20 1))) ∧ ∃ s', Reaches (Move ⟨fun _ => true,id⟩) (packingBranch (Vector.replicate 20 0)) s' ∧
      s'.party false = .lookup (.done (.ok (some (ascii ['r','e','f','s','/','h','e','a','d','s','/','m'],
        .object (Vector.replicate 20 0))))) := by
  obtain ⟨u,pre,post,c,name,hstart,-⟩ := packingBranch_start (replicate 20 0)
  obtain ⟨s',hs',hfound⟩ : ∃ s', runSchedule ⟨fun _ => true,id⟩ (fun _ => true) (false::replicate 11 true++[false])
      (packingBranch (replicate 20 0))=some s' ∧ s'.party false = .lookup (.done (.ok (some
        (ascii ['r','e','f','s','/','h','e','a','d','s','/','m'],.object (replicate 20 0))))) := ⟨_,rfl,rfl⟩
  exact ⟨⟨u,pre,post,c,name,hstart⟩,s',(runSchedule_reaches hs').mono fun i before after h => h.1,hfound⟩

end Gix.Ref
