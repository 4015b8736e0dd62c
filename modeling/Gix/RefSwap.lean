import Gix.RefStore

/-! # Transactions that compare and swap

Transactions that all expect the same value of a loose reference and write another one. The
value is read before the lock is taken, so two of them can succeed; not so if the value is
still the same when the lock is taken. -/
namespace Gix.Ref
open Interleaving List Function Option

variable {ι : Type} {env : Env ι} {x y : ι} {files files' : Files ι} {u : Update} {t t' : Transaction}
  {name : FullName} {old : Target} {path : Path}

/-- A transaction that swaps the value of a loose reference. -/
structure Update.Swaps (u : Update) (name : FullName) (old : Target) : Prop where
  name : u.name = name
  expected : u.expected = .mustExistAndMatch old
  new : u.new ≠ old
  log : u.log = .andReference
  packedRefs : u.packedRefs = .deletionsOnly

def Party.isChecking : Party → Bool
  | .transaction _ t => t.phase = .check
  | .lookup _ => false

/-- The value is still the one that was read, if the next thing to do is to take the lock. -/
def Fresh (files : Files ι) : Party → Prop
  | .transaction u t => t.phase = .lock → files.looseTarget (loosePath u.name) = t.existing
  | .lookup _ => True

/-- When the lock is taken, the value is still the one that was read. It may be another one if taking the lock fails. -/
def FreshMove [DecidableEq ι] (env : Env ι) : Moves ι (Files ι) Party := fun i before after =>
  Move env i before after ∧ (after.2.isChecking = true → Fresh before.1 before.2)

def Transaction.Committed (t : Transaction) : Prop := t.phase = .commitPacked ∨ t.phase = .removeLoose ∨ t.phase = .done

/-- What holds of a swapping transaction, with `path` the loose file. -/
structure Swapping (path : Path) (old : Target) (x : ι) (files : Files ι) (u : Update) (t : Transaction) : Prop where
  noPacked : t.hasPacked = false ∧ t.buffer = none
  phase : t.phase ∉ [.snapshot,.lockBuffer,.lockedSnapshot,.preparePacked,.lockLate,.refresh]
  waits : t.phase = .packedKind ∨ t.phase = .lockPacked → files.packedLock ≠ none
  owns : t.phase ∈ [.check,.write,.reflog,.commitLoose] → t.hasLock = true ∧ files.looseTarget path = t.existing ∧
    ∃ content, files.looseLock path = some ⟨x,content⟩ ∧ (t.phase ∈ [.reflog,.commitLoose] → content = some u.new)
  checked : t.phase ∈ [.write,.reflog,.commitLoose] → t.existing = some old
  committed : t.Committed → files.looseTarget path ≠ some old

/-- What a party does to the files as far as others depend on it. -/
structure Effect (path : Path) (old : Target) (x : ι) (files files' : Files ι) : Prop where
  packed : files'.packed = files.packed
  packedLock : files'.packedLock = files.packedLock
  lock : files'.looseLock path = files.looseLock path ∨ ∀ l, files.looseLock path = some l → l.owner = x
  target : files'.looseTarget path = files.looseTarget path ∨
    (∃ l, files.looseLock path = some l ∧ l.owner = x) ∧ files.looseTarget path = some old

theorem Effect.refl (path : Path) (old : Target) (x : ι) (files : Files ι) : Effect path old x files files :=
  ⟨rfl,rfl,.inl rfl,.inl rfl⟩

/-- What others do leaves a transaction as it is. -/
theorem Swapping.frame (h : Swapping path old y files u t) (heffect : Effect path old x files files')
    (hne : y≠x) : Swapping path old y files' u t := by
  refine ⟨h.noPacked,h.phase,?_,?_,h.checked,?_⟩
  · rw [heffect.packedLock]
    exact h.waits
  · intro hphase
    obtain ⟨hhas,htarget,content,hlock,hcontent⟩ := h.owns hphase
    have hother : ¬∃ l,files.looseLock path=some l ∧ l.owner=x := by
      rintro ⟨l,hl,hx⟩
      rw [hlock] at hl
      rw [← some.inj hl] at hx
      exact hne hx
    have hlock' :=
      heffect.lock.resolve_right fun hall => hother ⟨_,hlock,hall _ hlock⟩
    have htarget' :=
      heffect.target.resolve_right fun hchanged => hother hchanged.1
    exact ⟨hhas,htarget'.trans htarget,content,hlock'.trans hlock,hcontent⟩
  · intro hcommitted
    have hold := h.committed hcommitted
    rwa [heffect.target.resolve_right fun hchanged => hold hchanged.2]

variable (hno : t.hasPacked = false ∧ t.buffer = none)
include hno

/-- Phases in which a transaction depends on nothing. -/
theorem Swapping.idle
    (hphase : t.phase∈[.packedFile,.packedLockFile,.read,.lock,.failed]) : Swapping path old x files u t := by
  simp only [mem_cons,not_mem_nil,or_false] at hphase
  rcases hphase with hp | hp | hp | hp | hp <;>
    exact ⟨hno,by simp [hp],by simp [hp],by simp [hp],by simp [hp],by simp [hp,Transaction.Committed]⟩

/-- Phases in which a transaction waits for a lock of `packed-refs`. -/
theorem Swapping.waiting (hlock : files.packedLock≠none)
    (hphase : t.phase∈[.packedKind,.lockPacked]) : Swapping path old x files u t := by
  simp only [mem_cons,not_mem_nil,or_false] at hphase
  rcases hphase with hp | hp <;>
    exact ⟨hno,by simp [hp],fun _ => hlock,by simp [hp],by simp [hp],by simp [hp,Transaction.Committed]⟩

theorem Swapping.over (htarget : files.looseTarget path≠some old)
    (hphase : t.Committed) : Swapping path old x files u t := by
  rcases hphase with hp | hp | hp <;> exact ⟨hno,by simp [hp],by simp [hp],by simp [hp],by simp [hp],fun _ => htarget⟩

theorem Swapping.locked {content : Option Target} (hhas : t.hasLock=true)
    (htarget : files.looseTarget path=t.existing) (hlock : files.looseLock path=some ⟨x,content⟩)
    (hphase : t.phase = .check ∨ t.existing=some old ∧
      (t.phase = .write ∨ content=some u.new ∧ (t.phase = .reflog ∨ t.phase = .commitLoose))) :
    Swapping path old x files u t := by
  rcases hphase with hp | ⟨_,hp | ⟨_,hp | hp⟩⟩ <;>
    exact ⟨hno,by simp [hp],by simp [hp],fun _ => ⟨hhas,htarget,content,hlock,by simp [*]⟩,by simp [*],by
      simp [hp,Transaction.Committed]⟩

omit hno

theorem Update.Swaps.packedPhase (hu : u.Swaps name old) : u.packedPhase = .read ∨ u.packedPhase = .packedKind := by
  have hedit : u.packedEdit=none := by
    unfold Update.packedEdit
    rw [hu.packedRefs]
    split <;> simp_all
  unfold Update.packedPhase
  rw [hedit]
  split
  · exact .inl rfl
  · exact .inr rfl

theorem Swapping.packedPhase (hu : u.Swaps name old) (hno : t.hasPacked=false ∧ t.buffer=none)
    (hlock : files.packedLock≠none) : Swapping path old x files u {t with phase := u.packedPhase} := by
  rcases hu.packedPhase with hp | hp
  · exact .idle hno (by simp [hp])
  · exact .waiting hno hlock (by simp [hp])

variable [DecidableEq ι] {s : Store ι} {p : Party}

theorem effect_release (hpacked : files.packedLock≠some x) (old : Target) :
    Effect path old x files ((files.release x path).releasePacked x) := by
  obtain ⟨hfile,hlock,hloose⟩ : (files.release x path).packed=files.packed ∧
      (files.release x path).packedLock=files.packedLock ∧ (files.release x path).loose=files.loose := by
    unfold Files.release
    split <;> exact ⟨rfl,rfl,rfl⟩
  have hsame : (files.release x path).releasePacked x=files.release x path := by
    rw [Files.releasePacked,if_neg (by rwa [hlock])]
  rw [hsame]
  refine ⟨hfile,hlock,?_,.inl (by rw [Files.looseTarget,Files.looseTarget,hloose])⟩
  unfold Files.release
  split
  · rename_i howner
    exact .inr fun l hl => by simpa [hl] using howner
  · exact .inl rfl

theorem Swapping.step (hu : u.Swaps name old) (hpath : loosePath u.name=path) (hpacked : files.packed=none)
    (h : Swapping path old x files u t) (hfresh : t'.phase = .check → Fresh files (.transaction u t))
    (hstep : u.step env x files t=some (files',t')) : Swapping path old x files' u t' ∧ Effect path old x files files' ∧
      (t'.Committed → t.Committed ∨ files.looseTarget path=some old) := by
  obtain ⟨hhas,hbuffer⟩ := h.noPacked
  unfold Update.step at hstep
  cases hp : t.phase <;> simp only [hp] at hstep
  case packedFile =>
    simp only [hu.packedRefs,hpacked] at hstep
    obtain ⟨rfl,rfl⟩ := hstep
    exact ⟨.idle h.noPacked (by simp),.refl _ _ _ _,by simp [Transaction.Committed]⟩
  case packedLockFile =>
    split at hstep
    · rename_i hlock
      cases hstep
      refine ⟨.packedPhase hu h.noPacked (isSome_iff_ne_none.mp hlock),.refl _ _ _ _,?_⟩
      rcases hu.packedPhase with hp | hp <;> simp [Transaction.Committed,hp]
    · cases hstep
      exact ⟨.idle h.noPacked (by simp),.refl _ _ _ _,by simp [Transaction.Committed]⟩
  case packedKind =>
    have hlock := h.waits (.inl hp)
    simp only [isSome_iff_ne_none.mpr hlock] at hstep
    cases hstep
    exact ⟨.waiting h.noPacked hlock (by simp),.refl _ _ _ _,by simp [Transaction.Committed]⟩
  case lockPacked =>
    have hlock := h.waits (.inr hp)
    simp [hlock] at hstep
  case read =>
    simp only [hhas,hbuffer] at hstep
    cases hstep
    exact ⟨.idle ⟨rfl,rfl⟩ (by simp),.refl _ _ _ _,by simp [Transaction.Committed]⟩
  case lock =>
    simp only [hpath] at hstep
    split at hstep
    · rename_i hfree
      cases hstep
      have htarget : files.looseTarget path=t.existing := by
        rw [← hpath]
        exact hfresh rfl hp
      have hlock : (files.takeLock x path).looseLock path=some ⟨x,none⟩ := update_self ..
      refine ⟨.locked h.noPacked rfl htarget hlock (.inl rfl),?_,by simp [Transaction.Committed]⟩
      exact ⟨rfl,rfl,.inr fun l hl => by simp [hl] at hfree,.inl rfl⟩
    · simp at hstep
  case check =>
    obtain ⟨hlocked,htarget,content,hlock,-⟩ := h.owns (by simp [hp])
    simp only [hlocked] at hstep
    split at hstep
    · rename_i hadmits
      have hold : t.existing=some old := by
        unfold Update.admits at hadmits
        rw [hu.expected] at hadmits
        cases hexisting : t.existing with
        | none => simp [hexisting] at hadmits
        | some existing => simpa [hexisting,eq_comm] using hadmits
      have hwrites : u.writesLoose t.existing=true := by
        simp [Update.writesLoose,Update.isEffective,hold,hu.new,Update.deleteLooseRefs,hu.packedRefs]
      rw [if_pos hwrites] at hstep
      cases hstep
      exact ⟨.locked h.noPacked rfl htarget hlock (.inr ⟨hold,.inl rfl⟩),.refl _ _ _ _,by simp [Transaction.Committed]⟩
    · simp at hstep
  case write =>
    obtain ⟨hlocked,htarget,content,hlock,-⟩ := h.owns (by simp [hp])
    have hold := h.checked (by simp [hp])
    simp only [hpath] at hstep
    cases hstep
    refine ⟨.locked h.noPacked hlocked htarget (update_self ..) (.inr ⟨hold,.inr ⟨rfl,.inl rfl⟩⟩),?_,by
      simp [Transaction.Committed]⟩
    exact ⟨rfl,rfl,.inr fun l hl => by rw [hlock] at hl; rw [← some.inj hl],.inl rfl⟩
  case reflog =>
    obtain ⟨hlocked,htarget,content,hlock,hcontent⟩ := h.owns (by simp [hp])
    have hold := h.checked (by simp [hp])
    cases hstep
    exact ⟨.locked h.noPacked hlocked htarget hlock (.inr ⟨hold,.inr ⟨hcontent (by simp [hp]),.inr rfl⟩⟩),.refl _ _ _ _,by
      simp [Transaction.Committed]⟩
  case commitLoose =>
    obtain ⟨hlocked,htarget,content,hlock,hcontent⟩ := h.owns (by simp [hp])
    have hold := htarget.trans (h.checked (by simp [hp]))
    simp only [hpath] at hstep
    rw [if_pos ⟨hlocked,by simp [Update.deleteLooseRefs,hu.packedRefs],hu.log⟩] at hstep
    cases hstep
    refine ⟨.over h.noPacked ?_ (.inl rfl),⟨rfl,rfl,.inr ?_,.inr ⟨⟨_,hlock,rfl⟩,hold⟩⟩,fun _ => .inr hold⟩
    · simp [Files.looseTarget,hlock,hcontent (by simp [hp]),hu.new]
    · intro l hl
      rw [hlock] at hl
      rw [← some.inj hl]
  case commitPacked =>
    simp only [hhas] at hstep
    cases hstep
    exact ⟨.over ⟨rfl,hbuffer⟩ (h.committed (.inl hp)) (.inr (.inl rfl)),.refl _ _ _ _,fun _ => .inl (.inl hp)⟩
  case removeLoose =>
    have hkeeps : u.removesLoose=false := by simp [Update.removesLoose,Update.deleteLooseRefs,hu.packedRefs]
    simp only [hkeeps] at hstep
    cases hstep
    exact ⟨.over h.noPacked (h.committed (.inr (.inl hp))) (.inr (.inr rfl)),.refl _ _ _ _,fun _ => .inl (.inr (.inl hp))⟩
  case done => cases hstep
  case failed => cases hstep
  all_goals
    have hphase := h.phase
    simp [hp] at hphase

/-- What holds in a store with swapping transactions. -/
structure SwapInvariant (name : FullName) (old : Target) (s : Store ι) : Prop where
  packed : s.shared.packed = none
  packedLock : ∀ x u t, s.party x = .transaction u t → s.shared.packedLock ≠ some x
  swaps : ∀ x u t, s.party x = .transaction u t → u.Swaps name old ∧ Swapping (loosePath name) old x s.shared u t
  once : ∀ x y u u' t t', s.party x = .transaction u t → s.party y = .transaction u' t' → t.Committed → t'.Committed → x = y

/-- A party that keeps to its effect keeps the invariant. -/
theorem SwapInvariant.set (h : SwapInvariant name old s)
    (heffect : Effect (loosePath name) old x s.shared files')
    (hlock : ∀ u t,p = .transaction u t → s.shared.packedLock≠some x)
    (hp : ∀ u t,p = .transaction u t → u.Swaps name old ∧ Swapping (loosePath name) old x files' u t)
    (hcommits : ∀ u t,p = .transaction u t → t.Committed →
      s.shared.looseTarget (loosePath name)=some old ∨ ∃ u' t',s.party x = .transaction u' t' ∧ t'.Committed) :
    SwapInvariant name old (s.set x (files',p)) := by
  have hparty : ∀ y u t,(s.set x (files',p)).party y = .transaction u t →
      y=x ∧ p = .transaction u t ∨ y≠x ∧ s.party y = .transaction u t := by
    intro y u t hy
    by_cases hyx : y=x
    · subst hyx
      exact .inl ⟨rfl,by simpa using hy⟩
    · exact .inr ⟨hyx,by rwa [set_party_of_ne hyx] at hy⟩
  -- nobody else has committed when the party commits
  have halone : ∀ u t y u' t',p = .transaction u t → t.Committed → y≠x → s.party y = .transaction u' t' →
      ¬t'.Committed := by
    intro u t y u' t' hpt ht hyx hy ht'
    rcases hcommits u t hpt ht with hold | ⟨v,w,hx,hw⟩
    · exact (h.swaps y u' t' hy).2.committed ht' hold
    · exact hyx (h.once y x u' v t' w hy hx ht' hw)
  refine ⟨heffect.packed.trans h.packed,?_,?_,?_⟩
  · intro y u t hy
    rw [set_shared,heffect.packedLock]
    rcases hparty y u t hy with ⟨rfl,hpt⟩ | ⟨-,hy⟩
    · exact hlock u t hpt
    · exact h.packedLock y u t hy
  · intro y u t hy
    rcases hparty y u t hy with ⟨rfl,hpt⟩ | ⟨hyx,hy⟩
    · exact hp u t hpt
    · exact ⟨(h.swaps y u t hy).1,(h.swaps y u t hy).2.frame heffect hyx⟩
  · intro y z u u' t t' hy hz ht ht'
    rcases hparty y u t hy with ⟨hyx,hpt⟩ | ⟨hyx,hy⟩ <;> rcases hparty z u' t' hz with ⟨hzx,hpt'⟩ | ⟨hzx,hz⟩
    · rw [hyx,hzx]
    · exact absurd ht' (halone u t z u' t' hpt ht hzx hz)
    · exact absurd ht (halone u' t' y u t hpt' ht' hyx hy)
    · exact h.once y z u u' t t' hy hz ht ht'

theorem SwapInvariant.step (h : SwapInvariant name old s) {next : Files ι × Party}
    (hmove : FreshMove env x (s.shared,s.party x) next) : SwapInvariant name old (s.set x next) := by
  obtain ⟨hmove,hfresh⟩ := hmove
  generalize hbefore : (s.shared,s.party x)=before at hmove hfresh
  cases hmove with
  | step hstep =>
    rename_i u files files' t t'
    obtain ⟨rfl,hx⟩ := Prod.mk.inj hbefore
    obtain ⟨hu,hswapping⟩ := h.swaps x u t hx
    obtain ⟨hswapping',heffect,hcommits⟩ := hswapping.step hu (by rw [hu.name]) h.packed (fun hp => hfresh (decide_eq_true hp)) hstep
    refine h.set heffect (fun v w _ => h.packedLock x u t hx) ?_ ?_
    · intro v w hvw
      cases hvw
      exact ⟨hu,hswapping'⟩
    · intro v w hvw hw
      cases hvw
      exact (hcommits hw).symm.imp_right fun ht => ⟨u,t,hx,ht⟩
  | fail hphase =>
    rename_i u files t
    obtain ⟨rfl,hx⟩ := Prod.mk.inj hbefore
    obtain ⟨hu,hswapping⟩ := h.swaps x u t hx
    have hlock := h.packedLock x u t hx
    refine h.set (by rw [Update.fail,hu.name]; exact effect_release hlock old) (fun v w _ => hlock) ?_ ?_
    · intro v w hvw
      cases hvw
      exact ⟨hu,.idle hswapping.noPacked (by simp [Update.fail])⟩
    · intro v w hvw hw
      cases hvw
      simp [Transaction.Committed,Update.fail] at hw
  | look hstep =>
    obtain ⟨rfl,hx⟩ := Prod.mk.inj hbefore
    obtain ⟨_,rfl⟩ := Lookup.step_files hstep
    exact h.set ⟨rfl,rfl,.inl rfl,.inl rfl⟩ (by simp) (by simp) (by simp)

/-- Swapping transactions begin, without a file `packed-refs`. -/
structure SwapStart (name : FullName) (old : Target) (s : Store ι) : Prop where
  packed : s.shared.packed = none
  transactions : ∀ x u t, s.party x = .transaction u t → u.Swaps name old ∧ t = .new ∧ s.shared.packedLock ≠ some x

omit [DecidableEq ι] in
theorem SwapStart.invariant (h : SwapStart name old s) : SwapInvariant name old s := by
  refine ⟨h.packed,fun x u t hx => (h.transactions x u t hx).2.2,?_,?_⟩
  · intro x u t hx
    obtain ⟨hu,rfl,-⟩ := h.transactions x u t hx
    exact ⟨hu,.idle ⟨rfl,rfl⟩ (by simp [Transaction.new])⟩
  · intro x y u u' t t' hx _ ht _
    obtain ⟨-,rfl,-⟩ := h.transactions x u t hx
    simp [Transaction.Committed,Transaction.new] at ht

/-- At most one transaction succeeds if each one takes the lock while the value is still the one
that it has read. -/
theorem one_swap_succeeds (env : Env ι) (name : FullName) (old : Target) {s s' : Store ι} (hstart : SwapStart name old s)
    (hrun : Reaches (FreshMove env) s s') {x y : ι} (hne : x ≠ y) {u u' : Update} {t t' : Transaction}
    (hx : s'.party x = .transaction u t) (hy : s'.party y = .transaction u' t') :
    ¬(t.phase = .done ∧ t'.phase = .done) := by
  rintro ⟨ht,ht'⟩
  have hinv := hrun.invariant hstart.invariant (fun s i next h hmove => h.step hmove)
  exact hne (hinv.once x y u u' t t' hx hy (.inr (.inr ht)) (.inr (.inr ht')))

/-- Two transactions that change the same branch. -/
def twoSwaps : Store Bool :=
  ⟨⟨fun _ => some (.target (.object (Vector.replicate 20 1))),fun _ => none,none,none,fun _ => none,0⟩,
    fun x => .transaction ⟨ascii ['r','e','f','s','/','h','e','a','d','s','/','m'],
      .mustExistAndMatch (.object (Vector.replicate 20 1)),.object (Vector.replicate 20 (if x then 2 else 3)),
      .andReference,.deletionsOnly⟩ .new⟩

def sampleStores : Env Bool := ⟨fun _ => true,id⟩

theorem twoSwaps_start : SwapStart (ascii ['r','e','f','s','/','h','e','a','d','s','/','m'])
    (.object (Vector.replicate 20 1)) twoSwaps := by
  refine ⟨rfl,?_⟩
  rintro x u t hx
  cases hx
  exact ⟨⟨rfl,rfl,by cases x <;> decide,rfl,rfl⟩,rfl,by simp [twoSwaps]⟩

def Party.isDone : Party → Bool
  | .transaction _ t => t.phase = .done
  | .lookup _ => false

theorem isDone_iff : p.isDone=true ↔ ∃ u t,p = .transaction u t ∧ t.phase = .done := by
  cases p with
  | transaction u t => simp [Party.isDone]
  | lookup l => simp [Party.isDone]

instance (files : Files ι) (p : Party) : Decidable (Fresh files p) :=
  match p with
  | .transaction u t => inferInstanceAs (Decidable (t.phase = .lock → files.looseTarget (loosePath u.name) = t.existing))
  | .lookup _ => inferInstanceAs (Decidable True)

/-- The one succeeds and then the other one does not. -/
theorem one_swap_succeeds_first : ∃ s', Reaches (FreshMove sampleStores) twoSwaps s' ∧ (s'.party true).isDone = true ∧
    (s'.party false).isDone = false := by
  have hrun : (runSchedule sampleStores (fun p => decide (Fresh p.1 p.2)) (replicate 10 true) twoSwaps).any
      (fun s => (s.party true).isDone)=true := by decide
  obtain ⟨s',hs',hdone⟩ := (any_eq_true _ _).mp hrun
  have hreaches : Reaches (FreshMove sampleStores) twoSwaps s' :=
    (runSchedule_reaches hs').mono fun i before after h => ⟨h.1,fun _ => of_decide_eq_true h.2⟩
  refine ⟨s',hreaches,hdone,Bool.eq_false_iff.mpr fun hother => ?_⟩
  obtain ⟨_,_,hx,ht⟩ := isDone_iff.mp hdone
  obtain ⟨_,_,hy,ht'⟩ := isDone_iff.mp hother
  exact one_swap_succeeds sampleStores _ _ twoSwaps_start hreaches Bool.noConfusion hx hy ⟨ht,ht'⟩

/-- Both read the old value before the first one takes the lock, and both succeed. -/
theorem two_swaps_succeed : ∃ s', Reaches (Move sampleStores) twoSwaps s' ∧ (s'.party true).isDone = true ∧
    (s'.party false).isDone = true := by
  have hrun : (runSchedule sampleStores (fun _ => true) (replicate 3 true++replicate 10 false++replicate 7 true)
      twoSwaps).any (fun s => (s.party true).isDone && (s.party false).isDone)=true := by decide
  obtain ⟨s',hs',hdone⟩ := (any_eq_true _ _).mp hrun
  exact ⟨s',(runSchedule_reaches hs').mono fun i before after h => h.1,Bool.and_eq_true_iff.mp hdone⟩

end Gix.Ref
