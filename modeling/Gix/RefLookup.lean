import Gix.RefStore

/-! # Lookups while a reference is updated

A lookup takes its snapshot of `packed-refs` before it opens the loose file. If the transaction
moves the reference to `packed-refs` in between, the lookup sees neither the one nor the other. -/
namespace Gix.Ref
open Gix.Pack Interleaving Function Option Candidate

variable {ι : Type} {files files' : Files ι}

/-! Snapshots -/

/-- The time of modification tells whether a snapshot is up to date. -/
structure Timely (files : Files ι) : Prop where
  packed : ∀ f, files.packed = some f → f.modified ≤ files.clock
  snapshots : ∀ k snapshot, files.snapshots k = some snapshot → snapshot.modified ≤ files.clock ∧
    ∀ f, files.packed = some f → snapshot.modified < f.modified ∨ snapshot.refs = f.refs

def Files.packedRefs (files : Files ι) : Option Buffer := files.packed.map PackedFile.refs

theorem Timely.recentSnapshot (h : Timely files) (k : ι) :
    (recentSnapshot (files.snapshots k) files.packed).map PackedFile.refs=files.packedRefs := by
  unfold Files.packedRefs
  cases hsnapshot : files.snapshots k with
  | none => cases hpacked : files.packed <;> rfl
  | some snapshot =>
    cases hpacked : files.packed with
    | none => rfl
    | some f =>
      simp only [Ref.recentSnapshot]
      split
      · rfl
      · rename_i hnot
        exact congrArg some (((h.snapshots k snapshot hsnapshot).2 f hpacked).resolve_left hnot)

theorem Timely.writePacked (h : Timely files) (buffer : Option Buffer) (name : FullName) (id : ObjectId) :
    Timely (files.writePacked buffer name id) := by
  refine ⟨fun f hf => ?_,fun k snapshot hk => ?_⟩
  · cases hf
    exact Nat.le_refl _
  · have hold := (h.snapshots k snapshot hk).1
    refine ⟨Nat.le_succ_of_le hold,fun f hf => ?_⟩
    cases hf
    exact .inl (Nat.lt_succ_of_le hold)

theorem Timely.congr (h : Timely files) (hpacked : files'.packed=files.packed) (hclock : files'.clock=files.clock)
    (hsnapshots : files'.snapshots=files.snapshots) : Timely files' := by
  obtain ⟨_,_⟩ := h
  exact ⟨by rwa [hpacked,hclock],by rwa [hsnapshots,hpacked,hclock]⟩

variable [DecidableEq ι]

theorem Timely.setSnapshot (h : Timely files) (k : ι) {snapshot : Option PackedFile}
    (hsnapshot : snapshot=files.snapshots k ∨ snapshot=files.packed ∨ snapshot=none) :
    Timely {files with snapshots := update files.snapshots k snapshot} := by
  refine ⟨h.packed,fun k' snapshot' hk' => ?_⟩
  by_cases hkk : k'=k
  · subst hkk
    obtain rfl : snapshot=some snapshot' := by simpa using hk'
    rcases hsnapshot with hs | hs | hs
    · exact h.snapshots k' snapshot' hs.symm
    · refine ⟨h.packed snapshot' hs.symm,fun f hf => ?_⟩
      rw [hf] at hs
      exact .inr (congrArg PackedFile.refs (some.inj hs))
    · simp at hs
  · simp only [update_of_ne hkk] at hk'
    exact h.snapshots k' snapshot' hk'

theorem recentSnapshot_cases (old packed : Option PackedFile) :
    recentSnapshot old packed=old ∨ recentSnapshot old packed=packed ∨ recentSnapshot old packed=none := by
  cases old with
  | none => cases packed <;> exact .inr (.inl rfl)
  | some old =>
    cases packed with
    | none => exact .inr (.inl rfl)
    | some f =>
      by_cases h : old.modified < f.modified
      · exact .inr (.inl (if_pos h))
      · exact .inl (if_neg h)

theorem Timely.takeSnapshot (h : Timely files) (env : Env ι) (i : ι) :
    (files.takeSnapshot env i).1=files.packedRefs ∧ Timely (files.takeSnapshot env i).2 :=
  ⟨h.recentSnapshot (env.store i),h.setSnapshot (env.store i) (recentSnapshot_cases _ _)⟩

/-! What the update can have changed -/

section Update
variable (u : Update) (before : Files ι)

/-- References as they were before, up to the edit of the transaction. -/
def Near (refs : Buffer) : Prop :=
  ∀ name, refs name = before.packedRefs.getD (fun _ => none) name ∨ ∃ id, u.packedEdit = some (name,id) ∧ refs name = some id

/-- What holds of the files and the transaction, which is the only one. -/
structure Updating (files : Files ι) (t : Transaction) (a : ι) : Prop where
  timely : Timely files
  others : ∀ path, path ≠ loosePath u.name → files.loose path = before.loose path
  loose : files.loose (loosePath u.name) = before.loose (loosePath u.name) ∨
    files.loose (loosePath u.name) = some (.target u.new) ∨
    files.loose (loosePath u.name) = none ∧ u.removesLoose = true
  packed : Near u before (files.packedRefs.getD (fun _ => none))
  buffer : ∀ buffer, t.buffer = some buffer → Near u before buffer
  hasPacked : t.hasPacked = true → Near u before (t.buffer.getD (fun _ => none))
  lockBuffer : t.phase = .lockBuffer → t.buffer ≠ none
  written : t.hasLock = true → t.phase = .reflog ∨ t.phase = .commitLoose →
    files.looseLock (loosePath u.name) = some ⟨a,some u.new⟩

variable {u before} {t t' : Transaction} {a : ι} {env : Env ι}

omit [DecidableEq ι] in
/-- The frame of steps that leave the references alone. -/
theorem Updating.frame (h : Updating u before files t a) (htimely : Timely files') (hloose : files'.loose=files.loose)
    (hpacked : files'.packed=files.packed) (hbuffer : t'.buffer=t.buffer ∨ t'.buffer=files.packedRefs)
    (hhas : t'.hasPacked=true → t.hasPacked=true ∨ t'.buffer≠none ∨ t'.buffer=files.packedRefs)
    (hlockBuffer : t'.phase = .lockBuffer → t'.buffer≠none)
    (hwritten : t'.hasLock=true → t'.phase = .reflog ∨ t'.phase = .commitLoose →
      files'.looseLock (loosePath u.name)=some ⟨a,some u.new⟩) : Updating u before files' t' a := by
  have hpackedRefs : files'.packedRefs=files.packedRefs := by rw [Files.packedRefs,Files.packedRefs,hpacked]
  have hnear : ∀ buffer,t'.buffer=some buffer → Near u before buffer := by
    intro buffer hb
    rcases hbuffer with heq | heq
    · exact h.buffer buffer (heq ▸ hb)
    · have := h.packed
      rwa [← heq,hb] at this
  refine ⟨htimely,by rw [hloose]; exact h.others,by rw [hloose]; exact h.loose,by rw [hpackedRefs]; exact h.packed,
    hnear,?_,hlockBuffer,hwritten⟩
  intro ht'
  cases hb : t'.buffer with
  | some buffer => exact hnear buffer hb
  | none =>
    rcases hhas ht' with ht | hne | heq
    · rcases hbuffer with heq | heq
      · have := h.hasPacked ht
        rwa [← heq,hb] at this
      · have := h.packed
        rwa [← heq,hb] at this
    · exact absurd hb hne
    · have := h.packed
      rwa [← heq,hb] at this

theorem packedPhase_cases (u : Update) : u.packedPhase = .read ∨ u.packedPhase = .lockPacked ∨ u.packedPhase = .packedKind := by
  unfold Update.packedPhase
  split
  · exact .inl rfl
  · split
    · exact .inr (.inl rfl)
    · exact .inr (.inr rfl)

theorem Timely.release (h : Timely files) (i : ι) (path : Path) : Timely (files.release i path) := by
  unfold Files.release
  split
  · exact h.congr rfl rfl rfl
  · exact h

theorem release_refs (files : Files ι) (i : ι) (path : Path) : (files.release i path).loose=files.loose ∧
    (files.release i path).packed=files.packed := by
  unfold Files.release
  split <;> exact ⟨rfl,rfl⟩

theorem Timely.releasePacked (h : Timely files) (i : ι) : Timely (files.releasePacked i) := by
  unfold Files.releasePacked
  split
  · exact h.congr rfl rfl rfl
  · exact h

theorem releasePacked_refs (files : Files ι) (i : ι) : (files.releasePacked i).loose=files.loose ∧
    (files.releasePacked i).packed=files.packed ∧ (files.releasePacked i).looseLock=files.looseLock := by
  unfold Files.releasePacked
  split <;> exact ⟨rfl,rfl,rfl⟩

variable (h : Updating u before files t a)
include h

theorem Updating.step (hstep : u.step env a files t=some (files',t')) :
    Updating u before files' t' a := by
  have hkeep : ∀ {files' : Files ι} {t' : Transaction},Timely files' → files'.loose=files.loose ∧ files'.packed=files.packed →
      t'.buffer=t.buffer → t'.hasPacked=t.hasPacked → t'.phase∉[.lockBuffer,.reflog,.commitLoose] →
      Updating u before files' t' a := by
    intro files' t' htimely hrefs hbuffer hhas hphase
    simp only [List.mem_cons,List.not_mem_nil,or_false,not_or] at hphase
    exact h.frame htimely hrefs.1 hrefs.2 (.inl hbuffer) (fun ht' => .inl (hhas ▸ ht')) (fun hp => absurd hp hphase.1)
      fun _ hp => (hp.elim hphase.2.1 hphase.2.2).elim
  have hsame := fun {t'} => @hkeep files t' h.timely ⟨rfl,rfl⟩
  unfold Update.step at hstep
  cases hp : t.phase <;> simp only [hp] at hstep
  case packedFile | packedLockFile =>
    split at hstep <;> cases hstep
    · rcases packedPhase_cases u with hu | hu | hu <;> exact hsame rfl rfl (by simp [hu])
    · exact hsame rfl rfl (by simp)
  case packedKind =>
    split at hstep <;> cases hstep <;> exact hsame rfl rfl (by simp)
  case snapshot =>
    obtain ⟨hsnapshot,htimely⟩ := h.timely.takeSnapshot env a
    split at hstep <;> cases hstep
    · exact hkeep htimely ⟨rfl,rfl⟩ rfl rfl (by simp)
    · rename_i buffer hbuffer
      refine h.frame htimely rfl rfl (.inr ?_) (fun _ => .inr (.inl (by simp))) (by simp) (by simp)
      rw [← hsnapshot,hbuffer]
  case lockBuffer =>
    split at hstep
    · cases hstep
      exact h.frame (h.timely.congr rfl rfl rfl) rfl rfl (.inl rfl) (fun _ => .inr (.inl (h.lockBuffer hp))) (by simp) (by simp)
    · simp at hstep
  case lockPacked | lock | lockLate =>
    split at hstep
    · cases hstep
      exact hkeep (h.timely.congr rfl rfl rfl) ⟨rfl,rfl⟩ rfl rfl (by simp)
    · simp at hstep
  case lockedSnapshot =>
    obtain ⟨hsnapshot,htimely⟩ := h.timely.takeSnapshot env a
    cases hstep
    exact h.frame htimely rfl rfl (.inr hsnapshot) (fun _ => .inr (.inr hsnapshot)) (by simp) (by simp)
  case preparePacked =>
    split at hstep
    · cases hstep
      exact hsame rfl rfl (by simp)
    · simp at hstep
  case read =>
    cases hstep
    cases ht : t.hasPacked <;> exact hsame rfl ht.symm (by simp)
  case check =>
    split at hstep
    · split at hstep <;> cases hstep
      · cases ht : t.hasLock <;> exact hsame rfl rfl (by simp)
      · obtain ⟨hloose,hpacked⟩ := release_refs files a (loosePath u.name)
        exact h.frame (h.timely.release a _) hloose hpacked (.inl rfl) (.inl) (by simp) (by simp)
    · simp at hstep
  case write =>
    cases hstep
    exact h.frame (h.timely.congr rfl rfl rfl) rfl rfl (.inl rfl) (.inl) (by simp) fun _ _ => update_self ..
  case reflog =>
    cases hstep
    exact h.frame h.timely rfl rfl (.inl rfl) (.inl) (by simp) fun hlock _ =>
      h.written hlock (.inl hp)
  case commitLoose =>
    split at hstep <;> cases hstep
    · rename_i hcommit
      have hlock := h.written hcommit.1 (.inr hp)
      refine ⟨h.timely.congr rfl rfl rfl,?_,.inr (.inl ?_),h.packed,h.buffer,h.hasPacked,by simp,by simp⟩
      · intro path hpath
        exact (update_of_ne hpath ..).trans (h.others path hpath)
      · simp [hlock]
    · exact hkeep (h.timely.release a _) (release_refs files a _) rfl rfl (by simp)
  case commitPacked =>
    split at hstep
    · rename_i hhas
      split at hstep <;> cases hstep
      · rename_i name id hedit
        refine ⟨h.timely.writePacked _ _ _,h.others,h.loose,?_,h.buffer,h.hasPacked,by simp,by simp⟩
        intro name'
        by_cases hname : name'=name
        · subst hname
          exact .inr ⟨id,hedit,update_self ..⟩
        · have := h.hasPacked hhas name'
          simpa [Files.packedRefs,Files.writePacked,update_of_ne hname] using this
      · obtain ⟨hloose,hpacked,-⟩ := releasePacked_refs files a
        exact hkeep (h.timely.releasePacked a) ⟨hloose,hpacked⟩ rfl rfl (by simp)
    · cases hstep
      exact hsame rfl rfl (by simp)
  case refresh =>
    cases hstep
    exact hkeep (h.timely.setSnapshot _ (.inr (.inl rfl))) ⟨rfl,rfl⟩ rfl rfl (by simp)
  case removeLoose =>
    split at hstep <;> cases hstep
    · rename_i hremoves
      refine ⟨h.timely.congr rfl rfl rfl,?_,.inr (.inr ⟨?_,hremoves⟩),h.packed,h.buffer,h.hasPacked,by simp,by simp⟩
      · intro path hpath
        exact (update_of_ne hpath ..).trans (h.others path hpath)
      · simp
    · exact hsame rfl rfl (by simp)
  case done => cases hstep
  case failed => cases hstep

theorem Updating.fail :
    Updating u before (u.fail a files t).1 (u.fail a files t).2 a := by
  obtain ⟨hloose,hpacked⟩ := release_refs files a (loosePath u.name)
  obtain ⟨hloose',hpacked',-⟩ := releasePacked_refs (files.release a (loosePath u.name)) a
  exact h.frame ((h.timely.release a _).releasePacked a) (hloose'.trans hloose) (hpacked'.trans hpacked) (.inl rfl)
    (.inl) (by simp [Update.fail]) (by simp [Update.fail])

theorem Updating.look {l l' : Lookup} {i : ι}
    (hstep : l.step env i files=some (files',l')) : Updating u before files' t a := by
  have htimely : Timely files' := by
    cases l with
    | start partialName =>
      cases hstep
      exact (h.timely.takeSnapshot env i).2
    | search packed rest =>
      have hsame : files'=files := by
        cases rest with
        | nil => exact (Prod.mk.inj (some.inj hstep)).1.symm
        | cons c rest =>
          simp only [Lookup.step] at hstep
          split at hstep <;> exact (Prod.mk.inj (some.inj hstep)).1.symm
      rw [hsame]
      exact h.timely
    | done result => simp [Lookup.step] at hstep
  obtain ⟨_,rfl⟩ := Lookup.step_files hstep
  exact h.frame htimely rfl rfl (.inl rfl) (.inl) h.lockBuffer h.written

end Update

/-! The lookup -/

/-- The value before the update or after it. -/
def OldOrNew (u : Update) (old : Target) (r : Found) : Prop :=
  ∃ name ∈ reported u.name, r = .ok (some (name,old)) ∨ r = .ok (some (name,u.new))

theorem inPacked_eq (c : Candidate) (packed : Option Buffer) : c.inPacked packed =
    if c.packed then (transformFullNameForLookup c.name).bind (fun name => (packed.getD (fun _ => none) name).map (name,·))
    else none := by
  unfold inPacked
  cases packed with
  | none => cases transformFullNameForLookup c.name <;> simp
  | some buffer => rfl

section Lookup
variable {u : Update} {before : Files ι} {c : Candidate} {packed : Option Buffer} {name : FullName} {id : ObjectId}

omit [DecidableEq ι] in
theorem Near.inPacked (h : Near u before (packed.getD (fun _ => none))) :
    c.inPacked packed=c.inPacked before.packedRefs ∨
      ∃ name id,u.packedEdit=some (name,id) ∧ name∈reported c.name ∧ c.packed=true ∧ c.inPacked packed=some (name,id) := by
  rw [inPacked_eq,inPacked_eq]
  cases hpacked : c.packed with
  | false => exact .inl rfl
  | true =>
    cases hname : transformFullNameForLookup c.name with
    | none => exact .inl rfl
    | some name =>
      rcases h name with hsame | ⟨id,hedit,hid⟩
      · left
        simp [hsame]
      · right
        exact ⟨name,id,hedit,by simp [reported,hname],rfl,by simp [hid]⟩

theorem inPacked_reported (h : c.inPacked packed=some (name,id)) : name∈reported c.name := by
  rw [inPacked_eq] at h
  split at h
  · obtain ⟨_,hname',hid⟩ := bind_eq_some_iff.mp h
    obtain ⟨_,-,heq⟩ := map_eq_some_iff.mp hid
    cases heq
    simp [reported,hname']
  · simp at h

theorem packedEdit_new (h : u.packedEdit=some (name,id)) : u.new = .object id ∧ name∈reported u.name := by
  unfold Update.packedEdit at h
  split at h
  · simp at h
  · rename_i hname hnew _
    cases h
    refine ⟨hnew,?_⟩
    unfold Update.packedName at hname
    split at hname
    · simp at hname
    · simp [reported,lookup_of_adjusted hname]
  · simp at h

/-- If the transaction removes the loose file, `packed-refs` has the value before or after the
update already. -/
def PackedBefore (u : Update) (before : Files ι) (c : Candidate) (old : Target) : Prop :=
  u.removesLoose = true → before.loose (loosePath u.name) ≠ none →
    ∃ name id, c.inPacked before.packedRefs = some (name,id) ∧ (.object id = old ∨ .object id = u.new)

omit [DecidableEq ι] in
/-- The reference itself is found with its old or its new value. -/
theorem find_oldOrNew {t : Transaction} {a : ι} (h : Updating u before files t a) (hc : c.name=u.name) {old : Target}
    (hpacked : Near u before (packed.getD (fun _ => none)))
    (hfound : c.find before before.packedRefs=some (.ok (some (name,old)))) (hbefore : PackedBefore u before c old) :
    ∃ r,c.find files packed=some r ∧ OldOrNew u old r := by
  -- if the loose file is missing, the snapshot has the one or the other value
  have hsnapshot : (∃ name id,c.inPacked before.packedRefs=some (name,id) ∧ (.object id=old ∨ .object id=u.new)) →
      ∃ name id,c.inPacked packed=some (name,id) ∧ (.object id=old ∨ .object id=u.new) := by
    rintro ⟨name,id,hin,hid⟩
    rcases hpacked.inPacked with hsame | ⟨name',id',hedit,-,-,hin'⟩
    · exact ⟨name,id,hsame.trans hin,hid⟩
    · exact ⟨name',id',hin',.inr (packedEdit_new hedit).1.symm⟩
  have hmissing : files.loose (loosePath c.name)=none →
      (∃ name id,c.inPacked before.packedRefs=some (name,id) ∧ (.object id=old ∨ .object id=u.new)) →
      ∃ r,c.find files packed=some r ∧ OldOrNew u old r := by
    intro hloose hpackedBefore
    obtain ⟨name,id,hin,hid⟩ := hsnapshot hpackedBefore
    refine ⟨.ok (some (name,.object id)),by simp [find,hloose,hin],name,hc ▸ inPacked_reported hin,?_⟩
    rcases hid with rfl | hid
    · exact .inl rfl
    · exact .inr (by rw [hid])
  have hthere : ∀ t',files.loose (loosePath c.name)=some (.target t') → t'=old ∨ t'=u.new →
      ∃ r,c.find files packed=some r ∧ OldOrNew u old r := by
    intro t' hloose ht'
    refine ⟨.ok (some (c.name,t')),by simp [find,hloose],c.name,by simp [reported,hc],?_⟩
    rcases ht' with rfl | rfl
    · exact .inl rfl
    · exact .inr rfl
  unfold find at hfound
  rw [hc] at hfound hmissing hthere
  split at hfound
  · rename_i told hloose
    obtain ⟨-,rfl⟩ : u.name=name ∧ told=old := by simpa using hfound
    rcases h.loose with hsame | hnew | ⟨hnone,hremoves⟩
    · exact hthere told (hsame.trans hloose) (.inl rfl)
    · exact hthere u.new hnew (.inr rfl)
    · exact hmissing hnone (hbefore hremoves (by simp [hloose]))
  · simp at hfound
  · rename_i hloose
    obtain ⟨⟨name',id⟩,hin,heq⟩ := map_eq_some_iff.mp hfound
    obtain ⟨rfl,rfl⟩ : name'=name ∧ .object id=old := by simpa using heq
    rcases h.loose with hsame | hnew | ⟨hnone,-⟩
    · exact hmissing (hsame.trans hloose) ⟨name',id,hin,.inl rfl⟩
    · exact hthere u.new hnew (.inr rfl)
    · exact hmissing hnone ⟨name',id,hin,.inl rfl⟩

end Lookup
end Gix.Ref
