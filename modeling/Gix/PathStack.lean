import Mathlib

/-! # The stack of a path and its delegate

`gix-fs/src/stack.rs`. A path is the list of its components, as `Path` compares paths; the
delegate is the list of the directories that were announced to it and not closed since, together
with the outcomes of its `push()`. -/
namespace Gix.PathStack
open List Function

abbrev Bytes := List UInt8

inductive Component
  | rootDir
  | curDir
  | parentDir
  | normal (name : Bytes)
deriving DecidableEq

abbrev Path := List Component

def Component.isNormal : Component → Bool
  | .normal _ => true
  | _ => false

def part (bytes : Bytes) : Option Component :=
  if bytes = [] ∨ bytes = [46] then none
  else if bytes = [46,46] then some .parentDir
  else some (.normal bytes)

def components (path : Bytes) : Path :=
  match path.splitOn 47 with
  | [] => []
  | first :: rest =>
    (if first = [] ∧ rest ≠ [] then [.rootDir]
      else if first = [46] then [.curDir]
      else (part first).toList)++rest.filterMap part

def pop (path : Path) : Path :=
  match path.getLast? with
  | none => path
  | some .rootDir => path
  | some _ => path.dropLast

structure Stack where
  root : Path
  current : Path
  currentRelative : Path
  validComponents : ℕ
  currentIsDirectory : Bool
deriving DecidableEq

/-- The stack and the directories its delegate has open. -/
structure Session where
  stack : Stack
  announced : List Path
deriving DecidableEq

inductive Error
  | emptyInput
  | relativeOrAbsolute (relative : Bytes)
  | push
deriving DecidableEq

def Stack.new (root : Path) : Stack := ⟨root,root,[],0,true⟩

def pushDirectory (s : Session) : Session := ⟨s.stack,s.announced++[s.stack.current]⟩

def matchingComponents : Path → Path → ℕ
  | existing :: more,new :: rest => if existing = new then matchingComponents more rest+1 else 0
  | _,_ => 0

def popComponent (s : Session) : Session where
  stack := ⟨s.stack.root,pop s.stack.current,pop s.stack.currentRelative,s.stack.validComponents,true⟩
  announced := if s.stack.currentIsDirectory then s.announced.dropLast else s.announced

def addComponent (stack : Stack) (comp : Component) (isLastComponent : Bool) : Stack :=
  ⟨stack.root,stack.current++[comp],stack.currentRelative++[comp],stack.validComponents+1,
    !isLastComponent⟩

def removeComponent (stack : Stack) : Stack :=
  ⟨stack.root,pop stack.current,pop stack.currentRelative,stack.validComponents-1,
    stack.currentIsDirectory⟩

/-- The loop over the new components; the outcome of the `k`-th `push()` is `push k`. -/
def pushComponents (relative : Bytes) (push : ℕ → Bool) :
    ℕ → Path → Session → Session × Except Error Unit
  | _,[],s => (s,.ok ())
  | k,comp :: rest,s =>
    if comp.isNormal then
      let stack := addComponent s.stack comp rest.isEmpty
      let pushed : Session := ⟨stack,s.announced⟩
      -- the directory is announced before the outcome of its push is looked at
      let pushed := if stack.currentIsDirectory then pushDirectory pushed else pushed
      if push k then pushComponents relative push (k+1) rest pushed
      else (⟨removeComponent pushed.stack,pushed.announced⟩,.error .push)
    else (s,.error (.relativeOrAbsolute relative))

def popTo (s : Session) (matching : ℕ) : Session :=
  let popped := popComponent^[s.stack.validComponents-matching] s
  ⟨{popped.stack with validComponents := matching},popped.announced⟩

/-- A file that turns out to have components below it is a directory. -/
def announceFile (s : Session) (rest : Path) : Session :=
  if !s.stack.currentIsDirectory && !rest.isEmpty then pushDirectory s else s

def changeTo (s : Session) (relative : Bytes) (push : ℕ → Bool) : Session × Except Error Unit :=
  let comps := components relative
  let matching := matchingComponents s.stack.currentRelative comps
  let rest := comps.drop matching
  pushComponents relative push 0 rest (announceFile (popTo s matching) rest)

def makeRelativePathCurrent (s : Session) (relative : Bytes) (push : ℕ → Bool) :
    Session × Except Error Unit :=
  if s.stack.validComponents ≠ 0 ∧ relative = [] then (s,.error .emptyInput)
  else changeTo (if s.stack.validComponents = 0 then pushDirectory s else s) relative push

/-! Directories of a path -/

/-- The leading directories, and the path itself if it is one; the root always is. -/
def directories (relative : Path) (isDirectory : Bool) : List Path :=
  if isDirectory || relative.isEmpty then relative.inits else relative.inits.dropLast

/-- Stack and delegate are in step. -/
def Balanced (s : Session) : Prop :=
  s.stack.current = s.stack.root++s.stack.currentRelative ∧
  s.announced = (directories s.stack.currentRelative s.stack.currentIsDirectory).map
    (s.stack.root++·)

instance (s : Session) : Decidable (Balanced s) := inferInstanceAs (Decidable (_ ∧ _))

theorem inits_concat (path : Path) (comp : Component) :
    (path++[comp]).inits=path.inits++[path++[comp]] := by
  simp

theorem directories_true (path : Path) : directories path true=path.inits := by
  simp [directories]

theorem directories_concat_false (path : Path) (comp : Component) :
    directories (path++[comp]) false=path.inits := by
  simp [directories]

@[simp] theorem pop_concat_normal (path : Path) {comp : Component} (h : comp.isNormal) :
    pop (path++[comp])=path := by
  cases comp with
  | normal name => simp [pop]
  | _ => cases h

/-! What always holds of the stack -/

/-- The current path is the relative one below the root, without special components. -/
structure Shaped (stack : Stack) : Prop where
  current : stack.current = stack.root++stack.currentRelative
  normal : ∀ comp ∈ stack.currentRelative,comp.isNormal

structure Sound (stack : Stack) : Prop extends Shaped stack where
  valid : stack.validComponents = stack.currentRelative.length

variable {s : Session}

section Stack
variable {stack : Stack} {comp : Component}

theorem sound_new (root : Path) : Sound (Stack.new root) where
  current := by simp [Stack.new]
  normal := by simp [Stack.new]
  valid := rfl

theorem Sound.add (h : Sound stack) (hcomp : comp.isNormal) (isLast : Bool) :
    Sound (addComponent stack comp isLast) where
  current := by simp [addComponent,h.current]
  normal c hc := by
    rcases mem_append.1 hc with hc|hc
    · exact h.normal c hc
    · obtain rfl : c=comp := by simpa using hc
      exact hcomp
  valid := by simp [addComponent,h.valid]

theorem removeComponent_addComponent (stack : Stack) (hcomp : comp.isNormal) (isLast : Bool) :
    removeComponent (addComponent stack comp isLast) =
      {stack with currentIsDirectory := !isLast} := by
  simp [removeComponent,addComponent,hcomp]

theorem Shaped.popComponent (h : Shaped s.stack) (hne : s.stack.currentRelative≠[]) :
    Shaped (popComponent s).stack ∧
      (popComponent s).stack.currentRelative=s.stack.currentRelative.dropLast := by
  obtain ⟨_,comp,hpath⟩ := s.stack.currentRelative.eq_nil_or_concat.resolve_left hne
  rw [concat_eq_append] at hpath
  have hcomp : comp.isNormal := h.normal comp (by simp [hpath])
  refine ⟨⟨?_,?_⟩,?_⟩
  · simp only [PathStack.popComponent,h.current,hpath,pop_concat_normal _ hcomp]
    rw [← append_assoc,pop_concat_normal _ hcomp]
  · intro c hc
    simp only [PathStack.popComponent,hpath,pop_concat_normal _ hcomp] at hc
    exact h.normal c (by simp [hpath,hc])
  · simp [PathStack.popComponent,hpath,pop_concat_normal _ hcomp]

theorem popComponents_shaped (h : Shaped s.stack) {n : ℕ}
    (hn : n ≤ s.stack.currentRelative.length) :
    Shaped (PathStack.popComponent^[n] s).stack ∧
      (PathStack.popComponent^[n] s).stack.currentRelative =
        s.stack.currentRelative.take (s.stack.currentRelative.length-n) := by
  induction n with
  | zero => exact ⟨h,by simp⟩
  | succ n ih =>
    obtain ⟨hshaped,hrelative⟩ := ih (by omega)
    rw [iterate_succ_apply']
    have hne : (PathStack.popComponent^[n] s).stack.currentRelative≠[] := by
      rw [hrelative,← length_pos_iff,length_take]
      omega
    obtain ⟨hpopped,hdropped⟩ := hshaped.popComponent hne
    refine ⟨hpopped,?_⟩
    rw [hdropped,hrelative,dropLast_eq_take,take_take,length_take]
    congr 1
    omega

theorem matchingComponents_le (existing new : Path) :
    matchingComponents existing new ≤ existing.length := by
  fun_induction matchingComponents existing new with
  | case1 existing more rest ih => simpa using ih
  | case2 existing more new rest hne => simp
  | case3 existing new hne => simp

theorem Sound.popTo (h : Sound s.stack) {matching : ℕ}
    (hle : matching ≤ s.stack.currentRelative.length) :
    Sound (popTo s matching).stack ∧
      (popTo s matching).stack.currentRelative=s.stack.currentRelative.take matching := by
  obtain ⟨hshaped,hrelative⟩ := popComponents_shaped h.toShaped
    (Nat.sub_le s.stack.currentRelative.length matching)
  rw [Nat.sub_sub_self hle] at hrelative
  simp only [PathStack.popTo,h.valid]
  refine ⟨⟨⟨hshaped.current,hshaped.normal⟩,?_⟩,hrelative⟩
  simp only [hrelative,length_take]
  omega

section Loop
variable (relative : Bytes) (push : ℕ → Bool) (k : ℕ) (next : Component) (rest : Path) (s : Session)

theorem pushComponents_last (hcomp : comp.isNormal) :
    pushComponents relative push k [comp] s =
      if push k then (⟨addComponent s.stack comp true,s.announced⟩,.ok ())
      else (⟨{s.stack with currentIsDirectory := false},s.announced⟩,.error .push) := by
  have hremove := removeComponent_addComponent s.stack hcomp true
  simp only [pushComponents,hcomp,isEmpty_nil,if_true]
  simp only [addComponent,Bool.not_true,Bool.false_eq_true,if_false] at hremove ⊢
  rw [hremove]

theorem pushComponents_more (hcomp : comp.isNormal) :
    pushComponents relative push k (comp::next::rest) s =
      if push k then pushComponents relative push (k+1) (next::rest)
        (pushDirectory ⟨addComponent s.stack comp false,s.announced⟩)
      else (⟨{s.stack with currentIsDirectory := true},s.announced++[s.stack.current++[comp]]⟩,
        .error .push) := by
  have hremove := removeComponent_addComponent s.stack hcomp false
  rw [pushComponents]
  simp only [hcomp,isEmpty_cons,pushDirectory]
  simp only [addComponent,Bool.not_false,if_true] at hremove ⊢
  rw [hremove]

end Loop

theorem pushComponents_sound (relative : Bytes) (push : ℕ → Bool) (k : ℕ) (comps : Path)
    (h : Sound s.stack) : Sound (pushComponents relative push k comps s).1.stack := by
  induction comps generalizing k s with
  | nil => exact h
  | cons comp rest ih =>
    simp only [pushComponents]
    by_cases hcomp : comp.isNormal
    · have hadded := h.add hcomp rest.isEmpty
      rw [if_pos hcomp]
      split
      · refine ih (k+1) ?_
        split
        · exact hadded
        · exact hadded
      · have hremoved : Sound (removeComponent (addComponent s.stack comp rest.isEmpty)) := by
          rw [removeComponent_addComponent _ hcomp]
          exact ⟨⟨h.current,h.normal⟩,h.valid⟩
        split
        · exact hremoved
        · exact hremoved
    · rw [if_neg hcomp]
      exact h

theorem Sound.announceFile (h : Sound s.stack) (rest : Path) :
    Sound (announceFile s rest).stack := by
  unfold PathStack.announceFile
  split
  · exact h
  · exact h

theorem makeRelativePathCurrent_sound (h : Sound s.stack) (relative : Bytes) (push : ℕ → Bool) :
    Sound (makeRelativePathCurrent s relative push).1.stack := by
  unfold makeRelativePathCurrent
  split
  · exact h
  · have hroot : Sound (if s.stack.validComponents=0 then pushDirectory s else s).stack := by
      split
      · exact h
      · exact h
    have hpopped := (hroot.popTo (matchingComponents_le _ (components relative))).1
    exact pushComponents_sound relative push 0 _ (hpopped.announceFile _)

end Stack

/-! When the delegate is in step -/

/-- Every directory down to the current path is announced. -/
def Full (s : Session) : Prop :=
  s.announced = s.stack.currentRelative.inits.map (s.stack.root++·)

theorem balanced_iff (h : Shaped s.stack) : Balanced s ↔
    s.announced=(directories s.stack.currentRelative s.stack.currentIsDirectory).map
      (s.stack.root++·) :=
  and_iff_right h.current

theorem inits_nodup (path : Path) : path.inits.Nodup := by
  induction path using reverseRecOn with
  | nil => simp
  | append_singleton path comp ih =>
    rw [inits_concat]
    refine nodup_append.2 ⟨ih,by simp,?_⟩
    intro front hfront last hlast
    obtain rfl : last=path++[comp] := by simpa using hlast
    rintro rfl
    have := ((mem_inits _ _).1 hfront).length_le
    simp only [length_append,length_singleton] at this
    omega

theorem Balanced.nodup (h : Balanced s) : s.announced.Nodup := by
  rw [h.2]
  refine List.Nodup.map (append_right_injective _) ?_
  unfold directories
  split
  · exact inits_nodup _
  · exact (inits_nodup _).sublist (dropLast_sublist _)

/-- A full delegate is in step if the path is recorded as a directory, or is the root. -/
theorem Full.balanced_iff (h : Shaped s.stack) (hfull : Full s) :
    Balanced s ↔ s.stack.currentIsDirectory=true ∨ s.stack.currentRelative=[] := by
  rw [PathStack.balanced_iff h,hfull]
  by_cases hdir : s.stack.currentIsDirectory=true ∨ s.stack.currentRelative=[]
  · refine iff_of_true ?_ hdir
    rcases hdir with hdir|hdir
    · rw [hdir,directories_true]
    · simp [hdir,directories]
  · refine iff_of_false (fun heq => ?_) hdir
    have hlength := congrArg length heq
    rw [not_or] at hdir
    simp [directories,hdir.1,hdir.2] at hlength

/-- The end of a path that is in step is closed with its last component. -/
theorem Balanced.popComponent (h : Shaped s.stack) (hbal : Balanced s)
    (hne : s.stack.currentRelative≠[]) : Full (popComponent s) := by
  obtain ⟨_,_,hpath⟩ := s.stack.currentRelative.eq_nil_or_concat.resolve_left hne
  rw [concat_eq_append] at hpath
  have hrelative := (h.popComponent hne).2
  have hannounced := hbal.2
  rw [hpath] at hrelative
  rw [hpath] at hannounced
  unfold Full
  rw [hrelative]
  simp only [PathStack.popComponent]
  cases hdir : s.stack.currentIsDirectory with
  | true =>
    rw [hdir,directories_true] at hannounced
    simp [hannounced]
  | false =>
    rw [hdir,directories_concat_false] at hannounced
    simp [hannounced]

/-- Popping leaves every directory of the remaining path announced. -/
theorem Balanced.popComponents (h : Shaped s.stack) (hbal : Balanced s) {n : ℕ}
    (hn : n+1 ≤ s.stack.currentRelative.length) : Full (PathStack.popComponent^[n+1] s) := by
  induction n with
  | zero =>
    exact hbal.popComponent h (ne_nil_of_length_pos (by omega))
  | succ n ih =>
    obtain ⟨hshaped,hrelative⟩ := popComponents_shaped h (by omega : n+1 ≤ _)
    rw [iterate_succ_apply']
    have hdir : (PathStack.popComponent^[n+1] s).stack.currentIsDirectory=true := by
      rw [iterate_succ_apply']
      rfl
    refine Balanced.popComponent hshaped (((ih (by omega)).balanced_iff hshaped).2 (.inl hdir)) ?_
    rw [hrelative,← length_pos_iff,length_take]
    omega

/-- If components were popped, the rest is a directory and all of it is announced; otherwise nothing
changed. -/
theorem Balanced.popTo (h : Sound s.stack) (hbal : Balanced s) {matching : ℕ}
    (hle : matching ≤ s.stack.currentRelative.length) :
    (matching=s.stack.currentRelative.length ∧ popTo s matching=s) ∨
    (matching < s.stack.currentRelative.length ∧ Full (popTo s matching) ∧
      (popTo s matching).stack.currentIsDirectory=true) := by
  rcases Nat.eq_or_lt_of_le hle with heq|hlt
  · refine .inl ⟨heq,?_⟩
    simp only [PathStack.popTo,h.valid,heq,Nat.sub_self,iterate_zero,id_eq]
    rw [← h.valid]
  · obtain ⟨n,hn⟩ : ∃ n,s.stack.currentRelative.length-matching=n+1 :=
      ⟨s.stack.currentRelative.length-matching-1,by omega⟩
    refine .inr ⟨hlt,?_,?_⟩
    · simp only [PathStack.popTo,h.valid,hn]
      exact hbal.popComponents h.toShaped (by omega)
    · simp only [PathStack.popTo,h.valid,hn,iterate_succ_apply']
      rfl

/-- The components are all pushed, the failure of a path of one component below the root apart. -/
def PushesSucceed (push : ℕ → Bool) (k : ℕ) (comps : Path) (below : Bool) : Prop :=
  ∀ i < (comps.takeWhile Component.isNormal).length,push (k+i) = true ∨ comps.length = 1 ∧ below = false

theorem pushComponents_announced (relative : Bytes) (push : ℕ → Bool) (k : ℕ) (comps : Path)
    (s : Session) : s.announced <+: (pushComponents relative push k comps s).1.announced := by
  induction comps generalizing k s with
  | nil => exact prefix_refl _
  | cons comp rest ih =>
    simp only [pushComponents]
    have hpushed : s.announced <+: (if (addComponent s.stack comp rest.isEmpty).currentIsDirectory
        then pushDirectory ⟨addComponent s.stack comp rest.isEmpty,s.announced⟩
        else ⟨addComponent s.stack comp rest.isEmpty,s.announced⟩).announced := by
      split
      · exact prefix_append _ _
      · exact prefix_refl _
    split
    · split
      · exact hpushed.trans (ih _ _)
      · exact hpushed
    · exact prefix_refl _

theorem pushesSucceed_cons {push : ℕ → Bool} {k : ℕ} {comp next : Component} {rest : Path}
    {below : Bool} (hcomp : comp.isNormal) : PushesSucceed push k (comp::next::rest) below ↔
      push k=true ∧ PushesSucceed push (k+1) (next::rest) true := by
  simp only [PushesSucceed,takeWhile_cons_of_pos hcomp,length_cons]
  constructor
  · intro h
    refine ⟨by simpa using h 0 (by omega),fun i hi => ?_⟩
    simpa [Nat.add_assoc,Nat.add_comm 1] using h (i+1) (by omega)
  · rintro ⟨hfirst,hrest⟩ i hi
    cases i with
    | zero => exact .inl hfirst
    | succ i => exact .inl (by simpa [Nat.add_assoc,Nat.add_comm 1] using hrest i (by omega))

/-- From a full delegate, the loop leaves it in step exactly if the path before is a directory or
goes on, and no push fails. -/
theorem pushComponents_balanced_iff (relative : Bytes) (push : ℕ → Bool) (k : ℕ) (comps : Path)
    (h : Sound s.stack) (hfull : Full s) :
    Balanced (pushComponents relative push k comps s).1 ↔
      (s.stack.currentIsDirectory=true ∨ s.stack.currentRelative=[] ∨
        comps.head?.any Component.isNormal) ∧
      PushesSucceed push k comps !s.stack.currentRelative.isEmpty := by
  induction comps generalizing k s with
  | nil => simp [pushComponents,hfull.balanced_iff h.toShaped,PushesSucceed]
  | cons comp rest ih =>
    have hannounced : s.announced=s.stack.currentRelative.inits.map (s.stack.root++·) := hfull
    by_cases hcomp : comp.isNormal
    · have hhead : (comp::rest).head?.any Component.isNormal := hcomp
      simp only [hhead]
      cases rest with
      | nil =>
        rw [pushComponents_last relative push k s hcomp]
        cases hpush : push k with
        | true =>
          refine iff_of_true ⟨?_,?_⟩ (by simp [PushesSucceed,hcomp,hpush])
          · simp [addComponent,h.current]
          · simpa [addComponent,directories_concat_false] using hannounced
        | false =>
          have hstack : Shaped {s.stack with currentIsDirectory := false} := ⟨h.current,h.normal⟩
          have hsame : Full ⟨{s.stack with currentIsDirectory := false},s.announced⟩ := hfull
          rw [if_neg (by simp),hsame.balanced_iff hstack]
          simp [PushesSucceed,hcomp,hpush]
      | cons next rest =>
        rw [pushComponents_more relative push k next rest s hcomp,pushesSucceed_cons hcomp]
        cases hpush : push k with
        | true =>
          have hadded : Full (pushDirectory ⟨addComponent s.stack comp false,s.announced⟩) := by
            simp [Full,pushDirectory,addComponent,h.current,hannounced]
          have hne : (s.stack.currentRelative++[comp]).isEmpty=false := by simp
          rw [if_pos rfl,ih (k+1) (h.add hcomp false) hadded]
          simp [pushDirectory,addComponent,hne]
        | false =>
          rw [if_neg (by simp)]
          refine iff_of_false (fun hbal => ?_) (by simp)
          have hlength := congrArg length hbal.2
          rw [directories_true,hfull] at hlength
          simp at hlength
    · simp [pushComponents,hcomp,PushesSucceed,hfull.balanced_iff h.toShaped]

/-! Calls -/

/-- A call, with the outcomes of the delegate's pushes. -/
structure Call where
  relative : Bytes
  push : ℕ → Bool

def run (s : Session) (call : Call) : Session := (makeRelativePathCurrent s call.relative call.push).1

def kept (s : Session) (call : Call) : ℕ :=
  matchingComponents s.stack.currentRelative (components call.relative)

def added (s : Session) (call : Call) : Path := (components call.relative).drop (kept s call)

/-- The calls that leave stack and delegate in step: the stack is at its root for the first of them
only, what follows the path of a file is no special component, and no push fails, but for that of a
path of one component. -/
structure Good (s : Session) (call : Call) : Prop where
  root : s.stack.validComponents = 0 → s.announced = []
  file : s.stack.currentIsDirectory = false → kept s call = s.stack.validComponents →
    added s call ≠ [] → (added s call).head?.any Component.isNormal
  pushes : ∀ i < ((added s call).takeWhile Component.isNormal).length,
    call.push i = true ∨ (added s call).length = 1 ∧ kept s call = 0

section Calls
variable {call : Call}

theorem announceFile_of_directory (h : s.stack.currentIsDirectory=true) (rest : Path) :
    announceFile s rest=s := by
  simp [announceFile,h]

theorem kept_le (s : Session) (call : Call) : kept s call ≤ s.stack.currentRelative.length :=
  matchingComponents_le _ _

/-- A file that is announced as a directory. -/
theorem Balanced.pushDirectory_full (hbal : Balanced s) (hdir : s.stack.currentIsDirectory=false)
    (hne : s.stack.currentRelative≠[]) : Full (pushDirectory s) := by
  obtain ⟨_,_,hpath⟩ := s.stack.currentRelative.eq_nil_or_concat.resolve_left hne
  rw [concat_eq_append] at hpath
  have hannounced := hbal.2
  rw [hdir,hpath,directories_concat_false] at hannounced
  simp [Full,pushDirectory,hpath,hannounced,hbal.1]

variable (h : Sound s.stack)
include h

theorem changeTo_balanced_iff (hbal : Balanced s)
    (hroot : s.stack.currentRelative=[] → s.stack.currentIsDirectory=true) :
    Balanced (changeTo s call.relative call.push).1 ↔
      (s.stack.currentIsDirectory=false → kept s call=s.stack.currentRelative.length →
        added s call≠[] → (added s call).head?.any Component.isNormal) ∧
      PushesSucceed call.push 0 (added s call) (decide (kept s call≠0)) := by
  have hchange : changeTo s call.relative call.push=pushComponents call.relative call.push 0
      (added s call) (announceFile (popTo s (kept s call)) (added s call)) := rfl
  obtain ⟨hpopped,hrelative⟩ := h.popTo (kept_le s call)
  have hbelow : (!(popTo s (kept s call)).stack.currentRelative.isEmpty) =
      decide (kept s call≠0) := by
    have hlength := congrArg length hrelative
    rw [length_take,Nat.min_eq_left (kept_le s call)] at hlength
    have hempty (path : Path) : (!path.isEmpty)=decide (path.length≠0) := by
      cases path <;> simp
    rw [hempty,hlength]
  rw [hchange]
  obtain ⟨heq,hsame⟩|⟨hlt,hfull,hdir⟩ := hbal.popTo h (kept_le s call)
  · rw [hsame] at hbelow ⊢
    cases hdir : s.stack.currentIsDirectory with
    | true =>
      have hfull : Full s := by
        have := hbal.2
        rwa [hdir,directories_true] at this
      rw [announceFile_of_directory hdir,pushComponents_balanced_iff _ _ _ _ h hfull,hbelow]
      simp [hdir]
    | false =>
      have hne : s.stack.currentRelative≠[] := fun hnil => by simp [hroot hnil] at hdir
      cases hadded : added s call with
      | nil => simp [announceFile,pushComponents,hbal,PushesSucceed]
      | cons comp rest =>
        have hfull := hbal.pushDirectory_full hdir hne
        have hsound : Sound (pushDirectory s).stack := h
        have hfile : announceFile s (comp::rest)=pushDirectory s := by
          simp [announceFile,hdir]
        rw [hfile,pushComponents_balanced_iff _ _ _ _ hsound hfull]
        simp only [pushDirectory,hbelow]
        simp [hdir,hne,heq]
  · rw [announceFile_of_directory hdir,pushComponents_balanced_iff _ _ _ _ hpopped hfull,hbelow]
    simp [hdir,Nat.ne_of_lt hlt]

/-- A later call at the root announces it again. -/
theorem not_balanced_of_root (hrelative : s.stack.currentRelative=[])
    (hbal : Balanced s) : ¬Balanced (changeTo (pushDirectory s) call.relative call.push).1 := by
  intro hafter
  have hroot : s.announced=[s.stack.root] := by
    have := hbal.2
    simpa [hrelative,directories] using this
  have hmatching : matchingComponents (pushDirectory s).stack.currentRelative
      (components call.relative)=0 := by
    simp [pushDirectory,hrelative,matchingComponents]
  have hpopped : popTo (pushDirectory s) 0=pushDirectory s := by
    have hvalid : s.stack.validComponents=0 := by rw [h.valid,hrelative]; rfl
    simp only [popTo,pushDirectory,hvalid,Nat.sub_self,iterate_zero,id_eq]
    rw [← hvalid]
  have hchange := pushComponents_announced call.relative call.push 0
    ((components call.relative).drop 0) (announceFile (pushDirectory s) ((components call.relative).drop 0))
  have hfile : (pushDirectory s).announced <+:
      (announceFile (pushDirectory s) ((components call.relative).drop 0)).announced := by
    unfold announceFile
    split
    · exact prefix_append _ _
    · exact prefix_refl _
  have hnodup := (hafter.nodup)
  simp only [changeTo,hmatching,hpopped] at hnodup
  have htwice := hnodup.sublist (hfile.trans hchange).sublist
  simp [pushDirectory,hroot,h.current,hrelative] at htwice

/-- The state before the first call. -/
def Fresh (s : Session) : Prop :=
  s.stack.currentRelative = [] ∧ s.stack.currentIsDirectory = true ∧ s.announced = []

omit h in
theorem good_iff (hroot : s.stack.validComponents=0 → s.announced=[]) (h : Sound s.stack) :
    Good s call ↔
      (s.stack.currentIsDirectory=false → kept s call=s.stack.currentRelative.length →
        added s call≠[] → (added s call).head?.any Component.isNormal) ∧
      PushesSucceed call.push 0 (added s call) (decide (kept s call≠0)) := by
  have hpushes : PushesSucceed call.push 0 (added s call) (decide (kept s call≠0)) ↔
      ∀ i < ((added s call).takeWhile Component.isNormal).length,
        call.push i=true ∨ (added s call).length=1 ∧ kept s call=0 := by
    simp [PushesSucceed]
  rw [hpushes,← h.valid]
  exact ⟨fun hgood => ⟨hgood.file,hgood.pushes⟩,fun ⟨hfile,hall⟩ => ⟨hroot,hfile,hall⟩⟩

/-- What one call does to a stack in step. -/
theorem run_balanced_iff (hbefore : Fresh s ∨ Balanced s) :
    Balanced (run s call) ↔ Good s call := by
  have hvalid : s.stack.validComponents=0 ↔ s.stack.currentRelative=[] := by
    rw [h.valid,length_eq_zero_iff]
  by_cases hempty : s.stack.validComponents≠0 ∧ call.relative=[]
  · have hbal : Balanced s := hbefore.resolve_left fun hfresh => hempty.1 (hvalid.2 hfresh.1)
    have hrun : run s call=s := by simp [run,makeRelativePathCurrent,hempty]
    have hadded : added s call=[] := by
      have : components []=[] := rfl
      simp [added,hempty.2,this]
    rw [hrun,good_iff (fun hzero => absurd hzero hempty.1) h]
    simp [hbal,hadded,PushesSucceed]
  · by_cases hzero : s.stack.validComponents=0
    · have hrun : run s call=(changeTo (pushDirectory s) call.relative call.push).1 := by
        simp only [run,makeRelativePathCurrent,if_neg hempty,if_pos hzero]
      rw [hrun]
      rcases hbefore with ⟨hrelative,hdir,hnone⟩|hbal
      · rw [good_iff (fun _ => hnone) h]
        exact changeTo_balanced_iff h ⟨h.current,by simp [pushDirectory,hrelative,hnone,directories,h.current]⟩ fun _ => hdir
      · have hrelative := hvalid.1 hzero
        refine iff_of_false (not_balanced_of_root h hrelative hbal) fun hgood => ?_
        have hnone := hbal.2
        rw [hgood.root hzero,hrelative] at hnone
        simp [directories] at hnone
    · have hbal : Balanced s := hbefore.resolve_left fun hfresh => hzero (hvalid.2 hfresh.1)
      have hrun : run s call=(changeTo s call.relative call.push).1 := by
        simp only [run,makeRelativePathCurrent,if_neg hempty,if_neg hzero]
      rw [hrun,good_iff (fun h => absurd h hzero) h]
      exact changeTo_balanced_iff h hbal fun hnil => absurd (hvalid.2 hnil) hzero

end Calls

/-- After each of the calls, stack and delegate are in step. -/
def AllBalanced (s : Session) : List Call → Prop
  | [] => True
  | call :: calls => Balanced (run s call) ∧ AllBalanced (run s call) calls

/-- Every call is good for the state it is made in. -/
def AllGood (s : Session) : List Call → Prop
  | [] => True
  | call :: calls => Good s call ∧ AllGood (run s call) calls

theorem allBalanced_iff {s : Session} (h : Sound s.stack) (hbefore : Fresh s ∨ Balanced s)
    (calls : List Call) : AllBalanced s calls ↔ AllGood s calls := by
  induction calls generalizing s with
  | nil => exact Iff.rfl
  | cons call calls ih =>
    simp only [AllBalanced,run_balanced_iff h hbefore]
    refine and_congr_right fun hgood => ?_
    exact ih (makeRelativePathCurrent_sound h call.relative call.push) (.inr ((run_balanced_iff h hbefore).2 hgood))

def Session.new (root : Path) : Session := ⟨Stack.new root,[]⟩

/-- Whatever is called, stack and delegate stay in step exactly if every call is good. -/
theorem new_allBalanced_iff (root : Path) (calls : List Call) :
    AllBalanced (Session.new root) calls ↔ AllGood (Session.new root) calls :=
  allBalanced_iff (sound_new root) (.inl ⟨rfl,rfl,rfl⟩) calls

/-- A file, then a path below it, then one beside it. -/
theorem new_allBalanced_three : AllBalanced (Session.new [])
    [⟨[97,47,98],fun _ => true⟩,⟨[97,47,98,47,99],fun _ => true⟩,⟨[97,47,100],fun _ => true⟩] := by
  refine (new_allBalanced_iff [] _).2 ⟨?_,?_,?_,trivial⟩
  all_goals exact ⟨by decide,by decide,by decide⟩

/-- `a/b`, with a push that fails at once. -/
def refusedCall : Call := ⟨[97,47,98],fun _ => false⟩

/-- The directory of a push that failed stays announced. -/
theorem refused_directory_announced : ¬AllBalanced (Session.new []) [refusedCall] := by
  rintro ⟨hbal,-⟩
  exact absurd hbal (by decide)

end Gix.PathStack
