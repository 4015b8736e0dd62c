import Gix.IndexFromTree
import Gix.SortedDedup

/-! # The index of a tree is the flattened tree

Every tree that is visited is queued once, next to its path. What is left of the flattened tree is
therefore what stands below the queue, whatever level of the traversal it is on. -/
namespace Gix.Index.FromTree
open Gix.Tree TreeTraverse Fallible List Tree.Entry
open PathComponent (Options component component_empty asciiChars)

variable {Id F : Type}

/-- Where an entry is: the directory, and the entry in it. -/
structure Place (Id : Type) where
  dir : BString
  entry : Tree.Entry Id

def Place.path (p : Place Id) : BString := join p.dir p.entry.filename

def Place.isTree (p : Place Id) : Bool := p.entry.mode.isTree

/-- The places of all that is reachable from the entries of a tree; a derivation is as deep as the
nesting, which is finite therefore. -/
inductive Flat (store : Id → Option (List (Tree.Entry Id))) :
    BString → List (Tree.Entry Id) → List (Place Id) → Prop
  | nil (dir) : Flat store dir [] []
  | leaf {dir e es ps} : e.mode.isTree = false → Flat store dir es ps →
      Flat store dir (e :: es) (⟨dir,e⟩ :: ps)
  | tree {dir e es ps sub qs} : e.mode.isTree = true → store e.oid = some sub →
      Flat store (join dir e.filename) sub qs → Flat store dir es ps →
      Flat store dir (e :: es) (⟨dir,e⟩ :: (qs++ps))

/-- The names of a tree are different, and there is no slash in them. -/
structure WellFormed (es : List (Tree.Entry Id)) : Prop where
  names : (es.map Tree.Entry.filename).Nodup
  slashes : ∀ e ∈ es, slash ∉ e.filename

/-- A component is not valid by itself, or as the name of a symbolic link. -/
def Fails (check : BString → Option PathComponent.Mode → Except PathComponent.Error Unit)
    (e : Tree.Entry Id) (err : PathComponent.Error) : Prop :=
  check e.filename none = .error err ∨
    kind e.mode = .link ∧ check e.filename (some .symlink) = .error err

/-! ## Paths -/

variable {dir name : BString} {e : Tree.Entry Id} {next : List Id} {store : Id → Option (List (Tree.Entry Id))}
  {es : List (Tree.Entry Id)} {ps : List (Place Id)} {find : Find Id F}

section Paths
variable {path : BString}

/-- What comes before the names of a directory. -/
def lead (dir : BString) : BString := if dir = [] then [] else dir++[slash]

theorem join_eq (dir name : BString) : join dir name=lead dir++name := by
  unfold join lead
  split_ifs
  · rfl
  · simp

theorem join_join (h : name≠[]) (path : BString) : join (join dir name) path=join dir name++slash::path :=
  if_neg (by simp [join_eq,h])

theorem takeWhile_reverse_join (h : slash∉name) :
    (join dir name).reverse.takeWhile (· ≠ slash)=name.reverse ∧
      (join dir name).reverse.dropWhile (· ≠ slash)=(lead dir).reverse := by
  have hname : ∀ b∈name.reverse,decide (b≠slash)=true := by
    intro b hb
    simpa using fun he : b=slash => h (he ▸ mem_reverse.mp hb)
  have hlead : (lead dir).reverse.takeWhile (· ≠ slash)=[] ∧
      (lead dir).reverse.dropWhile (· ≠ slash)=(lead dir).reverse := by
    unfold lead
    split_ifs <;> simp
  rw [join_eq,reverse_append,takeWhile_append_of_pos hname,dropWhile_append_of_pos hname,
    hlead.1,hlead.2]
  simp

theorem lastComponent_join (h : slash∉name) : lastComponent (join dir name)=name := by
  rw [lastComponent,(takeWhile_reverse_join h).1,reverse_reverse]

variable {c : CollectEntries Id}

theorem popPathComponent_join (hpath : c.path=join dir name) (h : slash∉name) :
    popPathComponent c={c with path := dir} := by
  have hdir : (if slash∈join dir name then
      (((join dir name).reverse.dropWhile (· ≠ slash)).drop 1).reverse else [])=dir := by
    rw [(takeWhile_reverse_join h).2,join_eq]
    unfold lead
    split_ifs with hd hm hm
    · simp [hd]
    · exact hd.symm
    · simp
    · simp at hm
  rw [popPathComponent,hpath,hdir]

end Paths

/-! ## A level of the traversal -/

section Level
variable (check : BString → Option PathComponent.Mode → Except PathComponent.Error Unit) {c : CollectEntries Id}

/-- What becomes of the collected entries when a valid entry is visited. -/
def accept (dir : BString) (c : CollectEntries Id) (e : Tree.Entry Id) : CollectEntries Id :=
  match indexMode (kind e.mode) with
  | none => {c with pathDeque := c.pathDeque++[join dir e.filename]}
  | some mode =>
    {c with
      entries := c.entries++
        [⟨e.oid,0,mode,(c.pathBacking.length,(c.pathBacking++join dir e.filename).length)⟩]
      pathBacking := c.pathBacking++join dir e.filename}

theorem isTree_iff (m : EntryMode) : m.isTree=true ↔ kind m = .tree := by
  unfold EntryMode.isTree kind
  split_ifs with h1 h2 h3 h4 <;> simp_all

theorem isTree_eq (m : EntryMode) : m.isTree=(indexMode (kind m)).isNone := by
  rw [Bool.eq_iff_iff,isTree_iff]
  cases kind m <;> simp [indexMode]

variable {check}

theorem validate_ok {name : BString} {mode : Option PathComponent.Mode} (h : check name mode = .ok ()) :
    validate check c name mode=c := by
  unfold validate
  split_ifs
  · rw [h]
  · rfl

variable {err : PathComponent.Error}

theorem validate_error {name : BString} {mode : Option PathComponent.Mode} (hc : c.invalidPath=none)
    (h : check name mode = .error err) : validate check c name mode={c with invalidPath := some (c.path,err)} := by
  unfold validate
  rw [if_pos hc,h]

/-- The mode that a component is checked with again. -/
def linkMode (e : Tree.Entry Id) : Option PathComponent.Mode :=
  if kind e.mode = .link then some .symlink else none

theorem not_fails (h : ∀ err,¬Fails check e err) :
    check e.filename none = .ok () ∧ check e.filename (linkMode e) = .ok () := by
  have hplain : check e.filename none = .ok () := by
    cases hcheck : check e.filename none with
    | ok => rfl
    | error err => exact absurd (.inl hcheck) (h err)
  refine ⟨hplain,?_⟩
  unfold linkMode
  split_ifs with hlink
  · cases hcheck : check e.filename (some .symlink) with
    | ok => rfl
    | error err => exact absurd (.inr ⟨hlink,hcheck⟩) (h err)
  · exact hplain

theorem pushElement_ok (hpath : c.path=dir) (h : check e.filename none = .ok ()) :
    pushElement check e.filename c={c with path := join dir e.filename} := by
  rw [pushElement,validate_ok h,hpath]

theorem addEntry_invalidPath (h : c.invalidPath≠none) :
    (addEntry check e c).invalidPath=c.invalidPath := by
  unfold addEntry
  simp only [validate,if_neg h]
  cases indexMode (kind e.mode) <;> rfl

theorem addEntry_ok {mode : UInt32} (hpath : c.path=join dir e.filename) (hslash : slash∉e.filename)
    (h : check e.filename (linkMode e) = .ok ()) (hmode : indexMode (kind e.mode)=some mode) :
    addEntry check e c =
      {c with
        entries := c.entries++
          [⟨e.oid,0,mode,(c.pathBacking.length,(c.pathBacking++join dir e.filename).length)⟩]
        pathBacking := c.pathBacking++join dir e.filename} := by
  unfold addEntry
  rw [hpath,lastComponent_join hslash]
  have hv := validate_ok (c := c) h
  rw [linkMode] at hv
  rw [hv,hmode]
  simp [hpath]

def subtrees (es : List (Tree.Entry Id)) : List (Tree.Entry Id) := es.filter (fun e => e.mode.isTree)

variable {o : F}

theorem visitEntry_valid (next : List Id) (o : F) (hpath : c.path=dir) (hc : c.invalidPath=none) (hslash : slash∉e.filename)
    (h : ∀ err,¬Fails check e err) :
    visitEntry (collectEntries check) e ⟨next,c,o⟩ =
      some (.ok (),⟨next++(subtrees [e]).map oid,accept dir c e,o⟩) := by
  obtain ⟨hplain,hlink⟩ := not_fails h
  obtain ⟨entries,backing,path,deque,_⟩ := c
  subst hpath hc
  have hpush : ∀ deque,pushElement check e.filename ⟨entries,backing,path,deque,none⟩ =
      ⟨entries,backing,join path e.filename,deque,none⟩ := fun deque => pushElement_ok rfl hplain
  have hpop : ∀ entries backing deque,popPathComponent
      (⟨entries,backing,join path e.filename,deque,none⟩ : CollectEntries Id)=⟨entries,backing,path,deque,none⟩ :=
    fun entries backing deque => popPathComponent_join rfl hslash
  cases hmode : indexMode (kind e.mode) with
  | none =>
    simp [visitEntry,isTree_eq,onDelegate,act,collectEntries,Bind.bind,determineAction,hpush,hpop,
      subtrees,accept,hmode]
  | some mode =>
    have hadd := addEntry_ok (c := ⟨entries,backing,join path e.filename,deque,none⟩) rfl hslash hlink hmode
    simp [visitEntry,isTree_eq,onDelegate,act,collectEntries,Bind.bind,determineAction,hpush,hpop,
      hadd,subtrees,accept,hmode]

theorem visitEntry_fails (next : List Id) (o : F) (hpath : c.path=dir) (hc : c.invalidPath=none)
    (hslash : slash∉e.filename) (h : Fails check e err) :
    ∃ s err,visitEntry (collectEntries check) e ⟨next,c,o⟩=some (.error .cancelled,s) ∧ Fails check e err ∧
      s.delegate.invalidPath=some (join dir e.filename,err) := by
  cases hplain : check e.filename none with
  | error err =>
    have hpush : (pushElement check e.filename c).invalidPath=some (join dir e.filename,err) := by
      rw [pushElement,validate_error (by exact hc) hplain,hpath]
    cases ht : e.mode.isTree with
    | true =>
      refine ⟨⟨next,pushElement check e.filename c,o⟩,err,?_,.inl hplain,hpush⟩
      simp [visitEntry,ht,onDelegate,act,collectEntries,Bind.bind,hpush,determineAction,
        Fallible.throw]
    | false =>
      have hadd : (addEntry check e (pushElement check e.filename c)).invalidPath=_ :=
        (addEntry_invalidPath (by simp [hpush])).trans hpush
      refine ⟨⟨next,addEntry check e (pushElement check e.filename c),o⟩,err,?_,.inl hplain,hadd⟩
      simp [visitEntry,ht,onDelegate,act,collectEntries,Bind.bind,determineAction,hadd,
        Fallible.throw]
  | ok =>
    have hlink : kind e.mode = .link ∧ check e.filename (some .symlink) = .error err := by
      rcases h with h | h
      · simp [hplain] at h
      · exact h
    have hcheck : check e.filename (linkMode e) = .error err := by rw [linkMode,if_pos hlink.1,hlink.2]
    have ht : e.mode.isTree=false := by
      rw [← Bool.not_eq_true,isTree_iff,hlink.1]
      simp
    have hpush :=
      pushElement_ok hpath hplain
    have hadd : (addEntry check e (pushElement check e.filename c)).invalidPath =
        some (join dir e.filename,err) := by
      have hv := validate_error (c := {c with path := join dir e.filename}) hc hcheck
      rw [linkMode] at hv
      rw [hpush,addEntry,lastComponent_join hslash,hv]
      cases indexMode (kind e.mode) <;> rfl
    refine ⟨⟨next,addEntry check e (pushElement check e.filename c),o⟩,err,?_,.inr hlink,hadd⟩
    simp [visitEntry,ht,onDelegate,act,collectEntries,Bind.bind,determineAction,hadd,
      Fallible.throw]

theorem accept_path (dir : BString) (c : CollectEntries Id) (e : Tree.Entry Id) : (accept dir c e).path=c.path := by
  unfold accept
  cases indexMode (kind e.mode) <;> rfl

theorem accept_invalidPath (dir : BString) (c : CollectEntries Id) (e : Tree.Entry Id) :
    (accept dir c e).invalidPath=c.invalidPath := by
  unfold accept
  cases indexMode (kind e.mode) <;> rfl

variable (check next o) in
/-- All entries of a tree are valid, or the traversal ends at one that is not. -/
theorem visitEntries_level {es : List (Tree.Entry Id)} (hpath : c.path=dir) (hc : c.invalidPath=none)
    (hslash : ∀ e∈es,slash∉e.filename) :
    ((∀ e∈es,∀ err,¬Fails check e err) ∧
        visitEntries (collectEntries check) (es.map .ok) ⟨next,c,o⟩ =
          some (.ok (),⟨next++(subtrees es).map oid,es.foldl (accept dir) c,o⟩)) ∨
      ∃ s,∃ e∈es,∃ err,visitEntries (collectEntries check) (es.map .ok) ⟨next,c,o⟩=some (.error .cancelled,s) ∧
        Fails check e err ∧ s.delegate.invalidPath=some (join dir e.filename,err) := by
  induction es generalizing c next with
  | nil => exact .inl ⟨by simp,by simp [visitEntries,subtrees]⟩
  | cons e es ih =>
    have hse := hslash e mem_cons_self
    by_cases hfails : ∃ err,Fails check e err
    · obtain ⟨err,herr⟩ := hfails
      obtain ⟨s,err,hvisit,herr,hs⟩ := visitEntry_fails next o hpath hc hse herr
      refine .inr ⟨s,e,mem_cons_self,err,?_,herr,hs⟩
      simp [visitEntries,Bind.bind,hvisit]
    · have hvalid : ∀ err,¬Fails check e err := fun err herr => hfails ⟨err,herr⟩
      have hvisit := visitEntry_valid next o hpath hc hse hvalid
      have hstep : visitEntries (collectEntries check) ((e::es).map .ok) ⟨next,c,o⟩ =
          visitEntries (collectEntries check) (es.map .ok)
            ⟨next++(subtrees [e]).map oid,accept dir c e,o⟩ := by
        rw [map_cons,visitEntries,bind_ok hvisit]
      rw [hstep]
      rcases ih _ ((accept_path ..).trans hpath) ((accept_invalidPath ..).trans hc)
          (fun x hx => hslash x (mem_cons_of_mem e hx)) with ⟨hall,hrun⟩ | ⟨s,x,hx,err,hrun,herr,hs⟩
      · refine .inl ⟨forall_mem_cons.mpr ⟨hvalid,hall⟩,?_⟩
        rw [hrun]
        have hsub : subtrees (e::es)=subtrees [e]++subtrees es := by
          rw [subtrees,subtrees,subtrees,← filter_append]
          rfl
        rw [hsub,map_append,append_assoc]
        rfl
      · exact .inr ⟨s,x,mem_cons_of_mem e hx,err,hrun,herr,hs⟩

end Level

/-! ## The queue -/

/-- The subtrees that are queued with their paths, and the places below them. -/
inductive Queue (store : Id → Option (List (Tree.Entry Id))) : List Id → List BString → List (Place Id) → Prop
  | nil : Queue store [] [] []
  | cons {oid next dir deque sub qs ps} : store oid = some sub → Flat store dir sub qs →
      Queue store next deque ps → Queue store (oid :: next) (dir :: deque) (qs++ps)

section Queues
variable {qs : List (Place Id)} {more : List Id} {deque dirs : List BString}

theorem Queue.append (h : Queue store next deque ps) (h1 : Queue store more dirs qs) :
    Queue store (next++more) (deque++dirs) (ps++qs) := by
  induction h with
  | nil => exact h1
  | cons hsub hflat _ ih =>
    rw [append_assoc]
    exact .cons hsub hflat ih

/-- A flattened tree is its own entries and what is below its subtrees. -/
theorem Flat.levels (h : Flat store dir es ps) :
    ∃ qs,ps.Perm (es.map (Place.mk dir)++qs) ∧
      Queue store ((subtrees es).map oid) ((subtrees es).map fun e => join dir e.filename) qs := by
  induction h with
  | nil dir => exact ⟨[],.refl _,.nil⟩
  | @leaf dir e es ps ht _ ih =>
    obtain ⟨qs,hperm,hqueue⟩ := ih
    refine ⟨qs,hperm.cons _,?_⟩
    simpa [subtrees,ht] using hqueue
  | @tree dir e es ps sub below ht hsub hflat _ _ ih =>
    obtain ⟨qs,hperm,hqueue⟩ := ih
    refine ⟨below++qs,?_,?_⟩
    · exact ((hperm.append_left below).trans (perm_append_comm_assoc ..)).cons _
    · simpa [subtrees,ht] using Queue.cons hsub hflat hqueue

def lookups (next : List Id) (ps : List (Place Id)) : ℕ := next.length+ps.countP Place.isTree

theorem lookups_level (next : List Id) (dir : BString) (es : List (Tree.Entry Id)) (ps : List (Place Id)) :
    lookups next (es.map (Place.mk dir)++ps)=lookups (next++(subtrees es).map oid) ps := by
  have hown : (es.map (Place.mk dir)).countP Place.isTree=(subtrees es).length := by
    rw [countP_map,subtrees,← countP_eq_length_filter]
    rfl
  simp only [lookups,countP_append,length_append,length_map]
  omega

end Queues

/-! ## What is collected -/

structure View (Id : Type) where
  path : BString
  id : Id
  mode : Option UInt32
  stage : UInt32

def Entry.view (backing : BString) (e : Entry Id) : View Id := ⟨e.pathIn backing,e.id,some e.mode,e.stage⟩

def Place.view (p : Place Id) : View Id := ⟨p.path,p.entry.oid,indexMode (kind p.entry.mode),0⟩

def leaves (ps : List (Place Id)) : List (Place Id) := ps.filter (fun p => !p.isTree)

/-- The paths are in the backing, and the entries are those of the places. -/
structure Collected (c : CollectEntries Id) (ps : List (Place Id)) : Prop where
  bounds : ∀ e ∈ c.entries,e.path.2 ≤ c.pathBacking.length
  views : c.entries.map (Entry.view c.pathBacking) = (leaves ps).map Place.view

section Collecting
variable {c : CollectEntries Id}

theorem Collected.accept (h : Collected c ps) : Collected (accept dir c e) (ps++[⟨dir,e⟩]) := by
  unfold FromTree.accept
  cases hmode : indexMode (kind e.mode) with
  | none =>
    refine ⟨h.bounds,?_⟩
    simpa [leaves,Place.isTree,isTree_eq,hmode] using h.views
  | some mode =>
    refine ⟨?_,?_⟩
    · intro x hx
      rcases mem_append.mp hx with hx | hx
      · exact (h.bounds x hx).trans (by simp)
      · rw [mem_singleton.mp hx]
    · have hold : c.entries.map (Entry.view (c.pathBacking++join dir e.filename)) =
          c.entries.map (Entry.view c.pathBacking) :=
        map_congr_left fun x hx => by
          rw [Entry.view,Entry.view,Entry.pathIn,Entry.pathIn,take_append_of_le_length (h.bounds x hx)]
      have hnew : Entry.view (c.pathBacking++join dir e.filename)
          ⟨e.oid,0,mode,(c.pathBacking.length,(c.pathBacking++join dir e.filename).length)⟩=Place.view ⟨dir,e⟩ := by
        have hstage : ((0 : UInt32) &&& 0x3000) >>> 12=0 := by decide
        simp only [Entry.view,Entry.pathIn,Place.view,Place.path,take_length,drop_left,hmode,Entry.stage,
          hstage]
      rw [map_append,hold,h.views,map_singleton,hnew]
      simp [leaves,Place.isTree,isTree_eq,hmode]

theorem Collected.level (dir : BString) (es : List (Tree.Entry Id)) (h : Collected c ps) :
    Collected (es.foldl (FromTree.accept dir) c) (ps++es.map (Place.mk dir)) := by
  induction es generalizing c ps with
  | nil => simpa using h
  | cons e es ih => simpa using ih (h.accept)

theorem foldl_accept_pathDeque (dir : BString) (es : List (Tree.Entry Id)) (c : CollectEntries Id) :
    (es.foldl (accept dir) c).pathDeque=c.pathDeque++(subtrees es).map fun e => join dir e.filename := by
  induction es generalizing c with
  | nil => simp [subtrees]
  | cons e es ih =>
    rw [foldl_cons,ih]
    unfold accept
    cases hmode : indexMode (kind e.mode) <;> simp [subtrees,isTree_eq,hmode]

theorem foldl_accept_invalidPath (dir : BString) (es : List (Tree.Entry Id)) (c : CollectEntries Id) :
    (es.foldl (accept dir) c).invalidPath=c.invalidPath := by
  induction es generalizing c with
  | nil => rfl
  | cons e es ih => rw [foldl_cons,ih,accept_invalidPath]

end Collecting

/-! ## The traversal -/

/-- The store gives out the trees that it has. -/
def Serves (find : Find Id F) (store : Id → Option (List (Tree.Entry Id))) : Prop :=
  ∀ oid es o,store oid = some es → (find oid o).1 = .ok (es.map .ok)

section Traversal
variable {check : BString → Option PathComponent.Mode → Except PathComponent.Error Unit}
  {done rest : List (Place Id)}

/-- How a traversal ends: with everything that is reachable, or at a component that fails. -/
inductive Ends (check : BString → Option PathComponent.Mode → Except PathComponent.Error Unit)
    (done left : List (Place Id)) : Except TreeTraverse.Error Unit → CollectEntries Id → Prop
  | complete {c ps} : (∀ p ∈ left,∀ err,¬Fails check p.entry err) → ps.Perm (done++left) → Collected c ps →
      Ends check done left (.ok ()) c
  | refused {c p err} : p ∈ left → Fails check p.entry err → c.invalidPath = some (p.path,err) →
      Ends check done left (.error .cancelled) c

theorem Ends.level {r : Except TreeTraverse.Error Unit} {own left : List (Place Id)}
    (hown : ∀ p∈own,∀ err,¬Fails check p.entry err) (hperm : left.Perm (own++rest))
    (h : Ends check (done++own) rest r c) : Ends check done left r c := by
  cases h with
  | complete hvalid hps hc =>
    refine .complete (fun p hp => ?_) (hps.trans ?_) hc
    · rcases mem_append.mp (hperm.mem_iff.mp hp) with hp | hp
      · exact hown p hp
      · exact hvalid p hp
    · rw [append_assoc]
      exact hperm.symm.append_left done
  | refused hp herr hc => exact .refused (hperm.mem_iff.mpr (mem_append_right own hp)) herr hc

variable (check) in
theorem traverseLoop_ends (serves : Serves find store) (wf : ∀ oid es,store oid=some es → WellFormed es)
    (n : ℕ) {next : List Id} {o : F} (hslash : ∀ e∈es,slash∉e.filename)
    (hflat : Flat store dir es ps) (hqueue : Queue store next c.pathDeque rest) (hpath : c.path=dir)
    (hc : c.invalidPath=none) (hdone : Collected c done) (hn : lookups next (ps++rest) ≤ n) :
    ∃ r s,(∀ fuel > n,traverseLoop (collectEntries check) find fuel (es.map .ok) ⟨next,c,o⟩=some (r,s)) ∧
      Ends check done (ps++rest) r s.delegate := by
  induction n using Nat.strong_induction_on generalizing c next o dir es ps rest done with
  | _ n ih =>
    obtain ⟨qs,hown,hsub⟩ := hflat.levels
    have hperm : (ps++rest).Perm (es.map (Place.mk dir)++(rest++qs)) := by
      refine (hown.append_right rest).trans ?_
      rw [append_assoc]
      exact perm_append_comm.append_left _
    rcases visitEntries_level next check o hpath hc hslash with ⟨hvalid,hrun⟩ | ⟨s,e,he,err,hrun,herr,hs⟩
    swap
    · refine ⟨.error .cancelled,s,?_,?_⟩
      · rintro (_ | fuel) hfuel
        · omega
        · simp [traverseLoop,Bind.bind,hrun]
      · have hp := hperm.mem_iff.mpr (mem_append_left _ (mem_map_of_mem he))
        exact .refused hp herr hs
    have hq := hqueue.append hsub
    rw [← foldl_accept_pathDeque] at hq
    rw [lookups,hperm.countP_eq,← lookups,lookups_level] at hn
    have hcol := hdone.level dir es
    have hnone := (foldl_accept_invalidPath dir es c).trans hc
    have hownValid : ∀ p∈es.map (Place.mk dir),∀ err,¬Fails check p.entry err := by
      intro p hp
      obtain ⟨e,he,rfl⟩ := mem_map.mp hp
      exact hvalid e he
    suffices hlevel : ∃ r s,(∀ fuel > n,traverseLoop (collectEntries check) find fuel (es.map .ok) ⟨next,c,o⟩ =
        some (r,s)) ∧ Ends check (done++es.map (Place.mk dir)) (rest++qs) r s.delegate by
      obtain ⟨r,s,hloop,hends⟩ := hlevel
      exact ⟨r,s,hloop,hends.level hownValid hperm⟩
    generalize es.foldl (accept dir) c=c1 at hq hcol hnone hrun
    generalize next++(subtrees es).map oid=queue at hq hn hrun
    generalize hdeque : c1.pathDeque=deque at hq
    generalize rest++qs=left at hq hn ⊢
    cases hq with
    | nil =>
      refine ⟨.ok (),⟨[],c1,o⟩,?_,.complete (by simp) (by simp) hcol⟩
      rintro (_ | fuel) hfuel
      · omega
      · simp [traverseLoop,Bind.bind,hrun,popNext]
    | @cons oid queue path deque sub below left hstore hbelow hrest =>
      have hpop : (collectEntries check).popFrontTrackedPathAndSetCurrent c1 =
          some {c1 with path := path,pathDeque := deque} := by
        simp [collectEntries,hdeque]
      obtain ⟨k,rfl⟩ : ∃ k,n=k+1 := ⟨n-1,by simp only [lookups,length_cons] at hn; omega⟩
      obtain ⟨r,s,hloop,hends⟩ := ih k (by omega) (wf oid sub hstore).slashes hbelow
        (c := {c1 with path := path,pathDeque := deque}) hrest rfl hnone ⟨hcol.bounds,hcol.views⟩
        (by simp only [lookups,length_cons] at hn ⊢; omega)
      refine ⟨r,s,?_,hends⟩
      rintro (_ | fuel) hfuel
      · omega
      · simp only [traverseLoop,Bind.bind,hrun,popNext,popFrontTrackedPath,hpop,Option.map_some,findTreeIter,
          serves oid sub o hstore]
        exact hloop fuel (by omega)

end Traversal

/-! ## The order of the paths -/

theorem cmpFilepaths_eq (a b : BString) : cmpFilepaths a b=compare a b := by
  induction a generalizing b with
  | nil => cases b <;> rfl
  | cons x a ih =>
    cases b with
    | nil => rfl
    | cons y b =>
      have hmin : min (x::a).length (y::b).length=min a.length b.length+1 := by
        simp only [length_cons]
        omega
      have hlen : compare (x::a).length (y::b).length=compare a.length b.length := by
        simp [compare,compareOfLessAndEq]
      rw [List.compare_cons_cons,← ih,cmpFilepaths,cmpFilepaths,hmin,hlen,List.take_succ_cons,List.take_succ_cons,
        List.compare_cons_cons,Ordering.then_assoc]

theorem compare_eq_lt {a b : BString} (h : compare a b = .lt) : a < b := by
  induction a generalizing b with
  | nil =>
    cases b with
    | nil => simp at h
    | cons y b => exact nil_lt_cons y b
  | cons x a ih =>
    cases b with
    | nil => simp at h
    | cons y b =>
      rw [List.compare_cons_cons,Ordering.then_eq_lt] at h
      rw [cons_lt_cons_iff]
      rcases h with h | ⟨heq,h⟩
      · exact .inl (Std.compare_eq_lt.mp h)
      · exact .inr ⟨Std.LawfulEqOrd.eq_of_compare heq,ih h⟩

/-! ## Paths are different -/

section Distinct
variable {p : Place Id} {name1 more more1 : BString}

/-- What may follow a name in a path. -/
def Ending (more : BString) : Prop := more = [] ∨ more.head? = some slash

theorem takeWhile_ending (h : slash∉name) (hmore : Ending more) : (name++more).takeWhile (· ≠ slash)=name := by
  have hname : ∀ b∈name,decide (b≠slash)=true := by
    intro b hb
    simpa using fun he : b=slash => h (he ▸ hb)
  have hnil : more.takeWhile (· ≠ slash)=[] := by
    rcases hmore with rfl | hhead
    · rfl
    · obtain ⟨_,rfl⟩ := head?_eq_some_iff.mp hhead
      simp
  rw [takeWhile_append_of_pos hname,hnil,append_nil]

theorem Flat.paths (h : Flat store dir es ps) (hne : ∀ p∈ps,p.entry.filename≠[]) :
    ∀ p∈ps,∃ e∈es,∃ more,p.path=join dir e.filename++more ∧ Ending more := by
  induction h with
  | nil => simp
  | @leaf dir e es ps _ _ ih =>
    rw [forall_mem_cons] at hne ⊢
    refine ⟨⟨e,mem_cons_self,[],by simp [Place.path],.inl rfl⟩,fun p hp => ?_⟩
    obtain ⟨x,hx,more⟩ := ih hne.2 p hp
    exact ⟨x,mem_cons_of_mem e hx,more⟩
  | @tree dir e es ps sub qs _ _ _ _ ihsub ih =>
    rw [forall_mem_cons,forall_mem_append] at hne ⊢
    refine ⟨⟨e,mem_cons_self,[],by simp [Place.path],.inl rfl⟩,fun p hp => ?_,fun p hp => ?_⟩
    · obtain ⟨x,hx,more,hpath,_⟩ := ihsub hne.2.1 p hp
      refine ⟨e,mem_cons_self,slash::(x.filename++more),?_,.inr rfl⟩
      rw [hpath,join_join hne.1,append_assoc,cons_append]
    · obtain ⟨x,hx,more⟩ := ih hne.2.2 p hp
      exact ⟨x,mem_cons_of_mem e hx,more⟩

theorem Flat.nodup (h : Flat store dir es ps) (wf : ∀ oid es,store oid=some es → WellFormed es)
    (hes : WellFormed es) (hne : ∀ p∈ps,p.entry.filename≠[]) : (ps.map Place.path).Nodup := by
  -- a path of the other entries differs in its first name already
  have hother : ∀ {dir} {e : Tree.Entry Id} {es ps},Flat store dir es ps → WellFormed (e::es) →
      (∀ p∈ps,p.entry.filename≠[]) → ∀ p∈ps,∀ more,Ending more → join dir e.filename++more≠p.path := by
    intro dir e es ps hflat hwf hne p hp more hmore heq
    obtain ⟨x,hx,_,hpath,hmore1⟩ := hflat.paths hne p hp
    rw [hpath,join_eq,join_eq,append_assoc,append_assoc] at heq
    have hname : e.filename=x.filename := by
      rw [← takeWhile_ending (hwf.slashes e mem_cons_self) hmore,append_cancel_left heq,
        takeWhile_ending (hwf.slashes x (mem_cons_of_mem e hx)) hmore1]
    exact (nodup_cons.mp hwf.names).1 (hname ▸ mem_map_of_mem hx)
  have htail : ∀ {e : Tree.Entry Id} {es},WellFormed (e::es) → WellFormed es := fun hwf =>
    ⟨(nodup_cons.mp hwf.names).2,fun x hx => hwf.slashes x (mem_cons_of_mem _ hx)⟩
  induction h with
  | nil => simp
  | @leaf dir e es ps _ hflat ih =>
    rw [forall_mem_cons] at hne
    rw [map_cons,nodup_cons]
    refine ⟨fun hmem => ?_,ih (htail hes) hne.2⟩
    obtain ⟨p,hp,hpath⟩ := mem_map.mp hmem
    exact hother hflat hes hne.2 p hp [] (.inl rfl) (by rw [hpath,Place.path,append_nil])
  | @tree dir e es ps sub qs _ hstore hsub hflat ihsub ih =>
    rw [forall_mem_cons,forall_mem_append] at hne
    have hbelow : ∀ q∈qs,∃ more,q.path=join dir e.filename++slash::more := by
      intro q hq
      obtain ⟨x,_,more,hpath,_⟩ := hsub.paths hne.2.1 q hq
      exact ⟨x.filename++more,by rw [hpath,join_join hne.1,append_assoc,cons_append]⟩
    rw [map_cons,map_append,nodup_cons,mem_append]
    refine ⟨?_,List.Nodup.append (ihsub (wf _ _ hstore) hne.2.1) (ih (htail hes) hne.2.2) ?_⟩
    · rintro (hmem | hmem)
      · obtain ⟨q,hq,hpath⟩ := mem_map.mp hmem
        obtain ⟨more,hmore⟩ := hbelow q hq
        rw [hmore] at hpath
        simp [Place.path] at hpath
      · obtain ⟨p,hp,hpath⟩ := mem_map.mp hmem
        exact hother hflat hes hne.2.2 p hp [] (.inl rfl) (by rw [hpath,Place.path,append_nil])
    · intro path hleft hright
      obtain ⟨q,hq,rfl⟩ := mem_map.mp hleft
      obtain ⟨p,hp,hpath⟩ := mem_map.mp hright
      obtain ⟨more,hmore⟩ := hbelow q hq
      exact hother hflat hes hne.2.2 p hp (slash::more) (.inr rfl) (by rw [hpath,hmore])

end Distinct

/-! ## The index -/

section Index
variable {places : List (Place Id)} {root : Id}

/-- From a store of well-formed trees with finite nesting: the index has an entry of stage 0 for
each place that is no tree, in strictly ascending order of the paths, if all components are valid.
Otherwise it is an error, with the path of a component that is not. -/
theorem fromTree_flattens (chars : BString → List Char) (options : Options) (serves : Serves find store)
    (wf : ∀ oid es,store oid = some es → WellFormed es) (hroot : store root = some es)
    (flat : Flat store [] es places) (objects : F) :
    let check := fun name mode => component chars name mode options
    ∃ result n,(∀ fuel ≥ n,fromTree check fuel root find objects=some result) ∧
      ((∀ p∈places,∀ err,¬Fails check p.entry err) → ∃ state,result = .ok state ∧
        (state.entries.map (Entry.view state.pathBacking)).Perm ((leaves places).map Place.view) ∧
        (state.entries.map (Entry.pathIn · state.pathBacking)).Pairwise (· < ·)) ∧
      ((∃ p∈places,∃ err,Fails check p.entry err) →
        ∃ p∈places,∃ err,Fails check p.entry err ∧ result = .error (.invalidComponent p.path err)) := by
  intro check
  have hnil : Collected (CollectEntries.new : CollectEntries Id) [] := ⟨by simp [CollectEntries.new],rfl⟩
  obtain ⟨r,s,hloop,hends⟩ := traverseLoop_ends check serves wf
    (lookups [] (places++[])) (wf root es hroot).slashes flat .nil rfl rfl hnil le_rfl
  rw [append_nil] at hends
  have hfind : find root objects=(.ok (es.map .ok),(find root objects).2) := by
    rw [← serves root es objects hroot]
  have htraverse : ∀ fuel > lookups [] (places++[]),
      TreeTraverse.traverse (collectEntries check) find fuel (es.map .ok) .new (find root objects).2 =
        some (r,s.delegate,s.objects) := by
    intro fuel hfuel
    rw [TreeTraverse.traverse,hloop fuel hfuel]
    rfl
  cases hends with
  | @complete c ps hvalid hperm hcol =>
    have hnames : ∀ p∈places,p.entry.filename≠[] := by
      intro p hp hempty
      refine hvalid p hp .empty (.inl ?_)
      rw [hempty]
      exact component_empty chars none options
    have hviews : (s.delegate.entries.map (Entry.view s.delegate.pathBacking)).Perm
        ((leaves places).map Place.view) := by
      rw [hcol.views]
      exact (hperm.filter _).map _
    have hpaths : (s.delegate.entries.map (Entry.pathIn · s.delegate.pathBacking)).Nodup := by
      have hmap := hviews.map View.path
      rw [map_map,map_map] at hmap
      refine hmap.nodup_iff.mpr ?_
      exact (flat.nodup wf (wf root es hroot) hnames).sublist (filter_sublist.map _)
    refine ⟨.ok ⟨sortEntries s.delegate.pathBacking s.delegate.entries,s.delegate.pathBacking⟩,
      lookups [] (places++[])+1,fun fuel hfuel => ?_,fun _ => ⟨_,rfl,?_,?_⟩,?_⟩
    · rw [fromTree,hfind]
      simp [htraverse fuel (by omega)]
    · exact ((mergeSort_perm ..).map _).trans hviews
    · unfold sortEntries
      simp only [cmpFilepaths_eq]
      exact (SortedDedup.pairwise_lt_mergeSort hpaths).imp compare_eq_lt
    · rintro ⟨p,hp,err,herr⟩
      exact absurd herr (hvalid p hp err)
  | @refused c p err hp herr hinvalid =>
    refine ⟨.error (.invalidComponent p.path err),lookups [] (places++[])+1,fun fuel hfuel => ?_,fun hvalid => ?_,
      fun _ => ⟨p,hp,err,herr,rfl⟩⟩
    · rw [fromTree,hfind]
      simp [htraverse fuel (by omega),hinvalid]
    · exact absurd herr (hvalid p hp err)

/-- A file `a` and a directory `d` with a link `b`. -/
def sampleStore : ℕ → Option (List (Tree.Entry ℕ))
  | 0 => some [⟨⟨0o100644⟩,[97],5⟩,⟨⟨0o040000⟩,[100],1⟩]
  | 1 => some [⟨⟨0o120000⟩,[98],6⟩]
  | _ => none

def sampleFind : Find ℕ Unit := fun oid o =>
  (match sampleStore oid with | some es => .ok (es.map .ok) | none => .error (),o)

theorem fromTree_flattens_sample :
    ∃ state n,(∀ fuel ≥ n,fromTree (fun name mode => component asciiChars name mode ⟨true,true,true⟩) fuel 0
        sampleFind () = some (.ok state)) ∧
      (state.entries.map (Entry.view state.pathBacking)).Perm
        [⟨[97],5,some 0o100644,0⟩,⟨[100,47,98],6,some 0o120000,0⟩] := by
  have hserves : Serves sampleFind sampleStore := by
    intro oid es o h
    simp [sampleFind,h]
  have hwf : ∀ oid es,sampleStore oid=some es → WellFormed es := by
    rintro (_ | _ | oid) es h
    · cases h
      exact ⟨by decide,by decide⟩
    · cases h
      exact ⟨by decide,by decide⟩
    · cases h
  have hflat : Flat sampleStore [] [⟨⟨0o100644⟩,[97],5⟩,⟨⟨0o040000⟩,[100],1⟩]
      [⟨[],⟨⟨0o100644⟩,[97],5⟩⟩,⟨[],⟨⟨0o040000⟩,[100],1⟩⟩,⟨[100],⟨⟨0o120000⟩,[98],6⟩⟩] :=
    .leaf rfl (.tree rfl rfl (.leaf rfl (.nil _)) (.nil _))
  have hroot : sampleStore 0=some [⟨⟨0o100644⟩,[97],5⟩,⟨⟨0o040000⟩,[100],1⟩] := rfl
  obtain ⟨_,n,hrun,hvalid,-⟩ := fromTree_flattens asciiChars ⟨true,true,true⟩ hserves hwf hroot hflat ()
  have hall : ∀ p∈[(⟨[],⟨⟨0o100644⟩,[97],5⟩⟩ : Place ℕ),⟨[],⟨⟨0o040000⟩,[100],1⟩⟩,⟨[100],⟨⟨0o120000⟩,[98],6⟩⟩],
      ∀ err,¬Fails (fun name mode => component asciiChars name mode ⟨true,true,true⟩) p.entry err := by
    intro p hp err
    have h : component asciiChars p.entry.filename none ⟨true,true,true⟩ = .ok () ∧
        component asciiChars p.entry.filename (some .symlink) ⟨true,true,true⟩ = .ok () := by
      simp only [mem_cons,not_mem_nil,or_false] at hp
      rcases hp with rfl | rfl | rfl <;> exact ⟨by decide,by decide⟩
    simp [Fails,h.1,h.2]
  obtain ⟨state,rfl,hviews,-⟩ := hvalid hall
  exact ⟨state,n,hrun,hviews⟩

end Index

end Gix.Index.FromTree
