import Gix.Mailmap

/-! # Resolution by the last matching entry

As long as the comparison is an order on the emails, what the snapshot has for one of them is what the
entries for it leave behind, and the same holds below it for the names. -/
namespace Gix.Mailmap
open SortedTable EncodedString List EmailEntry ResolvedSignature Option

variable {search : Search} {emails names : List Bytes} {entries : List Entry} {email name : Bytes}
  {signature : SignatureRef}

/-! One email -/

theorem merge_oldEmail (e : EmailEntry) (entry : Entry) :
    (e.merge search entry).oldEmail=e.oldEmail := by
  unfold EmailEntry.merge
  split
  · rfl
  · dsimp only
    split
    · rfl
    · rfl

theorem ofEntry_oldEmail (entry : Entry) :
    (ofEntry entry).oldEmail=ofBytes entry.oldEmail := by
  unfold ofEntry
  split
  · rfl
  · rfl

/-- What entries for one email leave behind. -/
def collected (search : Search) (entries : List Entry) : Option EmailEntry :=
  entries.foldl (fun e entry => some ((e.map (·.merge search entry)).getD (.ofEntry entry))) none

theorem collected_concat (entries : List Entry) (entry : Entry) :
    collected search (entries++[entry]) =
      some (((collected search entries).map (·.merge search entry)).getD (.ofEntry entry)) := by
  simp [collected]

theorem matching_concat (entries : List Entry) (entry : Entry) (email : Bytes) :
    matching (entries++[entry]) email =
      matching entries email++(if same entry.oldEmail email then [entry] else []) := by
  by_cases h : same entry.oldEmail email <;> simp [matching,h]

/-- The snapshot finds what the entries for an email leave behind. -/
theorem snapshot_find (h : Consistent emails) (hentries : ∀ e∈entries,e.oldEmail∈emails) :
    Sorted cmpRef oldEmail (Among emails) (Snapshot.merge search [] entries) ∧
    ∀ email∈emails,find cmpRef oldEmail (ofBytes email)
      (Snapshot.merge search [] entries)=collected search (matching entries email) := by
  induction entries using reverseRecOn with
  | nil => exact ⟨⟨by simp [Snapshot.merge],by simp [Snapshot.merge]⟩,fun _ _ => rfl⟩
  | append_singleton entries entry ih =>
    obtain ⟨hsorted,hfind⟩ := ih fun e he => hentries e (by simp [he])
    have hentry := hentries entry (by simp)
    have hmerge : Snapshot.merge search [] (entries++[entry]) =
        upsert search cmpRef oldEmail (ofBytes entry.oldEmail) (.ofEntry entry) (fun e => e.merge search entry)
          (Snapshot.merge search [] entries) := by
      rw [Snapshot.merge,foldl_concat]
      rfl
    rw [hmerge]
    refine ⟨hsorted.upsert search h.orderOn ⟨_,hentry,rfl⟩ _ _ (ofEntry_oldEmail entry)
      (fun e => merge_oldEmail e entry),fun email hemail => ?_⟩
    rw [hsorted.find_upsert search h.orderOn ⟨_,hentry,rfl⟩ _ _ (ofEntry_oldEmail entry)
      (fun e => merge_oldEmail e entry) ⟨_,hemail,rfl⟩,hfind _ hentry,hfind _ hemail,
      matching_concat]
    by_cases hsame : same entry.oldEmail email
    · have hcongr : matching entries entry.oldEmail=matching entries email := filter_congr fun e he => by
        rw [Bool.eq_iff_iff,← cmpRef_eq_iff,← cmpRef_eq_iff,h.orderOn.congr ⟨_,hentry,rfl⟩ ⟨_,hemail,rfl⟩
          ⟨_,hentries e (by simp [he]),rfl⟩ (cmpRef_eq_iff.2 hsame)]
      rw [if_pos (cmpRef_eq_iff.2 hsame),if_pos hsame,collected_concat,hcongr]
    · rw [if_neg (fun heq => hsame (cmpRef_eq_iff.1 heq)),if_neg hsame,append_nil]

/-! The names below it -/

def NameEntry.mapping (e : NameEntry) : Option Bytes × Option Bytes := (e.newName,e.newEmail)

def Entry.mapping (e : Entry) : Option Bytes × Option Bytes := (e.newName,e.newEmail)

def lastNamed (entries : List Entry) (name : Bytes) : Option Entry :=
  (entries.filter fun e => e.oldName.any (same · name)).getLast?

def lastPlain (entries : List Entry) : Option Entry :=
  (entries.filter fun e => e.oldName.isNone).getLast?

/-- An email entry has what its entries say. -/
structure Reflects (names : List Bytes) (entries : List Entry) (e : EmailEntry) : Prop where
  email : entries.head?.map (ofBytes ·.oldEmail) = some e.oldEmail
  newName : e.newName = (lastPlain entries).bind Entry.newName
  newEmail : e.newEmail = (lastPlain entries).bind Entry.newEmail
  sorted : Sorted cmpRef NameEntry.oldName (Among names) e.entriesByOldName
  named : ∀ name ∈ names,(find cmpRef NameEntry.oldName (ofBytes name) e.entriesByOldName).map
    NameEntry.mapping = (lastNamed entries name).map Entry.mapping

theorem lastPlain_concat (entries : List Entry) (entry : Entry) :
    lastPlain (entries++[entry])=if entry.oldName.isNone then some entry else lastPlain entries := by
  by_cases h : entry.oldName.isNone <;> simp [lastPlain,h]

theorem lastNamed_concat (entries : List Entry) (entry : Entry) (name : Bytes) :
    lastNamed (entries++[entry]) name =
      if entry.oldName.any (same · name) then some entry else lastNamed entries name := by
  by_cases h : entry.oldName.any (same · name) <;> simp [lastNamed,h]

def upsertName (search : Search) (entry : Entry) (name : Bytes) (l : List NameEntry) :
    List NameEntry :=
  upsert search cmpRef NameEntry.oldName (ofBytes name) ⟨entry.newName,entry.newEmail,ofBytes name⟩
    (fun n => {n with newName := entry.newName,newEmail := entry.newEmail}) l

theorem merge_of_some (e : EmailEntry) {entry : Entry} (h : entry.oldName=some name) :
    e.merge search entry =
      {e with entriesByOldName := upsertName search entry name e.entriesByOldName} := by
  simp only [EmailEntry.merge,h,upsertName,upsert]
  cases search.run (fun n : NameEntry => n.oldName.cmpRef (ofBytes name)) e.entriesByOldName <;> rfl

theorem reflects_ofEntry (entry : Entry) (hname : ∀ name,entry.oldName=some name → name∈names) :
    Reflects names [entry] (.ofEntry entry) := by
  cases hold : entry.oldName with
  | none =>
    simp only [ofEntry,hold]
    exact ⟨rfl,by simp [lastPlain,hold],by simp [lastPlain,hold],⟨by simp,by simp⟩,
      fun name _ => by simp [find,lastNamed,hold]⟩
  | some old =>
    simp only [ofEntry,hold]
    refine ⟨rfl,by simp [lastPlain,hold],by simp [lastPlain,hold],⟨?_,by simp⟩,fun name _ => ?_⟩
    · rintro a ha
      obtain rfl := mem_singleton.1 ha
      exact ⟨old,hname old hold,rfl⟩
    · by_cases hsame : same old name
      · simp [find,lastNamed,hold,hsame,cmpRef_eq_iff.2 hsame,NameEntry.mapping,Entry.mapping]
      · have hne : (ofBytes old).cmpRef (ofBytes name) ≠ .eq := fun h => hsame (cmpRef_eq_iff.1 h)
        simp [find,lastNamed,hold,hsame,hne]

theorem Reflects.merge (h : Consistent names) {e : EmailEntry} (hreflects : Reflects names entries e)
    (entry : Entry) (hname : ∀ name,entry.oldName=some name → name∈names) :
    Reflects names (entries++[entry]) (e.merge search entry) := by
  have hhead : (entries++[entry]).head?.map (ofBytes ·.oldEmail)=some e.oldEmail := by
    cases entries with
    | nil => simpa using hreflects.email
    | cons first rest => exact hreflects.email
  cases hold : entry.oldName with
  | none =>
    simp only [EmailEntry.merge,hold]
    exact ⟨hhead,by simp [lastPlain_concat,hold],by simp [lastPlain_concat,hold],hreflects.sorted,
      fun name hmem => by simpa [lastNamed_concat,hold] using hreflects.named name hmem⟩
  | some old =>
    have hmem : Among names (ofBytes old) := ⟨old,hname old hold,rfl⟩
    rw [merge_of_some e hold]
    refine ⟨hhead,?_,?_,hreflects.sorted.upsert search h.orderOn hmem _ _ rfl (fun _ => rfl),
      fun name hn => ?_⟩
    · simpa [lastPlain_concat,hold] using hreflects.newName
    · simpa [lastPlain_concat,hold] using hreflects.newEmail
    · have hfind := hreflects.sorted.find_upsert search h.orderOn hmem
        ⟨entry.newName,entry.newEmail,ofBytes old⟩
        (fun n => {n with newName := entry.newName,newEmail := entry.newEmail})
        rfl (fun _ => rfl) ⟨name,hn,rfl⟩
      rw [upsertName,hfind,lastNamed_concat,hold,any_some]
      by_cases hsame : same old name
      · rw [if_pos (cmpRef_eq_iff.2 hsame),if_pos hsame]
        cases find cmpRef NameEntry.oldName (ofBytes old) e.entriesByOldName <;> rfl
      · rw [if_neg (fun heq => hsame (cmpRef_eq_iff.1 heq)),if_neg hsame]
        exact hreflects.named name hn

theorem collected_reflects (h : Consistent names)
    (hnames : ∀ e∈entries,∀ name,e.oldName=some name → name∈names) (hne : entries≠[]) :
    ∃ e,collected search entries=some e ∧ Reflects names entries e := by
  induction entries using reverseRecOn with
  | nil => exact absurd rfl hne
  | append_singleton entries entry ih =>
    have hentry := hnames entry (by simp)
    rw [collected_concat]
    by_cases hnil : entries=[]
    · subst hnil
      exact ⟨_,rfl,reflects_ofEntry entry hentry⟩
    · obtain ⟨e,he,hreflects⟩ := ih (fun e he => hnames e (by simp [he])) hnil
      rw [he]
      exact ⟨_,rfl,hreflects.merge h entry hentry⟩

/-! The signature -/

def resolveIn (search : Search) (signature : SignatureRef) (entry : EmailEntry) :
    Option ResolvedSignature :=
  match search.run (fun e : NameEntry => e.oldName.cmpRef (ofBytes signature.name))
      entry.entriesByOldName with
  | .ok pos =>
    match entry.entriesByOldName[pos]? with
    | none => none
    | some nameEntry =>
      ResolvedSignature.tryNew nameEntry.newEmail entry.oldEmail.asBstr signature.email
        nameEntry.newName
  | .error _ =>
    ResolvedSignature.tryNew entry.newEmail entry.oldEmail.asBstr signature.email entry.newName

theorem tryResolveRef_of_sorted {snapshot : Snapshot}
    (h : Consistent emails) (hsorted : Sorted cmpRef oldEmail (Among emails) snapshot)
    (hemail : signature.email∈emails) :
    tryResolveRef search snapshot signature =
      (find cmpRef oldEmail (ofBytes signature.email) snapshot).bind
        (resolveIn search signature) := by
  unfold tryResolveRef
  obtain ⟨pre,_,post,rfl,hrun,heq,hpre⟩|⟨pre,post,rfl,hrun,hpre,hpost⟩ :=
    hsorted.run_cases search h.orderOn ⟨_,hemail,rfl⟩
  · rw [find_append hpre]
    simp [hrun,find,heq]
    rfl
  · rw [find_append hpre,find_of_gt hpost]
    simp [hrun]

theorem resolveIn_of_sorted {entry : EmailEntry} (h : Consistent names)
    (hsorted : Sorted cmpRef NameEntry.oldName (Among names) entry.entriesByOldName)
    (hname : signature.name∈names) :
    resolveIn search signature entry =
      match (find cmpRef NameEntry.oldName (ofBytes signature.name) entry.entriesByOldName).map
        NameEntry.mapping with
      | some (newName,newEmail) =>
        tryNew newEmail entry.oldEmail.asBstr signature.email newName
      | none =>
        tryNew entry.newEmail entry.oldEmail.asBstr signature.email
          entry.newName := by
  unfold resolveIn
  obtain ⟨pre,_,post,hsplit,hrun,heq,hpre⟩|⟨pre,post,hsplit,hrun,hpre,hpost⟩ :=
    hsorted.run_cases search h.orderOn ⟨_,hname,rfl⟩
  · rw [hrun,hsplit,find_append hpre]
    simp [find,heq,NameEntry.mapping]
  · rw [hrun,hsplit,find_append hpre,find_of_gt hpost]
    simp

/-- The old names that the name of a signature is compared with. -/
def oldNames (entries : List Entry) (email : Bytes) : List Bytes :=
  (matching entries email).filterMap Entry.oldName

theorem foldl_merge (calls : List (List Entry)) :
    calls.foldl (Snapshot.merge search) []=Snapshot.merge search [] calls.flatten := by
  unfold Snapshot.merge
  rw [foldl_flatten]

/-- A signature is resolved by the last matching entry, if the comparison is an order on the emails
and on the names that come into it. -/
theorem tryResolveRef_eq_resolution (search : Search) (calls : List (List Entry))
    (signature : SignatureRef)
    (hemails : Consistent (signature.email :: calls.flatten.map Entry.oldEmail))
    (hnames : Consistent (signature.name :: oldNames calls.flatten signature.email)) :
    tryResolveRef search (calls.foldl (Snapshot.merge search) []) signature =
      resolution calls.flatten signature := by
  obtain ⟨hsorted,hfind⟩ := @snapshot_find search _ calls.flatten hemails
    fun e he => mem_cons_of_mem _ (mem_map_of_mem he)
  rw [foldl_merge,tryResolveRef_of_sorted hemails hsorted mem_cons_self,
    hfind _ mem_cons_self]
  unfold resolution
  cases hmatching : matching calls.flatten signature.email with
  | nil => rfl
  | cons first rest =>
    have hold : ∀ e∈first::rest,∀ name,e.oldName=some name →
        name∈signature.name::oldNames calls.flatten signature.email := by
      intro e he name hname
      refine mem_cons_of_mem _ (mem_filterMap.2 ⟨e,?_,hname⟩)
      rwa [hmatching]
    obtain ⟨e,he,hreflects⟩ := @collected_reflects search _ _ hnames hold (by simp)
    rw [he,bind_some,resolveIn_of_sorted hnames hreflects.sorted mem_cons_self,
      hreflects.named _ mem_cons_self]
    have hemail : e.oldEmail.asBstr=first.oldEmail := by
      have := hreflects.email
      simp only [head?_cons,map_some,some.injEq] at this
      rw [← this,asBstr_ofBytes]
    have hused : used (first::rest) signature.name =
        (lastNamed (first::rest) signature.name).or (lastPlain (first::rest)) := rfl
    cases hlast : lastNamed (first::rest) signature.name with
    | some entry =>
      simp only [hused,hlast,some_or,map_some,Entry.mapping,bind_some,
        tryNew,hemail]
    | none =>
      simp only [hused,hlast,none_or,map_none,hreflects.newName,hreflects.newEmail,
        tryNew,hemail]

def sampleEntry (oldEmail : Bytes) : Entry := ⟨some [120],none,none,oldEmail,.inl rfl⟩

/-- `a` and `B` -/
theorem tryResolveRef_sample :
    tryResolveRef .bisection ([[sampleEntry [97]],[sampleEntry [66]]].foldl
      (Snapshot.merge .bisection) []) ⟨[],[65]⟩ = some ⟨some [120],some [97]⟩ := by
  rw [tryResolveRef_eq_resolution]
  · decide
  · refine consistent_of_utf8 fun v hv => ?_
    have hv : v=[65] ∨ v=[97] ∨ v=[66] := by simpa [sampleEntry] using hv
    rcases hv with rfl|rfl|rfl <;> exact ⟨_,rfl⟩
  · refine consistent_of_utf8 fun v hv => ?_
    have hnone : oldNames [sampleEntry [97],sampleEntry [66]] [65]=[] := by decide
    obtain rfl : v=[] := by simpa [hnone] using hv
    exact ⟨_,rfl⟩

/-- With `a`, `B` and `c` there is one email that is no valid UTF-8, and `a` is not found again. -/
theorem mixed_encodings_not_found :
    tryResolveRef .bisection (Snapshot.merge .bisection [] [sampleEntry [97],sampleEntry [66],
      sampleEntry [99],sampleEntry [67,255]]) ⟨[],[97]⟩ = none ∧
    resolution [sampleEntry [97],sampleEntry [66],sampleEntry [99],sampleEntry [67,255]] ⟨[],[97]⟩ =
      some ⟨some [120],none⟩ := by
  constructor <;> decide

end Gix.Mailmap
