import Gix.SortedTable

/-! # Mailmap snapshots

`gix-mailmap/src/snapshot/`: entries are kept by their old email, and below it by their old name, both
in the order of a comparison that folds case only between valid UTF-8 strings. -/
namespace Gix.Mailmap
open SortedTable

abbrev Bytes := List UInt8

inductive EncodedString
  | utf8 (v : String)
  | unknown (v : Bytes)

def EncodedString.ofBytes (v : Bytes) : EncodedString :=
  match String.fromUTF8? (.mk v.toArray) with
  | some s => .utf8 s
  | none => .unknown v

def EncodedString.asBstr : EncodedString → Bytes
  | .utf8 v => v.toByteArray.data.toList
  | .unknown v => v

def EncodedString.cmpRef : EncodedString → EncodedString → Ordering
  | .utf8 a,.utf8 b => compare (a.toList.map Char.toLower) (b.toList.map Char.toLower)
  | a,b => compare a.asBstr b.asBstr

/-- An entry maps to a name or an email; there are no others. -/
structure Entry where
  newName : Option Bytes
  newEmail : Option Bytes
  oldName : Option Bytes
  oldEmail : Bytes
  mapped : newName.isSome ∨ newEmail.isSome

structure NameEntry where
  newName : Option Bytes
  newEmail : Option Bytes
  oldName : EncodedString

structure EmailEntry where
  newName : Option Bytes
  newEmail : Option Bytes
  oldEmail : EncodedString
  entriesByOldName : List NameEntry

abbrev Snapshot := List EmailEntry

variable (search : Search) {keys : List Bytes}

def EmailEntry.merge (e : EmailEntry) (entry : Entry) : EmailEntry :=
  match entry.oldName with
  | none => {e with newEmail := entry.newEmail,newName := entry.newName}
  | some oldName =>
    let oldName := EncodedString.ofBytes oldName
    match search.run (fun n : NameEntry => n.oldName.cmpRef oldName) e.entriesByOldName with
    | .ok pos =>
      {e with entriesByOldName := e.entriesByOldName.modify pos fun n =>
        {n with newName := entry.newName,newEmail := entry.newEmail}}
    | .error pos =>
      let nameEntry : NameEntry := ⟨entry.newName,entry.newEmail,oldName⟩
      {e with entriesByOldName := e.entriesByOldName.insertIdx pos nameEntry}

/-- `From < Entry> for EmailEntry` -/
def EmailEntry.ofEntry (entry : Entry) : EmailEntry :=
  match entry.oldName with
  | none => ⟨entry.newName,entry.newEmail,.ofBytes entry.oldEmail,[]⟩
  | some name =>
    ⟨none,none,.ofBytes entry.oldEmail,[⟨entry.newName,entry.newEmail,.ofBytes name⟩]⟩

def mergeEntry (snapshot : Snapshot) (entry : Entry) : Snapshot :=
  let oldEmail := EncodedString.ofBytes entry.oldEmail
  match search.run (fun e : EmailEntry => e.oldEmail.cmpRef oldEmail) snapshot with
  | .ok pos => snapshot.modify pos fun e => e.merge search entry
  | .error pos => snapshot.insertIdx pos (.ofEntry entry)

def Snapshot.merge (snapshot : Snapshot) (entries : List Entry) : Snapshot :=
  entries.foldl (mergeEntry search) snapshot

structure SignatureRef where
  name : Bytes
  email : Bytes

structure ResolvedSignature where
  name : Option Bytes
  email : Option Bytes
deriving DecidableEq

def ResolvedSignature.tryNew (newEmail : Option Bytes) (matchedEmail currentEmail : Bytes)
    (newName : Option Bytes) : Option ResolvedSignature :=
  let newEmail := newEmail.or (if matchedEmail ≠ currentEmail then some matchedEmail else none)
  match newEmail,newName with
  | none,none => none
  | newEmail,newName => some ⟨newName,newEmail⟩

def tryResolveRef (snapshot : Snapshot) (signature : SignatureRef) : Option ResolvedSignature :=
  let email := EncodedString.ofBytes signature.email
  match search.run (fun e : EmailEntry => e.oldEmail.cmpRef email) snapshot with
  | .error _ => none
  | .ok pos =>
    match snapshot[pos]? with
    | none => none
    | some entry =>
      let name := EncodedString.ofBytes signature.name
      match search.run (fun e : NameEntry => e.oldName.cmpRef name) entry.entriesByOldName with
      | .ok pos =>
        match entry.entriesByOldName[pos]? with
        | none => none
        | some nameEntry =>
          ResolvedSignature.tryNew nameEntry.newEmail entry.oldEmail.asBstr signature.email nameEntry.newName
      | .error _ =>
        ResolvedSignature.tryNew entry.newEmail entry.oldEmail.asBstr signature.email entry.newName

/-! What a signature is resolved to -/

/-- Equal up to the case of ASCII letters if both are valid UTF-8. -/
def same (a b : Bytes) : Bool :=
  match EncodedString.ofBytes a,EncodedString.ofBytes b with
  | .utf8 a,.utf8 b => a.toList.map Char.toLower = b.toList.map Char.toLower
  | _,_ => a = b

def matching (entries : List Entry) (email : Bytes) : List Entry :=
  entries.filter fun e => same e.oldEmail email

/-- The last of them for the name, or else the last without an old name. -/
def used (entries : List Entry) (name : Bytes) : Option Entry :=
  (entries.filter fun e => e.oldName.any (same · name)).getLast?.or
    (entries.filter fun e => e.oldName.isNone).getLast?

def resolution (entries : List Entry) (signature : SignatureRef) : Option ResolvedSignature :=
  match matching entries signature.email with
  | [] => none
  | first :: rest =>
    let entry := used (first :: rest) signature.name
    let spelling := if first.oldEmail ≠ signature.email then some first.oldEmail else none
    match (entry.bind Entry.newEmail).or spelling,entry.bind Entry.newName with
    | none,none => none
    | newEmail,newName => some ⟨newName,newEmail⟩

/-! The comparison -/

namespace EncodedString

theorem asBstr_ofBytes (v : Bytes) : (ofBytes v).asBstr=v := by
  unfold ofBytes String.fromUTF8?
  split
  · rename_i s hs
    split at hs
    · cases hs
      rfl
    · cases hs
  · rfl

theorem cmpRef_eq_iff {a b : Bytes} : (ofBytes a).cmpRef (ofBytes b) = .eq ↔ same a b=true := by
  have ha := asBstr_ofBytes a
  have hb := asBstr_ofBytes b
  unfold same
  cases hea : ofBytes a with
  | utf8 s =>
    cases heb : ofBytes b with
    | utf8 t => simp [cmpRef]
    | unknown t =>
      rw [hea] at ha
      rw [heb] at hb
      simp [cmpRef,ha,hb]
  | unknown s =>
    rw [hea] at ha
    cases heb : ofBytes b with
    | utf8 t =>
      rw [heb] at hb
      simp [cmpRef,ha,hb]
    | unknown t =>
      rw [heb] at hb
      simp [cmpRef,ha,hb]

end EncodedString

/-- The comparison is transitive on these strings. -/
def Consistent (keys : List Bytes) : Prop :=
  ∀ a ∈ keys,∀ b ∈ keys,∀ d ∈ keys,
    (EncodedString.ofBytes a).cmpRef (.ofBytes b) ≠ .gt →
    (EncodedString.ofBytes b).cmpRef (.ofBytes d) ≠ .gt →
    (EncodedString.ofBytes a).cmpRef (.ofBytes d) ≠ .gt

def Among (keys : List Bytes) (e : EncodedString) : Prop := ∃ v ∈ keys,e = .ofBytes v

open EncodedString

theorem Consistent.orderOn (h : Consistent keys) :
    OrderOn cmpRef (Among keys) where
  swap a b := by cases a <;> cases b <;> simp only [cmpRef] <;> exact Std.OrientedCmp.eq_swap
  trans := by
    rintro _ _ _ ⟨a,ha,rfl⟩ ⟨b,hb,rfl⟩ ⟨d,hd,rfl⟩
    exact h a ha b hb d hd

/-- Strings that are all valid UTF-8 are in order. -/
theorem consistent_of_utf8
    (h : ∀ v∈keys,∃ s,ofBytes v = .utf8 s) : Consistent keys := by
  intro a ha b hb d hd
  obtain ⟨s,hs⟩ := h a ha
  obtain ⟨_,ht⟩ := h b hb
  obtain ⟨_,hu⟩ := h d hd
  simp only [hs,ht,hu,cmpRef,← Ordering.isLE_iff_ne_gt]
  exact Std.TransCmp.isLE_trans

end Gix.Mailmap
