import Gix.ByteCodec
import Gix.PackEntry
import Gix.TreeEntry

/-! # Tree objects

`gix-object/src/tree/`: how trees are written, and read by `TreeRef::from_bytes()` and by
`TreeRefIter`. -/
namespace Gix.Tree
open Gix.Pack ByteCodec List Option EntryMode

abbrev ObjectEntry := Entry ObjectId

/-! Writing -/

/-- The loop of `as_bytes()` over its buffer, of which `room` bytes are left; digits in the
order they are found. -/
def octalLoop : ℕ → UInt16 → Option (List UInt8)
  | 0, n => if n > 0 then none else some []
  | room+1, n =>
    if n > 0 then (octalLoop room (n/8)).map (fun digits => (48+(n % 8).toUInt8) :: digits) else some []

def EntryMode.asBytes (m : EntryMode) : Option (List UInt8) :=
  if m.value = 0 then some [48] else (octalLoop 6 m.value).map List.reverse

/-- `tree::write::Error` -/
inductive WriteError
  | nullbyteInFilename (name : BString)
deriving DecidableEq,Repr

def writeEntries : List ObjectEntry → Option (Except WriteError (List UInt8))
  | [] => some (.ok [])
  | e :: es => e.mode.asBytes.bind (fun mode =>
      if 0 ∈ e.filename then some (.error (.nullbyteInFilename e.filename))
      else (writeEntries es).map (fun rest => rest.map (fun rest =>
        mode++[32]++e.filename++[0]++e.oid.toList++rest)))

/-- `write_to()` of `Tree` and `TreeRef`, with the assertion of debug builds. -/
def writeTo (entries : List ObjectEntry) : Option (Except WriteError (List UInt8)) :=
  if entries = entries.mergeSort (fun a b => (a.cmp b).isLE) then writeEntries entries else none

def size (entries : List ObjectEntry) : Option ℕ :=
  (entries.mapM (fun e : ObjectEntry => e.mode.asBytes.map (fun mode => mode.length+1+e.filename.length+1+e.oid.toList.length))).map List.sum

/-! Reading -/

/-- The loop of `mode_from_decimal()`, with the mode so far. -/
def modeLoop : UInt32 → List UInt8 → Option UInt32
  | mode, [] => some mode
  | mode, b :: digits => if b < 48 ∨ 55 < b then none else modeLoop ((mode <<< 3)+(b-48).toUInt32) digits

def modeFromDecimal (i : List UInt8) : Option (UInt32 × List UInt8) :=
  let digits := i.takeWhile (· ≠ 32)
  (modeLoop 0 digits).bind (fun mode =>
    if i.length < digits.length+1 then none else some (mode,i.drop (digits.length+1)))

/-- `EntryMode::try_from(u32)` -/
def EntryMode.tryFrom (mode : UInt32) : Option EntryMode :=
  if mode = 0o040000 ∨ mode = 0o120000 ∨ mode = 0o160000 then some ⟨mode.toUInt16⟩
  else if mode &&& 0o100000 = 0o100000 then some ⟨mode.toUInt16⟩
  else none

def fastEntry (i : List UInt8) : Option (ObjectEntry × List UInt8) := do
  let (mode,i) ← modeFromDecimal i
  let mode ← EntryMode.tryFrom mode
  let (filename,i) ← cut 0 i
  if i.length < 20 then none
  else do
    let oid ← ObjectId.fromBytes (i.take 20)
    some (⟨mode,filename,oid⟩,i.drop 20)

/-- `TreeRef::from_bytes()`, where each round takes bytes off. -/
def fromBytes (data : List UInt8) : Option (List ObjectEntry) := readAll fastEntry data.length data

def next (data : List UInt8) : Option (Except Unit ObjectEntry × List UInt8) :=
  if data.isEmpty then none else match fastEntry data with
    | some (entry,rest) => some (.ok entry,rest)
    | none => some (.error (),[])

/-- `TreeRefIter::entries()`, which stops at the first error. -/
def entries : ℕ → List UInt8 → Option (Except Unit (List ObjectEntry))
  | 0, _ => none
  | fuel+1, data => match next data with
    | none => some (.ok [])
    | some (.error e,_) => some (.error e)
    | some (.ok entry,rest) => (entries fuel rest).map (fun es => es.map (fun es => entry :: es))

/-! Modes -/

theorem octalLoop_eq (room : ℕ) (n : UInt16) (h : n.toNat < 8^room) :
    octalLoop room n=some ((Nat.digits 8 n.toNat).map (fun d => UInt8.ofNat (48+d))) := by
  induction room generalizing n with
  | zero =>
    have hn : n.toNat=0 := by omega
    have hpos : ¬n > 0 := by
      rw [gt_iff_lt,UInt16.lt_iff_toNat_lt,hn]
      simp
    rw [octalLoop,if_neg hpos,hn]
    rfl
  | succ room ih =>
    rw [octalLoop]
    by_cases hpos : n > 0
    · have hn : 0 < n.toNat := by simpa [UInt16.lt_iff_toNat_lt] using hpos
      have hdiv : (n/8).toNat=n.toNat/8 := by simp
      have hlt : (n/8).toNat < 8^room := by
        rw [hdiv,Nat.div_lt_iff_lt_mul (by decide)]
        rwa [Nat.pow_succ] at h
      rw [if_pos hpos,ih _ hlt,Nat.digits_eq_cons_digits_div (by decide) hn.ne',map_some]
      congr 2
      apply UInt8.toNat_inj.mp
      simp
    · have hn : n.toNat=0 := by
        have : ¬0 < n.toNat := by simpa [UInt16.lt_iff_toNat_lt] using hpos
        omega
      rw [if_neg hpos,hn]
      rfl

variable {m : EntryMode} {mode : UInt32} {i rest : List UInt8} {digits : List UInt8}

theorem asBytes_eq (h : m.value≠0) : m.asBytes=some (numeral 8 m.value.toNat) := by
  have hlt : m.value.toNat < 8^6 := Nat.lt_trans m.value.toNat_lt (by decide)
  rw [asBytes,if_neg h,octalLoop_eq 6 _ hlt]
  rfl

theorem modeLoop_eq (h : ∀ d∈digits,IsDigit 8 d) (v : ℕ) :
    modeLoop (UInt32.ofNat v) digits=some (UInt32.ofNat (digits.foldl (fun v d => v*8+(d.toNat-48)) v)) := by
  induction digits generalizing v with
  | nil => rfl
  | cons d digits ih =>
    have hd := h d mem_cons_self
    rw [IsDigit] at hd
    have hrange : ¬(d < 48 ∨ 55 < d) := by
      rw [UInt8.lt_iff_toNat_lt,UInt8.lt_iff_toNat_lt]
      simp
      omega
    have hnext : (UInt32.ofNat v <<< 3)+(d-48).toUInt32=UInt32.ofNat (v*8+(d.toNat-48)) := by
      have hsub : (d-48).toNat=d.toNat-48 := UInt8.toNat_sub_of_le _ _ (UInt8.le_iff_toNat_le.mpr hd.1)
      have hshift : (UInt32.ofNat v <<< 3).toNat=v*8 % 2^32 := by simp [Nat.shiftLeft_eq]
      apply UInt32.toNat_inj.mp
      rw [UInt32.toNat_add,UInt8.toNat_toUInt32,hsub,hshift,UInt32.toNat_ofNat',Nat.mod_add_mod]
    rw [modeLoop,if_neg hrange,hnext]
    exact ih (fun d' hd' => h d' (mem_cons_of_mem _ hd')) _

theorem modeLoop_digits {mode' : UInt32} (h : modeLoop mode digits=some mode') :
    ∀ d∈digits,IsDigit 8 d := by
  induction digits generalizing mode with
  | nil => simp
  | cons d digits ih =>
    rw [modeLoop] at h
    split at h
    · simp at h
    · rename_i hrange
      intro d' hd'
      rcases mem_cons.mp hd' with rfl | hd'
      · rw [UInt8.lt_iff_toNat_lt,UInt8.lt_iff_toNat_lt] at hrange
        simp at hrange
        rw [IsDigit]
        omega
      · exact ih h d' hd'

theorem modeFromDecimal_eq (i : List UInt8) :
    modeFromDecimal i=(cut 32 i).bind (fun r => (modeLoop 0 r.1).map (fun mode => (mode,r.2))) := by
  unfold modeFromDecimal
  cases hcut : cut 32 i with
  | none =>
    have hall : i.takeWhile (· ≠ 32)=i := by
      have hsplit := takeWhile_append_dropWhile (p := (· ≠ 32)) (l := i)
      unfold cut at hcut
      split at hcut
      · rename_i hdrop
        rwa [hdrop,append_nil] at hsplit
      · simp at hcut
    rw [hall]
    cases modeLoop 0 i <;> simp
  | some r =>
    obtain ⟨digits,rest⟩ := r
    obtain ⟨rfl,hspace⟩ := cut_eq_some.mp hcut
    have htake : (digits++32::rest).takeWhile (· ≠ 32)=digits := by
      rw [takeWhile_append_of_pos fun d hd => by simpa using ne_of_mem_of_not_mem hd hspace]
      simp
    have hdrop : (digits++32::rest).drop (digits.length+1)=rest := by simp
    have hlen : ¬(digits++32::rest).length < digits.length+1 := by simp
    simp only [htake,hdrop,if_neg hlen,bind_some]
    cases modeLoop 0 digits <;> rfl

theorem modeFromDecimal_eq_some : modeFromDecimal i=some (mode,rest) ↔
    ∃ digits,i=digits++32::rest ∧ (∀ d∈digits,IsDigit 8 d) ∧ mode=UInt32.ofNat (numeralValue 8 digits) := by
  rw [modeFromDecimal_eq]
  constructor
  · intro h
    obtain ⟨⟨digits,_⟩,hcut,hmode⟩ := bind_eq_some_iff.mp h
    obtain ⟨_,hloop,heq⟩ := map_eq_some_iff.mp hmode
    cases heq
    have hdigits := modeLoop_digits hloop
    exact ⟨digits,(cut_eq_some.mp hcut).1,hdigits,some.inj (hloop.symm.trans (modeLoop_eq hdigits 0))⟩
  · rintro ⟨digits,rfl,hdigits,rfl⟩
    have hspace : 32∉digits := by
      intro hmem
      have := hdigits 32 hmem
      simp [IsDigit] at this
    have hmode : modeLoop 0 digits=some (UInt32.ofNat (numeralValue 8 digits)) := modeLoop_eq hdigits 0
    rw [cut_append hspace,bind_some,hmode,map_some]

/-- The modes that can be read. -/
def WritableMode (m : EntryMode) : Prop := m.value = 0o040000 ∨ m.value &&& 0o100000 = 0o100000

theorem tryFrom_writable (h : WritableMode m) : tryFrom (UInt32.ofNat m.value.toNat)=some m := by
  have hback : (⟨(UInt32.ofNat m.value.toNat).toUInt16⟩ : EntryMode)=m := by
    have : (UInt32.ofNat m.value.toNat).toUInt16=m.value := by
      simp
    rw [this]
  unfold tryFrom
  rcases h with h | h
  · rw [hback,h]
    rfl
  · have hbit : UInt32.ofNat m.value.toNat &&& 0o100000=0o100000 := by
      apply UInt32.toNat_inj.mp
      have hnat := congrArg UInt16.toNat h
      simpa using hnat
    rw [hback]
    split <;> rfl

theorem tryFrom_value (h : tryFrom mode=some m) : m.value=mode.toUInt16 ∧ mode≠0 := by
  unfold tryFrom at h
  split at h
  · rename_i hmode
    cases h
    refine ⟨rfl,?_⟩
    rintro rfl
    revert hmode
    decide
  · split at h
    · rename_i hmode
      cases h
      refine ⟨rfl,?_⟩
      rintro rfl
      revert hmode
      decide
    · simp at h

/-! Entries -/

def entryBytes (e : ObjectEntry) : List UInt8 := numeral 8 e.mode.value.toNat++32 :: (e.filename++0 :: e.oid.toList)

theorem fastEntry_eq_some {e : ObjectEntry} : fastEntry i=some (e,rest) ↔
    ∃ digits,i=digits++32::(e.filename++0::(e.oid.toList++rest)) ∧ (∀ d∈digits,IsDigit 8 d) ∧
      tryFrom (UInt32.ofNat (numeralValue 8 digits))=some e.mode ∧ 0∉e.filename := by
  constructor
  · intro h
    obtain ⟨⟨mode,_⟩,hmode,h1⟩ := bind_eq_some_iff.mp h
    obtain ⟨digits,rfl,hdigits,rfl⟩ := modeFromDecimal_eq_some.mp hmode
    obtain ⟨_,hm,h2⟩ := bind_eq_some_iff.mp h1
    obtain ⟨⟨filename,_⟩,hcut,h3⟩ := bind_eq_some_iff.mp h2
    obtain ⟨rfl,hname⟩ := cut_eq_some.mp hcut
    dsimp only at h3
    split at h3
    · simp at h3
    · obtain ⟨oid,hoid,h4⟩ := bind_eq_some_iff.mp h3
      cases h4
      refine ⟨digits,?_,hdigits,hm,hname⟩
      rw [ObjectId.toList_fromBytes hoid,take_append_drop]
  · rintro ⟨digits,rfl,hdigits,hmode,hname⟩
    have hread : ∀ tail,modeFromDecimal (digits++32::tail)=some (UInt32.ofNat (numeralValue 8 digits),tail) := by
      intro tail
      exact modeFromDecimal_eq_some.mpr ⟨digits,rfl,hdigits,rfl⟩
    have hlen : ¬(e.oid.toList++rest).length < 20 := by simp
    have htake : (e.oid.toList++rest).take 20=e.oid.toList := take_left' (by simp)
    have hdrop : (e.oid.toList++rest).drop 20=rest := drop_left' (by simp)
    simp only [fastEntry,hread _,hmode,cut_append hname,if_neg hlen,htake,hdrop,ObjectId.fromBytes_toList,bind_eq_bind,
      bind_some]

variable {e : ObjectEntry} {es : List ObjectEntry}

theorem value_ne_zero (h : WritableMode e.mode) : e.mode.value≠0 := by
  intro hzero
  unfold WritableMode at h
  rw [hzero] at h
  revert h
  decide

theorem writeEntries_eq (h : ∀ e∈es,e.mode.value≠0 ∧ 0∉e.filename) :
    writeEntries es=some (.ok (es.flatMap entryBytes)) := by
  induction es with
  | nil => rfl
  | cons e es ih =>
    obtain ⟨hmode,hname⟩ := h e mem_cons_self
    rw [writeEntries,asBytes_eq hmode,bind_some,if_neg hname,ih fun e he => h e (mem_cons_of_mem _ he)]
    simp [entryBytes,Except.map]

theorem size_eq (h : ∀ e∈es,e.mode.value≠0) : size es=some (es.flatMap entryBytes).length := by
  have hmap : es.mapM (fun e : ObjectEntry => e.mode.asBytes.map
      (fun mode => mode.length+1+e.filename.length+1+e.oid.toList.length))=some (es.map (fun e => (entryBytes e).length)) := by
    induction es with
    | nil => rfl
    | cons e es ih =>
      rw [mapM_cons,asBytes_eq (h e mem_cons_self),ih fun e he => h e (mem_cons_of_mem _ he)]
      simp [entryBytes]
      omega
  rw [size,hmap,map_some,length_flatMap]

/-- Entries in the order of git. -/
def InOrder (es : List ObjectEntry) : Prop := es.Pairwise (fun a b => (a.cmp b).isLE = true)

theorem writeTo_eq (hsorted : InOrder es) (h : ∀ e∈es,e.mode.value≠0 ∧ 0∉e.filename) :
    writeTo es=some (.ok (es.flatMap entryBytes)) := by
  rw [writeTo,if_pos (mergeSort_of_pairwise hsorted).symm,writeEntries_eq h]

/-- The iterator gives the entries that the parser gives. -/
theorem entries_eq {data : List UInt8} (h : fromBytes data=some es) {fuel : ℕ} (hfuel : data.length < fuel) :
    entries fuel data=some (.ok es) := by
  suffices hread : ∀ k,readAll fastEntry k data=some es → k < fuel → entries fuel data=some (.ok es) from
    hread _ h hfuel
  clear h hfuel
  intro k h hfuel
  induction fuel generalizing k data es with
  | zero => omega
  | succ fuel ih =>
    cases data with
    | nil =>
      simp only [readAll,some.injEq] at h
      subst h
      rfl
    | cons b data =>
      cases k with
      | zero => simp [readAll] at h
      | succ k =>
        obtain ⟨⟨e,rest⟩,hentry,hrest⟩ := bind_eq_some_iff.mp h
        obtain ⟨es,hes,rfl⟩ := map_eq_some_iff.mp hrest
        have hnext : next (b::data)=some (.ok e,rest) := by
          rw [next,hentry]
          rfl
        rw [entries,hnext]
        dsimp only
        rw [ih k hes (by omega)]
        rfl

/-- The mode in front is plain: it has no leading zero and fits 16 bits. -/
def PlainMode (i : List UInt8) : Prop :=
  ∀ digits rest, cut 32 i = some (digits,rest) → digits.head? ≠ some 48 ∧ numeralValue 8 digits < 2^16

theorem entryBytes_fastEntry (hplain : PlainMode i) (h : fastEntry i=some (e,rest)) :
    i=entryBytes e++rest ∧ e.mode.value≠0 ∧ 0∉e.filename := by
  obtain ⟨digits,rfl,hdigits,hmode,hname⟩ := fastEntry_eq_some.mp h
  have hspace : 32∉digits := by
    intro hmem
    have := hdigits 32 hmem
    simp [IsDigit] at this
  obtain ⟨hhead,_⟩ := hplain digits _ (cut_append hspace _)
  obtain ⟨hmode',hne⟩ := tryFrom_value hmode
  have hvalue : e.mode.value.toNat=numeralValue 8 digits := by
    rw [hmode',UInt32.toNat_toUInt16,UInt32.toNat_ofNat']
    omega
  refine ⟨?_,?_,hname⟩
  · rw [entryBytes,hvalue,numeral_numeralValue (by decide) hdigits hhead]
    simp
  · intro hzero
    rw [hzero] at hvalue
    rw [← hvalue] at hne
    exact hne rfl

/-- Trees are read as they were written, and written as they were read. -/
theorem tree_round_trip :
    (∀ es : List ObjectEntry, InOrder es → (∀ e ∈ es, WritableMode e.mode ∧ 0 ∉ e.filename) → ∃ data,
      writeTo es = some (.ok data) ∧ size es = some data.length ∧ fromBytes data = some es ∧
      ∀ fuel > data.length, entries fuel data = some (.ok es)) ∧
    ∀ (data : List UInt8) (es : List ObjectEntry), fromBytes data = some es → EachRead fastEntry PlainMode data.length data →
      InOrder es → writeTo es = some (.ok data) := by
  constructor
  · intro es hsorted hvalid
    have hwrite : ∀ e∈es, e.mode.value≠0 ∧ 0∉e.filename := fun e he => ⟨value_ne_zero (hvalid e he).1,(hvalid e he).2⟩
    have hread : fromBytes (es.flatMap entryBytes)=some es := by
      refine readAll_write es (fun e he rest => ?_) (fun e _ => ?_) le_rfl
      · refine fastEntry_eq_some.mpr ⟨numeral 8 e.mode.value.toNat,by simp [entryBytes],
          numeral_digits (by decide) (by decide) _,?_,(hvalid e he).2⟩
        rw [numeralValue_numeral (by decide) (by decide)]
        exact tryFrom_writable (hvalid e he).1
      · simp [entryBytes]
    exact ⟨_,writeTo_eq hsorted hwrite,size_eq fun e he => (hwrite e he).1,hread,fun fuel hfuel => entries_eq hread hfuel⟩
  · intro data es hread hplain hsorted
    obtain ⟨hdata,hvalid⟩ := write_readAll (fun i e rest => entryBytes_fastEntry) hplain hread
    rw [writeTo_eq hsorted hvalid,hdata]

/-- `120000 a` and an id of zeros -/
def linkBytes : List UInt8 := [49,50,48,48,48,48,32,97,0]++replicate 20 0

def linkAndTree : List ObjectEntry := [⟨⟨0o120000⟩,[97],Vector.replicate 20 0⟩,⟨⟨0o040000⟩,[97],Vector.replicate 20 32⟩]

theorem tree_round_trip_link :
    (∃ data, writeTo linkAndTree = some (.ok data) ∧ data.length = 57 ∧ fromBytes data = some linkAndTree) ∧
    writeTo [⟨⟨0o120000⟩,[97],Vector.replicate 20 0⟩] = some (.ok linkBytes) := by
  constructor
  · obtain ⟨data,hwrite,hsize,hread,-⟩ := tree_round_trip.1 linkAndTree (by unfold InOrder; decide)
      (by unfold WritableMode; decide)
    exact ⟨data,hwrite,(some.inj hsize).symm,hread⟩
  · refine tree_round_trip.2 linkBytes _ (by decide +kernel) ⟨fun digits rest hcut => ?_,fun r hr => ?_⟩ (by unfold InOrder; decide)
    · have hmode : cut 32 linkBytes=some ([49,50,48,48,48,48],[97,0]++replicate 20 0) := by decide +kernel
      cases hmode.symm.trans hcut
      decide
    · have hentry : fastEntry linkBytes=some (⟨⟨0o120000⟩,[97],Vector.replicate 20 0⟩,[]) := by decide +kernel
      cases hentry.symm.trans hr
      trivial

end Gix.Tree
