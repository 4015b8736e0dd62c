import Gix.PackIndex

/-! # What is written to a pack index is read again

The tables are where the reader looks for them, and each offset comes back through the table that
has it. -/
namespace Gix.Pack.Index
open Gix.ByteCodec Gix.FixedTable List Version

/-! Offsets -/

section Offsets
variable {k : ℕ} {entries : List TreeEntry} {offsets64 : List UInt64}

theorem highBit_toNat : highBit.toNat=2^31 := rfl

theorem large_toNat (hk : k < 2^31) : (UInt32.ofNat k ||| highBit).toNat=k ||| 2^31 := by
  rw [UInt32.toNat_or,highBit_toNat,UInt32.toNat_ofNat',Nat.mod_eq_of_lt (by omega)]

theorem large_and (hk : k < 2^31) : (UInt32.ofNat k ||| highBit) &&& highBit=highBit := by
  apply UInt32.toNat_inj.mp
  rw [UInt32.toNat_and,large_toNat hk,highBit_toNat]
  apply Nat.eq_of_testBit_eq
  intro i
  rw [Nat.testBit_and,Nat.testBit_or]
  cases Nat.testBit (2^31) i <;> simp

theorem large_xor (hk : k < 2^31) : ((UInt32.ofNat k ||| highBit) ^^^ highBit).toNat=k := by
  rw [UInt32.toNat_xor,large_toNat hk,highBit_toNat]
  apply Nat.eq_of_testBit_eq
  intro i
  rw [Nat.testBit_xor,Nat.testBit_or,Nat.testBit_two_pow]
  by_cases hi : 31=i
  · subst hi
    rw [Nat.testBit_lt_two_pow hk]
    rfl
  · simp [hi]

theorem small_and {v : UInt32} (hv : v.toNat < 2^31) : v &&& highBit≠highBit := by
  intro heq
  have hbit := congrArg (fun v => v.toNat.testBit 31) heq
  simp only [UInt32.toNat_and,Nat.testBit_and,Nat.testBit_lt_two_pow hv] at hbit
  exact Bool.false_ne_true hbit

def decodeOffset (offsets64 : List UInt64) (ofs32 : UInt32) : Option UInt64 :=
  if ofs32 &&& highBit = highBit then offsets64[(ofs32 ^^^ highBit).toNat]? else some ofs32.toUInt64

def largeOffsets (entries : List TreeEntry) : List UInt64 := (entries.filter TreeEntry.isLarge).map TreeEntry.offset

theorem decodeOffset_small {v : UInt64} (hv : ¬largeOffsetThreshold < v.toNat) (offsets64 : List UInt64) :
    decodeOffset offsets64 v.toUInt32=some v := by
  rw [largeOffsetThreshold] at hv
  have hnat : v.toUInt32.toNat=v.toNat := by
    rw [UInt64.toNat_toUInt32,Nat.mod_eq_of_lt (by omega)]
  rw [decodeOffset,if_neg (small_and (by omega))]
  congr 1
  apply UInt64.toNat_inj.mp
  rw [UInt32.toNat_toUInt64,hnat]

theorem decodeOffset_large {pre post : List UInt64} (hpre : pre.length < 2^31) (v : UInt64) :
    decodeOffset (pre++v::post) (UInt32.ofNat pre.length ||| highBit)=some v := by
  rw [decodeOffset,if_pos (large_and hpre),large_xor hpre]
  simp

/-- Offsets are written, and each can be found again, if there are not too many large ones. -/
theorem writeOffsets_spec
    (hfew : offsets64.length+entries.countP TreeEntry.isLarge ≤ largeOffsetThreshold) :
    ∃ offsets,writeOffsets entries offsets64=some (offsets,offsets64++largeOffsets entries) ∧ offsets.length=entries.length ∧
      ∀ p∈entries.zip offsets,decodeOffset (offsets64++largeOffsets entries) p.2=some p.1.offset := by
  induction entries generalizing offsets64 with
  | nil => exact ⟨[],by simp [writeOffsets,largeOffsets],rfl,by simp⟩
  | cons e entries ih =>
    cases hlarge : e.isLarge with
    | true =>
      rw [countP_cons_of_pos hlarge] at hfew
      have hall : offsets64++largeOffsets (e::entries)=(offsets64++[e.offset])++largeOffsets entries := by
        simp [largeOffsets,hlarge]
      have hlen : (offsets64++[e.offset]).length=offsets64.length+1 := by simp
      obtain ⟨offsets,hrun,hcount,hdecode⟩ := ih (show (offsets64++[e.offset]).length+_ ≤ _ by omega)
      refine ⟨(UInt32.ofNat offsets64.length ||| highBit)::offsets,?_,by simp [hcount],?_⟩
      · rw [writeOffsets,if_pos hlarge,if_pos (by omega),hrun,hall,hlen]
        rfl
      · rw [hall,zip_cons_cons,forall_mem_cons]
        refine ⟨?_,hdecode⟩
        rw [append_assoc]
        exact decodeOffset_large (by rw [largeOffsetThreshold] at hfew; omega) e.offset
    | false =>
      rw [countP_cons_of_neg (by rw [hlarge]; exact Bool.false_ne_true)] at hfew
      have hall : largeOffsets (e::entries)=largeOffsets entries := by simp [largeOffsets,hlarge]
      obtain ⟨offsets,hrun,hcount,hdecode⟩ := ih hfew
      refine ⟨e.offset.toUInt32::offsets,?_,by simp [hcount],?_⟩
      · rw [writeOffsets,if_neg (by rw [hlarge]; exact Bool.false_ne_true),hrun,hall]
        rfl
      · rw [hall,zip_cons_cons,forall_mem_cons]
        exact ⟨decodeOffset_small (of_decide_eq_false hlarge) _,hdecode⟩

theorem writeOffsets_panics
    (hmany : largeOffsetThreshold < offsets64.length+entries.countP TreeEntry.isLarge) (hbefore : offsets64.length ≤ largeOffsetThreshold) :
    writeOffsets entries offsets64=none := by
  induction entries generalizing offsets64 with
  | nil =>
    rw [countP_nil] at hmany
    omega
  | cons e entries ih =>
    cases hlarge : e.isLarge with
    | true =>
      rw [countP_cons_of_pos hlarge] at hmany
      rw [writeOffsets,if_pos hlarge]
      split
      · rw [ih (by simp; omega) (by simp; omega)]
        rfl
      · rfl
    | false =>
      rw [countP_cons_of_neg (by rw [hlarge]; exact Bool.false_ne_true)] at hmany
      rw [writeOffsets,if_neg (by rw [hlarge]; exact Bool.false_ne_true),ih hmany hbefore]
      rfl

end Offsets

/-! Tables -/

theorem mapM_map {α β γ : Type} {f : β → Option γ} {g : α → β} {k : α → γ} {xs : List α} (h : ∀ x∈xs,f (g x)=some (k x)) :
    (xs.map g).mapM f=some (xs.map k) := by
  induction xs with
  | nil => rfl
  | cons x xs ih =>
    obtain ⟨hx,hxs⟩ := forall_mem_cons.mp h
    rw [map_cons,mapM_cons,hx,ih hxs]
    rfl

theorem zip_map_map {α β γ δ ε : Type} (f : α → γ) (g : α → δ) (k : β → ε) (xs : List α) (ys : List β) :
    (xs.map f).zip ((xs.map g).zip (ys.map k))=(xs.zip ys).map (fun p => (f p.1,g p.1,k p.2)) := by
  induction xs generalizing ys with
  | nil => rfl
  | cons x xs ih =>
    cases ys with
    | nil => rfl
    | cons y ys => simp [ih]

/-- A file that was written with `entries`, whose offsets are stored as `offsets`. -/
structure Stored (entries : List TreeEntry) (offsets : List UInt32) (f : File) : Prop where
  version : f.version = .v2
  count : f.numObjects.toNat = entries.length
  fan : f.fan = fanTable (entries.map (fun e => e.id.firstByte))
  offsetCount : offsets.length = entries.length
  decode : ∀ p ∈ entries.zip offsets, decodeOffset (largeOffsets entries) p.2 = some p.1.offset
  data : ∃ head trailer, head.length = v2HeaderSize ∧ f.data = head++(entries.flatMap (fun e => e.id.toList)++
    (entries.flatMap (fun e => be32 e.crc32)++(offsets.flatMap be32++((largeOffsets entries).flatMap be64++trailer))))

variable {entries : List TreeEntry} {n : ℕ}

section Stored
variable {offsets : List UInt32} {f : File}

theorem id_width : ∀ e∈entries,e.id.toList.length=hashLen := fun _ _ => by simp [hashLen]

theorem crc_width : ∀ e∈entries,(be32 e.crc32).length=4 := fun _ _ => be32_length _

variable (hs : Stored entries offsets f)
include hs

theorem Stored.oidAtIndex {i : ℕ} {id : ObjectId} (hid : (entries.map TreeEntry.id)[i]? = some id) :
    f.oidAtIndex i=some id := by
  obtain ⟨_,_,hhead,hdata⟩ := hs.data
  rw [getElem?_map,Option.map_eq_some_iff] at hid
  obtain ⟨_,he,rfl⟩ := hid
  simp only [File.oidAtIndex,hs.version]
  rw [hdata,slice_table id_width he hhead,Option.bind_some,ObjectId.fromBytes_toList]

theorem Stored.ids : f.records v2HeaderSize hashLen=some (entries.map (fun e => e.id.toList)) := by
  obtain ⟨_,_,hhead,hdata⟩ := hs.data
  rw [File.records,hdata,sliceFrom_append hhead,Option.map_some,hs.count,chunksExact_table (by decide) id_width]

theorem Stored.crcs : f.records f.offsetCrc32V2 4=some (entries.map (fun e => be32 e.crc32)) := by
  obtain ⟨head,_,hhead,hdata⟩ := hs.data
  have hlen : (head++entries.flatMap (fun e => e.id.toList)).length=f.offsetCrc32V2 := by
    rw [length_append,hhead,table_length id_width,File.offsetCrc32V2,hs.count]
  rw [File.records,hdata,← append_assoc,sliceFrom_append hlen,Option.map_some,hs.count,chunksExact_table (by decide) crc_width]

theorem Stored.offsets_at : ∃ pre trailer,pre.length=f.offsetPackOffsetV2 ∧
    f.data=pre++(offsets.flatMap be32++((largeOffsets entries).flatMap be64++trailer)) := by
  obtain ⟨head,trailer,hhead,hdata⟩ := hs.data
  refine ⟨head++entries.flatMap (fun e => e.id.toList)++entries.flatMap (fun e => be32 e.crc32),trailer,?_,by simp [hdata]⟩
  rw [length_append,length_append,hhead,table_length id_width,table_length crc_width,File.offsetPackOffsetV2,File.offsetCrc32V2,
    hs.count]

theorem Stored.offsets32 : f.records f.offsetPackOffsetV2 4=some (offsets.map be32) := by
  obtain ⟨_,_,hpre,hdata⟩ := hs.offsets_at
  rw [File.records,hdata,sliceFrom_append hpre,Option.map_some,hs.count,← hs.offsetCount,
    chunksExact_table (by decide) fun o _ => be32_length o]

theorem Stored.packOffset {o : UInt32} {v : UInt64} (ho : decodeOffset (largeOffsets entries) o=some v) :
    f.packOffsetFromOffsetV2 (be32 o) f.offsetPackOffset64V2=some v := by
  obtain ⟨pre,_,hpre,hdata⟩ := hs.offsets_at
  have hlen : (pre++offsets.flatMap be32).length=f.offsetPackOffset64V2 := by
    rw [length_append,hpre,table_length (fun o _ => be32_length o),File.offsetPackOffset64V2,hs.count,hs.offsetCount]
  rw [File.packOffsetFromOffsetV2,readU32_be32,Option.bind_some]
  unfold decodeOffset at ho
  split at ho
  · rename_i hlarge
    rw [if_pos hlarge,hdata,← append_assoc,slice_table (fun v _ => be64_length v) ho hlen,Option.bind_some,readU64_be64]
  · rename_i hsmall
    rw [if_neg hsmall,ho]

theorem Stored.iter : f.iter=some (entries.map (fun e => ⟨e.id,e.offset,some e.crc32⟩)) := by
  have hzip : (entries.map (fun e => e.id.toList)).zip ((entries.map (fun e => be32 e.crc32)).zip (offsets.map be32)) =
      (entries.zip offsets).map (fun p => (p.1.id.toList,be32 p.1.crc32,be32 p.2)) := zip_map_map _ _ _ _ _
  have hfst := map_fst_zip (le_of_eq hs.offsetCount.symm)
  have hrows : ∀ p∈entries.zip offsets,_ := fun p hp => hs.packOffset (hs.decode p hp)
  simp only [File.iter,hs.version,File.iterV2,hs.ids,hs.crcs,hs.offsets32,Option.bind_eq_bind,Option.bind_some,length_map,
    hs.offsetCount,Option.pure_def,hzip]
  rw [mapM_map (k := fun p => ⟨p.1.id,p.1.offset,some p.1.crc32⟩),← hfst,map_map,hfst]
  · rfl
  · intro p hp
    simp [ObjectId.fromBytes_toList,hrows p hp]

theorem Stored.offsets_eq : f.offsets=some (entries.map TreeEntry.offset) := by
  have hfst := map_fst_zip (le_of_eq hs.offsetCount.symm)
  have hsnd := map_snd_zip (le_of_eq hs.offsetCount)
  simp only [File.offsets,hs.version,hs.offsets32,Option.bind_eq_bind,Option.bind_some,hs.count,length_map,hs.offsetCount]
  rw [← hsnd,map_map,mapM_map (k := fun p => p.1.offset)]
  · rw [← hfst,map_map,hfst]
    rfl
  · exact fun p hp => hs.packOffset (hs.decode p hp)

theorem Stored.lookup (hids : Ascending (entries.map TreeEntry.id)) (hlen : entries.length ≤ 2^31) (id : ObjectId) :
    f.lookup id=some ((entries.map TreeEntry.id).idxOf? id) := by
  have hfan : f.fan=fanTable ((entries.map TreeEntry.id).map ObjectId.firstByte) := by
    rw [hs.fan,map_map]
    rfl
  rw [File.lookup,hfan]
  exact lookup_eq hids (by rwa [length_map]) (fun i a ha => hs.oidAtIndex ha) id

end Stored

/-! Files -/

theorem readFan_fanTable (firstBytes : List UInt8) (rest : Bytes) :
    readFan ((fanTable firstBytes).flatMap be32++rest)=some (fanTable firstBytes) := by
  have hwidth : ∀ v∈fanTable firstBytes,(be32 v).length=4 := fun v _ => be32_length v
  have hlen : fanLen=(fanTable firstBytes).length := (fanTable_length firstBytes).symm
  have hread : ((fanTable firstBytes).map be32).mapM readU32=some ((fanTable firstBytes).map id) := mapM_map fun v _ => readU32_be32 v
  rw [readFan,if_pos,hlen,chunksExact_table (by decide) hwidth,hread,map_id]
  rw [length_append,table_length hwidth]
  omega

theorem readVersion_v2 (rest : Bytes) : readVersion (v2Signature++(be32 v2.toU32++rest)) = .ok (.v2,rest) := by
  have htake : (v2Signature++(be32 v2.toU32++rest)).take 4=v2Signature := take_left' rfl
  have hdrop : (v2Signature++(be32 v2.toU32++rest)).drop 4=be32 v2.toU32++rest := drop_left' rfl
  have hdrop8 : (v2Signature++(be32 v2.toU32++rest)).drop 8=rest := by
    rw [← drop_drop (i := 4),hdrop,drop_left' (be32_length _)]
  have htake8 : (be32 v2.toU32++rest).take 4=be32 v2.toU32 := take_left' (be32_length _)
  simp [readVersion,htake,hdrop,hdrop8]

theorem atInner_eq {firstBytes : List UInt8} {n : UInt32} (hn : (fanTable firstBytes)[fanLen-1]? = some n) {rest : Bytes}
    (hrest : hashLen*2 ≤ rest.length) :
    File.atInner (v2Signature++(be32 v2.toU32++((fanTable firstBytes).flatMap be32++rest))) =
      .ok ⟨v2Signature++(be32 v2.toU32++((fanTable firstBytes).flatMap be32++rest)),.v2,n,fanTable firstBytes⟩ := by
  have hwidth : ∀ v∈fanTable firstBytes,(be32 v).length=4 := fun v _ => be32_length v
  have hlen : ¬(v2Signature++(be32 v2.toU32++((fanTable firstBytes).flatMap be32++rest))).length < fanLen*4+hashLen*2 := by
    simp only [length_append,table_length hwidth,fanTable_length,fanLen]
    omega
  simp only [File.atInner,if_neg hlen,readVersion_v2,readFan_fanTable,hn]

/-- What is written is opened, with its tables in place. -/
theorem writeTo_spec (hash : Bytes → ObjectId) (packHash : ObjectId) (hids : Ascending (entries.map TreeEntry.id))
    (hlen : entries.length < 2^32) (hfew : entries.countP TreeEntry.isLarge ≤ largeOffsetThreshold) :
    ∃ bytes f offsets,writeTo hash entries packHash .v2=some bytes ∧ File.atInner bytes = .ok f ∧ Stored entries offsets f := by
  have hsorted : (entries.map (fun e => e.id.firstByte)).Pairwise (· ≤ ·) := by
    have := hids.firstBytes
    rwa [map_map] at this
  obtain ⟨offsets,hoffsets,hcount,hdecode⟩ := writeOffsets_spec (show ([] : List UInt64).length+_ ≤ _ by simpa using hfew)
  let fan := fanTable (entries.map (fun e => e.id.firstByte))
  let out := content .v2 fan entries offsets (largeOffsets entries) packHash
  have hwrite : writeTo hash entries packHash .v2=some (out++(hash out).toList) := by
    rw [writeTo,if_pos ⟨rfl,by omega⟩,fanout_eq hsorted,hoffsets]
    rfl
  have hfan : fan[fanLen-1]? = some (UInt32.ofNat entries.length) := by
    rw [fanTable_get _ (by decide)]
    exact congrArg (fun n => some (UInt32.ofNat n)) ((below_all _).trans (length_map _))
  let rest := entries.flatMap (fun e => e.id.toList)++(entries.flatMap (fun e => be32 e.crc32)++
    (offsets.flatMap be32++((largeOffsets entries).flatMap be64++(packHash.toList++(hash out).toList))))
  have hdata : out++(hash out).toList=v2Signature++(be32 v2.toU32++(fan.flatMap be32++rest)) := by
    simp [out,content,rest]
  have hrest : hashLen*2 ≤ rest.length := by
    simp only [rest,length_append,Vector.length_toList,hashLen]
    omega
  have hatinner := atInner_eq hfan hrest
  rw [← hdata] at hatinner
  refine ⟨_,_,offsets,hwrite,hatinner,rfl,?_,rfl,hcount,hdecode,v2Signature++be32 2++fan.flatMap be32,packHash.toList++(hash out).toList,?_,?_⟩
  · exact Nat.mod_eq_of_lt hlen
  · have hwidth : ∀ v∈fan,(be32 v).length=4 := fun v _ => be32_length v
    rw [length_append,table_length hwidth,fanTable_length]
    rfl
  · simp [out,content,toU32]

/-- The entries come back by iteration and by lookups, and their offsets in order. -/
theorem index_round_trip (hash : Bytes → ObjectId) (packHash : ObjectId) (entries : List TreeEntry)
    (hids : Ascending (entries.map TreeEntry.id)) (hlen : entries.length ≤ 2^31) (hfew : entries.countP TreeEntry.isLarge < 2^31) :
    ∃ bytes f, writeTo hash entries packHash .v2 = some bytes ∧ File.atInner bytes = .ok f ∧
      f.iter = some (entries.map (fun e => ⟨e.id,e.offset,some e.crc32⟩)) ∧
      (∀ id, f.lookup id = some ((entries.map TreeEntry.id).idxOf? id)) ∧
      ∃ sorted, f.sortedOffsets = some sorted ∧ sorted.Perm (entries.map TreeEntry.offset) ∧ sorted.Pairwise (· ≤ ·) := by
  obtain ⟨bytes,f,_,hwrite,hopen,hs⟩ := writeTo_spec hash packHash hids (by omega) (show _ ≤ largeOffsetThreshold by
    rw [largeOffsetThreshold]; omega)
  refine ⟨bytes,f,hwrite,hopen,hs.iter,hs.lookup hids hlen,(entries.map TreeEntry.offset).mergeSort (fun a b => a ≤ b),?_,
    mergeSort_perm _ _,?_⟩
  · rw [File.sortedOffsets,hs.offsets_eq]
    rfl
  · have htotal : ∀ a b : UInt64, (decide (a ≤ b) || decide (b ≤ a))=true := by
      intro a b
      simpa using UInt64.le_total a b
    have htrans : ∀ a b c : UInt64, decide (a ≤ b)=true → decide (b ≤ c)=true → decide (a ≤ c)=true := by
      intro a b c hab hbc
      exact decide_eq_true (UInt64.le_trans (of_decide_eq_true hab) (of_decide_eq_true hbc))
    exact (pairwise_mergeSort htrans htotal _).imp of_decide_eq_true

def numbered (n : ℕ) : ObjectId := ⟨(beBytes 20 n).toArray,by simp⟩

theorem numbered_cmp {m : ℕ} (hmn : m < n) (hn : n < 256^20) : (numbered m).cmp (numbered n) = .lt := by
  apply compare_of_beNat_lt
  · simp
  · change beNat (beBytes 20 m) < beNat (beBytes 20 n)
    rwa [beNat_beBytes (hmn.trans hn),beNat_beBytes hn]

theorem index_round_trip_two : ∃ bytes f, writeTo (fun _ => .null) [⟨12,numbered 1,7⟩,⟨0x123456789,numbered 2,8⟩] .null .v2 = some bytes ∧
    File.atInner bytes = .ok f ∧ f.iter = some [⟨numbered 1,12,some 7⟩,⟨numbered 2,0x123456789,some 8⟩] ∧
    (∀ id, f.lookup id = some ([numbered 1,numbered 2].idxOf? id)) ∧
    ∃ sorted, f.sortedOffsets = some sorted ∧ sorted.Perm [12,0x123456789] ∧ sorted.Pairwise (· ≤ ·) :=
  index_round_trip (fun _ => .null) .null [⟨12,numbered 1,7⟩,⟨0x123456789,numbered 2,8⟩]
    (by simpa [Ascending] using numbered_cmp (by decide) (by decide)) (by decide) (by decide)

def largeEntries (n : ℕ) : List TreeEntry := (List.range n).map (fun i => ⟨0x80000000,numbered i,0⟩)

theorem largeEntries_ascending (hn : n ≤ 256^20) : Ascending ((largeEntries n).map TreeEntry.id) := by
  rw [Ascending,largeEntries,map_map,pairwise_map]
  refine pairwise_lt_range.imp_of_mem fun {a b} _ hb hab => ?_
  exact numbered_cmp hab (lt_of_lt_of_le (mem_range.mp hb) hn)

theorem largeEntries_panics (hash : Bytes → ObjectId) (packHash : ObjectId) (hn : largeOffsetThreshold < n) :
    writeTo hash (largeEntries n) packHash .v2=none := by
  have hall : ∀ e∈largeEntries n,e.isLarge=true := by
    intro e he
    obtain ⟨_,-,rfl⟩ := mem_map.mp he
    rfl
  have hcount : (largeEntries n).countP TreeEntry.isLarge=n := by
    rw [countP_eq_length.mpr hall,largeEntries,length_map,length_range]
  have hnone := writeOffsets_panics (show largeOffsetThreshold < ([] : List UInt64).length+(largeEntries n).countP TreeEntry.isLarge by
    rw [hcount]; omega) (Nat.zero_le _)
  rw [writeTo,hnone]
  split
  · cases fanout ((largeEntries n).map (fun e => e.id.firstByte)) <;> rfl
  · rfl

/-- With as many entries as there may be, and all of them large, nothing is written. -/
theorem all_large_panics : ∃ entries : List TreeEntry, entries.length = 2^31 ∧ Ascending (entries.map TreeEntry.id) ∧
    writeTo (fun _ => .null) entries .null .v2 = none := by
  refine ⟨largeEntries (2^31),?_,largeEntries_ascending (by norm_num),largeEntries_panics _ _ (by rw [largeOffsetThreshold]; norm_num)⟩
  rw [largeEntries,length_map,length_range]

end Gix.Pack.Index
