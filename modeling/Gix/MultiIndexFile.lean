import Gix.MultiIndex
import Gix.PackIndexResult

/-! # The file of an index of many packs

Chunks are where the table of contents says, and offsets come back with and without a chunk for
large ones. -/
namespace Gix.Pack.MultiIndex
open Gix.ByteCodec Gix.FixedTable List Chunk Chunk.Index
open Gix.Pack.Index (largeOffsetThreshold highBit decodeOffset decodeOffset_small decodeOffset_large mapM_map)

/-! Offsets -/

variable {entries : List Entry} {names : List Bytes} {rows : List (UInt32 × UInt32)}
  {offsets64 : Option (List UInt64)}

def Entry.isLarge (e : Entry) : Bool := largeOffsetThreshold < e.packOffset.toNat

def largeOffsets (entries : List Entry) : List UInt64 := (entries.filter Entry.isLarge).map Entry.packOffset

def decodeRow (offsets64 : Option (List UInt64)) (ofs32 : UInt32) : Option UInt64 :=
  if ofs32 &&& highBit = highBit then match offsets64 with
    | some offsets64 => offsets64[(ofs32 ^^^ highBit).toNat]?
    | none => some ofs32.toUInt64
  else some ofs32.toUInt64

theorem decodeRow_some (offsets64 : List UInt64) (ofs32 : UInt32) : decodeRow (some offsets64) ofs32=decodeOffset offsets64 ofs32 := rfl

theorem decodeRow_none (ofs32 : UInt32) : decodeRow none ofs32=some ofs32.toUInt64 := by
  unfold decodeRow
  split <;> rfl

/-- The rows of a table of offsets are those of entries. -/
structure Rows (offsets64 : Option (List UInt64)) (entries : List Entry) (rows : List (UInt32 × UInt32)) : Prop where
  length : rows.length = entries.length
  packIndex : ∀ p ∈ entries.zip rows, p.2.1 = p.1.packIndex
  packOffset : ∀ p ∈ entries.zip rows, decodeRow offsets64 p.2.2 = some p.1.packOffset

theorem Rows.cons {rows : List (UInt32 × UInt32)} (hr : Rows offsets64 entries rows) {e : Entry} {o : UInt32}
    (ho : decodeRow offsets64 o=some e.packOffset) : Rows offsets64 (e::entries) ((e.packIndex,o)::rows) := by
  refine ⟨by simp [hr.length],?_,?_⟩
  · rw [zip_cons_cons,forall_mem_cons]
    exact ⟨rfl,hr.packIndex⟩
  · rw [zip_cons_cons,forall_mem_cons]
    exact ⟨ho,hr.packOffset⟩

/-- With a table for large offsets, all of them are in it. -/
theorem offsetRows_large {before : List UInt64} (hfew : before.length+entries.countP Entry.isLarge ≤ 2^31) :
    ∃ rows,offsetRows true before.length entries=some rows ∧ Rows (some (before++largeOffsets entries)) entries rows := by
  induction entries generalizing before with
  | nil => exact ⟨[],rfl,rfl,by simp,by simp⟩
  | cons e entries ih =>
    cases hlarge : e.isLarge with
    | true =>
      rw [countP_cons_of_pos hlarge] at hfew
      have hall : before++largeOffsets (e::entries)=(before++[e.packOffset])++largeOffsets entries := by
        simp [largeOffsets,hlarge]
      have hlen : (before++[e.packOffset]).length=before.length+1 := by simp
      obtain ⟨rows,hrun,hrows⟩ := ih (show (before++[e.packOffset]).length+_ ≤ _ by omega)
      refine ⟨(e.packIndex,UInt32.ofNat before.length ||| highBit)::rows,?_,?_⟩
      · rw [hlen] at hrun
        rw [offsetRows,if_pos (of_decide_eq_true hlarge),hrun]
        rfl
      · rw [hall]
        refine hrows.cons ?_
        rw [append_assoc]
        exact decodeOffset_large (by omega) e.packOffset
    | false =>
      rw [countP_cons_of_neg (by rw [hlarge]; exact Bool.false_ne_true)] at hfew
      have hall : largeOffsets (e::entries)=largeOffsets entries := by simp [largeOffsets,hlarge]
      obtain ⟨rows,hrun,hrows⟩ := ih hfew
      refine ⟨(e.packIndex,e.packOffset.toUInt32)::rows,?_,?_⟩
      · rw [offsetRows,if_neg (of_decide_eq_false hlarge),hrun]
        rfl
      · rw [hall]
        exact hrows.cons ((decodeRow_some _ _).trans (decodeOffset_small (of_decide_eq_false hlarge) _))

theorem offsetRows_small (hfit : ∀ e∈entries,e.packOffset.toNat < 2^32) (num : ℕ) :
    ∃ rows,offsetRows false num entries=some rows ∧ Rows none entries rows := by
  induction entries with
  | nil => exact ⟨[],rfl,rfl,by simp,by simp⟩
  | cons e entries ih =>
    obtain ⟨he,hes⟩ := forall_mem_cons.mp hfit
    obtain ⟨rows,hrun,hrows⟩ := ih hes
    refine ⟨(e.packIndex,e.packOffset.toUInt32)::rows,?_,hrows.cons ?_⟩
    · rw [offsetRows,if_pos he,hrun]
      rfl
    · rw [decodeRow_none]
      congr 1
      apply UInt64.toNat_inj.mp
      rw [UInt32.toNat_toUInt64,UInt64.toNat_toUInt32,Nat.mod_eq_of_lt he]

/-- The large offsets, if there is a chunk for them. -/
def largeTable (entries : List Entry) : Option (List UInt64) := (numLargeOffsets entries).map (fun _ => largeOffsets entries)

theorem numLargeOffsets_eq (entries : List Entry) :
    numLargeOffsets entries=none ∧ (∀ e∈entries,e.packOffset.toNat < 2^32) ∨ numLargeOffsets entries=some (largeOffsets entries).length ∧
      largeOffsets entries≠[] := by
  by_cases hany : entries.any (fun e => 2^32-1 < e.packOffset.toNat)=true
  · right
    obtain ⟨e,he,hlt⟩ := any_eq_true.mp hany
    have hlarge : e.isLarge=true := by
      have hlt := of_decide_eq_true hlt
      refine decide_eq_true ?_
      rw [largeOffsetThreshold]
      omega
    refine ⟨?_,?_⟩
    · rw [numLargeOffsets,if_pos hany,largeOffsets,length_map,← countP_eq_length_filter]
      rfl
    · exact ne_nil_of_mem (mem_map_of_mem (mem_filter.mpr ⟨he,hlarge⟩))
  · left
    refine ⟨by rw [numLargeOffsets,if_neg hany],?_⟩
    intro e he
    have hnot := mt any_eq_true.mpr hany
    by_contra hge
    exact hnot ⟨e,he,decide_eq_true (by omega)⟩

theorem offsetRows_spec (hfew : entries.countP Entry.isLarge ≤ 2^31) :
    ∃ rows,offsetRows (numLargeOffsets entries).isSome 0 entries=some rows ∧ Rows (largeTable entries) entries rows := by
  rcases numLargeOffsets_eq entries with ⟨hnone,hfit⟩ | ⟨hsome,-⟩
  · rw [largeTable,hnone]
    exact offsetRows_small hfit 0
  · rw [largeTable,hsome]
    exact offsetRows_large (show ([] : List UInt64).length+_ ≤ _ by simpa using hfew)

/-! Names -/

section Names
variable {out : List Bytes}

theorem namesFromBytes_spec (hnul : ∀ name∈names,(0 : UInt8)∉name) (hsorted : (out++names).Pairwise (fun a b => compare a b = .lt)) (k : ℕ) :
    namesFromBytes names.length (names.flatMap (fun name => name++[0])++List.replicate k 0) out = .ok (out++names) := by
  induction names generalizing out with
  | nil => simp [namesFromBytes]
  | cons name names ih =>
    obtain ⟨hname,hnul⟩ := forall_mem_cons.mp hnul
    have hcut : cut 0 ((name::names).flatMap (fun name => name++[0])++replicate k 0) =
        some (name,names.flatMap (fun name => name++[0])++replicate k 0) := by
      rw [flatMap_cons,append_assoc,append_assoc]
      exact cut_append hname _
    have hlast : out.getLast?.elim true (fun previous => decide (compare previous name = .lt))=true := by
      cases hout : out.getLast? with
      | none => rfl
      | some previous =>
        have hlt := (pairwise_append.mp hsorted).2.2 previous (mem_of_getLast? hout) name mem_cons_self
        exact decide_eq_true hlt
    have ih := ih hnul (show ((out++[name])++names).Pairwise _ by simpa using hsorted)
    rw [length_cons,namesFromBytes,hcut]
    dsimp only
    rw [if_pos hlast,ih,append_assoc]
    rfl

theorem names_length (names : List Bytes) : (names.flatMap (fun name => name++[0])).length=(names.map (fun name => name.length+1)).sum := by
  simp

end Names

/-! Chunks -/

def plannedChunks (names : List Bytes) (entries : List Entry) : List Chunk.Entry :=
  [⟨indexNamesId,0,(writeNames names).length⟩,⟨fanoutId,0,4*256⟩,⟨lookupId,0,entries.length*Index.hashLen⟩,⟨offsetsId,0,entries.length*(4+4)⟩]++
    (numLargeOffsets entries).toList.map (fun num => ⟨largeOffsetsId,0,8*num⟩)

theorem planChunks_eq (hascii : ∀ name∈names,∀ b∈name,b < 128) : planChunks names entries=some ⟨plannedChunks names entries⟩ := by
  have hsize : namesStorageSize names=some (writeNames names).length := by
    rw [namesStorageSize,if_pos hascii,writeNames,length_append,length_replicate,names_length]
  rw [planChunks,hsize]
  cases hlarge : numLargeOffsets entries with
  | none => simp [planChunk,plannedChunks,hlarge,indexNamesId,fanoutId,lookupId,offsetsId]
  | some num => simp [planChunk,plannedChunks,hlarge,indexNamesId,fanoutId,lookupId,offsetsId,largeOffsetsId]

def content (names : List Bytes) (entries : List Entry) (rows : List (UInt32 × UInt32)) (chunk : Chunk.Id) : Bytes :=
  if chunk = indexNamesId then writeNames names
  else if chunk = fanoutId then (fanTable (entries.map (fun e => e.id.firstByte))).flatMap be32
  else if chunk = lookupId then entries.flatMap (fun e => e.id.toList)
  else if chunk = offsetsId then rows.flatMap offsetRow
  else (largeOffsets entries).flatMap be64

theorem content_lookup : content names entries rows lookupId=entries.flatMap (fun e => e.id.toList) := rfl
theorem content_offsets : content names entries rows offsetsId=rows.flatMap offsetRow := rfl
theorem content_largeOffsets : content names entries rows largeOffsetsId=(largeOffsets entries).flatMap be64 := rfl

theorem content_fanout : content names entries rows fanoutId=(fanTable (entries.map (fun e => e.id.firstByte))).flatMap be32 := rfl

theorem offsetRow_length (row : UInt32 × UInt32) : (offsetRow row).length=4+4 := by
  rw [offsetRow,length_append,be32_length,be32_length]

theorem id_width : ∀ e∈entries,e.id.toList.length=Index.hashLen := fun _ _ => by simp [Index.hashLen]

variable (hrows : rows.length = entries.length)

include hrows in
theorem content_fits (names : List Bytes) : Chunk.Fits (content names entries rows) (plannedChunks names entries) := by
  intro e he
  rcases mem_append.mp he with he | he
  · simp only [mem_cons,not_mem_nil,or_false] at he
    rcases he with rfl | rfl | rfl | rfl
    · rfl
    · rw [content_fanout,table_length fun v _ => be32_length v,fanTable_length]
    · rw [content_lookup,table_length id_width]
    · rw [content_offsets,table_length fun row _ => offsetRow_length row,hrows]
  · obtain ⟨_,hnum,rfl⟩ := mem_map.mp he
    rw [Option.mem_toList] at hnum
    rcases numLargeOffsets_eq entries with ⟨hnone,-⟩ | ⟨hsome,-⟩
    · rw [hnone] at hnum
      cases hnum
    · cases hsome.symm.trans hnum
      rw [content_largeOffsets,table_length fun v _ => be64_length v,Nat.mul_comm]

theorem writeChunk_eq (hids : Ascending (entries.map Entry.id)) (hrows : offsetRows (numLargeOffsets entries).isSome 0 entries=some rows) :
    ∀ e∈plannedChunks names entries,writeChunk names entries e.kind=some (content names entries rows e.kind) := by
  have hsorted : (entries.map (fun e => e.id.firstByte)).Pairwise (· ≤ ·) := by
    have := hids.firstBytes
    rwa [map_map] at this
  intro e he
  rcases mem_append.mp he with he | he
  · simp only [mem_cons,not_mem_nil,or_false] at he
    rcases he with rfl | rfl | rfl | rfl
    · rfl
    · change (fanout (entries.map (fun e => e.id.firstByte))).map (flatMap be32)=_
      rw [fanout_eq hsorted]
      rfl
    · rfl
    · change (offsetRows (numLargeOffsets entries).isSome 0 entries).map (flatMap offsetRow)=_
      rw [hrows]
      rfl
  · obtain ⟨_,hnum,rfl⟩ := mem_map.mp he
    change (numLargeOffsets entries).bind (writeLargeOffsets entries)=some ((largeOffsets entries).flatMap be64)
    rcases numLargeOffsets_eq entries with ⟨hnone,-⟩ | ⟨hsome,-⟩
    · rw [hnone] at hnum
      cases hnum
    · rw [hsome,largeOffsets,flatMap_map,length_map]
      exact if_pos rfl

theorem plannedChunks_kinds : ((plannedChunks names entries).map Chunk.Entry.kind).Nodup ∧
    ∀ e∈plannedChunks names entries,e.kind≠sentinel := by
  cases hlarge : numLargeOffsets entries with
  | none =>
    rw [plannedChunks,hlarge]
    exact ⟨by simpa using (by decide : [indexNamesId,fanoutId,lookupId,offsetsId].Nodup),by simp; decide⟩
  | some num =>
    rw [plannedChunks,hlarge]
    exact ⟨by simpa using (by decide : [indexNamesId,fanoutId,lookupId,offsetsId,largeOffsetsId].Nodup),by simp; decide⟩

include hrows

theorem content_ne_nil (hnames : names≠[]) (hentries : entries≠[]) :
    ∀ e∈plannedChunks names entries,content names entries rows e.kind≠[] := by
  have hlen := length_pos_of_ne_nil hentries
  have hpos : ∀ e∈plannedChunks names entries,0 < e.stop := by
    intro e he
    rcases mem_append.mp he with he | he
    · simp only [mem_cons,not_mem_nil,or_false] at he
      rcases he with rfl | rfl | rfl | rfl
      · obtain ⟨_,names,rfl⟩ := exists_cons_of_ne_nil hnames
        simp [writeNames]
      · decide
      · exact Nat.mul_pos hlen (by decide)
      · exact Nat.mul_pos hlen (by decide)
    · obtain ⟨_,hnum,rfl⟩ := mem_map.mp he
      rw [Option.mem_toList] at hnum
      rcases numLargeOffsets_eq entries with ⟨hnone,-⟩ | ⟨hsome,hne⟩
      · rw [hnone] at hnum
        cases hnum
      · cases hsome.symm.trans hnum
        exact Nat.mul_pos (by decide) (length_pos_of_ne_nil hne)
  intro e he hnil
  have hstop := content_fits hrows names e he
  rw [hnil] at hstop
  exact absurd (hpos e he) (by rw [hstop]; exact Nat.lt_irrefl 0)

/-! Files -/

section Files
variable {trailer : Bytes}

def fileHead (names : List Bytes) (entries : List Entry) : Bytes :=
  writeHeader (UInt8.ofNat (plannedChunks names entries).length) (UInt32.ofNat names.length)

def chunksOfs (names : List Bytes) (entries : List Entry) : ℕ := headerLen+Chunk.sizeForEntries (plannedChunks names entries).length

def fileData (names : List Bytes) (entries : List Entry) (rows : List (UInt32 × UInt32)) (trailer : Bytes) : Bytes :=
  fileHead names entries++(Chunk.tableOfContents (chunksOfs names entries) (plannedChunks names entries)++
    (Chunk.contents (content names entries rows) (plannedChunks names entries)++trailer))

omit hrows in
theorem fileHead_length : (fileHead names entries).length=headerLen := by
  simp [fileHead,writeHeader,signature,headerLen]

omit hrows in
theorem plannedChunks_length : (plannedChunks names entries).length < 256 := by
  cases hlarge : numLargeOffsets entries <;> simp [plannedChunks,hlarge]

theorem writeFile_eq (hash : Bytes → ObjectId) (hascii : ∀ name∈names,∀ b∈name,b < 128) (hids : Ascending (entries.map Entry.id))
    (hrun : offsetRows (numLargeOffsets entries).isSome 0 entries=some rows) :
    ∃ trailer : Bytes,trailer.length=Index.hashLen ∧ writeFile hash names entries=some (fileData names entries rows trailer) := by
  have hchunks := (content_fits hrows names).writeChunks (writeChunk_eq hids hrun)
  let out := fileHead names entries++(tableOfContents (chunksOfs names entries) (plannedChunks names entries)++
    contents (content names entries rows) (plannedChunks names entries))
  refine ⟨(hash out).toList,by simp [Index.hashLen],?_⟩
  rw [writeFile,planChunks_eq hascii,Option.bind_some,if_pos plannedChunks_length,intoWrite,hchunks,Option.map_some,Option.map_some]
  simp only [append_assoc]
  rfl

/-- A chunk that is where it was found. -/
structure Located (data : Bytes) (chunks : Chunk.Index) (kind : Chunk.Id) (start : ℕ) (bytes : Bytes) : Prop where
  offsetById : chunks.offsetById kind = some (start,start+bytes.length)
  data : ∃ pre rest, pre.length = start ∧ data = pre++(bytes++rest)

variable {chunks : Chunk.Index} {data : Bytes} {kind : Chunk.Id} {bytes : Bytes} {start : ℕ}

omit hrows in
theorem Located.dataById (h : Located data chunks kind start bytes) :
    MultiIndex.dataById data chunks kind = .ok bytes := by
  obtain ⟨pre,_,rfl,hdata⟩ := h.data
  have hslice : slice data pre.length bytes.length=some bytes := by
    rw [hdata,slice,if_pos (by simp),drop_left,take_left]
  simp only [MultiIndex.dataById,h.offsetById,Nat.add_sub_cancel_left,hslice]

omit hrows in
theorem Located.validatedOffset (h : Located data chunks kind start bytes)
    {isValid : ℕ → Option Bool} {valid : Bool} (hvalid : isValid bytes.length=some valid) (message : String) :
    MultiIndex.validatedOffset chunks kind isValid message=if valid then .ok start else .error (.invalidChunkSize kind message) := by
  simp only [MultiIndex.validatedOffset,h.offsetById,Nat.add_sub_cancel_left,hvalid]
  cases valid <;> rfl

def fileChunks (names : List Bytes) (entries : List Entry) : Chunk.Index :=
  ⟨Chunk.located (chunksOfs names entries) (plannedChunks names entries)⟩

theorem located_of_planned (names : List Bytes) (trailer : Bytes) (kind : Chunk.Id)
    (hkind : kind∈(plannedChunks names entries).map Chunk.Entry.kind) :
    ∃ start,Located (fileData names entries rows trailer) (fileChunks names entries) kind start (content names entries rows kind) := by
  have hlen : (fileHead names entries++tableOfContents (chunksOfs names entries) (plannedChunks names entries)).length =
      chunksOfs names entries := by
    rw [length_append,fileHead_length,tableOfContents_length,chunksOfs]
  obtain ⟨pre,rest,hdata,hfind⟩ := (content_fits hrows names).find plannedChunks_kinds.1
    (fileHead names entries++tableOfContents (chunksOfs names entries) (plannedChunks names entries)) trailer hkind
  rw [hlen] at hfind
  refine ⟨pre.length,hfind,pre,rest,rfl,?_⟩
  rw [← hdata,fileData,append_assoc]

theorem fromBytes_eq (hnames : names≠[]) (hentries : entries≠[])
    (hlen : (fileData names entries rows trailer).length < 2^64) :
    fromBytes (fileData names entries rows trailer) headerLen (plannedChunks names entries).length = .ok (fileChunks names entries) := by
  have hopen := (content_fits hrows names).fromBytes (by simp [plannedChunks]) (content_ne_nil hrows hnames hentries) plannedChunks_kinds.2 plannedChunks_kinds.1
    (show fileData names entries rows trailer=fileHead names entries++(tableOfContents ((fileHead names entries).length+
      sizeForEntries (plannedChunks names entries).length) (plannedChunks names entries)++(_++trailer)) by rw [fileHead_length]; rfl) hlen
  rwa [fileHead_length] at hopen

omit hrows in
theorem readHeader_fileData :
    readHeader (fileData names entries rows trailer) = .ok (UInt8.ofNat (plannedChunks names entries).length,UInt32.ofNat names.length) := by
  let num := UInt8.ofNat (plannedChunks names entries).length
  obtain ⟨rest,hdata⟩ : ∃ rest,fileData names entries rows trailer=77::73::68::88::1::1::num::0 ::
      (be32 (UInt32.ofNat names.length)++rest) := ⟨_,by rw [fileData]; rfl⟩
  rw [hdata,readHeader]
  simp [signature,num]

/-- What a file was written with is in it. -/
structure Stored (names : List Bytes) (entries : List Entry) (rows : List (UInt32 × UInt32)) (f : File) : Prop where
  indexNames : f.indexNames = names
  count : f.numObjects.toNat = entries.length
  fan : f.fan = fanTable (entries.map (fun e => e.id.firstByte))
  ids : ∃ pre rest, pre.length = f.lookupOfs ∧ f.data = pre++(entries.flatMap (fun e => e.id.toList)++rest)
  offsets : ∃ pre rest, pre.length = f.offsetsOfs ∧ f.data = pre++(rows.flatMap offsetRow++rest)
  largeOffsets : f.largeOffsetsOfs = none ∧ largeTable entries = none ∨
    ∃ pre rest, f.largeOffsetsOfs = some pre.length ∧ largeTable entries = some (largeOffsets entries) ∧
      f.data = pre++((MultiIndex.largeOffsets entries).flatMap be64++rest)

omit hrows in
theorem fanFromBytes_fanTable (firstBytes : List UInt8) :
    fanFromBytes ((fanTable firstBytes).flatMap be32)=some (fanTable firstBytes) := by
  have hlen : ((fanTable firstBytes).flatMap be32).length=4*256 := by
    rw [table_length fun v _ => be32_length v,fanTable_length]
  have hread := Index.readFan_fanTable firstBytes []
  rw [append_nil,Index.readFan,if_pos (show Index.fanLen*4 ≤ _ from hlen.ge)] at hread
  rw [fanFromBytes,if_pos hlen]
  exact hread

theorem fileData_length (htrailer : trailer.length=Index.hashLen) :
    (fileData names entries rows trailer).length=chunksOfs names entries+planned (plannedChunks names entries)+Index.hashLen := by
  rw [fileData,length_append,length_append,length_append,fileHead_length,tableOfContents_length,
    (content_fits hrows names).contents_length,chunksOfs]
  omega

theorem tryFrom_eq (hnames : names≠[]) (hentries : entries≠[])
    (htrailer : trailer.length=Index.hashLen) (hlen : (fileData names entries rows trailer).length < 2^64) :
    File.tryFrom (fileData names entries rows trailer) =
      openChunks (fileData names entries rows trailer) (UInt32.ofNat names.length) (fileChunks names entries) := by
  have hnum : (UInt8.ofNat (plannedChunks names entries).length).toNat=(plannedChunks names entries).length := by
    exact Nat.mod_eq_of_lt plannedChunks_length
  have hlong : ¬(fileData names entries rows trailer).length < headerLen+sizeForEntries 4+4*256+Index.hashLen := by
    have hcount : 4 ≤ (plannedChunks names entries).length := by simp [plannedChunks]
    have hplanned : 4*256 ≤ planned (plannedChunks names entries) := by
      simp [plannedChunks]
      omega
    rw [fileData_length hrows htrailer,chunksOfs,sizeForEntries,sizeForEntries,entrySize]
    omega
  rw [File.tryFrom,if_neg hlong,readHeader_fileData]
  simp [bind,Except.bind,hnum,fromBytes_eq hrows hnames hentries hlen]

theorem openChunks_eq (hnul : ∀ name∈names,(0 : UInt8)∉name) (hsorted : names.Pairwise (fun a b => compare a b = .lt))
    (hcount : names.length < 2^32) :
    openChunks (fileData names entries rows trailer) (UInt32.ofNat names.length) (fileChunks names entries) =
      openTables (fileData names entries rows trailer) (UInt32.ofNat names.length) (fileChunks names entries) names
        (fanTable (entries.map (fun e => e.id.firstByte))) (UInt32.ofNat entries.length) := by
  obtain ⟨_,hnames⟩ := located_of_planned hrows names trailer indexNamesId (by simp [plannedChunks])
  obtain ⟨_,hfan⟩ := located_of_planned hrows names trailer fanoutId (by simp [plannedChunks])
  have hnat : (UInt32.ofNat names.length).toNat=names.length := by
    exact Nat.mod_eq_of_lt hcount
  have hread : namesFromBytes names.length (content names entries rows indexNamesId) [] = .ok names := namesFromBytes_spec hnul (by simpa using hsorted) _
  rw [← hnat] at hread
  have hlast : (fanTable (entries.map fun e => e.id.firstByte))[255]? = some (UInt32.ofNat entries.length) :=
    (fanTable_get _ (by decide)).trans (congrArg (fun n => some (UInt32.ofNat n)) ((below_all _).trans (length_map _)))
  rw [openChunks,hnames.dataById]
  simp only [bind,Except.bind,hread,hfan.dataById,content_fanout,fanFromBytes_fanTable,Option.elim_some,hlast]

/-- A count that was cut is not that of the ids. -/
theorem openTables_fails (hcount : 2^32 ≤ entries.length) (numIndices : UInt32) (fan : List UInt32) :
    openTables (fileData names entries rows trailer) numIndices (fileChunks names entries) names fan (UInt32.ofNat entries.length) =
      .error (.invalidChunkSize lookupId "The chunk with alphabetically ordered object ids doesn't have the correct size") := by
  obtain ⟨_,hlookup⟩ := located_of_planned hrows names trailer lookupId (by simp [plannedChunks])
  have hne : ¬entries.length=(UInt32.ofNat entries.length).toNat := by
    have := (UInt32.ofNat entries.length).toNat_lt
    omega
  have hsize : (content names entries rows lookupId).length/Index.hashLen=entries.length := by
    rw [content_lookup,table_length id_width,Nat.mul_div_cancel _ (by decide)]
  rw [openTables,hlookup.validatedOffset (show _=some false by rw [hsize,decide_eq_false hne])]
  rfl

/-- The chunk with large offsets is there if it was needed. -/
theorem largeOffsets_found (names : List Bytes) (trailer : Bytes) : ∃ largeOffsetsOfs,
    orMissing (validatedOffset (fileChunks names entries) largeOffsetsId (fun size => some (size%8=0))
      "The chunk with large offsets into the pack doesn't have the correct size") = .ok largeOffsetsOfs ∧
    (largeOffsetsOfs=none ∧ largeTable entries=none ∨ ∃ pre rest,largeOffsetsOfs=some pre.length ∧
      largeTable entries=some (largeOffsets entries) ∧
      fileData names entries rows trailer=pre++((MultiIndex.largeOffsets entries).flatMap be64++rest)) := by
  cases hnum : numLargeOffsets entries with
  | none =>
    have hmissing : largeOffsetsId∉(plannedChunks names entries).map Chunk.Entry.kind := by
      rw [plannedChunks,hnum]
      simpa using (by decide : largeOffsetsId∉[indexNamesId,fanoutId,lookupId,offsetsId])
    have hfind : (fileChunks names entries).offsetById largeOffsetsId=none := find_missing hmissing _
    refine ⟨none,?_,.inl ⟨rfl,by rw [largeTable,hnum]; rfl⟩⟩
    rw [validatedOffset,hfind]
    rfl
  | some num =>
    obtain ⟨_,hstart⟩ := located_of_planned hrows names trailer largeOffsetsId (by simp [plannedChunks,hnum])
    have hsize : (content names entries rows largeOffsetsId).length%8=0 := by
      rw [content_largeOffsets,table_length fun v _ => be64_length v,Nat.mul_mod_left]
    obtain ⟨pre,rest,rfl,hdata⟩ := hstart.data
    refine ⟨some pre.length,?_,.inr ⟨pre,rest,rfl,by rw [largeTable,hnum]; rfl,hdata⟩⟩
    rw [hstart.validatedOffset (show _=some true by rw [hsize,decide_eq_true rfl])]
    rfl

theorem openTables_spec (hentries : entries≠[]) (hcount : entries.length < 2^32)
    (htrailer : trailer.length=Index.hashLen) (numIndices : UInt32) :
    ∃ f,openTables (fileData names entries rows trailer) numIndices (fileChunks names entries) names
      (fanTable (entries.map (fun e => e.id.firstByte))) (UInt32.ofNat entries.length) = .ok f ∧ Stored names entries rows f := by
  obtain ⟨_,hlookup⟩ := located_of_planned hrows names trailer lookupId (by simp [plannedChunks])
  obtain ⟨_,hoffsets⟩ := located_of_planned hrows names trailer offsetsId (by simp [plannedChunks])
  have hnat : (UInt32.ofNat entries.length).toNat=entries.length := by
    exact Nat.mod_eq_of_lt hcount
  have hpos := length_pos_of_ne_nil hentries
  have hlookupSize : (content names entries rows lookupId).length/Index.hashLen=entries.length := by
    rw [content_lookup,table_length id_width,Nat.mul_div_cancel _ (by decide)]
  have hoffsetsSize : (content names entries rows offsetsId).length/entries.length=4+4 := by
    rw [content_offsets,table_length fun row _ => offsetRow_length row,hrows,Nat.mul_div_cancel_left _ hpos]
  have hnonzero : ¬UInt32.ofNat entries.length=0 := by
    intro hzero
    rw [hzero] at hnat
    exact absurd hnat.symm hpos.ne'
  have hend : (fileChunks names entries).highestOffset=some (chunksOfs names entries+planned (plannedChunks names entries)) :=
    highestOffset_located (by simp [plannedChunks]) _
  have htail : sliceFrom (fileData names entries rows trailer) (chunksOfs names entries+planned (plannedChunks names entries)) =
      some trailer := by
    rw [fileData,← append_assoc,← append_assoc]
    refine sliceFrom_append ?_ _
    rw [length_append,length_append,fileHead_length,tableOfContents_length,(content_fits hrows names).contents_length,chunksOfs]
  obtain ⟨_,hopen,hlarge⟩ := largeOffsets_found hrows names trailer
  rw [openTables,hlookup.validatedOffset (show _=some true by rw [hlookupSize,hnat,decide_eq_true rfl]),
    hoffsets.validatedOffset (show _=some true by rw [if_neg hnonzero,hnat,hoffsetsSize,decide_eq_true rfl])]
  simp only [bind,Except.bind,hopen,hend,htail,Option.elim_some,htrailer]
  exact ⟨_,rfl,rfl,hnat,rfl,hlookup.data,hoffsets.data,hlarge⟩

end Files

omit hrows

/-! Reading -/

section Reading
variable {f : File} {e : Entry} {i : ℕ}

variable (hs : Stored names entries rows f)
include hs

theorem Stored.oidAtIndex (he : entries[i]? = some e) :
    f.oidAtIndex i=some e.id := by
  obtain ⟨_,_,hpre,hdata⟩ := hs.ids
  obtain ⟨hi,-⟩ := List.getElem?_eq_some_iff.mp he
  rw [File.oidAtIndex,if_pos (by rw [hs.count]; exact hi),hdata,slice_table id_width he hpre,Option.bind_some,ObjectId.fromBytes_toList]

theorem Stored.packOffset {ofs32 : UInt32} {v : UInt64} (hv : decodeRow (largeTable entries) ofs32=some v) :
    f.packOffset ofs32=some v := by
  rw [File.packOffset]
  rcases hs.largeOffsets with ⟨hofs,htable⟩ | ⟨_,_,hofs,htable,hdata⟩
  · rw [htable,decodeRow_none] at hv
    rw [hofs,hv]
    exact ite_self _
  · rw [htable,decodeRow] at hv
    split at hv
    · rename_i hlarge
      rw [if_pos hlarge,hofs]
      dsimp only
      rw [hdata,slice_table (fun v _ => be64_length v) hv rfl,Option.bind_some,readU64_be64]
    · rename_i hsmall
      rw [if_neg hsmall,hv]

omit hs in
theorem Rows.get (hr : Rows offsets64 entries rows) (he : entries[i]? = some e) :
    ∃ ofs32,rows[i]? = some (e.packIndex,ofs32) ∧ decodeRow offsets64 ofs32=some e.packOffset := by
  obtain ⟨hi,-⟩ := List.getElem?_eq_some_iff.mp he
  obtain ⟨⟨packIndex,ofs32⟩,hrow⟩ : ∃ row,rows[i]? = some row := ⟨_,getElem?_eq_getElem (by rw [hr.length]; exact hi)⟩
  have hmem : (e,packIndex,ofs32)∈entries.zip rows := mem_of_getElem? (getElem?_zip_eq_some.mpr ⟨he,hrow⟩)
  obtain rfl : packIndex=e.packIndex := hr.packIndex _ hmem
  exact ⟨ofs32,hrow,hr.packOffset _ hmem⟩

theorem Stored.packIdAndPackOffsetAtIndex
    (hr : Rows (largeTable entries) entries rows) (he : entries[i]? = some e) :
    f.packIdAndPackOffsetAtIndex i=some (e.packIndex,e.packOffset) := by
  obtain ⟨_,rest,hpre,hdata⟩ := hs.offsets
  obtain ⟨ofs32,hrow,hdecode⟩ := hr.get he
  have hslice := slice_table (fun row _ => offsetRow_length row) hrow hpre rest
  rw [← hdata] at hslice
  have hfirst : slice f.data (f.offsetsOfs+i*(4+4)) 4=some (be32 e.packIndex) := by
    rw [← Nat.add_zero (f.offsetsOfs+i*(4+4)),slice_within hslice (by decide),drop_zero,offsetRow,take_left' (be32_length _)]
  have hsecond : slice f.data (f.offsetsOfs+i*(4+4)+4) 4=some (be32 ofs32) := by
    rw [slice_within hslice (by decide),offsetRow,drop_left' (be32_length _),take_of_length_le (by rw [be32_length])]
  simp [File.packIdAndPackOffsetAtIndex,hfirst,hsecond,readU32_be32,hs.packOffset hdecode,Option.bind_eq_bind]

def Entry.toFile (e : Entry) : FileEntry := ⟨e.id,e.packOffset,e.packIndex⟩

theorem Stored.iter (hr : Rows (largeTable entries) entries rows) : f.iter=some (entries.map Entry.toFile) := by
  have hrange : range f.numObjects.toNat=entries.zipIdx.map Prod.snd := by
    rw [zipIdx_map_snd,hs.count,range_eq_range']
  have hfst : entries.map Entry.toFile=entries.zipIdx.map (fun p => p.1.toFile) := by
    conv_lhs => rw [← zipIdx_map_fst 0 entries]
    rw [map_map]
    rfl
  rw [File.iter,hrange,hfst]
  refine mapM_map fun p hp => ?_
  have he := mk_mem_zipIdx_iff_getElem?.mp hp
  simp only [hs.packIdAndPackOffsetAtIndex hr he,hs.oidAtIndex he]
  rfl

theorem Stored.lookup (hids : Ascending (entries.map Entry.id)) (hlen : entries.length ≤ 2^31) (id : ObjectId) :
    f.lookup id=some ((entries.map Entry.id).idxOf? id) := by
  have hfan : f.fan=fanTable ((entries.map Entry.id).map ObjectId.firstByte) := by
    rw [hs.fan,map_map]
    rfl
  rw [File.lookup,hfan]
  refine lookup_eq hids (by rwa [length_map]) (fun i a ha => ?_) id
  rw [getElem?_map,Option.map_eq_some_iff] at ha
  obtain ⟨_,he,rfl⟩ := ha
  exact hs.oidAtIndex he

end Reading

end Gix.Pack.MultiIndex
