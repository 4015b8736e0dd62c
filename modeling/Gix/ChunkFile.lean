import Gix.ByteCodec
import Gix.FixedTable

/-! # Chunk files

`gix-chunk/src/file/`: a table of contents says where each chunk starts, and the next entry of the
table says where it ends. Errors that are not for the user are panics. -/
namespace Gix.Chunk
open Gix.ByteCodec Gix.FixedTable
open List hiding Vector

abbrev Bytes := List UInt8

abbrev Id := Vector UInt8 4

def sentinel : Id := Vector.replicate 4 0

structure Entry where
  kind : Id
  start : ℕ
  stop : ℕ
deriving DecidableEq,Repr

structure Index where
  chunks : List Entry
deriving DecidableEq,Repr

def entrySize : ℕ := 12

def sizeForEntries (numEntries : ℕ) : ℕ := entrySize*(numEntries+1)

/-! Writing -/

/-- `plan_chunk()`, which must not be called twice for a kind. -/
def Index.planChunk (cf : Index) (chunk : Id) (exactSizeOnDisk : ℕ) : Option Index :=
  if cf.chunks.any (fun e => e.kind = chunk) then none else some ⟨cf.chunks++[⟨chunk,0,exactSizeOnDisk⟩]⟩

/-- The table of contents with the sentinel at its end. -/
def tableOfContents : ℕ → List Entry → Bytes
  | currentOffset, [] => sentinel.toList++beBytes 8 currentOffset
  | currentOffset, e :: chunks => e.kind.toList++(beBytes 8 currentOffset++tableOfContents (currentOffset+e.stop) chunks)

/-- The loop over `next_chunk()`: each chunk is written with the bytes that were planned. -/
def writeChunks (write : Id → Option Bytes) : List Entry → Option Bytes
  | [] => some []
  | e :: chunks => (write e.kind).bind (fun written =>
      if e.stop = written.length then (writeChunks write chunks).map (fun rest => written++rest) else none)

/-- `into_write()` and all chunks after it. -/
def Index.intoWrite (cf : Index) (currentOffset : ℕ) (write : Id → Option Bytes) : Option Bytes :=
  (writeChunks write cf.chunks).map (fun chunks =>
    tableOfContents (currentOffset+sizeForEntries cf.chunks.length) cf.chunks++chunks)

/-! Reading -/

/-- `decode::Error`, and panics. -/
inductive Error
  | earlySentinelValue
  | missingSentinelValue (actual : Id)
  | chunkSizeOutOfBounds (offset fileLength : ℕ)
  | nonIncrementalChunkOffsets
  | duplicateChunk (kind : Id)
  | tocTooSmall (actual expected : ℕ)
  | empty
  | panic
deriving DecidableEq,Repr

def toKind (data : Bytes) : Option Id :=
  if h : (data.take 4).length = 4 then some ⟨(data.take 4).toArray,by simpa using h⟩ else none

def beU64 (data : Bytes) : Option ℕ := (slice data 0 8).map beNat

def fromBytesLoop (dataLen : ℕ) : ℕ → Bytes → List Entry → Except Error (Bytes × List Entry)
  | 0, tocEntry, chunks => .ok (tocEntry,chunks)
  | n+1, tocEntry, chunks => match toKind tocEntry, beU64 (tocEntry.drop 4), beU64 (tocEntry.drop (entrySize+4)) with
    | some kind, some offset, some nextOffset =>
      if kind = sentinel then .error .earlySentinelValue
      else if chunks.any (fun e => e.kind = kind) then .error (.duplicateChunk kind)
      else if dataLen < offset then .error (.chunkSizeOutOfBounds offset dataLen)
      else if dataLen < nextOffset then .error (.chunkSizeOutOfBounds nextOffset dataLen)
      else if nextOffset ≤ offset then .error .nonIncrementalChunkOffsets
      else fromBytesLoop dataLen n (tocEntry.drop entrySize) (chunks++[⟨kind,offset,nextOffset⟩])
    | _, _, _ => .error .panic

def Index.fromBytes (data : Bytes) (tocOffset numChunks : ℕ) : Except Error Index :=
  if numChunks = 0 then .error .empty
  else match sliceFrom data tocOffset with
    | none => .error .panic
    | some tocEntry =>
      let expectedMinSize := (numChunks+1)*entrySize
      if tocEntry.length < expectedMinSize then .error (.tocTooSmall tocEntry.length expectedMinSize)
      else match fromBytesLoop data.length numChunks tocEntry [] with
        | .error e => .error e
        | .ok (tocEntry,chunks) => match toKind tocEntry with
          | none => .error .panic
          | some actual => if actual ≠ sentinel then .error (.missingSentinelValue actual) else .ok ⟨chunks⟩

/-- `offset_by_id()`, with `none` for a kind that is not there. -/
def Index.offsetById (cf : Index) (kind : Id) : Option (ℕ × ℕ) :=
  (cf.chunks.find? (fun e => e.kind = kind)).map (fun e => (e.start,e.stop))

/-- `data_by_id()` -/
def Index.dataById (cf : Index) (data : Bytes) (kind : Id) : Option Bytes :=
  (cf.offsetById kind).bind (fun r => if r.1 ≤ r.2 then slice data r.1 (r.2-r.1) else none)

def Index.highestOffset (cf : Index) : Option ℕ := cf.chunks.getLast?.map Entry.stop

/-! What is written is read again -/

section RoundTrip
variable {data rest : Bytes}

@[simp] theorem kind_length (kind : Id) : kind.toList.length=4 := by simp

theorem toKind_append (kind : Id) (rest : Bytes) : toKind (kind.toList++rest)=some kind := by
  have htake : (kind.toList++rest).take 4=kind.toList := take_left' (kind_length kind)
  rw [toKind,dif_pos (by rw [htake]; exact kind_length kind)]
  congr 1
  apply Vector.toList_inj.mp
  simp

theorem beU64_append {n : ℕ} (hn : n < 2^64) (rest : Bytes) : beU64 (beBytes 8 n++rest)=some n := by
  have hlen : 0+8 ≤ (beBytes 8 n++rest).length := by simp
  rw [beU64,slice,if_pos hlen,drop_zero,take_left' (beBytes_length 8 n),Option.map_some,
    beNat_beBytes (show n < 256^8 from hn)]

theorem tableOfContents_head (offset : ℕ) (chunks : List Entry) : ∃ (kind : Id) (rest : Bytes),
    tableOfContents offset chunks=kind.toList++(beBytes 8 offset++rest) := by
  cases chunks with
  | nil => exact ⟨sentinel,[],by simp [tableOfContents]⟩
  | cons e chunks => exact ⟨e.kind,_,rfl⟩

theorem tableOfContents_length (offset : ℕ) (chunks : List Entry) : (tableOfContents offset chunks).length=sizeForEntries chunks.length := by
  induction chunks generalizing offset with
  | nil => simp [tableOfContents,sizeForEntries,entrySize]
  | cons e chunks ih =>
    simp only [tableOfContents,length_append,kind_length,beBytes_length,ih,sizeForEntries,entrySize,length_cons]
    omega

def located : ℕ → List Entry → List Entry
  | _, [] => []
  | offset, e :: chunks => ⟨e.kind,offset,offset+e.stop⟩ :: located (offset+e.stop) chunks

def planned (chunks : List Entry) : ℕ := (chunks.map Entry.stop).sum

@[simp] theorem planned_cons (e : Entry) (chunks : List Entry) : planned (e::chunks)=e.stop+planned chunks := by simp [planned]

theorem fromBytesLoop_spec {dataLen : ℕ} (hdata : dataLen < 2^64) {chunks done : List Entry} {offset : ℕ} (hsize : ∀ e∈chunks,0 < e.stop)
    (hkind : ∀ e∈chunks,e.kind≠sentinel) (hnodup : ((done++chunks).map Entry.kind).Nodup) (hfit : offset+planned chunks ≤ dataLen)
    (rest : Bytes) :
    fromBytesLoop dataLen chunks.length (tableOfContents offset chunks++rest) done =
      .ok (sentinel.toList++(beBytes 8 (offset+planned chunks)++rest),done++located offset chunks) := by
  induction chunks generalizing offset done with
  | nil => simp [fromBytesLoop,tableOfContents,located,planned]
  | cons e chunks ih =>
    obtain ⟨_,hsize⟩ := forall_mem_cons.mp hsize
    obtain ⟨hne,hkind⟩ := forall_mem_cons.mp hkind
    rw [planned_cons] at hfit
    obtain ⟨kind,tail,htail⟩ := tableOfContents_head (offset+e.stop) chunks
    have htoc : tableOfContents offset (e::chunks)++rest =
        e.kind.toList++(beBytes 8 offset++(tableOfContents (offset+e.stop) chunks++rest)) := by
      simp [tableOfContents]
    have hdrop4 : (tableOfContents offset (e::chunks)++rest).drop 4 =
        beBytes 8 offset++(tableOfContents (offset+e.stop) chunks++rest) := by
      rw [htoc,drop_left' (kind_length _)]
    have hdrop12 : (tableOfContents offset (e::chunks)++rest).drop entrySize=tableOfContents (offset+e.stop) chunks++rest := by
      rw [show entrySize=4+8 from rfl,← drop_drop,hdrop4,drop_left' (beBytes_length 8 _)]
    have hdrop16 : (tableOfContents offset (e::chunks)++rest).drop (entrySize+4)=beBytes 8 (offset+e.stop)++(tail++rest) := by
      rw [← drop_drop,hdrop12,htail,append_assoc,drop_left' (kind_length _),append_assoc]
    have hfresh : done.any (fun c => c.kind=e.kind)=false := by
      rw [map_append,nodup_append] at hnodup
      simp only [any_eq_false,decide_eq_true_eq]
      intro c hc
      exact hnodup.2.2 c.kind (mem_map_of_mem hc) e.kind mem_cons_self
    have hnodup' : (((done++[(⟨e.kind,offset,offset+e.stop⟩ : Entry)])++chunks).map Entry.kind).Nodup := by simpa using hnodup
    have hstep := ih hsize hkind hnodup' (show offset+e.stop+planned chunks ≤ dataLen by omega)
    rw [length_cons,fromBytesLoop,hdrop4,hdrop12,hdrop16,beU64_append (by omega),beU64_append (by omega),htoc,toKind_append]
    dsimp only
    rw [if_neg hne,if_neg (by rw [hfresh]; exact Bool.false_ne_true),if_neg (by omega),if_neg (by omega),if_neg (by omega),hstep,
      Nat.add_assoc,append_assoc]
    rfl

section Contents
variable {content : Id → Bytes} {chunks : List Entry}

/-- The sizes that were planned are those of the contents. -/
def Fits (content : Id → Bytes) (chunks : List Entry) : Prop := ∀ e ∈ chunks, e.stop = (content e.kind).length

def contents (content : Id → Bytes) (chunks : List Entry) : Bytes := chunks.flatMap (fun e => content e.kind)

variable (h : Fits content chunks)
include h

theorem Fits.contents_length : (contents content chunks).length=planned chunks := by
  induction chunks with
  | nil => rfl
  | cons e chunks ih =>
    obtain ⟨he,hes⟩ := forall_mem_cons.mp h
    rw [planned_cons,he,← ih hes,contents,flatMap_cons,length_append]
    rfl

theorem Fits.writeChunks {write : Id → Option Bytes} (hwrite : ∀ e∈chunks,write e.kind=some (content e.kind)) :
    Chunk.writeChunks write chunks=some (contents content chunks) := by
  induction chunks with
  | nil => rfl
  | cons e chunks ih =>
    obtain ⟨he,hes⟩ := forall_mem_cons.mp h
    obtain ⟨hw,hws⟩ := forall_mem_cons.mp hwrite
    rw [Chunk.writeChunks,hw,Option.bind_some,if_pos he,ih hes hws,Option.map_some,contents,contents,flatMap_cons]

theorem Fits.find (hnodup : (chunks.map Entry.kind).Nodup) (pre rest : Bytes) {kind : Id}
    (hkind : kind∈chunks.map Entry.kind) : ∃ pre' rest',pre++(contents content chunks++rest)=pre'++(content kind++rest') ∧
      (⟨located pre.length chunks⟩ : Index).offsetById kind=some (pre'.length,pre'.length+(content kind).length) := by
  induction chunks generalizing pre with
  | nil => simp at hkind
  | cons e chunks ih =>
    obtain ⟨he,hes⟩ := forall_mem_cons.mp h
    obtain ⟨_,hnodup⟩ := nodup_cons.mp hnodup
    by_cases heq : e.kind=kind
    · subst heq
      refine ⟨pre,contents content chunks++rest,by simp [contents],?_⟩
      simp [Index.offsetById,located,he]
    · have hmem : kind∈chunks.map Entry.kind := by
        rcases mem_cons.mp hkind with h0 | h0
        · exact absurd h0.symm heq
        · exact h0
      obtain ⟨pre',rest',hdata,hfind⟩ := ih hes hnodup (pre++content e.kind) hmem
      refine ⟨pre',rest',?_,?_⟩
      · rw [← hdata]
        simp [contents]
      · rw [← hfind,length_append,← he]
        simp [Index.offsetById,located,heq]

omit h in
theorem find_missing {kind : Id} (hkind : kind∉chunks.map Entry.kind) (offset : ℕ) : (⟨located offset chunks⟩ : Index).offsetById kind=none := by
  induction chunks generalizing offset with
  | nil => rfl
  | cons e chunks ih =>
    obtain ⟨hne,hmem⟩ := not_or.mp (mt mem_cons.mpr hkind)
    have ih := ih hmem (offset+e.stop)
    simpa [Index.offsetById,located,Ne.symm hne] using ih

omit h in
theorem highestOffset_located (hne : chunks≠[]) (offset : ℕ) : (⟨located offset chunks⟩ : Index).highestOffset=some (offset+planned chunks) := by
  induction chunks generalizing offset with
  | nil => exact absurd rfl hne
  | cons e chunks ih =>
    cases chunks with
    | nil => simp [Index.highestOffset,located,planned]
    | cons e' chunks =>
      have ih := ih (cons_ne_nil _ _) (offset+e.stop)
      rw [planned_cons,← Nat.add_assoc,← ih]
      simp [Index.highestOffset,located]

/-- A file with a table and chunks behind it is read with all chunks in place. -/
theorem Fits.fromBytes (hne : chunks≠[]) (hpos : ∀ e∈chunks,content e.kind≠[])
    (hkind : ∀ e∈chunks,e.kind≠sentinel) (hnodup : (chunks.map Entry.kind).Nodup) {head rest data : Bytes}
    (hdata : data=head++(tableOfContents (head.length+sizeForEntries chunks.length) chunks++(contents content chunks++rest)))
    (hlen : data.length < 2^64) :
    Index.fromBytes data head.length chunks.length = .ok ⟨located (head.length+sizeForEntries chunks.length) chunks⟩ := by
  have hsize : ∀ e∈chunks,0 < e.stop := by
    intro e he
    rw [h e he]
    exact length_pos_of_ne_nil (hpos e he)
  have hfit : head.length+sizeForEntries chunks.length+planned chunks ≤ data.length := by
    rw [hdata,length_append,length_append,length_append,tableOfContents_length,h.contents_length]
    omega
  have hloop := fromBytesLoop_spec hlen hsize hkind (by simpa using hnodup : (([]++chunks).map Entry.kind).Nodup) hfit
    (contents content chunks++rest)
  have htoc : ¬(tableOfContents (head.length+sizeForEntries chunks.length) chunks++(contents content chunks++rest)).length <
      (chunks.length+1)*entrySize := by
    rw [length_append,tableOfContents_length,sizeForEntries,Nat.mul_comm]
    omega
  have hslice : sliceFrom data head.length=some (tableOfContents (head.length+sizeForEntries chunks.length) chunks++
      (contents content chunks++rest)) := by
    rw [hdata]
    exact sliceFrom_append rfl _
  have hcount : ¬chunks.length=0 := by simpa using hne
  simp only [Index.fromBytes,if_neg hcount,hslice,if_neg htoc,hloop,toKind_append,ne_eq,not_true_eq_false,if_false,nil_append]

omit h in
theorem located_kinds (offset : ℕ) (chunks : List Entry) : (located offset chunks).map Entry.kind=chunks.map Entry.kind := by
  induction chunks generalizing offset with
  | nil => rfl
  | cons e chunks ih => simp [located,ih]

/-- Chunks that have bytes are found again in a file of any header, a table and the chunks. -/
theorem table_round_trip (head : Bytes) (hne : chunks ≠ []) (hpos : ∀ e ∈ chunks, 0 < e.stop) (hkind : ∀ e ∈ chunks, e.kind ≠ sentinel)
    (hnodup : (chunks.map Entry.kind).Nodup) (hlen : head.length+sizeForEntries chunks.length+planned chunks < 2^64) :
    ∃ bytes index, Index.intoWrite ⟨chunks⟩ head.length (fun kind => some (content kind)) = some bytes ∧
      Index.fromBytes (head++bytes) head.length chunks.length = .ok index ∧
      index.chunks.map Entry.kind = chunks.map Entry.kind ∧
      ∀ e ∈ chunks, index.dataById (head++bytes) e.kind = some (content e.kind) := by
  let toc := tableOfContents (head.length+sizeForEntries chunks.length) chunks
  have htoc : (head++toc).length=head.length+sizeForEntries chunks.length := by
    rw [length_append,tableOfContents_length]
  have hwrite : Chunk.writeChunks (fun kind => some (content kind)) chunks=some (contents content chunks) :=
    h.writeChunks fun _ _ => rfl
  have hbytes : ∀ e∈chunks,content e.kind≠[] := fun e he => length_pos_iff.mp (h e he ▸ hpos e he)
  refine ⟨toc++contents content chunks,_,by simp [Index.intoWrite,hwrite,toc],
    h.fromBytes hne hbytes hkind hnodup (congrArg (fun c => head++(toc++c)) (append_nil _).symm) ?_,located_kinds _ _,fun e he => ?_⟩
  · rw [← append_assoc,length_append,htoc,h.contents_length]
    exact hlen
  · obtain ⟨_,_,hdata,hfind⟩ := h.find hnodup (head++toc) [] (mem_map_of_mem he)
    rw [htoc] at hfind
    rw [append_nil,append_assoc] at hdata
    simp [Index.dataById,hfind,hdata,slice]

end Contents

def oneChunk (size : ℕ) : List Entry := [⟨Vector.replicate 4 1,0,size⟩]

/-- Two chunks behind a header of three bytes. -/
theorem table_round_trip_two : ∃ bytes index,
    Index.intoWrite ⟨[⟨Vector.replicate 4 1,0,2⟩,⟨Vector.replicate 4 2,0,1⟩]⟩ 3
        (fun kind => some (if kind = Vector.replicate 4 1 then [7,8] else [9])) = some bytes ∧
      Index.fromBytes ([4,5,6]++bytes) 3 2 = .ok index ∧
      index.dataById ([4,5,6]++bytes) (Vector.replicate 4 1) = some [7,8] ∧
      index.dataById ([4,5,6]++bytes) (Vector.replicate 4 2) = some [9] := by
  have hfits : Fits (fun kind => if kind=Vector.replicate 4 1 then [7,8] else [9])
      [⟨Vector.replicate 4 1,0,2⟩,⟨Vector.replicate 4 2,0,1⟩] := by
    unfold Fits
    decide
  obtain ⟨bytes,index,hwrite,hread,-,hdata⟩ :=
    table_round_trip hfits [4,5,6] (by decide) (by decide) (by decide) (by decide) (by decide)
  exact ⟨bytes,index,hwrite,hread,hdata ⟨Vector.replicate 4 1,0,2⟩ (by decide),hdata ⟨Vector.replicate 4 2,0,1⟩ (by decide)⟩

/-- A chunk without bytes can be written, but not read. -/
theorem empty_chunk_rejected : ∃ bytes, Index.intoWrite ⟨oneChunk 0⟩ 0 (fun _ => some []) = some bytes ∧
    Index.fromBytes bytes 0 1 = .error .nonIncrementalChunkOffsets := ⟨_,rfl,by decide⟩

end RoundTrip
end Gix.Chunk
