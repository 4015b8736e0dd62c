import Gix.MultiIndexFile

/-! # What is written to an index of many packs is read again

The preferred entry of each object is stored, with the names of all indices in order. -/
namespace Gix.Pack.MultiIndex
open Gix.SortedDedup List ObjectId

/-! Preferred entries -/

section Order
variable {a b c : Entry} {entries : List Entry}

/-- What is preferred of two entries for one object. -/
def Entry.Before (a b : Entry) : Prop := b.indexMtime < a.indexMtime ∨ a.indexMtime = b.indexMtime ∧
    a.packIndex ≤ b.packIndex

theorem cmp_isLE : (a.cmp b).isLE=true ↔ a.id.cmp b.id = .lt ∨ a.id=b.id ∧ a.Before b := by
  have hpack : (compare a.packIndex b.packIndex).isLE=true ↔ a.packIndex ≤ b.packIndex := Std.isLE_compare
  unfold Entry.cmp Entry.Before
  cases hid : a.id.cmp b.id with
  | lt => simp
  | gt =>
    have hne : a.id≠b.id := fun h => by
      rw [cmp_eq.mpr h] at hid
      cases hid
    simp [hne]
  | eq =>
    have heq := cmp_eq.mp hid
    rcases lt_trichotomy a.indexMtime b.indexMtime with hm | hm | hm
    · simp [compare_lt_iff_lt.mpr hm,hm.ne,hm.le]
    · simp [hm,heq,hpack]
    · simp [compare_gt_iff_gt.mpr hm,hm,heq]

theorem Before.trans (hab : a.Before b) (hbc : b.Before c) : a.Before c := by
  rcases hab with hab | ⟨hab,hab'⟩
  · rcases hbc with hbc | ⟨hbc,-⟩
    · exact .inl (hbc.trans hab)
    · exact .inl (hbc ▸ hab)
  · rcases hbc with hbc | ⟨hbc,hbc'⟩
    · exact .inl (hab ▸ hbc)
    · exact .inr ⟨hab.trans hbc,UInt32.le_trans hab' hbc'⟩

theorem Before.total (a b : Entry) : a.Before b ∨ b.Before a := by
  rcases lt_trichotomy a.indexMtime b.indexMtime with hm | hm | hm
  · exact .inr (.inl hm)
  · exact (UInt32.le_total a.packIndex b.packIndex).imp (fun h => .inr ⟨hm,h⟩) (fun h => .inr ⟨hm.symm,h⟩)
  · exact .inl (.inl hm)

theorem sorted_pairwise (entries : List Entry) :
    (entries.mergeSort (fun l r => (l.cmp r).isLE)).Pairwise
      (fun a b => a.id.cmp b.id = .lt ∨ a.id=b.id ∧ a.Before b) := by
  have htrans : ∀ a b c : Entry,(a.cmp b).isLE=true → (b.cmp c).isLE=true → (a.cmp c).isLE=true := by
    intro a b c hab hbc
    rw [cmp_isLE] at *
    rcases hab with hab | ⟨hab,hab'⟩
    · rcases hbc with hbc | ⟨hbc,-⟩
      · exact .inl (lt_trans hab hbc)
      · exact .inl (hbc ▸ hab)
    · rcases hbc with hbc | ⟨hbc,hbc'⟩
      · exact .inl (hab ▸ hbc)
      · exact .inr ⟨hab.trans hbc,Before.trans hab' hbc'⟩
  have htotal : ∀ a b : Entry,((a.cmp b).isLE || (b.cmp a).isLE)=true := by
    intro a b
    rw [Bool.or_eq_true,cmp_isLE,cmp_isLE]
    cases hid : a.id.cmp b.id with
    | lt => exact .inl (.inl rfl)
    | gt => exact .inr (.inl (by rw [← cmp_swap,hid]; rfl))
    | eq =>
      have heq := cmp_eq.mp hid
      exact (Before.total a b).imp (fun h => .inr ⟨heq,h⟩) (fun h => .inr ⟨heq.symm,h⟩)
  exact (pairwise_mergeSort htrans htotal entries).imp cmp_isLE.mp

theorem deduplicate_mem (h : a∈deduplicate entries) : a∈entries :=
  (mergeSort_perm _ _).mem_iff.mp (mem_of_mem_dedupByKey h)

theorem deduplicate_ascending (entries : List Entry) : Ascending ((deduplicate entries).map Entry.id) := by
  rw [Ascending,pairwise_map]
  exact dedupByKey_ascending (fun a b => cmp a b = .lt) lt_trans (fun h => h.imp_right And.left)
    (sorted_pairwise entries)

theorem deduplicate_first (hb : b∈entries) : ∃ a∈deduplicate entries,a.id=b.id ∧ (a=b ∨ a.Before b) := by
  obtain ⟨a,ha,hid,hab⟩ := dedupByKey_first Entry.id (sorted_pairwise entries) ((mergeSort_perm _ _).mem_iff.mpr hb)
  refine ⟨a,ha,hid,hab.imp_right ?_⟩
  rintro (hlt | ⟨-,hbefore⟩)
  · rw [cmp_eq.mpr hid] at hlt
    cases hlt
  · exact hbefore

theorem deduplicate_before (ha : a∈deduplicate entries) (hb : b∈entries) (hid : b.id=a.id) : a.Before b := by
  obtain ⟨a',ha',hid',hab⟩ := deduplicate_first hb
  obtain rfl : a'=a := inj_on_of_nodup_map (deduplicate_ascending entries).nodup ha' ha (hid'.trans hid)
  rcases hab with rfl | hab
  · exact .inr ⟨rfl,UInt32.le_refl _⟩
  · exact hab

theorem deduplicate_ids (id : ObjectId) : id∈(deduplicate entries).map Entry.id ↔ id∈entries.map Entry.id := by
  constructor
  · intro h
    obtain ⟨a,ha,rfl⟩ := mem_map.mp h
    exact mem_map_of_mem (deduplicate_mem ha)
  · intro h
    obtain ⟨_,hb,rfl⟩ := mem_map.mp h
    obtain ⟨a,ha,hid,-⟩ := deduplicate_first hb
    exact hid ▸ mem_map_of_mem ha

end Order

/-! Indices -/

section Indices
variable {indices : List IndexFile} {entriesOf : IndexFile → List Index.Entry}

/-- An index that can be opened and has these entries. -/
def IndexFile.Reads (index : IndexFile) (entries : List Index.Entry) : Prop :=
  ∃ f, Index.File.atInner index.data = .ok f ∧ f.iter = some entries

/-- The entry of an index with its place among all indices. -/
def packed (index : IndexFile) (indexId : ℕ) (e : Index.Entry) : Entry :=
    ⟨e.oid,UInt32.ofNat indexId,e.packOffset,index.mtime⟩

/-- The entries of indices that are numbered from `k` on. -/
def collected (entriesOf : IndexFile → List Index.Entry) (k : ℕ) (indices : List IndexFile) : List Entry :=
  (indices.zipIdx k).flatMap (fun p => (entriesOf p.1).map (packed p.1 p.2))

theorem collectEntries_eq (hreads : ∀ index∈indices,index.Reads (entriesOf index)) (k : ℕ) :
    collectEntries k indices = .ok (collected entriesOf k indices) := by
  induction indices generalizing k with
  | nil => rfl
  | cons index indices ih =>
    obtain ⟨⟨_,hopen,hiter⟩,hreads⟩ := forall_mem_cons.mp hreads
    have hindex : indexEntries k index = .ok ((entriesOf index).map (packed index k)) := by
      simp only [indexEntries,hopen,hiter]
      rfl
    simp only [collectEntries,hindex,ih hreads (k+1)]
    rfl

theorem mem_collected {x : Entry} : x∈collected entriesOf 0 indices ↔
    ∃ i index,indices[i]? = some index ∧ ∃ e∈entriesOf index,x=packed index i e := by
  simp only [collected,mem_flatMap,mem_map,Prod.exists,mk_mem_zipIdx_iff_getElem?]
  constructor
  · rintro ⟨index,i,hi,e,he,rfl⟩
    exact ⟨i,index,hi,e,he,rfl⟩
  · rintro ⟨i,index,hi,e,he,rfl⟩
    exact ⟨index,i,hi,e,he,rfl⟩

theorem indexPathsSorted_perm (indices : List IndexFile) : (indexPathsSorted indices).Perm indices :=
    mergeSort_perm _ _

theorem indexPathsSorted_names (hnames : (indices.map IndexFile.name).Nodup) :
    ((indexPathsSorted indices).map IndexFile.name).Pairwise (fun a b => compare a b = .lt) :=
  SortedDedup.pairwise_lt_mergeSort hnames

/-- The entry is that of the index that was modified last, and of these the one whose name comes first. -/
def Preferred (indices : List IndexFile) (entriesOf : IndexFile → List Index.Entry) (names : List Bytes)
    (e : FileEntry) : Prop :=
  ∃ index ∈ indices, names[e.packIndex.toNat]? = some index.name ∧
    (∃ x ∈ entriesOf index, x.oid = e.oid ∧ x.packOffset = e.packOffset) ∧
    ∀ other ∈ indices, e.oid ∈ (entriesOf other).map Index.Entry.oid →
      other.mtime < index.mtime ∨ other.mtime = index.mtime ∧ ∀ k, names[k]? = some other.name →
        e.packIndex.toNat ≤ k

theorem preferred_of_mem (hcount : indices.length < 2^32) (hnames : (indices.map IndexFile.name).Nodup) {e : Entry}
    (he : e∈deduplicate (collected entriesOf 0 indices)) : Preferred indices entriesOf
      (indices.map IndexFile.name) e.toFile := by
  obtain ⟨i,index,hi,x,hx,rfl⟩ := mem_collected.mp (deduplicate_mem he)
  have hlt : i < 2^32 := lt_trans (List.getElem?_eq_some_iff.mp hi).1 hcount
  have hnat : ∀ {j : ℕ},j < 2^32 → (UInt32.ofNat j).toNat=j := by
    intro j hj
    exact Nat.mod_eq_of_lt hj
  refine ⟨index,mem_of_getElem? hi,?_,⟨x,hx,rfl,rfl⟩,?_⟩
  · change (indices.map IndexFile.name)[(UInt32.ofNat i).toNat]? = _
    rw [hnat hlt,getElem?_map,hi]
    rfl
  · intro other hother hoid
    obtain ⟨y,hy,hyid⟩ := mem_map.mp hoid
    obtain ⟨j,hj⟩ := getElem?_of_mem hother
    have hbefore := deduplicate_before he (mem_collected.mpr ⟨j,other,hj,y,hy,rfl⟩) hyid
    refine hbefore.imp_right fun ⟨htime,hpack⟩ => ⟨htime.symm,fun k hk => ?_⟩
    have hjlt := (List.getElem?_eq_some_iff.mp hj).1
    obtain ⟨_,hkname⟩ := List.getElem?_eq_some_iff.mp hk
    have hjname : (indices.map IndexFile.name)[j]? = some other.name := by rw [getElem?_map,hj]; rfl
    obtain ⟨_,hjname⟩ := List.getElem?_eq_some_iff.mp hjname
    obtain rfl : k=j := (hnames.getElem_inj_iff).mp (hkname.trans hjname.symm)
    have hle := UInt32.le_iff_toNat_le.mp hpack
    change (UInt32.ofNat i).toNat ≤ (UInt32.ofNat k).toNat at hle
    rwa [hnat (hjlt.trans hcount)] at hle

def preferredEntries (entriesOf : IndexFile → List Index.Entry) (indices : List IndexFile) : List Entry :=
  deduplicate (collected entriesOf 0 (indexPathsSorted indices))

theorem preferredEntries_ids {id : ObjectId} : id∈(preferredEntries entriesOf indices).map Entry.id ↔
    ∃ index∈indices,id∈(entriesOf index).map Index.Entry.oid := by
  rw [preferredEntries,deduplicate_ids]
  constructor
  · intro h
    obtain ⟨_,hx,rfl⟩ := mem_map.mp h
    obtain ⟨i,index,hi,e,he,rfl⟩ := mem_collected.mp hx
    exact ⟨index,(indexPathsSorted_perm indices).mem_iff.mp (mem_of_getElem? hi),mem_map_of_mem he⟩
  · rintro ⟨index,hindex,hid⟩
    obtain ⟨e,he,rfl⟩ := mem_map.mp hid
    obtain ⟨i,hi⟩ := getElem?_of_mem ((indexPathsSorted_perm indices).mem_iff.mpr hindex)
    exact mem_map.mpr ⟨packed index i e,mem_collected.mpr ⟨i,index,hi,e,he,rfl⟩,rfl⟩

theorem writeNames_length_le (names : List Bytes) : (writeNames names).length ≤
    (names.map (fun name => name.length+1)).sum+3 := by
  rw [writeNames,length_append,length_replicate,names_length,namesPadding]
  split <;> omega

theorem fileData_small {names : List Bytes} {entries : List Entry} {rows : List (UInt32 × UInt32)} {trailer : Bytes}
    (hrows : rows.length=entries.length) (htrailer : trailer.length=Index.hashLen)
      (hsize : (names.map (fun name => name.length+1)).sum < 2^63)
    (hmany : entries.length ≤ 2^32) : (fileData names entries rows trailer).length < 2^64 := by
  have hnames := writeNames_length_le names
  have hlarge : (largeOffsets entries).length ≤ entries.length := by
    rw [largeOffsets,length_map]
    exact length_filter_le _ _
  rw [fileData_length hrows htrailer,chunksOfs]
  rcases numLargeOffsets_eq entries with ⟨hnone,-⟩ | ⟨hsome,-⟩
  · simp [plannedChunks,hnone,Chunk.planned,Chunk.sizeForEntries,Chunk.entrySize,headerLen,Index.hashLen]
    omega
  · simp [plannedChunks,hsome,Chunk.planned,Chunk.sizeForEntries,Chunk.entrySize,headerLen,Index.hashLen]
    omega

/-- What is written, and what opening it does up to its tables. -/
theorem writeFromIndexPaths_spec (hash : Bytes → ObjectId) (hreads : ∀ index∈indices,index.Reads (entriesOf index))
    (hnames : (indices.map IndexFile.name).Nodup) (hascii : ∀ index∈indices,∀ b∈index.name,0 < b ∧ b < 128)
    (hcount : indices.length < 2^32) (hsize : (indices.map (fun index => index.name.length+1)).sum < 2^63)
    (hsome : ∃ index∈indices,entriesOf index≠[]) (hmany : (preferredEntries entriesOf indices).length ≤ 2^32)
    (hfew : (preferredEntries entriesOf indices).countP Entry.isLarge ≤ 2^31) : ∃ rows trailer,
    writeFromIndexPaths hash indices = .ok (fileData ((indexPathsSorted indices).map IndexFile.name)
      (preferredEntries entriesOf indices) rows trailer) ∧
    trailer.length=Index.hashLen ∧ Rows (largeTable (preferredEntries entriesOf indices))
      (preferredEntries entriesOf indices) rows ∧
    preferredEntries entriesOf indices≠[] ∧
    File.tryFrom (fileData ((indexPathsSorted indices).map IndexFile.name)
      (preferredEntries entriesOf indices) rows trailer) =
      openTables (fileData ((indexPathsSorted indices).map IndexFile.name)
        (preferredEntries entriesOf indices) rows trailer)
        (UInt32.ofNat ((indexPathsSorted indices).map IndexFile.name).length)
          (fileChunks ((indexPathsSorted indices).map IndexFile.name) (preferredEntries entriesOf indices))
        ((indexPathsSorted indices).map IndexFile.name)
          (fanTable ((preferredEntries entriesOf indices).map (fun e => e.id.firstByte)))
        (UInt32.ofNat (preferredEntries entriesOf indices).length) := by
  have hperm := indexPathsSorted_perm indices
  have hbytes : ∀ name∈(indexPathsSorted indices).map IndexFile.name,∀ b∈name,0 < b ∧ b < 128 := by
    intro name hname
    obtain ⟨index,hindex,rfl⟩ := mem_map.mp hname
    exact hascii index (hperm.mem_iff.mp hindex)
  have hnul : ∀ name∈(indexPathsSorted indices).map IndexFile.name,(0 : UInt8)∉name :=
    fun name hname hzero => absurd (hbytes name hname 0 hzero).1 (by decide)
  have hlen : ((indexPathsSorted indices).map IndexFile.name).length < 2^32 := by rwa [length_map,hperm.length_eq]
  have hsum : (((indexPathsSorted indices).map IndexFile.name).map (fun name => name.length+1)).sum < 2^63 := by
    rw [map_map]
    exact lt_of_eq_of_lt (hperm.map _).sum_eq hsize
  obtain ⟨index,hindex,hfull⟩ := hsome
  have hne : indices≠[] := ne_nil_of_mem hindex
  have hnames' : (indexPathsSorted indices).map IndexFile.name≠[] := by
    intro hnil
    exact hne (map_eq_nil_iff.mp hnil ▸ hperm).nil_eq.symm
  have hentries : preferredEntries entriesOf indices≠[] := by
    obtain ⟨e,he⟩ := exists_mem_of_ne_nil _ hfull
    have := preferredEntries_ids.mpr ⟨index,hindex,mem_map_of_mem he⟩
    intro hnil
    rw [hnil] at this
    exact absurd this not_mem_nil
  obtain ⟨rows,hrun,hrows⟩ := offsetRows_spec hfew
  obtain ⟨trailer,htrailer,hwrite⟩ := writeFile_eq hrows.length hash
    (fun name hname b hb => (hbytes name hname b hb).2) (deduplicate_ascending _) hrun
  refine ⟨rows,trailer,?_,htrailer,hrows,hentries,?_⟩
  · have hcollect := collectEntries_eq (fun index hindex => hreads index (hperm.mem_iff.mp hindex)) 0
    rw [preferredEntries] at hwrite
    simp [writeFromIndexPaths,hcollect,hwrite,preferredEntries]
  · rw [tryFrom_eq hrows.length hnames' hentries htrailer (fileData_small hrows.length htrailer hsum hmany),
      openChunks_eq hrows.length hnul (indexPathsSorted_names hnames) hlen]

/-- What is written with the entries of indices is opened with the names in order, and with the preferred entry of
each object. -/
theorem multi_index_round_trip (hash : Bytes → ObjectId) (indices : List IndexFile)
    (entriesOf : IndexFile → List Index.Entry)
    (hreads : ∀ index ∈ indices, index.Reads (entriesOf index)) (hnames : (indices.map IndexFile.name).Nodup)
    (hascii : ∀ index ∈ indices, ∀ b ∈ index.name, 0 < b ∧ b < 128) (hcount : indices.length < 2^32)
    (hsize : (indices.map (fun index => index.name.length+1)).sum < 2^63)
      (hsome : ∃ index ∈ indices, entriesOf index ≠ [])
    (hfew : (indices.flatMap (fun index => (entriesOf index).map Index.Entry.oid)).dedup.length ≤ 2^31) :
    ∃ bytes f entries, writeFromIndexPaths hash indices = .ok bytes ∧ File.tryFrom bytes = .ok f ∧
      f.indexNames.Perm (indices.map IndexFile.name) ∧ f.indexNames.Pairwise (fun a b => compare a b = .lt) ∧
      f.iter = some entries ∧ Ascending (entries.map FileEntry.oid) ∧
      (∀ id, id ∈ entries.map FileEntry.oid ↔ ∃ index ∈ indices, id ∈ (entriesOf index).map Index.Entry.oid) ∧
      (∀ e ∈ entries, Preferred indices entriesOf f.indexNames e) ∧
      ∀ id, f.lookup id = some ((entries.map FileEntry.oid).idxOf? id) := by
  have hoids : ((preferredEntries entriesOf indices).map Entry.toFile).map FileEntry.oid =
      (preferredEntries entriesOf indices).map Entry.id := by
    rw [map_map]
    rfl
  have hids : Ascending ((preferredEntries entriesOf indices).map Entry.id) := deduplicate_ascending _
  have hlen : (preferredEntries entriesOf indices).length ≤ 2^31 := by
    refine le_trans ?_ hfew
    rw [← length_map Entry.id]
    refine (hids.nodup.subperm fun id hid => ?_).length_le
    obtain ⟨index,hindex,hmem⟩ := preferredEntries_ids.mp hid
    exact mem_dedup.mpr (mem_flatMap.mpr ⟨index,hindex,hmem⟩)
  obtain ⟨_,_,hwrite,htrailer,hrows,hentries,hopen⟩ :=
    writeFromIndexPaths_spec hash hreads hnames hascii hcount hsize hsome
    (by omega) (le_trans countP_le_length hlen)
  obtain ⟨f,hf,hs⟩ := openTables_spec hrows.length hentries (by omega) htrailer
    (UInt32.ofNat ((indexPathsSorted indices).map IndexFile.name).length)
  refine ⟨_,f,_,hwrite,hopen.trans hf,?_,?_,hs.iter hrows,?_,?_,?_,?_⟩
  · rw [hs.indexNames]
    exact (indexPathsSorted_perm indices).map _
  · rw [hs.indexNames]
    exact indexPathsSorted_names hnames
  · rw [hoids]
    exact hids
  · intro id
    rw [hoids]
    exact preferredEntries_ids
  · intro e he
    obtain ⟨e,hmem,rfl⟩ := mem_map.mp he
    rw [hs.indexNames]
    have hperm := indexPathsSorted_perm indices
    obtain ⟨index,hindex,hname,hentry,hothers⟩ :=
      preferred_of_mem (show (indexPathsSorted indices).length < 2^32 by rwa [hperm.length_eq])
      ((hperm.map _).nodup_iff.mpr hnames) hmem
    exact ⟨index,hperm.mem_iff.mp hindex,hname,hentry,fun other hother => hothers other (hperm.mem_iff.mpr hother)⟩
  · intro id
    rw [hoids]
    exact hs.lookup hids hlen id

/-- Entries for the objects with numbers from `start` on. -/
def numberedEntries (start n : ℕ) : List Index.TreeEntry :=
    (List.range' start n).map (fun i => ⟨12,Index.numbered i,0⟩)

theorem numberedEntries_ids (start n : ℕ) : (numberedEntries start n).map Index.TreeEntry.id =
    (List.range' start n).map Index.numbered := by
  rw [numberedEntries,map_map]
  rfl

theorem numbered_ascending {start n : ℕ} (hn : start+n ≤ 256^20) : Ascending
    ((List.range' start n).map Index.numbered) := by
  rw [Ascending,pairwise_map]
  refine List.Pairwise.imp_of_mem (fun {a b} _ hb hab => ?_) pairwise_lt_range'
  have hb := (mem_range'_1.mp hb).2
  exact Index.numbered_cmp hab (by omega)

theorem numberedEntries_read {start n : ℕ} (hn : start+n ≤ 256^20) (hlen : n < 2^32) : ∃ data,∀ name modified,
    IndexFile.Reads ⟨name,modified,data⟩ ((numberedEntries start n).map
      (fun e => ⟨e.id,e.offset,some e.crc32⟩)) := by
  have hsmall : (numberedEntries start n).countP Index.TreeEntry.isLarge=0 := by
    refine countP_eq_zero.mpr fun e he => ?_
    obtain ⟨_,-,rfl⟩ := mem_map.mp he
    exact Bool.false_ne_true
  obtain ⟨data,f,_,-,hopen,hs⟩ := Index.writeTo_spec (fun _ => .null) .null
    (show Ascending ((numberedEntries start n).map Index.TreeEntry.id) by
      rw [numberedEntries_ids]; exact numbered_ascending hn)
    (by rwa [numberedEntries,length_map,length_range']) (by rw [hsmall]; exact Nat.zero_le _)
  exact ⟨data,fun name modified => ⟨f,hopen,hs.iter⟩⟩

/-- Two indices with `n` objects each, the second one with those from `k` on. -/
def twoIndices (a b : Bytes) : List IndexFile := [⟨[98],some 7,b⟩,⟨[97],some 8,a⟩]

def twoEntries (n k : ℕ) (index : IndexFile) : List Index.Entry :=
  (numberedEntries (if index.name = [97] then 0 else k) n).map (fun e => ⟨e.id,e.offset,some e.crc32⟩)

theorem twoIndices_read {n k : ℕ} (hn : n < 2^32) (hk : k < 2^32) :
    ∃ a b,∀ index∈twoIndices a b,index.Reads (twoEntries n k index) := by
  obtain ⟨a,ha⟩ := numberedEntries_read (show 0+n ≤ 256^20 by omega) hn
  obtain ⟨b,hb⟩ := numberedEntries_read (show k+n ≤ 256^20 by omega) hn
  refine ⟨a,b,?_⟩
  rw [twoIndices,forall_mem_cons,forall_mem_singleton]
  exact ⟨hb _ _,ha _ _⟩

theorem twoIndices_valid (a b : Bytes) : ((twoIndices a b).map IndexFile.name).Nodup ∧
    (∀ index∈twoIndices a b,∀ b∈index.name,0 < b ∧ b < 128) ∧ (twoIndices a b).length < 2^32 ∧
    ((twoIndices a b).map (fun index => index.name.length+1)).sum < 2^63 :=
  ⟨by simp [twoIndices],by simp [twoIndices],by simp [twoIndices],by simp [twoIndices]⟩

theorem twoEntries_nonempty (a b : Bytes) {n k : ℕ} (hn : 0 < n) : ∃ index∈twoIndices a b,
    twoEntries n k index≠[] := by
  refine ⟨_,mem_cons_self,ne_nil_of_length_pos ?_⟩
  rwa [twoEntries,length_map,numberedEntries,length_map,length_range']

theorem multi_index_round_trip_two : ∃ a b, (∀ index ∈ twoIndices a b, index.Reads (twoEntries 2 1 index)) ∧
    ∃ bytes f entries, writeFromIndexPaths (fun _ => .null) (twoIndices a b) = .ok bytes ∧
      File.tryFrom bytes = .ok f ∧
      f.indexNames.Perm [[98],[97]] ∧ f.indexNames.Pairwise (fun a b => compare a b = .lt) ∧
      f.iter = some entries ∧ Ascending (entries.map FileEntry.oid) ∧
      (∀ id, id ∈ entries.map FileEntry.oid ↔ ∃ index ∈ twoIndices a b, id ∈
        (twoEntries 2 1 index).map Index.Entry.oid) ∧
      (∀ e ∈ entries, Preferred (twoIndices a b) (twoEntries 2 1) f.indexNames e) ∧
      ∀ id, f.lookup id = some ((entries.map FileEntry.oid).idxOf? id) := by
  obtain ⟨a,b,hreads⟩ := twoIndices_read (show 2 < 2^32 by decide) (show 1 < 2^32 by decide)
  obtain ⟨hnames,hascii,hcount,hsize⟩ := twoIndices_valid a b
  refine ⟨a,b,hreads,multi_index_round_trip (fun _ => .null) (twoIndices a b)
    (twoEntries 2 1) hreads hnames hascii hcount hsize
    (twoEntries_nonempty a b (by decide)) (le_trans (dedup_sublist _).length_le ?_)⟩
  simp [twoIndices,twoEntries,numberedEntries]

/-- With as many objects as this, what is written can't be opened. -/
theorem twoIndices_fail {n : ℕ} (hn : n=2^31) (a b : Bytes)
    (hreads : ∀ index∈twoIndices a b,index.Reads (twoEntries n n index)) :
    ∃ bytes,writeFromIndexPaths (fun _ => .null) (twoIndices a b) = .ok bytes ∧ File.tryFrom bytes =
      .error (.invalidChunkSize lookupId
        "The chunk with alphabetically ordered object ids doesn't have the correct size") := by
  have hoids : ∀ index,(twoEntries n n index).map Index.Entry.oid =
      (range' (if index.name=[97] then 0 else n) n).map Index.numbered := by
    intro index
    rw [twoEntries,map_map,← numberedEntries_ids]
    rfl
  have hids : ((preferredEntries (twoEntries n n) (twoIndices a b)).map Entry.id).Perm
    ((range' 0 (n+n)).map Index.numbered) := by
    refine (perm_ext_iff_of_nodup (deduplicate_ascending _).nodup
      (numbered_ascending (by omega)).nodup).mpr fun id => ?_
    rw [← range'_append_1,Nat.zero_add,map_append,mem_append]
    refine preferredEntries_ids.trans ?_
    simp only [hoids,twoIndices,mem_cons,not_mem_nil,or_false,exists_eq_or_imp,exists_eq_left]
    exact or_comm
  have hlen : (preferredEntries (twoEntries n n) (twoIndices a b)).length=n+n := by
    have := hids.length_eq
    rwa [length_map,length_map,length_range'] at this
  have hsmall : (preferredEntries (twoEntries n n) (twoIndices a b)).countP Entry.isLarge=0 := by
    refine countP_eq_zero.mpr fun e he => ?_
    obtain ⟨_,index,-,_,hx,rfl⟩ := mem_collected.mp (deduplicate_mem he)
    obtain ⟨_,hy,rfl⟩ := mem_map.mp hx
    obtain ⟨_,-,rfl⟩ := mem_map.mp hy
    exact Bool.false_ne_true
  obtain ⟨hnames,hascii,hcount,hsize⟩ := twoIndices_valid a b
  obtain ⟨_,_,hwrite,_,hrows,-,hopen⟩ := writeFromIndexPaths_spec (fun _ => .null) hreads hnames hascii hcount hsize
    (twoEntries_nonempty a b (by omega)) (by omega) (by omega)
  exact ⟨_,hwrite,hopen.trans (openTables_fails hrows.length (by omega) _ _)⟩

/-- Two indices with 2^31 objects each have too many together. -/
theorem too_many_objects : ∃ (indices : List IndexFile) (entriesOf : IndexFile → List Index.Entry),
    (∀ index ∈ indices, index.Reads (entriesOf index)) ∧
    indices.length = 2 ∧ (indices.map IndexFile.name).Nodup ∧
      (∀ index ∈ indices, ∀ b ∈ index.name, 0 < b ∧ b < 128) ∧ (∃ index ∈ indices, entriesOf index ≠ []) ∧
    ∃ bytes e, writeFromIndexPaths (fun _ => .null) indices = .ok bytes ∧ File.tryFrom bytes = .error e := by
  obtain ⟨n,hn⟩ : ∃ n, n=2^31 := ⟨_,rfl⟩
  obtain ⟨a,b,hreads⟩ := twoIndices_read (show n < 2^32 by omega) (show n < 2^32 by omega)
  obtain ⟨hnames,hascii,-,-⟩ := twoIndices_valid a b
  obtain ⟨bytes,hwrite,hopen⟩ := twoIndices_fail hn a b hreads
  exact ⟨twoIndices a b,twoEntries n n,hreads,rfl,hnames,hascii,twoEntries_nonempty a b (by omega),bytes,_,hwrite,
    hopen⟩

end Indices
end Gix.Pack.MultiIndex
