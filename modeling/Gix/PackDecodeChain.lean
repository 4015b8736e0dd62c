import Gix.PackChain

/-! # Decoding a chain

The deltas are where they are expected in the buffer once they are decompressed. They stay intact
when they are moved and when the base is written in front of them, and while they are applied the
source buffer starts with the latest object. -/
namespace Gix.Pack.Decode
open List FixedTable Layer
variable {f : File} {env : Env} {resolve : Resolve} {layers : List Layer} {base object : Bytes} {out : Bytes}

/-! Buffers -/

theorem resize_length (out : Bytes) (size : ℕ) : (resize out size).length=size := by
  rw [resize,length_append,length_take,length_replicate]
  omega

theorem resize_take {size n : ℕ} (hn : n ≤ size) (hout : n ≤ out.length) : (resize out size).take n=out.take n := by
  rw [resize,take_append_of_le_length (by rw [length_take]; omega),take_take,Nat.min_eq_left hn]

theorem overwrite_eq {written : Bytes} (h : written.length ≤ out.length) : overwrite out written=written++out.drop written.length := by
  rw [overwrite,take_of_length_le h]

theorem tryReserve_eq {size : ℕ} (h : size ≤ env.memory) (out : Bytes) : env.tryReserve out size = .ok () := by
  rw [Env.tryReserve,if_pos (Or.inr h)]

theorem slice_zero {l : Bytes} {n : ℕ} (h : n ≤ l.length) : slice l 0 n=some (l.take n) := by
  rw [slice,if_pos (by omega),drop_zero]

theorem range_append {before : Bytes} {start stop : ℕ} (piece after : Bytes) (hstart : before.length=start) (hstop : start+piece.length=stop) :
    range (before++(piece++after)) start stop=some piece := by
  subst hstart
  subst hstop
  rw [range,if_pos (Nat.le_add_right _ _),Nat.add_sub_cancel_left,slice,
    if_pos (by simp only [length_append]; omega),drop_left,take_left]

theorem Streams.decompress {offset : ℕ} {data : Bytes} (h : Streams f env offset data) (out : Bytes) : ∃ consumed,
    f.decompressEntryFromDataOffset env offset out = .ok (consumed,(data.take out.length).length,overwrite out (data.take out.length)) := by
  obtain ⟨consumed,hinflate⟩ := h.inflate out.length
  exact ⟨consumed,by rw [File.decompressEntryFromDataOffset,if_pos h.inBounds,hinflate]⟩

/-! Decompressed deltas -/

def Layer.pending (l : Layer) : ChainDelta := ⟨(0,l.delta.length),0,0,l.delta.length,l.dataOffset⟩

/-- The deltas with their instructions, the first of them at the given position. -/
def decoded (start : ℕ) : List Layer → List ChainDelta
  | [] => []
  | l :: layers =>
    ⟨(start+(l.baseField.length+l.resultField.length),start+l.delta.length),l.baseSize,l.resultSize,l.delta.length,l.dataOffset⟩ ::
      decoded (start+l.delta.length) layers

def joined (layers : List Layer) : Bytes := layers.flatMap Layer.delta

theorem joined_length (layers : List Layer) : (joined layers).length=deltaSize layers := by
  induction layers with
  | nil => rfl
  | cons l layers ih =>
    rw [joined,flatMap_cons,length_append]
    exact congrArg _ ih

theorem biggestResultSize_decoded (start : ℕ) (layers : List Layer) : biggestResultSize (decoded start layers)=biggest layers := by
  induction layers generalizing start with
  | nil => rfl
  | cons l layers ih => rw [decoded,biggestResultSize,ih,biggest]

structure Layer.Sized (l : Layer) : Prop where
  base : IsSize l.baseField l.baseSize
  result : IsSize l.resultField l.resultSize

theorem Layer.Applies.sized {l : Layer} {result : Bytes} (h : l.Applies base result) :
    l.Sized ∧ l.baseSize=base.length ∧ l.resultSize=result.length := by
  have hbase : l.baseSize=base.length := h.sizeOfBase.value
  have hresult : l.resultSize=result.length := h.sizeOfResult.value
  exact ⟨⟨hbase ▸ h.sizeOfBase,hresult ▸ h.sizeOfResult⟩,hbase,hresult⟩

variable (h : Composes base layers object)
include h

theorem Composes.sized : ∀ l∈layers,l.Sized := by
  induction layers generalizing base with
  | nil => simp
  | cons l layers ih =>
    obtain ⟨_,hl,hnext⟩ := h
    exact forall_mem_cons.mpr ⟨hl.sized.1,ih hnext⟩

theorem Composes.base_le (hne : layers≠[]) : base.length ≤ biggest layers := by
  cases layers with
  | nil => exact absurd rfl hne
  | cons l layers =>
    obtain ⟨_,hl,-⟩ := h
    rw [biggest,← hl.sized.2.1]
    omega

theorem Composes.last (hne : layers≠[]) (start : ℕ) :
    (decoded start layers).getLast?.map ChainDelta.resultSize=some object.length := by
  induction layers generalizing base start with
  | nil => exact absurd rfl hne
  | cons l layers ih =>
    obtain ⟨_,hl,hnext⟩ := h
    cases layers with
    | nil =>
      obtain rfl := hnext
      simp [decoded,hl.sized.2.2]
    | cons l' layers =>
      have := ih hnext (by simp) (start+l.delta.length)
      simpa only [decoded,getLast?_cons_cons] using this

omit h in
theorem readDeltas_eq (hstreams : ∀ l∈layers,Streams f env l.dataOffset l.delta) (hsized : ∀ l∈layers,l.Sized)
    (hbiggest : biggest layers < 2^64) (start : ℕ) (instructions : Bytes) (hlen : instructions.length=deltaSize layers) : ∃ consumed,
    f.readDeltas env (layers.map pending) start instructions = .ok (decoded start layers,consumed,joined layers) ∧
      (layers≠[] → consumed.isSome) := by
  induction layers generalizing start instructions with
  | nil =>
    obtain rfl : instructions=[] := length_eq_zero_iff.mp hlen
    exact ⟨none,rfl,by simp⟩
  | cons l layers ih =>
    rw [forall_mem_cons] at hstreams hsized
    rw [deltaSize] at hlen
    rw [biggest] at hbiggest
    have hown : l.delta.length ≤ instructions.length := by omega
    obtain ⟨consumed,hread⟩ := hstreams.1.decompress (instructions.take l.delta.length)
    rw [length_take_of_le hown,take_length,overwrite_eq (by rw [length_take_of_le hown]),
      drop_eq_nil_of_le (by rw [length_take_of_le hown]),append_nil] at hread
    obtain ⟨consumed',hrest,hsome⟩ := ih hstreams.2 hsized.2 (by omega) (start+l.delta.length)
      (instructions.drop l.delta.length) (by rw [length_drop]; omega)
    have hbase := hsized.1.base.decode (by omega) false (l.resultField++(l.instructions++instructions.drop l.delta.length))
    have hresult := hsized.1.result.decode (by omega) false (l.instructions++instructions.drop l.delta.length)
    have hdelta : l.delta++instructions.drop l.delta.length =
        l.baseField++(l.resultField++(l.instructions++instructions.drop l.delta.length)) := by simp [delta]
    refine ⟨if (layers.map pending).isEmpty then some consumed else consumed',?_,fun _ => ?_⟩
    · rw [map_cons,File.readDeltas]
      simp only [pending,slice_zero hown,orPanic,hread,hdelta,hbase,sliceFrom_append rfl,hresult,bind,Except.bind]
      rw [hrest]
      rfl
    · cases layers with
      | nil => rfl
      | cons l' layers => simpa using hsome (by simp)

/-! Applied deltas -/

theorem applyDeltas_eq (before source target : Bytes) (hsource : source.take base.length=base)
    (hbiggest : biggest layers ≤ source.length) (htarget : target.length=source.length) : ∃ source' target',
    applyDeltas (before++joined layers) (decoded before.length layers) source target = .ok (source',target') ∧
      source'.take object.length=object ∧ source'.length=source.length ∧ target'.length=source.length := by
  induction layers generalizing base before source target with
  | nil =>
    obtain rfl := h
    exact ⟨source,target,rfl,hsource,rfl,htarget⟩
  | cons l layers ih =>
    obtain ⟨next,hl,hnext⟩ := h
    obtain ⟨-,hbase,hresult⟩ := hl.sized
    rw [biggest] at hbiggest
    have hdata : range (before++joined (l::layers)) (before.length+(l.baseField.length+l.resultField.length)) (before.length+l.delta.length) =
        some l.instructions := by
      rw [joined,flatMap_cons,delta,show before++(l.baseField++l.resultField++l.instructions++layers.flatMap delta) =
        before++(l.baseField++l.resultField)++(l.instructions++layers.flatMap delta) by simp]
      exact range_append _ _ (by simp) (by simp [Nat.add_assoc])
    obtain ⟨source',target',happly,hobject,hlen,hlen'⟩ := ih hnext (before++l.delta) (next++target.drop next.length) source
      take_left (by rw [length_append,length_drop]; omega) (by rw [length_append,length_drop]; omega)
    rw [length_append,length_drop,show next.length+(target.length-next.length)=source.length by omega] at hlen hlen'
    refine ⟨source',target',?_,hobject,hlen,hlen'⟩
    rw [length_append,append_assoc] at happly
    rw [decoded,applyDeltas]
    simp only [hdata,hbase,hresult,slice_zero (show base.length ≤ source.length by omega),
      slice_zero (show next.length ≤ target.length by omega),hsource,hl.apply,orPanic,bind,Except.bind]
    exact happly

theorem applyChain_eq (hne : layers≠[]) {buffers : Bytes} (hbase : buffers.take base.length=base)
    (hlen : buffers.length=biggest layers+biggest layers) :
    applyChain (buffers++joined layers) (decoded 0 layers) (biggest layers) (biggest layers+biggest layers) = .ok (object.length,object) := by
  have hle := h.base_le hne
  have hfirst : (buffers.take (biggest layers)).length=biggest layers := length_take_of_le (by omega)
  obtain ⟨source,target,happly,hobject,_,_⟩ := applyDeltas_eq h [] (buffers.take (biggest layers))
    (buffers.drop (biggest layers)) (by rw [take_take,Nat.min_eq_left hle,hbase]) (by rw [hfirst])
    (by rw [length_drop]; omega)
  rw [nil_append,length_nil] at happly
  have hroom : object.length ≤ source.length := by
    rw [← hobject,length_take]
    exact Nat.min_le_right _ _
  rw [applyChain]
  simp only [slice_zero (show biggest layers+biggest layers ≤ (buffers++joined layers).length by rw [length_append]; omega),
    take_left' hlen,drop_left' hlen,slice_zero (show biggest layers ≤ buffers.length by omega),orPanic,happly,h.last hne 0,
    bind,Except.bind]
  -- Either buffer starts with the object in the end.
  split
  · simp [slice_zero hroom,slice_zero (show object.length ≤ target.length by omega),hobject,pure,Except.pure]
  · simp only [pure,Except.pure]
    rw [append_assoc,take_append_of_le_length hroom,hobject]

omit h

/-! The whole buffer -/

theorem rescue_eq (front : Bytes) (secondBufferEnd : ℕ) (h : front.length < secondBufferEnd) (bytes : Bytes) : ∃ buffers,
    rescue (resize (front++bytes) (secondBufferEnd+bytes.length)) front.length (front.length+bytes.length) secondBufferEnd = .ok (buffers++bytes) ∧
      buffers.length=secondBufferEnd ∧ buffers.take front.length=front := by
  have hlen := resize_length (front++bytes) (secondBufferEnd+bytes.length)
  have hpiece : range (resize (front++bytes) (secondBufferEnd+bytes.length)) front.length (front.length+bytes.length)=some bytes := by
    rw [resize,take_of_length_le (by rw [length_append]; omega),append_assoc]
    exact range_append _ _ rfl rfl
  refine ⟨(resize (front++bytes) (secondBufferEnd+bytes.length)).take secondBufferEnd,?_,?_,?_⟩
  · rw [rescue,if_pos h,copyWithin,hpiece]
    simp only [orPanic,bind,Except.bind,hlen,le_refl,if_true,pure,Except.pure]
    rw [drop_eq_nil_of_le (by rw [hlen]),append_nil]
  · rw [length_take_of_le (by omega)]
  · rw [take_take,Nat.min_eq_left (Nat.le_of_lt h),resize_take (by omega) (by rw [length_append]; omega),take_left]

/-- If no object has any bytes, there is no room for the deltas. -/
theorem rescue_zero {stop : ℕ} (h : 0 < stop) : rescue out 0 stop 0 = .error .panic := by
  have hrange : range (out.take 0) 0 stop=none := by
    rw [range,if_pos (Nat.zero_le stop),slice,if_neg (by simp; omega)]
  rw [rescue,if_neg (by omega),slice_zero (Nat.zero_le _)]
  simp only [orPanic,bind,Except.bind,hrange]

/-- The object below the deltas is still in the pack, or in the buffer already. -/
inductive Below (f : File) (env : Env) (s : Search) (kind : ObjectKind) (data : Bytes) : Prop
  | inPack (buffer : s.baseBufferSize = none) (header : s.cursor.header.asKind = some kind) (streams : Streams f env s.cursor.dataOffset data)
  | inBuffer (buffer : s.baseBufferSize = some data.length) (header : s.objectKind = some kind) (content : s.out = data)

/-- The chain as it was found. -/
structure Found (f : File) (env : Env) (s : Search) (kind : ObjectKind) (data : Bytes) (layers : List Layer) : Prop where
  chain : s.chain = layers.map Layer.pending
  total : s.totalDeltaDataSize = deltaSize layers
  below : Below f env s kind data
  streams : ∀ l ∈ layers, Streams f env l.dataOffset l.delta

section Found
variable {s : Search} {kind : ObjectKind} {data : Bytes}

theorem Below.start_le (h : Below f env s kind data) : s.baseBufferSize.getD 0 ≤ data.length := by
  cases h with
  | inPack buffer _ _ => simp [buffer]
  | inBuffer buffer _ _ => simp [buffer]

theorem Below.fillBase (h : Below f env s kind data) (buffers : Bytes) (hlen : data.length ≤ buffers.length)
    (hkept : ∀ size,s.baseBufferSize=some size → buffers.take size=s.out) (bytes : Bytes) : ∃ buffers',
    f.fillBase env s (buffers++bytes) = .ok (some kind,buffers'++bytes) ∧ buffers'.length=buffers.length ∧ buffers'.take data.length=data := by
  cases h with
  | inPack buffer header streams =>
    obtain ⟨_,hread⟩ := streams.decompress (buffers++bytes)
    have hfits : data.length ≤ (buffers++bytes).length := by rw [length_append]; omega
    rw [take_of_length_le hfits,overwrite_eq hfits,drop_append_of_le_length hlen,← append_assoc] at hread
    refine ⟨data++buffers.drop data.length,?_,by rw [length_append,length_drop]; omega,take_left⟩
    simp only [File.fillBase,buffer,hread,header,bind,Except.bind,pure,Except.pure]
  | inBuffer buffer header content =>
    refine ⟨buffers,?_,rfl,(hkept _ buffer).trans content⟩
    simp [File.fillBase,buffer,header]

theorem Found.readChain (h : Found f env s kind data layers) (hsized : ∀ l∈layers,l.Sized) (hdata : data.length ≤ biggest layers)
    (hne : layers≠[]) (hmemory : biggest layers+biggest layers+deltaSize layers ≤ env.memory) : ∃ front consumed,
    f.readChain env s = .ok (decoded 0 layers.reverse,some consumed,front++joined layers.reverse) ∧
      front.length=s.baseBufferSize.getD 0 ∧ (∀ size,s.baseBufferSize=some size → front=s.out) := by
  have hstart := h.below.start_le
  have hlt := env.memory_lt
  have hstop : (s.baseBufferSize.getD 0+s.totalDeltaDataSize)%2^64=s.baseBufferSize.getD 0+deltaSize layers := by
    rw [h.total]
    exact Nat.mod_eq_of_lt (by omega)
  have hlen := resize_length s.out (s.baseBufferSize.getD 0+deltaSize layers)
  have hfront : ((resize s.out (s.baseBufferSize.getD 0+deltaSize layers)).take (s.baseBufferSize.getD 0)).length=s.baseBufferSize.getD 0 :=
    length_take_of_le (by omega)
  have hrange : range (resize s.out (s.baseBufferSize.getD 0+deltaSize layers)) (s.baseBufferSize.getD 0)
      (s.baseBufferSize.getD 0+deltaSize layers) =
        some ((resize s.out (s.baseBufferSize.getD 0+deltaSize layers)).drop (s.baseBufferSize.getD 0)) := by
    have := range_append ((resize s.out (s.baseBufferSize.getD 0+deltaSize layers)).drop (s.baseBufferSize.getD 0)) [] hfront rfl
    rwa [append_nil,take_append_drop,length_drop,hlen,Nat.add_sub_cancel_left] at this
  have hstreams : ∀ l∈layers.reverse,Streams f env l.dataOffset l.delta := fun l hl => h.streams l (mem_reverse.mp hl)
  obtain ⟨consumed,hread,hsome⟩ := readDeltas_eq hstreams (fun l hl => hsized l (mem_reverse.mp hl)) (by rw [biggest_reverse]; omega) 0
    ((resize s.out (s.baseBufferSize.getD 0+deltaSize layers)).drop (s.baseBufferSize.getD 0))
    (by rw [length_drop,deltaSize_reverse]; omega)
  obtain ⟨consumed,rfl⟩ := Option.isSome_iff_exists.mp (hsome (by simpa using hne))
  refine ⟨_,consumed,?_,hfront,fun size hsize => ?_⟩
  · rw [File.readChain]
    simp only [hstop,tryReserve_eq (show s.baseBufferSize.getD 0+deltaSize layers ≤ env.memory by omega),hrange,orPanic,h.chain,← map_reverse,
      hread,bind,Except.bind,pure,Except.pure]
  · cases h.below with
    | inPack buffer _ _ => simp [buffer] at hsize
    | inBuffer buffer _ content =>
      rw [buffer,Option.getD_some,content,resize_take (Nat.le_add_right _ _) (le_refl _),take_length]

/-- The chain is decoded to the composition of its deltas. -/
theorem Found.resolveChain (h : Found f env s kind data layers) (hcomposes : Composes data layers.reverse object) (hne : layers≠[])
    (hbiggest : 0 < biggest layers) (hmemory : biggest layers+biggest layers+deltaSize layers ≤ env.memory) (first : DataEntry) : ∃ consumed,
    f.resolveChain env first s = .ok (⟨kind,layers.length%2^32,first.decompressedSize,consumed,object.length⟩,object) := by
  have hsized : ∀ l∈layers,l.Sized := fun l hl => hcomposes.sized l (mem_reverse.mpr hl)
  have hdata := hcomposes.base_le (by simpa using hne)
  rw [biggest_reverse] at hdata
  have hstart := h.below.start_le
  have hlt := env.memory_lt
  obtain ⟨front,consumed,hread,hfront,hout⟩ := h.readChain hsized hdata hne hmemory
  have hjoined : (joined layers.reverse).length=deltaSize layers := by rw [joined_length,deltaSize_reverse]
  obtain ⟨buffers,hrescue,hbuffers,hkept⟩ := rescue_eq front (biggest layers+biggest layers) (by omega)
    (joined layers.reverse)
  rw [hjoined,hfront] at hrescue
  obtain ⟨_,hfill,hbuffers',hbase⟩ := h.below.fillBase buffers (by omega)
    (fun size hsize => by rw [← hout size hsize,← hkept,hfront,hsize,Option.getD_some]) (joined layers.reverse)
  have happly := applyChain_eq hcomposes (by simpa using hne) hbase (by rw [hbuffers',hbuffers,biggest_reverse])
  rw [biggest_reverse] at happly
  refine ⟨consumed,?_⟩
  rw [File.resolveChain,hread]
  simp only [bind,Except.bind,File.composeChain,biggestResultSize_decoded,biggest_reverse,h.total]
  rw [Nat.mod_eq_of_lt (show biggest layers+biggest layers < 2^64 by omega),
    Nat.mod_eq_of_lt (show biggest layers+biggest layers+deltaSize layers < 2^64 by omega),
    Nat.mod_eq_of_lt (show s.baseBufferSize.getD 0+deltaSize layers < 2^64 by omega)]
  simp only [tryReserve_eq hmemory,hrescue,hfill,happly,h.chain,length_map]
  rfl

theorem deltaSize_pos (hsized : ∀ l∈layers,l.Sized) (hne : layers≠[]) : 0 < deltaSize layers := by
  cases layers with
  | nil => exact absurd rfl hne
  | cons l layers =>
    have := (hsized l (by simp)).base.length_pos
    rw [deltaSize,delta,length_append,length_append]
    omega

/-- Nothing is decoded if none of the objects has any bytes. -/
theorem Found.resolveChain_zero (h : Found f env s kind data layers) (hcomposes : Composes data layers.reverse object) (hne : layers≠[])
    (hbiggest : biggest layers=0) (hmemory : biggest layers+biggest layers+deltaSize layers ≤ env.memory) (first : DataEntry) :
    f.resolveChain env first s = .error .panic := by
  have hsized : ∀ l∈layers,l.Sized := fun l hl => hcomposes.sized l (mem_reverse.mpr hl)
  have hdata := hcomposes.base_le (by simpa using hne)
  rw [biggest_reverse] at hdata
  have hstart := h.below.start_le
  have hlt := env.memory_lt
  have hzero : s.baseBufferSize.getD 0=0 := by omega
  have hpos := deltaSize_pos hsized hne
  obtain ⟨_,_,hread,-,-⟩ := h.readChain hsized hdata hne hmemory
  rw [File.resolveChain,hread]
  simp only [bind,Except.bind,File.composeChain,biggestResultSize_decoded,biggest_reverse,hbiggest,hzero,h.total,Nat.zero_add,Nat.zero_mod]
  rw [Nat.mod_eq_of_lt (show deltaSize layers < 2^64 by omega),tryReserve_eq (by omega)]
  simp [rescue_zero hpos]

end Found
end Gix.Pack.Decode
