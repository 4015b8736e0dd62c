import Gix.PackDecodeCache

/-! # Decoded objects and their headers

An entry is decoded to the composition of the deltas in its chain. Its header is the same as if it
was found that way, even though only the first few bytes of a single delta are looked at. -/
namespace Gix.Pack.Decode
open List Streams
variable {f : File} {env : Env} {resolve : Resolve} {entry : DataEntry} {root : Root} {layers : List Layer}
    {object : Bytes}

/-! Following the chain -/

variable (h : Chain f env resolve entry root layers) {fuel : ℕ} {s : Search} {l : Layer}
include h

section
variable (hfuel : layers.length < fuel)
include hfuel

/-- A cache that never has anything makes no difference to the search. -/
theorem Chain.found (hcomposes : Composes root.data layers.reverse object) (hsize : deltaSize layers < 2^64)
    (out : Bytes) :
    ∃ s mid,f.findBase resolve never fuel ⟨[],entry,none,none,none,0,out⟩ ()=(.ok s,()) ∧
      Found f env s root.kind mid layers ∧
      Composes mid layers.reverse object := by
  have hfaithful : Faithful never fun cache _ => cache=() :=
    ⟨fun _ _ => rfl,fun _ hget => (nomatch hget),fun _ _ _ _ _ => rfl⟩
  have htruth : Truthful f env resolve (fun _ => True) [] fun _ => none := by
    rintro e object kind size - ⟨⟩
  obtain ⟨s,_,upper,lower,mid,hfound,-,rfl,hchain,htotal,hmid,hreached,-⟩ :=
    h.findBase_cached (fun _ _ _ _ => trivial) hfaithful htruth
    hcomposes trivial hfuel (s := ⟨[],entry,none,none,none,0,out⟩) rfl rfl (by simpa using hsize) rfl
  obtain rfl : lower=[] := by
    cases lower with
    | nil => rfl
    | cons l rest =>
      obtain ⟨⟨_,_,_,_,_,-,hget⟩,-⟩ := hreached.hit l rest rfl
      cases hget
  rw [append_nil] at *
  exact ⟨s,mid,hfound,⟨by simpa using hchain,by simpa using htotal,hreached.below,h.streams⟩,hmid⟩

theorem Chain.resolveDeltas (hcomposes : Composes root.data layers.reverse object)
    (hmemory : required entry layers ≤ env.memory)
    (hne : layers≠[]) (out : Bytes) : ∃ s mid,Found f env s root.kind mid layers ∧
      Composes mid layers.reverse object ∧
      biggest layers+biggest layers+deltaSize layers ≤ env.memory ∧
      (f.decodeEntry env resolve never fuel entry out ()).1=f.resolveChain env entry s := by
  obtain ⟨l,layers,rfl⟩ := exists_cons_of_ne_nil hne
  rw [required] at hmemory
  have hlt := env.memory_lt
  obtain ⟨s,mid,hfound,hs,hmid⟩ := h.found hfuel hcomposes (by omega) out
  refine ⟨s,mid,hs,hmid,hmemory,?_⟩
  have hchain : s.chain.isEmpty=false := by simp [hs.chain]
  rw [File.decodeEntry,h.asKind_eq,if_neg hne,File.resolveDeltas,hfound]
  simp only [hchain]
  cases f.resolveChain env entry s <;> rfl

end

omit h in
theorem Chain.decodeObject (h : Chain f env resolve entry root [])
    (hmemory : entry.decompressedSize ≤ env.memory) (fuel : ℕ) (out : Bytes) :
    ∃ consumed,(f.decodeEntry env resolve never fuel entry out ()).1 =
      .ok (⟨root.kind,0,entry.decompressedSize,consumed,entry.decompressedSize⟩,root.data) := by
  cases h with
  | object header size streams =>
    obtain ⟨consumed,hread⟩ := streams.decompress (resize out entry.decompressedSize)
    rw [resize_length,← size,take_length,overwrite_eq (by rw [resize_length]),drop_eq_nil_of_le
      (by rw [resize_length]),
      append_nil] at hread
    rw [← size] at hmemory
    refine ⟨consumed,?_⟩
    rw [File.decodeEntry,header]
    simp [File.decodeObject,tryReserve_eq hmemory,bind,Except.bind,← size,hread,pure,Except.pure,
      Outcome.fromObjectEntry]

/-- An object, and what is said about it. -/
structure IsObject (r : Except Failure (Outcome × Bytes)) (kind : ObjectKind) (numDeltas : ℕ)
    (object : Bytes) : Prop where
  result : ∃ outcome, r = .ok (outcome,object) ∧ outcome.kind = kind ∧ outcome.objectSize = object.length ∧
    outcome.numDeltas = numDeltas%2^32

theorem Chain.decode (hcomposes : Composes root.data layers.reverse object)
    (hsizes : layers=[] ∨ HasBytes layers) (hmemory : required entry layers ≤ env.memory)
      (hfuel : layers.length < fuel) (out : Bytes) :
    IsObject (f.decodeEntry env resolve never fuel entry out ()).1 root.kind layers.length object := by
  cases layers with
  | nil =>
    obtain rfl := hcomposes
    obtain ⟨consumed,hdecode⟩ := h.decodeObject hmemory fuel out
    have hsize : root.data.length=entry.decompressedSize := by
      cases h with
      | object _ size _ => exact size
    exact ⟨_,hdecode,rfl,hsize.symm,rfl⟩
  | cons l layers =>
    have hbiggest := biggest_pos.mpr (hsizes.resolve_left (by simp))
    obtain ⟨_,_,hfound,hmid,hrequired,hdecode⟩ := h.resolveDeltas hfuel hcomposes hmemory (by simp) out
    obtain ⟨consumed,hresolve⟩ := hfound.resolveChain hmid (by simp) hbiggest hrequired entry
    exact ⟨_,hdecode.trans hresolve,rfl,rfl,rfl⟩

theorem Chain.decode_panics (hcomposes : Composes root.data layers.reverse object)
    (hne : layers≠[]) (hsizes : ¬HasBytes layers) (hmemory : required entry layers ≤ env.memory)
      (hfuel : layers.length < fuel) (out : Bytes) :
    (f.decodeEntry env resolve never fuel entry out ()).1 = .error .panic := by
  have hbiggest := Nat.eq_zero_of_not_pos (mt biggest_pos.mp hsizes)
  obtain ⟨_,_,hfound,hmid,hrequired,hdecode⟩ := h.resolveDeltas hfuel hcomposes hmemory hne out
  exact hdecode.trans (hfound.resolveChain_zero hmid hne hbiggest hrequired entry)

omit h

/-- Streams that only say how long they are. -/
def plainEnv : Env where
  inflate input size := match input with
    | [] => none
    | len :: rest => some (len.toNat+1,(rest.take len.toNat).take size)
  memory := 2^20
  memory_lt := by decide

theorem Streams.plain {offset : ℕ} {len : UInt8} {rest data : Bytes} (h : f.data.drop offset=len::rest)
    (hdata : rest.take len.toNat=data) :
    Streams f plainEnv offset data := by
  refine ⟨?_,fun size => ⟨len.toNat+1,by rw [h,← hdata]; rfl⟩⟩
  by_contra hle
  rw [drop_eq_nil_of_le (Nat.le_of_not_lt hle)] at h
  cases h

/-- The blob `abc`, and a delta that makes `bc` of it. -/
def smallPack : File := ⟨[0x33,3,97,98,99,0x65,5,5,3,2,0x91,1,2],0⟩

def smallLayer : Layer := ⟨7,[3],[2],[0x91,1,2]⟩

def noLookup : Resolve := fun _ _ => none

theorem smallPack_chain : Chain smallPack plainEnv noLookup ⟨.ofsDelta 5,5,7⟩ ⟨.blob,[97,98,99],some ⟨.blob,3,1⟩⟩
    [smallLayer] :=
  .inPack ⟨rfl,rfl,plain rfl rfl⟩ (.ofs 5 0 rfl rfl rfl) (.object rfl rfl (plain rfl rfl))

theorem smallPack_composes : Composes [97,98,99] [smallLayer] [98,99] :=
  ⟨[98,99],⟨.single 3 (by decide),.single 2 (by decide),rfl⟩,rfl⟩

/-- A delta chain is decoded to the composition of its deltas. -/
theorem decode_entry_composes (f : File) (env : Env) (resolve : Resolve) (h : Chain f env resolve entry root layers)
    (hcomposes : Composes root.data layers.reverse object) (hsizes : layers = [] ∨ HasBytes layers)
      (hmemory : required entry layers ≤ env.memory)
    {fuel : ℕ} (hfuel : layers.length < fuel) (out : Bytes) :
    IsObject (f.decodeEntry env resolve never fuel entry out ()).1 root.kind layers.length object :=
  h.decode hcomposes hsizes hmemory hfuel out

theorem decode_entry_composes_small :
    IsObject (smallPack.decodeEntry plainEnv noLookup never 2 ⟨.ofsDelta 5,5,7⟩ [] ()).1 .blob 1 [98,99] :=
  decode_entry_composes smallPack plainEnv noLookup smallPack_chain smallPack_composes
    (Or.inr ⟨smallLayer,by simp,by decide⟩) (by decide)
    (by decide) []

/-! Headers -/

/-- The first bytes of a delta are enough for its sizes. -/
theorem Stored.decodeDeltaObjectSize (h : Stored f env entry l) (hsized : l.Sized) (hbase : l.baseSize < 2^64)
    (hresult : l.resultSize < 2^64) : f.decodeDeltaObjectSize env entry = .ok l.resultSize := by
  obtain ⟨_,hread⟩ := h.streams.decompress (replicate 32 0)
  rw [length_replicate,overwrite_eq (by rw [length_replicate,length_take]; omega)] at hread
  have hwindow : l.delta.take 32=l.baseField++(l.resultField++l.instructions.take
    (32-(l.baseField.length+l.resultField.length))) := by
    have := hsized.base.length
    have := hsized.result.length
    rw [Layer.delta,take_append,take_of_length_le (by rw [length_append]; omega),length_append,append_assoc]
  rw [File.decodeDeltaObjectSize,hread]
  simp only [bind,Except.bind]
  rw [slice_zero (by rw [length_append]; omega),take_left,hwindow]
  simp [orPanic,hsized.base.decode hbase,FixedTable.sliceFrom_append rfl,hsized.result.decode hresult,pure,
    Except.pure]

section Header
variable {headerResolve : ObjectId → Option HeaderBase}

/-- Both lookups by id find the same objects in the pack. -/
def SameBases (resolve : Resolve) (headerResolve : ObjectId → Option HeaderBase) : Prop :=
  ∀ id base out out', resolve id out = some (.inPack base,out') → headerResolve id = some (.inPack base)

theorem Based.headerBaseOf {base : DataEntry} (h : Based f resolve entry base)
    (hsame : SameBases resolve headerResolve) :
    f.headerBaseOf headerResolve entry = .ok (.inPack base) := by
  cases h with
  | ofs distance offset header inBounds found => simp only
      [File.headerBaseOf,header,inBounds,found,bind,Except.bind,pure,Except.pure]
  | ref id header found =>
    obtain ⟨out,hfound⟩ := found []
    simp [File.headerBaseOf,header,hsame id base [] out hfound]

section
variable (h : Chain f env resolve entry root layers) (hroot : root.entry.isSome)
    (hsame : SameBases resolve headerResolve)
include h hroot hsame

theorem Chain.headerLoop
    (fuel : ℕ) (hfuel : layers.length < fuel) {numDeltas : ℕ} (hnum : numDeltas < 2^32) (size : ℕ) :
    f.headerLoop env headerResolve fuel entry numDeltas (some size) = .ok
      ⟨root.kind,size,(numDeltas+layers.length)%2^32⟩ := by
  induction h generalizing fuel numDeltas with
  | object header _ _ =>
    obtain ⟨_,rfl⟩ := Nat.exists_eq_add_of_lt hfuel
    simp only [File.headerLoop,header,Option.getD_some,length_nil,Nat.add_zero,Nat.mod_eq_of_lt hnum]
  | @inPack entry base root l layers stored based _ ih =>
    obtain ⟨fuel,rfl⟩ := Nat.exists_eq_add_one_of_ne_zero (Nat.ne_zero_of_lt hfuel)
    have := ih hroot fuel (by simpa using hfuel) (Nat.mod_lt (numDeltas+1) (by decide : 0 < 2^32))
    simp only [File.headerLoop,based.isDelta.2,based.headerBaseOf hsame,bind,Except.bind,pure,Except.pure,this,
      Nat.mod_add_mod]
    rw [length_cons,Nat.add_assoc,Nat.add_comm 1]
  | outOfPack _ _ _ => simp at hroot

theorem Chain.decodeHeader
    (hcomposes : Composes root.data layers.reverse object) (hmemory : required entry layers ≤ env.memory)
      (hfuel : layers.length < fuel) :
    f.decodeHeader env headerResolve fuel entry = .ok ⟨root.kind,object.length,layers.length%2^32⟩ := by
  obtain ⟨fuel,rfl⟩ := Nat.exists_eq_add_one_of_ne_zero (Nat.ne_zero_of_lt hfuel)
  cases h with
  | object header size _ =>
    obtain rfl := hcomposes
    simp [File.decodeHeader,File.headerLoop,header,size]
  | @inPack _ base _ l layers stored based chain =>
    rw [reverse_cons] at hcomposes
    obtain ⟨_,-,_,hl,hlast⟩ := hcomposes.of_append
    obtain rfl := hlast
    obtain ⟨hsized,-,hresult⟩ := hl.sized
    have hlt := env.memory_lt
    rw [required,biggest] at hmemory
    have := chain.headerLoop hroot hsame fuel (by simpa using hfuel) (by decide : 1 < 2^32) l.resultSize
    simp only [File.decodeHeader,File.headerLoop,based.isDelta.2,stored.decodeDeltaObjectSize hsized (by omega)
      (by omega),
      based.headerBaseOf hsame,bind,Except.bind,Nat.zero_add]
    rw [show 1%2^32=1 from rfl,this,hresult,length_cons,Nat.add_comm 1]
  | outOfPack _ _ _ => simp at hroot

end

end Header

/-- The header and the object have the same kind, size and number of deltas. -/
def Agree (header : Except Failure HeaderOutcome) (object : Except Failure (Outcome × Bytes)) : Prop :=
  ∃ h outcome bytes, header = .ok h ∧ object = .ok (outcome,bytes) ∧
    h.kind = outcome.kind ∧ h.objectSize = outcome.objectSize ∧ h.numDeltas = outcome.numDeltas

/-- If no object of a chain has any bytes, the header is found but not the object. -/
theorem decode_header_agrees_iff (f : File) (env : Env) (resolve : Resolve)
    (headerResolve : ObjectId → Option HeaderBase)
    (h : Chain f env resolve entry root layers) (hroot : root.entry.isSome)
      (hsame : SameBases resolve headerResolve)
    (hcomposes : Composes root.data layers.reverse object) (hmemory : required entry layers ≤ env.memory)
      {fuel : ℕ} (hfuel : layers.length < fuel)
    (out : Bytes) : Agree (f.decodeHeader env headerResolve fuel entry)
      (f.decodeEntry env resolve never fuel entry out ()).1 ↔
      layers = [] ∨ HasBytes layers := by
  have hheader := h.decodeHeader hroot hsame hcomposes hmemory hfuel
  constructor
  · rintro ⟨_,outcome,bytes,-,hobject,-⟩
    by_contra hnone
    rw [not_or] at hnone
    rw [h.decode_panics hcomposes hnone.1 hnone.2 hmemory hfuel out] at hobject
    cases hobject
  · intro hsizes
    obtain ⟨outcome,hobject,hkind,hsize,hnum⟩ := (h.decode hcomposes hsizes hmemory hfuel out).result
    exact ⟨_,outcome,object,hheader,hobject,hkind.symm,hsize.symm,hnum.symm⟩

theorem decode_header_agrees_small : Agree (smallPack.decodeHeader plainEnv (fun _ => none) 2 ⟨.ofsDelta 5,5,7⟩)
    (smallPack.decodeEntry plainEnv noLookup never 2 ⟨.ofsDelta 5,5,7⟩ [] ()).1 :=
  (decode_header_agrees_iff smallPack plainEnv noLookup (fun _ => none) smallPack_chain rfl
    (fun _ _ _ _ h => by cases h) smallPack_composes
    (by decide) (by decide) []).mpr (Or.inr ⟨smallLayer,by simp,by decide⟩)

/-- An empty blob, and a delta that makes an empty blob of it. -/
def emptyPack : File := ⟨[0x30,0,0x62,2,2,0,0],0⟩

def emptyLayer : Layer := ⟨4,[0],[0],[]⟩

theorem empty_objects : Chain emptyPack plainEnv noLookup ⟨.ofsDelta 2,2,4⟩ ⟨.blob,[],some ⟨.blob,0,1⟩⟩
    [emptyLayer] ∧
    Composes [] [emptyLayer] [] ∧ required ⟨.ofsDelta 2,2,4⟩ [emptyLayer] ≤ plainEnv.memory ∧
    emptyPack.decodeHeader plainEnv (fun _ => none) 2 ⟨.ofsDelta 2,2,4⟩ = .ok ⟨.blob,0,1⟩ ∧
    (emptyPack.decodeEntry plainEnv noLookup never 2 ⟨.ofsDelta 2,2,4⟩ [] ()).1 = .error .panic := by
  refine ⟨.inPack ⟨rfl,rfl,plain rfl rfl⟩ (.ofs 2 0 rfl rfl rfl) (.object rfl rfl (plain rfl rfl)),?_,by decide,
    rfl,rfl⟩
  exact ⟨[],⟨.single 0 (by decide),.single 0 (by decide),rfl⟩,rfl⟩

/-! Following the bases of deltas -/

def packOffset (entry : DataEntry) : ℕ :=
  (entry.dataOffset+2^64-entry.header.size entry.decompressedSize)%2^64

theorem basePackOffset_eq_ok {distance base : ℕ} :
    basePackOffset entry distance=.ok base ↔ distance ≤ packOffset entry ∧ packOffset entry-distance=base := by
  rw [show basePackOffset entry distance=if distance ≤ packOffset entry then .ok
    (packOffset entry-distance) else .error .panic from rfl]
  split <;> simp [*]

/-- The entries come across from the one at `start` on, each with the offset it is read at. -/
inductive Visits (f : File) (start : ℕ) : ℕ → DataEntry → Prop
  | start {entry : DataEntry} (read : f.entry start = .ok entry) : Visits f start start entry
  | base {offset base distance : ℕ} {entry baseEntry : DataEntry} (delta : Visits f start offset entry)
      (header : entry.header = .ofsDelta distance) (inBounds : basePackOffset entry distance = .ok base)
      (read : f.entry base = .ok baseEntry) : Visits f start base baseEntry

theorem bind_ne_unfinished {α β : Type} {x : Except Failure α} {g : α → Except Failure β}
    (hx : x≠.error .unfinished)
    (hg : ∀ a, x=.ok a → g a≠.error .unfinished) : (x >>= g)≠.error .unfinished := by
  cases x with
  | ok a => exact hg a rfl
  | error e => exact fun h => hx (congrArg _ (Except.error.inj h))

theorem orPanic_bind {α β : Type} {o : Option α} {g : α → Except Failure β} (hg : ∀ a, g a≠.error .unfinished) :
    (orPanic o >>= g)≠.error .unfinished :=
  bind_ne_unfinished (by cases o <;> simp [orPanic]) fun a _ => hg a

theorem decodeDeltaObjectSize_ne_unfinished : f.decodeDeltaObjectSize env entry≠.error .unfinished := by
  refine bind_ne_unfinished ?_ fun _ _ => orPanic_bind fun _ => orPanic_bind fun _ => orPanic_bind fun _ =>
    orPanic_bind fun _ => by
    simp [pure,Except.pure]
  rw [File.decompressEntryFromDataOffset]
  repeat' split
  all_goals simp

section
variable (env) (headerResolve : ObjectId → Option HeaderBase) (resolve) {σ : Type} (c : Cache σ) {start offset : ℕ}
    (hofs : ∀ offset entry, Visits f start offset entry → ∀ id, entry.header≠.refDelta id)
    (hbefore : ∀ offset entry, Visits f start offset entry → ∀ distance, entry.header=.ofsDelta distance →
      packOffset entry < offset+distance)
include hofs hbefore

/-- The next entry lies before its delta, or there is none. -/
theorem Visits.next (h : Visits f start offset entry) (hkind : entry.header.asKind=none) :
    ∃ distance, entry.header=.ofsDelta distance ∧ (basePackOffset entry distance >>= f.entry)≠.error .unfinished ∧
      ∀ base, (basePackOffset entry distance >>= f.entry)=.ok base → ∃ o < offset, Visits f start o base := by
  cases hheader : entry.header with
  | ofsDelta distance =>
    refine ⟨distance,rfl,bind_ne_unfinished ?_ fun o _ => orPanic_bind fun _ => orPanic_bind fun r =>
      by cases r <;> simp,fun base hbase => ?_⟩
    · rw [basePackOffset]
      split <;> simp
    · cases ho : basePackOffset entry distance with
      | error e => simp [ho,bind,Except.bind] at hbase
      | ok o =>
        rw [ho] at hbase
        have hlt := hbefore offset entry h distance hheader
        have heq := basePackOffset_eq_ok.mp ho
        exact ⟨o,by omega,h.base hheader ho hbase⟩
  | refDelta id => exact absurd hheader (hofs offset entry h id)
  | _ => simp [hheader,Header.asKind] at hkind

theorem headerLoop_ends (h : Visits f start offset entry) (hfuel : offset < fuel) (n : ℕ) (first : Option ℕ) :
    f.headerLoop env headerResolve fuel entry n first≠.error .unfinished := by
  induction fuel generalizing offset entry n first with
  | zero => exact absurd hfuel (Nat.not_lt_zero _)
  | succ fuel ih =>
    rw [File.headerLoop]
    cases hkind : entry.header.asKind with
    | some kind => simp
    | none =>
      obtain ⟨distance,hheader,hends,hnext⟩ := h.next hofs hbefore hkind
      have hbase : f.headerBaseOf headerResolve entry=(basePackOffset entry distance >>= f.entry) >>= fun base =>
        pure (.inPack base) := by
        simp [File.headerBaseOf,hheader]
      generalize basePackOffset entry distance >>= f.entry=next at hends hnext hbase
      have hrest (size : ℕ) (base : DataEntry) (hok : next=.ok base) :
          f.headerLoop env headerResolve fuel base ((n+1)%2^32) (some size)≠.error .unfinished := by
        obtain ⟨_,_,hvisit⟩ := hnext base hok
        exact ih hvisit (by omega) _ _
      simp only [hbase,bind_assoc,pure_bind]
      cases first with
      | some size => exact bind_ne_unfinished hends (hrest size)
      | none => exact bind_ne_unfinished decodeDeltaObjectSize_ne_unfinished fun size _ =>
          bind_ne_unfinished hends (hrest size)

theorem findBase_ends (h : Visits f start offset s.cursor) (hfuel : offset < fuel) (cache : σ) :
    (f.findBase resolve c fuel s cache).1≠.error .unfinished := by
  induction fuel generalizing offset s cache with
  | zero => exact absurd hfuel (Nat.not_lt_zero _)
  | succ fuel ih =>
    cases hkind : s.cursor.header.asKind with
    | some kind => simp [File.findBase,isDelta_of_asKind hkind]
    | none =>
      obtain ⟨distance,hheader,hends,hnext⟩ := h.next hofs hbefore hkind
      rw [File.findBase,if_pos (by rw [hheader]; rfl)]
      split
      · simp
      next out cache _ =>
        have hbase : f.baseOf resolve s.cursor out=(basePackOffset s.cursor distance >>= f.entry) >>= fun base =>
          pure (.inPack base,out) := by
          simp [File.baseOf,hheader]
        rw [hbase]
        cases hok : basePackOffset s.cursor distance >>= f.entry with
        | error e => exact fun heq => hends (hok.trans (congrArg _ (Except.error.inj heq)))
        | ok base =>
          obtain ⟨_,_,hvisit⟩ := hnext base hok
          exact ih hvisit (by omega) _

end

/-- Every base is looked for ahead of its delta, and the loops of `decode_header()` and
`decode_entry()` that look for it end. -/
structure FollowsBases (f : File) (env : Env) (headerResolve : ObjectId → Option HeaderBase) (resolve : Resolve)
    {σ : Type} (c : Cache σ)
    (start : ℕ) : Prop where
  ahead : ∀ offset entry distance base, Visits f start offset entry → entry.header = .ofsDelta distance →
    basePackOffset entry distance = .ok base → base < offset
  ends : ∀ entry, f.entry start = .ok entry → ∃ n, ∀ fuel ≥ n,
    f.decodeHeader env headerResolve fuel entry ≠ .error .unfinished ∧
    ∀ (s : Search) (cache : σ), s.cursor = entry → (f.findBase resolve c fuel s cache).1 ≠ .error .unfinished

/-- A distance has to exceed what the header of its delta is too long by, it is never zero. -/
theorem follows_bases_iff (f : File) (env : Env) (headerResolve : ObjectId → Option HeaderBase)
    (resolve : Resolve) {σ : Type} (c : Cache σ)
    (start : ℕ) (hofs : ∀ offset entry, Visits f start offset entry → ∀ id, entry.header ≠ .refDelta id) :
    FollowsBases f env headerResolve resolve c start ↔
      ∀ offset entry, Visits f start offset entry → ∀ distance, entry.header = .ofsDelta distance →
        packOffset entry < offset+distance := by
  refine ⟨fun h offset entry hv distance hheader => ?_,fun hbefore =>
    ⟨fun offset entry distance base hv hheader hbase => ?_,fun entry hread => ?_⟩⟩
  · by_contra hle
    have hlt := h.ahead offset entry distance _ hv hheader (basePackOffset_eq_ok.mpr ⟨by omega,rfl⟩)
    omega
  · have hlt := hbefore offset entry hv distance hheader
    have heq := basePackOffset_eq_ok.mp hbase
    omega
  · refine ⟨start+1,fun fuel hfuel => ⟨headerLoop_ends env headerResolve hofs hbefore (.start hread) hfuel _ _,
      fun s cache hs => ?_⟩⟩
    exact findBase_ends resolve c hofs hbefore (.start (hs ▸ hread)) hfuel cache

theorem smallPack_visits {offset : ℕ} (h : Visits smallPack 5 offset entry) : offset=5 ∧
    entry=⟨.ofsDelta 5,5,7⟩ ∨ entry=⟨.blob,3,1⟩ := by
  induction h with
  | start read => exact Or.inl ⟨rfl,(Except.ok.inj read).symm⟩
  | base _ header inBounds read ih =>
    obtain ⟨rfl,rfl⟩ | rfl := ih
    · cases header
      cases inBounds
      exact Or.inr (Except.ok.inj read).symm
    · cases header

theorem follows_bases_small : FollowsBases smallPack plainEnv (fun _ => none) noLookup never 5 := by
  refine (follows_bases_iff smallPack plainEnv _ noLookup never 5 fun offset entry h id =>
    ?_).mpr fun offset entry h distance hheader => ?_
  · obtain ⟨-,rfl⟩ | rfl := smallPack_visits h <;> simp
  · obtain ⟨rfl,rfl⟩ | rfl := smallPack_visits h <;> cases hheader
    decide

/-- A delta at distance zero is its own base. -/
def ownBase : File := ⟨[0x62,0,2,0,0],0⟩

theorem own_base_never_ends : ownBase.entry 0 = .ok ⟨.ofsDelta 0,2,2⟩ ∧
    ∀ fuel, ownBase.decodeHeader plainEnv (fun _ => none) fuel ⟨.ofsDelta 0,2,2⟩ = .error .unfinished ∧
      ∀ s : Search, s.cursor = ⟨.ofsDelta 0,2,2⟩ →
        (ownBase.findBase noLookup never fuel s ()).1 = .error .unfinished := by
  have hloop (fuel n : ℕ) : ownBase.headerLoop plainEnv (fun _ => none) fuel ⟨.ofsDelta 0,2,2⟩ n
    (some 0)=.error .unfinished := by
    induction fuel generalizing n with
    | zero => rfl
    | succ fuel ih => exact ih _
  refine ⟨rfl,fun fuel => ⟨?_,fun s hs => ?_⟩⟩
  · cases fuel with
    | zero => rfl
    | succ fuel => exact hloop fuel _
  · induction fuel generalizing s with
    | zero => rfl
    | succ fuel ih =>
      rw [File.findBase,hs]
      exact ih { s.push with cursor := ⟨.ofsDelta 0,2,2⟩ } rfl

end Gix.Pack.Decode
