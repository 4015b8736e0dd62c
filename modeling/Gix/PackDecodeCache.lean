import Gix.PackDecodeChain

/-! # Decoding with a cache

Decoded deltas are kept in a cache, which is asked for each delta of a chain. It may forget what it
was given at any time, but it doesn't make anything up. -/
namespace Gix.Pack.Decode
open List Function
variable {σ : Type} {f : File} {env : Env} {resolve : Resolve} {entry : DataEntry} {root root' : Root} {layers layers' : List Layer}
  {object : Bytes} {l : Layer}

section
variable (h : Chain f env resolve entry root layers)
include h

theorem Chain.streams : ∀ l∈layers,Streams f env l.dataOffset l.delta := by
  induction h with
  | object _ _ _ => simp
  | inPack stored _ _ ih => exact forall_mem_cons.mpr ⟨stored.offset ▸ stored.streams,ih⟩
  | outOfPack stored _ _ => exact forall_mem_cons.mpr ⟨stored.offset ▸ stored.streams,by simp⟩

theorem Chain.asKind_eq : entry.header.asKind=if layers=[] then some root.kind else none := by
  cases h with
  | object header _ _ => simpa using header
  | inPack _ based _ => simpa using based.isDelta.2
  | outOfPack _ header _ => simp [header,Header.asKind]

end

theorem Stored.push {s : Search} (h : Stored f env s.cursor l) :
    s.push.chain=s.chain++[l.pending] ∧ s.push.totalDeltaDataSize=(s.totalDeltaDataSize+l.delta.length)%2^64 := by
  simp [Search.push,Layer.pending,h.size,h.offset]

theorem isDelta_of_asKind {h : Header} {kind : ObjectKind} (hkind : h.asKind=some kind) : h.isDelta=false := by
  cases h <;> first | rfl | simp [Header.asKind] at hkind

/-- Not all of the recorded sizes are zero. -/
def HasBytes (layers : List Layer) : Prop := ∃ l ∈ layers, l.baseSize ≠ 0 ∨ l.resultSize ≠ 0

/-! There is only one chain for an entry -/

theorem field_unique {a b rest rest' : Bytes} (ha : ∀ x∈a.dropLast,128 ≤ x.toNat) (ha' : ∃ x,a.getLast? = some x ∧ x.toNat < 128)
    (hb : ∀ x∈b.dropLast,128 ≤ x.toNat) (hb' : ∃ x,b.getLast? = some x ∧ x.toNat < 128) (h : a++rest=b++rest') : a=b := by
  induction a generalizing b with
  | nil => simp at ha'
  | cons x a ih =>
    cases b with
    | nil => simp at hb'
    | cons y b =>
      obtain ⟨rfl,htail⟩ := cons.inj h
      cases a with
      | nil =>
        cases b with
        | nil => rfl
        | cons z b =>
          have hx : x.toNat < 128 := by simpa using ha'
          exact absurd hx (Nat.not_lt.mpr (hb x (by simp)))
      | cons z a =>
        cases b with
        | nil =>
          have hx : x.toNat < 128 := by simpa using hb'
          exact absurd hx (Nat.not_lt.mpr (ha x (by simp)))
        | cons z' b =>
          exact congrArg _ (ih (forall_mem_cons.mp ha).2 ha' (forall_mem_cons.mp hb).2 hb' htail)

theorem Layer.Sized.unique {l' : Layer} (h : l.Sized) (h' : l'.Sized) (hoffset : l.dataOffset=l'.dataOffset) (hdelta : l.delta=l'.delta) :
    l=l' := by
  rw [Layer.delta,Layer.delta,append_assoc,append_assoc] at hdelta
  have hbase := field_unique h.base.continued h.base.last h'.base.continued h'.base.last hdelta
  rw [hbase,append_cancel_left_eq] at hdelta
  have hresult := field_unique h.result.continued h.result.last h'.result.continued h'.result.last hdelta
  rw [hresult,append_cancel_left_eq] at hdelta
  obtain ⟨_,base,result,_⟩ := l
  simp only at hoffset hbase hresult hdelta
  rw [hoffset,hbase,hresult,hdelta]

theorem Streams.unique {offset : ℕ} {data data' : Bytes} (h : Streams f env offset data) (h' : Streams f env offset data') : data=data' := by
  obtain ⟨_,hinflate⟩ := h.inflate (data.length+data'.length)
  obtain ⟨_,hinflate'⟩ := h'.inflate (data.length+data'.length)
  rw [hinflate,Option.some_inj,Prod.mk.injEq,take_of_length_le (by omega),take_of_length_le (by omega)] at hinflate'
  exact hinflate'.2

theorem Stored.unique {l' : Layer} (h : Stored f env entry l) (h' : Stored f env entry l') (hs : l.Sized) (hs' : l'.Sized) : l=l' :=
  hs.unique hs' (h.offset.trans h'.offset.symm) (h.streams.unique h'.streams)

theorem Based.unique {base base' : DataEntry} (h : Based f resolve entry base) (h' : Based f resolve entry base') : base=base' := by
  cases h with
  | ofs distance offset header inBounds found =>
    cases h' with
    | ofs distance' offset' header' inBounds' found' =>
      obtain rfl : distance=distance' := by simpa [header] using header'
      obtain rfl : offset=offset' := by simpa [inBounds] using inBounds'
      simpa [found] using found'
    | ref id' header' _ => simp [header] at header'
  | ref id header found =>
    cases h' with
    | ofs distance' offset' header' _ _ => simp [header] at header'
    | ref id' header' found' =>
      obtain rfl : id=id' := by simpa [header] using header'
      obtain ⟨_,hfound⟩ := found []
      obtain ⟨_,hfound'⟩ := found' []
      rw [hfound,Option.some_inj,Prod.mk.injEq] at hfound'
      simpa using hfound'.1

theorem Based.not_outOfPack {base : DataEntry} {id : ObjectId} {kind : ObjectKind} {data : Bytes} (h : Based f resolve entry base)
    (header : entry.header = .refDelta id) : ¬∀ out,resolve id out=some (.outOfPack kind data.length,data) := by
  intro found
  cases h with
  | ofs _ _ header' _ _ => simp [header] at header'
  | ref id' header' found' =>
    obtain rfl : id=id' := by simpa [header] using header'
    obtain ⟨_,hfound⟩ := found' []
    simp [found []] at hfound

theorem Chain.unique (h : Chain f env resolve entry root layers) (h' : Chain f env resolve entry root' layers') (hs : ∀ l∈layers,l.Sized)
    (hs' : ∀ l∈layers',l.Sized) : layers=layers' ∧ root.kind=root'.kind ∧ root.data=root'.data := by
  induction h generalizing root' layers' with
  | object header _ streams =>
    cases h' with
    | object header' _ streams' => exact ⟨rfl,by simpa [header] using header',streams.unique streams'⟩
    | inPack _ based _ => simp [based.isDelta.2] at header
    | outOfPack _ header' _ => simp [header',Header.asKind] at header
  | inPack stored based _ ih =>
    rw [forall_mem_cons] at hs
    cases h' with
    | object header' _ _ => simp [based.isDelta.2] at header'
    | inPack stored' based' chain' =>
      rw [forall_mem_cons] at hs'
      obtain rfl := based.unique based'
      obtain rfl := stored.unique stored' hs.1 hs'.1
      obtain ⟨rfl,hroot⟩ := ih chain' hs.2 hs'.2
      exact ⟨rfl,hroot⟩
    | outOfPack _ header' found' => exact absurd found' (based.not_outOfPack header')
  | outOfPack stored header found =>
    cases h' with
    | object header' _ _ => simp [header,Header.asKind] at header'
    | inPack _ based' _ => exact absurd found (based'.not_outOfPack header)
    | outOfPack stored' header' found' =>
      obtain rfl := stored.unique stored' (hs _ (by simp)) (hs' _ (by simp))
      rw [header,Header.refDelta.injEq] at header'
      subst header'
      have := (found []).symm.trans (found' [])
      simp only [Option.some_inj,Prod.mk.injEq,ResolvedBase.outOfPack.injEq] at this
      exact ⟨rfl,this.1.1,this.2⟩

theorem Composes.unique {base object object' : Bytes} (h : Composes base layers object) (h' : Composes base layers object') : object=object' := by
  induction layers generalizing base with
  | nil => exact Eq.trans h (Eq.symm h')
  | cons l layers ih =>
    obtain ⟨next,hl,hnext⟩ := h
    obtain ⟨next',hl',hnext'⟩ := h'
    have hlen : next.length=next'.length := hl.sized.2.2.symm.trans hl'.sized.2.2
    have happly := hl.apply
    rw [hlen,hl'.apply] at happly
    cases happly
    exact ih hnext hnext'

/-! What is known about the object of an entry -/

/-- The object of an entry, along with its chain. -/
structure Stands (f : File) (env : Env) (resolve : Resolve) (entry : DataEntry) (kind : ObjectKind) (object : Bytes) (layers : List Layer) : Prop where
  intro ::
  chain : ∃ data below, Chain f env resolve entry ⟨kind,data,below⟩ layers ∧ Composes data layers.reverse object

namespace Stands
variable {kind kind' : ObjectKind} {object' : Bytes}

theorem unique (h : Stands f env resolve entry kind object layers) (h' : Stands f env resolve entry kind' object' layers') :
    layers=layers' ∧ kind=kind' ∧ object=object' := by
  obtain ⟨data,_,hchain,hcomposes⟩ := h.chain
  obtain ⟨data',_,hchain',hcomposes'⟩ := h'.chain
  obtain ⟨rfl,hkind,hdata⟩ := hchain.unique hchain' (fun l hl => hcomposes.sized l (mem_reverse.mpr hl))
    (fun l hl => hcomposes'.sized l (mem_reverse.mpr hl))
  obtain rfl : data=data' := hdata
  exact ⟨rfl,hkind,hcomposes.unique hcomposes'⟩

end Stands

theorem hasBytes_append {upper lower : List Layer} : HasBytes (upper++lower) ↔ HasBytes upper ∨ HasBytes lower := by
  simp only [HasBytes,mem_append,or_and_right,exists_or]

/-- What is known about a whole pack: each entry has its own place, and an object. -/
structure Catalog (f : File) (env : Env) (resolve : Resolve) (fuel : ℕ) (entries : DataEntry → Prop) : Prop where
  place : ∀ e e', entries e → entries e' → e.dataOffset = e'.dataOffset → e = e'
  base : ∀ e b, entries e → Based f resolve e b → entries b
  object : ∀ e, entries e → ∃ kind object layers, Stands f env resolve e kind object layers
  enough : ∀ e kind object layers, entries e → Stands f env resolve e kind object layers →
    required e layers ≤ env.memory ∧ layers.length < fuel

/-! Caches -/

/-- What the last `put()` for a key was. -/
abbrev Kept := ℕ × ℕ → Option (Bytes × ObjectKind × ℕ)

/-- Either `get()` misses or it has what was put there last. -/
structure Faithful (c : Cache σ) (Holds : σ → Kept → Prop) : Prop where
  miss : ∀ {s s' kept key out out'}, Holds s kept → c.get key out s = (none,out',s') → Holds s' kept
  hit : ∀ {s s' kept key out out' kind size}, Holds s kept → c.get key out s = (some (kind,size),out',s') →
    kept key = some (out',kind,size) ∧ Holds s' kept
  put : ∀ {s kept} (key data kind size), Holds s kept → Holds (c.put key data kind size s) (Function.update kept key (some (data,kind,size)))

def Misses (c : Cache σ) (Holds : σ → Kept → Prop) (kept : Kept) (key : ℕ × ℕ) : Prop :=
  ∃ out s out' s', Holds s kept ∧ c.get key out s = (none,out',s')

def Hits (c : Cache σ) (Holds : σ → Kept → Prop) (kept : Kept) (key : ℕ × ℕ) : Prop :=
  ∃ out s found out' s', Holds s kept ∧ c.get key out s = (some found,out',s')

/-- All that was kept are the objects of deltas that were decoded. -/
def Truthful (f : File) (env : Env) (resolve : Resolve) (entries : DataEntry → Prop) (called : List DataEntry) (kept : Kept) : Prop :=
  ∀ e object kind size, entries e → kept (f.id,e.dataOffset) = some (object,kind,size) →
    e ∈ called ∧ ∃ layers, Stands f env resolve e kind object layers ∧ HasBytes layers

/-- How far a search went: either to the end, or to a delta whose object was kept. -/
structure Reached (f : File) (env : Env) (c : Cache σ) (Holds : σ → Kept → Prop) (kept : Kept) (called : List DataEntry) (s : Search)
    (kind : ObjectKind) (mid : Bytes) (upper lower : List Layer) : Prop where
  below : Below f env s kind mid
  missed : ∀ l ∈ upper, Misses c Holds kept (f.id,l.dataOffset)
  hit : ∀ l rest, lower = l :: rest → Hits c Holds kept (f.id,l.dataOffset) ∧ (∃ e ∈ called, e.dataOffset = l.dataOffset) ∧
    HasBytes lower ∧ s.objectKind = some kind ∧ s.out = mid

variable {c : Cache σ} {Holds : σ → Kept → Prop} {kept : Kept} {entries : DataEntry → Prop}
  {called : List DataEntry} {fuel : ℕ} {cache : σ} {s : Search}

theorem Reached.of_hit (hfaithful : Faithful c Holds) (htruth : Truthful f env resolve entries called kept) {cache' : σ} (hheld : Holds cache kept) (hentry : entries s.cursor)
    {kind kind' : ObjectKind} {rest : List Layer} (hstands : Stands f env resolve s.cursor kind object (l::rest)) {size : ℕ} {out : Bytes}
    (hget : c.get (f.id,s.cursor.dataOffset) s.out cache=(some (kind',size),out,cache')) (hoffset : l.dataOffset=s.cursor.dataOffset)
    (consumedInput : Option ℕ) : Holds cache' kept ∧ Reached f env c Holds kept called
      { s with out := out,baseBufferSize := some out.length,objectKind := some kind',consumedInput := consumedInput } kind object [] (l::rest) := by
  obtain ⟨hkept,hheld'⟩ := hfaithful.hit hheld hget
  obtain ⟨hcalled,_,hstands',hbytes⟩ := htruth s.cursor out kind' size hentry hkept
  obtain ⟨rfl,rfl,rfl⟩ := hstands.unique hstands'
  refine ⟨hheld',.inBuffer rfl rfl rfl,by simp,fun l' rest' heq => ?_⟩
  cases heq
  exact ⟨⟨s.out,cache,_,object,cache',hheld,hoffset ▸ hget⟩,⟨s.cursor,hcalled,hoffset.symm⟩,hbytes,rfl,rfl⟩

/-- A delta that isn't in the cache is added to those that were found. -/
theorem Reached.cons {kind : ObjectKind} {mid : Bytes} {upper lower : List Layer}
    (h : Reached f env c Holds kept called s kind mid upper lower) (hmiss : Misses c Holds kept (f.id,l.dataOffset)) :
    Reached f env c Holds kept called s kind mid (l::upper) lower :=
  ⟨h.below,forall_mem_cons.mpr ⟨hmiss,h.missed⟩,h.hit⟩

theorem Composes.reverse_cons {base : Bytes} (h : Composes base (l::layers).reverse object) :
    ∃ mid,Composes base layers.reverse mid ∧ l.Applies mid object := by
  rw [List.reverse_cons] at h
  obtain ⟨mid,hmid,_,hl,hlast⟩ := h.of_append
  obtain rfl := hlast
  exact ⟨mid,hmid,hl⟩

/-- The search ends at the object below all deltas, or at one that was kept. -/
theorem Chain.findBase_cached (hbased : ∀ e b,entries e → Based f resolve e b → entries b) (hfaithful : Faithful c Holds)
    (htruth : Truthful f env resolve entries called kept) (h : Chain f env resolve entry root layers) (hcomposes : Composes root.data layers.reverse object)
    (hentry : entries entry) {steps : ℕ} (hsteps : layers.length < steps) (hcursor : s.cursor=entry) (hbuffer : s.baseBufferSize=none)
    (hsize : s.totalDeltaDataSize+deltaSize layers < 2^64) (hheld : Holds cache kept) : ∃ s' cache' upper lower mid,
    f.findBase resolve c steps s cache=(.ok s',cache') ∧ Holds cache' kept ∧ layers=upper++lower ∧ s'.chain=s.chain++upper.map Layer.pending ∧
      s'.totalDeltaDataSize=s.totalDeltaDataSize+deltaSize upper ∧ Composes mid upper.reverse object ∧
      Reached f env c Holds kept called s' root.kind mid upper lower ∧
      (s.totalDeltaDataSize=0 → upper=[] → lower≠[] → s'.consumedInput.isSome) := by
  induction h generalizing steps s cache object with
  | object header _ streams =>
    obtain ⟨k,rfl⟩ := Nat.exists_eq_add_of_lt hsteps
    subst hcursor
    refine ⟨s,cache,[],[],object,?_,hheld,rfl,by simp,by simp [deltaSize],rfl,⟨?_,by simp,by simp⟩,by simp⟩
    · simp [File.findBase,isDelta_of_asKind header]
    · obtain rfl := hcomposes
      exact .inPack hbuffer header streams
  | @inPack entry base root l layers stored based chain ih =>
    obtain ⟨steps,rfl⟩ := Nat.exists_eq_add_one_of_ne_zero (Nat.ne_zero_of_lt hsteps)
    subst hcursor
    rw [File.findBase,if_pos based.isDelta.1]
    rcases hget : c.get (f.id,s.cursor.dataOffset) s.out cache with ⟨found,out,cache'⟩
    cases found with
    | some found =>
      obtain ⟨hheld',hreached⟩ := Reached.of_hit hfaithful htruth hheld hentry ⟨_,_,.inPack stored based chain,hcomposes⟩ hget stored.offset
        (if s.totalDeltaDataSize=0 then some found.2 else s.consumedInput)
      exact ⟨_,cache',[],l::layers,object,rfl,hheld',rfl,by simp,by simp [deltaSize],rfl,hreached,fun hzero _ _ => by simp [hzero]⟩
    | none =>
      obtain ⟨mid,hmid,hl⟩ := hcomposes.reverse_cons
      obtain ⟨hchain,htotal⟩ := stored.push
      obtain ⟨out',hbase⟩ := based.baseOf out
      rw [deltaSize] at hsize
      rw [Nat.mod_eq_of_lt (by omega)] at htotal
      obtain ⟨s',cache'',upper,lower,base',hfound,hheld',hlayers,hchain',htotal',hcomposes',hreached,-⟩ :=
        ih hmid (hbased _ _ hentry based) (by simpa using hsteps) (s := { s.push with cursor := base,out := out' }) rfl hbuffer
          (by simp only [htotal]; omega) (hfaithful.miss hheld hget)
      refine ⟨s',cache'',l::upper,lower,base',?_,hheld',by rw [hlayers]; rfl,?_,?_,by rw [List.reverse_cons]; exact hcomposes'.append ⟨_,hl,rfl⟩,
        hreached.cons ⟨s.out,cache,out,cache',hheld,stored.offset ▸ hget⟩,by simp⟩
      · simpa [hbase] using hfound
      · rw [hchain',hchain,map_cons,append_assoc,singleton_append]
      · rw [htotal',htotal,deltaSize,Nat.add_assoc]
  | @outOfPack entry id kind data l stored header found =>
    obtain ⟨k,rfl⟩ := Nat.exists_eq_add_of_lt hsteps
    subst hcursor
    rw [File.findBase,if_pos (by rw [header]; rfl)]
    rcases hget : c.get (f.id,s.cursor.dataOffset) s.out cache with ⟨kept',out,cache'⟩
    cases kept' with
    | some kept' =>
      obtain ⟨hheld',hreached⟩ := Reached.of_hit hfaithful htruth hheld hentry ⟨_,_,.outOfPack stored header found,hcomposes⟩ hget stored.offset
        (if s.totalDeltaDataSize=0 then some kept'.2 else s.consumedInput)
      exact ⟨_,cache',[],[l],object,rfl,hheld',rfl,by simp,by simp [deltaSize],rfl,hreached,fun hzero _ _ => by simp [hzero]⟩
    | none =>
      obtain ⟨hchain,htotal⟩ := stored.push
      rw [deltaSize] at hsize
      rw [Nat.mod_eq_of_lt (by omega)] at htotal
      have hbase : f.baseOf resolve s.cursor out = .ok (.outOfPack kind data.length,data) := by
        simp [File.baseOf,header,found]
      refine ⟨{ s.push with baseBufferSize := some data.length,objectKind := some kind,out := data },cache',[l],[],data,?_,
        hfaithful.miss hheld hget,rfl,hchain,htotal,hcomposes,⟨.inBuffer rfl rfl rfl,?_,by simp⟩,by simp⟩
      · simp [hbase]
      · exact forall_mem_cons.mpr ⟨⟨s.out,cache,out,cache',hheld,stored.offset ▸ hget⟩,by simp⟩

end Gix.Pack.Decode
