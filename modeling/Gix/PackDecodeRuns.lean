import Gix.PackDecodeResult

/-! # Many calls with one cache

Whether a cache can be noticed depends on which entries are decoded, and in which order. -/
namespace Gix.Pack.Decode
open List Function
variable {σ : Type} {f : File} {env : Env} {resolve : Resolve} {entry : DataEntry} {layers : List Layer}
    {object : Bytes} {kind : ObjectKind}
  {entries : DataEntry → Prop} {called : List DataEntry} {fuel : ℕ} {c : Cache σ} {Holds : σ → Kept → Prop}
    {kept : Kept} {cache : σ}

/-! One call -/

/-- What a call is for: the kind, the size and the bytes of an object. -/
def summary : Except Failure (Outcome × Bytes) → Except Failure (ObjectKind × ℕ × Bytes) :=
  Except.map (fun r => (r.1.kind,r.1.objectSize,r.2))

/-- The result of a call in which some deltas were applied to what was below. -/
structure Answered (r : Except Failure (Outcome × Bytes)) (kind : ObjectKind) (object : Bytes)
    (decompressedSize : ℕ) (upper lower : List Layer) :
    Prop where
  whole : upper = [] → lower = [] → summary r = .ok (kind,object.length,object)
  kept : upper = [] → lower ≠ [] → summary r = .ok (kind,decompressedSize,object)
  composed : HasBytes upper → summary r = .ok (kind,object.length,object)
  panics : upper ≠ [] → ¬HasBytes upper → summary r = .error .panic

theorem IsObject.summary_eq {r : Except Failure (Outcome × Bytes)} {kind : ObjectKind} {numDeltas : ℕ}
    (h : IsObject r kind numDeltas object) :
    summary r = .ok (kind,object.length,object) := by
  obtain ⟨_,rfl,rfl,hsize,-⟩ := h.result
  simp [summary,Except.map,hsize]

theorem not_hasBytes_nil : ¬HasBytes [] := by simp [HasBytes]

section Call
variable (hcatalog : Catalog f env resolve fuel entries)
include hcatalog

theorem Stands.never (h : Stands f env resolve entry kind object layers) (hentry : entries entry)
    (out : Bytes) : Answered (f.decodeEntry env resolve never fuel entry out
      ()).1 kind object entry.decompressedSize layers [] := by
  obtain ⟨hmemory,hfuel⟩ := hcatalog.enough _ _ _ _ hentry h
  obtain ⟨_,_,hchain,hcomposes⟩ := h.chain
  exact ⟨fun hnil _ => (hchain.decode hcomposes (Or.inl hnil) hmemory hfuel out).summary_eq,
    fun _ hne => absurd rfl hne,
    fun hbytes => (hchain.decode hcomposes (Or.inr hbytes) hmemory hfuel out).summary_eq,
    fun hne hnone => by rw [hchain.decode_panics hcomposes hne hnone hmemory hfuel out]; rfl⟩

omit hcatalog in
theorem Truthful.mono (h : Truthful f env resolve entries called kept) (entry : DataEntry) :
    Truthful f env resolve entries (called++[entry]) kept := by
  intro e object kind size he hkept
  obtain ⟨hcalled,hstands⟩ := h e object kind size he hkept
  exact ⟨mem_append_left _ hcalled,hstands⟩

theorem Truthful.put (h : Truthful f env resolve entries called kept) (hentry : entries entry)
    (hstands : Stands f env resolve entry kind object layers) (hbytes : HasBytes layers) (size : ℕ) :
    Truthful f env resolve entries (called++[entry])
      (Function.update kept (f.id,entry.dataOffset) (some (object,kind,size))) := by
  intro e object' kind' size' he hkept
  by_cases hplace : e.dataOffset=entry.dataOffset
  · obtain rfl := hcatalog.place e entry he hentry hplace
    rw [update_self] at hkept
    obtain ⟨rfl,rfl,-⟩ := hkept
    exact ⟨by simp,layers,hstands,hbytes⟩
  · rw [update_of_ne (by simpa using hplace)] at hkept
    exact h.mono entry e object' kind' size' he hkept

/-- What a call does to the cache, and what it finds there. -/
structure Called (f : File) (env : Env) (resolve : Resolve) (c : Cache σ) (Holds : σ → Kept → Prop) (kept : Kept)
    (entries : DataEntry → Prop)
    (called : List DataEntry) (entry : DataEntry) (kind : ObjectKind) (object : Bytes)
      (r : Except Failure (Outcome × Bytes) × σ)
    (upper lower : List Layer) : Prop where
  answer : Answered r.1 kind object entry.decompressedSize upper lower
  held : ∃ kept', Holds r.2 kept' ∧ Truthful f env resolve entries (called++[entry]) kept' ∧
    (∀ key, (kept key).isSome → (kept' key).isSome) ∧
    (HasBytes upper → (kept' (f.id,entry.dataOffset)).isSome)
  missed : ∀ l ∈ upper, Misses c Holds kept (f.id,l.dataOffset)
  hit : ∀ l rest, lower = l :: rest → Hits c Holds kept (f.id,l.dataOffset) ∧
    (∃ e ∈ called, e.dataOffset = l.dataOffset) ∧ HasBytes lower

theorem Stands.call_delta (h : Stands f env resolve entry kind object layers) (hne : layers≠[])
    (hfaithful : Faithful c Holds) (htruth : Truthful f env resolve entries called kept) (hentry : entries entry)
      (hheld : Holds cache kept)
    (out : Bytes) : ∃ upper lower,layers=upper++lower ∧
      Called f env resolve c Holds kept entries called entry kind object
        (f.decodeEntry env resolve c fuel entry out cache) upper lower := by
  obtain ⟨hmemory,hfuel⟩ := hcatalog.enough _ _ _ _ hentry h
  obtain ⟨_,below,hchain,hcomposes⟩ := h.chain
  have hlt := env.memory_lt
  obtain ⟨l,layers,rfl⟩ := exists_cons_of_ne_nil hne
  rw [required] at hmemory
  obtain ⟨s,_,upper,lower,mid,hfound,hheld',hlayers,hs,htotal,hmid,hreached,hconsumed⟩ :=
    hchain.findBase_cached hcatalog.base hfaithful htruth
    hcomposes hentry hfuel (s := ⟨[],entry,none,none,none,0,out⟩) rfl rfl (by simp only; omega) hheld
  refine ⟨upper,lower,hlayers,?_⟩
  have hhit : ∀ l rest,lower=l::rest → Hits c Holds kept (f.id,l.dataOffset) ∧
    (∃ e∈called,e.dataOffset=l.dataOffset) ∧ HasBytes lower :=
    fun l rest heq => ⟨(hreached.hit l rest heq).1,(hreached.hit l rest heq).2.1,(hreached.hit l rest heq).2.2.1⟩
  have hkind := hchain.asKind_eq
  rw [if_neg hne] at hkind
  rw [File.decodeEntry,hkind,File.resolveDeltas,hfound]
  simp only [nil_append,Nat.zero_add] at hs htotal
  cases upper with
  | nil =>
    -- The object itself was kept, and it is returned as it is.
    rw [nil_append] at hlayers
    obtain ⟨-,-,-,hkind',hout⟩ := hreached.hit l layers hlayers.symm
    obtain ⟨consumed,hconsumed⟩ := Option.isSome_iff_exists.mp (hconsumed rfl rfl (by simp [← hlayers]))
    obtain rfl : object=mid := hmid
    refine ⟨⟨fun _ hnil => by simp [hnil] at hlayers,fun _ _ => ?_,fun hb => absurd hb not_hasBytes_nil,
      fun hne => absurd rfl hne⟩,
      ⟨kept,?_,htruth.mono entry,fun _ => id,fun hbytes => absurd hbytes not_hasBytes_nil⟩,hreached.missed,hhit⟩
    · simp only [hs,hkind',hconsumed,hout]
      rfl
    · simpa [hs] using hheld'
  | cons u upper =>
    have hfoundChain : Found f env s kind mid (u::upper) :=
      ⟨hs,htotal,hreached.below,fun l hl => hchain.streams l (by rw [hlayers]; exact mem_append_left _ hl)⟩
    have hsmaller : biggest (u::upper)+biggest (u::upper)+deltaSize (u::upper) ≤ env.memory := by
      rw [hlayers,biggest_append,deltaSize_append] at hmemory
      omega
    simp only [hs]
    by_cases hbytes : HasBytes (u::upper)
    · obtain ⟨consumed,hresolve⟩ := hfoundChain.resolveChain hmid (by simp) (biggest_pos.mpr hbytes) hsmaller entry
      rw [hresolve]
      have hall : HasBytes (l::layers) := by
        rw [hlayers]
        exact hasBytes_append.mpr (Or.inl hbytes)
      refine ⟨⟨by simp,by simp,fun _ => rfl,fun _ hnone => absurd hbytes hnone⟩,
        ⟨_,hfaithful.put (f.id,entry.dataOffset) object kind consumed hheld',
        htruth.put hcatalog hentry h hall consumed,fun key hkept => ?_,fun _ => by simp⟩,hreached.missed,hhit⟩
      rw [update_apply]
      split
      · rfl
      · exact hkept
    · rw [hfoundChain.resolveChain_zero hmid (by simp)
        (Nat.eq_zero_of_not_pos (mt biggest_pos.mp hbytes)) hsmaller entry]
      exact ⟨⟨by simp,by simp,fun hb => absurd hb hbytes,fun _ _ => rfl⟩,
        ⟨kept,hheld',htruth.mono entry,fun _ => id,fun hb => absurd hb hbytes⟩,hreached.missed,
        hhit⟩

theorem Stands.call (h : Stands f env resolve entry kind object layers) (hfaithful : Faithful c Holds)
    (htruth : Truthful f env resolve entries called kept) (hentry : entries entry) (hheld : Holds cache kept)
      (out : Bytes) :
    ∃ upper lower,layers=upper++lower ∧
      Called f env resolve c Holds kept entries called entry kind object
        (f.decodeEntry env resolve c fuel entry out cache) upper lower := by
  by_cases hne : layers=[]
  · subst hne
    have hanswer := h.never hcatalog hentry out
    obtain ⟨_,_,hchain,-⟩ := h.chain
    have hkind := hchain.asKind_eq
    rw [if_pos rfl] at hkind
    refine ⟨[],[],rfl,?_,⟨kept,?_,htruth.mono entry,fun _ => id,fun hbytes => absurd hbytes not_hasBytes_nil⟩,
      by simp,by simp⟩
    · simpa [File.decodeEntry,hkind] using hanswer
    · simpa [File.decodeEntry,hkind] using hheld
  · exact h.call_delta hcatalog hne hfaithful htruth hentry hheld out

end Call

/-! Many calls -/

/-- The results of many calls, each with its own buffer. -/
def File.decodeEntries (f : File) (env : Env) (resolve : Resolve) (c : Cache σ) (fuel : ℕ) :
    List (DataEntry × Bytes) → σ → List (Except Failure (Outcome × Bytes)) × σ
  | [], cache => ([],cache)
  | (entry,out) :: calls, cache =>
    let r := f.decodeEntry env resolve c fuel entry out cache
    let rest := f.decodeEntries env resolve c fuel calls r.2
    (r.1 :: rest.1,rest.2)

theorem decodeEntries_append (c : Cache σ) (earlier later : List (DataEntry × Bytes)) (cache : σ) :
    f.decodeEntries env resolve c fuel (earlier++later) cache =
      ((f.decodeEntries env resolve c fuel earlier cache).1++
        (f.decodeEntries env resolve c fuel later (f.decodeEntries env resolve c fuel earlier cache).2).1,
      (f.decodeEntries env resolve c fuel later (f.decodeEntries env resolve c fuel earlier cache).2).2) := by
  induction earlier generalizing cache with
  | nil => rfl
  | cons call earlier ih => simp [File.decodeEntries,ih]

theorem decodeEntries_length (c : Cache σ) (calls : List (DataEntry × Bytes)) (cache : σ) :
    (f.decodeEntries env resolve c fuel calls cache).1.length=calls.length := by
  induction calls generalizing cache with
  | nil => rfl
  | cons call calls ih => simp [File.decodeEntries,ih]

/-! Calls that do not notice a cache -/

/-- An entry that was decoded before may come from the cache. If it is the entry itself, its delta has to be as long as
its object. If it is further down the chain, there has to be some size in the deltas above it. -/
def Safe (f : File) (env : Env) (resolve : Resolve) (called : List DataEntry) (entry : DataEntry) : Prop :=
  ∀ kind object upper l lower, Stands f env resolve entry kind object (upper++l :: lower) →
    (∃ e ∈ called, e.dataOffset = l.dataOffset) →
    HasBytes (l :: lower) → if upper = [] then entry.decompressedSize = object.length else HasBytes upper

theorem Answered.unique {r r' : Except Failure (Outcome × Bytes)} {size : ℕ}
    (h : Answered r kind object size layers [])
    (h' : Answered r' kind object size layers []) : summary r=summary r' := by
  by_cases hnil : layers=[]
  · rw [h.whole hnil rfl,h'.whole hnil rfl]
  · by_cases hbytes : HasBytes layers
    · rw [h.composed hbytes,h'.composed hbytes]
    · rw [h.panics hnil hbytes,h'.panics hnil hbytes]

variable (hcatalog : Catalog f env resolve fuel entries) {l : Layer}

section Calls
variable {r : Except Failure (Outcome × Bytes) × σ}

/-- Whether the cache is noticed if it has something -/
theorem Called.summary_iff {r' : Except Failure (Outcome × Bytes)} {upper lower : List Layer} {l : Layer}
    (h : Called f env resolve c Holds kept entries called entry kind object r upper (l::lower))
    (h' : Answered r' kind object entry.decompressedSize (upper++l::lower) []) (hbytes : HasBytes (l::lower)) :
    summary r.1=summary r' ↔ if upper=[] then entry.decompressedSize=object.length else HasBytes upper := by
  rw [h'.composed (hasBytes_append.mpr (Or.inr hbytes))]
  by_cases hnil : upper=[]
  · rw [if_pos hnil,h.answer.kept hnil (by simp)]
    simp
  · rw [if_neg hnil]
    constructor
    · intro heq
      by_contra hnone
      rw [h.answer.panics hnil hnone] at heq
      cases heq
    · exact h.answer.composed

include hcatalog
theorem Safe.summary_eq (hsafe : Safe f env resolve called entry)
    (h : Stands f env resolve entry kind object layers) (hentry : entries entry) {upper lower : List Layer}
    (hlayers : layers=upper++lower)
    (hcall : Called f env resolve c Holds kept entries called entry kind object r upper lower) (out : Bytes) :
    summary r.1=summary (f.decodeEntry env resolve never fuel entry out ()).1 := by
  have hnever := h.never hcatalog hentry out
  subst hlayers
  cases lower with
  | nil =>
    rw [append_nil] at hnever
    exact hcall.answer.unique hnever
  | cons l lower =>
    obtain ⟨-,hcalled,hbytes⟩ := hcall.hit l lower rfl
    exact (hcall.summary_iff hnever hbytes).mpr (hsafe kind object upper l lower h hcalled hbytes)

/-- No call of a run notices the cache if all are safe. -/
theorem decodeEntries_safe (hfaithful : Faithful c Holds) {calls : List (DataEntry × Bytes)}
    (hentries : ∀ call∈calls,entries call.1)
    (hsafe : ∀ earlier call later,calls=earlier++call::later →
      Safe f env resolve (called++earlier.map Prod.fst) call.1)
    (htruth : Truthful f env resolve entries called kept) (hheld : Holds cache kept) :
    (f.decodeEntries env resolve c fuel calls cache).1.map summary =
      calls.map (fun call => summary (f.decodeEntry env resolve never fuel call.1 call.2 ()).1) := by
  induction calls generalizing called kept cache with
  | nil => rfl
  | cons call calls ih =>
    obtain ⟨entry,out⟩ := call
    rw [forall_mem_cons] at hentries
    obtain ⟨_,object,_,hstands⟩ := hcatalog.object entry hentries.1
    obtain ⟨_,_,hlayers,hcall⟩ := hstands.call hcatalog hfaithful htruth hentries.1 hheld out
    obtain ⟨_,hheld',htruth',-⟩ := hcall.held
    have hfirst := hsafe [] (entry,out) calls rfl
    rw [map_nil,append_nil] at hfirst
    have hrest := ih hentries.2 (fun earlier call later heq => by
      have := hsafe ((entry,out)::earlier) call later (by rw [heq]; rfl)
      rwa [map_cons,← singleton_append,← append_assoc] at this) htruth' hheld'
    rw [File.decodeEntries,map_cons,map_cons,hrest,hfirst.summary_eq hcatalog hstands hentries.1 hlayers hcall out]

/-- What was put into the cache is still there after more calls. -/
theorem decodeEntries_held (hfaithful : Faithful c Holds) (calls : List (DataEntry × Bytes))
    (hentries : ∀ call∈calls,entries call.1) (htruth : Truthful f env resolve entries called kept)
      (hheld : Holds cache kept) :
    ∃ kept',Holds (f.decodeEntries env resolve c fuel calls cache).2 kept' ∧ Truthful f env resolve entries
      (called++calls.map Prod.fst) kept' ∧
      ∀ key,(kept key).isSome → (kept' key).isSome := by
  induction calls generalizing called kept cache with
  | nil => exact ⟨kept,hheld,by simpa using htruth,fun _ => id⟩
  | cons call calls ih =>
    obtain ⟨entry,out⟩ := call
    rw [forall_mem_cons] at hentries
    obtain ⟨_,object,_,hstands⟩ := hcatalog.object entry hentries.1
    obtain ⟨_,_,-,hcall⟩ := hstands.call hcatalog hfaithful htruth hentries.1 hheld out
    obtain ⟨kept',hheld',htruth',hmono,-⟩ := hcall.held
    obtain ⟨kept'',hheld'',_,hmono'⟩ := ih hentries.2 htruth' hheld'
    refine ⟨kept'',hheld'',?_,fun key hkey => hmono' key (hmono key hkey)⟩
    rwa [map_cons,← singleton_append,← append_assoc]

end Calls

/-! Entries of a chain -/

theorem Stands.head (h : Stands f env resolve entry kind object (l::layers)) : l.dataOffset=entry.dataOffset := by
  obtain ⟨_,_,hchain,-⟩ := h.chain
  cases hchain with
  | inPack stored _ _ => exact stored.offset
  | outOfPack stored _ _ => exact stored.offset

section Catalog
include hcatalog

theorem Stands.tail (h : Stands f env resolve entry kind object (l::layers)) (hne : layers≠[])
    (hentry : entries entry) :
    ∃ base mid,entries base ∧ Stands f env resolve base kind mid layers := by
  obtain ⟨data,below,hchain,hcomposes⟩ := h.chain
  cases hchain with
  | inPack stored based chain =>
    obtain ⟨mid,hmid,-⟩ := hcomposes.reverse_cons
    exact ⟨_,mid,hcatalog.base _ _ hentry based,⟨data,below,chain,hmid⟩⟩
  | outOfPack _ _ _ => exact absurd rfl hne

theorem Stands.sub (upper : List Layer) {lower : List Layer}
    (h : Stands f env resolve entry kind object (upper++l::lower))
    (hentry : entries entry) :
    ∃ e mid,entries e ∧ e.dataOffset=l.dataOffset ∧ Stands f env resolve e kind mid (l::lower) := by
  induction upper generalizing entry object with
  | nil => exact ⟨entry,object,hentry,h.head.symm,h⟩
  | cons u upper ih =>
    obtain ⟨_,mid,hbase,hstands⟩ := h.tail hcatalog (by simp) hentry
    exact ih hstands hbase

theorem Stands.nodup (h : Stands f env resolve entry kind object layers) (hentry : entries entry) :
    (layers.map Layer.dataOffset).Nodup := by
  induction layers generalizing entry object with
  | nil => exact nodup_nil
  | cons l layers ih =>
    rw [map_cons,nodup_cons]
    constructor
    · intro hmem
      obtain ⟨l',hl',hoffset⟩ := mem_map.mp hmem
      obtain ⟨upper,_,rfl⟩ := append_of_mem hl'
      obtain ⟨e,mid,he,hplace,hstands⟩ := Stands.sub hcatalog (l::upper) h hentry
      obtain rfl := hcatalog.place e entry he hentry (hplace.trans (hoffset.trans h.head))
      have hlen := congrArg length (h.unique hstands).1
      simp only [length_cons,length_append] at hlen
      omega
    · cases layers with
      | nil => exact nodup_nil
      | cons l' layers =>
        obtain ⟨_,mid,hbase,hstands⟩ := h.tail hcatalog (by simp) hentry
        exact ih hstands hbase

end Catalog

/-! A cache with room for a single entry -/

/-- Keeps what is put for one key. -/
def only (key : ℕ × ℕ) : Cache (Option (Bytes × ObjectKind × ℕ)) where
  get k out s := if k = key then (s.map Prod.snd,(s.map Prod.fst).getD out,s) else (none,out,s)
  put k data kind size s := if k = key then some (data,kind,size) else s

def OnlyHolds (key : ℕ × ℕ) (s : Option (Bytes × ObjectKind × ℕ)) (kept : Kept) : Prop := s = kept key

theorem only_faithful (key : ℕ × ℕ) : Faithful (only key) (OnlyHolds key) where
  miss := by
    intro s s' kept k out out' hheld hget
    by_cases hk : k=key <;> simp only [only,hk,if_true,if_false,Prod.mk.injEq] at hget <;> exact hget.2.2 ▸ hheld
  hit := by
    intro s s' kept k out out' kind size hheld hget
    by_cases hk : k=key
    · subst hk
      simp only [only,if_true,Prod.mk.injEq] at hget
      obtain ⟨hsome,hout,rfl⟩ := hget
      obtain ⟨⟨data,_⟩,rfl,rfl⟩ := Option.map_eq_some_iff.mp hsome
      exact ⟨by rw [← hheld,← hout]; rfl,hheld⟩
    · simp [only,hk] at hget
  put := by
    intro s kept k data kind size hheld
    by_cases hk : k=key
    · subst hk
      simp [OnlyHolds,only]
    · simpa [OnlyHolds,only,hk,Function.update_of_ne (Ne.symm hk)] using hheld

theorem only_hits {key k : ℕ × ℕ} {kept : Kept} (h : Hits (only key) (OnlyHolds key) kept k) : k=key ∧
    (kept key).isSome := by
  obtain ⟨_,s,_,_,_,hheld,hget⟩ := h
  by_cases hk : k=key
  · subst hk
    simp only [only] at hget
    cases s with
    | none => simp at hget
    | some x => exact ⟨rfl,by rw [← hheld]; rfl⟩
  · simp [only,hk] at hget

theorem only_misses {key : ℕ × ℕ} {kept : Kept} (h : Misses (only key) (OnlyHolds key) kept key) :
    (kept key).isSome=false := by
  obtain ⟨_,_,_,_,hheld,hget⟩ := h
  simp only [only,if_true,Prod.mk.injEq,Option.map_eq_none_iff] at hget
  rw [← hheld,hget.1]
  rfl

section Only
variable {key : ℕ × ℕ}
include hcatalog

theorem decodeEntries_only (h : Stands f env resolve entry kind object layers) (hbytes : HasBytes layers)
    (hkey : key=(f.id,entry.dataOffset)) (calls : List (DataEntry × Bytes)) (hentries : ∀ call∈calls,entries call.1)
    (hmem : entry∈calls.map Prod.fst) (htruth : Truthful f env resolve entries called kept)
      (cache : Option (Bytes × ObjectKind × ℕ))
    (hheld : OnlyHolds key cache kept) : ∃ kept',OnlyHolds key
      (f.decodeEntries env resolve (only key) fuel calls cache).2 kept' ∧
      Truthful f env resolve entries (called++calls.map Prod.fst) kept' ∧ (kept' key).isSome := by
  obtain ⟨⟨e,out⟩,hcall,rfl⟩ := mem_map.mp hmem
  obtain ⟨earlier,later,rfl⟩ := append_of_mem hcall
  have hentry := hentries (e,out) hcall
  obtain ⟨kept',hheld',htruth',-⟩ := decodeEntries_held hcatalog (only_faithful key) earlier
    (fun call hc => hentries call (mem_append_left _ hc)) htruth hheld
  obtain ⟨_,lower,hlayers,hcall⟩ := h.call hcatalog (only_faithful key) htruth' hentry hheld' out
  obtain ⟨kept'',hheld'',htruth'',hnow,hput⟩ := hcall.held
  have hsome : (kept'' key).isSome := by
    cases lower with
    | nil =>
      rw [append_nil] at hlayers
      rw [hkey]
      exact hput (hlayers ▸ hbytes)
    | cons l lower => exact hnow key (only_hits (hcall.hit l lower rfl).1).2
  obtain ⟨kept₃,hheld₃,htruth₃,hmono⟩ := decodeEntries_held hcatalog (only_faithful key) later
    (fun call hc => hentries call (mem_append_right _ (mem_cons_of_mem _ hc))) htruth'' hheld''
  refine ⟨kept₃,?_,?_,hmono key hsome⟩
  · rw [decodeEntries_append]
    exact hheld₃
  · rwa [append_assoc,append_assoc,singleton_append,← map_cons,← map_append] at htruth₃

end Only

/-- Whatever cache is used, and whatever it forgets, all calls have the same results as without one. -/
def Unnoticed (f : File) (env : Env) (resolve : Resolve) (fuel : ℕ) (calls : List (DataEntry × Bytes)) : Prop :=
  ∀ (σ : Type) (c : Cache σ) (Holds : σ → Kept → Prop) (cache : σ), Faithful c Holds → Holds cache (fun _ => none) →
    (f.decodeEntries env resolve c fuel calls cache).1.map summary =
      calls.map (fun call => summary (f.decodeEntry env resolve never fuel call.1 call.2 ()).1)

/-- No call notices any cache exactly if all of them are safe. -/
theorem cache_transparent_iff (f : File) (env : Env) (resolve : Resolve)
    (hcatalog : Catalog f env resolve fuel entries)
    (calls : List (DataEntry × Bytes)) (hentries : ∀ call ∈ calls, entries call.1) :
    Unnoticed f env resolve fuel calls ↔
      ∀ earlier call later, calls = earlier++call :: later → Safe f env resolve (earlier.map Prod.fst) call.1 := by
  have hempty : Truthful f env resolve entries [] (fun _ => none) := fun _ _ _ _ _ hkept => by cases hkept
  constructor
  · rintro hsame earlier ⟨entry,out⟩ later rfl kind object upper l lower hstands ⟨e,hcalled,hplace⟩ hbytes
    have hentry := hentries (entry,out) (by simp)
    obtain ⟨e',_,he',hplace',hsub⟩ := Stands.sub hcatalog upper hstands hentry
    obtain ⟨call,hcall,rfl⟩ := mem_map.mp hcalled
    obtain rfl := hcatalog.place call.1 e' (hentries call (mem_append_left _ hcall)) he' (hplace.trans hplace'.symm)
    obtain ⟨_,hheld,htruth,hkept⟩ := decodeEntries_only hcatalog hsub hbytes
      (show (f.id,l.dataOffset)=_ by rw [hplace])
      earlier (fun call hc => hentries call (mem_append_left _ hc)) hcalled hempty none rfl
    have hrun := hsame _ (only (f.id,l.dataOffset)) (OnlyHolds (f.id,l.dataOffset)) none (only_faithful _) rfl
    rw [decodeEntries_append,map_append,map_append] at hrun
    have hnext := (append_inj hrun (by rw [length_map,decodeEntries_length,length_map])).2
    obtain ⟨_,lower',hlayers,hcall⟩ := hstands.call hcatalog (only_faithful _) htruth hentry hheld out
    -- The call finds what the cache has, which is where the chain is cut.
    cases lower' with
    | nil =>
      rw [append_nil] at hlayers
      simp [only_misses (hcall.missed l (by rw [← hlayers]; simp))] at hkept
    | cons l' lower' =>
      have hoffset := (Prod.mk.inj (only_hits (hcall.hit l' lower' rfl).1).1).2
      have hnodup := hstands.nodup hcatalog hentry
      have hmap := congrArg (map Layer.dataOffset) hlayers
      rw [map_append,map_append,map_cons,map_cons,hoffset] at hmap
      rw [map_append,map_cons,nodup_middle,nodup_cons,mem_append,not_or] at hnodup
      have hlen := congrArg length ((append_cons_inj_of_notMem hnodup.1.1 hnodup.1.2).mp hmap).1
      rw [length_map,length_map] at hlen
      obtain ⟨rfl,hrest⟩ := append_inj hlayers hlen
      obtain ⟨rfl,rfl⟩ := cons.inj hrest
      exact (hcall.summary_iff (hstands.never hcatalog hentry out) hbytes).mp (cons.inj hnext).1
  · intro hsafe σ c Holds cache hfaithful hheld
    exact decodeEntries_safe hcatalog hfaithful hentries hsafe hempty hheld

/-- The blob at the beginning of a pack, and a delta behind it. -/
def pairEntries (size : ℕ) (e : DataEntry) : Prop := e = ⟨.blob,3,1⟩ ∨ e = ⟨.ofsDelta 5,size,7⟩

theorem pair_catalog {size : ℕ} {l : Layer} (hblob : Stands f plainEnv noLookup ⟨.blob,3,1⟩ .blob [97,98,99] [])
    (hdelta : Stands f plainEnv noLookup ⟨.ofsDelta 5,size,7⟩ .blob object [l])
    (hbase : Based f noLookup ⟨.ofsDelta 5,size,7⟩ ⟨.blob,3,1⟩)
      (hmemory : required ⟨.ofsDelta 5,size,7⟩ [l] ≤ 2^20) :
    Catalog f plainEnv noLookup 2 (pairEntries size) where
  place := by
    rintro e e' (rfl | rfl) (rfl | rfl) h
    · rfl
    · cases h
    · cases h
    · rfl
  base := by
    rintro e b (rfl | rfl) h
    · cases h.isDelta.1
    · exact Or.inl (h.unique hbase)
  object := by
    rintro e (rfl | rfl)
    · exact ⟨_,_,_,hblob⟩
    · exact ⟨_,_,_,hdelta⟩
  enough := by
    rintro e kind object layers (rfl | rfl) h
    · obtain ⟨rfl,-⟩ := h.unique hblob
      decide
    · obtain ⟨rfl,-⟩ := h.unique hdelta
      exact ⟨hmemory,by simp⟩

theorem smallPack_catalog : Catalog smallPack plainEnv noLookup 2 (pairEntries 5) :=
  pair_catalog ⟨_,_,.object rfl rfl (Streams.plain rfl rfl),rfl⟩ ⟨_,_,smallPack_chain,smallPack_composes⟩
    (.ofs 5 0 rfl rfl rfl)
    (by decide)

/-- The blob `abc`, and a delta as long as the object `abcabc` that it makes of it. -/
def doubledPack : File := ⟨[0x33,3,97,98,99,0x66,5,6,3,6,0x90,3,0x90,3],0⟩

def doubledLayer : Layer := ⟨7,[3],[6],[0x90,3,0x90,3]⟩

theorem doubledPack_delta : Stands doubledPack plainEnv noLookup ⟨.ofsDelta 5,6,7⟩ .blob [97,98,99,97,98,99]
    [doubledLayer] :=
  ⟨[97,98,99],_,.inPack ⟨rfl,rfl,.plain rfl rfl⟩ (.ofs 5 0 rfl rfl rfl) (.object rfl rfl (.plain rfl rfl)),
    [97,98,99,97,98,99],⟨.single 3 (by decide),.single 6 (by decide),rfl⟩,rfl⟩

/-- The second of the calls for the delta is served from a cache that keeps it. -/
theorem cache_transparent_small :
    Unnoticed doubledPack plainEnv noLookup 2 [(⟨.blob,3,1⟩,[]),(⟨.ofsDelta 5,6,7⟩,[]),(⟨.ofsDelta 5,6,7⟩,[])] ∧
    ((only (0,7)).get (0,7) [] (doubledPack.decodeEntries plainEnv noLookup (only (0,7)) 2
      [(⟨.blob,3,1⟩,[]),(⟨.ofsDelta 5,6,7⟩,[])] none).2).1 = some (.blob,7) := by
  have hblob : Stands doubledPack plainEnv noLookup ⟨.blob,3,1⟩ .blob [97,98,99] [] :=
    ⟨_,_,.object rfl rfl (Streams.plain rfl rfl),rfl⟩
  have hcalls : ∀ call∈[(⟨.blob,3,1⟩,[]),(⟨.ofsDelta 5,6,7⟩,[]),(⟨.ofsDelta 5,6,7⟩,[])],pairEntries 6
    (call : DataEntry × Bytes).1 := by
    simp [pairEntries]
  refine ⟨(cache_transparent_iff doubledPack plainEnv noLookup
    (pair_catalog hblob doubledPack_delta (.ofs 5 0 rfl rfl rfl) (by decide)) _ hcalls).mpr ?_,rfl⟩
  intro earlier call later heq kind object upper l lower hstands _ _
  rcases hcalls call (by rw [heq]; simp) with hcall | hcall <;> rw [hcall] at hstands ⊢
  · simpa using (hstands.unique hblob).1
  · obtain ⟨hlayers,-,rfl⟩ := hstands.unique doubledPack_delta
    obtain ⟨rfl,-⟩ | ⟨-,hnil⟩ := append_eq_singleton_iff.mp hlayers
    · rfl
    · cases hnil

/-- An object that comes from the cache has the size of its delta. -/
theorem cached_object_size : Catalog smallPack plainEnv noLookup 2 (pairEntries 5) ∧
    Faithful (only (0,7)) (OnlyHolds (0,7)) ∧
    OnlyHolds (0,7) none (fun _ => none) ∧
    (smallPack.decodeEntries plainEnv noLookup (only (0,7)) 2
      [(⟨.ofsDelta 5,5,7⟩,[]),(⟨.ofsDelta 5,5,7⟩,[])] none).1.map summary =
      [.ok (.blob,2,[98,99]),.ok (.blob,5,[98,99])] ∧
    summary (smallPack.decodeEntry plainEnv noLookup never 2 ⟨.ofsDelta 5,5,7⟩ [] ()).1 = .ok (.blob,2,[98,99]) :=
  ⟨smallPack_catalog,only_faithful (0,7),rfl,rfl,rfl⟩

end Gix.Pack.Decode
