import Gix.ThinPackChanges

/-! # Completing entry by entry

What the iterator makes of each entry, and what holds of its changes and of what it has yielded
by then. -/
namespace Gix.ThinPack
open Gix.Pack List

variable {env : Env} {s s' : Iter} {e : Entry} {es es' : List Entry} {out : List (Slot × Entry)} {off : ℕ}

/-! Records -/

/-- What `track_change()` records. -/
def recordOf (packOffset shiftedPackOffset : ℕ) (sizeChange : ℤ) (oid : ObjectId) : List Change :=
  if sizeChange = 0 then [] else [⟨packOffset,shiftedPackOffset,sizeChange,oid⟩]

/-- The iterator with more changes. -/
def Iter.withChanges (s : Iter) (new : List Change) : Iter :=
  {s with changes := s.changes++new, inserted := s.inserted+(new.map Change.sizeChange).sum}

theorem Iter.withChanges_append (s : Iter) (new new' : List Change) :
    (s.withChanges new).withChanges new'=s.withChanges (new++new') := by
  simp [withChanges,Int.add_assoc]

theorem trackChange_eq (s : Iter) (shifted p : ℕ) (change : ℤ) (oid : Option ObjectId) :
    trackChange s shifted p change oid=s.withChanges (recordOf p shifted change (oid.getD .null)) := by
  unfold trackChange recordOf Iter.withChanges
  split <;> simp

theorem sum_recordOf (p shifted : ℕ) (change : ℤ) (oid : ObjectId) :
    ((recordOf p shifted change oid).map Change.sizeChange).sum=change := by
  unfold recordOf
  split <;> simp [*]

/-- A delta that was moved and points to its base by offset. -/
def pointed (env : Env) (e : Entry) (packOffset distance : ℕ) : Entry :=
  let shifted := {e with
    packOffset := packOffset
    header := .ofsDelta distance
    headerSize := (Header.ofsDelta distance).size e.decompressedSize}
  {shifted with crc32 := shifted.computeCrc32 env}

/-- The change of the size of its header. -/
def headerChange (e : Entry) (distance : ℕ) : ℤ :=
  ((Header.ofsDelta distance).size e.decompressedSize : ℤ)-e.headerSize

theorem shiftEntry_eq (env : Env) (hoff : (e.packOffset : ℤ)+s.inserted=off) (hkept : e.compressed≠none) (distance : ℕ) :
    shiftEntry env s e distance=some (pointed env e off distance,
      s.withChanges (recordOf e.packOffset off (headerChange e distance) .null)) := by
  obtain ⟨_,hc⟩ := Option.ne_none_iff_exists'.mp hkept
  simp [shiftEntry,shiftedPackOffset_eq hoff,trackChange_eq,pointed,headerChange,Entry.computeCrc32,hc]

theorem nextEntry_other (env : Env) (s : Iter) (href : ∀ id,e.header ≠ .refDelta id) : nextEntry env s e=nextOther env s e := by
  unfold nextEntry
  split
  · rename_i id hid
    exact absurd hid (href id)
  · rfl

theorem nextOther_zero (hzero : s.inserted=0) : nextOther env s e=some (some (.ok e),s) := by
  simp [nextOther,hzero]

/-! All that is yielded for an entry -/

/-- The calls of `next()` until the inner iterator is asked again. -/
def process (env : Env) (s : Iter) (e : Entry) : Option (List Entry × Iter) :=
  match nextEntry env s e with
  | some (some (.ok y),s') => match s'.nextDelta with
    | some delta => some ([y,delta],{s' with nextDelta := none})
    | none => some ([y],s')
  | _ => none

theorem process_one {y : Entry} (hnext : nextEntry env s e=some (some (.ok y),s')) (hs' : s'.nextDelta=none) :
    process env s e=some ([y],s') := by
  simp [process,hnext,hs']

/-- Nothing is left to be yielded. -/
structure Quiet (s : Iter) : Prop where
  nextDelta : s.nextDelta = none
  error : s.error = false

theorem collect_process (hs : Quiet s) {ys : List Entry} (hprocess : process env s e=some (ys,s')) (hs' : Quiet s')
    (fuel : ℕ) (inner : List (Except Error Entry)) : collect env (fuel+ys.length) (.ok e::inner) s =
      (collect env fuel inner s').map (fun items => ys.map .ok++items) := by
  unfold process at hprocess
  split at hprocess
  · rename_i y s1 hnext
    split at hprocess
    · rename_i delta hdelta
      cases hprocess
      have herror : s1.error=false := hs'.error
      simp only [length_cons,length_nil]
      rw [collect]
      simp only [next,hs.error,hs.nextDelta,hnext,Option.map_some,Bool.false_eq_true,if_false]
      rw [collect]
      simp only [next,herror,hdelta,Bool.false_eq_true,if_false,Option.map_map]
      rfl
    · cases hprocess
      rw [length_singleton,collect]
      simp only [next,hs.error,hs.nextDelta,hnext]
      rfl
  · simp at hprocess

/-! What holds between two entries -/

structure Progress (env : Env) (es : List Entry) (out : List (Slot × Entry)) (s : Iter) : Prop where
  quiet : Quiet s
  places : out.map Prod.fst = slots es
  fills : ∀ x ∈ out, Fills env es x.1 x.2
  contiguous : Contiguous 12 (out.map Prod.snd)
  linked : LinksUp es out
  ledger : Ledger s.changes (endOf 12 es)
  total : s.inserted = (s.changes.map Change.sizeChange).sum
  finish : (endOf 12 es : ℤ)+s.inserted = endOf 12 (out.map Prod.snd)
  located : ∀ i e y, es[i]? = some e → (.entry i,y) ∈ out → rebased s.changes e.packOffset = y.packOffset
  based : ∀ id c, s.changes.reverse.find? (fun c => c.oid = id) = some c →
    ∃ b y, (b,y) ∈ out ∧ c.shiftedPackOffset = y.packOffset ∧ if id = .null then ∃ i, b = .entry i else b = .base id
  recorded : ∀ id y, (.base id,y) ∈ out → ∃ c ∈ s.changes, c.oid = id

theorem Progress.initial : Progress env [] [] .new := by
  refine ⟨⟨rfl,rfl⟩,rfl,by simp,trivial,by simp [LinksUp],⟨by simp [Iter.new],by simp [Iter.new],by simp [Iter.new]⟩,rfl,
    rfl,by simp,by simp [Iter.new],by simp⟩

variable {i : ℕ} {obj : Data} {base : Entry} {p : ℕ}

theorem entry_mem_slots (h : .entry i∈slots es) : i < es.length := by
  induction es using reverseRecOn with
  | nil => simp [slots,slotsFrom] at h
  | append_singleton es e ih =>
    rw [slots_concat,mem_append] at h
    rw [length_append,length_singleton]
    rcases h with h | h
    · have := ih h
      omega
    · have : i=es.length := by
        unfold slotsOf at h
        split at h
        · split at h <;> simpa using h
        · simpa using h
      omega

theorem entry_mem_of_lt (h : i < es.length) : .entry i∈slots es := by
  induction es using reverseRecOn with
  | nil => simp at h
  | append_singleton es e ih =>
    rw [slots_concat,mem_append]
    rw [length_append,length_singleton] at h
    by_cases hi : i < es.length
    · exact .inl (ih hi)
    · obtain rfl : i=es.length := by omega
      exact .inr (entry_mem_slotsOf es e)

theorem entry_mem_slotsOf_eq (h : .entry i∈slotsOf es e) : i=es.length := by
  unfold slotsOf at h
  split at h
  · split at h <;> simpa using h
  · simpa using h

/-- One more entry, with what is yielded for it and the changes that go with it. -/
theorem Progress.extend (h : Progress env es out s) (hes : Contiguous 12 es) (hpos : ∀ x∈es,0 < x.bytesInPack)
    (hepos : 0 < e.bytesInPack) (hoffset : e.packOffset=endOf 12 es) {zs : List (Slot × Entry)} {new : List Change}
    (hslots : zs.map Prod.fst=slotsOf es e) (hfills : ∀ x∈zs,Fills env (es++[e]) x.1 x.2)
    (hcontiguous : Contiguous (endOf 12 (out.map Prod.snd)) (zs.map Prod.snd))
    (hlinked : ∀ i y distance,(.entry i,y)∈zs → y.header = .ofsDelta distance →
      ∃ b y',BaseOf (es++[e]) i b ∧ (b,y')∈out++zs ∧ y'.packOffset+distance=y.packOffset)
    (hnew : ∀ c∈new,c.packOffset=e.packOffset) (hlen : new.length ≤ 2)
    (hsize : (((zs.map Prod.snd).map Entry.bytesInPack).sum : ℤ)=e.bytesInPack+(new.map Change.sizeChange).sum)
    (hlocated : ∀ y,(.entry es.length,y)∈zs → rebased (s.changes++new) e.packOffset=y.packOffset)
    (hbased : ∀ id c,new.reverse.find? (fun c => c.oid=id)=some c →
      ∃ b y,(b,y)∈zs ∧ c.shiftedPackOffset=y.packOffset ∧ if id = .null then ∃ i,b = .entry i else b = .base id)
    (hrecorded : ∀ id y,(.base id,y)∈zs → ∃ c∈new,c.oid=id) :
    Progress env (es++[e]) (out++zs) (s.withChanges new) := by
  have hend : endOf 12 (es++[e])=endOf 12 es+e.bytesInPack := by rw [endOf_append,endOf_singleton]
  refine ⟨⟨h.quiet.nextDelta,h.quiet.error⟩,?_,?_,?_,?_,?_,?_,?_,?_,?_,?_⟩
  · rw [map_append,h.places,hslots,slots_concat]
  · intro x hx
    rcases mem_append.mp hx with hx | hx
    · exact (h.fills x hx).append _
    · exact hfills x hx
  · rw [map_append]
    exact contiguous_append.mpr ⟨h.contiguous,hcontiguous⟩
  · intro i y distance hy hheader
    rcases mem_append.mp hy with hy | hy
    · obtain ⟨b,y',hb,hy',hrest⟩ := h.linked i y distance hy hheader
      exact ⟨b,y',hb.append _,mem_append_left _ hy',hrest⟩
    · exact hlinked i y distance hy hheader
  · exact h.ledger.append (fun c hc => (hnew c hc).trans hoffset) hlen (by omega)
  · simp [Iter.withChanges,h.total]
  · have hfinish := h.finish
    have hzs : endOf (endOf 12 (out.map Prod.snd)) (zs.map Prod.snd) =
        endOf 12 (out.map Prod.snd)+((zs.map Prod.snd).map Entry.bytesInPack).sum := rfl
    simp only [Iter.withChanges,map_append,endOf_append,endOf_singleton]
    omega
  · intro i x y hx hy
    by_cases hi : i < es.length
    · rw [getElem?_append_left hi] at hx
      have hxmem := mem_of_getElem? hx
      have hy' : (.entry i,y)∈out := by
        refine (mem_append.mp hy).resolve_right fun hy => ?_
        have := entry_mem_slotsOf_eq (hslots ▸ mem_map_of_mem hy)
        omega
      have hbefore := (contiguous_mem hes hxmem).2
      have := hpos x hxmem
      rw [Iter.withChanges,rebased_append (fun c hc => (hnew c hc).trans hoffset) (by omega)]
      exact h.located i x y hx hy'
    · have hi' : i=es.length := by
        have := (List.getElem?_eq_some_iff.mp hx).1
        rw [length_append,length_singleton] at this
        omega
      subst hi'
      obtain rfl : e=x := by simpa using hx
      have hy' : (.entry es.length,y)∈zs := by
        refine (mem_append.mp hy).resolve_left fun hy => ?_
        have := entry_mem_slots (h.places ▸ mem_map_of_mem hy)
        omega
      exact hlocated y hy'
  · intro id c hc
    rw [Iter.withChanges,reverse_append,find?_append] at hc
    rcases Option.or_eq_some_iff.mp hc with hc | ⟨-,hc⟩
    · obtain ⟨b,y,hy,hrest⟩ := hbased id c hc
      exact ⟨b,y,mem_append_right _ hy,hrest⟩
    · obtain ⟨b,y,hy,hrest⟩ := h.based id c hc
      exact ⟨b,y,mem_append_left _ hy,hrest⟩
  · intro id y hy
    rcases mem_append.mp hy with hy | hy
    · obtain ⟨c,hc,hid⟩ := h.recorded id y hy
      exact ⟨c,mem_append_left _ hc,hid⟩
    · obtain ⟨c,hc,hid⟩ := hrecorded id y hy
      exact ⟨c,mem_append_right _ hc,hid⟩

theorem fromDataObj_ok (h : Entry.fromDataObj env obj p = .ok base) :
    base.header=Entry.toHeader obj.kind ∧ base.headerSize=base.header.size base.decompressedSize := by
  cases hc : env.compress obj.data with
  | error err => simp [Entry.fromDataObj,hc,Bind.bind,Except.bind] at h
  | ok c =>
    simp only [Entry.fromDataObj,hc,Bind.bind,Except.bind,pure,Except.pure,Except.ok.injEq] at h
    subst h
    exact ⟨rfl,rfl⟩

theorem bytesInPack_pos (h : e.headerSize=e.header.size e.decompressedSize) : 0 < e.bytesInPack := by
  have := e.header.size_pos e.decompressedSize
  rw [Entry.bytesInPack]
  omega

theorem fromDataObj_pos (h : Entry.fromDataObj env obj p = .ok base) :
    0 < base.bytesInPack := bytesInPack_pos (fromDataObj_ok h).2

/-! The entries of the original pack -/

/-- An entry behind those that came before: its header has the size it is written with, the
bytes of deltas are there, and bases can be found. -/
structure Fit (env : Env) (es : List Entry) (e : Entry) : Prop where
  offset : e.packOffset = endOf 12 es
  size : e.headerSize = e.header.size e.decompressedSize
  kept : e.header.isDelta = true → e.compressed ≠ none
  reaches : ∀ d, e.header = .ofsDelta d → ∃ (j : ℕ) (e' : Entry), es[j]? = some e' ∧ e'.packOffset+d = e.packOffset
  found : ∀ id, e.header = .refDelta id → ∃ obj base, env.tryFind id = some (some obj) ∧
    Entry.fromDataObj env obj 0 = .ok base

theorem Fit.bytesInPack_pos (h : Fit env es e) : 0 < e.bytesInPack := ThinPack.bytesInPack_pos h.size

/-- Entries of a pack. -/
structure Original (es : List Entry) : Prop where
  contiguous : Contiguous 12 es
  pos : ∀ e ∈ es, 0 < e.bytesInPack

section Steps
variable (h : Progress env es out s) (hes : Original es) (hfit : Fit env es e)
include h hfit

theorem Progress.offset : (e.packOffset : ℤ)+s.inserted=endOf 12 (out.map Prod.snd) := by
  rw [hfit.offset]
  exact h.finish

include hes

variable {y : Entry} {d : ℕ} {id : ObjectId} {c : ℤ} {b : Slot}

theorem Progress.single (hslots : slotsOf es e=[.entry es.length])
    (hy : y.packOffset=endOf 12 (out.map Prod.snd)) (hsize : (y.bytesInPack : ℤ)=e.bytesInPack+c)
    (hfills : Fills env (es++[e]) (.entry es.length) y) (hlinked : ∀ distance,y.header = .ofsDelta distance →
      ∃ b y',BaseOf (es++[e]) es.length b ∧ (b,y')∈out ∧ y'.packOffset+distance=y.packOffset) :
    Progress env (es++[e]) (out++[(.entry es.length,y)])
      (s.withChanges (recordOf e.packOffset y.packOffset c .null)) := by
  refine h.extend hes.contiguous hes.pos hfit.bytesInPack_pos hfit.offset hslots.symm ?_ ?_ ?_ ?_ ?_ ?_ ?_ ?_ ?_
  · intro x hx
    obtain rfl := mem_singleton.mp hx
    exact hfills
  · simpa [Contiguous] using hy
  · intro i y' distance hy' hheader
    obtain ⟨rfl,rfl⟩ : i=es.length ∧ y'=y := by simpa using hy'
    obtain ⟨b,y',hb,hmem,hrest⟩ := hlinked distance hheader
    exact ⟨b,y',hb,mem_append_left _ hmem,hrest⟩
  · intro r hr
    unfold recordOf at hr
    split at hr
    · simp at hr
    · rw [mem_singleton.mp hr]
  · unfold recordOf
    split <;> simp
  · rw [sum_recordOf]
    simpa using hsize
  · intro y' hy'
    obtain rfl : y'=y := by simpa using hy'
    by_cases hchange : c=0
    · have hoffset := h.offset hfit
      rw [recordOf,if_pos hchange,append_nil,hfit.offset,h.ledger.rebased_end,← hfit.offset,← h.total,hoffset,hy]
    · rw [recordOf,if_neg hchange]
      exact rebased_concat s.changes ⟨e.packOffset,y'.packOffset,c,.null⟩
  · intro id r hr
    unfold recordOf at hr
    split at hr
    · simp at hr
    · simp only [reverse_singleton,find?_singleton] at hr
      split at hr
      · rename_i hid
        cases hr
        have hid : ObjectId.null=id := by simpa using hid
        exact ⟨_,y,mem_singleton_self _,rfl,by simp [← hid]⟩
      · simp at hr
  · intro id y' hy'
    simp at hy'

omit hfit hes in
theorem Progress.before (hy : (b,y)∈out) : y.packOffset ≤ endOf 12 (out.map Prod.snd) := by
  have : y.packOffset+y.bytesInPack ≤ endOf 12 (out.map Prod.snd) :=
    (contiguous_mem h.contiguous (mem_map_of_mem hy)).2
  omega

omit h hes hfit in
theorem fills_pointed (hdelta : e.header.isDelta=true) (off distance : ℕ) :
    Fills env (es++[e]) (.entry es.length) (pointed env e off distance) :=
  ⟨e,by simp,rfl,rfl,rfl,rfl,rfl,by rw [if_pos hdelta]; exact ⟨distance,rfl⟩⟩

omit h hes hfit in
theorem pointed_bytesInPack (env : Env) (e : Entry) (off distance : ℕ) :
    ((pointed env e off distance).bytesInPack : ℤ)=e.bytesInPack+headerChange e distance := by
  simp only [pointed,Entry.bytesInPack,headerChange]
  omega

/-- An object that is not a delta is moved. -/
theorem Progress.stepPlain (hplain : e.header.isDelta=false) :
    ∃ y,process env s e=some ([y],s) ∧ Progress env (es++[e]) (out++[(.entry es.length,y)]) s := by
  have hoffset := h.offset hfit
  have hshift := shiftedPackOffset_eq hoffset
  have href : ∀ id,e.header ≠ .refDelta id := by
    rintro id hid
    simp [hid,Header.isDelta] at hplain
  refine ⟨{e with packOffset := endOf 12 (out.map Prod.snd)},?_,?_⟩
  · have hnext : nextEntry env s e=some (some (.ok {e with packOffset := endOf 12 (out.map Prod.snd)}),s) := by
      rw [nextEntry_other env s href]
      by_cases hzero : s.inserted=0
      · have hsame : e.packOffset=endOf 12 (out.map Prod.snd) := by omega
        rw [nextOther_zero hzero,← hsame]
      · rw [nextOther,if_pos hzero]
        split
        · rename_i d hd
          simp [hd,Header.isDelta] at hplain
        · simp [hshift]
    exact process_one hnext h.quiet.nextDelta
  · have hsingle := h.single hes hfit (y := {e with packOffset := endOf 12 (out.map Prod.snd)}) (c := 0)
      (slotsOf_other href) rfl (by simp [Entry.bytesInPack])
      ⟨e,by simp,rfl,rfl,rfl,rfl,hfit.size,by simp [hplain]⟩ ?_
    · simpa [recordOf,Iter.withChanges] using hsingle
    · intro distance hd
      have hd : e.header = .ofsDelta distance := hd
      simp [hd,Header.isDelta] at hplain

omit hes in
/-- The base of an ofs-delta among what was yielded. -/
theorem Progress.baseOf (he : e.header = .ofsDelta d) : ∃ j y b,BaseOf (es++[e]) es.length (.entry j) ∧
    (.entry j,y)∈out ∧ b+d=e.packOffset ∧ rebased s.changes b=y.packOffset := by
  obtain ⟨j,e',hj,hd⟩ := hfit.reaches d he
  have hlt := (List.getElem?_eq_some_iff.mp hj).1
  have hslot : .entry j∈out.map Prod.fst := by
    rw [h.places]
    exact entry_mem_of_lt hlt
  obtain ⟨⟨_,y⟩,hy,rfl⟩ := mem_map.mp hslot
  refine ⟨j,y,e'.packOffset,⟨e,by simp,?_⟩,hy,hd,h.located j e' y hj hy⟩
  simp only [he]
  exact ⟨j,e',hlt,by rw [getElem?_append_left hlt,hj],hd,rfl⟩

/-- A delta that is moved and points to a base that was yielded before. -/
theorem Progress.stepPointed (hdelta : e.header.isDelta=true) (hslots : slotsOf es e=[.entry es.length])
    (hbase : BaseOf (es++[e]) es.length b) (hy : (b,y)∈out) {off distance : ℕ}
    (hoff : off=endOf 12 (out.map Prod.snd)) (hdistance : distance=off-y.packOffset)
    (hnext : nextEntry env s e=some (some (.ok (pointed env e off distance)),
      s.withChanges (recordOf e.packOffset off (headerChange e distance) .null))) :
    ∃ y s',process env s e=some ([y],s') ∧ Progress env (es++[e]) (out++[(.entry es.length,y)]) s' := by
  have hle := h.before hy
  refine ⟨_,_,process_one hnext h.quiet.nextDelta,h.single hes hfit hslots hoff (pointed_bytesInPack env e off distance)
    (fills_pointed hdelta off distance) fun distance' hheader => ⟨b,y,hbase,hy,?_⟩⟩
  obtain rfl : distance=distance' := by simpa [pointed] using hheader
  change y.packOffset+distance=off
  omega

/-- An ofs-delta whose distance is adjusted. -/
theorem Progress.stepOfsDelta (he : e.header = .ofsDelta d) (hne : s.inserted≠0) :
    ∃ y s',process env s e=some ([y],s') ∧ Progress env (es++[e]) (out++[(.entry es.length,y)]) s' := by
  obtain ⟨_,y,b,hbase,hy,hb,hreb⟩ := h.baseOf hfit he
  have hdelta : e.header.isDelta=true := by rw [he]; rfl
  have hoffset := h.offset hfit
  have hd : e.packOffset-d=b := by omega
  have hdistance := newDistance_eq env h.ledger h.total hoffset hb hreb (h.before hy)
  have hshift := shiftEntry_eq env hoffset (hfit.kept hdelta) (endOf 12 (out.map Prod.snd)-y.packOffset)
  refine h.stepPointed hes hfit hdelta (slotsOf_other (by simp [he])) hbase hy rfl rfl ?_
  rw [nextEntry_other env s (by simp [he])]
  simp [nextOther,hne,he,show d ≤ e.packOffset by omega,hd,hdistance,hshift]

/-- An ofs-delta that is yielded as it is, if its base has not moved. -/
theorem Progress.stepKept (he : e.header = .ofsDelta d) (hzero : s.inserted=0)
    (hbase : rebased s.changes (e.packOffset-d)=(e.packOffset-d : ℕ)) :
    process env s e=some ([e],s) ∧ Progress env (es++[e]) (out++[(.entry es.length,e)]) s := by
  obtain ⟨j,y,b,hj,hy,_,_⟩ := h.baseOf hfit he
  have hdelta : e.header.isDelta=true := by rw [he]; rfl
  have hoffset := h.offset hfit
  have hd : e.packOffset-d=b := by omega
  have href : ∀ id,e.header ≠ .refDelta id := by simp [he]
  have hnext := (nextEntry_other env s href).trans (nextOther_zero hzero)
  refine ⟨process_one hnext h.quiet.nextDelta,?_⟩
  have hsingle := h.single hes hfit (c := 0) (slotsOf_other href) (by omega) (by simp)
    ⟨e,by simp,rfl,rfl,rfl,rfl,hfit.size,by rw [if_pos hdelta]; exact ⟨d,he⟩⟩ fun distance hheader => ⟨.entry j,y,hj,hy,?_⟩
  · simpa [recordOf,Iter.withChanges] using hsingle
  · obtain rfl : d=distance := by simpa [he] using hheader
    rw [hd] at hbase
    omega

omit h hes hfit in
theorem baseOf_ref (es : List Entry) (he : e.header = .refDelta id) : BaseOf (es++[e]) es.length (.base id) :=
  ⟨e,by simp,by simp [he]⟩

variable (he : e.header = .refDelta id)
include he

/-- A ref-delta whose base was inserted before. -/
theorem Progress.stepRefKnown (hid : id ≠ .null) {c : Change}
    (hc : s.changes.reverse.find? (fun c => c.oid=id)=some c) :
    ∃ y s',process env s e=some ([y],s') ∧ Progress env (es++[e]) (out++[(.entry es.length,y)]) s' := by
  obtain ⟨_,y,hy,hcy,hb⟩ := h.based id c hc
  rw [if_neg hid] at hb
  subst hb
  have hdelta : e.header.isDelta=true := by rw [he]; rfl
  have hoffset := h.offset hfit
  have hslot : .base id∈slots es := by
    rw [← h.places]
    exact mem_map_of_mem hy
  have hle := h.before hy
  have hshift := shiftEntry_eq env hoffset (hfit.kept hdelta) (endOf 12 (out.map Prod.snd)-y.packOffset)
  refine h.stepPointed hes hfit hdelta (by rw [slotsOf_ref he,if_pos hslot]) (baseOf_ref es he) hy rfl rfl ?_
  simp [nextEntry,he,nextRefDelta,hc,shiftedPackOffset_eq hoffset,hcy,hle,hshift]

theorem Progress.pair {y' : Entry}
    (hslots : slotsOf es e=[.base id,.entry es.length]) (hy : y.packOffset=endOf 12 (out.map Prod.snd))
    (hy' : y'.packOffset=y.packOffset+y.bytesInPack) (hsize : (y'.bytesInPack : ℤ)=e.bytesInPack+c)
    (hfills : Fills env (es++[e]) (.base id) y) (hfills' : Fills env (es++[e]) (.entry es.length) y')
    (hheader : y'.header = .ofsDelta y.bytesInPack) :
    Progress env (es++[e]) (out++[(.base id,y),(.entry es.length,y')])
      (s.withChanges [⟨e.packOffset,y.packOffset,y.bytesInPack,id⟩,⟨e.packOffset,y'.packOffset,c,.null⟩]) := by
  refine h.extend hes.contiguous hes.pos hfit.bytesInPack_pos hfit.offset hslots.symm ?_ ?_ ?_ ?_ ?_ ?_ ?_ ?_ ?_
  · intro x hx
    rcases mem_pair.mp hx with rfl | rfl
    · exact hfills
    · exact hfills'
  · exact ⟨hy,by rw [← hy]; exact hy',trivial⟩
  · intro i x distance hx hdistance
    obtain ⟨rfl,rfl⟩ : i=es.length ∧ x=y' := by simpa using hx
    obtain rfl : y.bytesInPack=distance := by simpa [hheader] using hdistance
    exact ⟨.base id,y,baseOf_ref es he,by simp,hy'.symm⟩
  · intro r hr
    rcases mem_pair.mp hr with rfl | rfl <;> rfl
  · simp
  · simp only [map_cons,map_nil,sum_cons,sum_nil]
    omega
  · intro x hx
    obtain rfl : x=y' := by simpa using hx
    have := rebased_concat (s.changes++[⟨e.packOffset,y.packOffset,y.bytesInPack,id⟩]) ⟨e.packOffset,x.packOffset,c,.null⟩
    rwa [append_assoc] at this
  · intro id' r hr
    -- of the two records, the second is found first
    simp only [reverse_cons,reverse_nil,nil_append,cons_append,find?_cons] at hr
    by_cases hnull : ObjectId.null=id'
    · simp only [hnull] at hr
      cases hr
      exact ⟨.entry es.length,y',by simp,rfl,by simp [hnull]⟩
    · simp only [hnull] at hr
      by_cases hid : id=id'
      · simp only [hid] at hr
        cases hr
        exact ⟨.base id,y,by simp,rfl,by rw [if_neg (Ne.symm hnull),hid]⟩
      · simp [hid] at hr
  · intro id' x hx
    obtain ⟨rfl,rfl⟩ : id'=id ∧ x=y := by simpa using hx
    exact ⟨_,mem_cons_self,rfl⟩

/-- A ref-delta whose base is inserted in front of it. -/
theorem Progress.stepRefNew (hnone : ∀ c∈s.changes,c.oid≠id) :
    ∃ y y' s',process env s e=some ([y,y'],s') ∧ slotsOf es e=[.base id,.entry es.length] ∧
      Progress env (es++[e]) (out++[(.base id,y),(.entry es.length,y')]) s' := by
  obtain ⟨obj,base,hobj,hbase⟩ := hfit.found id he
  have hdelta : e.header.isDelta=true := by rw [he]; rfl
  have hoffset := h.offset hfit
  have hslot : .base id∉slots es := by
    rw [← h.places]
    intro hmem
    obtain ⟨⟨_,y⟩,hy,rfl⟩ := mem_map.mp hmem
    obtain ⟨c,hc,hcid⟩ := h.recorded id y hy
    exact hnone c hc hcid
  have hslots : slotsOf es e=[.base id,.entry es.length] := by rw [slotsOf_ref he,if_neg hslot]
  obtain ⟨y,hy⟩ : ∃ y : Entry,y={base with packOffset := endOf 12 (out.map Prod.snd)} := ⟨_,rfl⟩
  have hpos : 0 < y.bytesInPack := by
    have hsame : y.bytesInPack=base.bytesInPack := by rw [hy]; rfl
    rw [hsame]
    exact fromDataObj_pos hbase
  have hyoffset : y.packOffset=endOf 12 (out.map Prod.snd) := by rw [hy]
  rw [← hyoffset] at hoffset
  have hchange : headerChange e y.bytesInPack≠0 := by
    have := Header.size_ofsDelta_lt id y.bytesInPack e.decompressedSize
    rw [headerChange,hfit.size,he]
    omega
  have hoffset1 : (e.packOffset : ℤ)+(s.withChanges (recordOf e.packOffset y.packOffset y.bytesInPack id)).inserted =
      (y.packOffset+y.bytesInPack : ℕ) := by
    simp only [Iter.withChanges,sum_recordOf]
    omega
  have hfind : s.changes.reverse.find? (fun c => c.oid=id)=none := by
    rw [find?_eq_none]
    intro c hc
    simpa using hnone c (mem_reverse.mp hc)
  have hshift := shiftEntry_eq env hoffset1 (hfit.kept hdelta) y.bytesInPack
  rw [Iter.withChanges_append] at hshift
  have hnext : nextEntry env s e=some (some (.ok y),{s.withChanges
      (recordOf e.packOffset y.packOffset y.bytesInPack id++recordOf e.packOffset (y.packOffset+y.bytesInPack)
        (headerChange e y.bytesInPack) .null) with
      nextDelta := some (pointed env e (y.packOffset+y.bytesInPack) y.bytesInPack)}) := by
    have hbase' : {base with packOffset := y.packOffset}=y := by rw [hyoffset,← hy]
    simp [nextEntry,he,nextRefDelta,hfind,hobj,hbase,shiftedPackOffset_eq hoffset,hbase',trackChange_eq,hshift]
  have hrecords : recordOf e.packOffset y.packOffset y.bytesInPack id++
        recordOf e.packOffset (y.packOffset+y.bytesInPack) (headerChange e y.bytesInPack) .null =
      [⟨e.packOffset,y.packOffset,y.bytesInPack,id⟩,
        ⟨e.packOffset,y.packOffset+y.bytesInPack,headerChange e y.bytesInPack,.null⟩] := by
    simp [recordOf,hchange,hpos.ne']
  rw [hrecords] at hnext
  refine ⟨y,pointed env e (y.packOffset+y.bytesInPack) y.bytesInPack,_,?_,hslots,
    h.pair hes hfit he hslots hyoffset rfl (pointed_bytesInPack env e _ _) ⟨obj,base,hobj,hbase,?_⟩
      (fills_pointed hdelta _ _) rfl⟩
  · simp [process,hnext,Iter.withChanges,h.quiet.nextDelta,pointed]
  · rw [hyoffset,← hy]

end Steps

end Gix.ThinPack
