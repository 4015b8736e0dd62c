import Gix.ThinPackSteps

/-! # Thin packs that are completed

If the changes so far sum up to zero, ofs-deltas are passed on as they are, also if their
base has moved; and the null id, which marks changes of headers, can be taken for a base. A
pack is completed just if neither happens. -/
namespace Gix.ThinPack
open Gix.Pack List

/-- The condition on an entry, in terms of the iterator before it. -/
def Meets (s : Iter) (e : Entry) : Prop :=
  match e.header with
  | .refDelta id => id = .null → ∀ c ∈ s.changes, c.oid ≠ .null
  | .ofsDelta d => s.inserted = 0 → rebased s.changes (e.packOffset-d) = (e.packOffset-d : ℕ)
  | _ => True

/-- All entries meet the condition when it is their turn. -/
def StepsMeet (env : Env) : List Entry → Iter → Prop
  | [], _ => True
  | e :: es, s => Meets s e ∧ ∀ ys s', process env s e = some (ys,s') → StepsMeet env es s'

/-- The entries of a thin pack as they are read from one, whose missing bases can be found. -/
structure Completable (env : Env) (es : List Entry) : Prop where
  contiguous : Contiguous 12 es
  reaches : ∀ (i : ℕ) (e : Entry) (d : ℕ), es[i]? = some e → e.header = .ofsDelta d →
    ∃ (j : ℕ) (e' : Entry), j < i ∧ es[j]? = some e' ∧ e'.packOffset+d = e.packOffset
  found : ∀ e ∈ es, ∀ id, e.header = .refDelta id → ∃ obj, env.tryFind id = some (some obj)
  compresses : ∀ data, ∃ c, env.compress data = .ok c
  sizes : ∀ e ∈ es, e.headerSize = e.header.size e.decompressedSize
  kept : ∀ e ∈ es, e.header.isDelta = true → e.compressed ≠ none

/-- The iterator comes to an end and has yielded the completed pack. -/
def Completes (env : Env) (es : List Entry) : Prop :=
  ∃ bound, ∀ fuel, bound < fuel → ∃ ys, collect env fuel (es.map .ok) .new = some (ys.map .ok) ∧ Completed env es ys

section
variable {env : Env} {s s' : Iter} {e : Entry} {es rest : List Entry} {out : List (Slot × Entry)}

theorem Completable.fit (h : Completable env (es++e::rest)) : Original es ∧ Fit env es e := by
  obtain ⟨hes,hrest⟩ := contiguous_append.mp h.contiguous
  have hmem : e∈es++e::rest := by simp
  refine ⟨⟨hes,fun x hx => ?_⟩,hrest.1,h.sizes e hmem,h.kept e hmem,fun d hd => ?_,fun id hid => ?_⟩
  · exact bytesInPack_pos (h.sizes x (by simp [hx]))
  · obtain ⟨j,e',hj,he',hd⟩ := h.reaches es.length e d (by simp) hd
    exact ⟨j,e',by rwa [getElem?_append_left hj] at he',hd⟩
  · obtain ⟨obj,hobj⟩ := h.found e hmem id hid
    obtain ⟨_,hc⟩ := h.compresses obj.data
    obtain ⟨base,hbase⟩ : ∃ base,Entry.fromDataObj env obj 0 = .ok base := by
      simp [Entry.fromDataObj,hc,Bind.bind,Except.bind,pure,Except.pure]
    exact ⟨obj,base,hobj,hbase⟩

variable (h : Progress env es out s) {ys : List Entry}
include h

/-- An entry that meets the condition. -/
theorem Progress.step (hes : Original es) (hfit : Fit env es e) (hmeets : Meets s e) :
    ∃ ys s' new,process env s e=some (ys,s') ∧ new.map Prod.snd=ys ∧ Progress env (es++[e]) (out++new) s' := by
  unfold Meets at hmeets
  cases he : e.header with
  | refDelta id =>
    simp only [he] at hmeets
    cases hfind : s.changes.reverse.find? (fun c => c.oid=id) with
    | none =>
      have hnone : ∀ c∈s.changes,c.oid≠id := by simpa using hfind
      obtain ⟨y,_,s',hprocess,-,hprogress⟩ := h.stepRefNew hes hfit he hnone
      exact ⟨_,s',_,hprocess,rfl,hprogress⟩
    | some c =>
      have hid : id ≠ .null := by
        rintro rfl
        have hc := mem_reverse.mp (mem_of_find?_eq_some hfind)
        exact hmeets rfl c hc (by simpa using find?_some hfind)
      obtain ⟨y,s',hprocess,hprogress⟩ := h.stepRefKnown hes hfit he hid hfind
      exact ⟨_,s',_,hprocess,rfl,hprogress⟩
  | ofsDelta d =>
    simp only [he] at hmeets
    by_cases hzero : s.inserted=0
    · obtain ⟨hprocess,hprogress⟩ := h.stepKept hes hfit he hzero (hmeets hzero)
      exact ⟨_,s,_,hprocess,rfl,hprogress⟩
    · obtain ⟨y,s',hprocess,hprogress⟩ := h.stepOfsDelta hes hfit he hzero
      exact ⟨_,s',_,hprocess,rfl,hprogress⟩
  | _ =>
    obtain ⟨y,hprocess,hprogress⟩ := h.stepPlain hes hfit (by rw [he]; rfl)
    exact ⟨_,s,_,hprocess,rfl,hprogress⟩

omit h in
/-- The rest of a pack is completed if its entries meet the condition. -/
theorem Progress.run (hpack : Completable env (es++rest)) (h : Progress env es out s) (hsteps : StepsMeet env rest s) :
    ∃ new s',Progress env (es++rest) (out++new) s' ∧ ∀ fuel,new.length < fuel →
      collect env fuel (rest.map .ok) s=some ((new.map Prod.snd).map .ok) := by
  induction rest generalizing es out s with
  | nil =>
    refine ⟨[],s,by simpa using h,fun fuel hfuel => ?_⟩
    obtain ⟨fuel,rfl⟩ : ∃ n,fuel=n+1 := ⟨fuel-1,by omega⟩
    simp [collect,next,h.quiet.nextDelta]
  | cons e rest ih =>
    obtain ⟨hes,hfit⟩ := hpack.fit
    obtain ⟨_,s1,new1,hprocess,rfl,hprogress⟩ := h.step hes hfit hsteps.1
    obtain ⟨new2,s',hdone,hcollect⟩ := ih (by simpa using hpack) hprogress (hsteps.2 _ s1 hprocess)
    refine ⟨new1++new2,s',by simpa using hdone,fun fuel hfuel => ?_⟩
    rw [length_append] at hfuel
    obtain ⟨fuel,rfl⟩ : ∃ n,fuel=n+(new1.map Prod.snd).length := ⟨fuel-new1.length,by rw [length_map]; omega⟩
    rw [length_map] at hfuel
    rw [map_cons,collect_process h.quiet hprocess hprogress.quiet,hcollect fuel (by omega)]
    simp

theorem Progress.completed : Completed env es (out.map Prod.snd) := by
  have hzip := zip_of_prod h.places rfl
  refine ⟨?_,?_,h.contiguous,?_⟩
  · rw [← h.places,length_map,length_map]
  · rw [← hzip]
    exact h.fills
  · rw [← hzip]
    exact h.linked

/-! Entries that do not meet the condition -/

omit h in
theorem entry_mem_slotsFrom {before : List Entry} {i : ℕ} (h : .entry i∈slotsFrom before es) : before.length ≤ i := by
  induction es generalizing before with
  | nil => simp [slotsFrom] at h
  | cons e es ih =>
    rcases mem_append.mp h with h | h
    · exact (entry_mem_slotsOf_eq h).ge
    · have := ih h
      rw [length_append] at this
      omega

theorem Progress.zip_append (rest ys : List Entry) :
    (slots (es++rest)).zip (out.map Prod.snd++ys)=out++(slotsFrom es rest).zip ys := by
  rw [slots,slotsFrom_append,List.zip_append (by rw [← slots,← h.places,List.length_map,List.length_map])]
  exact congrArg (·++(slotsFrom es rest).zip ys) (zip_of_prod h.places rfl).symm

omit h in
theorem Completed.pos (h : Completed env es ys) : ∀ x∈(slots es).zip ys,0 < x.2.bytesInPack := by
  rintro ⟨b,y⟩ hx
  have hfills := h.fills _ hx
  cases b with
  | base id =>
    obtain ⟨_,base,-,hbase,hy⟩ := hfills
    have := fromDataObj_pos hbase
    rw [hy]
    exact this
  | entry i =>
    obtain ⟨_,-,-,-,-,-,hsize,-⟩ := hfills
    exact bytesInPack_pos hsize

omit h in
theorem Completed.inj (h : Completed env es ys) {x x' : Slot × Entry} (hx : x∈(slots es).zip ys)
    (hx' : x'∈(slots es).zip ys) (heq : x.2.packOffset=x'.2.packOffset) : x=x' := by
  refine contiguous_inj (p := 12) ?_ h.pos hx hx' heq
  rw [map_snd_zip h.length.le]
  exact h.contiguous

/-- An ofs-delta is yielded as it is though its base has moved. -/
theorem Progress.missedOfsDelta {d : ℕ} (he : e.header = .ofsDelta d)
    (hzero : s.inserted=0) (hmoved : rebased s.changes (e.packOffset-d)≠(e.packOffset-d : ℕ)) :
    process env s e=some ([e],s) ∧ ∀ rest ys,¬Completed env (es++e::rest) (out.map Prod.snd++e::ys) := by
  refine ⟨process_one ((nextEntry_other env s (by simp [he])).trans (nextOther_zero hzero)) h.quiet.nextDelta,?_⟩
  intro rest ys hdone
  have hlinked := hdone.linked
  rw [h.zip_append,slotsFrom,slotsOf_other (by simp [he])] at hlinked
  obtain ⟨_,y,⟨x,hx,hb⟩,hy,_⟩ := hlinked es.length e d (by simp) he
  obtain rfl : e=x := by simpa using hx
  simp only [he] at hb
  obtain ⟨j,e',hj,he',_,rfl⟩ := hb
  rw [getElem?_append_left hj] at he'
  have hbefore : (.entry j,y)∈out := by
    refine (mem_append.mp hy).resolve_right fun hy => ?_
    rcases mem_cons.mp hy with hy | hy
    · have : j=es.length := by simpa using congrArg Prod.fst hy
      omega
    · have := entry_mem_slotsFrom (of_mem_zip hy).1
      rw [length_append] at this
      omega
  have hlocated := h.located j e' y he' hbefore
  have hsame : e.packOffset-d=e'.packOffset := by omega
  refine hmoved ?_
  rw [hsame]
  omega

/-- The record of a changed header is taken for the one of a base with the null id. -/
theorem Progress.missedNull (hfit : Fit env es e) (he : e.header = .refDelta .null)
    {c : Change} (hc : s.changes.reverse.find? (fun c => c.oid = .null)=some c) :
    ∃ y s',process env s e=some ([y],s') ∧ Quiet s' ∧
      ∀ rest ys,¬Completed env (es++e::rest) (out.map Prod.snd++y::ys) := by
  obtain ⟨_,y,hy,hcy,hb⟩ := h.based .null c hc
  rw [if_pos rfl] at hb
  obtain ⟨_,rfl⟩ := hb
  obtain ⟨off,hoff⟩ : ∃ off,endOf 12 (out.map Prod.snd)=off := ⟨_,rfl⟩
  have hoffset := h.offset hfit
  have hle := h.before hy
  rw [hoff] at hoffset hle
  have hshift := shiftEntry_eq env hoffset (hfit.kept (by rw [he]; rfl)) (off-y.packOffset)
  have hnext : nextEntry env s e=some (some (.ok (pointed env e off (off-y.packOffset))),
      s.withChanges (recordOf e.packOffset off (headerChange e (off-y.packOffset)) .null)) := by
    simp [nextEntry,he,nextRefDelta,hc,shiftedPackOffset_eq hoffset,hcy,hle,hshift]
  refine ⟨_,_,process_one hnext h.quiet.nextDelta,⟨h.quiet.nextDelta,h.quiet.error⟩,fun rest ys hdone => ?_⟩
  obtain ⟨hfills,hlinked,hinj⟩ := And.intro hdone.fills (And.intro hdone.linked @hdone.inj)
  rw [h.zip_append,slotsFrom,slotsOf_ref he] at hfills hlinked hinj
  by_cases hslot : .base .null∈slots es
  · -- the delta leads to an entry, which is not where the base is
    rw [if_pos hslot] at hlinked hinj
    obtain ⟨_,y',⟨x,hx,hb'⟩,hy',hdistance⟩ := hlinked es.length _ _ (mem_append_right _ mem_cons_self) rfl
    obtain rfl : e=x := by simpa using hx
    simp only [he] at hb'
    subst hb'
    have hsame : y'.packOffset=y.packOffset := by
      change y'.packOffset+(off-y.packOffset)=off at hdistance
      omega
    have := hinj hy' (mem_append_left _ hy) hsame
    simp at this
  · -- the delta is yielded without the base
    rw [if_neg hslot] at hfills
    obtain ⟨obj,base,-,hbase,hpointed⟩ := hfills (.base .null,_) (mem_append_right _ mem_cons_self)
    have hheader : Header.ofsDelta (off-y.packOffset)=Entry.toHeader obj.kind :=
      (congrArg Entry.header hpointed).trans (fromDataObj_ok hbase).1
    cases hkind : obj.kind <;> simp [hkind,Entry.toHeader] at hheader

theorem Progress.missed (hfit : Fit env es e) (hnot : ¬Meets s e) :
    ∃ y s',process env s e=some ([y],s') ∧ Quiet s' ∧
      ∀ rest ys,¬Completed env (es++e::rest) (out.map Prod.snd++y::ys) := by
  unfold Meets at hnot
  split at hnot
  · rename_i id he
    obtain ⟨rfl,c,hc,hnull⟩ : id = .null ∧ ∃ c∈s.changes,c.oid = .null := by simpa using hnot
    have hsome : (s.changes.reverse.find? (fun c => c.oid = .null)).isSome := by
      rw [find?_isSome]
      exact ⟨c,mem_reverse.mpr hc,by simpa using hnull⟩
    obtain ⟨c,hc⟩ := Option.isSome_iff_exists.mp hsome
    exact h.missedNull hfit he hc
  · rename_i d he
    obtain ⟨hzero,hmoved⟩ := Classical.not_imp.mp hnot
    obtain ⟨hprocess,hmissed⟩ := h.missedOfsDelta he hzero hmoved
    exact ⟨e,s,hprocess,h.quiet,hmissed⟩
  · exact absurd trivial hnot

omit h

/-- If the rest of a pack is completed, its entries meet the condition. -/
theorem Progress.stepsMeet (hpack : Completable env (es++rest)) (h : Progress env es out s) {bound : ℕ}
    (hdone : ∀ fuel,bound < fuel → ∃ ys,collect env fuel (rest.map .ok) s=some (ys.map .ok) ∧
      Completed env (es++rest) (out.map Prod.snd++ys)) : StepsMeet env rest s := by
  induction rest generalizing es out s with
  | nil => trivial
  | cons e rest ih =>
    obtain ⟨hes,hfit⟩ := hpack.fit
    -- what is yielded for `e` begins what is yielded
    have hfirst : ∀ zs s',process env s e=some (zs,s') → Quiet s' → ∀ fuel,bound < fuel →
        ∃ ys,collect env fuel (rest.map .ok) s'=some (ys.map .ok) ∧
          Completed env (es++e::rest) (out.map Prod.snd++(zs++ys)) := by
      intro zs s' hprocess hquiet fuel hfuel
      obtain ⟨ys,hcollect,hys⟩ := hdone (fuel+zs.length) (by omega)
      rw [map_cons,collect_process h.quiet hprocess hquiet,Option.map_eq_some_iff] at hcollect
      obtain ⟨_,hitems,heq⟩ := hcollect
      obtain ⟨zs',ys',rfl,hzs,rfl⟩ := map_eq_append_iff.mp heq.symm
      obtain rfl : zs'=zs := map_injective_iff.mpr (fun _ _ => Except.ok.inj) hzs
      exact ⟨ys',hitems,hys⟩
    have hmeets : Meets s e := by
      by_contra hnot
      obtain ⟨_,s',hprocess,hquiet,hmissed⟩ := h.missed hfit hnot
      obtain ⟨ys,-,hys⟩ := hfirst _ s' hprocess hquiet (bound+1) (by omega)
      exact hmissed rest ys hys
    refine ⟨hmeets,fun zs s' hprocess => ?_⟩
    obtain ⟨_,_,_,hprocess',rfl,hprogress⟩ := h.step hes hfit hmeets
    cases hprocess.symm.trans hprocess'
    refine ih (by simpa using hpack) hprogress fun fuel hfuel => ?_
    obtain ⟨ys,hcollect,hys⟩ := hfirst _ s' hprocess hprogress.quiet fuel hfuel
    exact ⟨ys,hcollect,by simpa using hys⟩

end

/-- A thin pack is completed just if its entries meet the condition. -/
theorem completes_iff (env : Env) (es : List Entry) (h : Completable env es) :
    Completes env es ↔ StepsMeet env es .new := by
  constructor
  · rintro ⟨bound,hdone⟩
    exact Progress.initial.stepsMeet (by simpa using h) hdone
  · intro hsteps
    obtain ⟨new,_,hprogress,hcollect⟩ := Progress.initial.run h hsteps
    exact ⟨new.length,fun fuel hfuel => ⟨_,hcollect fuel hfuel,hprogress.completed⟩⟩

/-- A database with one object of ten bytes, to which the compressor adds `overhead` bytes. -/
def sampleEnv (overhead : ℕ) : Env :=
  ⟨fun crc _ => crc,fun data => .ok (List.replicate overhead 0++data),fun _ => some (some ⟨.blob,List.replicate 10 1⟩),.fromLeft⟩

def sampleBase : ObjectId := Vector.replicate 20 1

/-- A ref-delta and a delta on top of it. -/
def sampleDeltas : List Entry :=
  [⟨.refDelta sampleBase,21,12,some [7],1,none,4,none⟩,⟨.ofsDelta 22,2,34,some [7],1,none,4,none⟩]

theorem sampleDeltas_completable (overhead : ℕ) : Completable (sampleEnv overhead) sampleDeltas := by
  refine ⟨by simp [sampleDeltas,Contiguous,Entry.bytesInPack],?_,?_,fun data => ⟨_,rfl⟩,by decide,by decide⟩
  · intro i e d hi he
    rcases i with _ | _ | i
    · cases hi
      simp at he
    · cases hi
      obtain rfl : 22=d := by simpa using he
      exact ⟨0,_,Nat.zero_lt_one,rfl,rfl⟩
    · simp [sampleDeltas] at hi
  · intro e _ id _
    exact ⟨_,rfl⟩

theorem completes_deltas : StepsMeet (sampleEnv 9) sampleDeltas .new ∧ Completes (sampleEnv 9) sampleDeltas := by
  have hsteps : StepsMeet (sampleEnv 9) sampleDeltas .new := by
    refine ⟨by simp [Meets,Iter.new],fun ys s hprocess => ⟨fun hzero => ?_,fun _ _ _ => trivial⟩⟩
    have hinserted : (process (sampleEnv 9) .new ⟨.refDelta sampleBase,21,12,some [7],1,none,4,none⟩).map (fun r => r.2.inserted)=some 1 := by
      decide
    rw [hprocess] at hinserted
    simp [hzero] at hinserted
  exact ⟨hsteps,(completes_iff _ _ (sampleDeltas_completable 9)).mpr hsteps⟩

/-- The base takes just the bytes that the header of its delta loses, and the second delta then
leads to the base of the first. -/
theorem base_distance_kept : Completable (sampleEnv 8) sampleDeltas ∧ ¬Completes (sampleEnv 8) sampleDeltas := by
  refine ⟨sampleDeltas_completable 8,?_⟩
  rintro ⟨bound,h⟩
  obtain ⟨ys,hcollect,hdone⟩ := h (bound+4) (by omega)
  have hys : ys.map Except.ok=[⟨.blob,1,12,some (replicate 8 0++replicate 10 1),18,some 0,10,none⟩,
      ⟨.ofsDelta 19,2,31,some [7],1,some 0,4,none⟩,⟨.ofsDelta 22,2,34,some [7],1,none,4,none⟩].map Except.ok :=
    Option.some.inj (hcollect.symm.trans rfl)
  obtain rfl := map_injective_iff.mpr (fun _ _ => Except.ok.inj) hys
  obtain ⟨_,y,⟨_,he,hb⟩,hy,hdistance⟩ := hdone.linked 1 _ 22 (.tail _ (.tail _ (.head _))) rfl
  cases he
  obtain ⟨j,_,_,-,-,rfl⟩ := hb
  obtain rfl : j=0 := by omega
  have hy : y.packOffset=31 := by
    simp [slots,slotsFrom,slotsOf,sampleDeltas] at hy
    rw [hy]
  change y.packOffset+22=34 at hdistance
  omega

end Gix.ThinPack
