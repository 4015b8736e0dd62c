import Gix.PackEntry
import Gix.SortedSearch

/-! # Fan-out tables

`gix-pack/src/index/encode.rs` and `access.rs`: for each first byte, how many ids have no larger
one. A lookup bisects what is between two of these bounds. Indices are of 32 bits, and an overflow
is a panic, as is an index that is out of bounds. -/
namespace Gix.Pack
open List ObjectId

def ObjectId.firstByte (id : ObjectId) : UInt8 := id[0]

def ObjectId.cmp (a b : ObjectId) : Ordering := compare a.toList b.toList

/-- `0u8..=255` -/
def allBytes : List UInt8 := (List.range 256).map UInt8.ofNat

/-- The state of the loop in `fanout()`: the first bytes that are left, with their index. -/
structure FanIter where
  idxAndEntry : Option (UInt8 × ℕ)
  iter : List (UInt8 × ℕ)
  upperBound : UInt32

/-- A round of `fanout()` -/
def fanoutStep (entriesLen : UInt32) (byte : UInt8) (s : FanIter) : Option (UInt32 × FanIter) :=
  match s.idxAndEntry with
  | none => some (entriesLen,s)
  | some (firstByte,_) => match compare firstByte byte with
    | .lt => none
    | .gt => some (s.upperBound,s)
    | .eq =>
      if byte = 255 then some (entriesLen,s)
      else
        let found := s.iter.dropWhile (fun e => e.1 = byte)
        let upperBound := found.head?.elim entriesLen (fun e => UInt32.ofNat e.2)
        some (upperBound,⟨found.head?,found.tail,upperBound⟩)

def fanoutLoop (entriesLen : UInt32) : List UInt8 → FanIter → Option (List UInt32)
  | [], _ => some []
  | byte :: bytes, s => (fanoutStep entriesLen byte s).bind (fun r => (fanoutLoop entriesLen bytes r.2).map (fun fan => r.1 :: fan))

/-- `fanout()` of the first bytes of ids; it relies on their order. -/
def fanout (firstBytes : List UInt8) : Option (List UInt32) :=
  fanoutLoop (UInt32.ofNat firstBytes.length) allBytes ⟨firstBytes.zipIdx.head?,firstBytes.zipIdx.tail,0⟩

/-- The loop of `lookup()` -/
def lookupLoop (id : ObjectId) (oidAtIndex : ℕ → Option ObjectId) (lowerBound upperBound : ℕ) : Option (Option ℕ) :=
  if lowerBound < upperBound then
    if lowerBound+upperBound < 2^32 then
      let mid := (lowerBound+upperBound)/2
      match oidAtIndex mid with
      | none => none
      | some midSha => match id.cmp midSha with
        | .lt => lookupLoop id oidAtIndex lowerBound mid
        | .eq => some (some mid)
        | .gt => lookupLoop id oidAtIndex (mid+1) upperBound
    else none
  else some none
termination_by upperBound-lowerBound

def lookup (id : ObjectId) (fan : List UInt32) (oidAtIndex : ℕ → Option ObjectId) : Option (Option ℕ) :=
  let firstByte := id.firstByte.toNat
  fan[firstByte]?.bind (fun upperBound => (if firstByte ≠ 0 then fan[firstByte-1]? else some 0).bind
    (fun lowerBound => lookupLoop id oidAtIndex lowerBound.toNat upperBound.toNat))

/-! Order of ids -/

section Order
variable {a b c : ObjectId}

theorem ObjectId.toList_eq (id : ObjectId) : ∃ rest,id.toList=id.firstByte::rest := by
  obtain ⟨b,rest,hid⟩ := exists_cons_of_length_eq_add_one (show id.toList.length=19+1 by simp)
  refine ⟨rest,?_⟩
  have hget : id.toList[0]? = some b := by rw [hid]; rfl
  have hfirst : id.toList[0]? = some id.firstByte := by simp [firstByte]
  rw [hid,Option.some.inj (hget.symm.trans hfirst)]

theorem ObjectId.cmp_eq : a.cmp b = .eq ↔ a=b := by
  rw [cmp,Std.LawfulEqOrd.compare_eq_iff_eq,Vector.toList_inj]

theorem ObjectId.cmp_swap : (a.cmp b).swap=b.cmp a := by
  rw [cmp]
  exact Std.OrientedCmp.eq_swap.symm

theorem ObjectId.lt_trans (hab : a.cmp b = .lt) (hbc : b.cmp c = .lt) : a.cmp c = .lt := by
  unfold cmp at *
  exact Std.TransCmp.lt_trans hab hbc

theorem ObjectId.cmp_of_firstByte (h : a.firstByte < b.firstByte) : a.cmp b = .lt := by
  obtain ⟨_,ha⟩ := a.toList_eq
  obtain ⟨_,hb⟩ := b.toList_eq
  have hlt : compare a.firstByte b.firstByte = .lt := by
    exact Std.compare_eq_lt.mpr h
  rw [cmp,ha,hb,List.compare_cons_cons,hlt]
  rfl

theorem ObjectId.firstByte_le (h : a.cmp b = .lt) : a.firstByte ≤ b.firstByte := by
  by_contra hgt
  have hba := cmp_of_firstByte (UInt8.not_le.mp hgt)
  rw [← cmp_swap,h] at hba
  exact Ordering.noConfusion hba

end Order

/-! The table -/

/-- The table as it is meant to be. -/
def fanTable (firstBytes : List UInt8) : List UInt32 := allBytes.map (fun b => UInt32.ofNat (firstBytes.countP (· ≤ b)))

section Fanout
variable {firstBytes : List UInt8}

def below (firstBytes : List UInt8) (b : ℕ) : ℕ := firstBytes.countP (fun x => x.toNat < b)

theorem lt_below_iff (hsorted : firstBytes.Pairwise (· ≤ ·)) {b i : ℕ} {x : UInt8} (hx : firstBytes[i]? = some x) :
    i < below firstBytes b ↔ x.toNat < b := by
  have hp : ∀ a c : UInt8,a ≤ c → decide (c.toNat < b)=true → decide (a.toNat < b)=true := by
    intro a c hac hc
    have hle := UInt8.le_iff_toNat_le.mp hac
    simp only [decide_eq_true_eq] at hc ⊢
    omega
  rw [below,← SortedSearch.holds_iff_lt_countP hsorted hp hx,decide_eq_true_eq]

theorem below_le_length (firstBytes : List UInt8) (b : ℕ) : below firstBytes b ≤ firstBytes.length := countP_le_length

theorem countP_le_eq (b : UInt8) : firstBytes.countP (· ≤ b)=below firstBytes (b.toNat+1) := by
  refine countP_congr fun x _ => ?_
  simp only [decide_eq_true_eq,UInt8.le_iff_toNat_le]
  omega

theorem below_all (firstBytes : List UInt8) : below firstBytes 256=firstBytes.length :=
  countP_eq_length.mpr fun x _ => by simpa using x.toNat_lt

/-- The loop with the first `k` ids behind it. -/
structure FanIter.At (firstBytes : List UInt8) (k : ℕ) (s : FanIter) : Prop where
  next : s.idxAndEntry = (firstBytes.zipIdx.drop k).head?
  iter : s.iter = (firstBytes.zipIdx.drop k).tail
  bound : s.idxAndEntry ≠ none → s.upperBound = UInt32.ofNat k

theorem zipIdx_get (i : ℕ) : firstBytes.zipIdx[i]? = firstBytes[i]?.map (fun x => (x,i)) := by
  rw [getElem?_zipIdx,Nat.zero_add]

theorem dropWhile_drop {γ : Type} {m : List γ} {p : γ → Bool} {j k : ℕ} (hjk : j ≤ k)
    (hin : ∀ i,j ≤ i → i < k → ∀ e,m[i]? = some e → p e=true) (hout : ∀ e,m[k]? = some e → p e=false) :
    (m.drop j).dropWhile p=m.drop k := by
  induction hjk using Nat.decreasingInduction with
  | self =>
    cases hk : m[k]? with
    | none => rw [drop_eq_nil_of_le (getElem?_eq_none_iff.mp hk)]; rfl
    | some e =>
      obtain ⟨hlt,rfl⟩ := List.getElem?_eq_some_iff.mp hk
      rw [drop_eq_getElem_cons hlt,dropWhile_cons_of_neg (by rw [hout _ hk]; exact Bool.false_ne_true)]
  | of_succ j hj ih =>
    have ih := ih fun i hi => hin i (by omega)
    cases hk : m[j]? with
    | none =>
      have hlen := getElem?_eq_none_iff.mp hk
      rw [drop_eq_nil_of_le hlen,drop_eq_nil_of_le (by omega)]
      rfl
    | some e =>
      obtain ⟨hlt,rfl⟩ := List.getElem?_eq_some_iff.mp hk
      rw [drop_eq_getElem_cons hlt,dropWhile_cons_of_pos (hin j le_rfl hj _ hk),ih]

variable (hsorted : firstBytes.Pairwise (· ≤ ·))
include hsorted

theorem fanoutStep_spec {b : UInt8} {s : FanIter} (hs : s.At firstBytes (below firstBytes b.toNat)) :
    ∃ s',fanoutStep (UInt32.ofNat firstBytes.length) b s=some (UInt32.ofNat (below firstBytes (b.toNat+1)),s') ∧
      (b≠255 → s'.At firstBytes (below firstBytes (b.toNat+1))) := by
  have hmono : below firstBytes b.toNat ≤ below firstBytes (b.toNat+1) := countP_mono_left fun x _ hx => by
    simp only [decide_eq_true_eq] at hx ⊢
    omega
  have hle := below_le_length firstBytes (b.toNat+1)
  have hnext := hs.next
  rw [head?_drop,zipIdx_get] at hnext
  cases hget : firstBytes[below firstBytes b.toNat]? with
  | none =>
    have hlen := getElem?_eq_none_iff.mp hget
    have hend : below firstBytes (b.toNat+1)=below firstBytes b.toNat := by omega
    have hall : firstBytes.length=below firstBytes (b.toNat+1) := by omega
    rw [hget,Option.map_none] at hnext
    exact ⟨s,by rw [fanoutStep,hnext,hall],fun _ => hend ▸ hs⟩
  | some x =>
    rw [hget,Option.map_some] at hnext
    have hbound := hs.bound (by rw [hnext]; exact Option.some_ne_none _)
    have hge : ¬x.toNat < b.toNat := by
      rw [← lt_below_iff hsorted hget]
      exact lt_irrefl _
    cases hcmp : compare x b with
    | lt => exact absurd (UInt8.lt_iff_toNat_lt.mp (Std.compare_eq_lt.mp hcmp)) hge
    | gt =>
      have hgt := UInt8.lt_iff_toNat_lt.mp (Std.compare_eq_gt.mp hcmp)
      have hend : below firstBytes (b.toNat+1)=below firstBytes b.toNat := by
        have hnot : ¬below firstBytes b.toNat < below firstBytes (b.toNat+1) := by
          rw [lt_below_iff hsorted hget]
          omega
        omega
      exact ⟨s,by simp [fanoutStep,hnext,hcmp,hbound,hend],fun _ => hend ▸ hs⟩
    | eq =>
      obtain rfl : x=b := Std.LawfulEqOrd.eq_of_compare hcmp
      by_cases hlast : x=255
      · refine ⟨s,?_,fun h => absurd hlast h⟩
        have hall : below firstBytes (x.toNat+1)=firstBytes.length := by rw [hlast]; exact below_all firstBytes
        simp [fanoutStep,hnext,if_pos hlast,hall]
      · have hfound : s.iter.dropWhile (fun e => e.1=x)=firstBytes.zipIdx.drop (below firstBytes (x.toNat+1)) := by
          rw [hs.iter,tail_drop]
          have hhere := (lt_below_iff hsorted hget).mpr (Nat.lt_succ_self _)
          refine dropWhile_drop hhere ?_ ?_
          · intro i hlo hhi e he
            rw [zipIdx_get] at he
            obtain ⟨y,hy,rfl⟩ := Option.map_eq_some_iff.mp he
            have hupper := (lt_below_iff hsorted hy).mp hhi
            have hlower : ¬y.toNat < x.toNat := by
              rw [← lt_below_iff hsorted hy]
              omega
            simpa using UInt8.toNat_inj.mp (show y.toNat=x.toNat by omega)
          · intro e he
            rw [zipIdx_get] at he
            obtain ⟨y,hy,rfl⟩ := Option.map_eq_some_iff.mp he
            have hupper : ¬y.toNat < x.toNat+1 := by
              rw [← lt_below_iff hsorted hy]
              exact lt_irrefl _
            have hne : y≠x := by
              rintro rfl
              omega
            simpa using hne
        have hupper : (firstBytes.zipIdx.drop (below firstBytes (x.toNat+1))).head?.elim (UInt32.ofNat firstBytes.length)
            (fun e => UInt32.ofNat e.2)=UInt32.ofNat (below firstBytes (x.toNat+1)) := by
          rw [head?_drop,zipIdx_get]
          cases hy : firstBytes[below firstBytes (x.toNat+1)]? with
          | none =>
            have hall := Nat.le_antisymm (getElem?_eq_none_iff.mp hy) hle
            rw [hall]
            rfl
          | some y => rfl
        let pending := firstBytes.zipIdx.drop (below firstBytes (x.toNat+1))
        refine ⟨⟨pending.head?,pending.tail,UInt32.ofNat (below firstBytes (x.toNat+1))⟩,?_,fun _ => ⟨rfl,rfl,fun _ => rfl⟩⟩
        simp only [fanoutStep,hnext,hcmp,if_neg hlast,hfound,hupper,pending]

theorem fanoutLoop_spec (n : ℕ) : ∀ {b : ℕ} {s : FanIter},b+n=256 →
    (b < 256 → s.At firstBytes (below firstBytes b)) →
    fanoutLoop (UInt32.ofNat firstBytes.length) ((List.range' b n).map UInt8.ofNat) s =
      some ((List.range' b n).map (fun i => UInt32.ofNat (below firstBytes (i+1)))) := by
  induction n with
  | zero =>
    intro b s _ _
    rfl
  | succ n ih =>
    intro b s hb hs
    have hbyte : (UInt8.ofNat b).toNat=b := by
      rw [UInt8.toNat_ofNat']
      omega
    obtain ⟨_,hstep,hs'⟩ := fanoutStep_spec hsorted (by rw [hbyte]; exact hs (by omega))
    rw [hbyte] at hstep hs'
    have hrest := ih (by omega) fun hlt => hs' fun h255 => by
      have := congrArg UInt8.toNat h255
      rw [hbyte] at this
      simp at this
      omega
    rw [range'_succ,map_cons,fanoutLoop,hstep,Option.bind_some,hrest]
    rfl

theorem fanout_eq : fanout firstBytes=some (fanTable firstBytes) := by
  have hzero : below firstBytes 0=0 := by simp [below]
  have hloop := fanoutLoop_spec hsorted 256 (b := 0) (s := ⟨firstBytes.zipIdx.head?,firstBytes.zipIdx.tail,0⟩) rfl
    (fun _ => by rw [hzero]; exact ⟨rfl,rfl,fun _ => rfl⟩)
  rw [← range_eq_range'] at hloop
  rw [fanout,allBytes,hloop,fanTable,allBytes,map_map]
  congr 1
  refine map_congr_left fun i hi => ?_
  have hbyte : (UInt8.ofNat i).toNat=i := by
    rw [UInt8.toNat_ofNat']
    have := mem_range.mp hi
    omega
  rw [Function.comp_apply,countP_le_eq,hbyte]

omit hsorted

theorem fanTable_get (firstBytes : List UInt8) {i : ℕ} (hi : i < 256) :
    (fanTable firstBytes)[i]? = some (UInt32.ofNat (below firstBytes (i+1))) := by
  have hbyte : (UInt8.ofNat i).toNat=i := by
    rw [UInt8.toNat_ofNat']
    omega
  have hget : allBytes[i]? = some (UInt8.ofNat i) := by simp [allBytes,hi]
  rw [fanTable,getElem?_map,hget,Option.map_some,countP_le_eq,hbyte]

theorem fanTable_length (firstBytes : List UInt8) : (fanTable firstBytes).length=256 := by
  simp [fanTable,allBytes]

end Fanout

/-! Lookups -/

section Lookup
variable {ids : List ObjectId} {id : ObjectId} {oidAtIndex : ℕ → Option ObjectId}

/-- Ids in strictly ascending order. -/
def Ascending (ids : List ObjectId) : Prop := ids.Pairwise (fun a b => a.cmp b = .lt)

variable (hids : Ascending ids)
include hids

theorem Ascending.firstBytes : (ids.map firstByte).Pairwise (· ≤ ·) :=
  pairwise_map.mpr (hids.imp firstByte_le)

theorem Ascending.nodup : ids.Nodup := by
  refine hids.imp fun {a b} hab heq => ?_
  rw [cmp_eq.mpr heq] at hab
  exact Ordering.noConfusion hab

theorem Ascending.get_lt {i j : ℕ} {a b : ObjectId} (hij : i < j) (ha : ids[i]? = some a) (hb : ids[j]? = some b) :
    a.cmp b = .lt := by
  obtain ⟨hi,rfl⟩ := List.getElem?_eq_some_iff.mp ha
  obtain ⟨hj,rfl⟩ := List.getElem?_eq_some_iff.mp hb
  exact pairwise_iff_getElem.mp hids i j hi hj hij

/-- The bisection, with smaller ids before it and larger ones behind it. -/
theorem lookupLoop_spec (hlen : ids.length ≤ 2^31) (hoid : ∀ i a,ids[i]? = some a → oidAtIndex i=some a)
    {lowerBound upperBound : ℕ} (hupper : upperBound ≤ ids.length)
    (hbefore : ∀ i < lowerBound,∀ a,ids[i]? = some a → a.cmp id = .lt)
    (hbehind : ∀ i ≥ upperBound,∀ a,ids[i]? = some a → id.cmp a = .lt) :
    ∃ r,lookupLoop id oidAtIndex lowerBound upperBound=some r ∧ ∀ i,r=some i ↔ ids[i]? = some id := by
  have hself : id.cmp id ≠ .lt := by
    rw [cmp_eq.mpr rfl]
    exact Ordering.noConfusion
  induction hn : upperBound-lowerBound using Nat.strongRecOn generalizing lowerBound upperBound with
  | ind n ih =>
    rw [lookupLoop]
    split
    · rw [if_pos (by omega)]
      have hmid : (lowerBound+upperBound)/2 < ids.length := by omega
      have hget := getElem?_eq_getElem hmid
      simp only [hoid _ _ hget]
      cases hcmp : id.cmp ids[(lowerBound+upperBound)/2] with
      | lt =>
        refine ih _ ?_ (by omega) hbefore ?_ rfl
        · omega
        · intro i hi a ha
          rcases Nat.eq_or_lt_of_le hi with rfl | hi
          · rwa [← Option.some.inj (hget.symm.trans ha)]
          · exact lt_trans hcmp (hids.get_lt hi hget ha)
      | eq =>
        refine ⟨_,rfl,?_⟩
        intro i
        have hid := cmp_eq.mp hcmp
        rw [hid,← hget,Option.some_inj]
        constructor
        · rintro rfl
          rfl
        · intro hi
          exact (getElem?_inj hmid hids.nodup).mp hi.symm
      | gt =>
        have hgt : (ids[(lowerBound+upperBound)/2]).cmp id = .lt := by rw [← cmp_swap,hcmp]; rfl
        refine ih _ ?_ hupper ?_ hbehind rfl
        · omega
        · intro i hi a ha
          rcases Nat.eq_or_lt_of_le (Nat.le_of_lt_succ hi) with rfl | hi
          · rwa [← Option.some.inj (hget.symm.trans ha)]
          · exact lt_trans (hids.get_lt hi ha hget) hgt
    · refine ⟨none,rfl,?_⟩
      intro i
      constructor
      · intro h
        cases h
      · intro hi
        by_cases hlow : i < lowerBound
        · exact absurd (hbefore i hlow id hi) hself
        · exact absurd (hbehind i (by omega) id hi) hself

theorem idxOf?_eq {r : Option ℕ} (hr : ∀ i,r=some i ↔ ids[i]? = some id) : r=ids.idxOf? id := by
  have hidx : ∀ i,ids.idxOf? id=some i ↔ ids[i]? = some id := by
    intro i
    rw [idxOf?_eq_some_iff]
    constructor
    · rintro ⟨hi,hget,-⟩
      rw [getElem?_eq_getElem hi,hget]
    · intro hget
      obtain ⟨hi,heq⟩ := List.getElem?_eq_some_iff.mp hget
      refine ⟨hi,heq,?_⟩
      intro j hj hj'
      exact absurd ((getElem_inj hids.nodup).mp (hj'.trans heq.symm)) hj.ne
  apply Option.ext
  intro i
  rw [hr,hidx]

theorem lookup_eq (hlen : ids.length ≤ 2^31) (hoid : ∀ i a,ids[i]? = some a → oidAtIndex i=some a) (id : ObjectId) :
    lookup id (fanTable (ids.map firstByte)) oidAtIndex=some (ids.idxOf? id) := by
  have hfirst : ∀ {i : ℕ} {a : ObjectId},ids[i]? = some a → (ids.map firstByte)[i]? = some a.firstByte := by
    intro i a ha
    rw [getElem?_map,ha]
    rfl
  have hbound : ∀ b,below (ids.map firstByte) b ≤ ids.length := fun b =>
    (below_le_length _ b).trans_eq (length_map _)
  have hnat : ∀ b,(UInt32.ofNat (below (ids.map firstByte) b)).toNat=below (ids.map firstByte) b := by
    intro b
    have := hbound b
    rw [UInt32.toNat_ofNat']
    omega
  have hlower : (if id.firstByte.toNat≠0 then (fanTable (ids.map firstByte))[id.firstByte.toNat-1]? else some 0) =
      some (UInt32.ofNat (below (ids.map firstByte) id.firstByte.toNat)) := by
    have hlt := id.firstByte.toNat_lt
    by_cases hzero : id.firstByte.toNat=0
    · simp [hzero,below]
    · rw [if_pos hzero,fanTable_get _ (by omega),Nat.sub_add_cancel (by omega)]
  have hbefore : ∀ i < below (ids.map firstByte) id.firstByte.toNat,∀ a,ids[i]? = some a → a.cmp id = .lt := by
    intro i hi a ha
    have hlt := (lt_below_iff hids.firstBytes (hfirst ha)).mp hi
    exact cmp_of_firstByte (UInt8.lt_iff_toNat_lt.mpr hlt)
  have hbehind : ∀ i ≥ below (ids.map firstByte) (id.firstByte.toNat+1),∀ a,ids[i]? = some a → id.cmp a = .lt := by
    intro i hi a ha
    have hnot := mt (lt_below_iff hids.firstBytes (hfirst ha)).mpr (Nat.not_lt.mpr hi)
    exact cmp_of_firstByte (UInt8.lt_iff_toNat_lt.mpr (by omega))
  obtain ⟨_,hloop,hr⟩ := lookupLoop_spec hids hlen hoid (hbound _) hbefore hbehind
  simp only [lookup,fanTable_get _ id.firstByte.toNat_lt,Option.bind_some]
  rw [hlower,Option.bind_some,hnat,hnat,hloop,idxOf?_eq hids hr]

end Lookup

end Gix.Pack
