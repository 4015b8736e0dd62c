import Gix.ThinPackLayout

/-! # The list of changes

Records of changes are kept in the order of the original offsets, at most two for each. From
them, the new offset of an entry can be told, which is what the search for the base of an
ofs-delta does. -/
namespace Gix.ThinPack
open Gix.Pack SortedSearch List

/-- Where the entry at an offset of the original pack is by the changes: at the offset of its
own record, which is the last one, or moved by what changed before it. -/
def rebased (changes : List Change) (b : ℕ) : ℤ :=
  match (changes.filter (fun c => c.packOffset = b)).getLast? with
  | some c => c.shiftedPackOffset
  | none => b+((changes.filter (fun c => c.packOffset < b)).map Change.sizeChange).sum

/-- The changes of entries before an offset. -/
structure Ledger (changes : List Change) (p : ℕ) : Prop where
  sorted : (changes.map Change.packOffset).Pairwise (· ≤ ·)
  before : ∀ c ∈ changes, c.packOffset < p
  twice : ∀ b, (changes.filter (fun c => c.packOffset = b)).length ≤ 2

section Ledger
variable {changes new : List Change} {p b : ℕ}

theorem Ledger.append (h : Ledger changes p) (hnew : ∀ c∈new,c.packOffset=p) (hlen : new.length ≤ 2) {p' : ℕ}
    (hp : p < p') : Ledger (changes++new) p' := by
  refine ⟨?_,?_,fun b => ?_⟩
  · rw [map_append]
    refine pairwise_append.mpr ⟨h.sorted,?_,?_⟩
    · rw [pairwise_map]
      exact pairwise_of_forall_mem_list fun a ha b hb => by rw [hnew a ha,hnew b hb]
    · simp only [mem_map]
      rintro _ ⟨c,hc,rfl⟩ _ ⟨c',hc',rfl⟩
      have := h.before c hc
      have := hnew c' hc'
      omega
  · intro c hc
    rcases mem_append.mp hc with hc | hc
    · exact (h.before c hc).trans hp
    · rw [hnew c hc]
      exact hp
  · rw [filter_append,length_append]
    by_cases hb : b=p
    · have hold : changes.filter (fun c => c.packOffset=b)=[] := by
        rw [filter_eq_nil_iff]
        intro c hc
        have := h.before c hc
        simp only [decide_eq_true_eq]
        omega
      have := length_filter_le (fun c : Change => decide (c.packOffset=b)) new
      simp only [hold,length_nil]
      omega
    · have hnone : new.filter (fun c => c.packOffset=b)=[] := by
        rw [filter_eq_nil_iff]
        intro c hc
        simp only [hnew c hc,decide_eq_true_eq]
        exact Ne.symm hb
      simpa [hnone] using h.twice b

theorem rebased_append (hnew : ∀ c∈new,c.packOffset=p) (hb : b < p) :
    rebased (changes++new) b=rebased changes b := by
  have hnone : ∀ q : ℕ → Bool,q p=false → new.filter (fun c => q c.packOffset)=[] := by
    intro q hq
    rw [filter_eq_nil_iff]
    intro c hc
    simp [hnew c hc,hq]
  simp [rebased,hnone (fun x => x=b) (by simp; omega),hnone (fun x => x < b) (by simp; omega)]

theorem rebased_concat (changes : List Change) (c : Change) : rebased (changes++[c]) c.packOffset=c.shiftedPackOffset := by
  simp [rebased]

/-- An entry without a record is moved by all that changed before. -/
theorem Ledger.rebased_end (h : Ledger changes p) : rebased changes p=p+(changes.map Change.sizeChange).sum := by
  have hat : changes.filter (fun c => c.packOffset=p)=[] := by
    rw [filter_eq_nil_iff]
    intro c hc
    simpa using (h.before c hc).ne
  have hbefore : changes.filter (fun c => c.packOffset < p)=changes := by
    rw [filter_eq_self]
    intro c hc
    simpa using h.before c hc
  simp [rebased,hat,hbefore]

end Ledger

section Distance
variable {s : Iter} {e : Entry} {off d b p : ℕ}

theorem shiftedPackOffset_eq {packOffset : ℕ} (hoff : (packOffset : ℤ)+s.inserted=off) :
    shiftedPackOffset s packOffset=some off := by
  simp [shiftedPackOffset,hoff]

theorem newDistance_eq (env : Env) (hledger : Ledger s.changes p) (htotal : s.inserted=(s.changes.map Change.sizeChange).sum)
    (hoff : (e.packOffset : ℤ)+s.inserted=off) (hb : b+d=e.packOffset) {base : ℕ}
    (hbase : rebased s.changes b=base) (hle : base ≤ off) : newDistance env s e d b=some (off-base) := by
  have hsplit := sorted_split hledger.sorted b
  set pre := s.changes.filter (fun c => c.packOffset < b) with hpre
  set mid := s.changes.filter (fun c => c.packOffset=b) with hmid
  set post := s.changes.filter (fun c => b < c.packOffset) with hpost
  have htwice : mid.length ≤ 2 := hledger.twice b
  unfold newDistance
  cases hrun : env.search.run (s.changes.map Change.packOffset) b with
  | ok i =>
    obtain ⟨hlo,hhi⟩ := env.search.ok_bounds hledger.sorted b hrun
    rw [← hpre] at hlo hhi
    rw [← hmid] at hhi
    -- the index is that of the last record of the base
    have hget : ∀ j,pre.length ≤ j → j < pre.length+mid.length → s.changes[j]? = mid[j-pre.length]? := by
      intro j hj hj'
      rw [hsplit,getElem?_append_right hj,getElem?_append_left (by omega)]
    have hindex : ownRecord s b i=pre.length+(mid.length-1) := by
      unfold ownRecord
      by_cases hlast : i+1 < pre.length+mid.length
      · obtain ⟨c,hc⟩ : ∃ c,mid[i+1-pre.length]? = some c :=
          ⟨_,getElem?_eq_getElem (by omega)⟩
        have hcb : c.packOffset=b := by
          simpa using (mem_filter.mp (mem_of_getElem? hc)).2
        rw [hget _ (by omega) hlast,hc]
        simp only [hcb,if_true]
        omega
      · have hnot : ∀ c,s.changes[i+1]? = some c → c.packOffset≠b := by
          intro c hc
          rw [hsplit,getElem?_append_right (by omega),getElem?_append_right (by omega)] at hc
          have : b < c.packOffset := by
            simpa using (mem_filter.mp (mem_of_getElem? hc)).2
          omega
        cases hc : s.changes[i+1]? with
        | none => dsimp only; omega
        | some c =>
          simp only [hnot c hc,if_false]
          omega
    have hlast : s.changes[pre.length+(mid.length-1)]? = mid.getLast? := by
      rw [hget _ (by omega) (by omega),getLast?_eq_getElem?]
      congr 1
      omega
    obtain ⟨c,hc⟩ : ∃ c,mid.getLast? = some c := by
      have hne : mid≠[] := by
        rintro h
        simp only [h,length_nil] at hhi
        omega
      exact ⟨_,getLast?_eq_some_getLast hne⟩
    have hcbase : c.shiftedPackOffset=base := by
      have : rebased s.changes b=c.shiftedPackOffset := by simp [rebased,← hmid,hc]
      omega
    simp only [hindex,shiftedPackOffset_eq hoff,hlast,hc,Option.bind_eq_bind,Option.bind_some,hcbase,hle,if_true]
  | error i =>
    obtain ⟨hnone,hdrop⟩ := env.search.error_split hledger.sorted b hrun
    rw [← hmid] at hnone
    rw [← hpost] at hdrop
    have hsum : (s.changes.map Change.sizeChange).sum=(pre.map Change.sizeChange).sum+(post.map Change.sizeChange).sum := by
      conv_lhs => rw [hsplit,hnone,nil_append,map_append,sum_append]
    have hpre' : (base : ℤ)=b+(pre.map Change.sizeChange).sum := by
      rw [← hbase]
      simp [rebased,← hmid,hnone,← hpre]
    have hd : (d : ℤ)+(post.map Change.sizeChange).sum=(off-base : ℕ) := by
      omega
    simp only [hdrop,hd]
    simp

end Distance
end Gix.ThinPack
