import Gix.ThinPack

/-! # What a completed pack is

Its entries are the original ones with each missing base in front of the first delta that
needs it, they lie one behind the other, and each delta leads to where its base is now. -/
namespace Gix.ThinPack
open Gix.Pack List

inductive Slot
  | base (id : ObjectId)
  | entry (index : ℕ)
deriving DecidableEq,Repr

/-- The places for an entry, with what came before it. -/
def slotsOf (before : List Entry) (e : Entry) : List Slot :=
  match e.header with
  | .refDelta id =>
    if before.any (fun x => x.header = .refDelta id) then [.entry before.length] else [.base id,.entry before.length]
  | _ => [.entry before.length]

def slotsFrom (before : List Entry) : List Entry → List Slot
  | [] => []
  | e :: es => slotsOf before e++slotsFrom (before++[e]) es

def slots (es : List Entry) : List Slot := slotsFrom [] es

/-- Entries lie one behind the other from an offset on. -/
def Contiguous : ℕ → List Entry → Prop
  | _, [] => True
  | p, e :: es => e.packOffset = p ∧ Contiguous (p+e.bytesInPack) es

def endOf (p : ℕ) (es : List Entry) : ℕ := p+(es.map Entry.bytesInPack).sum

/-- The object at a place: a base from the database, or an entry whose header may have changed
if it is a delta. -/
def Fills (env : Env) (es : List Entry) : Slot → Entry → Prop
  | .base id, y => ∃ obj base, env.tryFind id = some (some obj) ∧ Entry.fromDataObj env obj 0 = .ok base ∧
      y = {base with packOffset := y.packOffset}
  | .entry i, y => ∃ e, es[i]? = some e ∧ y.compressed = e.compressed ∧ y.compressedSize = e.compressedSize ∧
      y.decompressedSize = e.decompressedSize ∧ y.trailer = e.trailer ∧ y.headerSize = y.header.size y.decompressedSize ∧
      if e.header.isDelta then ∃ distance, y.header = .ofsDelta distance else y.header = e.header

/-- The place of the base of a delta. -/
def BaseOf (es : List Entry) (i : ℕ) (b : Slot) : Prop :=
  ∃ e, es[i]? = some e ∧ match e.header with
    | .ofsDelta distance => ∃ j e', j < i ∧ es[j]? = some e' ∧ e'.packOffset+distance = e.packOffset ∧ b = .entry j
    | .refDelta id => b = .base id
    | _ => False

/-- The deltas lead to the places of their bases. -/
def LinksUp (es : List Entry) (out : List (Slot × Entry)) : Prop :=
  ∀ i y distance, (.entry i,y) ∈ out → y.header = .ofsDelta distance →
    ∃ b y', BaseOf es i b ∧ (b,y') ∈ out ∧ y'.packOffset+distance = y.packOffset

structure Completed (env : Env) (es ys : List Entry) : Prop where
  length : ys.length = (slots es).length
  fills : ∀ x ∈ (slots es).zip ys, Fills env es x.1 x.2
  contiguous : Contiguous 12 ys
  linked : LinksUp es ((slots es).zip ys)

/-! Places -/

theorem slotsFrom_append (before es es' : List Entry) :
    slotsFrom before (es++es')=slotsFrom before es++slotsFrom (before++es) es' := by
  induction es generalizing before with
  | nil => simp [slotsFrom]
  | cons e es ih => simp [slotsFrom,ih]

theorem slots_concat (es : List Entry) (e : Entry) : slots (es++[e])=slots es++slotsOf es e := by
  simp [slots,slotsFrom_append,slotsFrom]

theorem entry_mem_slotsOf (before : List Entry) (e : Entry) : .entry before.length∈slotsOf before e := by
  unfold slotsOf
  split
  · split <;> simp
  · simp

variable {before es : List Entry} {id : ObjectId} {e : Entry} {p : ℕ}

theorem base_mem_slotsFrom : .base id∈slotsFrom before es ↔
    (∃ e∈es,e.header = .refDelta id) ∧ ∀ e∈before,e.header ≠ .refDelta id := by
  induction es generalizing before with
  | nil => simp [slotsFrom]
  | cons e es ih =>
    rw [slotsFrom,mem_append,ih]
    have hof : .base id∈slotsOf before e ↔ e.header = .refDelta id ∧ ∀ x∈before,x.header ≠ .refDelta id := by
      cases he : e.header with
      | refDelta id' =>
        simp only [slotsOf,he,Header.refDelta.injEq]
        split
        · rename_i hany
          obtain ⟨x,hx,hxid⟩ : ∃ x∈before,x.header = .refDelta id' := by simpa using hany
          refine iff_of_false (by simp) ?_
          rintro ⟨rfl,hnone⟩
          exact hnone x hx hxid
        · rename_i hany
          have hnone : ∀ x∈before,x.header ≠ .refDelta id' := by simpa using hany
          simp only [mem_cons,Slot.base.injEq,not_mem_nil,reduceCtorEq,or_false]
          constructor
          · rintro rfl
            exact ⟨rfl,hnone⟩
          · rintro ⟨rfl,-⟩
            rfl
      | _ => simp [slotsOf,he]
    rw [hof]
    simp only [mem_append,mem_cons]
    constructor
    · rintro (⟨he,hbefore⟩ | ⟨⟨x,hx,hxid⟩,hbefore⟩)
      · exact ⟨⟨e,.inl rfl,he⟩,hbefore⟩
      · exact ⟨⟨x,.inr hx,hxid⟩,fun y hy => hbefore y (.inl hy)⟩
    · rintro ⟨⟨x,hx,hxid⟩,hbefore⟩
      by_cases he : e.header = .refDelta id
      · exact .inl ⟨he,hbefore⟩
      · rcases hx with rfl | hx
        · exact absurd hxid he
        · refine .inr ⟨⟨x,hx,hxid⟩,?_⟩
          rintro y (hy | rfl | hy)
          · exact hbefore y hy
          · exact he
          · simp at hy

theorem base_mem_slots : .base id∈slots es ↔ ∃ e∈es,e.header = .refDelta id := by
  simp [slots,base_mem_slotsFrom]

theorem slotsOf_ref (he : e.header = .refDelta id) :
    slotsOf before e=if .base id∈slots before then [.entry before.length]
      else [.base id,.entry before.length] := by
  simp [slotsOf,he,base_mem_slots]

theorem slotsOf_other (he : ∀ id,e.header ≠ .refDelta id) : slotsOf before e=[.entry before.length] := by
  unfold slotsOf
  split
  · rename_i id hid
    exact absurd hid (he id)
  · rfl

/-! Offsets -/

theorem endOf_append (p : ℕ) (es es' : List Entry) : endOf p (es++es')=endOf (endOf p es) es' := by
  simp [endOf,Nat.add_assoc]

theorem endOf_singleton (p : ℕ) (e : Entry) : endOf p [e]=p+e.bytesInPack := by
  simp [endOf]

theorem contiguous_append {es' : List Entry} :
    Contiguous p (es++es') ↔ Contiguous p es ∧ Contiguous (endOf p es) es' := by
  induction es generalizing p with
  | nil => simp [Contiguous,endOf]
  | cons e es ih =>
    rw [cons_append,Contiguous,ih,Contiguous,and_assoc]
    simp [endOf,Nat.add_assoc]

theorem contiguous_mem (h : Contiguous p es) (he : e∈es) :
    p ≤ e.packOffset ∧ e.packOffset+e.bytesInPack ≤ endOf p es := by
  obtain ⟨_,_,rfl⟩ := append_of_mem he
  obtain ⟨hoffset,-⟩ := (contiguous_append.mp h).2
  rw [endOf_append,← singleton_append,endOf_append,hoffset]
  constructor
  · exact Nat.le_add_right _ _
  · exact Nat.le_add_right _ _

theorem contiguous_inj {α : Type} {out : List (α × Entry)} (h : Contiguous p (out.map Prod.snd))
    (hpos : ∀ x∈out,0 < x.2.bytesInPack) {x x' : α × Entry} (hx : x∈out) (hx' : x'∈out)
    (heq : x.2.packOffset=x'.2.packOffset) : x=x' := by
  induction out generalizing p with
  | nil => simp at hx
  | cons y out ih =>
    obtain ⟨_,hrest⟩ := h
    have hafter : ∀ z∈out,y.2.packOffset < z.2.packOffset := by
      intro z hz
      have := (contiguous_mem hrest (mem_map_of_mem hz)).1
      have := hpos y (by simp)
      omega
    rcases mem_cons.mp hx with rfl | hin <;> rcases mem_cons.mp hx' with rfl | hin'
    · rfl
    · exact absurd heq (hafter _ hin').ne
    · exact absurd heq (hafter _ hin).ne'
    · exact ih hrest (fun z hz => hpos z (by simp [hz])) hin hin'

/-! More entries -/

theorem Fills.append {env : Env} {b : Slot} {y : Entry} (h : Fills env es b y) (es' : List Entry) :
    Fills env (es++es') b y := by
  cases b with
  | base id => exact h
  | entry i =>
    obtain ⟨e,he,hrest⟩ := h
    have hi := (List.getElem?_eq_some_iff.mp he).1
    exact ⟨e,by rw [getElem?_append_left hi,he],hrest⟩

theorem BaseOf.append {i : ℕ} {b : Slot} (h : BaseOf es i b) (es' : List Entry) : BaseOf (es++es') i b := by
  obtain ⟨e,he,hb⟩ := h
  have hi := (List.getElem?_eq_some_iff.mp he).1
  refine ⟨e,by rw [getElem?_append_left hi,he],?_⟩
  split
  · rename_i distance hd
    simp only [hd] at hb
    obtain ⟨j,e',hj,he',hrest⟩ := hb
    exact ⟨j,e',hj,by rw [getElem?_append_left (by omega),he'],hrest⟩
  · rename_i id hid
    simpa [hid] using hb
  · rename_i h1 h2
    split at hb
    · rename_i distance hd
      exact absurd hd (h1 distance)
    · rename_i id hid
      exact absurd hid (h2 id)
    · exact hb

end Gix.ThinPack
