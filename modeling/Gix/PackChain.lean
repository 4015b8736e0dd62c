import Gix.PackDecode

/-! # Chains of deltas

What a chain in a pack stands for: the object at its end, to which the deltas are applied one
after the other. Each delta says how long its base is and how long its result will be. -/
namespace Gix.Pack.Decode
open List

/-! Sizes -/

/-- Seven bits in each byte, the least significant ones first. -/
def recorded : Bytes → ℕ
  | [] => 0
  | b :: rest => b.toNat%128+128*recorded rest

/-- All bytes but the last say that there are more. Ten are enough for 64 bits. -/
structure IsSize (field : Bytes) (size : ℕ) : Prop where
  continued : ∀ b ∈ field.dropLast, 128 ≤ b.toNat
  last : ∃ b, field.getLast? = some b ∧ b.toNat < 128
  length : field.length ≤ 10
  value : recorded field = size

variable {field : Bytes}

theorem headerSizeLoop_field (overflowChecks : Bool) (hcontinued : ∀ b∈field.dropLast,128 ≤ b.toNat)
    (hlast : ∃ b,field.getLast? = some b ∧ b.toNat < 128) (rest : Bytes) (k size : ℕ) (hk : k+field.length ≤ 10) (hsize : size < 2^(7*k))
    (hfits : size+recorded field*2^(7*k) < 2^64) (consumed : ℕ) :
    Delta.headerSizeLoop overflowChecks (field++rest) (7*k) size consumed =
      some (size+recorded field*2^(7*k),consumed+field.length) := by
  induction field generalizing k size consumed with
  | nil => simp at hlast
  | cons b field ih =>
    rw [length_cons] at hk
    have hvalue : recorded (b::field)*2^(7*k)=b.toNat%128*2^(7*k)+recorded field*2^(7*(k+1)) := by
      rw [recorded]
      ring
    rw [hvalue] at hfits ⊢
    have hor : size ||| ((b.toNat%128) <<< (7*k%64))%2^64=size+b.toNat%128*2^(7*k) := by
      rw [Nat.mod_eq_of_lt (by omega : 7*k < 64),Nat.shiftLeft_eq,Nat.mod_eq_of_lt (by omega),Nat.or_comm,Nat.mul_comm,
        ← Nat.two_pow_add_eq_or_of_lt hsize,Nat.add_comm]
    have hchecks : (overflowChecks && decide (64 ≤ 7*k))=false := by
      rw [decide_eq_false (by omega),Bool.and_false]
    rw [cons_append,Delta.headerSizeLoop,hchecks,hor]
    cases field with
    | nil =>
      obtain ⟨c,hc,hlt⟩ := hlast
      obtain rfl : b=c := by simpa using hc
      simp [recorded,hlt]
    | cons c field =>
      rw [dropLast_cons_of_ne_nil (by simp),forall_mem_cons] at hcontinued
      rw [getLast?_cons_cons] at hlast
      have hnext : size+b.toNat%128*2^(7*k) < 2^(7*(k+1)) := by
        have hb : b.toNat%128 < 128 := Nat.mod_lt _ (by decide)
        have hpow : 2^(7*(k+1))=128*2^(7*k) := by rw [show 7*(k+1)=7+7*k by omega,pow_add]; rfl
        have hle := Nat.mul_le_mul_right (2^(7*k)) (Nat.le_of_lt_succ hb)
        omega
      have hmore := Nat.not_lt.mpr hcontinued.1
      have := ih hcontinued.2 hlast (k+1) _ (by omega) hnext (by omega) (consumed+1)
      rw [show 7*(k+1)=7*k+7 by omega] at this
      simp only [Bool.false_eq_true,if_false,hmore,this]
      simp only [length_cons]
      rw [show 7*(k+1)=7*k+7 by omega]
      congr 2 <;> omega

variable {size : ℕ}

theorem IsSize.decode (h : IsSize field size) (hsize : size < 2^64) (overflowChecks : Bool) (rest : Bytes) :
    Delta.decodeHeaderSize overflowChecks (field++rest)=some (size,field.length) := by
  have := headerSizeLoop_field overflowChecks h.continued h.last rest 0 0 (by simpa using h.length) (by simp)
    (by simpa [h.value] using hsize) 0
  simpa [Delta.decodeHeaderSize,h.value] using this

theorem IsSize.single (b : UInt8) (h : b.toNat < 128) : IsSize [b] b.toNat :=
  ⟨by simp,⟨b,rfl,h⟩,by simp,by rw [recorded,recorded,Nat.mod_eq_of_lt h,Nat.add_zero]⟩

theorem IsSize.length_pos (h : IsSize field size) : 0 < field.length := by
  obtain ⟨b,hb,-⟩ := h.last
  cases field with
  | nil => simp at hb
  | cons b field => simp

/-! Chains -/

/-- A delta and where it is in the pack. -/
structure Layer where
  dataOffset : ℕ
  baseField : Bytes
  resultField : Bytes
  instructions : Bytes

namespace Layer

def delta (l : Layer) : Bytes := l.baseField++l.resultField++l.instructions

/-- The size of the base and of the result are what the delta says. -/
structure Applies (l : Layer) (base result : Bytes) : Prop where
  sizeOfBase : IsSize l.baseField base.length
  sizeOfResult : IsSize l.resultField result.length
  apply : Delta.apply base result.length l.instructions = some result

def baseSize (l : Layer) : ℕ := recorded l.baseField
def resultSize (l : Layer) : ℕ := recorded l.resultField

end Layer

/-- All deltas applied to an object, the oldest one first. -/
def Composes : Bytes → List Layer → Bytes → Prop
  | base, [], object => object = base
  | base, l :: layers, object => ∃ next, l.Applies base next ∧ Composes next layers object

theorem Composes.append {base mid object : Bytes} {older newer : List Layer} (h : Composes base older mid) (h' : Composes mid newer object) :
    Composes base (older++newer) object := by
  induction older generalizing base with
  | nil =>
    obtain rfl := h
    exact h'
  | cons l older ih =>
    obtain ⟨next,hl,hnext⟩ := h
    exact ⟨next,hl,ih hnext⟩

theorem Composes.of_append {base object : Bytes} {older newer : List Layer} (h : Composes base (older++newer) object) :
    ∃ mid,Composes base older mid ∧ Composes mid newer object := by
  induction older generalizing base with
  | nil => exact ⟨base,rfl,h⟩
  | cons l older ih =>
    obtain ⟨next,hl,hnext⟩ := h
    obtain ⟨mid,hmid,hobject⟩ := ih hnext
    exact ⟨mid,⟨next,hl,hmid⟩,hobject⟩

/-- What zlib makes of the bytes at this offset. It fills the buffer as far as it goes. -/
structure Streams (f : File) (env : Env) (offset : ℕ) (data : Bytes) : Prop where
  inBounds : offset < f.data.length
  inflate : ∀ size, ∃ consumed, env.inflate (f.data.drop offset) size = some (consumed,data.take size)

/-- The delta of an entry -/
structure Stored (f : File) (env : Env) (entry : DataEntry) (l : Layer) : Prop where
  offset : l.dataOffset = entry.dataOffset
  size : l.delta.length = entry.decompressedSize
  streams : Streams f env entry.dataOffset l.delta

/-- The object at the end of a chain, with its entry if it is in the pack. -/
structure Root where
  kind : ObjectKind
  data : Bytes
  entry : Option DataEntry

/-- The base of a delta is in the pack as well. -/
inductive Based (f : File) (resolve : Resolve) (entry base : DataEntry) : Prop
  | ofs (distance offset : ℕ) (header : entry.header = .ofsDelta distance) (inBounds : basePackOffset entry distance = .ok offset)
      (found : f.entry offset = .ok base)
  | ref (id : ObjectId) (header : entry.header = .refDelta id) (found : ∀ out, ∃ out', resolve id out = some (.inPack base,out'))

/-- The deltas from that of an entry to the oldest one, and the object below them. -/
inductive Chain (f : File) (env : Env) (resolve : Resolve) : DataEntry → Root → List Layer → Prop
  | object {entry : DataEntry} {kind : ObjectKind} {data : Bytes} (header : entry.header.asKind = some kind)
      (size : data.length = entry.decompressedSize) (streams : Streams f env entry.dataOffset data) :
      Chain f env resolve entry ⟨kind,data,some entry⟩ []
  | inPack {entry base : DataEntry} {root : Root} {l : Layer} {layers : List Layer} (stored : Stored f env entry l)
      (based : Based f resolve entry base) (chain : Chain f env resolve base root layers) : Chain f env resolve entry root (l :: layers)
  | outOfPack {entry : DataEntry} {id : ObjectId} {kind : ObjectKind} {data : Bytes} {l : Layer} (stored : Stored f env entry l)
      (header : entry.header = .refDelta id) (found : ∀ out, resolve id out = some (.outOfPack kind data.length,data)) :
      Chain f env resolve entry ⟨kind,data,none⟩ [l]

variable {f : File} {resolve : Resolve}

theorem Based.isDelta {entry base : DataEntry} (h : Based f resolve entry base) :
    entry.header.isDelta=true ∧ entry.header.asKind=none := by
  cases h with
  | ofs _ _ header _ _ => simp [header,Header.isDelta,Header.asKind]
  | ref _ header _ => simp [header,Header.isDelta,Header.asKind]

theorem Based.baseOf {entry base : DataEntry} (h : Based f resolve entry base) (out : Bytes) :
    ∃ out',f.baseOf resolve entry out = .ok (.inPack base,out') := by
  cases h with
  | ofs distance offset header inBounds found =>
    refine ⟨out,?_⟩
    simp [File.baseOf,header,inBounds,found,bind,Except.bind,pure,Except.pure]
  | ref id header found =>
    obtain ⟨out',hfound⟩ := found out
    exact ⟨out',by simp [File.baseOf,header,hfound]⟩

/-! Sizes of a whole chain -/

def deltaSize : List Layer → ℕ
  | [] => 0
  | l :: layers => l.delta.length+deltaSize layers

def biggest : List Layer → ℕ
  | [] => 0
  | l :: layers => max (max l.baseSize l.resultSize) (biggest layers)

/-- What it takes to decode an entry: room for the object, or for two objects and all deltas. -/
def required (entry : DataEntry) : List Layer → ℕ
  | [] => entry.decompressedSize
  | l :: layers => biggest (l :: layers)+biggest (l :: layers)+deltaSize (l :: layers)

theorem deltaSize_append (older newer : List Layer) : deltaSize (older++newer)=deltaSize older+deltaSize newer := by
  induction older with
  | nil => simp [deltaSize]
  | cons l older ih => simp [deltaSize,ih,Nat.add_assoc]

theorem biggest_append (older newer : List Layer) : biggest (older++newer)=max (biggest older) (biggest newer) := by
  induction older with
  | nil => simp [biggest]
  | cons l older ih => simp only [cons_append,biggest,ih,Nat.max_assoc]

theorem deltaSize_reverse (layers : List Layer) : deltaSize layers.reverse=deltaSize layers := by
  induction layers with
  | nil => rfl
  | cons l layers ih =>
    rw [reverse_cons,deltaSize_append]
    simp only [deltaSize]
    omega

theorem biggest_reverse (layers : List Layer) : biggest layers.reverse=biggest layers := by
  induction layers with
  | nil => rfl
  | cons l layers ih =>
    rw [reverse_cons,biggest_append]
    simp only [biggest]
    omega

theorem biggest_pos {layers : List Layer} : 0 < biggest layers ↔ ∃ l∈layers,l.baseSize≠0 ∨ l.resultSize≠0 := by
  induction layers with
  | nil => simp [biggest]
  | cons l layers ih =>
    simp only [mem_cons,exists_eq_or_imp,← ih,biggest]
    omega

end Gix.Pack.Decode
