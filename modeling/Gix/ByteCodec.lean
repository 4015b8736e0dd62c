import Mathlib

/-! # Bytes of formats

Fields that end at a delimiter, numbers as text, numbers of a fixed width and records one
behind the other, each with the lemmas that what is written is read again and the other way
around. -/
namespace Gix.ByteCodec
open List

/-! Delimiters -/

/-- What is in front of the first `b` and what is behind it. -/
def cut (b : UInt8) (l : List UInt8) : Option (List UInt8 × List UInt8) :=
  match l.dropWhile (· ≠ b) with
  | [] => none
  | _ :: rest => some (l.takeWhile (· ≠ b),rest)

section Cut
variable {b : UInt8} {l x rest : List UInt8}

theorem cut_append (h : b∉x) (rest : List UInt8) : cut b (x++b::rest)=some (x,rest) := by
  have hx : ∀ c∈x,decide (c≠b)=true := by
    intro c hc
    simpa using ne_of_mem_of_not_mem hc h
  have hdrop : (x++b::rest).dropWhile (· ≠ b)=b::rest := by
    rw [dropWhile_append_of_pos hx]
    simp
  have htake : (x++b::rest).takeWhile (· ≠ b)=x := by
    rw [takeWhile_append_of_pos hx]
    simp
  simp only [cut,hdrop,htake]

theorem cut_eq_some : cut b l=some (x,rest) ↔ l=x++b::rest ∧ b∉x := by
  constructor
  · intro h
    unfold cut at h
    split at h
    · simp at h
    · rename_i c rest' hdrop
      cases h
      have hc : c=b := by
        have := head?_dropWhile_not (fun c => decide (c≠b)) l
        rw [hdrop] at this
        simpa using this
      refine ⟨?_,?_⟩
      · subst hc
        rw [← hdrop,takeWhile_append_dropWhile]
      · intro hb
        simpa using mem_takeWhile_imp hb
  · rintro ⟨rfl,h⟩
    exact cut_append h rest

theorem cut_eq_none : cut b l=none ↔ b∉l := by
  constructor
  · intro h hmem
    obtain ⟨_,_,hl,hbefore⟩ := eq_append_cons_of_mem hmem
    rw [cut_eq_some.mpr ⟨hl,hbefore⟩] at h
    cases h
  · intro h
    cases hcut : cut b l with
    | none => rfl
    | some x => exact absurd (by rw [(cut_eq_some.mp hcut).1]; simp) h

end Cut

/-! Text -/

def isUtf8 (l : List UInt8) : Bool := (ByteArray.mk l.toArray).validateUTF8

def toAsciiLowercase (b : UInt8) : UInt8 := if 65 ≤ b ∧ b ≤ 90 then b+32 else b

def eqIgnoreAsciiCase (l₁ l₂ : List UInt8) : Bool :=
  l₁.map toAsciiLowercase = l₂.map toAsciiLowercase

/-! Numbers as text -/

/-- The digits of a number, none for zero. -/
def numeral (base n : ℕ) : List UInt8 := ((Nat.digits base n).map (fun d => UInt8.ofNat (48+d))).reverse

def numeralValue (base : ℕ) (t : List UInt8) : ℕ := t.foldl (fun v d => v*base+(d.toNat-48)) 0

def IsDigit (base : ℕ) (d : UInt8) : Prop := 48 ≤ d.toNat ∧ d.toNat < 48+base

section Numerals
variable {base n : ℕ} {t : List UInt8}

theorem numeralValue_eq (base : ℕ) (t : List UInt8) :
    numeralValue base t=Nat.ofDigits base (t.reverse.map (fun d => d.toNat-48)) := by
  rw [Nat.ofDigits_eq_foldr,foldr_map,numeralValue]
  simp [Nat.mul_comm,Nat.add_comm]

theorem toNat_digit {d : ℕ} (h : d < 10) : (UInt8.ofNat (48+d)).toNat=48+d := by
  exact Nat.mod_eq_of_lt (by omega)

theorem numeral_digits (hbase : 1 < base) (h10 : base ≤ 10) (n : ℕ) : ∀ d∈numeral base n,IsDigit base d := by
  intro d hd
  simp only [numeral,mem_reverse,mem_map] at hd
  obtain ⟨_,hk,rfl⟩ := hd
  have hlt := Nat.digits_lt_base hbase hk
  rw [IsDigit,toNat_digit (by omega)]
  omega

theorem numeralValue_numeral (hbase : 1 < base) (h10 : base ≤ 10) (n : ℕ) : numeralValue base (numeral base n)=n := by
  rw [numeralValue_eq,numeral,reverse_reverse,map_map]
  have hsame : (Nat.digits base n).map ((fun d => d.toNat-48) ∘ fun d => UInt8.ofNat (48+d))=Nat.digits base n := by
    conv_rhs => rw [← map_id (Nat.digits base n)]
    refine map_congr_left fun d hd => ?_
    have hlt := Nat.digits_lt_base hbase hd
    rw [Function.comp_apply,toNat_digit (by omega),Nat.add_sub_cancel_left,id]
  rw [hsame,Nat.ofDigits_digits]

/-- Digits without leading zeros are the ones of their value. -/
theorem numeral_numeralValue (hbase : 1 < base) (ht : ∀ d∈t,IsDigit base d) (hhead : t.head? ≠ some 48) :
    numeral base (numeralValue base t)=t := by
  have hdigits : Nat.digits base (numeralValue base t)=t.reverse.map (fun d => d.toNat-48) := by
    rw [numeralValue_eq]
    refine Nat.digits_ofDigits base hbase _ ?_ ?_
    · intro k hk
      simp only [mem_map,mem_reverse] at hk
      obtain ⟨d,hd,rfl⟩ := hk
      have := ht d hd
      rw [IsDigit] at this
      omega
    · intro hne
      cases t with
      | nil => simp at hne
      | cons d t =>
        have hd := ht d mem_cons_self
        rw [IsDigit] at hd
        have hd48 : d.toNat≠48 := by
          intro h48
          have : d=48 := UInt8.toNat_inj.mp h48
          simp [this] at hhead
        simp only [reverse_cons,map_append,map_cons,map_nil,getLast_append_singleton]
        omega
  rw [numeral,hdigits,map_map,map_reverse,reverse_reverse]
  conv_rhs => rw [← map_id t]
  refine map_congr_left fun d hd => ?_
  have := ht d hd
  rw [Function.comp_apply,Nat.add_sub_cancel' this.1,UInt8.ofNat_toNat,id]

def decimal (n : ℕ) : List UInt8 := if n = 0 then [48] else numeral 10 n

theorem decimal_ne_nil (n : ℕ) : decimal n≠[] := by
  unfold decimal
  split
  · simp
  · rename_i hn
    simpa [numeral] using Nat.digits_ne_nil_iff_ne_zero.mpr hn

theorem decimal_digits (n : ℕ) : ∀ d∈decimal n,IsDigit 10 d := by
  unfold decimal
  split
  · simp [IsDigit]
  · exact numeral_digits (by decide) (by decide) n

theorem numeralValue_decimal (n : ℕ) : numeralValue 10 (decimal n)=n := by
  unfold decimal
  split
  · rename_i hn
    simp [numeralValue,hn]
  · exact numeralValue_numeral (by decide) (by decide) n

def twoDigits (n : ℕ) : List UInt8 := if n < 10 then 48 :: decimal n else decimal n

theorem twoDigits_eq {n : ℕ} (h : n < 100) : twoDigits n=[UInt8.ofNat (48+n/10),UInt8.ofNat (48+n%10)] := by
  interval_cases n <;> decide

end Numerals

/-! Bytes as text -/

def hexDigit (n : ℕ) : UInt8 := UInt8.ofNat (if n < 10 then 48+n else 87+n)

def hexValue (d : UInt8) : Option ℕ :=
  if 48 ≤ d ∧ d ≤ 57 then some (d.toNat-48)
  else if 97 ≤ d ∧ d ≤ 102 then some (d.toNat-87)
  else if 65 ≤ d ∧ d ≤ 70 then some (d.toNat-55)
  else none

def hex (l : List UInt8) : List UInt8 := l.flatMap (fun b => [hexDigit (b.toNat/16),hexDigit (b.toNat%16)])

def unhex : List UInt8 → Option (List UInt8)
  | [] => some []
  | [_] => none
  | hi :: lo :: l => do
    let hi ← hexValue hi
    let lo ← hexValue lo
    let rest ← unhex l
    return UInt8.ofNat (hi*16+lo) :: rest

theorem hexValue_hexDigit {n : ℕ} (h : n < 16) : hexValue (hexDigit n)=some n := by
  interval_cases n <;> decide

theorem unhex_hex (l : List UInt8) : unhex (hex l)=some l := by
  induction l with
  | nil => rfl
  | cons b l ih =>
    have hb := b.toNat_lt
    have hbyte : UInt8.ofNat (b.toNat/16*16+b.toNat%16)=b := by rw [Nat.div_add_mod',UInt8.ofNat_toNat]
    have hrest : unhex (l.flatMap (fun b => [hexDigit (b.toNat/16),hexDigit (b.toNat%16)]))=some l := ih
    rw [hex,flatMap_cons]
    simp only [cons_append,nil_append,unhex,hexValue_hexDigit (Nat.div_lt_of_lt_mul (show b.toNat < 16*16 from hb)),
      hexValue_hexDigit (Nat.mod_lt b.toNat (show 0 < 16 by decide)),hrest,hbyte,Option.bind_eq_bind,Option.bind_some,
      Option.pure_def]

theorem hex_length (l : List UInt8) : (hex l).length=2*l.length := by
  simp [hex,Nat.mul_comm]

theorem hex_lower (l : List UInt8) : ∀ d∈hex l,48 ≤ d ∧ d ≤ 57 ∨ 97 ≤ d ∧ d ≤ 102 := by
  have hdigit : ∀ n < 16,48 ≤ hexDigit n ∧ hexDigit n ≤ 57 ∨ 97 ≤ hexDigit n ∧ hexDigit n ≤ 102 := by decide
  intro d hd
  simp only [hex,mem_flatMap,mem_cons,not_mem_nil,or_false] at hd
  obtain ⟨b,-,rfl | rfl⟩ := hd
  · exact hdigit _ (Nat.div_lt_of_lt_mul (show b.toNat < 16*16 from b.toNat_lt))
  · exact hdigit _ (Nat.mod_lt b.toNat (by decide))

/-! Numbers of a fixed width, big end first -/

def beBytes : ℕ → ℕ → List UInt8
  | 0, _ => []
  | w+1, n => beBytes w (n/256)++[UInt8.ofNat n]

def beNat (l : List UInt8) : ℕ := l.foldl (fun v b => v*256+b.toNat) 0

@[simp] theorem beBytes_length (w n : ℕ) : (beBytes w n).length=w := by
  induction w generalizing n with
  | zero => rfl
  | succ w ih => simp [beBytes,ih]

theorem beNat_concat (l : List UInt8) (b : UInt8) : beNat (l++[b])=beNat l*256+b.toNat := by
  simp [beNat]

theorem beNat_beBytes {w n : ℕ} (h : n < 256^w) : beNat (beBytes w n)=n := by
  induction w generalizing n with
  | zero =>
    obtain rfl : n=0 := by omega
    rfl
  | succ w ih =>
    have hdiv : n/256 < 256^w := by
      rw [Nat.div_lt_iff_lt_mul (by decide)]
      rwa [Nat.pow_succ] at h
    rw [beBytes,beNat_concat,ih hdiv,UInt8.toNat_ofNat']
    omega

theorem beNat_lt (l : List UInt8) : beNat l < 256^l.length := by
  induction l using reverseRecOn with
  | nil => simp [beNat]
  | append_singleton l b ih =>
    have := b.toNat_lt
    rw [beNat_concat,length_append,length_singleton]
    omega

theorem beNat_cons (b : UInt8) (l : List UInt8) : beNat (b::l)=b.toNat*256^l.length+beNat l := by
  induction l using reverseRecOn with
  | nil => simp [beNat]
  | append_singleton l c ih =>
    rw [← cons_append,beNat_concat,beNat_concat,ih,length_append,length_singleton]
    ring

theorem compare_of_beNat_lt {a b : List UInt8} (hlen : a.length=b.length) (h : beNat a < beNat b) : compare a b = .lt := by
  induction a generalizing b with
  | nil =>
    obtain rfl := length_eq_zero_iff.mp hlen.symm
    exact absurd h (lt_irrefl _)
  | cons x a ih =>
    obtain ⟨y,b,rfl⟩ := exists_cons_of_ne_nil (ne_nil_of_length_eq_add_one hlen.symm)
    have hrest := Nat.succ.inj hlen
    have hb := beNat_lt b
    rw [beNat_cons,beNat_cons,hrest] at h
    rw [List.compare_cons_cons]
    rcases Nat.lt_trichotomy x.toNat y.toNat with hxy | hxy | hxy
    · rw [Std.compare_eq_lt.mpr (UInt8.lt_iff_toNat_lt.mpr hxy)]
      rfl
    · obtain rfl := UInt8.toNat_inj.mp hxy
      have hself : compare x x = .eq := Std.ReflCmp.compare_self
      rw [hself,ih hrest (by omega)]
      rfl
    · have hmul : (y.toNat+1)*256^b.length ≤ x.toNat*256^b.length := Nat.mul_le_mul_right _ hxy
      rw [Nat.succ_mul] at hmul
      omega

/-! Records one behind the other -/

section Records
variable {α : Type} {read : List UInt8 → Option (α × List UInt8)} {write : α → List UInt8}

def readAll (read : List UInt8 → Option (α × List UInt8)) : ℕ → List UInt8 → Option (List α)
  | _, [] => some []
  | 0, _ :: _ => none
  | fuel+1, b :: l => (read (b :: l)).bind (fun r => (readAll read fuel r.2).map (fun xs => r.1 :: xs))

theorem readAll_write (xs : List α) (h : ∀ x∈xs,∀ rest,read (write x++rest)=some (x,rest)) (hne : ∀ x∈xs,write x≠[])
    {fuel : ℕ} (hfuel : (xs.flatMap write).length ≤ fuel) : readAll read fuel (xs.flatMap write)=some xs := by
  induction xs generalizing fuel with
  | nil => simp [readAll]
  | cons x xs ih =>
    obtain ⟨_,_,hbl⟩ := exists_cons_of_ne_nil (hne x mem_cons_self)
    have hread := h x mem_cons_self (xs.flatMap write)
    have hrest : ∀ {fuel},(xs.flatMap write).length ≤ fuel → readAll read fuel (xs.flatMap write)=some xs :=
      ih (fun y hy => h y (mem_cons_of_mem _ hy)) (fun y hy => hne y (mem_cons_of_mem _ hy))
    rw [flatMap_cons,hbl] at hfuel ⊢
    rw [hbl] at hread
    cases fuel with
    | zero => simp at hfuel
    | succ fuel =>
      simp only [length_cons,length_append] at hfuel
      rw [cons_append] at hread ⊢
      rw [readAll,hread,Option.bind_some,hrest (by omega),Option.map_some]

/-- What holds wherever a record is read. -/
def EachRead (read : List UInt8 → Option (α × List UInt8)) (good : List UInt8 → Prop) : ℕ → List UInt8 → Prop
  | _, [] => True
  | 0, _ :: _ => True
  | fuel+1, b :: l => good (b :: l) ∧ ∀ r, read (b :: l) = some r → EachRead read good fuel r.2

theorem write_readAll {good : List UInt8 → Prop} {valid : α → Prop}
    (hread : ∀ l x rest,good l → read l=some (x,rest) → l=write x++rest ∧ valid x)
    {fuel : ℕ} {l : List UInt8} {xs : List α} (hgood : EachRead read good fuel l) (h : readAll read fuel l=some xs) :
    xs.flatMap write=l ∧ ∀ x∈xs,valid x := by
  induction fuel generalizing l xs with
  | zero =>
    cases l with
    | nil =>
      cases h
      simp
    | cons b l => simp [readAll] at h
  | succ fuel ih =>
    cases l with
    | nil =>
      cases h
      simp
    | cons b l =>
      obtain ⟨⟨x,rest⟩,hr,hrest⟩ := Option.bind_eq_some_iff.mp h
      obtain ⟨xs,hxs,rfl⟩ := Option.map_eq_some_iff.mp hrest
      obtain ⟨hl,hx⟩ := hread _ _ _ hgood.1 hr
      obtain ⟨hflat,hvalid⟩ := ih (hgood.2 _ hr) hxs
      exact ⟨by rw [flatMap_cons,hflat,hl],forall_mem_cons.mpr ⟨hx,hvalid⟩⟩

end Records
end Gix.ByteCodec
