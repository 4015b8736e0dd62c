import Gix.ByteCodec

/-! # Integers from text

`gix-utils/src/btoi.rs`, for any type of integers. -/
namespace Gix.Btoi
open ByteCodec

/-- A type of machine integers, by the values that it has. -/
structure IntType where
  min : ℤ
  max : ℤ
  min_nonpos : min ≤ 0
  max_large : 36 ≤ max

def i32 : IntType := ⟨-2^31,2^31-1,by decide,by decide⟩
def i64 : IntType := ⟨-2^63,2^63-1,by decide,by decide⟩

/-- What `checked_mul()` and its like make of a result. -/
def IntType.checked (t : IntType) (v : ℤ) : Option ℤ := if t.min ≤ v ∧ v ≤ t.max then some v else none

inductive ErrorKind | empty | invalidDigit | overflow | underflow deriving DecidableEq,Repr

def toDigit (radix : ℕ) (b : UInt8) : Option ℕ :=
  let digit := if 48 ≤ b ∧ b ≤ 57 then b.toNat-48 else if 97 ≤ b ∧ b ≤ 122 then b.toNat-87
    else if 65 ≤ b ∧ b ≤ 90 then b.toNat-55 else radix
  if digit < radix then some digit else none

def digitsLoop (t : IntType) (radix : ℕ) (op : ℤ → ℤ → ℤ) (kind : ErrorKind) : ℤ → List UInt8 → Except ErrorKind ℤ
  | result, [] => .ok result
  | result, digit :: digits => match (toDigit radix digit).bind (fun x => t.checked x) with
    | none => .error .invalidDigit
    | some x => match (t.checked (result*radix)).bind (fun r => t.checked (op r x)) with
      | none => .error kind
      | some result => digitsLoop t radix op kind result digits

def toUnsignedWithRadix (t : IntType) (bytes : List UInt8) (radix : ℕ) : Except ErrorKind ℤ :=
  if bytes.isEmpty then .error .empty else digitsLoop t radix (· + ·) .overflow 0 bytes

def toUnsigned (t : IntType) (bytes : List UInt8) : Except ErrorKind ℤ := toUnsignedWithRadix t bytes 10

def toSignedWithRadix (t : IntType) (bytes : List UInt8) (radix : ℕ) : Except ErrorKind ℤ :=
  match bytes with
  | [] => .error .empty
  | 43 :: digits => toUnsignedWithRadix t digits radix
  | 45 :: digits => if digits.isEmpty then .error .empty else digitsLoop t radix (· - ·) .underflow 0 digits
  | bytes => toUnsignedWithRadix t bytes radix

def toSigned (t : IntType) (bytes : List UInt8) : Except ErrorKind ℤ := toSignedWithRadix t bytes 10

def format : ℤ → List UInt8
  | .ofNat n => decimal n
  | .negSucc n => 45 :: decimal (n+1)

variable {t : IntType} {v sign : ℤ} {op : ℤ → ℤ → ℤ} {digits : List UInt8} {n : ℕ}

theorem toDigit_digit {b : UInt8} (h : IsDigit 10 b) : toDigit 10 b=some (b.toNat-48) := by
  rw [IsDigit] at h
  have hrange : 48 ≤ b ∧ b ≤ 57 := by
    exact ⟨h.1,Nat.lt_succ_iff.mp h.2⟩
  simp only [toDigit,if_pos hrange]
  rw [if_pos (by omega)]

theorem checked_of_mem (hmin : t.min ≤ v) (hmax : v ≤ t.max) : t.checked v=some v := if_pos ⟨hmin,hmax⟩

theorem le_foldl (digits : List UInt8) (v : ℕ) : v ≤ digits.foldl (fun v d => v*10+(d.toNat-48)) v := by
  induction digits generalizing v with
  | nil => exact le_rfl
  | cons d digits ih => exact (show v ≤ v*10+(d.toNat-48) by omega).trans (ih _)

/-- A number that fits is read. The steps get no nearer to zero, so no step leaves the type. -/
theorem digitsLoop_eq {kind : ErrorKind} (hsign : sign=1 ∨ sign = -1)
    (hop : ∀ a b,op a b=a+sign*b) (hdigits : ∀ d∈digits,IsDigit 10 d) (v : ℕ)
    (hmin : t.min ≤ sign*(digits.foldl (fun v d => v*10+(d.toNat-48)) v : ℕ))
    (hmax : sign*(digits.foldl (fun v d => v*10+(d.toNat-48)) v : ℕ) ≤ t.max) :
    digitsLoop t 10 op kind (sign*v) digits = .ok (sign*(digits.foldl (fun v d => v*10+(d.toNat-48)) v : ℕ)) := by
  induction digits generalizing v with
  | nil => rfl
  | cons d digits ih =>
    have hd := hdigits d List.mem_cons_self
    have hle := le_foldl digits (v*10+(d.toNat-48))
    have hneg := t.min_nonpos
    have hlarge := t.max_large
    rw [List.foldl_cons] at hmin hmax ⊢
    have hbound : ∀ w : ℕ,w ≤ v*10+(d.toNat-48) → t.checked (sign*w)=some (sign*w) := by
      intro w hw
      rcases hsign with rfl | rfl
      · exact checked_of_mem (by omega) (by omega)
      · exact checked_of_mem (by omega) (by omega)
    have hdigit : t.checked ((d.toNat-48 : ℕ) : ℤ)=some ((d.toNat-48 : ℕ) : ℤ) := by
      rw [IsDigit] at hd
      exact checked_of_mem (by omega) (by omega)
    have hmul : t.checked (sign*v*(10 : ℕ))=some (sign*v*(10 : ℕ)) := by
      have := hbound (v*10) (by omega)
      rwa [Nat.cast_mul,← mul_assoc] at this
    have hadd : op (sign*v*(10 : ℕ)) ((d.toNat-48 : ℕ) : ℤ)=sign*(v*10+(d.toNat-48) : ℕ) := by
      rw [hop,Nat.cast_add,Nat.cast_mul]
      ring
    simp only [digitsLoop,toDigit_digit hd,Option.bind_some,hdigit,hmul,hadd,hbound _ le_rfl]
    exact ih (fun d' hd' => hdigits d' (List.mem_cons_of_mem _ hd')) _ hmin hmax

theorem digitsLoop_decimal (kind : ErrorKind) (hsign : sign=1 ∨ sign = -1)
    (hop : ∀ a b,op a b=a+sign*b) (hmin : t.min ≤ sign*n) (hmax : sign*n ≤ t.max) :
    digitsLoop t 10 op kind 0 (decimal n) = .ok (sign*n) := by
  have hvalue : (decimal n).foldl (fun v d => v*10+(d.toNat-48)) 0=n := numeralValue_decimal n
  rw [← hvalue] at hmin hmax
  have hloop : digitsLoop t 10 op kind (sign*(0 : ℕ)) (decimal n)=_ := digitsLoop_eq hsign hop (decimal_digits n) 0 hmin hmax
  rwa [Nat.cast_zero,mul_zero,hvalue] at hloop

theorem toUnsigned_decimal (hmax : (n : ℤ) ≤ t.max) : toUnsigned t (decimal n) = .ok n := by
  have hne : ¬(decimal n).isEmpty=true := by simpa using decimal_ne_nil n
  have hneg := t.min_nonpos
  have hloop : digitsLoop t 10 (· + ·) .overflow 0 (decimal n) = .ok (1*n) :=
    digitsLoop_decimal _ (.inl rfl) (fun a b => by rw [one_mul]) (by omega) (by omega)
  rw [toUnsigned,toUnsignedWithRadix,if_neg hne,hloop,one_mul]

/-- Without a sign a number is read as one without signs. -/
theorem toSigned_digits (hne : digits≠[]) (h : ∀ d∈digits,IsDigit 10 d) :
    toSigned t digits=toUnsigned t digits := by
  obtain ⟨d,digits,rfl⟩ := List.exists_cons_of_ne_nil hne
  have hd := h d List.mem_cons_self
  unfold toSigned toSignedWithRadix
  split
  · rename_i heq
    simp at heq
  · rename_i heq
    cases heq
    simp [IsDigit] at hd
  · rename_i heq
    cases heq
    simp [IsDigit] at hd
  · rfl

theorem toSigned_format (hmin : t.min ≤ v) (hmax : v ≤ t.max) : toSigned t (format v) = .ok v := by
  cases v with
  | ofNat n => exact (toSigned_digits (decimal_ne_nil n) (decimal_digits n)).trans (toUnsigned_decimal hmax)
  | negSucc n =>
    have hne : ¬(decimal (n+1)).isEmpty=true := by simpa using decimal_ne_nil (n+1)
    have hv : Int.negSucc n = -1*((n+1 : ℕ) : ℤ) := by omega
    have hloop : digitsLoop t 10 (· - ·) .underflow 0 (decimal (n+1)) = .ok (-1*((n+1 : ℕ) : ℤ)) :=
      digitsLoop_decimal _ (.inr rfl) (fun a b => by ring) (hv ▸ hmin) (hv ▸ hmax)
    have hread : toSigned t (format (Int.negSucc n))=digitsLoop t 10 (· - ·) .underflow 0 (decimal (n+1)) := if_neg hne
    rw [hread,hloop,hv]

theorem format_digits (v : ℤ) : ∀ d∈format v,d=45 ∨ IsDigit 10 d := by
  cases v with
  | ofNat n => exact fun d hd => .inr (decimal_digits n d hd)
  | negSucc n =>
    intro d hd
    rcases List.mem_cons.mp hd with rfl | hd
    · exact .inl rfl
    · exact .inr (decimal_digits _ d hd)

end Gix.Btoi
