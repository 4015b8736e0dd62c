import Gix.Btoi
import Gix.ByteParser

/-! # Signatures

How names, emails and times are written (`gix-actor/src/signature/mod.rs`,
`gix-date/src/time/write.rs`) and read (`gix-actor/src/signature/decode.rs`). -/
namespace Gix.Actor
open ByteCodec ByteParser Btoi List

inductive Sign | plus | minus deriving DecidableEq,Repr

structure Time where
  seconds : Int64
  offset : Int32
  sign : Sign
deriving DecidableEq,Repr

structure Identity where
  name : List UInt8
  email : List UInt8
deriving DecidableEq,Repr

structure Signature where
  name : List UInt8
  email : List UInt8
  time : Time
deriving DecidableEq,Repr

/-! Writing -/

/-- The errors of writing: '<', '>' or a newline in a name or email, or an offset of 100 hours
and more. -/
inductive WriteError | illegalCharacter | offsetTooLarge deriving DecidableEq,Repr

def Sign.byte : Sign → UInt8
  | .plus => 43
  | .minus => 45

def Time.writeTo (t : Time) : Except WriteError (List UInt8) :=
  let offset := t.offset.toInt.natAbs
  let hours := offset/3600
  let minutes := (offset-hours*3600)/60
  if hours > 99 then .error .offsetTooLarge
  else .ok (format t.seconds.toInt++32 :: t.sign.byte :: (twoDigits hours++twoDigits minutes))

def validatedToken (name : List UInt8) : Except WriteError (List UInt8) :=
  if 60 ∈ name ∨ 62 ∈ name ∨ 10 ∈ name then .error .illegalCharacter else .ok name

def Signature.writeTo (s : Signature) : Except WriteError (List UInt8) := do
  let name ← validatedToken s.name
  let email ← validatedToken s.email
  let time ← s.time.writeTo
  return name++32 :: 60 :: (email++62 :: 32 :: time)

/-! Reading -/

def isAsciiWhitespace (b : UInt8) : Bool := b == 32 || b == 9 || b == 10 || b == 12 || b == 13

def isDecDigit (b : UInt8) : Bool := 48 ≤ b && b ≤ 57

def identity : Parser Identity := fun i =>
  match rfindByte 62 (i.takeWhile (· ≠ 10)) with
  | none => .error .cut
  | some right =>
    let nameAndEmail := i.take right
    let skipFromRight := (nameAndEmail.reverse.takeWhile (fun b => isAsciiWhitespace b || b == 62)).length
    match findByte 60 nameAndEmail with
    | none => .error .cut
    | some left =>
      let skipFromLeft := ((i.drop left).takeWhile (fun b => isAsciiWhitespace b || b == 60)).length
      let name := i.take left
      let name := if name.getLast? = some 32 then name.dropLast else name
      if left+skipFromLeft ≤ right-skipFromRight then
        .ok (⟨name,(i.take (right-skipFromRight)).drop (left+skipFromLeft)⟩,i.drop (right+1))
      else .error .cut

/-- The time of `decode()`. More digits than four make the offset zero. -/
def timestamp : Parser Time := do
  let seconds ← verifyMap (do let v ← takeUntil 32; let _ ← take 1; return v) (fun v => (toSigned i64 v).toOption)
  let sign ← alt (do let _ ← takeWhile 1 none (· == 45); return Sign.minus)
    (do let _ ← takeWhile 1 none (· == 43); return Sign.plus)
  let hours ← verifyMap (takeWhile 2 (some 2) isDecDigit) (fun v => (toSigned i32 v).toOption)
  let minutes ← verifyMap (takeWhile 1 (some 2) isDecDigit) (fun v => (toSigned i32 v).toOption)
  let trailingDigits ← takeWhile 0 none isDecDigit
  let offset := if trailingDigits.isEmpty then (hours*3600+minutes*60)*(if sign = .minus then -1 else 1) else 0
  return ⟨Int64.ofInt seconds,Int32.ofInt offset,sign⟩

def decode : Parser Signature := do
  let i ← identity
  let _ ← opt (literal [32])
  let time ← opt timestamp
  return ⟨i.name,i.email,time.getD ⟨0,0,.plus⟩⟩

/-! Written times are read -/

/-- The offset has whole minutes and less than 100 hours, and the sign is its sign. -/
structure Time.Writable (t : Time) : Prop where
  minutes : 60 ∣ t.offset.toInt
  hours : t.offset.toInt.natAbs < 360000
  plus : 0 < t.offset.toInt → t.sign = .plus
  minus : t.offset.toInt < 0 → t.sign = .minus

def Time.bytes (t : Time) : List UInt8 :=
  format t.seconds.toInt++32 :: t.sign.byte :: (twoDigits (t.offset.toInt.natAbs/3600)++twoDigits (t.offset.toInt.natAbs%3600/60))

theorem Time.writeTo_eq {t : Time} (h : t.Writable) : t.writeTo = .ok t.bytes := by
  have hhours := h.hours
  have hmod : t.offset.toInt.natAbs-t.offset.toInt.natAbs/3600*3600=t.offset.toInt.natAbs%3600 := by omega
  simp only [Time.writeTo,hmod]
  exact if_neg (by omega)

theorem isDecDigit_iff (b : UInt8) : isDecDigit b=true ↔ IsDigit 10 b := by
  simp only [isDecDigit,IsDigit,UInt8.le_iff_toNat_le]
  simp
  omega

theorem twoDigits_digits (n : ℕ) : ∀ d∈twoDigits n,IsDigit 10 d := by
  unfold twoDigits
  split
  · intro d hd
    rcases mem_cons.mp hd with rfl | hd
    · simp [IsDigit]
    · exact decimal_digits n d hd
  · exact decimal_digits n

theorem toSigned_twoDigits {n : ℕ} (h : n < 100) : toSigned i32 (twoDigits n) = .ok n := by
  interval_cases n <;> decide

/-- The offset that is read for hours and minutes is the one that was written. -/
theorem Time.offset_eq {t : Time} (h : t.Writable) :
    (((t.offset.toInt.natAbs/3600 : ℕ) : ℤ)*3600+((t.offset.toInt.natAbs%3600/60 : ℕ) : ℤ)*60)*(if t.sign = .minus then -1 else 1) =
      t.offset.toInt := by
  obtain ⟨_,_⟩ := h.minutes
  rcases lt_trichotomy t.offset.toInt 0 with hneg | hzero | hpos
  · rw [if_pos (h.minus hneg)]
    omega
  · rw [hzero]
    simp
  · rw [h.plus hpos,if_neg (by decide)]
    omega

theorem sign_byte (s : Sign) {digits : List UInt8} (h : ∀ d∈digits.head?,IsDigit 10 d) :
    alt (do let _ ← takeWhile 1 none (· == 45); return Sign.minus) (do let _ ← takeWhile 1 none (· == 43); return Sign.plus)
      (s.byte::digits) = .ok (s,digits) := by
  have hother : ∀ c : UInt8,¬IsDigit 10 c → ∀ d∈digits.head?,(d == c)=false := by
    rintro c hc d hd
    rw [beq_eq_false_iff_ne]
    rintro rfl
    exact hc (h d hd)
  cases s with
  | minus =>
    have hread : takeWhile 1 none (· == 45) ([45]++digits) = .ok ([45],digits) :=
      takeWhile_append (by simp) (by simp) (hother 45 (by simp [IsDigit]))
    exact alt_ok (bind_ok hread)
  | plus =>
    have hread : takeWhile 1 none (· == 43) ([43]++digits) = .ok ([43],digits) :=
      takeWhile_append (by simp) (by simp) (hother 43 (by simp [IsDigit]))
    have hnone : takeWhile 1 none (· == 45) (43::digits) = .error .backtrack := takeWhile_none (by decide) (by simp)
    exact (alt_backtrack (bind_error hnone)).trans (bind_ok hread)

theorem twoDigits_read {n lo : ℕ} (h : n < 100) (hlo : lo ≤ 2) (rest : List UInt8) :
    verifyMap (takeWhile lo (some 2) isDecDigit) (fun v => (toSigned i32 v).toOption) (twoDigits n++rest) = .ok ((n : ℤ),rest) := by
  have hlen : (twoDigits n).length=2 := by
    rw [twoDigits_eq h]
    rfl
  have hread : takeWhile lo (some (twoDigits n).length) isDecDigit (twoDigits n++rest) = .ok (twoDigits n,rest) :=
    takeWhile_upTo (fun d hd => (isDecDigit_iff d).mpr (twoDigits_digits n d hd)) (by omega)
  rw [hlen] at hread
  refine verifyMap_ok hread ?_
  rw [toSigned_twoDigits h]
  rfl

theorem seconds_read (seconds : Int64) (rest : List UInt8) :
    verifyMap (do let v ← takeUntil 32; let _ ← take 1; return v) (fun v => (toSigned i64 v).toOption)
      (format seconds.toInt++32::rest) = .ok (seconds.toInt,rest) := by
  have hspace : 32∉format seconds.toInt := by
    intro hmem
    have := format_digits _ _ hmem
    simp [IsDigit] at this
  have hread : (do let v ← takeUntil 32; let _ ← take 1; return v : Parser (List UInt8)) (format seconds.toInt++32::rest) =
      .ok (format seconds.toInt,rest) := by
    rw [bind_ok (takeUntil_append hspace rest)]
    exact bind_ok (take_append [32] rest)
  refine verifyMap_ok hread ?_
  rw [toSigned_format seconds.le_toInt (Int.le_sub_one_of_lt seconds.toInt_lt)]
  rfl

theorem timestamp_bytes {t : Time} (h : t.Writable) (rest : List UInt8) :
    timestamp (t.bytes++10::rest) = .ok (t,10::rest) := by
  have hbound := h.hours
  have hhours : t.offset.toInt.natAbs/3600 < 100 := by omega
  have hminutes : t.offset.toInt.natAbs%3600/60 < 100 := by omega
  have hsign : ∀ d∈(twoDigits (t.offset.toInt.natAbs/3600)++
      (twoDigits (t.offset.toInt.natAbs%3600/60)++10::rest)).head?,IsDigit 10 d := by
    have hdigits := twoDigits_digits (t.offset.toInt.natAbs/3600)
    rw [twoDigits_eq hhours] at hdigits ⊢
    rintro d ⟨⟩
    exact hdigits _ mem_cons_self
  have htrailing : takeWhile 0 none isDecDigit (10::rest) = .ok ([],10::rest) := rfl
  simp only [Time.bytes,append_assoc,cons_append,timestamp]
  rw [bind_ok (seconds_read t.seconds _),bind_ok (sign_byte t.sign hsign),bind_ok (twoDigits_read hhours le_rfl _),
    bind_ok (twoDigits_read hminutes (by decide) _),bind_ok htrailing]
  simp only [isEmpty_nil,if_true,t.offset_eq h,Int64.ofInt_toInt,Int32.ofInt_toInt]
  rfl

/-! Written signatures are read -/

/-- Names and emails without brackets and newlines, emails without whitespace around them. -/
structure Signature.Writable (s : Signature) : Prop where
  name : 60 ∉ s.name ∧ 62 ∉ s.name ∧ 10 ∉ s.name
  email : 60 ∉ s.email ∧ 62 ∉ s.email ∧ 10 ∉ s.email
  front : ∀ b ∈ s.email.head?, isAsciiWhitespace b = false
  back : ∀ b ∈ s.email.getLast?, isAsciiWhitespace b = false
  time : s.time.Writable

def Signature.bytes (s : Signature) : List UInt8 := s.name++32 :: 60 :: (s.email++62 :: 32 :: s.time.bytes)

variable {s : Signature}

theorem Signature.writeTo_eq (h : s.Writable) : s.writeTo = .ok s.bytes := by
  have hname : ¬(60∈s.name ∨ 62∈s.name ∨ 10∈s.name) := by simpa using h.name
  have hemail : ¬(60∈s.email ∨ 62∈s.email ∨ 10∈s.email) := by simpa using h.email
  rw [Signature.writeTo,validatedToken,validatedToken,if_neg hname,if_neg hemail,Time.writeTo_eq h.time]
  rfl

theorem Time.bytes_other (t : Time) {b : UInt8} (h : ¬IsDigit 10 b) (hspace : b≠32) (hplus : b≠43) (hminus : b≠45) :
    b∉t.bytes := by
  intro hmem
  simp only [Time.bytes,mem_append,mem_cons] at hmem
  rcases hmem with hmem | rfl | rfl | hmem | hmem
  · rcases format_digits _ _ hmem with rfl | hd
    · exact hminus rfl
    · exact h hd
  · exact hspace rfl
  · cases hs : t.sign with
    | plus => exact hplus (by rw [hs]; rfl)
    | minus => exact hminus (by rw [hs]; rfl)
  · exact h (twoDigits_digits _ _ hmem)
  · exact h (twoDigits_digits _ _ hmem)

theorem takeWhile_eq_nil {p : UInt8 → Bool} {l : List UInt8} (h : ∀ b∈l.head?,p b=false) : l.takeWhile p=[] := by
  cases l with
  | nil => rfl
  | cons b l => simp [h b rfl]

variable (h : s.Writable)
include h

/-- Nothing of an email is skipped from the left, -/
theorem email_front (tail : List UInt8) :
    ((60::(s.email++62::tail)).takeWhile (fun b => isAsciiWhitespace b || b == 60)).length=1 := by
  have hstop : (s.email++62::tail).takeWhile (fun b => isAsciiWhitespace b || b == 60)=[] := by
    apply takeWhile_eq_nil
    intro b hb
    cases hemail : s.email with
    | nil =>
      rw [hemail] at hb
      cases hb
      rfl
    | cons c email =>
      rw [hemail] at hb
      obtain rfl := Option.some.inj hb
      have hspace := h.front c (by rw [hemail]; rfl)
      have hne : c≠60 := by
        rintro rfl
        exact h.email.1 (by simp [hemail])
      simp [hspace,hne]
  rw [takeWhile_cons_of_pos (by rfl),hstop]
  rfl

/-- and nothing from the right. -/
theorem email_back (name : List UInt8) :
    (name++60::s.email).reverse.takeWhile (fun b => isAsciiWhitespace b || b == 62)=[] := by
  apply takeWhile_eq_nil
  intro b hb
  have hb' : s.email.getLast?.getD 60=b := by simpa using hb
  cases hlast : s.email.getLast? with
  | none =>
    rw [hlast] at hb'
    subst hb'
    rfl
  | some c =>
    rw [hlast] at hb'
    subst hb'
    have hspace := h.back c hlast
    have hne : c≠62 := by
      rintro rfl
      exact h.email.2.1 (mem_of_getLast? hlast)
    simp [hspace,hne]

/-- The brackets are found, whatever is around them on the line. -/
theorem identity_bytes {tail : List UInt8} (htail : 62∉tail ∧ 10∉tail) (rest : List UInt8) :
    identity (s.name++32::60::(s.email++62::(tail++10::rest))) = .ok (⟨s.name,s.email⟩,tail++10::rest) := by
  obtain ⟨hname60,_,hname10⟩ := h.name
  obtain ⟨_,_,hemail10⟩ := h.email
  have hsplit : s.name++32::60::(s.email++62::(tail++10::rest)) =
      ((s.name++[32])++60::s.email)++62::(tail++10::rest) := by simp
  have hline : (((s.name++[32])++60::s.email)++62::(tail++10::rest)).takeWhile (· ≠ 10) =
      ((s.name++[32])++60::s.email)++62::tail := by
    have hall : ∀ b∈((s.name++[32])++60::s.email)++62::tail,decide (b≠10)=true := by
      intro b hb
      rw [decide_eq_true_eq]
      rintro rfl
      simp [hname10,hemail10,htail.2] at hb
    have hlist : ((s.name++[32])++60::s.email)++62::(tail++10::rest) =
        (((s.name++[32])++60::s.email)++62::tail)++10::rest := by simp
    rw [hlist,takeWhile_append_of_pos hall]
    simp
  have hleft : findByte 60 ((s.name++[32])++60::s.email)=some (s.name++[32]).length :=
    findByte_append (by simp [hname60]) _
  have hdropLeft : (((s.name++[32])++60::s.email)++62::(tail++10::rest)).drop (s.name++[32]).length =
      60::(s.email++62::(tail++10::rest)) := by
    rw [append_assoc,drop_left]
    rfl
  have htakeLeft : (((s.name++[32])++60::s.email)++62::(tail++10::rest)).take (s.name++[32]).length=s.name++[32] := by
    rw [append_assoc,take_left]
  have hdropRight : (((s.name++[32])++60::s.email)++62::(tail++10::rest)).drop (((s.name++[32])++60::s.email).length+1) =
      tail++10::rest := by
    rw [← drop_drop,drop_left]
    rfl
  have hdropEmail : ((s.name++[32])++60::s.email).drop ((s.name++[32]).length+1)=s.email := by
    rw [← drop_drop,drop_left]
    rfl
  have hle : (s.name++[32]).length+1 ≤ ((s.name++[32])++60::s.email).length := by simp
  rw [hsplit]
  simp only [identity,hline,rfindByte_append _ htail.1,take_left,hleft,hdropLeft,email_front h,email_back h,length_nil,
    Nat.sub_zero,if_pos hle,htakeLeft,hdropEmail,hdropRight,getLast?_append,getLast?_singleton,Option.some_or,if_true,
    dropLast_concat]

theorem decode_bytes (rest : List UInt8) : decode (s.bytes++10::rest) = .ok (s,10::rest) := by
  have hother : ∀ b : UInt8,¬IsDigit 10 b → b≠32 → b≠43 → b≠45 → b∉32::s.time.bytes := by
    intro b hdigit hspace hplus hminus
    exact not_mem_cons_of_ne_of_not_mem hspace (s.time.bytes_other hdigit hspace hplus hminus)
  have htail : 62∉32::s.time.bytes ∧ 10∉32::s.time.bytes :=
    ⟨hother 62 (by simp [IsDigit]) (by decide) (by decide) (by decide),
      hother 10 (by simp [IsDigit]) (by decide) (by decide) (by decide)⟩
  have hid := identity_bytes h htail rest
  simp only [Signature.bytes,append_assoc,cons_append] at hid ⊢
  rw [decode,bind_ok hid,bind_ok (opt_ok (literal_singleton 32 _)),bind_ok (opt_ok (timestamp_bytes h.time rest))]
  rfl

end Gix.Actor
