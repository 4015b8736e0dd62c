import Gix.CommitObject
import Gix.Fallible

/-! # Sizes of commits

The sizes that go into the header of loose objects (`gix-date/src/time/write.rs`,
`gix-actor/src/signature/mod.rs`, `gix-object/src/commit/write.rs`). They are sums over all
fields and do not look at what is written. -/
namespace Gix.Actor
open ByteCodec Btoi List

def secondsSize (seconds : ℤ) : ℕ :=
  if seconds ≥ 1000000000000000000 then 19
  else if seconds ≥ 100000000000000000 then 18
  else if seconds ≥ 10000000000000000 then 17
  else if seconds ≥ 1000000000000000 then 16
  else if seconds ≥ 100000000000000 then 15
  else if seconds ≥ 10000000000000 then 14
  else if seconds ≥ 1000000000000 then 13
  else if seconds ≥ 100000000000 then 12
  else if seconds ≥ 10000000000 then 11
  else if seconds ≥ 1000000000 then 10
  else if seconds ≥ 100000000 then 9
  else if seconds ≥ 10000000 then 8
  else if seconds ≥ 1000000 then 7
  else if seconds ≥ 100000 then 6
  else if seconds ≥ 10000 then 5
  else if seconds ≥ 1000 then 4
  else if seconds ≥ 100 then 3
  else if seconds ≥ 10 then 2
  else if seconds ≥ 0 then 1
  -- from here on there is a sign as well
  else if seconds ≥ -10 then 2
  else if seconds ≥ -100 then 3
  else if seconds ≥ -1000 then 4
  else if seconds ≥ -10000 then 5
  else if seconds ≥ -100000 then 6
  else if seconds ≥ -1000000 then 7
  else if seconds ≥ -10000000 then 8
  else if seconds ≥ -100000000 then 9
  else if seconds ≥ -1000000000 then 10
  else if seconds ≥ -10000000000 then 11
  else if seconds ≥ -100000000000 then 12
  else if seconds ≥ -1000000000000 then 13
  else if seconds ≥ -10000000000000 then 14
  else if seconds ≥ -100000000000000 then 15
  else if seconds ≥ -1000000000000000 then 16
  else if seconds ≥ -10000000000000000 then 17
  else if seconds ≥ -100000000000000000 then 18
  else if seconds ≥ -1000000000000000000 then 19
  else 20

def Time.size (t : Time) : ℕ := secondsSize t.seconds.toInt+2+2+2

def Signature.size (s : Signature) : ℕ := s.name.length+2+s.email.length+2+s.time.size

/-! The number of digits -/

theorem decimal_length {n k : ℕ} (hlo : 10^k ≤ n) (hhi : n < 10^(k+1)) : (decimal n).length=k+1 := by
  have hpos : n≠0 := (lt_of_lt_of_le (Nat.pow_pos (by decide)) hlo).ne'
  have hle := (Nat.digits_length_le_iff (show 1 < 10 by decide) n).mpr hhi
  have hlt := (Nat.lt_digits_length_iff (show 1 < 10 by decide) n).mpr hlo
  rw [decimal,if_neg hpos,numeral,length_reverse,length_map]
  omega

/-- Seconds whose size is not what it should be: the powers of ten with a sign. -/
def Miscounted (seconds : ℤ) : Prop := ∃ k < 18, seconds = -10^(k+1)

instance (seconds : ℤ) : Decidable (Miscounted seconds) := inferInstanceAs (Decidable (∃ k < 18, seconds = -10^(k+1)))

section Ladder
variable {s : ℤ}

theorem format_negative (hs : s < 0) : format s=45::decimal s.natAbs := by
  obtain ⟨_,rfl⟩ := Int.eq_negSucc_of_lt_zero hs
  rfl

theorem format_nonnegative (hs : 0 ≤ s) : format s=decimal s.natAbs := by
  obtain ⟨_,rfl⟩ := Int.eq_ofNat_of_zero_le hs
  rfl

/-- What the ladder has to say: one less than the length for seconds that are not counted as they should be. -/
def Counts (s : ℤ) (size : ℕ) : Prop := (Miscounted s → size+1 = (format s).length) ∧ (¬Miscounted s → size = (format s).length)

theorem not_miscounted (hs : 0 ≤ s) : ¬Miscounted s := by
  rintro ⟨k,-,rfl⟩
  have hpos : (0 : ℤ) < 10^(k+1) := by positivity
  omega

theorem counts_nonnegative {k : ℕ} (hlo : 10^k ≤ s) (hhi : s < 10^(k+1)) : Counts s (k+1) := by
  have hs : 0 ≤ s := le_trans (by positivity) hlo
  have habs : (s.natAbs : ℤ)=s := Int.natAbs_of_nonneg hs
  refine ⟨fun h => absurd h (not_miscounted hs),fun _ => ?_⟩
  rw [format_nonnegative hs,decimal_length]
  · exact_mod_cast habs ▸ hlo
  · exact_mod_cast habs ▸ hhi

theorem counts_negative {k : ℕ} (hlo : -10^(k+1) ≤ s) (hhi : s < -10^k) (hk : s = -10^(k+1) → k < 18) : Counts s (k+2) := by
  have hfew : 10^k ≤ s.natAbs := by
    have : (10^k : ℤ) ≤ s.natAbs := by omega
    exact_mod_cast this
  rw [Counts,format_negative (by omega),length_cons]
  constructor
  · rintro ⟨j,-,hj⟩
    have hjk : j=k := by
      have h1 : (10 : ℤ)^k < 10^(j+1) := by omega
      have h2 : (10 : ℤ)^(j+1) ≤ 10^(k+1) := by omega
      have h1 := (pow_lt_pow_iff_right₀ (show (1 : ℤ) < 10 by decide)).mp h1
      have h2 := (pow_le_pow_iff_right₀ (show (1 : ℤ) < 10 by decide)).mp h2
      omega
    subst hjk
    have hn : s.natAbs=10^(j+1) := by
      have : (s.natAbs : ℤ)=10^(j+1) := by omega
      exact_mod_cast this
    rw [decimal_length (le_of_eq hn.symm) (by rw [hn]; exact Nat.pow_lt_pow_succ (by decide))]
  · intro hcount
    have hlt : s.natAbs < 10^(k+1) := by
      have : (s.natAbs : ℤ) < 10^(k+1) := by
        rcases lt_or_eq_of_le hlo with hlt | heq
        · omega
        · exact absurd ⟨k,hk heq.symm,heq.symm⟩ hcount
      exact_mod_cast this
    rw [decimal_length hfew hlt]

theorem counts_negative_digit (hlo : -10 ≤ s) (hhi : s < 0) : Counts s 2 := by
  rcases eq_or_ne s (-1) with rfl | _
  · refine ⟨?_,fun _ => by decide⟩
    rintro ⟨k,-,hk⟩
    omega
  · exact counts_negative (show -10^(0+1) ≤ s by omega) (by omega) (fun _ => by decide)

theorem counts_rung {bound : ℤ} {size rest : ℕ} (hsize : bound ≤ s → Counts s size) (hrest : ¬bound ≤ s → Counts s rest) :
    Counts s (if s ≥ bound then size else rest) := by
  by_cases h : s ≥ bound
  · rw [if_pos h]
    exact hsize h
  · rw [if_neg h]
    exact hrest h

/-- The rungs for seconds of `n+1` digits down to those of two. -/
def rungsUp (s : ℤ) (rest : ℕ) : ℕ → ℕ
  | 0 => rest
  | n+1 => if s ≥ 10^(n+1) then n+2 else rungsUp s rest n

/-- As many rungs below zero, from `k+1` digits on. -/
def rungsDown (s : ℤ) : ℕ → ℕ → ℕ
  | 0, k => k+2
  | n+1, k => if s ≥ -10^(k+1) then k+2 else rungsDown s n (k+1)

theorem secondsSize_eq (s : ℤ) :
    secondsSize s=rungsUp s (if s ≥ 0 then 1 else if s ≥ -10 then 2 else rungsDown s 17 1) 18 := by
  simp [secondsSize,rungsUp,rungsDown]

theorem rungsUp_counts {rest : ℕ} (hrest : s < 10 → Counts s rest) (n : ℕ) (hhi : s < 10^(n+1)) :
    Counts s (rungsUp s rest n) := by
  induction n with
  | zero => exact hrest (by simpa using hhi)
  | succ n ih => exact counts_rung (fun h => counts_nonnegative h hhi) fun h => ih (not_le.mp h)

theorem rungsDown_counts (hmin : -10^19 < s) (n k : ℕ) (hn : n+k=18) (hhi : s < -10^k) : Counts s (rungsDown s n k) := by
  induction n generalizing k with
  | zero =>
    obtain rfl : k=18 := by omega
    exact counts_negative hmin.le hhi fun h => absurd h hmin.ne'
  | succ n ih =>
    exact counts_rung (fun h => counts_negative h hhi fun _ => by omega) fun h => ih (k+1) (by omega) (not_le.mp h)

theorem secondsSize_counts (hmin : -10^19 < s) (hmax : s < 10^19) : Counts s (secondsSize s) := by
  rw [secondsSize_eq]
  refine rungsUp_counts (fun h1 => ?_) 18 hmax
  refine counts_rung (fun h => ⟨fun hm => absurd hm (not_miscounted h),fun _ => ?_⟩) (fun h0 => ?_)
  · interval_cases s <;> decide
  refine counts_rung (fun h => counts_negative_digit h (not_le.mp h0)) (fun h1 => ?_)
  exact rungsDown_counts hmin 17 1 rfl (not_le.mp h1)

end Ladder

/-! Sizes of what is written -/

def Time.missing (t : Time) : ℕ := if Miscounted t.seconds.toInt then 1 else 0

theorem Time.missing_eq_zero {t : Time} : t.missing=0 ↔ ¬Miscounted t.seconds.toInt := by
  unfold missing
  split <;> simp [*]

theorem twoDigits_length {n : ℕ} (h : n < 100) : (twoDigits n).length=2 := by rw [twoDigits_eq h]; rfl

theorem Time.size_add_missing {t : Time} {bytes : List UInt8} (h : t.writeTo = .ok bytes) : t.size+t.missing=bytes.length := by
  have hmin := t.seconds.le_toInt
  have hmax := t.seconds.toInt_lt
  have hcounts := secondsSize_counts (show -10^19 < t.seconds.toInt by omega) (by omega)
  have hseconds : secondsSize t.seconds.toInt+t.missing=(format t.seconds.toInt).length := by
    unfold missing
    split
    · exact hcounts.1 ‹_›
    · exact hcounts.2 ‹_›
  simp only [writeTo] at h
  split at h
  · cases h
  · cases h
    rw [length_append,length_cons,length_cons,length_append,twoDigits_length (by omega),twoDigits_length (by omega),
      ← hseconds,Time.size]
    omega

theorem validatedToken_eq {name token : List UInt8} (h : validatedToken name = .ok token) : token=name := by
  unfold validatedToken at h
  split at h
  · cases h
  · exact (Except.ok.inj h).symm

theorem Signature.size_add_missing {s : Signature} {bytes : List UInt8} (h : s.writeTo = .ok bytes) : s.size+s.time.missing=bytes.length := by
  obtain ⟨_,hname,h⟩ := Attempt.of_bind_ok h
  obtain ⟨_,hemail,h⟩ := Attempt.of_bind_ok h
  obtain ⟨time,htime,h⟩ := Attempt.of_bind_ok h
  cases h
  have hsize := Time.size_add_missing htime
  obtain rfl := validatedToken_eq hname
  obtain rfl := validatedToken_eq hemail
  simp only [length_append,length_cons,Signature.size]
  omega

end Gix.Actor

namespace Gix.CommitObject
open Gix.Pack Gix.Actor ByteCodec List

/-- `Kind::as_bytes()` -/
def kindBytes : ObjectKind → Bytes
  | .tree => [116,114,101,101]
  | .blob => [98,108,111,98]
  | .commit => [99,111,109,109,105,116]
  | .tag => [116,97,103]

def looseHeader (kind : ObjectKind) (size : ℕ) : Bytes := kindBytes kind++32 :: (decimal size++[0])

/-- What an extra header takes: each of its lines is between a space and a newline. -/
def extraHeaderSize (h : Bytes × Bytes) : ℕ := h.1.length+((h.2.splitOn 10).map (fun line => line.length+2)).sum

/-- The sum of `size()`, with ids of 40 digits. -/
def sizeOf (numParents : ℕ) (author committer : Signature) (encoding : Option Bytes) (extraHeaders : List (Bytes × Bytes)) (message : Bytes) : ℕ :=
  treeToken.length+1+40+1+numParents*(parentToken.length+1+40+1)+authorToken.length+1+author.size+1+committerToken.length+1+committer.size+1+
    encoding.elim 0 (fun e => encodingToken.length+1+e.length+1)+(extraHeaders.map extraHeaderSize).sum+1+message.length

def Commit.size (c : Commit) : ℕ := sizeOf c.parents.length c.author c.committer c.encoding c.extraHeaders c.message

/-- `CommitRef::write_to()`, which panics if ids are invalid. -/
def CommitRef.writeTo (c : CommitRef) : Option (Except WriteError Bytes) := c.toCommit.map Commit.writeTo

/-- `CommitRef::size()`, which panics if the id of the tree is invalid. -/
def CommitRef.size (c : CommitRef) : Option ℕ :=
  (fromHex c.tree).map (fun _ => sizeOf c.parents.length c.author c.committer c.encoding c.extraHeaders c.message)

section Sizes
variable {c : Commit} {bytes : Bytes}

theorem trustedHeaderField_length (name value : Bytes) : (trustedHeaderField name value).length=name.length+1+value.length+1 := by
  simp only [trustedHeaderField,length_append,length_cons,length_nil]
  omega

theorem continuation_length (lines : List (List UInt8)) : (continuation lines).length=(lines.map (fun line => line.length+2)).sum := by
  rw [continuation,length_flatMap]
  simp
  omega

theorem headerBytes_length : (fun h => (headerBytes h).length)=extraHeaderSize := by
  funext h
  obtain ⟨_,_,hsplit⟩ := exists_cons_of_ne_nil (splitOn_ne_nil 10 h.2)
  simp only [headerBytes,extraHeaderSize,hsplit,length_append,trustedHeaderField_length,continuation_length,map_cons,sum_cons]
  omega

theorem trustedHeaderId_length (name : Bytes) (id : ObjectId) : (trustedHeaderId name id).length=name.length+1+40+1 := by
  rw [trustedHeaderId,trustedHeaderField_length,hex_length,Vector.length_toList]

theorem trustedHeaderSignature_length {name : Bytes} {s : Signature} (h : trustedHeaderSignature name s = .ok bytes) :
    bytes.length=name.length+1+(s.size+s.time.missing)+1 := by
  unfold trustedHeaderSignature at h
  split at h
  · cases h
  · cases h
    rw [trustedHeaderField_length,Signature.size_add_missing ‹_›]

theorem encodingField_length {encoding : Option Bytes} (h : encodingField encoding = .ok bytes) :
    bytes.length=encoding.elim 0 (fun e => encodingToken.length+1+e.length+1) := by
  cases encoding with
  | none =>
    cases h
    rfl
  | some e =>
    simp only [encodingField,headerField] at h
    split at h
    · cases h
    · split at h
      · cases h
      · cases h
        exact trustedHeaderField_length _ _

/-- What is written is as long as the sizes say, but for the bytes that the times miss. -/
theorem Commit.size_add_missing (h : c.writeTo = .ok bytes) : c.size+c.author.time.missing+c.committer.time.missing=bytes.length := by
  have hextra : c.extraHeaders.mapM (fun h => headerFieldMultiLine h.1 h.2) = .ok (c.extraHeaders.map headerBytes) := by
    simp only [headerFieldMultiLine_eq]
    exact mapM_pure
  obtain ⟨author,hauthor,h⟩ := Attempt.of_bind_ok h
  obtain ⟨committer,hcommitter,h⟩ := Attempt.of_bind_ok h
  obtain ⟨_,hencoding,h⟩ := Attempt.of_bind_ok h
  rw [hextra] at h
  cases h
  simp only [length_append,length_cons,length_flatMap,map_const',sum_replicate_nat,← flatMap_def,Commit.size,sizeOf,
    trustedHeaderId_length,trustedHeaderSignature_length hauthor,trustedHeaderSignature_length hcommitter,
    encodingField_length hencoding,headerBytes_length]
  omega

/-- The size is that of what is written, in the header of a loose object as well. -/
def SizeOf (size : ℕ) (bytes : Bytes) : Prop := size = bytes.length ∧ looseHeader .commit size = looseHeader .commit bytes.length

theorem Commit.sizeOf_iff (h : c.writeTo = .ok bytes) :
    SizeOf c.size bytes ↔ ¬Miscounted c.author.time.seconds.toInt ∧ ¬Miscounted c.committer.time.seconds.toInt := by
  have hsize := Commit.size_add_missing h
  rw [← Time.missing_eq_zero,← Time.missing_eq_zero]
  constructor
  · rintro ⟨hlen,-⟩
    omega
  · rintro ⟨hauthor,hcommitter⟩
    have hlen : c.size=bytes.length := by omega
    exact ⟨hlen,by rw [hlen]⟩

theorem length_mapM {α β : Type} {f : α → Option β} {xs : List α} {ys : List β} (h : xs.mapM f=some ys) : ys.length=xs.length := by
  induction xs generalizing ys with
  | nil =>
    cases h
    rfl
  | cons x xs ih =>
    rw [mapM_cons] at h
    obtain ⟨_,-,h⟩ := Option.bind_eq_some_iff.mp h
    obtain ⟨_,hzs,h⟩ := Option.bind_eq_some_iff.mp h
    cases h
    rw [length_cons,length_cons,ih hzs]

theorem CommitRef.size_eq {r : CommitRef} (h : r.toCommit=some c) : r.size=some c.size ∧ c.author=r.author ∧ c.committer=r.committer := by
  obtain ⟨_,htree,h⟩ := Option.bind_eq_some_iff.mp h
  obtain ⟨_,hparents,h⟩ := Option.bind_eq_some_iff.mp h
  cases h
  refine ⟨?_,rfl,rfl⟩
  rw [CommitRef.size,htree,Commit.size,Option.map_some]
  simp [length_mapM hparents]

/-- The size of commits, and of those with ids in digits, is the number of bytes that are written if and only if no time is a
negative power of ten. -/
theorem size_written_iff (bytes : Bytes) :
    (∀ c : Commit, c.writeTo = .ok bytes →
      (SizeOf c.size bytes ↔ ¬Miscounted c.author.time.seconds.toInt ∧ ¬Miscounted c.committer.time.seconds.toInt)) ∧
    ∀ c : CommitRef, c.writeTo = some (.ok bytes) →
      ((∃ size, c.size = some size ∧ SizeOf size bytes) ↔ ¬Miscounted c.author.time.seconds.toInt ∧ ¬Miscounted c.committer.time.seconds.toInt) := by
  refine ⟨fun c h => Commit.sizeOf_iff h,fun r h => ?_⟩
  obtain ⟨c,hc,hwrite⟩ := Option.map_eq_some_iff.mp h
  obtain ⟨hsize,hauthor,hcommitter⟩ := CommitRef.size_eq hc
  rw [← hauthor,← hcommitter,← Commit.sizeOf_iff hwrite,hsize]
  constructor
  · rintro ⟨size,hs,hsizeOf⟩
    cases hs
    exact hsizeOf
  · exact fun hsizeOf => ⟨c.size,rfl,hsizeOf⟩

/-- A commit of two signatures with seconds, and with a header of three lines. -/
def timedCommit (seconds : Int64) : Commit :=
  ⟨Vector.replicate 20 1,[],⟨[97],[98],⟨seconds,3600,.plus⟩⟩,⟨[],[],⟨-1,0,.minus⟩⟩,some [99],[109],[([120],[10,98,10])]⟩

theorem size_written_before_1970 : ∃ bytes, (timedCommit (-99)).writeTo = .ok bytes ∧ SizeOf (timedCommit (-99)).size bytes ∧
    (timedCommit (-99)).read.writeTo = some (.ok bytes) ∧ ∃ size, (timedCommit (-99)).read.size = some size ∧ SizeOf size bytes := by
  refine ⟨_,rfl,((size_written_iff _).1 _ rfl).mpr (by decide),?_,((size_written_iff _).2 _ ?_).mpr (by decide)⟩
  · rfl
  · rfl

/-- Ten seconds before 1970 the size is one byte less than what is written. -/
theorem ten_seconds_before_1970 : ∃ bytes, (timedCommit (-10)).writeTo = .ok bytes ∧ (timedCommit (-10)).size+1 = bytes.length ∧
    ¬SizeOf (timedCommit (-10)).size bytes := by
  refine ⟨_,rfl,rfl,?_⟩
  rintro ⟨hsize,-⟩
  exact absurd hsize (by decide)

end Sizes
end Gix.CommitObject
