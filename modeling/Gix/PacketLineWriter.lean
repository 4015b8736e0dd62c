import Gix.PacketLineBands

/-! # The writer of packet lines

A buffer is split into lines that are not too long, and decoding these gives the buffer again. -/
namespace Gix.PacketLine
open List ByteCodec
open Pack (Bytes)

def dataToWrite (data : Bytes) : Except EncodeError Bytes := prefixedAndSuffixedDataToWrite [] data []
def textToWrite (text : Bytes) : Except EncodeError Bytes := prefixedAndSuffixedDataToWrite [] text [10]

inductive WriteError
  | emptyLine
  | encode (e : EncodeError)
deriving DecidableEq,Repr

/-- A writer to a buffer, which takes everything. -/
structure Writer where
  inner : Bytes
  binary : Bool

namespace Writer

/-- The loop of `write()` -/
def writeLoop (w : Writer) (buf : Bytes) (written : ℕ) : Except WriteError ℕ × Writer :=
  if buf = [] then (.ok written,w)
  else
    match if w.binary then dataToWrite (buf.take maxDataLen) else textToWrite (buf.take maxDataLen) with
    | .error e => (.error (.encode e),w)
    | .ok line => writeLoop { w with inner := w.inner++line } (buf.drop maxDataLen) (written+line.length-(4+if w.binary then 0 else 1))
termination_by buf.length
decreasing_by
  have hpos := length_pos_iff.mpr ‹¬buf = []›
  rw [length_drop,maxDataLen]
  omega

def write (w : Writer) (buf : Bytes) : Except WriteError ℕ × Writer :=
  if buf = [] then (.error .emptyLine,w) else w.writeLoop buf 0

/-- What is appended to each line. -/
def suffix (w : Writer) : Bytes := if w.binary then [] else [10]

end Writer

/-- The data of lines that are decoded one after the other. -/
inductive Decoded : Bytes → List Bytes → Prop
  | nil : Decoded [] []
  | line {stream data : Bytes} {lines : List Bytes} {consumed : ℕ} (head : streaming stream = some (.ok (.complete (.data data) consumed)))
      (rest : Decoded (stream.drop consumed) lines) : Decoded stream (data :: lines)

/-- All of the buffer is written, as lines that decode to its parts. -/
def Transports (w : Writer) (buf : Bytes) : Prop :=
  ∃ (out : Bytes) (parts : List Bytes), w.write buf = (.ok buf.length,{ w with inner := w.inner++out }) ∧ parts.flatten = buf ∧ Decoded out (parts.map (·++w.suffix))

variable {w : Writer} {buf data rest : Bytes}

theorem suffix_length (w : Writer) : w.suffix.length=if w.binary then 0 else 1 := by
  unfold Writer.suffix
  cases w.binary <;> rfl

/-- A part with room for what is appended makes a line that is decoded to both. -/
theorem encode_part (hne : data≠[]) (hfits : data.length+w.suffix.length ≤ maxDataLen) :
    ∃ line,(if w.binary then dataToWrite data else textToWrite data)=.ok line ∧ line.length=data.length+w.suffix.length+4 ∧
      ∀ out lines,Decoded out lines → Decoded (line++out) ((data++w.suffix)::lines) := by
  have hline : (if w.binary then dataToWrite data else textToWrite data)=prefixedAndSuffixedDataToWrite [] data w.suffix := by
    unfold Writer.suffix
    cases w.binary <;> rfl
  have hpos := length_pos_iff.mpr hne
  have hmax : maxDataLen=65516 := rfl
  have hlen : (u16ToHex ((data++w.suffix).length+4)).length=4 := by rw [u16ToHex,hex_length,beBytes_length]
  refine ⟨u16ToHex ((data++w.suffix).length+4)++(data++w.suffix),?_,?_,fun out lines h => .line (streaming_data hlen ?_ ?_ out) ?_⟩
  · rw [hline,prefixedAndSuffixedDataToWrite]
    simp [hne,Nat.not_lt.mpr hfits]
  · rw [length_append,hlen,length_append,Nat.add_comm]
  · exact hexPrefix_u16ToHex (by rw [length_append]; omega) (by rw [length_append]; omega)
  · rwa [length_append]
  · rwa [drop_left' (by rw [length_append,hlen,Nat.add_comm])]

theorem writeLoop_ok (written : ℕ) (h : w.binary=true ∨ buf.length < maxDataLen) :
    ∃ (out : Bytes) (parts : List Bytes), w.writeLoop buf written=(.ok (written+buf.length),{ w with inner := w.inner++out }) ∧
      parts.flatten=buf ∧ Decoded out (parts.map (·++w.suffix)) := by
  induction hn : buf.length using Nat.strong_induction_on generalizing w buf written with
  | _ n ih =>
    rw [Writer.writeLoop]
    split
    case isTrue hempty => exact ⟨[],[],by simp [hempty,← hn],hempty.symm,.nil⟩
    case isFalse hne =>
      have hpos := length_pos_iff.mpr hne
      have hmax : maxDataLen=65516 := rfl
      have hpart : buf.take maxDataLen≠[] := by simp [maxDataLen,hne]
      have hfits : (buf.take maxDataLen).length+w.suffix.length ≤ maxDataLen := by
        rw [suffix_length,length_take]
        obtain hbinary | _ := h
        · simp [hbinary]
        · split <;> omega
      have hdrop : (buf.drop maxDataLen).length < n := by rw [length_drop]; omega
      obtain ⟨line,hline,hlen,hdecode⟩ := encode_part hpart hfits
      obtain ⟨out,parts,hrun,hflat,hdecoded⟩ := ih _ hdrop (w := { w with inner := w.inner++line })
        (written+line.length-(4+if w.binary then 0 else 1)) (h.imp id (Nat.lt_of_le_of_lt (by simp))) rfl
      refine ⟨line++out,buf.take maxDataLen::parts,?_,by rw [flatten_cons,hflat,take_append_drop],hdecode _ _ hdecoded⟩
      rw [hline]
      have hcount : written+line.length-(4+if w.binary then 0 else 1)+(buf.drop maxDataLen).length=written+n := by
        rw [hlen,suffix_length,length_take,length_drop]
        omega
      rw [hcount,append_assoc] at hrun
      exact hrun

theorem writeLoop_text (written : ℕ) (htext : w.binary=false) (hlong : maxDataLen ≤ buf.length) :
    w.writeLoop buf written=(.error (.encode (.dataLengthLimitExceeded (maxDataLen+1))),w) := by
  rw [Writer.writeLoop,if_neg (by rintro rfl; simp [maxDataLen] at hlong)]
  simp [htext,textToWrite,prefixedAndSuffixedDataToWrite,hlong]

/-- A buffer is written unless it is text for more than one line. -/
theorem writer_transports_iff (w : Writer) (buf : Bytes) (hne : buf ≠ []) :
    Transports w buf ↔ w.binary = true ∨ buf.length < maxDataLen := by
  rw [Transports,Writer.write,if_neg hne]
  refine ⟨fun ⟨out,parts,hrun,_⟩ => ?_,fun h => by simpa using writeLoop_ok 0 h⟩
  by_contra hneither
  rw [not_or,Bool.not_eq_true,Nat.not_lt] at hneither
  rw [writeLoop_text 0 hneither.1 hneither.2] at hrun
  cases hrun

theorem writer_transports_text : Transports ⟨[],false⟩ [104,105] :=
  (writer_transports_iff ⟨[],false⟩ [104,105] (by decide)).mpr (.inr (by decide))

theorem long_text_rejected :
    (Writer.write ⟨[],false⟩ (replicate maxDataLen 97)).1 = .error (.encode (.dataLengthLimitExceeded (maxDataLen+1))) := by
  rw [Writer.write,if_neg (ne_nil_of_length_pos (by rw [length_replicate]; decide)),writeLoop_text 0 rfl length_replicate.ge]

end Gix.PacketLine
