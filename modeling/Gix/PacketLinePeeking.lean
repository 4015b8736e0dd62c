import Gix.PacketLineSafety

/-! # Looking at a line before it is read

A line that was looked at is kept until it is read, and a delimiter stops the reader at once.
Those who only read don't see a difference. -/
namespace Gix.PacketLine
open List
open Pack (Bytes)

inductive LineCall
  | readLine
  | peekLine
  | reset
deriving DecidableEq,Repr

/-- Two readers take the same calls, but only the first looks at lines: it sees what it reads next,
and both read the same. Resets come after a stop that was read. -/
def Agree : List LineCall → Reader → Reader → Prop
  | [], _, _ => True
  | .readLine :: calls, r, r' => ∃ result r1 r1', r.readLine = some (result,r1) ∧ r'.readLine = some (result,r1') ∧
      r1.stoppedAt = r1'.stoppedAt ∧ Agree calls r1 r1'
  | .peekLine :: calls, r, r' => ∃ result r1 r2, r.peekLine = some (result,r1) ∧ r1.readLine = some (result,r2) ∧ Agree calls r1 r'
  | .reset :: calls, r, r' => r'.isDone = true → Agree calls r.reset r'.reset

/-- Lines, up to where the stream ends. -/
def ValidLines (stream : Bytes) : Prop := ∀ n, frameAt stream n = .eof ∨ ∃ l, frameAt stream n = .line l

variable {stream : Bytes} {r r' : Reader} {l : Line} {ds : List Line}

theorem ValidLines.next (h : ValidLines stream) : ValidLines (nextFrame stream).2 := fun n => h (n+1)

theorem ValidLines.first (h : ValidLines stream) : nextFrame stream=(.eof,[]) ∨ ∃ l rest,nextFrame stream=(.line l,rest) := by
  rcases hframe : nextFrame stream with ⟨_,rest⟩
  have hf := h 0
  simp only [frameAt,skipFrames,hframe] at hf
  obtain rfl | ⟨l,rfl⟩ := hf
  · unfold nextFrame at hframe
    grind
  · exact .inr ⟨l,rest,rfl⟩

abbrev outcome (ds : List Line) (stream : Bytes) := (nextFrame stream).1.outcome ds false

/-- A reader that does not fail on lines with errors. -/
def Quiet (ds : List Line) (r : Reader) : Prop := r.delimiters = ds ∧ r.failOnErrLines = false

theorem Quiet.exhaustive (h : Quiet ds r) (hvalid : ValidLines stream) (hnext : nextFrame r.read=nextFrame stream) {buf : Bytes}
    (hbuf : buf.length=maxLineLen) (bufResize : Bool) :
    ∃ buf',readLineInnerExhaustive r.read buf r.delimiters r.failOnErrLines bufResize=
      some ⟨(outcome ds stream).1,(outcome ds stream).2.1,(outcome ds stream).2.2,(nextFrame stream).2,buf'⟩ ∧
        KeptIn buf' (outcome ds stream).2.2 := by
  rw [h.1,h.2]
  refine exhaustive_eq false bufResize hbuf hnext ?_
  obtain heof | ⟨l,rest,hline⟩ := hvalid.first <;> simp [*]

theorem Quiet.readLine (h : Quiet ds r) (hvalid : ValidLines stream) (hnext : nextFrame r.read=nextFrame stream) (hdone : r.isDone=false)
    (hpeek : r.peekBuf=[]) : ∃ buf,r.readLine=some ((outcome ds stream).2.2,{ r with
      read := (nextFrame stream).2,buf := buf,isDone := (outcome ds stream).1,
      stoppedAt := (outcome ds stream).2.1 }) := by
  obtain ⟨_,hbuf,heq⟩ := Fresh.readLine_eq ⟨hdone,hpeek⟩
  obtain ⟨buf,hx,-⟩ := h.exhaustive hvalid hnext hbuf false
  rw [heq,hx]
  exact ⟨buf,rfl⟩

/-- The second reader never looks at lines. -/
structure Together (ds : List Line) (r r' : Reader) : Prop where
  first : Quiet ds r
  second : Quiet ds r'
  peekBuf' : r'.peekBuf = []
  valid : ValidLines r'.read

/-- Neither has looked at the next line. -/
structure Level (ds : List Line) (r r' : Reader) : Prop extends Together ds r r' where
  peekBuf : r.peekBuf = []
  next : nextFrame r.read = nextFrame r'.read
  isDone : r.isDone = r'.isDone
  stoppedAt : r'.isDone = true → r.stoppedAt = r'.stoppedAt

/-- The first has looked at the next line. -/
structure Looked (ds : List Line) (r r' : Reader) : Prop extends Together ds r r' where
  notDone : r'.isDone = false
  line : ∃ l, nextFrame r'.read = (.line l,r.read)
  isDone : r.isDone = (outcome ds r'.read).1
  stoppedAt : r.stoppedAt = (outcome ds r'.read).2.1
  kept : KeptIn r.peekBuf (outcome ds r'.read).2.2

/-- The line is a delimiter, or it is in the buffer. -/
theorem Looked.cases (h : Looked ds r r') :
    (r.isDone=true ∧ (outcome ds r'.read).2.2=none ∧ r.peekBuf=[]) ∨
      ∃ l,r.isDone=false ∧ (outcome ds r'.read).2.2=some (.ok (.ok l)) ∧ Holds r.peekBuf l ∧ r.peekBuf≠[] := by
  obtain ⟨-,-,⟨l,hline⟩,hdone,-,hkept⟩ := h
  by_cases hmem : l∈ds
  · rw [outcome,hline,outcome_delimiter hmem] at hdone hkept ⊢
    exact .inl ⟨hdone,rfl,hkept⟩
  · rw [outcome,hline,outcome_line hmem (if_neg Bool.false_ne_true)] at hdone hkept ⊢
    refine .inr ⟨l,hdone,rfl,hkept,fun hnil => absurd hkept.room ?_⟩
    rw [hnil]
    exact Nat.not_le.mpr l.size_pos

def Follows (ds : List Line) (r r' : Reader) : Prop := Level ds r r' ∨ Looked ds r r'

theorem Follows.readLine (h : Follows ds r r') : ∃ result r1 r1',
    r.readLine=some (result,r1) ∧ r'.readLine=some (result,r1') ∧ r1.stoppedAt=r1'.stoppedAt ∧ Level ds r1 r1' := by
  obtain h | h := h
  · by_cases hdone : r'.isDone
    · exact ⟨none,r,r',by rw [Reader.readLine,if_pos (h.isDone.trans hdone)],by rw [Reader.readLine,if_pos hdone],h.stoppedAt hdone,h⟩
    · rw [Bool.not_eq_true] at hdone
      obtain ⟨buf,hread⟩ := h.first.readLine h.valid h.next (h.isDone.trans hdone) h.peekBuf
      obtain ⟨buf',hread'⟩ := h.second.readLine h.valid rfl hdone h.peekBuf'
      exact ⟨_,_,_,hread,hread',rfl,⟨h.first,h.second,h.peekBuf',h.valid.next⟩,h.peekBuf,rfl,rfl,fun _ => rfl⟩
  · obtain ⟨buf',hread'⟩ := h.second.readLine h.valid rfl h.notDone h.peekBuf'
    obtain ⟨l,hline⟩ := h.line
    have hnext : nextFrame r.read=nextFrame (nextFrame r'.read).2 := by rw [hline]
    obtain ⟨hdone,hresult,hpeek⟩ | ⟨l,hdone,hresult,hheld,hpeek⟩ := h.cases
    · refine ⟨_,r,_,?_,hread',h.stoppedAt,⟨h.first,h.second,h.peekBuf',h.valid.next⟩,hpeek,hnext,h.isDone,fun _ => h.stoppedAt⟩
      rw [Reader.readLine,if_pos hdone,hresult]
    · refine ⟨_,{ r with buf := r.peekBuf,peekBuf := [] },_,?_,hread',h.stoppedAt,⟨h.first,h.second,h.peekBuf',h.valid.next⟩,rfl,hnext,h.isDone,
        fun _ => h.stoppedAt⟩
      rw [Reader.readLine,if_neg (by simp [hdone]),if_pos hpeek,hheld.decoded,hresult]

/-- What is looked at is what the other reader would read. -/
theorem Follows.peekLine (h : Follows ds r r') :
    ∃ result r1 r1',r.peekLine=some (result,r1) ∧ r'.readLine=some (result,r1') ∧ Follows ds r1 r' := by
  unfold Reader.peekLine
  obtain h | h := h
  · by_cases hdone : r'.isDone
    · exact ⟨none,r,r',by rw [if_pos (h.isDone.trans hdone)],by rw [Reader.readLine,if_pos hdone],.inl h⟩
    · rw [Bool.not_eq_true] at hdone
      obtain ⟨_,hx,hkept⟩ := h.first.exhaustive h.valid h.next (resize_length r.peekBuf maxLineLen) true
      obtain ⟨buf',hread'⟩ := h.second.readLine h.valid rfl hdone h.peekBuf'
      rw [if_neg (by simp [h.isDone,hdone]),if_pos h.peekBuf,hx]
      refine ⟨_,_,_,rfl,hread',?_⟩
      obtain heof | ⟨l,_,hline⟩ := h.valid.first
      · rw [outcome,heof] at hkept ⊢
        exact .inl ⟨⟨h.first,h.second,h.peekBuf',h.valid⟩,hkept,heof.symm,hdone.symm,by simp [hdone]⟩
      · exact .inr ⟨⟨h.first,h.second,h.peekBuf',h.valid⟩,hdone,⟨l,by rw [hline]⟩,rfl,rfl,hkept⟩
  · obtain ⟨buf',hread'⟩ := h.second.readLine h.valid rfl h.notDone h.peekBuf'
    obtain ⟨hdone,hresult,-⟩ | ⟨l,hdone,hresult,hheld,hpeek⟩ := h.cases
    · exact ⟨_,r,_,by rw [if_pos hdone,hresult],hread',.inr h⟩
    · exact ⟨_,r,_,by rw [if_neg (by simp [hdone]),if_neg hpeek,hheld.decoded,hresult],hread',.inr h⟩

theorem Follows.agree (h : Follows ds r r') (calls : List LineCall) : Agree calls r r' := by
  induction calls generalizing r r' with
  | nil => trivial
  | cons c calls ih =>
    cases c with
    | readLine =>
      obtain ⟨result,r1,r1',hread,hread',hstopped,hlevel⟩ := h.readLine
      exact ⟨result,r1,r1',hread,hread',hstopped,ih (.inl hlevel)⟩
    | peekLine =>
      obtain ⟨result,r1,r1',hpeek,hread',hfollows⟩ := h.peekLine
      obtain ⟨_,r2,_,hread,hread'',-⟩ := hfollows.readLine
      cases hread'.symm.trans hread''
      exact ⟨result,r1,r2,hpeek,hread,ih hfollows⟩
    | reset =>
      intro hdone
      obtain h | h := h
      · exact ih (.inl ⟨⟨h.first,h.second,h.peekBuf',h.valid⟩,h.peekBuf,h.next,rfl,fun _ => rfl⟩)
      · exact absurd hdone (by simp [h.notDone])

/-- Looking at lines tells what is read next, and it doesn't change what is read. -/
theorem peeking_is_invisible (stream : Bytes) (delimiters : List Line) (calls : List LineCall) (hvalid : ValidLines stream) :
    Agree calls (.new stream delimiters) (.new stream delimiters) :=
  Follows.agree (.inl ⟨⟨⟨rfl,rfl⟩,⟨rfl,rfl⟩,rfl,hvalid⟩,rfl,rfl,rfl,fun _ => rfl⟩) calls

/-- A line, a flush and another line. -/
def threeLines : Bytes := [48,48,48,53,97]++flushLine++[48,48,48,53,98]

theorem validLines_three : ValidLines threeLines
  | 0 => .inr ⟨.data [97],by decide +kernel⟩
  | 1 => .inr ⟨.flush,by decide +kernel⟩
  | 2 => .inr ⟨.data [98],by decide +kernel⟩
  | 3 => .inl (by decide +kernel)
  | n+4 => validLines_three (n+3)

/-- The reader stops at the flush, is reset and goes on. -/
theorem peeking_at_flush : Agree [.peekLine,.readLine,.peekLine,.readLine,.reset,.peekLine,.readLine]
    (.new threeLines [.flush]) (.new threeLines [.flush]) :=
  peeking_is_invisible threeLines [.flush] _ validLines_three

/-- A delimiter that was looked at is not read if the reader is reset. -/
theorem reset_skips_flush : ((Reader.new flushLine [.flush]).peekLine.bind (·.2.reset.readLine)).map (·.2.stoppedAt) = some none ∧
    (Reader.new flushLine [.flush]).reset.readLine.map (·.2.stoppedAt) = some (some .flush) := by
  decide +kernel

end Gix.PacketLine
