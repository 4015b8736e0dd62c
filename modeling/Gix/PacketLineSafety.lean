import Gix.PacketLine

/-! # Packet lines of a peer that isn't trusted

A reader that takes line after line from its stream panics in two cases only: the length of a line
is larger than its buffer, or a line has a band for text but no text. -/
namespace Gix.PacketLine
open List Sidebands Except
open Pack (Bytes)
open ByteCodec

/-! The lines of a stream -/

inductive Frame
  | eof
  | broken (e : DecodeError)
  | line (l : Line)
  | oversized
deriving DecidableEq,Repr

/-- What a reader comes across next, and what follows. -/
def nextFrame (stream : Bytes) : Frame × Bytes :=
  if stream.length < 4 then (.eof,[])
  else match hexPrefix (stream.take 4) with
    | some (.ok (.line l)) => (.line l,stream.drop 4)
    | some (.error e) => (.broken e,stream.drop 4)
    | some (.ok (.wanted n)) =>
      if maxDataLen < n then (.oversized,stream.drop 4)
      else if (stream.drop 4).length < n then (.eof,[])
      else (.line (.data ((stream.drop 4).take n)),(stream.drop 4).drop n)
    | none => (.oversized,stream.drop 4)

/-- What follows a number of frames. -/
def skipFrames : ℕ → Bytes → Bytes
  | 0, stream => stream
  | n+1, stream => skipFrames n (nextFrame stream).2

def frameAt (stream : Bytes) (n : ℕ) : Frame := (nextFrame (skipFrames n stream)).1

/-- Text without a text -/
def Line.Blank (l : Line) : Prop := l = .data [2] ∨ l = .data [3]

instance (l : Line) : Decidable l.Blank := inferInstanceAs (Decidable (_ ∨ _))

def Frame.Bad (delimiters : List Line) : Frame → Prop
  | eof | broken _ => False
  | line l => l.Blank ∧ l ∉ delimiters
  | oversized => True

/-- No line is too long, and none that isn't a delimiter is blank. -/
def Harmless (delimiters : List Line) (stream : Bytes) : Prop := ∀ n, ¬ (frameAt stream n).Bad delimiters

variable {delimiters : List Line} {stream rest buf : Bytes} {l : Line} {failOnErrLines : Bool} {r : Reader}
  {s : Sidebands} {fourBytes d : Bytes} {bufResize : Bool}

theorem Harmless.next (h : Harmless delimiters stream) :
    Harmless delimiters (nextFrame stream).2 := fun n => h (n+1)

/-! One line -/

@[simp] theorem size_data (d : Bytes) : (Line.data d).size=d.length+4 := rfl

theorem Line.size_pos (l : Line) : 0 < l.size := by
  cases l <;> simp [size,asSlice]

/-- The buffer starts with the line. -/
structure Holds (buf : Bytes) (l : Line) : Prop where
  decoded : allAtOnce buf = some (.ok l)
  room : l.size ≤ buf.length
  payload : ∀ d, l = .data d → (buf.drop 4).take d.length = d ∧ d ≠ []

/-- What is behind the three special lengths is at least one byte. -/
theorem hexPrefix_ok {x : LineOrWantedSize} (h : hexPrefix fourBytes=some (.ok x)) :
    (∃ l : Line,x = .line l ∧ l.asSlice=none ∧ l.size=4) ∨ ∃ n,x = .wanted n ∧ 0 < n := by
  unfold hexPrefix at h
  split_ifs at h
  · exact .inl ⟨.flush,(ok.inj (Option.some.inj h)).symm,rfl,rfl⟩
  · exact .inl ⟨.delimiter,(ok.inj (Option.some.inj h)).symm,rfl,rfl⟩
  · exact .inl ⟨.responseEnd,(ok.inj (Option.some.inj h)).symm,rfl,rfl⟩
  · split at h
    · simp at h
    · simp only at h
      split_ifs at h
      · simp at h
      · simp at h
      · exact .inr ⟨_,(ok.inj (Option.some.inj h)).symm,by omega⟩

theorem toDataLine_ok {data : Bytes} (h : data.length ≤ maxDataLen) : toDataLine data = .ok (.data data) := by
  rw [toDataLine,if_neg]
  rw [maxLineLen]
  omega

theorem streaming_data {hexBytes data : Bytes} (hlen : hexBytes.length=4) (h : hexPrefix hexBytes=some (.ok (.wanted data.length)))
    (hmax : data.length ≤ maxDataLen) (tail : Bytes) :
    streaming (hexBytes++data++tail)=some (.ok (.complete (.data data) (data.length+4))) := by
  have htake : (hexBytes++data++tail).take 4=hexBytes := by rw [append_assoc,← hlen,take_left]
  have hlong : ¬ (hexBytes++data++tail).length < 4 := by simp only [length_append]; omega
  have hfits : ¬ maxLineLen < data.length+4 := by rw [maxLineLen]; omega
  have hroom : ¬ (hexBytes++data++tail).length < data.length+4 := by simp only [length_append]; omega
  have hdata : ((hexBytes++data++tail).take (data.length+4)).drop 4=data := by
    have hwhole : data.length+4=(hexBytes++data).length := by rw [length_append]; omega
    rw [hwhole,take_left,← hlen,drop_left]
  simp only [streaming,if_neg hlong,htake,h,if_neg hfits,if_neg hroom,hdata,toDataLine_ok hmax]

theorem holds_data {hexBytes data : Bytes} (hlen : hexBytes.length=4) (h : hexPrefix hexBytes=some (.ok (.wanted data.length)))
    (hpos : 0 < data.length) (hmax : data.length ≤ maxDataLen) (tail : Bytes) : Holds (hexBytes++data++tail) (.data data) := by
  refine ⟨by rw [allAtOnce,streaming_data hlen h hmax],?_,?_⟩
  · simp only [size_data,length_append]
    omega
  · intro d hd
    cases hd
    refine ⟨by rw [append_assoc,← hlen,drop_left,take_left],ne_nil_of_length_pos hpos⟩

theorem nextFrame_line (h : nextFrame stream=(.line l,rest)) :
    rest=stream.drop l.size ∧ l.size ≤ stream.length ∧ ∀ tail,Holds (stream.take l.size++tail) l := by
  unfold nextFrame at h
  split_ifs at h with hshort
  · cases h
  have hlen : (stream.take 4).length=4 := length_take_of_le (by omega)
  rcases hhex : hexPrefix (stream.take 4) with _ | (_ | _)
  · simp [hhex] at h
  · simp [hhex] at h
  · obtain ⟨_,rfl,hslice,hsize⟩ | ⟨n,rfl,_⟩ := hexPrefix_ok hhex
    · simp only [hhex,Prod.mk.injEq,Frame.line.injEq] at h
      obtain ⟨rfl,rfl⟩ := h
      rw [hsize]
      refine ⟨rfl,by omega,fun tail => ⟨?_,?_,?_⟩⟩
      · have htake : (stream.take 4++tail).take 4=stream.take 4 := take_left' hlen
        have hlong : ¬ (stream.take 4++tail).length < 4 := by rw [length_append]; omega
        simp only [allAtOnce,streaming,if_neg hlong,htake,hhex]
      · rw [length_append]
        omega
      · rintro d rfl
        cases hslice
    · simp only [hhex] at h
      split_ifs at h with hmax heof
      · cases h
      · cases h
      · cases h
        have hn : ((stream.drop 4).take n).length=n := length_take_of_le (by omega)
        rw [length_drop] at heof
        simp only [size_data,hn]
        refine ⟨by rw [drop_drop,Nat.add_comm],by omega,fun tail => ?_⟩
        rw [Nat.add_comm n 4,take_add]
        exact holds_data hlen (by rw [hn,hhex]) (by omega) (by omega) tail

theorem readLineInner_eq (stream : Bytes) (hbuf : buf.length=maxLineLen) :
    readLineInner stream buf=match nextFrame stream with
      | (.oversized,_) => none
      | (.eof,rest) => some (.error .unexpectedEof,rest)
      | (.broken e,rest) => some (.ok (.error e),rest)
      | (.line l,rest) => some (.ok (.ok (l,stream.take l.size++buf.drop l.size)),rest) := by
  have hbuf4 : ¬ buf.length < 4 := by rw [hbuf,maxLineLen]; omega
  have hdrop : (buf.drop 4).length=maxDataLen := by rw [length_drop,hbuf,maxLineLen]; omega
  unfold readLineInner nextFrame
  rw [hdrop]
  split_ifs with hshort
  · rfl
  rcases hhex : hexPrefix (stream.take 4) with _ | (e | _)
  · simp [hhex]
  · simp [hhex]
  · obtain ⟨l,rfl,_,hsize⟩ | ⟨n,rfl,_⟩ := hexPrefix_ok hhex
    · simp [hhex,hsize]
    · by_cases hmax : maxDataLen < n
      · simp [hhex,if_pos hmax]
      · by_cases heof : (stream.drop 4).length < n
        · simp only [hhex,if_neg hmax,if_pos heof]
        · have hn : ((stream.drop 4).take n).length=n := length_take_of_le (by omega)
          simp only [hhex,if_neg hmax,if_neg heof,toDataLine_ok (show ((stream.drop 4).take n).length ≤ maxDataLen by omega),size_data,hn]
          rw [Nat.add_comm n 4,take_add,drop_drop]

/-- Whether a reader stops at a frame, at which line, and what it returns. -/
def Frame.outcome (delimiters : List Line) (failOnErrLines : Bool) : Frame → Bool × Option Line × Option LineResult
  | line l =>
    if l ∈ delimiters then (true,some l,none)
    else match (if failOnErrLines then l.checkError else none) with
      | some message => (true,none,some (.error (.errLine message)))
      | none => (false,none,some (.ok (.ok l)))
  | broken e => (false,none,some (.ok (.error e)))
  | _ => (false,none,some (.error .unexpectedEof))

theorem outcome_ok {f : Frame} (h : (f.outcome delimiters failOnErrLines).2.2=some (.ok (.ok l))) : f = .line l ∧ l∉delimiters := by
  cases f with
  | line l' =>
    simp only [Frame.outcome] at h
    split at h
    · cases h
    · rename_i hmem
      split at h <;> cases h
      exact ⟨rfl,hmem⟩
  | eof => cases h
  | broken e => cases h
  | oversized => cases h

theorem outcome_delimiter (hl : l∈delimiters) : (Frame.line l).outcome delimiters failOnErrLines=(true,some l,none) := if_pos hl

theorem outcome_line (hl : l∉delimiters) (herr : (if failOnErrLines then l.checkError else none)=none) :
    (Frame.line l).outcome delimiters failOnErrLines=(false,none,some (.ok (.ok l))) := by
  rw [Frame.outcome,if_neg hl,herr]

/-- Only a line that is returned stays in the buffer. -/
def KeptIn (buf : Bytes) : Option LineResult → Prop
  | some (.ok (.ok l)) => Holds buf l
  | _ => buf = []

theorem KeptIn.holds {result : Option LineResult} (h : KeptIn buf result) (hl : result=some (.ok (.ok l))) : Holds buf l := by
  rwa [hl] at h

theorem exhaustive_eq (failOnErrLines bufResize : Bool) {f : Frame} (hbuf : buf.length=maxLineLen) (h : nextFrame stream=(f,rest))
    (hf : f ≠ .oversized) : ∃ buf',readLineInnerExhaustive stream buf delimiters failOnErrLines bufResize=
        some ⟨(f.outcome delimiters failOnErrLines).1,(f.outcome delimiters failOnErrLines).2.1,(f.outcome delimiters failOnErrLines).2.2,rest,buf'⟩ ∧
      KeptIn buf' (f.outcome delimiters failOnErrLines).2.2 := by
  simp only [readLineInnerExhaustive,readLineInner_eq stream hbuf,h]
  cases f with
  | oversized => exact absurd rfl hf
  | eof => exact ⟨[],rfl,rfl⟩
  | broken e => exact ⟨[],rfl,rfl⟩
  | line l =>
    simp only [Frame.outcome]
    split
    · exact ⟨[],rfl,rfl⟩
    · cases (if failOnErrLines then l.checkError else none) with
      | some message => exact ⟨[],rfl,rfl⟩
      | none =>
        obtain ⟨-,hle,hholds⟩ := nextFrame_line h
        have hsize := length_take_of_le hle
        have hresize : resize (stream.take l.size++buf.drop l.size) l.size=stream.take l.size++[] := by
          rw [resize,take_left' hsize,length_append,hsize,Nat.sub_eq_zero_of_le (Nat.le_add_right _ _),replicate_zero]
        cases bufResize with
        | false => exact ⟨_,by simp [(hholds _).decoded]; rfl,hholds _⟩
        | true => exact ⟨_,by simp only [if_true,hresize,(hholds _).decoded],hholds []⟩

theorem exhaustive_oversized (hbuf : buf.length=maxLineLen)
    (h : nextFrame stream=(.oversized,rest)) :
    readLineInnerExhaustive stream buf delimiters failOnErrLines bufResize=none := by
  simp [readLineInnerExhaustive,readLineInner_eq stream hbuf,h]

/-! The reader -/

@[simp] theorem resize_length (l : Bytes) (size : ℕ) : (resize l size).length=size := by
  simp only [resize,length_append,length_take,length_replicate]
  omega

theorem readBuf_length (buf : Bytes) :
    (if buf.length≠maxLineLen then resize buf maxLineLen else buf).length=maxLineLen := by
  split
  · exact resize_length _ _
  · rename_i hlen
    exact not_not.mp hlen

/-- A line that was looked at is in the buffer. -/
def Peeked (buf : Bytes) : Prop := buf = [] ∨ ∃ l, Holds buf l ∧ ¬ l.Blank

/-- A line that is a result is in the buffer, and it is not blank. -/
def Delivers (result : Option LineResult) (buf : Bytes) : Prop := ∀ l, result = some (.ok (.ok l)) → Holds buf l ∧ ¬ l.Blank

/-- Both kinds of calls take the next frame from the stream. -/
theorem Harmless.exhaustive (h : Harmless delimiters stream) (hbuf : buf.length=maxLineLen)
    (failOnErrLines bufResize : Bool) :
    ∃ x,readLineInnerExhaustive stream buf delimiters failOnErrLines bufResize=some x ∧ x.read=(nextFrame stream).2 ∧
      Delivers x.result x.buf ∧ (bufResize=true → Peeked x.buf) ∧ ∀ l,x.result=some (.ok (.ok l)) → x.read.length < stream.length := by
  have hfirst := h 0
  rcases hf : nextFrame stream with ⟨f,rest⟩
  simp only [frameAt,skipFrames,hf] at hfirst
  obtain ⟨buf',hx,hkept⟩ := exhaustive_eq failOnErrLines bufResize hbuf hf (by rintro rfl; exact hfirst trivial)
  have hline : ∀ l,(f.outcome delimiters failOnErrLines).2.2=some (.ok (.ok l)) → (Holds buf' l ∧ ¬ l.Blank) ∧ rest.length < stream.length := by
    intro l hl
    obtain ⟨rfl,hmem⟩ := outcome_ok hl
    obtain ⟨hrest,_,-⟩ := nextFrame_line hf
    have := l.size_pos
    refine ⟨⟨hkept.holds hl,fun hb => hfirst ⟨hb,hmem⟩⟩,?_⟩
    rw [hrest,length_drop]
    omega
  refine ⟨_,hx,rfl,fun l hl => (hline l hl).1,fun _ => ?_,fun l hl => (hline l hl).2⟩
  rcases hresult : (f.outcome delimiters failOnErrLines).2.2 with _ | (e | (e | l))
  case some.ok.ok => exact .inr ⟨l,(hline l hresult).1⟩
  all_goals
    rw [hresult] at hkept
    exact .inl hkept

/-- What holds of a reader between calls. -/
structure Valid (r : Reader) : Prop where
  harmless : Harmless r.delimiters r.read
  peeked : Peeked r.peekBuf

/-- A frame was taken, or the line that was looked at. -/
def Shrinks (r r' : Reader) : Prop := r'.read.length+r'.peekBuf.length < r.read.length+r.peekBuf.length

theorem Valid.readLine (h : Valid r) : ∃ result r',r.readLine=some (result,r') ∧ Valid r' ∧ Delivers result r'.buf ∧
    r'.delimiters=r.delimiters ∧ (∀ l,result=some (.ok (.ok l)) → Shrinks r r') := by
  unfold Reader.readLine
  by_cases hdone : r.isDone
  · exact ⟨none,r,by rw [if_pos hdone],h,by rintro l ⟨⟩,rfl,by rintro l ⟨⟩⟩
  rw [if_neg hdone]
  by_cases hpeek : r.peekBuf=[]
  · rw [if_neg (not_not.mpr hpeek)]
    obtain ⟨_,hx,hread,hdelivers,-,hshorter⟩ := h.harmless.exhaustive (readBuf_length r.buf) r.failOnErrLines false
    simp only [hx]
    exact ⟨_,_,rfl,⟨hread ▸ h.harmless.next,h.peeked⟩,hdelivers,rfl,fun l hl => Nat.add_lt_add_right (hshorter l hl) _⟩
  · rw [if_pos hpeek]
    obtain ⟨l,hholds,hblank⟩ := h.peeked.resolve_left hpeek
    simp only [hholds.decoded]
    refine ⟨_,_,rfl,⟨h.harmless,.inl rfl⟩,?_,rfl,fun _ _ => ?_⟩
    · intro l' hl'
      cases hl'
      exact ⟨hholds,hblank⟩
    · exact Nat.add_lt_add_left (length_pos_iff.mpr hpeek) _

theorem Valid.peekLine (h : Valid r) :
    ∃ result r',r.peekLine=some (result,r') ∧ Valid r' ∧ r'.delimiters=r.delimiters := by
  unfold Reader.peekLine
  by_cases hdone : r.isDone
  · exact ⟨none,r,by rw [if_pos hdone],h,rfl⟩
  rw [if_neg hdone]
  by_cases hpeek : r.peekBuf=[]
  · rw [if_pos hpeek]
    obtain ⟨_,hx,hread,-,hpeeked,-⟩ := h.harmless.exhaustive (resize_length r.peekBuf maxLineLen) r.failOnErrLines true
    simp only [hx]
    exact ⟨_,_,rfl,⟨hread ▸ h.harmless.next,hpeeked rfl⟩,rfl⟩
  · rw [if_neg hpeek]
    obtain ⟨_,hholds,-⟩ := h.peeked.resolve_left hpeek
    simp only [hholds.decoded]
    exact ⟨_,_,rfl,h,rfl⟩

/-! Side bands -/

/-- A window into the buffer, if there is one. -/
structure ValidSidebands (s : Sidebands) : Prop where
  parent : Valid s.parent
  window : s.pos < s.cap → s.cap ≤ s.parent.buf.length

theorem textRef_some (h : d≠[]) : ∃ text,textRef d=some text := by
  unfold textRef
  cases hlast : d.getLast? with
  | none => exact absurd (getLast?_eq_none_iff.mp hlast) h
  | some b => exact ⟨_,rfl⟩

theorem decodeBand_safe (hd : d≠[]) (h : ¬ (Line.data d).Blank) :
    (∃ e,(Line.data d).decodeBand=some (.error e)) ∨ (∃ x,d=1::x ∧ (Line.data d).decodeBand=some (.ok (.data x))) ∨
      ∃ b x,d=b::x ∧ x≠[] ∧
        ((Line.data d).decodeBand=some (.ok (.progress x)) ∨ (Line.data d).decodeBand=some (.ok (.error x))) := by
  cases d with
  | nil => exact absurd rfl hd
  | cons b x =>
    by_cases h1 : b=1
    · subst h1
      exact .inr (.inl ⟨x,rfl,rfl⟩)
    by_cases h2 : b=2
    · subst h2
      exact .inr (.inr ⟨2,x,rfl,fun hx => h (.inl (by rw [hx])),.inl rfl⟩)
    by_cases h3 : b=3
    · subst h3
      exact .inr (.inr ⟨3,x,rfl,fun hx => h (.inr (by rw [hx])),.inr rfl⟩)
    · refine .inl ⟨.invalidSideBand b,?_⟩
      simp [Line.decodeBand,Line.asSlice]

/-- The loop changes nothing but what it reads. -/
structure Keeps (s s' : Sidebands) : Prop where
  delimiters : s'.parent.delimiters = s.parent.delimiters
  pos : s'.pos = s.pos
  cap : s'.cap = s.cap

theorem Keeps.trans {s' s'' : Sidebands} (h : Keeps s' s'') (h' : Keeps s s') : Keeps s s'' :=
  ⟨h.delimiters.trans h'.delimiters,h.pos.trans h'.pos,h.cap.trans h'.cap⟩

/-- One line was taken: the window it gives is in the buffer, and without one there is less left. -/
structure Filled (s : Sidebands) (result : Except IoError (Option (ℕ × ℕ))) (s' : Sidebands) : Prop where
  valid : Valid s'.parent
  keeps : Keeps s s'
  window : ∀ ofs len, result = .ok (some (ofs,len)) → len+ofs ≤ s'.parent.buf.length
  shrinks : result = .ok none → Shrinks s.parent s'.parent

theorem Valid.fillStep (h : Valid s.parent) : ∃ result s',s.fillStep=some (result,s') ∧ Filled s result s' := by
  obtain ⟨result,r,hread,hvalid,hdelivers,hdelimiters,hshrinks⟩ := h.readLine
  have hfails : ∀ e handler calls,Filled s (.error e) ⟨r,handler,s.pos,s.cap,calls⟩ :=
    fun _ _ _ => ⟨hvalid,⟨hdelimiters,rfl,rfl⟩,by simp,by simp⟩
  unfold Sidebands.fillStep
  rw [hread]
  rcases result with _ | (e | (e | l))
  · refine ⟨_,_,rfl,hvalid,⟨hdelimiters,rfl,rfl⟩,?_,by simp⟩
    intro ofs len heq
    cases heq
    exact Nat.zero_le _
  · exact ⟨_,_,rfl,hfails _ _ _⟩
  · exact ⟨_,_,rfl,hfails _ _ _⟩
  · obtain ⟨hholds,hblank⟩ := hdelivers l rfl
    have hless := hshrinks l rfl
    cases hhandler : s.handleProgress with
    | none =>
      cases l with
      | data d =>
        refine ⟨_,_,rfl,hvalid,⟨hdelimiters,rfl,rfl⟩,?_,by simp⟩
        intro ofs len heq
        cases heq
        exact hholds.room
      | flush => exact ⟨_,_,rfl,hfails _ _ _⟩
      | delimiter => exact ⟨_,_,rfl,hfails _ _ _⟩
      | responseEnd => exact ⟨_,_,rfl,hfails _ _ _⟩
    | some handleProgress =>
      cases l with
      | data d =>
        have hroom := hholds.room
        obtain ⟨e,hband⟩ | ⟨x,rfl,hband⟩ | ⟨_,x,rfl,hx,hband⟩ := decodeBand_safe (hholds.payload d rfl).2 hblank
        · simp only [hband]
          exact ⟨_,_,rfl,hfails _ _ _⟩
        · simp only [hband]
          by_cases hx : x=[]
          · rw [if_pos hx]
            exact ⟨_,_,rfl,hvalid,⟨hdelimiters,rfl,rfl⟩,by simp,fun _ => hless⟩
          · rw [if_neg hx]
            refine ⟨_,_,rfl,hvalid,⟨hdelimiters,rfl,rfl⟩,?_,by simp⟩
            intro ofs len heq
            cases heq
            simp only [size_data] at hroom
            omega
        · obtain ⟨_,htext⟩ := textRef_some hx
          rcases hband with hband | hband <;>
          · simp only [hband,htext]
            split
            · exact ⟨_,_,rfl,hvalid,⟨hdelimiters,rfl,rfl⟩,by simp,fun _ => hless⟩
            · exact ⟨_,_,rfl,hfails _ _ _⟩
      | flush => exact ⟨_,_,rfl,hfails _ _ _⟩
      | delimiter => exact ⟨_,_,rfl,hfails _ _ _⟩
      | responseEnd => exact ⟨_,_,rfl,hfails _ _ _⟩

theorem Valid.fillLoop (h : Valid s.parent) {n : ℕ} (hn : s.parent.read.length+s.parent.peekBuf.length < n) :
    ∃ result s',fillLoop n s=some (result,s') ∧ Valid s'.parent ∧ Keeps s s' ∧
      ∀ ofs len,result = .ok (ofs,len) → len+ofs ≤ s'.parent.buf.length := by
  induction n generalizing s with
  | zero => omega
  | succ n ih =>
    obtain ⟨result,_,hstep,⟨hvalid,hkeeps,hwindow,hshrinks⟩⟩ := h.fillStep
    rw [fillLoop,hstep]
    rcases result with _ | (_ | _)
    · exact ⟨_,_,rfl,hvalid,hkeeps,by simp⟩
    · have hless := hshrinks rfl
      unfold Shrinks at hless
      obtain ⟨result,s2,hloop,hvalid',hkeeps',hwindow'⟩ := ih hvalid (by omega)
      exact ⟨result,s2,hloop,hvalid',hkeeps'.trans hkeeps,hwindow'⟩
    · refine ⟨_,_,rfl,hvalid,hkeeps,fun ofs len heq => hwindow ofs len ?_⟩
      rw [ok.inj heq]

variable (h : ValidSidebands s)
include h

theorem ValidSidebands.fillBuf : ∃ result s',s.fillBuf=some (result,s') ∧ ValidSidebands s' ∧
    s'.parent.delimiters=s.parent.delimiters := by
  unfold Sidebands.fillBuf
  split
  · obtain ⟨result,_,hloop,hvalid,hkeeps,hwindow⟩ := h.parent.fillLoop (Nat.lt_succ_self _)
    rw [hloop]
    rcases result with _ | ⟨ofs,len⟩
    · refine ⟨_,_,rfl,⟨hvalid,fun hlt => ?_⟩,hkeeps.delimiters⟩
      rw [hkeeps.pos,hkeeps.cap] at hlt
      omega
    · have hbound := hwindow ofs len rfl
      simp only [Sidebands.window]
      rw [if_pos ⟨Nat.le_add_left _ _,hbound⟩]
      exact ⟨_,_,rfl,⟨hvalid,fun _ => hbound⟩,hkeeps.delimiters⟩
  · have hbound := h.window (by omega)
    rw [Sidebands.window,if_pos ⟨by omega,hbound⟩]
    exact ⟨_,_,rfl,h,rfl⟩

theorem ValidSidebands.read (size : ℕ) : ∃ result s',s.read size=some (result,s') ∧
    ValidSidebands s' ∧ s'.parent.delimiters=s.parent.delimiters := by
  obtain ⟨result,_,hfill,hvalid,hdelimiters⟩ := h.fillBuf
  rw [Sidebands.read,hfill]
  cases result with
  | error e => exact ⟨_,_,rfl,hvalid,hdelimiters⟩
  | ok rem =>
    refine ⟨_,_,rfl,⟨hvalid.parent,fun hlt => ?_⟩,hdelimiters⟩
    simp only [consume] at hlt ⊢
    exact hvalid.window (by omega)

/-! All calls -/

inductive SidebandCall
  | read (size : ℕ)
  | fillBuf
  | consume (amt : ℕ)

def SidebandCall.perform (s : Sidebands) : SidebandCall → Option Sidebands
  | read size => (s.read size).map Prod.snd
  | fillBuf => s.fillBuf.map Prod.snd
  | consume amt => some (s.consume amt)

/-- Lines are read one by one, or bytes through a `WithSidebands` that resets the reader in the end. -/
inductive Call
  | readLine
  | peekLine
  | sidebands (handleProgress : Option Handler) (calls : List SidebandCall)

def Call.perform (r : Reader) : Call → Option Reader
  | readLine => r.readLine.map Prod.snd
  | peekLine => r.peekLine.map Prod.snd
  | sidebands handleProgress calls => (calls.foldlM SidebandCall.perform (Sidebands.new r handleProgress)).map fun s => s.parent.reset

/-- Callers may go on after errors; `none` if one of the calls panics. -/
def Reader.run (r : Reader) (calls : List Call) : Option Reader := calls.foldlM Call.perform r

theorem ValidSidebands.perform (c : SidebandCall) :
    ∃ s',c.perform s=some s' ∧ ValidSidebands s' ∧ s'.parent.delimiters=s.parent.delimiters := by
  cases c with
  | read size =>
    obtain ⟨result,s',hread,hvalid⟩ := h.read size
    exact ⟨s',by simp [SidebandCall.perform,hread],hvalid⟩
  | fillBuf =>
    obtain ⟨result,s',hfill,hvalid⟩ := h.fillBuf
    exact ⟨s',by simp [SidebandCall.perform,hfill],hvalid⟩
  | consume amt =>
    refine ⟨_,rfl,⟨h.parent,fun hlt => ?_⟩,rfl⟩
    simp only [consume] at hlt ⊢
    exact h.window (by omega)

theorem ValidSidebands.foldlM (calls : List SidebandCall) :
    ∃ s',calls.foldlM SidebandCall.perform s=some s' ∧ ValidSidebands s' ∧ s'.parent.delimiters=s.parent.delimiters := by
  induction calls generalizing s with
  | nil => exact ⟨s,rfl,h,rfl⟩
  | cons c calls ih =>
    obtain ⟨_,hc,hvalid,hdelimiters⟩ := h.perform c
    obtain ⟨s2,hcalls,hvalid',hdelimiters'⟩ := ih hvalid
    exact ⟨s2,by rw [foldlM_cons,hc]; exact hcalls,hvalid',hdelimiters'.trans hdelimiters⟩

omit h

theorem Valid.perform (h : Valid r) (c : Call) :
    ∃ r',c.perform r=some r' ∧ Valid r' ∧ r'.delimiters=r.delimiters := by
  cases c with
  | readLine =>
    obtain ⟨result,r',hread,hvalid,-,hdelimiters,-⟩ := h.readLine
    exact ⟨r',by simp [Call.perform,hread],hvalid,hdelimiters⟩
  | peekLine =>
    obtain ⟨result,r',hpeek,hvalid,hdelimiters⟩ := h.peekLine
    exact ⟨r',by simp [Call.perform,hpeek],hvalid,hdelimiters⟩
  | sidebands handleProgress calls =>
    have hnew : ValidSidebands (new r handleProgress) := ⟨h,by simp [new]⟩
    obtain ⟨s,hs,hvalid,hdelimiters⟩ := hnew.foldlM calls
    refine ⟨s.parent.reset,by simp [Call.perform,hs],⟨hvalid.parent.harmless,hvalid.parent.peeked⟩,hdelimiters⟩

open Reader

/-- No sequence of calls panics on a harmless stream. -/
theorem Valid.run (h : Valid r) (calls : List Call) : (r.run calls).isSome := by
  induction calls generalizing r with
  | nil => rfl
  | cons c calls ih =>
    obtain ⟨_,hc,hvalid,-⟩ := h.perform c
    rw [run,foldlM_cons,hc]
    exact ih hvalid

/-! Panics -/

/-- A reader at the start of a line. -/
structure Fresh (r : Reader) : Prop where
  notDone : r.isDone = false
  peekBuf : r.peekBuf = []

theorem Fresh.readLine_eq (h : Fresh r) : ∃ buf,buf.length=maxLineLen ∧
    r.readLine=(readLineInnerExhaustive r.read buf r.delimiters r.failOnErrLines false).map
      fun x => (x.result,{ r with read := x.read,buf := x.buf,isDone := x.isDone,stoppedAt := x.stoppedAt }) := by
  refine ⟨_,readBuf_length r.buf,?_⟩
  unfold Reader.readLine
  rw [if_neg (by simp [h.notDone]),if_neg (not_not.mpr h.peekBuf)]

theorem Fresh.skip (h : Fresh r) (hf : (nextFrame r.read).1 ≠ .oversized) :
    ∃ r',(Call.sidebands none [.fillBuf]).perform r=some r' ∧ Fresh r' ∧ r'.read=(nextFrame r.read).2 ∧ r'.delimiters=r.delimiters := by
  have hread : ∃ result r1,r.readLine=some (result,r1) ∧ r1.read=(nextFrame r.read).2 ∧ r1.peekBuf=[] ∧
      r1.delimiters=r.delimiters ∧ ∀ l,result=some (.ok (.ok l)) → l.size ≤ r1.buf.length := by
    obtain ⟨buf,hbuf,heq⟩ := h.readLine_eq
    rw [heq]
    rcases hframe : nextFrame r.read with ⟨f,_⟩
    rw [hframe] at hf
    obtain ⟨_,hx,hkept⟩ := exhaustive_eq r.failOnErrLines false hbuf hframe hf
    rw [hx]
    exact ⟨_,_,rfl,rfl,h.peekBuf,rfl,fun l hl => (hkept.holds hl).room⟩
  obtain ⟨result,r1,hline,hrest,hpeek,hdelimiters,hroom⟩ := hread
  have hfill : ∃ result s,(new r none).fillBuf=some (result,s) ∧ s.parent=r1 := by
    unfold Sidebands.fillBuf
    rw [if_pos (show (new r none).cap ≤ (new r none).pos from Nat.le_refl 0),fillLoop]
    simp only [Sidebands.fillStep,show (new r none).parent=r from rfl,hline,show (new r none).handleProgress=none from rfl]
    rcases result with _ | (e | (e | l))
    · exact ⟨_,_,rfl,rfl⟩
    · exact ⟨_,_,rfl,rfl⟩
    · exact ⟨_,_,rfl,rfl⟩
    · cases l with
      | data d =>
        have := hroom (.data d) rfl
        simp only [Sidebands.window,Line.asSlice]
        rw [if_pos ⟨Nat.le_add_left _ _,this⟩]
        exact ⟨_,_,rfl,rfl⟩
      | flush => exact ⟨_,_,rfl,rfl⟩
      | delimiter => exact ⟨_,_,rfl,rfl⟩
      | responseEnd => exact ⟨_,_,rfl,rfl⟩
  obtain ⟨result,s,hfill,rfl⟩ := hfill
  refine ⟨s.parent.reset,?_,⟨rfl,hpeek⟩,hrest,hdelimiters⟩
  simp [Call.perform,SidebandCall.perform,hfill]

/-- A bad frame makes a reader with a handler panic. -/
theorem Fresh.fillBuf_panic (h : Fresh r) (hf : (nextFrame r.read).1.Bad r.delimiters) (handleProgress : Handler) :
    (new r (some handleProgress)).fillBuf=none := by
  obtain ⟨_,hbuf,heq⟩ := h.readLine_eq
  unfold Sidebands.fillBuf
  rw [fillLoop]
  simp only [Sidebands.fillStep,show (new r (some handleProgress)).parent=r from rfl,heq]
  rcases hframe : nextFrame r.read with ⟨f,_⟩
  rw [hframe] at hf
  cases f with
  | eof => exact absurd hf id
  | broken e => exact absurd hf id
  | oversized => rw [exhaustive_oversized hbuf hframe]; rfl
  | line l =>
    obtain ⟨hblank,hl⟩ := hf
    have herr : (if r.failOnErrLines then l.checkError else none)=none := by
      rcases hblank with rfl | rfl <;> simp [Line.checkError,Line.asSlice,Line.errPrefix]
    obtain ⟨_,hx,-⟩ := exhaustive_eq r.failOnErrLines false hbuf hframe (by simp)
    rw [hx,outcome_line hl herr]
    rcases hblank with rfl | rfl <;> rfl

theorem Fresh.panic (h : Fresh r) (hf : (nextFrame r.read).1.Bad r.delimiters) (handleProgress : Handler) :
    (Call.sidebands (some handleProgress) [.fillBuf]).perform r=none := by
  simp [Call.perform,SidebandCall.perform,h.fillBuf_panic hf handleProgress]

theorem Fresh.not_bad (h : Fresh r) (hcalls : ∀ calls,(r.run calls).isSome) :
    ¬ (nextFrame r.read).1.Bad r.delimiters := by
  intro hbad
  have := hcalls [.sidebands (some fun _ _ => .continue) [.fillBuf]]
  rw [run,foldlM_cons,h.panic hbad] at this
  cases this

/-- Whatever the delimiters are, all sequences of calls are free of panics if and only if the stream is harmless. -/
theorem packet_line_reader_safe_iff (stream : Bytes) (delimiters : List Line) (failOnErrLines : Bool) :
    (∀ calls, (({ Reader.new stream delimiters with failOnErrLines := failOnErrLines } : Reader).run calls).isSome) ↔
      Harmless delimiters stream := by
  constructor
  · have hall : ∀ (n : ℕ) (r : Reader), Fresh r → (∀ calls, (r.run calls).isSome) → ¬ (frameAt r.read n).Bad r.delimiters := by
      intro n
      induction n with
      | zero =>
        intro r hr hcalls
        exact hr.not_bad hcalls
      | succ n ih =>
        intro r hr hcalls hbad
        have hfirst : (nextFrame r.read).1 ≠ .oversized := fun hover => hr.not_bad hcalls (by rw [hover]; trivial)
        obtain ⟨r',hskip,hr',hread,hdelimiters⟩ := hr.skip hfirst
        refine ih r' hr' (fun calls => ?_) (by rwa [hread,hdelimiters])
        have := hcalls (.sidebands none [.fillBuf]::calls)
        rwa [run,foldlM_cons,hskip] at this
    intro hcalls n
    exact hall n _ ⟨rfl,rfl⟩ hcalls
  · intro h calls
    exact Valid.run ⟨h,.inl rfl⟩ calls

/-- `fff1`, which is one more than fits, and progress without a text. -/
theorem oversized_and_blank_lines : (Reader.new [102,102,102,49] []).run [.readLine] = none ∧
    (Reader.new [48,48,48,53,2] [.flush]).run [.sidebands (some fun _ _ => .continue) [.read 1]] = none := by
  constructor
  · have hfresh : Fresh (new [102,102,102,49] []) := ⟨rfl,rfl⟩
    obtain ⟨_,hbuf,heq⟩ := hfresh.readLine_eq
    have hframe : nextFrame [102,102,102,49]=(.oversized,[]) := by decide
    have hnone : (new [102,102,102,49] []).readLine=none := by
      rw [heq]
      exact congrArg (Option.map _) (exhaustive_oversized hbuf hframe)
    rw [run,foldlM_cons,Call.perform,hnone]
    rfl
  · have hfresh : Fresh (new [48,48,48,53,2] [.flush]) := ⟨rfl,rfl⟩
    have hbad : (nextFrame (new [48,48,48,53,2] [.flush]).read).1.Bad [.flush] := by
      exact ⟨.inl rfl,by decide⟩
    have hfill := hfresh.fillBuf_panic hbad fun _ _ => .continue
    rw [run,foldlM_cons,Call.perform,foldlM_cons,SidebandCall.perform,Sidebands.read,hfill]
    rfl

end Gix.PacketLine
