import Gix.PackEntry
import Gix.ByteCodec

/-! # Packet lines

`gix-packetline/src/`: each line starts with its length in four hexadecimal digits, three short
lengths have a meaning of their own. A line can carry a band, one for data and two for text. The
reader looks ahead by a line at most; a result of `none` is a panic, assertions of debug builds
and overflow included. -/
namespace Gix.PacketLine
open Pack (Bytes)
open ByteCodec

def maxDataLen : ℕ := 65516
def maxLineLen : ℕ := maxDataLen+4

inductive Line
  | data (d : Bytes)
  | flush | delimiter | responseEnd
deriving DecidableEq,Repr

/-- `decode::Error` -/
inductive DecodeError
  | hexDecode
  | dataLengthLimitExceeded (lengthInBytes : ℕ)
  | dataIsEmpty
  | invalidLineLength
  | notEnoughData (bytesNeeded : ℕ)
deriving DecidableEq,Repr

inductive LineOrWantedSize
  | line (l : Line)
  | wanted (n : ℕ)
deriving DecidableEq,Repr

/-! Decoding -/

def flushLine : Bytes := [48,48,48,48]
def delimiterLine : Bytes := [48,48,48,49]
def responseEndLine : Bytes := [48,48,48,50]

def hexPrefix (fourBytes : Bytes) : Option (Except DecodeError LineOrWantedSize) :=
  if fourBytes.length ≠ 4 then none
  else if fourBytes = flushLine then some (.ok (.line .flush))
  else if fourBytes = delimiterLine then some (.ok (.line .delimiter))
  else if fourBytes = responseEndLine then some (.ok (.line .responseEnd))
  else match unhex fourBytes with
    | none => some (.error .hexDecode)
    | some buf =>
      let wantedBytes := beNat buf
      if wantedBytes = 3 then some (.error .invalidLineLength)
      else if wantedBytes = 4 then some (.error .dataIsEmpty)
      else if wantedBytes ≤ 4 then none
      else some (.ok (.wanted (wantedBytes-4)))

def toDataLine (data : Bytes) : Except DecodeError Line :=
  if maxLineLen < data.length then .error (.dataLengthLimitExceeded data.length) else .ok (.data data)

inductive Stream
  | complete (line : Line) (bytesConsumed : ℕ)
  | incomplete (bytesNeeded : ℕ)
deriving DecidableEq,Repr

def streaming (data : Bytes) : Option (Except DecodeError Stream) :=
  if data.length < 4 then some (.ok (.incomplete (4-data.length)))
  else match hexPrefix (data.take 4) with
    | none => none
    | some (.error e) => some (.error e)
    | some (.ok (.line line)) => some (.ok (.complete line 4))
    | some (.ok (.wanted n)) =>
      let wantedBytes := n+4
      if maxLineLen < wantedBytes then some (.error (.dataLengthLimitExceeded wantedBytes))
      else if data.length < wantedBytes then some (.ok (.incomplete (wantedBytes-data.length)))
      else match toDataLine ((data.take wantedBytes).drop 4) with
        | .error e => some (.error e)
        | .ok line => some (.ok (.complete line wantedBytes))

/-- `decode()` -/
def allAtOnce (data : Bytes) : Option (Except DecodeError Line) :=
  match streaming data with
  | none => none
  | some (.error e) => some (.error e)
  | some (.ok (.complete line _)) => some (.ok line)
  | some (.ok (.incomplete bytesNeeded)) => some (.error (.notEnoughData bytesNeeded))

/-! Lines and their bands -/

inductive Band
  | data (d : Bytes)
  | progress (d : Bytes)
  | error (d : Bytes)
deriving DecidableEq,Repr

/-- `decode::band::Error` -/
inductive BandError
  | invalidSideBand (bandId : UInt8)
  | nonDataLine
deriving DecidableEq,Repr

namespace Line

def asSlice : Line → Option Bytes
  | data d => some d
  | flush | delimiter | responseEnd => none

def size (line : Line) : ℕ := (line.asSlice.map (·.length+4)).getD 4

def errPrefix : Bytes := [69,82,82,32]

/-- `check_error()`: the message of a line that reports an error. -/
def checkError (line : Line) : Option Bytes :=
  match line.asSlice with
  | none => none
  | some d => if errPrefix.length ≤ d.length ∧ d.take errPrefix.length = errPrefix then some (d.drop errPrefix.length) else none

def decodeBand (line : Line) : Option (Except BandError Band) :=
  match line.asSlice with
  | none => some (.error .nonDataLine)
  | some [] => none
  | some (1 :: d) => some (.ok (.data d))
  | some (2 :: d) => some (.ok (.progress d))
  | some (3 :: d) => some (.ok (.error d))
  | some (band :: _) => some (.error (.invalidSideBand band))

end Line

/-- `TextRef::from()` -/
def textRef (d : Bytes) : Option Bytes :=
  match d.getLast? with
  | none => none
  | some b => some (if b = 10 then d.dropLast else d)

/-! The reader -/

/-- `StreamingPeekableIter` -/
structure Reader where
  /-- What is still to be read. -/
  read : Bytes
  peekBuf : Bytes
  buf : Bytes
  failOnErrLines : Bool
  delimiters : List Line
  isDone : Bool
  stoppedAt : Option Line
deriving DecidableEq,Repr

/-- The errors that calls end with. -/
inductive IoError
  | unexpectedEof
  | errLine (message : Bytes)
  | decode (e : DecodeError)
  | band (e : BandError)
  | interruptedByUser
  | nonDataLine
deriving DecidableEq,Repr

abbrev LineResult := Except IoError (Except DecodeError Line)

def resize (l : Bytes) (size : ℕ) : Bytes := l.take size++List.replicate (size-l.length) 0

/-- `read_line_inner()`: the result and what is left to be read. Only if there is a line, it
matters what the buffer holds. -/
def readLineInner (read buf : Bytes) : Option (Except IoError (Except DecodeError (Line × Bytes)) × Bytes) :=
  if buf.length < 4 then none
  else if read.length < 4 then some (.error .unexpectedEof,[])
  else
    let hexBytes := read.take 4
    let read := read.drop 4
    match hexPrefix hexBytes with
    | none => none
    | some (.ok (.line line)) => some (.ok (.ok (line,hexBytes++buf.drop 4)),read)
    | some (.error e) => some (.ok (.error e),read)
    | some (.ok (.wanted numDataBytes)) =>
      if (buf.drop 4).length < numDataBytes then none
      else if read.length < numDataBytes then some (.error .unexpectedEof,[])
      else
        let dataBytes := read.take numDataBytes
        match toDataLine dataBytes with
        | .ok line => some (.ok (.ok (line,hexBytes++dataBytes++(buf.drop 4).drop numDataBytes)),read.drop numDataBytes)
        | .error e => some (.ok (.error e),read.drop numDataBytes)

/-- What `read_line_inner_exhaustive()` gives back, what is left to be read, and the buffer. -/
structure Exhaustive where
  isDone : Bool
  stoppedAt : Option Line
  result : Option LineResult
  read : Bytes
  buf : Bytes

def readLineInnerExhaustive (read buf : Bytes) (delimiters : List Line) (failOnErrLines bufResize : Bool) : Option Exhaustive :=
  match readLineInner read buf with
  | none => none
  | some (.error e,read) => some ⟨false,none,some (.error e),read,[]⟩
  | some (.ok (.error e),read) => some ⟨false,none,some (.ok (.error e)),read,[]⟩
  | some (.ok (.ok (line,buf)),read) =>
    if line ∈ delimiters then some ⟨true,some line,none,read,[]⟩
    else match (if failOnErrLines then line.checkError else none) with
      | some message => some ⟨true,none,some (.error (.errLine message)),read,[]⟩
      | none =>
        let buf := if bufResize then resize buf line.size else buf
        match allAtOnce buf with
        | some (.ok line) => some ⟨false,none,some (.ok (.ok line)),read,buf⟩
        | _ => none

namespace Reader

def new (read : Bytes) (delimiters : List Line) : Reader := ⟨read,[],List.replicate maxLineLen 0,false,delimiters,false,none⟩

def reset (r : Reader) : Reader := { r with isDone := false, stoppedAt := none }

def readLine (r : Reader) : Option (Option LineResult × Reader) :=
  if r.isDone then some (none,r)
  else if r.peekBuf ≠ [] then
    match allAtOnce r.peekBuf with
    | some (.ok line) => some (some (.ok (.ok line)),{ r with buf := r.peekBuf, peekBuf := [] })
    | _ => none
  else
    let buf := if r.buf.length ≠ maxLineLen then resize r.buf maxLineLen else r.buf
    (readLineInnerExhaustive r.read buf r.delimiters r.failOnErrLines false).map fun x =>
      (x.result,{ r with read := x.read, buf := x.buf, isDone := x.isDone, stoppedAt := x.stoppedAt })

def peekLine (r : Reader) : Option (Option LineResult × Reader) :=
  if r.isDone then some (none,r)
  else if r.peekBuf = [] then
    (readLineInnerExhaustive r.read (resize r.peekBuf maxLineLen) r.delimiters r.failOnErrLines true).map fun x =>
      (x.result,{ r with read := x.read, peekBuf := x.buf, isDone := x.isDone, stoppedAt := x.stoppedAt })
  else match allAtOnce r.peekBuf with
    | some (.ok line) => some (some (.ok (.ok line)),r)
    | _ => none

end Reader

/-! Side bands -/

inductive ProgressAction | continue | interrupt deriving DecidableEq,Repr

/-- What a handler does may depend on all that it was called with before. -/
abbrev Handler := List (Bool × Bytes) → Bool × Bytes → ProgressAction

/-- `WithSidebands`, and what its handler was called with. -/
structure Sidebands where
  parent : Reader
  handleProgress : Option Handler
  pos : ℕ
  cap : ℕ
  calls : List (Bool × Bytes)

namespace Sidebands

/-- `with_progress_handler()` and `without_progress_handler()` -/
def new (parent : Reader) (handleProgress : Option Handler) : Sidebands := ⟨parent,handleProgress,0,0,[]⟩

/-- One iteration of the loop of `fill_buf()`: where the data is, if it is there. -/
def fillStep (s : Sidebands) : Option (Except IoError (Option (ℕ × ℕ)) × Sidebands) :=
  match s.parent.readLine with
  | none => none
  | some (none,parent) => some (.ok (some (0,0)),{ s with parent := parent })
  | some (some (.error e),parent) => some (.error e,{ s with parent := parent })
  | some (some (.ok (.error e)),parent) => some (.error (.decode e),{ s with parent := parent })
  | some (some (.ok (.ok line)),parent) =>
    let s := { s with parent := parent }
    match s.handleProgress with
    | none => match line.asSlice with
      | some d => some (.ok (some (4,d.length)),s)
      | none => some (.error .nonDataLine,s)
    | some handleProgress =>
      let text (isError : Bool) (d : Bytes) : Option (Except IoError (Option (ℕ × ℕ)) × Sidebands) :=
        match textRef d with
        | none => none
        | some text =>
          let called := { s with calls := s.calls++[(isError,text)] }
          match handleProgress s.calls (isError,text) with
          | .continue => some (.ok none,called)
          | .interrupt => some (.error .interruptedByUser,called)
      match line.decodeBand with
      | none => none
      | some (.error e) => some (.error (.band e),s)
      | some (.ok (.data d)) => if d = [] then some (.ok none,s) else some (.ok (some (4+1,d.length)),s)
      | some (.ok (.progress d)) => text false d
      | some (.ok (.error d)) => text true d

/-- The loop of `fill_buf()`; each iteration but the last one takes a line. -/
def fillLoop : ℕ → Sidebands → Option (Except IoError (ℕ × ℕ) × Sidebands)
  | 0, _ => none
  | n+1, s => match s.fillStep with
    | none => none
    | some (.error e,s) => some (.error e,s)
    | some (.ok (some window),s) => some (.ok window,s)
    | some (.ok none,s) => fillLoop n s

def window (s : Sidebands) : Option Bytes :=
  if s.pos ≤ s.cap ∧ s.cap ≤ s.parent.buf.length then some ((s.parent.buf.take s.cap).drop s.pos) else none

def fillBuf (s : Sidebands) : Option (Except IoError Bytes × Sidebands) :=
  if s.cap ≤ s.pos then
    match fillLoop (s.parent.read.length+s.parent.peekBuf.length+1) s with
    | none => none
    | some (.error e,s) => some (.error e,s)
    | some (.ok (ofs,cap),s) =>
      let s := { s with cap := cap+ofs, pos := ofs }
      s.window.map fun d => (.ok d,s)
  else s.window.map fun d => (.ok d,s)

def consume (s : Sidebands) (amt : ℕ) : Sidebands := { s with pos := min (s.pos+amt) s.cap }

/-- `read()` to a buffer of the given size: the bytes it then starts with. -/
def read (s : Sidebands) (size : ℕ) : Option (Except IoError Bytes × Sidebands) :=
  match s.fillBuf with
  | none => none
  | some (.error e,s) => some (.error e,s)
  | some (.ok rem,s) => some (.ok (rem.take size),s.consume (rem.take size).length)

end Sidebands

/-! Writing -/

inductive Channel | data | progress | error deriving DecidableEq,Repr

def Channel.id : Channel → UInt8
  | data => 1
  | progress => 2
  | error => 3

/-- `encode::Error` -/
inductive EncodeError
  | dataLengthLimitExceeded (lengthInBytes : ℕ)
  | dataIsEmpty
deriving DecidableEq,Repr

def u16ToHex (value : ℕ) : Bytes := hex (beBytes 2 value)

def prefixedAndSuffixedDataToWrite (front data back : Bytes) : Except EncodeError Bytes :=
  let dataLen := front.length+data.length+back.length
  if maxDataLen < dataLen then .error (.dataLengthLimitExceeded dataLen)
  else if data = [] then .error .dataIsEmpty
  else .ok (u16ToHex (dataLen+4)++front++data++back)

def bandToWrite (kind : Channel) (data : Bytes) : Except EncodeError Bytes := prefixedAndSuffixedDataToWrite [kind.id] data []

end Gix.PacketLine
