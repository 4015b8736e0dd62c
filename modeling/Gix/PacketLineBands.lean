import Gix.PacketLineSafety

/-! # Side bands

Messages on three bands are written one behind the other and closed by a flush. Who reads through
`WithSidebands` gets the data alone, in pieces of any size, while the texts go to the handler. -/
namespace Gix.PacketLine
open List Sidebands
open Pack (Bytes)
open ByteCodec

structure Message where
  kind : Channel
  payload : Bytes
deriving DecidableEq,Repr

namespace Message

/-- What is written; nothing if there is an error. -/
def written (m : Message) : Bytes :=
  match bandToWrite m.kind m.payload with
  | .ok b => b
  | .error _ => []

def data (m : Message) : Bytes := if m.kind = .data then m.payload else []

def trimmed (d : Bytes) : Bytes := if d.getLast? = some 10 then d.dropLast else d

def text (m : Message) : List (Bool × Bytes) :=
  match m.kind with
  | .data => []
  | .progress => [(false,trimmed m.payload)]
  | .error => [(true,trimmed m.payload)]

def line (m : Message) : Line := .data (m.kind.id :: m.payload)

end Message

/-- All messages fit, and texts are not empty. -/
structure Sendable (delimiters : List Line) (m : Message) : Prop where
  fits : m.payload.length+1 ≤ maxDataLen
  text : m.kind ≠ .data → m.payload ≠ []
  line : m.line ∉ delimiters

/-! The stream -/

theorem hexPrefix_u16ToHex {n : ℕ} (h : 4 < n) (hmax : n < 2^16) : hexPrefix (u16ToHex n)=some (.ok (.wanted (n-4))) := by
  have hlen : (u16ToHex n).length=4 := by rw [u16ToHex,hex_length,beBytes_length]
  have hunhex : unhex (u16ToHex n)=some (beBytes 2 n) := unhex_hex _
  have hval : beNat (beBytes 2 n)=n := beNat_beBytes (by omega)
  have hne : ∀ k ≤ 4,u16ToHex n≠u16ToHex k := by
    intro k hk heq
    have hsame := heq ▸ hunhex
    rw [u16ToHex,unhex_hex,Option.some.injEq] at hsame
    have := beNat_beBytes (w := 2) (n := k) (by omega)
    rw [hsame] at this
    omega
  have hflush : u16ToHex n≠flushLine := hne 0 (by omega)
  have hdelimiter : u16ToHex n≠delimiterLine := hne 1 (by omega)
  have hend : u16ToHex n≠responseEndLine := hne 2 (by omega)
  rw [hexPrefix,if_neg (not_not.mpr hlen),if_neg hflush,if_neg hdelimiter,if_neg hend,hunhex]
  simp only [hval]
  rw [if_neg (by omega),if_neg (by omega),if_neg (by omega)]

variable {m : Message} {r : Reader} {rest data : Bytes} {s : Sidebands} {texts : List (Bool × Bytes)}

open Message

section
variable (hfits : m.payload.length+1 ≤ maxDataLen) (hne : m.payload≠[])
include hfits hne

theorem written_eq :
    m.written=u16ToHex (m.payload.length+5)++m.kind.id::m.payload := by
  have hlen : [m.kind.id].length+m.payload.length+([] : Bytes).length=m.payload.length+1 := by simp [Nat.add_comm]
  simp only [written,bandToWrite,prefixedAndSuffixedDataToWrite,hlen,if_neg (Nat.not_lt.mpr hfits),if_neg hne]
  simp

theorem nextFrame_message (rest : Bytes) :
    nextFrame (m.written++rest)=(.line m.line,rest) := by
  have hlen : (u16ToHex (m.payload.length+5)).length=4 := by rw [u16ToHex,hex_length,beBytes_length]
  have hmax : maxDataLen=65516 := rfl
  have hhex := hexPrefix_u16ToHex (n := m.payload.length+5) (by omega) (by omega)
  rw [written_eq hfits hne,nextFrame,append_assoc,if_neg (by rw [length_append]; omega),take_left' hlen,hhex]
  simp only [drop_left' hlen,show m.payload.length+5-4=(m.kind.id::m.payload).length by simp]
  rw [if_neg (by simp only [length_cons]; omega),if_neg (by simp),take_left,drop_left]
  rfl

end

theorem written_nil (h : m.payload=[]) : m.written=[] := by
  simp only [written,bandToWrite,prefixedAndSuffixedDataToWrite]
  split
  · rename_i b hb
    split_ifs at hb
  · rfl

/-! Looking for data -/

theorem checkError_message (m : Message) : m.line.checkError=none := by
  have hid : m.kind.id≠69 := by cases m.kind <;> decide
  have hne : ¬ (m.kind.id::m.payload).take 4=Line.errPrefix := by
    intro heq
    exact hid (cons.inj heq).1
  simp only [Line.checkError,line,Line.asSlice]
  rw [if_neg fun h => hne h.2]

theorem Fresh.readLine_message (h : Fresh r) (hm : Sendable r.delimiters m) (hne : m.payload≠[])
    (hread : r.read=m.written++rest) :
    ∃ r',r.readLine=some (some (.ok (.ok m.line)),r') ∧ Fresh r' ∧ r'.read=rest ∧ r'.delimiters=r.delimiters ∧ Holds r'.buf m.line := by
  obtain ⟨buf,hbuf,heq⟩ := h.readLine_eq
  have hframe := nextFrame_message hm.fits hne rest
  rw [← hread] at hframe
  have herr : (if r.failOnErrLines then m.line.checkError else none)=none := by rw [checkError_message,ite_self]
  obtain ⟨_,hx,hkept⟩ := exhaustive_eq r.failOnErrLines false hbuf hframe (by simp)
  rw [outcome_line hm.line herr] at hx hkept
  rw [heq,hx]
  exact ⟨_,rfl,⟨rfl,h.peekBuf⟩,rfl,rfl,hkept⟩

theorem Fresh.readLine_flush (h : Fresh r) (hflush : .flush∈r.delimiters) (hread : r.read=flushLine++rest) :
    ∃ r',r.readLine=some (none,r') ∧ r'.isDone=true ∧ r'.read=rest := by
  obtain ⟨_,hbuf,heq⟩ := h.readLine_eq
  have hlen : flushLine.length=4 := rfl
  have hframe : nextFrame r.read=(.line .flush,rest) := by
    rw [hread]
    rfl
  obtain ⟨_,hx,-⟩ := exhaustive_eq r.failOnErrLines false hbuf hframe (by simp)
  rw [heq,hx,outcome_delimiter hflush]
  exact ⟨_,rfl,rfl,rfl⟩

theorem textRef_trimmed {d : Bytes} (h : d≠[]) : textRef d=some (trimmed d) := by
  unfold textRef trimmed
  cases hlast : d.getLast? with
  | none => exact absurd (getLast?_eq_none_iff.mp hlast) h
  | some b => simp

variable {handleProgress : Handler} (hcontinue : ∀ calls call, handleProgress calls call = .continue)

def wire (msgs : List Message) : Bytes := msgs.flatMap Message.written

def dataOf (msgs : List Message) : Bytes := msgs.flatMap Message.data

def textsOf (msgs : List Message) : List (Bool × Bytes) := msgs.flatMap Message.text

/-- A reader in front of messages. -/
structure Ahead (r : Reader) (msgs : List Message) (rest : Bytes) : Prop extends Fresh r where
  flush : .flush ∈ r.delimiters
  read : r.read = wire msgs++(flushLine++rest)
  sendable : ∀ m ∈ msgs, Sendable r.delimiters m

/-- A reader behind the flush. -/
structure Behind (r : Reader) (rest : Bytes) : Prop where
  isDone : r.isDone = true
  read : r.read = rest

include hcontinue in
/-- The loop stops at the next piece of data, or behind the flush. -/
theorem Ahead.fillLoop {msgs : List Message} (h : Ahead s.parent msgs rest)
    (hs : s.handleProgress=some handleProgress) {n : ℕ} (hn : s.parent.read.length < n) :
    (∃ skipped m msgs' s',msgs=skipped++m::msgs' ∧ dataOf skipped=[] ∧ m.kind = .data ∧ m.payload≠[] ∧ Ahead s'.parent msgs' rest ∧
      s'.handleProgress=some handleProgress ∧ Holds s'.parent.buf m.line ∧ s'.calls=s.calls++textsOf skipped ∧
      fillLoop n s=some (.ok (5,m.payload.length),s')) ∨
    ∃ s',dataOf msgs=[] ∧ Behind s'.parent rest ∧ s'.handleProgress=some handleProgress ∧ s'.calls=s.calls++textsOf msgs ∧
      fillLoop n s=some (.ok (0,0),s') := by
  induction msgs generalizing s n with
  | nil =>
    obtain ⟨r,hread,hdone,hrest⟩ := h.toFresh.readLine_flush h.flush h.read
    obtain ⟨n,rfl⟩ : ∃ k,n=k+1 := ⟨n-1,by omega⟩
    refine .inr ⟨{ s with parent := r },rfl,⟨hdone,hrest⟩,hs,by simp [textsOf],?_⟩
    simp [fillLoop,fillStep,hread]
  | cons m msgs ih =>
    obtain ⟨hm,hmsgs⟩ := forall_mem_cons.mp h.sendable
    by_cases hne : m.payload=[]
    · -- nothing was written for this message
      have hkind : m.kind = .data := by
        by_contra hkind
        exact hm.text hkind hne
      have hread : s.parent.read=wire msgs++(flushLine++rest) := by
        rw [h.read,wire,flatMap_cons,written_nil hne]
        rfl
      have hdata : m.data=[] := by rw [data,if_pos hkind,hne]
      have htext : m.text=[] := by simp [text,hkind]
      obtain ⟨skipped,m',msgs',s',rfl,hskip,hrest⟩ | ⟨s',hskip,hbehind,hhandler,hcalls,hloop⟩ := ih ⟨h.toFresh,h.flush,hread,hmsgs⟩ hs hn
      · refine .inl ⟨m::skipped,m',msgs',s',rfl,?_,?_⟩
        · rw [dataOf,flatMap_cons,hdata]
          exact hskip
        · simpa [textsOf,htext] using hrest
      · refine .inr ⟨s',?_,hbehind,hhandler,?_,hloop⟩
        · rw [dataOf,flatMap_cons,hdata]
          exact hskip
        · simpa [textsOf,htext] using hcalls
    · have hread : s.parent.read=m.written++(wire msgs++(flushLine++rest)) := by
        rw [h.read,wire,flatMap_cons,append_assoc]
        rfl
      obtain ⟨r,hline,hfresh,hrest,hdelimiters,hholds⟩ := h.toFresh.readLine_message hm hne hread
      have hahead : Ahead r msgs rest := ⟨hfresh,hdelimiters ▸ h.flush,hrest,hdelimiters ▸ hmsgs⟩
      obtain ⟨n,rfl⟩ : ∃ k,n=k+1 := ⟨n-1,by omega⟩
      by_cases hkind : m.kind = .data
      · refine .inl ⟨[],m,msgs,{ s with parent := r },rfl,rfl,hkind,hne,hahead,hs,hholds,by simp [textsOf],?_⟩
        obtain ⟨kind,payload⟩ := m
        obtain rfl : kind = .data := hkind
        simp [fillLoop,fillStep,hline,hs,line,Channel.id,Line.decodeBand,Line.asSlice,if_neg hne]
      · have hstep : s.fillStep=some (.ok none,{ s with parent := r,calls := s.calls++m.text }) := by
          obtain ⟨kind,payload⟩ := m
          cases kind with
          | data => exact absurd rfl hkind
          | progress =>
            simp only [fillStep,hline,hs,line,Channel.id,Line.decodeBand,Line.asSlice,textRef_trimmed hne,hcontinue]
            rfl
          | error =>
            simp only [fillStep,hline,hs,line,Channel.id,Line.decodeBand,Line.asSlice,textRef_trimmed hne,hcontinue]
            rfl
        have hdata : m.data=[] := by rw [data,if_neg hkind]
        have hless : r.read.length < n := by
          rw [hread,written_eq hm.fits hne,← hrest] at hn
          simp only [length_append,length_cons] at hn
          omega
        obtain ⟨skipped,m',msgs',s',rfl,hskip,hk,hp,ha,hh,hb,hcalls,hloop⟩ | ⟨s',hskip,hbehind,hhandler,hcalls,hloop⟩ :=
          ih (s := { s with parent := r,calls := s.calls++m.text }) hahead hs hless
        · refine .inl ⟨m::skipped,m',msgs',s',rfl,?_,hk,hp,ha,hh,hb,?_,?_⟩
          · rw [dataOf,flatMap_cons,hdata]
            exact hskip
          · rw [hcalls,textsOf,textsOf,flatMap_cons,append_assoc]
          · simp [fillLoop,hstep,hloop]
        · refine .inr ⟨s',?_,hbehind,hhandler,?_,?_⟩
          · rw [dataOf,flatMap_cons,hdata]
            exact hskip
          · rw [hcalls,textsOf,textsOf,flatMap_cons,append_assoc]
          · simp [fillLoop,hstep,hloop]

/-! Reading -/

/-- What is left of a line in the buffer. -/
def Window (s : Sidebands) (w : Bytes) : Prop :=
  w = [] ∧ s.cap ≤ s.pos ∨ s.pos < s.cap ∧ s.cap ≤ s.parent.buf.length ∧ (s.parent.buf.take s.cap).drop s.pos = w

/-- Data and texts that are still to come. -/
def Pending (handleProgress : Handler) (rest : Bytes) (s : Sidebands) (data : Bytes) (texts : List (Bool × Bytes)) : Prop :=
  s.handleProgress = some handleProgress ∧
    ((∃ w msgs, Window s w ∧ Ahead s.parent msgs rest ∧ data = w++dataOf msgs ∧ texts = textsOf msgs) ∨
      s.cap ≤ s.pos ∧ Behind s.parent rest ∧ data = [] ∧ texts = [])

theorem Window.consume {w : Bytes} (h : Window s w) (size : ℕ) :
    Window (s.consume (w.take size).length) (w.drop size) := by
  rcases h with ⟨rfl,_⟩ | ⟨_,hle,rfl⟩
  · refine .inl ⟨drop_nil,?_⟩
    simp only [Sidebands.consume]
    omega
  · have hlen : ((s.parent.buf.take s.cap).drop s.pos).length=s.cap-s.pos := by
      rw [length_drop,length_take_of_le hle]
    simp only [Window,Sidebands.consume,length_take]
    by_cases hall : s.cap-s.pos ≤ size
    · refine .inl ⟨drop_eq_nil_of_le (by omega),by omega⟩
    · refine .inr ⟨by omega,hle,?_⟩
      rw [drop_drop]
      congr 1
      omega

variable (h : Pending handleProgress rest s data texts)
include h

include hcontinue in
/-- One call: a piece of the data that is still to come. There is none only if it is all read. -/
theorem Pending.fillBuf :
    ∃ w s' data' called texts',s.fillBuf=some (.ok w,s') ∧ Window s' w ∧ data=w++data' ∧ texts=called++texts' ∧
      s'.calls=s.calls++called ∧ s'.handleProgress=some handleProgress ∧
      ((w≠[] ∧ ∃ msgs,Ahead s'.parent msgs rest ∧ data'=dataOf msgs ∧ texts'=textsOf msgs) ∨
        w=[] ∧ s'.cap ≤ s'.pos ∧ Behind s'.parent rest ∧ data'=[] ∧ texts'=[]) ∧ (s.parent.isDone=true → w=[]) := by
  obtain ⟨hs,⟨w,msgs,hwindow,hahead,rfl,rfl⟩ | ⟨hcap,hbehind,rfl,rfl⟩⟩ := h
  · have hopen : ∀ w : Bytes,s.parent.isDone=true → w=[] := fun w hdone => by simp [hahead.notDone] at hdone
    rcases hwindow with ⟨rfl,hcap⟩ | ⟨hlt,hle,rfl⟩
    · unfold fillBuf
      rw [if_pos hcap]
      have hfuel : s.parent.read.length < s.parent.read.length+s.parent.peekBuf.length+1 := by omega
      obtain ⟨skipped,m,msgs',s',rfl,hskip,hkind,hne,hahead',hs',hholds,hcalls,hloop⟩ | ⟨s',hskip,hbehind,hs',hcalls,hloop⟩ :=
        hahead.fillLoop hcontinue hs hfuel
      · have hroom := hholds.room
        have hpayload := (hholds.payload _ rfl).1
        have hwin : (s'.parent.buf.take (m.payload.length+5)).drop 5=m.payload := by
          have htail := congrArg (drop 1) hpayload
          rw [drop_take,drop_drop] at htail
          rw [drop_take]
          exact htail
        rw [hloop]
        simp only [window]
        rw [if_pos ⟨Nat.le_add_left _ _,hroom⟩,hwin]
        refine ⟨m.payload,_,dataOf msgs',textsOf skipped,textsOf msgs',rfl,?_,?_,?_,hcalls,hs',.inl ⟨hne,msgs',hahead',rfl,rfl⟩,hopen _⟩
        · have := length_pos_iff.mpr hne
          exact .inr ⟨by simp only; omega,hroom,hwin⟩
        · rw [dataOf,flatMap_append,← dataOf,hskip,flatMap_cons,data,if_pos hkind]
          rfl
        · have htext : m.text=[] := by simp [text,hkind]
          rw [textsOf,flatMap_append,flatMap_cons,htext]
          rfl
      · rw [hloop]
        simp only [window]
        exact ⟨[],{ s' with cap := 0,pos := 0 },[],textsOf msgs,[],by simp,.inl ⟨rfl,Nat.le_refl 0⟩,by simp [hskip],by simp,hcalls,hs',
          .inr ⟨rfl,Nat.le_refl 0,hbehind,rfl,rfl⟩,hopen _⟩
    · unfold fillBuf
      rw [if_neg (by omega),window,if_pos ⟨by omega,hle⟩]
      refine ⟨_,s,dataOf msgs,[],textsOf msgs,rfl,.inr ⟨hlt,hle,rfl⟩,rfl,rfl,by simp,hs,.inl ⟨?_,msgs,hahead,rfl,rfl⟩,hopen _⟩
      rw [← length_pos_iff,length_drop,length_take_of_le hle]
      omega
  · unfold fillBuf
    have hread : s.parent.readLine=some (none,s.parent) := by rw [Reader.readLine,if_pos hbehind.isDone]
    rw [if_pos hcap]
    simp only [fillLoop,fillStep,hread,window]
    exact ⟨[],{ s with cap := 0,pos := 0 },[],[],[],by simp,.inl ⟨rfl,Nat.le_refl 0⟩,rfl,rfl,by simp,hs,
      .inr ⟨rfl,Nat.le_refl 0,hbehind,rfl,rfl⟩,fun _ => rfl⟩

include hcontinue in
/-- One call to read: there is no data only behind the flush, after all texts were handed over. -/
theorem Pending.read {size : ℕ} (hsize : 0 < size) :
    ∃ out s' data' called texts',s.read size=some (.ok out,s') ∧ Pending handleProgress rest s' data' texts' ∧ data=out++data' ∧
      texts=called++texts' ∧ s'.calls=s.calls++called ∧ (out=[] → data'=[] ∧ texts'=[] ∧ Behind s'.parent rest) ∧
      (Behind s.parent rest → Behind s'.parent rest) := by
  obtain ⟨w,s1,data',called,texts',hfill,hwindow,rfl,rfl,hcalls,hs,hcase,hdone⟩ := h.fillBuf hcontinue
  rw [Sidebands.read,hfill]
  have hconsumed := hwindow.consume size
  rcases hcase with ⟨hne,msgs,hahead,rfl,rfl⟩ | ⟨rfl,_,hbehind,rfl,rfl⟩
  · refine ⟨w.take size,_,w.drop size++dataOf msgs,called,textsOf msgs,rfl,⟨hs,.inl ⟨_,msgs,hconsumed,hahead,rfl,rfl⟩⟩,?_,rfl,hcalls,?_,?_⟩
    · rw [← append_assoc,take_append_drop]
    · intro hnil
      rcases take_eq_nil_iff.mp hnil with _ | hnil
      · omega
      · exact absurd hnil hne
    · intro hbehind
      exact absurd (hdone hbehind.isDone) hne
  · refine ⟨[],s1.consume 0,[],called,[],by simp only [take_nil,length_nil],⟨hs,.inr ⟨?_,hbehind,rfl,rfl⟩⟩,rfl,rfl,hcalls,
      fun _ => ⟨rfl,rfl,hbehind⟩,fun _ => hbehind⟩
    simp only [Sidebands.consume]
    omega

/-- Calls to read, one after the other, each with the size of its buffer. -/
def Sidebands.readAll : List ℕ → Sidebands → Option (List (Except IoError Bytes) × Sidebands)
  | [], s => some ([],s)
  | size :: sizes, s => do
    let (out,s) ← s.read size
    let (outs,s) ← readAll sizes s
    return (out :: outs,s)

/-- How far the calls got. -/
structure Demultiplexed (rest data : Bytes) (texts called : List (Bool × Bytes)) (sizes : List ℕ) (outs : List Bytes) (read : Bytes) : Prop where
  inOrder : outs.flatten <+: data
  handled : called <+: texts
  behind : rest <:+ read
  endOfFile : [] ∈ outs → outs.flatten = data ∧ called = texts ∧ read = rest
  stays : outs.Pairwise (fun a b => a = [] → b = [])
  reached : data.length < sizes.length → [] ∈ outs

theorem Pending.rest_suffix : rest <:+ s.parent.read := by
  obtain ⟨-,⟨_,_,-,hahead,-,-⟩ | ⟨-,hbehind,-,-⟩⟩ := h
  · rw [hahead.read,← append_assoc]
    exact suffix_append _ _
  · rw [hbehind.read]

include hcontinue in
theorem Pending.readAll {sizes : List ℕ}
    (hsizes : ∀ size∈sizes,0 < size) :
    ∃ outs s' called,s.readAll sizes=some (outs.map .ok,s') ∧ s'.calls=s.calls++called ∧
      Demultiplexed rest data texts called sizes outs s'.parent.read ∧ (Behind s.parent rest → Behind s'.parent rest) := by
  induction sizes generalizing s data texts with
  | nil =>
    exact ⟨[],s,[],rfl,by simp,⟨by simp, nil_prefix,h.rest_suffix,by simp,.nil,by simp⟩,id⟩
  | cons size sizes ih =>
    obtain ⟨hsize,hsizes⟩ := forall_mem_cons.mp hsizes
    obtain ⟨out,_,_,called,_,hread,hpending,rfl,rfl,hcalls,hend,hbehind⟩ := h.read hcontinue hsize
    obtain ⟨outs,s2,called',hall,hcalls',hd,hbehind'⟩ := ih hpending hsizes
    refine ⟨out::outs,s2,called++called',?_,?_,?_,hbehind' ∘ hbehind⟩
    · simp only [Sidebands.readAll,hread,hall,bind,Option.bind,pure,map_cons]
    · rw [hcalls',hcalls,append_assoc]
    · refine ⟨?_,?_,hd.behind,?_,?_,?_⟩
      · exact prefix_append_right_inj out |>.mpr hd.inOrder
      · exact prefix_append_right_inj called |>.mpr hd.handled
      · intro hmem
        rcases mem_cons.mp hmem with heq | hmem
        · obtain ⟨rfl,rfl,hdone⟩ := hend heq.symm
          rw [flatten_cons,prefix_nil.mp hd.inOrder,prefix_nil.mp hd.handled]
          exact ⟨rfl,rfl,(hbehind' hdone).read⟩
        · obtain ⟨hdata,hcalled,hrest⟩ := hd.endOfFile hmem
          exact ⟨by rw [flatten_cons,hdata],by rw [hcalled],hrest⟩
      · refine pairwise_cons.mpr ⟨fun b hb hnil => ?_,hd.stays⟩
        obtain ⟨rfl,-,-⟩ := hend hnil
        have hnone := prefix_nil.mp hd.inOrder
        exact flatten_eq_nil_iff.mp hnone b hb
      · intro hlt
        by_cases hnil : out=[]
        · exact mem_cons.mpr (.inl hnil.symm)
        · refine mem_cons_of_mem _ (hd.reached ?_)
          have := length_pos_iff.mpr hnil
          simp only [length_append,length_cons] at hlt
          omega

omit h

/-- Reading in pieces of any size gives the data, and the handler gets the texts; nothing behind the flush is read. -/
theorem sidebands_demultiplexed (msgs : List Message) (delimiters : List Line) (handleProgress : Handler) (rest : Bytes) (failOnErrLines : Bool)
    (hcontinue : ∀ calls call, handleProgress calls call = .continue) (hflush : .flush ∈ delimiters)
    (hmsgs : ∀ m ∈ msgs, Sendable delimiters m) (sizes : List ℕ) (hsizes : ∀ size ∈ sizes, 0 < size) :
    ∃ outs s, (Sidebands.new { Reader.new (wire msgs++(flushLine++rest)) delimiters with failOnErrLines := failOnErrLines }
        (some handleProgress)).readAll sizes=some (outs.map .ok,s) ∧
      Demultiplexed rest (dataOf msgs) (textsOf msgs) s.calls sizes outs s.parent.read := by
  have hpending : Pending handleProgress rest (Sidebands.new
      { Reader.new (wire msgs++(flushLine++rest)) delimiters with failOnErrLines := failOnErrLines } (some handleProgress))
      (dataOf msgs) (textsOf msgs) :=
    ⟨rfl,.inl ⟨[],msgs,.inl ⟨rfl,Nat.le_refl 0⟩,⟨⟨rfl,rfl⟩,hflush,rfl,hmsgs⟩,rfl,rfl⟩⟩
  obtain ⟨outs,s,_,hall,hcalls,_,-⟩ := hpending.readAll hcontinue hsizes
  refine ⟨outs,s,hall,?_⟩
  rwa [hcalls]

def threeMessages : List Message := [⟨.data,[1,2]⟩,⟨.progress,[65,10]⟩,⟨.data,[3]⟩]

theorem sidebands_demultiplexed_three : ∃ (outs : List Bytes) (s : Sidebands),
    (Sidebands.new { Reader.new (wire threeMessages++(flushLine++[9])) [.flush] with failOnErrLines := false }
        (some fun _ _ => .continue)).readAll [1,4,1,1]=some (outs.map .ok,s) ∧
      []∈outs ∧ outs.flatten=[1,2,3] ∧ s.calls=[(false,[65])] ∧ s.parent.read=[9] := by
  have hsendable : ∀ m∈threeMessages, Sendable [.flush] m := by
    intro m hm
    have hcases : m=⟨.data,[1,2]⟩ ∨ m=⟨.progress,[65,10]⟩ ∨ m=⟨.data,[3]⟩ := by simpa [threeMessages] using hm
    rcases hcases with rfl | rfl | rfl <;> exact ⟨by decide,by decide,by decide⟩
  obtain ⟨outs,s,hall,hd⟩ := sidebands_demultiplexed threeMessages [.flush] (fun _ _ => .continue) [9] false (fun _ _ => rfl)
    (by decide) hsendable [1,4,1,1] (by decide)
  have hend := hd.reached (by decide)
  obtain ⟨hdata,hcalls,hread⟩ := hd.endOfFile hend
  exact ⟨outs,s,hall,hend,hdata,hcalls,hread⟩

end Gix.PacketLine
