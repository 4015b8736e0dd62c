import Gix.PackEntry
import Gix.Signature

/-! # Commit objects

`gix-object/src/commit/`, `gix-object/src/encode.rs` and `gix-object/src/parse.rs`: how commits
are written and read. Parse errors say no more than that there is one. -/
namespace Gix.CommitObject
open Gix.Pack Gix.Actor ByteCodec ByteParser List

structure Commit where
  tree : ObjectId
  parents : List ObjectId
  author : Signature
  committer : Signature
  encoding : Option Bytes
  message : Bytes
  extraHeaders : List (Bytes × Bytes)
deriving DecidableEq,Repr

/-- A commit with its ids in hexadecimal digits. -/
structure CommitRef where
  tree : Bytes
  parents : List Bytes
  author : Signature
  committer : Signature
  encoding : Option Bytes
  message : Bytes
  extraHeaders : List (Bytes × Bytes)
deriving DecidableEq,Repr

def treeToken : Bytes := [116,114,101,101]
def parentToken : Bytes := [112,97,114,101,110,116]
def authorToken : Bytes := [97,117,116,104,111,114]
def committerToken : Bytes := [99,111,109,109,105,116,116,101,114]
def encodingToken : Bytes := [101,110,99,111,100,105,110,103]

/-! Writing -/

inductive WriteError
  | signature (e : Actor.WriteError)
  | newlineInHeaderValue (value : Bytes)
  | emptyValue
deriving DecidableEq,Repr

def trustedHeaderField (name value : Bytes) : Bytes := name++32 :: (value++[10])

def trustedHeaderId (name : Bytes) (id : ObjectId) : Bytes := trustedHeaderField name (hex id.toList)

def trustedHeaderSignature (name : Bytes) (s : Signature) : Except WriteError Bytes :=
  match s.writeTo with
  | .error e => .error (.signature e)
  | .ok value => .ok (trustedHeaderField name value)

def headerField (name value : Bytes) : Except WriteError Bytes :=
  if value.isEmpty then .error .emptyValue
  else if 10 ∈ value then .error (.newlineInHeaderValue value)
  else .ok (trustedHeaderField name value)

def continuation (lines : List Bytes) : Bytes := lines.flatMap (fun line => 32 :: (line++[10]))

def headerFieldMultiLine (name value : Bytes) : Except WriteError Bytes :=
  match value.splitOn 10 with
  | [] => .error .emptyValue
  | line :: lines => .ok (trustedHeaderField name line++continuation lines)

def encodingField : Option Bytes → Except WriteError Bytes
  | none => .ok []
  | some encoding => headerField encodingToken encoding

def Commit.writeTo (c : Commit) : Except WriteError Bytes := do
  let author ← trustedHeaderSignature authorToken c.author
  let committer ← trustedHeaderSignature committerToken c.committer
  let encoding ← encodingField c.encoding
  let extra ← c.extraHeaders.mapM (fun h => headerFieldMultiLine h.1 h.2)
  return trustedHeaderId treeToken c.tree++(c.parents.flatMap (trustedHeaderId parentToken)++
    (author++(committer++(encoding++(extra.flatten++10 :: c.message)))))

/-! Reading -/

def isHexDigitLc (b : UInt8) : Bool := 48 ≤ b && b ≤ 57 || 97 ≤ b && b ≤ 102

def hexHash : Parser Bytes := takeWhile 40 (some 40) isHexDigitLc

/-- `header_field()` of `parse` -/
def parseHeaderField {α : Type} (name : Bytes) (parseValue : Parser α) : Parser α := do
  literal name
  literal [32]
  let value ← parseValue
  literal [10]
  return value

def anyHeaderField {α : Type} (parseValue : Parser α) : Parser (Bytes × α) := do
  let name ← takeTill 1 [32,10]
  literal [32]
  let value ← parseValue
  literal [10]
  return (name,value)

def continuationLine : Parser Unit := do
  literal [32]
  let _ ← takeUntil 10
  literal [10]

/-- Lines put together again, without the first byte of all but the first one. -/
def joinLines : List Bytes → Bytes
  | [] => []
  | line :: lines => line++lines.flatMap (fun line => 10 :: line.drop 1)

def anyHeaderFieldMultiLine : Parser (Bytes × Bytes) := do
  let name ← takeTill 1 [32,10]
  literal [32]
  let value ← recognize (do
    let _ ← takeTill 1 [10]
    literal [10]
    many1 continuationLine)
  return (name,joinLines (lines value))

def message : Parser Bytes := fun i =>
  if i.isEmpty then .error .backtrack else (do literal [10]; rest : Parser Bytes) i

def extraHeader : Parser (Bytes × Bytes) := alt anyHeaderFieldMultiLine (anyHeaderField (takeTill 1 [10]))

def commit : Parser CommitRef := do
  let tree ← parseHeaderField treeToken hexHash
  let parents ← many (parseHeaderField parentToken hexHash)
  let author ← parseHeaderField authorToken Actor.decode
  let committer ← parseHeaderField committerToken Actor.decode
  let encoding ← opt (parseHeaderField encodingToken (takeTill 1 [10]))
  let extraHeaders ← many extraHeader
  let message ← message
  eof
  return ⟨tree,parents,author,committer,encoding,message,extraHeaders⟩

def CommitRef.fromBytes (data : Bytes) : Option CommitRef := (commit data).toOption.map Prod.fst

def fromHex (buffer : Bytes) : Option ObjectId :=
  if buffer.length = 40 then (unhex buffer).bind ObjectId.fromBytes else none

/-- `Commit::from(CommitRef)`, which panics if ids are invalid. -/
def CommitRef.toCommit (c : CommitRef) : Option Commit := do
  let tree ← fromHex c.tree
  let parents ← c.parents.mapM fromHex
  return ⟨tree,parents,c.author,c.committer,c.encoding,c.message,c.extraHeaders⟩

/-! What the header lines are read as -/

variable {rest : Bytes} {α : Type}

theorem parseHeaderField_eq {name text : Bytes} {p : Parser α} {a : α} (h : p (text++10::rest) = .ok (a,10::rest)) :
    parseHeaderField name p (trustedHeaderField name text++rest) = .ok (a,rest) := by
  simp only [trustedHeaderField,append_assoc,cons_append,nil_append,parseHeaderField]
  rw [bind_ok (literal_append name _),bind_ok (literal_singleton 32 _),bind_ok h]
  rfl

theorem hexHash_hex (id : ObjectId) : hexHash (hex id.toList++10::rest) = .ok (hex id.toList,10::rest) := by
  have hlen : (hex id.toList).length=40 := by simp [hex_length]
  have hread : takeWhile 40 (some (hex id.toList).length) isHexDigitLc (hex id.toList++10::rest) = .ok (hex id.toList,10::rest) :=
    takeWhile_upTo (by simpa [isHexDigitLc] using hex_lower _) hlen.ge
  rwa [hlen] at hread

theorem fromHex_hex (id : ObjectId) : fromHex (hex id.toList)=some id := by
  have hlen : (hex id.toList).length=40 := by simp [hex_length]
  rw [fromHex,if_pos hlen,unhex_hex,Option.bind_some,ObjectId.fromBytes_toList]

section ExtraHeaders
variable {name value line : Bytes} {lines : List Bytes}

theorem continuationLine_eq (h : 10∉line) (rest : Bytes) : continuationLine (32::(line++[10])++rest) = .ok ((),rest) := by
  simp only [append_assoc,cons_append,nil_append,continuationLine]
  rw [bind_ok (literal_singleton 32 _),bind_ok (takeUntil_append h rest)]
  exact literal_singleton 10 rest

theorem continuationLine_end (h : rest.head? ≠ some 32) : continuationLine rest = .error .backtrack :=
  bind_error (literal_other [] h)

theorem many1_continuation (hne : lines≠[]) (h : ∀ line∈lines,10∉line) (hrest : rest.head? ≠ some 32) :
    ∃ units,many1 continuationLine (continuation lines++rest) = .ok (units,rest) := by
  obtain ⟨line,lines,rfl⟩ := exists_cons_of_ne_nil hne
  obtain ⟨hline,hlines⟩ := forall_mem_cons.mp h
  have hmany : many continuationLine (lines.flatMap (fun line => 32::(line++[10]))++rest) = .ok (lines.map (fun _ => ()),rest) := by
    exact many_write (fun _ => True) lines (fun line hl rest _ => continuationLine_eq (hlines line hl) rest) (by simp) (by simp)
      trivial (continuationLine_end hrest)
  refine ⟨()::lines.map (fun _ => ()),?_⟩
  rw [continuation,flatMap_cons,append_assoc,many1,bind_ok (continuationLine_eq hline _),bind_ok hmany]
  rfl

variable (hname : name ≠ [] ∧ 32 ∉ name ∧ 10 ∉ name) {h : Bytes × Bytes}
include hname

theorem takeTill_name (tail : Bytes) :
    takeTill 1 [32,10] (name++32::tail) = .ok (name,32::tail) := by
  refine takeTill_append ?_ (length_pos_iff.mpr hname.1) (by simp)
  intro b hb hset
  rcases mem_cons.mp hset with rfl | hset
  · exact hname.2.1 hb
  · obtain rfl := mem_singleton.mp hset
    exact hname.2.2 hb

omit hname in
theorem takeTill_line (hne : line≠[]) (hline : 10∉line) (tail : Bytes) : takeTill 1 [10] (line++10::tail) = .ok (line,10::tail) := by
  refine takeTill_append ?_ (length_pos_iff.mpr hne) (by simp)
  rintro b hb hset
  obtain rfl := mem_singleton.mp hset
  exact hline hb

/-- A value of some lines is read without the carriage returns at their ends. -/
theorem anyHeaderFieldMultiLine_eq (hne : line≠[]) (hline : 10∉line)
    (hlines : ∀ line∈lines,10∉line) (hmore : lines≠[]) (hrest : rest.head? ≠ some 32) :
    anyHeaderFieldMultiLine (trustedHeaderField name line++continuation lines++rest) =
      .ok ((name,[10].intercalate ((line::lines).map trimCr)),rest) := by
  obtain ⟨_,hmany⟩ := many1_continuation hmore hlines hrest
  have hvalue : recognize (do let _ ← takeTill 1 [10]; literal [10]; many1 continuationLine)
      ((line++10::continuation lines)++rest) = .ok (line++10::continuation lines,rest) := by
    apply recognize_ok
    rw [append_assoc,cons_append,bind_ok (takeTill_line hne hline _),bind_ok (literal_singleton 10 _),hmany]
  have hjoin : joinLines (ByteParser.lines (line++10::continuation lines))=[10].intercalate ((line::lines).map trimCr) := by
    have hflat : line++10::continuation lines=(line::lines.map (32 :: ·)).flatMap (· ++[10]) := by
      simp [continuation,flatMap_map]
    have hfree : ∀ l∈line::lines.map (32 :: ·),10∉l := by
      simp only [forall_mem_cons,forall_mem_map]
      exact ⟨hline,fun l hl => not_mem_cons_of_ne_of_not_mem (by decide) (hlines l hl)⟩
    have hdrop : ∀ line : Bytes,(trimCr (32::line)).drop 1=trimCr line := by
      intro line
      rw [trimCr_cons (by decide)]
      rfl
    rw [hflat,lines_eq hfree,map_cons,map_cons,intercalate_newline,joinLines]
    simp only [map_map,flatMap_map,Function.comp_apply,hdrop]
  rw [append_assoc,cons_append] at hvalue
  simp only [trustedHeaderField,append_assoc,cons_append,nil_append,anyHeaderFieldMultiLine]
  rw [bind_ok (takeTill_name hname _),bind_ok (literal_singleton 32 _),bind_ok hvalue,hjoin]
  rfl

theorem anyHeaderFieldMultiLine_none (hne : line≠[]) (hline : 10∉line)
    (hrest : rest.head? ≠ some 32) :
    anyHeaderFieldMultiLine (trustedHeaderField name line++rest) = .error .backtrack := by
  have hnone : (do let _ ← takeTill 1 [10]; literal [10]; many1 continuationLine : Parser (List Unit)) (line++10::rest) =
      .error .backtrack := by
    rw [bind_ok (takeTill_line hne hline rest),bind_ok (literal_singleton 10 _)]
    exact bind_error (continuationLine_end hrest)
  have hvalue : recognize (do let _ ← takeTill 1 [10]; literal [10]; many1 continuationLine) (line++10::rest) =
      .error .backtrack := by rw [recognize,hnone]
  simp only [trustedHeaderField,append_assoc,cons_append,anyHeaderFieldMultiLine]
  rw [bind_ok (takeTill_name hname _),bind_ok (literal_singleton 32 _)]
  exact bind_error hvalue

omit hname

def readValue (value : Bytes) : Bytes := if 10 ∈ value then [10].intercalate ((value.splitOn 10).map trimCr) else value

structure ReadableHeader (h : Bytes × Bytes) : Prop where
  name : h.1 ≠ [] ∧ 32 ∉ h.1 ∧ 10 ∉ h.1
  firstLine : h.2.takeWhile (· ≠ 10) ≠ []

def headerBytes (h : Bytes × Bytes) : Bytes :=
  match h.2.splitOn 10 with
  | [] => []
  | line :: lines => trustedHeaderField h.1 line++continuation lines

theorem headerFieldMultiLine_eq (h : Bytes × Bytes) : headerFieldMultiLine h.1 h.2 = .ok (headerBytes h) := by
  obtain ⟨_,_,hsplit⟩ := exists_cons_of_ne_nil (splitOn_ne_nil 10 h.2)
  rw [headerFieldMultiLine,headerBytes,hsplit]

theorem extraHeader_eq (hread : ReadableHeader h) (hrest : rest.head? ≠ some 32) :
    extraHeader (headerBytes h++rest) = .ok ((h.1,readValue h.2),rest) := by
  obtain ⟨line,lines,hsplit⟩ := exists_cons_of_ne_nil (splitOn_ne_nil 10 h.2)
  have hfree := hsplit ▸ not_mem_of_mem_splitOn
  obtain ⟨hline,hlines⟩ := forall_mem_cons.mp hfree
  have hvalue : h.2=line++lines.flatMap (10 :: ·) := by rw [← intercalate_newline,← hsplit,intercalate_splitOn]
  have hne : line≠[] := by
    rintro rfl
    apply hread.firstLine
    rw [hvalue]
    cases lines <;> simp
  rw [headerBytes,hsplit]
  dsimp only
  cases lines with
  | nil =>
    have hone : readValue h.2=line := by
      rw [hvalue,flatMap_nil,append_nil]
      exact if_neg hline
    rw [continuation,flatMap_nil,append_nil,hone]
    refine (alt_backtrack (anyHeaderFieldMultiLine_none hread.name hne hline hrest)).trans ?_
    simp only [trustedHeaderField,append_assoc,cons_append,anyHeaderField]
    rw [bind_ok (takeTill_name hread.name _),bind_ok (literal_singleton 32 _),bind_ok (takeTill_line hne hline _)]
    rfl
  | cons next lines =>
    have hsome : readValue h.2=[10].intercalate ((line::next::lines).map trimCr) := by
      rw [← hsplit]
      apply if_pos
      rw [hvalue]
      simp
    rw [hsome]
    exact alt_ok (anyHeaderFieldMultiLine_eq hread.name hne hline hlines (by simp) hrest)

/-- A value stays the same if it has one line, or no line ends with a carriage return. -/
theorem readValue_eq_self {value : Bytes} : readValue value=value ↔ (10∈value → ∀ line∈value.splitOn 10,line.getLast? ≠ some 13) := by
  unfold readValue
  split
  · rename_i hmem
    have hfree : ∀ l∈(value.splitOn 10).map trimCr,10∉l := by
      simp only [forall_mem_map]
      exact fun l hl => not_mem_trimCr (not_mem_of_mem_splitOn l hl)
    have hsame : [10].intercalate ((value.splitOn 10).map trimCr)=value ↔ (value.splitOn 10).map trimCr=value.splitOn 10 := by
      constructor
      · intro heq
        conv_rhs => rw [← heq]
        rw [splitOn_intercalate _ hfree (by simp)]
      · intro heq
        rw [heq,intercalate_splitOn]
    have hmap : (value.splitOn 10).map trimCr=value.splitOn 10 ↔ ∀ line∈value.splitOn 10,trimCr line=line := by
      conv_lhs => rhs; rw [← map_id (value.splitOn 10)]
      exact map_inj_left
    rw [hsame,forall_prop_of_true hmem,hmap]
    simp [trimCr_eq_self]
  · rename_i hmem
    simp [hmem]

theorem headerBytes_head (hread : ReadableHeader h) (rest : Bytes) : (headerBytes h++rest).head? ≠ some 32 := by
  obtain ⟨_,_,hsplit⟩ := exists_cons_of_ne_nil (splitOn_ne_nil 10 h.2)
  obtain ⟨b,name,hname⟩ := exists_cons_of_ne_nil hread.name.1
  have hb : b≠32 := by
    rintro rfl
    exact hread.name.2.1 (by simp [hname])
  simpa [headerBytes,hsplit,trustedHeaderField,hname] using hb

theorem headerBytes_ne_nil (h : Bytes × Bytes) : headerBytes h≠[] := by
  obtain ⟨_,_,hsplit⟩ := exists_cons_of_ne_nil (splitOn_ne_nil 10 h.2)
  simp [headerBytes,hsplit,trustedHeaderField]

theorem extraHeader_end (message : Bytes) : extraHeader (10::message) = .error .backtrack := by
  have hnone : takeTill 1 [32,10] (10::message) = .error .backtrack :=
    takeWhile_none (by decide) (by simp)
  have hmulti : anyHeaderFieldMultiLine (10::message) = .error .backtrack := bind_error hnone
  exact (alt_backtrack hmulti).trans (bind_error hnone)

theorem many_extraHeader {headers : List (Bytes × Bytes)} (h : ∀ h∈headers,ReadableHeader h) (message : Bytes) :
    many extraHeader (headers.flatMap headerBytes++10::message) = .ok (headers.map (fun h => (h.1,readValue h.2)),10::message) :=
  many_write (fun rest => rest.head? ≠ some 32) headers (fun x hx rest hrest => extraHeader_eq (h x hx) hrest)
    (fun x _ => headerBytes_ne_nil x) (fun x hx rest => headerBytes_head (h x hx) rest) (by simp) (extraHeader_end message)

end ExtraHeaders

/-! Commits -/

/-- The commits that are to be read as they were written. -/
structure Commit.Readable (c : Commit) : Prop where
  author : c.author.Writable
  committer : c.committer.Writable
  encoding : ∀ e ∈ c.encoding, e ≠ [] ∧ 10 ∉ e
  extraHeaders : ∀ h ∈ c.extraHeaders, ReadableHeader h
  noEncoding : c.encoding = none → ∀ h ∈ c.extraHeaders.head?, h.1 ≠ encodingToken

def Commit.bytes (c : Commit) : Bytes :=
  trustedHeaderId treeToken c.tree++(c.parents.flatMap (trustedHeaderId parentToken)++
    (trustedHeaderField authorToken c.author.bytes++(trustedHeaderField committerToken c.committer.bytes++
      (c.encoding.elim [] (trustedHeaderField encodingToken)++(c.extraHeaders.flatMap headerBytes++10 :: c.message)))))

theorem trustedHeaderSignature_eq (name : Bytes) {s : Signature} (h : s.Writable) :
    trustedHeaderSignature name s = .ok (trustedHeaderField name s.bytes) := by
  rw [trustedHeaderSignature,Signature.writeTo_eq h]

theorem Commit.writeTo_eq {c : Commit} (h : c.Readable) : c.writeTo = .ok c.bytes := by
  have hextra : c.extraHeaders.mapM (fun h => headerFieldMultiLine h.1 h.2) = .ok (c.extraHeaders.map headerBytes) := by
    simp only [headerFieldMultiLine_eq]
    exact mapM_pure
  have hencoding : encodingField c.encoding = .ok (c.encoding.elim [] (trustedHeaderField encodingToken)) := by
    cases hc : c.encoding with
    | none => rfl
    | some e =>
      obtain ⟨hne,hline⟩ := h.encoding e hc
      simp [encodingField,headerField,hne,hline]
  rw [Commit.writeTo,trustedHeaderSignature_eq _ h.author,trustedHeaderSignature_eq _ h.committer,hencoding,hextra]
  simp [Except.bind,bind,pure,Except.pure,Commit.bytes,flatMap_def]

def Commit.read (c : Commit) : CommitRef :=
  ⟨hex c.tree.toList,c.parents.map (fun id => hex id.toList),c.author,c.committer,c.encoding,c.message,
    c.extraHeaders.map (fun h => (h.1,readValue h.2))⟩

variable {c : Commit}

theorem parseHeaderField_other {name token : Bytes} (p : Parser α) (hname : 32∉name) (htoken : 32∉token)
    (hne : name≠token) (tail : Bytes) : parseHeaderField token p (name++32::tail) = .error .backtrack := by
  by_cases hstart : token <+: name++32::tail
  · obtain ⟨more,hmore⟩ := hstart
    have hread : literal token (name++32::tail) = .ok ((),more) := by rw [← hmore,literal_append]
    rw [parseHeaderField,bind_ok hread]
    refine bind_error (literal_other [] ?_)
    rcases append_eq_append_iff.mp hmore with ⟨c,hc,rfl⟩ | ⟨a,ha,htail⟩
    · -- what is left of the name does not start with a space
      cases c with
      | nil => exact absurd (hc.trans (append_nil token)) hne
      | cons b c =>
        intro hb
        cases hb
        exact hname (by simp [hc])
    · cases a with
      | nil => exact absurd ((append_nil name).symm.trans ha.symm) hne
      | cons b a =>
        obtain ⟨rfl,-⟩ := cons.inj htail
        exact absurd (by simp [ha]) htoken
  · have hread : literal token (name++32::tail) = .error .backtrack := by
      rw [literal,if_neg (by simpa using hstart)]
    exact bind_error hread

theorem many_parents (parents : List ObjectId) (tail : Bytes) :
    many (parseHeaderField parentToken hexHash) (parents.flatMap (trustedHeaderId parentToken)++(authorToken++32::tail)) =
      .ok (parents.map (fun id => hex id.toList),authorToken++32::tail) :=
  many_write (fun _ => True) parents (fun id _ rest _ => parseHeaderField_eq (hexHash_hex id)) (by simp [trustedHeaderId,trustedHeaderField])
    (by simp) trivial (parseHeaderField_other hexHash (by decide) (by decide) (by decide) tail)

/-- There is no encoding where the next header has another name, or there is no other header. -/
theorem encoding_none {headers : List (Bytes × Bytes)} (h : ∀ h∈headers,ReadableHeader h)
    (hother : ∀ h∈headers.head?,h.1≠encodingToken) (message : Bytes) :
    parseHeaderField encodingToken (takeTill 1 [10]) (headers.flatMap headerBytes++10::message) = .error .backtrack := by
  cases headers with
  | nil => exact bind_error (literal_other _ (by simp))
  | cons header headers =>
    obtain ⟨_,_,hsplit⟩ := exists_cons_of_ne_nil (splitOn_ne_nil 10 header.2)
    simp only [flatMap_cons,headerBytes,hsplit,trustedHeaderField,append_assoc]
    exact parseHeaderField_other _ (h header mem_cons_self).name.2.1 (by decide) (hother header rfl) _

theorem opt_encoding (h : c.Readable) :
    opt (parseHeaderField encodingToken (takeTill 1 [10]))
      (c.encoding.elim [] (trustedHeaderField encodingToken)++(c.extraHeaders.flatMap headerBytes++10::c.message)) =
        .ok (c.encoding,c.extraHeaders.flatMap headerBytes++10::c.message) := by
  cases hc : c.encoding with
  | none =>
    have hnone := encoding_none h.extraHeaders (h.noEncoding hc) c.message
    rw [Option.elim_none,nil_append,opt,hnone]
  | some e =>
    obtain ⟨hne,hline⟩ := h.encoding e hc
    exact opt_ok (parseHeaderField_eq (takeTill_line hne hline _))

/-- A commit is read with all that was written, up to the lines of its extra headers. -/
theorem commit_bytes (h : c.Readable) : commit c.bytes = .ok (c.read,[]) := by
  have hparents := many_parents c.parents (c.author.bytes++10::(trustedHeaderField committerToken c.committer.bytes++
      (c.encoding.elim [] (trustedHeaderField encodingToken)++(c.extraHeaders.flatMap headerBytes++10::c.message))))
  have hauthor : ∀ tail,authorToken++32::(c.author.bytes++10::tail)=trustedHeaderField authorToken c.author.bytes++tail := by
    simp [trustedHeaderField]
  have hmessage : message (10::c.message) = .ok (c.message,[]) := by
    exact bind_ok (literal_singleton 10 c.message)
  rw [hauthor] at hparents
  rw [commit,Commit.bytes,trustedHeaderId,bind_ok (parseHeaderField_eq (hexHash_hex c.tree)),bind_ok hparents,
    bind_ok (parseHeaderField_eq (decode_bytes h.author _)),bind_ok (parseHeaderField_eq (decode_bytes h.committer _)),
    bind_ok (opt_encoding h),bind_ok (many_extraHeader h.extraHeaders c.message)]
  rfl

theorem toCommit_read (c : Commit) :
    c.read.toCommit=some {c with extraHeaders := c.extraHeaders.map (fun h => (h.1,readValue h.2))} := by
  have hparents : (c.parents.map (fun id => hex id.toList)).mapM fromHex=some c.parents := by
    rw [mapM_map]
    simp only [Function.comp_def,fromHex_hex]
    exact (mapM_pure (f := id)).trans (by rw [map_id]; rfl)
  simp only [CommitRef.toCommit,Commit.read,fromHex_hex,hparents]
  rfl

/-- A commit is written, read and turned into one that is equal. -/
def RoundTrips (c : Commit) : Prop :=
  ∃ data r, c.writeTo = .ok data ∧ CommitRef.fromBytes data = some r ∧ r.toCommit = some c

theorem fromBytes_bytes (h : c.Readable) : CommitRef.fromBytes c.bytes=some c.read := by
  rw [CommitRef.fromBytes,commit_bytes h]
  rfl

theorem roundTrips_values (h : c.Readable) : RoundTrips c ↔ ∀ header∈c.extraHeaders,readValue header.2=header.2 := by
  have htrip : RoundTrips c ↔ c.read.toCommit=some c := by
    constructor
    · rintro ⟨data,r,hwrite,hr,hc⟩
      cases (Commit.writeTo_eq h).symm.trans hwrite
      cases (fromBytes_bytes h).symm.trans hr
      exact hc
    · exact fun hc => ⟨_,_,Commit.writeTo_eq h,fromBytes_bytes h,hc⟩
  have hheaders : c.read.toCommit=some c ↔ c.extraHeaders.map (fun h => (h.1,readValue h.2))=c.extraHeaders := by
    rw [toCommit_read]
    constructor
    · intro heq
      exact congrArg Commit.extraHeaders (Option.some.inj heq)
    · intro heq
      rw [heq]
  rw [htrip,hheaders]
  conv_lhs => rhs; rw [← map_id c.extraHeaders]
  rw [map_inj_left]
  simp

/-- Commits are read as they were written, unless a value of some lines has one that ends with a
carriage return. -/
theorem roundTrips_iff (c : Commit) (h : c.Readable) :
    RoundTrips c ↔ ∀ header ∈ c.extraHeaders, 10 ∈ header.2 → ∀ line ∈ header.2.splitOn 10, line.getLast? ≠ some 13 := by
  rw [roundTrips_values h]
  simp only [readValue_eq_self]

def sampleSignature : Signature := ⟨[97],[98],⟨-1,-3600,.minus⟩⟩

/-- A commit with a header of two lines, where `line` is the first one. -/
def sampleCommit (line : Bytes) : Commit :=
  ⟨Vector.replicate 20 1,[Vector.replicate 20 2],sampleSignature,sampleSignature,none,[109],[([120],line++[10,98])]⟩

theorem sampleCommit_readable {line : Bytes} (hne : line≠[]) (hline : 10∉line) : (sampleCommit line).Readable := by
  have hsignature : sampleSignature.Writable :=
    ⟨by decide,by decide,by simp [sampleSignature,isAsciiWhitespace],by simp [sampleSignature,isAsciiWhitespace],
      ⟨by decide,by decide,by decide,by decide⟩⟩
  refine ⟨hsignature,hsignature,by simp [sampleCommit],?_,?_⟩
  · intro h hh
    obtain rfl := mem_singleton.mp hh
    refine ⟨by simp,?_⟩
    have hall : ∀ b∈line,decide (b≠10)=true := fun b hb => by simpa using ne_of_mem_of_not_mem hb hline
    rw [takeWhile_append_of_pos hall]
    simp [hne]
  · intro _ h hh
    cases hh
    simp [encodingToken]

theorem roundTrips_two_lines : RoundTrips (sampleCommit [97]) :=
  (roundTrips_iff (sampleCommit [97]) (sampleCommit_readable (by decide) (by decide))).mpr (by decide)

theorem carriage_return_lost : (sampleCommit [97,13]).Readable ∧ ¬RoundTrips (sampleCommit [97,13]) ∧
    ∃ data r, (sampleCommit [97,13]).writeTo = .ok data ∧ CommitRef.fromBytes data = some r ∧ r.toCommit = some (sampleCommit [97]) := by
  have h : (sampleCommit [97,13]).Readable := sampleCommit_readable (by decide) (by decide)
  refine ⟨h,?_,_,_,Commit.writeTo_eq h,fromBytes_bytes h,?_⟩
  · rw [roundTrips_values h]
    decide
  · decide

end Gix.CommitObject
