import Gix.ByteParser
import Gix.Fallible

/-! # Credential contexts

What a credential helper is told, one `key=value` line each. Nothing is escaped: values with null
bytes or newlines are refused. A carriage return is not, and the reader takes one in front of a
newline for a part of the line end. -/
namespace Gix.Credentials
open ByteCodec ByteParser List Option

abbrev Bytes := List UInt8

/-- `String`, which is UTF-8. -/
abbrev Str := {b : Bytes // isUtf8 b = true}

structure Context where
  protocol : Option Str
  host : Option Str
  path : Option Bytes
  username : Option Str
  password : Option Str
  url : Option Bytes
  quit : Option Bool
  deriving DecidableEq

instance : Inhabited Context := ⟨⟨none,none,none,none,none,none,none⟩⟩

inductive DecodeError where
  | encoding (key value : Bytes)
  | illformedUtf8InValue (key value : Bytes)
  | syntaxOf (line : Bytes)
  deriving DecidableEq

def validate (key value : Bytes) : Except DecodeError Unit :=
  if 0 ∈ key ∨ 10 ∈ key ∨ 0 ∈ value ∨ 10 ∈ value then .error (.encoding key value) else .ok ()

/-! Keys -/

inductive Key where
  | url
  | path
  | protocol
  | host
  | username
  | password
  deriving DecidableEq

def Key.text : Key → Bytes
  | .url => [117,114,108]
  | .path => [112,97,116,104]
  | .protocol => [112,114,111,116,111,99,111,108]
  | .host => [104,111,115,116]
  | .username => [117,115,101,114,110,97,109,101]
  | .password => [112,97,115,115,119,111,114,100]

def Key.all : List Key := [.url,.path,.protocol,.host,.username,.password]

def quitText : Bytes := [113,117,105,116]

def Context.get (c : Context) : Key → Option Bytes
  | .url => c.url
  | .path => c.path
  | .protocol => c.protocol.map Subtype.val
  | .host => c.host.map Subtype.val
  | .username => c.username.map Subtype.val
  | .password => c.password.map Subtype.val

/-! Writing -/

def lineOf (key : Key) (value : Bytes) : Bytes := key.text++61 :: value

def writeKey (c : Context) (key : Key) : Except DecodeError Bytes :=
  match c.get key with
  | some value => (validate key.text value).map fun _ => lineOf key value++[10]
  | none => .ok []

def Context.writeTo (c : Context) : Except DecodeError Bytes :=
  (Key.all.mapM (writeKey c)).map List.flatten

/-! Reading -/

/-- `i64::from_str`. -/
def parseI64 (b : Bytes) : Option ℤ :=
  let negative : Bool := b.head? = some 45
  let digits := if negative ∨ b.head? = some 43 then b.drop 1 else b
  let n : ℤ := if negative then -numeralValue 10 digits else numeralValue 10 digits
  if digits ≠ [] ∧ digits.all (fun d => 48 ≤ d && d ≤ 57) ∧ -2^63 ≤ n ∧ n < 2^63 then some n
  else none

/-- `gix_config_value::Boolean`. -/
def parseBoolean (b : Bytes) : Option Bool :=
  if eqIgnoreAsciiCase b [121,101,115] ∨ eqIgnoreAsciiCase b [111,110] ∨
      eqIgnoreAsciiCase b [116,114,117,101] then some true
  else if eqIgnoreAsciiCase b [110,111] ∨ eqIgnoreAsciiCase b [111,102,102] ∨
      eqIgnoreAsciiCase b [102,97,108,115,101] ∨ b = [] then some false
  else (parseI64 b).map (· ≠ 0)

def decodeLine (line : Bytes) : Except DecodeError (Bytes × Bytes) :=
  match cut 61 line with
  | some (key,value) =>
    if isUtf8 key then (validate key value).map fun _ => (key,value) else .error (.syntaxOf line)
  | none => .error (.syntaxOf line)

def toStr (key : Key) (value : Bytes) : Except DecodeError Str :=
  if h : isUtf8 value = true then .ok ⟨value,h⟩
  else .error (.illformedUtf8InValue key.text value)

def Context.set (c : Context) (value : Bytes) : Key → Except DecodeError Context
  | .url => .ok {c with url := some value}
  | .path => .ok {c with path := some value}
  | .protocol => (toStr .protocol value).map fun v => {c with protocol := some v}
  | .host => (toStr .host value).map fun v => {c with host := some v}
  | .username => (toStr .username value).map fun v => {c with username := some v}
  | .password => (toStr .password value).map fun v => {c with password := some v}

/-- A line sets the field of its key; other keys are left out. -/
def readLine (c : Context) (line : Bytes) : Except DecodeError Context := do
  let (key,value) ← decodeLine line
  match Key.all.find? (fun k => k.text = key) with
  | some k => c.set value k
  | none => .ok (if key = quitText then {c with quit := parseBoolean value} else c)

def fromBytes (input : Bytes) : Except DecodeError Context :=
  ((lines input).takeWhile (· ≠ [])).foldlM readLine default

/-! What is written -/

variable {c : Context} {key : Key} {value : Bytes} {text : Bytes} {keys : List Key}

def linesOf (c : Context) (keys : List Key) : List Bytes :=
  keys.flatMap fun key => (c.get key).toList.map (lineOf key)

theorem linesOf_cons (c : Context) (key : Key) (keys : List Key) :
    linesOf c (key::keys)=(c.get key).toList.map (lineOf key)++linesOf c keys := by
  simp [linesOf]

theorem validate_ok {key value : Bytes} (h : validate key value = .ok ()) :
    0∉key ∧ 10∉key ∧ 0∉value ∧ 10∉value := by
  unfold validate at h
  split at h
  · cases h
  · rename_i hnot
    simpa using hnot

theorem writeKey_ok (h : writeKey c key = .ok text) :
    text=((c.get key).toList.map (lineOf key)).flatMap (·++[10]) ∧
      ∀ value,c.get key=some value → 0∉value ∧ 10∉value := by
  unfold writeKey at h
  split at h
  · rename_i value hvalue
    cases hvalid : validate key.text value with
    | error e => simp [hvalid,Except.map] at h
    | ok u =>
      obtain rfl : lineOf key value++[10]=text := by simpa [hvalid,Except.map] using h
      refine ⟨by simp [hvalue],?_⟩
      intro value' hvalue'
      cases hvalue.symm.trans hvalue'
      exact (validate_ok hvalid).2.2
  · rename_i hnone
    cases h
    simp [hnone]

theorem mapM_writeKey_ok {texts : List Bytes}
    (h : keys.mapM (writeKey c) = .ok texts) :
    texts.flatten=(linesOf c keys).flatMap (·++[10]) ∧
      ∀ key∈keys,∀ value,c.get key=some value → 0∉value ∧ 10∉value := by
  induction keys generalizing texts with
  | nil =>
    cases h
    simp [linesOf]
  | cons key keys ih =>
    rw [mapM_cons] at h
    obtain ⟨_,htext,h⟩ := Attempt.of_bind_ok h
    obtain ⟨_,hlater,h⟩ := Attempt.of_bind_ok h
    cases h
    obtain ⟨rfl,hvalue⟩ := writeKey_ok htext
    obtain ⟨hflat,hvalues⟩ := ih hlater
    refine ⟨by simp [linesOf_cons,hflat],?_⟩
    intro key' hkey
    rcases mem_cons.mp hkey with rfl | hkey
    · exact hvalue
    · exact hvalues key' hkey

theorem writeTo_ok (h : c.writeTo = .ok text) :
    text=(linesOf c Key.all).flatMap (·++[10]) ∧
      ∀ key value,c.get key=some value → 0∉value ∧ 10∉value := by
  unfold Context.writeTo at h
  cases hm : Key.all.mapM (writeKey c) with
  | error e => simp [hm,Except.map] at h
  | ok texts =>
    obtain rfl : texts.flatten=text := by simpa [hm,Except.map] using h
    obtain ⟨hflat,hvalues⟩ := mapM_writeKey_ok hm
    exact ⟨hflat,fun key => hvalues key (by cases key <;> decide)⟩

/-! What is read -/

section Read
variable {c' : Context}

theorem Key.text_plain (key : Key) : isUtf8 key.text=true ∧ 61∉key.text ∧ 0∉key.text ∧
    10∉key.text ∧ Key.all.find? (fun k => k.text=key.text)=some key := by
  cases key <;> decide

theorem trimCr_append {b : UInt8} (hb : b≠13) (front l : Bytes) :
    trimCr (front++b::l)=front++b::trimCr l := by
  have hlast : (front++b::l).getLast? = (b::l).getLast? :=
    getLast?_append_of_ne_nil front (by simp)
  have hfront : trimCr (front++b::l)=front++trimCr (b::l) := by
    unfold trimCr
    rw [hlast]
    split
    · exact dropLast_append_of_ne_nil (by simp)
    · rfl
  rw [hfront,trimCr_cons hb]

/-- A line that was written is read with its value cut by a carriage return. -/
theorem readLine_lineOf (c : Context) (key : Key) (h0 : 0∉value) (h10 : 10∉value) :
    readLine c (trimCr (lineOf key value))=c.set (trimCr value) key := by
  obtain ⟨hutf8,h61,hz,hn,hfind⟩ := key.text_plain
  have hcut : cut 61 (trimCr (lineOf key value))=some (key.text,trimCr value) := by
    rw [lineOf,trimCr_append (by decide)]
    exact cut_append h61 _
  have hvalid : validate key.text (trimCr value) = .ok () := by
    rw [validate]
    simp [hz,hn,not_mem_trimCr h0,not_mem_trimCr h10]
  simp only [readLine,decodeLine,hcut,hutf8,hvalid]
  simp [Except.map,bind,Except.bind,hfind]

theorem map_toStr_ok {f : Str → Context} (h : (toStr key value).map f = .ok c') :
    ∃ v : Str,v.val=value ∧ f v=c' := by
  unfold toStr at h
  split at h
  · rename_i hutf8
    exact ⟨⟨value,hutf8⟩,rfl,Except.ok.inj h⟩
  · cases h

theorem set_ok (h : c.set value key = .ok c') :
    c'.get key=some value ∧ ∀ k≠key,c'.get k=c.get k := by
  cases key with
  | url | path =>
    cases h
    exact ⟨rfl,fun k hk => by cases k <;> simp_all [Context.get]⟩
  | protocol | host | username | password =>
    obtain ⟨_,rfl,rfl⟩ := map_toStr_ok h
    exact ⟨rfl,fun k hk => by cases k <;> simp_all [Context.get]⟩

theorem set_isOk (c₀ : Context) (h : c.get key=some value) : ∃ c₁,c₀.set value key = .ok c₁ := by
  have hstr : ∀ {k : Key} {o : Option Str},o.map Subtype.val=some value →
      ∃ v,toStr k value = .ok v := by
    intro k o ho
    obtain ⟨v,-,rfl⟩ := map_eq_some_iff.mp ho
    exact ⟨v,by rw [toStr,dif_pos v.property]⟩
  cases key with
  | url | path => exact ⟨_,rfl⟩
  | protocol | host | username | password =>
    obtain ⟨v,hv⟩ := hstr h
    exact ⟨_,by rw [Context.set,hv]; rfl⟩

theorem foldlM_readLine {c₀ c₁ : Context}
    (hvalues : ∀ key value,c.get key=some value → 0∉value ∧ 10∉value) (hnodup : keys.Nodup)
    (hnone : ∀ key∈keys,c₀.get key=none)
    (h : ((linesOf c keys).map trimCr).foldlM readLine c₀ = .ok c₁) :
    (∀ key∈keys,c₁.get key=(c.get key).map trimCr) ∧ ∀ key∉keys,c₁.get key=c₀.get key := by
  induction keys generalizing c₀ with
  | nil =>
    cases h
    simp
  | cons key keys ih =>
    obtain ⟨hnot,hnodup⟩ := nodup_cons.mp hnodup
    rw [linesOf_cons,map_append,foldlM_append] at h
    obtain ⟨c₂,hone,h⟩ := Attempt.of_bind_ok h
    -- the key's own line, if there is one, sets its field and no other
    have hset : c₂.get key=(c.get key).map trimCr ∧ ∀ k≠key,c₂.get k=c₀.get k := by
      cases hkey : c.get key with
      | none =>
        rw [hkey] at hone
        cases hone
        exact ⟨hnone key mem_cons_self,fun _ _ => rfl⟩
      | some value =>
        obtain ⟨h0,h10⟩ := hvalues key value hkey
        rw [hkey] at hone
        simp only [toList_some,map_cons,map_nil,foldlM_cons,foldlM_nil,
          readLine_lineOf c₀ key h0 h10,bind_pure] at hone
        exact set_ok hone
    have hne : ∀ k∈keys,k≠key := fun k hk he => hnot (he ▸ hk)
    obtain ⟨hin,hout⟩ := ih hnodup
      (fun k hk => (hset.2 k (hne k hk)).trans (hnone k (mem_cons_of_mem _ hk))) h
    refine ⟨?_,?_⟩
    · intro k hk
      rcases mem_cons.mp hk with rfl | hk
      · rw [hout k hnot,hset.1]
      · exact hin k hk
    · intro k hk
      obtain ⟨hk,hkeys⟩ := not_or.mp fun h => hk (mem_cons.mpr h)
      rw [hout k hkeys,hset.2 k hk]

/-- Lines whose values have no carriage return at the end are all read. -/
theorem foldlM_readLine_isOk (keys : List Key) (c₀ : Context)
    (hvalues : ∀ key value,c.get key=some value → 0∉value ∧ 10∉value)
    (hcr : ∀ key value,c.get key=some value → value.getLast? ≠ some 13) :
    ∃ c₁,((linesOf c keys).map trimCr).foldlM readLine c₀ = .ok c₁ := by
  induction keys generalizing c₀ with
  | nil => exact ⟨c₀,rfl⟩
  | cons key keys ih =>
    rw [linesOf_cons,map_append,foldlM_append]
    cases hkey : c.get key with
    | none => exact ih c₀
    | some value =>
      obtain ⟨h0,h10⟩ := hvalues key value hkey
      obtain ⟨c₂,hset⟩ := set_isOk c₀ hkey
      rw [← trimCr_eq_self.mpr (hcr key value hkey)] at hset
      obtain ⟨c₁,hc₁⟩ := ih c₂
      refine ⟨c₁,?_⟩
      simp only [toList_some,map_cons,foldlM_cons,
        readLine_lineOf c₀ key h0 h10,hset]
      exact hc₁

end Read

/-! Transport -/

/-- The fields that are transported are the same. -/
structure Same (c c' : Context) : Prop where
  protocol : c'.protocol = c.protocol
  host : c'.host = c.host
  username : c'.username = c.username
  password : c'.password = c.password
  path : c'.path = c.path
  url : c'.url = c.url

theorem same_iff_get {c c' : Context} : Same c c' ↔ ∀ key,c'.get key=c.get key := by
  constructor
  · intro h key
    cases key <;> simp only [Context.get,h.protocol,h.host,h.username,h.password,h.path,h.url]
  · intro h
    have hstr := map_injective (Subtype.val_injective (p := fun b : Bytes => isUtf8 b=true))
    exact ⟨hstr (h .protocol),hstr (h .host),hstr (h .username),hstr (h .password),h .path,h .url⟩

theorem lines_of_writeTo {c : Context} (h : c.writeTo = .ok text) :
    (lines text).takeWhile (· ≠ [])=(linesOf c Key.all).map trimCr := by
  obtain ⟨rfl,hvalues⟩ := writeTo_ok h
  have hline : ∀ line∈linesOf c Key.all,10∉line ∧ trimCr line≠[] := by
    intro line hline
    obtain ⟨key,-,hline⟩ := mem_flatMap.mp hline
    obtain ⟨value,hvalue,rfl⟩ := mem_map.mp hline
    obtain ⟨-,-,-,h10,-⟩ := key.text_plain
    have hvalue10 := (hvalues key value (mem_toList.mp hvalue)).2
    refine ⟨by simp [lineOf,h10,hvalue10],?_⟩
    rw [lineOf,trimCr_append (by decide)]
    simp
  rw [lines_eq fun line hl => (hline line hl).1]
  refine takeWhile_eq_self_iff.mpr fun line hl => ?_
  obtain ⟨line,hmem,rfl⟩ := mem_map.mp hl
  simpa using (hline line hmem).2

def ReadsBack (text : Bytes) (c : Context) : Prop := ∃ c', fromBytes text = .ok c' ∧ Same c c'

/-- A context that can be written is read again as it was exactly if no value of it ends with a
carriage return. -/
theorem from_bytes_write_to_iff (c : Context) {text : Bytes} (h : c.writeTo = .ok text) :
    ReadsBack text c ↔
      ∀ key value, c.get key = some value → value.getLast? ≠ some 13 := by
  have hvalues := (writeTo_ok h).2
  unfold ReadsBack fromBytes
  rw [lines_of_writeTo h]
  have hdefault : ∀ key∈Key.all, (default : Context).get key=none := by decide
  constructor
  · rintro ⟨c',hread,hsame⟩ key value hvalue
    obtain ⟨hin,-⟩ := foldlM_readLine hvalues (by decide) hdefault hread
    have hget := hin key (by cases key <;> decide)
    rw [same_iff_get.mp hsame key,hvalue] at hget
    exact trimCr_eq_self.mp (some.inj hget).symm
  · intro hcr
    obtain ⟨c',hread⟩ := foldlM_readLine_isOk Key.all default hvalues hcr
    refine ⟨c',hread,same_iff_get.mpr fun key => ?_⟩
    obtain ⟨hin,-⟩ := foldlM_readLine hvalues (by decide) hdefault hread
    rw [hin key (by cases key <;> decide)]
    cases hkey : c.get key with
    | none => rfl
    | some value => rw [map_some,trimCr_eq_self.mpr (hcr key value hkey)]

def sampleContext : Context := {(default : Context) with
  password := some ⟨[112,61,119],by decide⟩
  url := some [104,58,47,47,97]}

theorem from_bytes_write_to_sample : ReadsBack [117,114,108,61,104,58,47,47,97,10,112,97,115,115,119,
    111,114,100,61,112,61,119,10] sampleContext := by
  refine (from_bytes_write_to_iff sampleContext (by decide)).mpr ?_
  intro key value hvalue
  cases key <;> simp [sampleContext,Context.get,default] at hvalue <;> subst hvalue <;> decide

/-- The password `p` with a carriage return is read as `p`. -/
theorem password_shortened :
    let c : Context := {(default : Context) with password := some ⟨[112,13],by decide⟩}
    (c.writeTo.bind fromBytes) =
      .ok {(default : Context) with password := some ⟨[112],by decide⟩} := by
  decide

end Gix.Credentials
