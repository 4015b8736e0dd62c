import Gix.ByteCodec

/-! # Parsers of bytes

Parsers that take bytes off the front of their input. A failure lets other alternatives have
a try, or it does not. -/
namespace Gix.ByteParser
open ByteCodec List

inductive Failure | backtrack | cut deriving DecidableEq,Repr

abbrev Parser (α : Type) := StateT (List UInt8) (Except Failure) α

def literal (t : List UInt8) : Parser Unit := fun i =>
  if t.isPrefixOf i then .ok ((),i.drop t.length) else .error .backtrack

/-- At least `lo` bytes, and at most `hi` of them. -/
def takeWhile (lo : ℕ) (hi : Option ℕ) (p : UInt8 → Bool) : Parser (List UInt8) := fun i =>
  let t := (hi.elim i i.take).takeWhile p
  if t.length < lo then .error .backtrack else .ok (t,i.drop t.length)

def takeTill (lo : ℕ) (set : List UInt8) : Parser (List UInt8) := takeWhile lo none (fun b => b ∉ set)

def takeUntil (b : UInt8) : Parser (List UInt8) := fun i =>
  match cut b i with
  | none => .error .backtrack
  | some (x,rest) => .ok (x,b :: rest)

def take (n : ℕ) : Parser (List UInt8) := fun i => if i.length < n then .error .backtrack else .ok (i.take n,i.drop n)

def rest : Parser (List UInt8) := fun i => .ok (i,[])

def eof : Parser Unit := fun i => if i.isEmpty then .ok ((),i) else .error .backtrack

def findByte (b : UInt8) : List UInt8 → Option ℕ
  | [] => none
  | c :: l => if c = b then some 0 else (findByte b l).map (· + 1)

def rfindByte (b : UInt8) : List UInt8 → Option ℕ
  | [] => none
  | c :: l => match rfindByte b l with
    | some k => some (k+1)
    | none => if c = b then some 0 else none

section Combinators
variable {α β : Type}

def opt (p : Parser α) : Parser (Option α) := fun i =>
  match p i with
  | .ok (a,i) => .ok (some a,i)
  | .error .backtrack => .ok (none,i)
  | .error .cut => .error .cut

def alt (p q : Parser α) : Parser α := fun i =>
  match p i with
  | .error .backtrack => q i
  | r => r

def verifyMap (p : Parser α) (f : α → Option β) : Parser β := fun i =>
  match p i with
  | .error e => .error e
  | .ok (a,i) => match f a with
    | none => .error .backtrack
    | some b => .ok (b,i)

/-- The bytes that a parser takes. -/
def recognize (p : Parser α) : Parser (List UInt8) := fun i =>
  match p i with
  | .error e => .error e
  | .ok (_,i') => .ok (i.take (i.length-i'.length),i')

def manyLoop (p : Parser α) : ℕ → Parser (List α)
  | 0, _ => .error .cut
  | fuel+1, i => match p i with
    | .error .backtrack => .ok ([],i)
    | .error .cut => .error .cut
    | .ok (a,i') => if i'.length = i.length then .error .cut
        else (manyLoop p fuel i').map (fun r => (a :: r.1,r.2))

def many (p : Parser α) : Parser (List α) := fun i => manyLoop p (i.length+1) i

def many1 (p : Parser α) : Parser (List α) := do
  let a ← p
  let as ← many p
  return a :: as

variable {p q : Parser α} {f : α → Parser β} {a : α} {i i' : List UInt8}

theorem bind_ok (h : p i = .ok (a,i')) : (p >>= f) i=f a i' := by
  change (p i >>= fun r => f r.1 r.2)=f a i'
  rw [h]
  rfl

theorem bind_error {e : Failure} (h : p i = .error e) : (p >>= f) i = .error e := by
  change (p i >>= fun r => f r.1 r.2) = .error e
  rw [h]
  rfl

theorem opt_ok (h : p i = .ok (a,i')) : opt p i = .ok (some a,i') := by rw [opt,h]

theorem alt_ok (h : p i = .ok (a,i')) : alt p q i = .ok (a,i') := by rw [alt,h]

theorem alt_backtrack (h : p i = .error .backtrack) : alt p q i=q i := by rw [alt,h]

theorem verifyMap_ok {g : α → Option β} {b : β} (h : p i = .ok (a,i')) (hb : g a=some b) : verifyMap p g i = .ok (b,i') := by
  simp [verifyMap,h,hb]

theorem recognize_ok {t : List UInt8} (h : p (t++i) = .ok (a,i)) : recognize p (t++i) = .ok (t,i) := by
  have htake : (t++i).take ((t++i).length-i.length)=t := by simp
  simp only [recognize,h,htake]

/-- Records that follow each other, up to something that is none. What is behind a record is
`good`, so that it ends there. -/
theorem many_write {ι : Type} {write : ι → List UInt8} {value : ι → α} {tail : List UInt8} (good : List UInt8 → Prop)
    (xs : List ι) (hread : ∀ x∈xs,∀ rest,good rest → p (write x++rest) = .ok (value x,rest))
    (hne : ∀ x∈xs,write x≠[]) (hgood : ∀ x∈xs,∀ rest,good (write x++rest)) (htail : good tail)
    (hend : p tail = .error .backtrack) : many p (xs.flatMap write++tail) = .ok (xs.map value,tail) := by
  suffices hloop : ∀ fuel > (xs.flatMap write++tail).length,manyLoop p fuel (xs.flatMap write++tail) = .ok (xs.map value,tail) from
    hloop _ (Nat.lt_succ_self _)
  induction xs with
  | nil =>
    intro fuel hfuel
    obtain ⟨k,rfl⟩ := Nat.exists_eq_add_of_lt hfuel
    simp [manyLoop,hend]
  | cons x xs ih =>
    intro fuel hfuel
    have hx := hne x mem_cons_self
    have hrest : good (xs.flatMap write++tail) := by
      cases xs with
      | nil => exact htail
      | cons y ys =>
        rw [flatMap_cons,append_assoc]
        exact hgood y (by simp) _
    have hstep := hread x mem_cons_self _ hrest
    have hlen : 0 < (write x).length := length_pos_iff.mpr hx
    rw [flatMap_cons,append_assoc] at hfuel ⊢
    rw [length_append] at hfuel
    obtain ⟨fuel,rfl⟩ : ∃ k,fuel=k+1 := ⟨fuel-1,by omega⟩
    have hloop := ih (fun y hy => hread y (mem_cons_of_mem _ hy)) (fun y hy => hne y (mem_cons_of_mem _ hy))
      (fun y hy => hgood y (mem_cons_of_mem _ hy)) fuel (by omega)
    have hmoved : ¬(xs.flatMap write++tail).length=(write x++(xs.flatMap write++tail)).length := by
      have := @List.length_append _ (write x) (xs.flatMap write++tail)
      omega
    simp only [manyLoop,hstep,if_neg hmoved,hloop,Except.map,map_cons]

end Combinators

section Tokens
variable {t tail : List UInt8} {p : UInt8 → Bool}

theorem literal_append (t tail : List UInt8) : literal t (t++tail) = .ok ((),tail) := by simp [literal]

theorem literal_singleton (b : UInt8) (tail : List UInt8) : literal [b] (b::tail) = .ok ((),tail) := literal_append [b] tail

variable {b : UInt8} {lo : ℕ}

theorem literal_other (t : List UInt8) (h : tail.head? ≠ some b) : literal (b::t) tail = .error .backtrack := by
  cases tail with
  | nil => rfl
  | cons c tail =>
    have hne : ¬b=c := by
      rintro rfl
      exact h rfl
    simp [literal,hne]

theorem takeWhile_append (ht : ∀ b∈t,p b=true) (hlo : lo ≤ t.length) (htail : ∀ b∈tail.head?,p b=false) :
    takeWhile lo none p (t++tail) = .ok (t,tail) := by
  have hstop : tail.takeWhile p=[] := by
    cases tail with
    | nil => rfl
    | cons b tail => simp [htail b rfl]
  have htake : (t++tail).takeWhile p=t := by rw [takeWhile_append_of_pos ht,hstop,append_nil]
  simp [takeWhile,htake,if_neg (Nat.not_lt.mpr hlo)]

theorem takeWhile_upTo (ht : ∀ b∈t,p b=true) (hlo : lo ≤ t.length) :
    takeWhile lo (some t.length) p (t++tail) = .ok (t,tail) := by
  have htake : ((t++tail).take t.length).takeWhile p=t := by
    rw [take_left]
    exact takeWhile_eq_self_iff.mpr ht
  simp only [takeWhile,Option.elim_some,htake,if_neg (Nat.not_lt.mpr hlo),drop_left]

theorem takeWhile_none {hi : Option ℕ} (hlo : 0 < lo) (htail : ∀ b∈tail.head?,p b=false) :
    takeWhile lo hi p tail = .error .backtrack := by
  have hstop : (hi.elim tail tail.take).takeWhile p=[] := by
    cases tail with
    | nil => cases hi <;> simp
    | cons b tail =>
      have hb := htail b rfl
      cases hi with
      | none => simp [hb]
      | some n => cases n <;> simp [hb]
  simp [takeWhile,hstop,if_pos hlo]

variable {set : List UInt8} {lo : ℕ}

theorem takeTill_append (ht : ∀ b∈t,b∉set) (hlo : lo ≤ t.length) (htail : ∀ b∈tail.head?,b∈set) :
    takeTill lo set (t++tail) = .ok (t,tail) :=
  takeWhile_append (by simpa using ht) hlo (by simpa using htail)

theorem takeUntil_append (h : b∉t) (tail : List UInt8) : takeUntil b (t++b::tail) = .ok (t,b::tail) := by
  simp [takeUntil,cut_append h]

theorem take_append (t tail : List UInt8) : take t.length (t++tail) = .ok (t,tail) := by
  simp [take]

theorem findByte_append (h : b∉t) (tail : List UInt8) : findByte b (t++b::tail)=some t.length := by
  induction t with
  | nil => simp [findByte]
  | cons c t ih =>
    obtain ⟨hc,ht⟩ := not_or.mp (mt mem_cons.mpr h)
    simp [findByte,Ne.symm hc,ih ht]

theorem rfindByte_none (h : b∉t) : rfindByte b t=none := by
  induction t with
  | nil => rfl
  | cons c t ih =>
    obtain ⟨hc,ht⟩ := not_or.mp (mt mem_cons.mpr h)
    simp [rfindByte,Ne.symm hc,ih ht]

theorem rfindByte_append (t : List UInt8) (h : b∉tail) : rfindByte b (t++b::tail)=some t.length := by
  induction t with
  | nil => simp [rfindByte,rfindByte_none h]
  | cons c t ih => simp [rfindByte,ih]

end Tokens

/-! Lines -/

def trimCr (l : List UInt8) : List UInt8 := if l.getLast? = some 13 then l.dropLast else l

/-- Lines without what ends them, which is a newline or a carriage return and a newline. The
last one need not have an end. -/
def lines (l : List UInt8) : List (List UInt8) :=
  let pieces := l.splitOn 10
  pieces.dropLast.map trimCr++pieces.getLast?.toList.filter (· ≠ [])

section Lines

variable {b : UInt8} {l : List UInt8} {ls : List (List UInt8)}

theorem not_mem_of_mem_splitOn : ∀ line∈l.splitOn b,b∉line := by
  induction l with
  | nil => simp
  | cons c l ih =>
    rw [splitOn_cons_eq_if_modifyHead]
    split
    · simpa using ih
    · rename_i hc
      have hcb : b≠c := by
        rintro rfl
        simp at hc
      obtain ⟨first,_,hsplit⟩ := exists_cons_of_ne_nil (splitOn_ne_nil b l)
      rw [hsplit] at ih ⊢
      intro line hline
      rcases mem_cons.mp hline with rfl | hline
      · exact not_mem_cons_of_ne_of_not_mem hcb (ih first mem_cons_self)
      · exact ih line (mem_cons_of_mem _ hline)

theorem splitOn_lines (h : ∀ l∈ls,10∉l) : (ls.flatMap (· ++[10])).splitOn 10=ls++[[]] := by
  induction ls with
  | nil => rfl
  | cons l ls ih =>
    obtain ⟨hl,hls⟩ := forall_mem_cons.mp h
    rw [flatMap_cons,append_assoc,singleton_append,splitOn_append_cons_self_of_not_mem hl,ih hls]
    rfl

theorem lines_eq (h : ∀ l∈ls,10∉l) : lines (ls.flatMap (· ++[10]))=ls.map trimCr := by
  simp [lines,splitOn_lines h]

theorem trimCr_eq_self : trimCr l=l ↔ l.getLast? ≠ some 13 := by
  unfold trimCr
  split
  · rename_i hlast
    refine ⟨fun heq => ?_,fun hne => absurd hlast hne⟩
    have hlen := congrArg length heq
    have hpos := length_pos_of_mem (mem_of_getLast? hlast)
    rw [length_dropLast] at hlen
    omega
  · rename_i hlast
    exact ⟨fun _ => hlast,fun _ => rfl⟩

theorem trimCr_cons (h : b≠13) : trimCr (b::l)=b::trimCr l := by
  cases hlast : l.getLast? with
  | none =>
    obtain rfl := getLast?_eq_none_iff.mp hlast
    simp [trimCr,h]
  | some c =>
    have hne : l≠[] := by
      rintro rfl
      simp at hlast
    have hcons : (b::l).getLast? = some c := by simp [getLast?_cons,hlast]
    unfold trimCr
    rw [hcons,hlast]
    split
    · rw [dropLast_cons_of_ne_nil hne]
    · rfl

theorem not_mem_trimCr (h : b∉l) : b∉trimCr l := by
  unfold trimCr
  split
  · exact fun hmem => h (mem_of_mem_dropLast hmem)
  · exact h

theorem intercalate_newline (first : List UInt8) (more : List (List UInt8)) :
    [10].intercalate (first::more)=first++more.flatMap (10 :: ·) := by
  induction more generalizing first with
  | nil => simp
  | cons next more ih =>
    rw [intercalate_cons_cons,ih next]
    simp

end Lines
end Gix.ByteParser
