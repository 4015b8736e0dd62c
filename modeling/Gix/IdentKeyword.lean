import Gix.ByteCodec

/-! # Ident keywords

`gix-filter/src/ident.rs`: `$Id$` gets the hash of the content, and whatever `$Id:` has up to the next
dollar on its line is taken out again. Offsets are what is in front of them and behind, and memory is
always there. -/
namespace Gix.Filter.Ident
open ByteCodec List Option

abbrev Bytes := List UInt8

/-- What is before and behind the first occurrence. -/
def find (needle : Bytes) : Bytes → Option (Bytes × Bytes)
  | [] => none
  | b :: l => if needle <+: b :: l then some ([],(b :: l).drop needle.length)
    else (find needle l).map fun (before,rest) => (b :: before,rest)

/-- `$Id:` -/
def opening : Bytes := [36,73,100,58]

/-- `$Id$` -/
def keyword : Bytes := [36,73,100,36]

def inside (b : UInt8) : Bool := b ≠ 36 && b ≠ 10

/-- The loop of `find_range()`, with what is before and behind the range. -/
def findRangeLoop : ℕ → Bytes → Option (Bytes × Bytes)
  | 0,_ => none
  | n+1,input =>
    match find opening input with
    | none => none
    | some (before,cursor) =>
      match cursor.dropWhile inside with
      | [] => none
      | b :: rest =>
        if b = 10 then (findRangeLoop n rest).map fun (x,y) => (before++(opening++(cursor.takeWhile inside++10 :: x)),y)
        else some (before,rest)

def findRange (input : Bytes) : Option (Bytes × Bytes) := findRangeLoop input.length input

def undoLoop : ℕ → Bytes → Bytes
  | 0,src => src
  | n+1,src =>
    match findRange src with
    | none => src
    | some (before,rest) => before++keyword++undoLoop n rest

/-- The buffer if it was written. -/
def undo (src : Bytes) : Option Bytes := (findRange src).map fun _ => undoLoop src.length src

def applyLoop (id : Bytes) : ℕ → Bytes → Bytes
  | 0,src => src
  | n+1,src =>
    match find keyword src with
    | none => src
    | some (before,rest) => before++keyword.take 3++[58,32]++hex id++36 :: applyLoop id n rest

/-- The buffer if it was written. The id is the one that `compute_hash()` returns for a blob. -/
def apply (computeHash : Bytes → Bytes) (src : Bytes) : Option Bytes :=
  (find keyword src).map fun _ => applyLoop (computeHash src) src.length src

/-! ## Ranges -/

section Ranges
variable {l before rest inner : Bytes} {needle cursor : Bytes}

/-- A keyword with something in it, on one line. -/
def Range (l before rest : Bytes) : Prop := ∃ inner,l = before++opening++inner++36 :: rest ∧ 36 ∉ inner ∧ 10 ∉ inner

/-- All ranges are behind some bytes. -/
structure Shifts (x l l' : Bytes) : Prop where
  eq : l = x++l'
  range : ∀ before rest,Range l before rest → ∃ before',before = x++before' ∧ Range l' before' rest

theorem Range.append (x : Bytes) (h : Range l before rest) : Range (x++l) (x++before) rest := by
  obtain ⟨inner,rfl,hinner⟩ := h
  exact ⟨inner,by simp,hinner⟩

theorem Shifts.refl (l : Bytes) : Shifts [] l l := ⟨rfl,fun before _ h => ⟨before,rfl,h⟩⟩

theorem Shifts.trans {x y l' l'' : Bytes} (h : Shifts x l l') (h' : Shifts y l' l'') : Shifts (x++y) l l'' where
  eq := by rw [h.eq,h'.eq,append_assoc]
  range before rest hr := by
    obtain ⟨before',rfl,hr'⟩ := h.range before rest hr
    obtain ⟨before'',rfl,hr''⟩ := h'.range before' rest hr'
    exact ⟨before'',(append_assoc ..).symm,hr''⟩

theorem shifts_cons {b : UInt8} (h : ∀ rest,¬Range (b::l) [] rest) : Shifts [b] (b::l) l := by
  refine ⟨rfl,fun before rest hr => ?_⟩
  cases before with
  | nil => exact absurd hr (h rest)
  | cons c before =>
    obtain ⟨inner,heq,hinner⟩ := hr
    cases heq
    exact ⟨before,rfl,inner,rfl,hinner⟩

/-- The first range, if there is one. -/
def Leftmost (l : Bytes) : Option (Bytes × Bytes) → Prop
  | none => ∀ before rest,¬Range l before rest
  | some (before,rest) => Range l before rest ∧ Shifts before l (l.drop before.length)

theorem Leftmost.shift {x l' : Bytes} {found : Option (Bytes × Bytes)} (hx : Shifts x l l') (h : Leftmost l' found) :
    Leftmost l (found.map fun r => (x++r.1,r.2)) := by
  cases found with
  | none =>
    intro before rest hr
    obtain ⟨before,-,hr⟩ := hx.range before rest hr
    exact h before rest hr
  | some r =>
    refine ⟨hx.eq ▸ h.1.append x,?_⟩
    have hdrop : l.drop (x++r.1).length=l'.drop r.1.length := by rw [hx.eq]; simp
    rw [hdrop]
    exact hx.trans h.2

theorem find_none (hne : needle≠[]) (h : find needle l=none) : ¬needle <:+: l := by
  induction l with
  | nil => simpa using hne
  | cons b l ih =>
    rw [find] at h
    split_ifs at h with hp
    rw [infix_cons_iff,not_or]
    exact ⟨hp,ih (map_eq_none_iff.mp h)⟩

theorem find_some (h : find needle l=some (before,rest)) : l=before++needle++rest := by
  induction l generalizing before with
  | nil => cases h
  | cons b l ih =>
    rw [find] at h
    split_ifs at h with hp
    · cases h
      exact (prefix_iff_eq_append.mp hp).symm
    · obtain ⟨⟨_,_⟩,hfind,heq⟩ := map_eq_some_iff.mp h
      cases heq
      rw [ih hfind]
      rfl

theorem shifts_find (h : find opening l=some (before,rest)) : Shifts before l (opening++rest) := by
  induction l generalizing before with
  | nil => cases h
  | cons b l ih =>
    rw [find] at h
    split_ifs at h with hp
    · cases h
      rw [prefix_iff_eq_append.mp hp]
      exact .refl _
    · obtain ⟨⟨_,_⟩,hfind,heq⟩ := map_eq_some_iff.mp h
      cases heq
      refine (shifts_cons ?_).trans (ih hfind)
      rintro rest ⟨inner,heq,-⟩
      exact hp ⟨inner++36::rest,by rw [heq]; simp⟩

theorem shifts_free (h : 36∉inner) (l : Bytes) : Shifts inner (inner++l) l := by
  induction inner with
  | nil => exact .refl l
  | cons b inner ih =>
    rw [mem_cons,not_or] at h
    refine (shifts_cons ?_).trans (ih h.2)
    rintro rest ⟨inner,heq,-⟩
    exact h.1 (cons.inj heq).1.symm

theorem range_nil : Range (opening++cursor) [] rest ↔ cursor.dropWhile inside=36::rest := by
  constructor
  · rintro ⟨inner,heq,hdollar,hnewline⟩
    rw [append_assoc] at heq
    rw [append_cancel_left heq,dropWhile_append_of_pos]
    · simp [inside]
    · intro b hb
      simpa [inside] using ⟨fun h => hdollar (h ▸ hb),fun h => hnewline (h ▸ hb)⟩
  · intro h
    refine ⟨cursor.takeWhile inside,?_,fun hb => ?_,fun hb => ?_⟩
    · rw [nil_append,append_assoc,← h,takeWhile_append_dropWhile]
    · exact absurd (mem_takeWhile_imp hb) (by decide)
    · exact absurd (mem_takeWhile_imp hb) (by decide)

/-- Without a range at an opening the next one is behind what was looked at. -/
theorem shifts_opening (h : ∀ rest,¬Range (opening++cursor) [] rest) :
    Shifts (opening++cursor.takeWhile inside) (opening++cursor) (cursor.dropWhile inside) := by
  have hfree : 36∉[73,100,58]++cursor.takeWhile inside := by
    rw [mem_append,not_or]
    exact ⟨by decide,fun hb => absurd (mem_takeWhile_imp hb) (by decide)⟩
  have hcursor := @List.takeWhile_append_dropWhile _ inside cursor
  have htail := shifts_free hfree (cursor.dropWhile inside)
  rw [append_assoc,hcursor] at htail
  exact (shifts_cons h).trans htail

theorem findRangeLoop_leftmost {n : ℕ} (h : l.length ≤ n) : Leftmost l (findRangeLoop n l) := by
  induction n generalizing l with
  | zero =>
    rintro before rest ⟨inner,heq,-⟩
    simp [heq] at h
  | succ n ih =>
    rw [findRangeLoop]
    cases hfind : find opening l with
    | none =>
      rintro before rest ⟨inner,heq,-⟩
      exact find_none (by decide) hfind ⟨before,inner++36::rest,by rw [heq]; simp⟩
    | some found =>
      obtain ⟨before,cursor⟩ := found
      have hs := shifts_find hfind
      cases htail : cursor.dropWhile inside with
      | nil =>
        have hnext := hs.trans (shifts_opening fun rest hr => by simp [range_nil.mp hr] at htail)
        have hnil : Leftmost [] none := fun before rest ⟨inner,heq,_⟩ => by simp at heq
        rw [htail] at hnext
        simp only [htail]
        exact hnil.shift hnext
      | cons b rest =>
        have hb := head?_dropWhile_not inside cursor
        simp only [htail,inside,Bool.and_eq_false_iff,decide_eq_false_iff_not,not_not] at hb
        by_cases hnewline : b=10
        · have hno : ∀ rest',¬Range (opening++cursor) [] rest' := by
            intro rest' hr
            rw [range_nil.mp hr] at htail
            exact absurd ((cons.inj htail).1.trans hnewline) (by decide)
          have hnext := hs.trans (shifts_opening hno)
          rw [htail,hnewline] at hnext
          have hrest : rest.length ≤ n := by
            rw [hnext.eq] at h
            simp only [length_append,length_cons] at h
            omega
          have hfound := (ih hrest).shift (hnext.trans (shifts_free (by decide) rest : Shifts [10] ([10]++rest) rest))
          simpa [htail,hnewline] using hfound
        · obtain rfl := hb.resolve_right hnewline
          have hrange := (range_nil.mpr htail).append before
          rw [← hs.eq,append_nil] at hrange
          have hdrop : l.drop before.length=opening++cursor := by rw [hs.eq,drop_left]
          simp only [htail]
          exact ⟨hrange,hdrop ▸ hs⟩

theorem findRange_none : findRange l=none ↔ ∀ before rest,¬Range l before rest := by
  have h := findRangeLoop_leftmost (Nat.le_refl l.length)
  rw [findRange]
  cases hfound : findRangeLoop l.length l with
  | none => exact iff_of_true rfl (by rwa [hfound] at h)
  | some r =>
    rw [hfound] at h
    exact iff_of_false (by simp) fun hno => hno _ _ h.1

theorem Range.unique {rest' : Bytes} (h : Range l before rest) (h' : Range l before rest') : rest=rest' := by
  obtain ⟨_,rfl,hinner,-⟩ := h
  obtain ⟨_,heq,hinner',-⟩ := h'
  simp only [append_assoc,append_cancel_left_eq] at heq
  have hcut := cut_append hinner rest
  rw [heq,cut_append hinner' rest'] at hcut
  exact ((Prod.mk.inj (some.inj hcut)).2).symm

theorem findRange_eq {l' : Bytes} (hr : Range l before rest) (hs : Shifts before l l') : findRange l=some (before,rest) := by
  have h := findRangeLoop_leftmost (Nat.le_refl l.length)
  rw [findRange]
  cases hfound : findRangeLoop l.length l with
  | none =>
    rw [hfound] at h
    exact absurd hr (h before rest)
  | some r =>
    obtain ⟨before',rest'⟩ := r
    rw [hfound] at h
    obtain ⟨_,hx,-⟩ := h.2.range before rest hr
    obtain ⟨y,rfl,-⟩ := hs.range before' rest' h.1
    obtain rfl : y=[] := by
      have hlength := congrArg length hx
      simp only [length_append] at hlength
      exact length_eq_zero_iff.mp (by omega)
    rw [append_nil] at h ⊢
    rw [hr.unique h.1]

theorem shifts_of_none {a c : Bytes} (h : ∀ before rest,¬Range (a++36::c) before rest) (d : Bytes) :
    Shifts a (a++36::d) (36::d) := by
  induction a with
  | nil => exact .refl _
  | cons x a ih =>
    refine (shifts_cons ?_).trans (ih fun before rest hr => h (x::before) rest (hr.append [x]))
    rintro rest ⟨inner,heq,hdollar,hnewline⟩
    obtain ⟨rfl,htail⟩ := cons.inj heq
    change a++36::d=([73,100,58]++inner)++36::rest at htail
    -- the range ends where the dollar is or before
    obtain ⟨rest',hrest⟩ : ∃ rest',a++36::c=([73,100,58]++inner)++36::rest' := by
      rcases append_eq_append_iff.mp htail with ⟨m,hm,hd⟩ | ⟨m,hm,hd⟩
      · cases m with
        | nil => exact ⟨c,by rw [hm,append_nil]⟩
        | cons y m =>
          obtain ⟨rfl,-⟩ := cons.inj hd
          have hmem : (36 : UInt8)∈[73,100,58]++inner := by simp [hm]
          exact absurd hmem (by simpa using hdollar)
      · cases m with
        | nil => exact ⟨c,by rw [hm,append_nil]⟩
        | cons y m =>
          obtain ⟨rfl,-⟩ := cons.inj hd
          exact ⟨m++36::c,by simp [hm]⟩
    refine h [] rest' ⟨inner,?_,hdollar,hnewline⟩
    exact congrArg (36 :: ·) hrest

end Ranges

/-! ## Expansion and back -/

section Undo
variable {src : Bytes}

theorem undoLoop_none (h : ∀ before rest,¬Range src before rest) (n : ℕ) : undoLoop n src=src := by
  cases n with
  | zero => rfl
  | succ n => rw [undoLoop,findRange_none.mpr h]

theorem inner_free (id : Bytes) : 36∉32::hex id ∧ 10∉32::hex id := by
  simp only [mem_cons,not_or]
  refine ⟨⟨by decide,fun h => ?_⟩,by decide,fun h => ?_⟩
  · exact absurd (hex_lower id _ h) (by decide)
  · exact absurd (hex_lower id _ h) (by decide)

/-- The first keyword that is expanded is the first range then. -/
theorem findRange_applied {before rest : Bytes} (h : ∀ b r,¬Range (before++keyword++rest) b r) (id x : Bytes) :
    findRange (before++keyword.take 3++[58,32]++hex id++36::x)=some (before,x) := by
  have hrange : Range (before++keyword.take 3++[58,32]++hex id++36::x) before x :=
    ⟨32::hex id,by simp [opening,keyword],inner_free id⟩
  have hs := shifts_of_none (by simpa [keyword] using h)
    ([73,100,58,32]++hex id++36::x)
  exact findRange_eq hrange (by simpa [keyword] using hs)

theorem undoLoop_applyLoop (id : Bytes) {n m : ℕ} (hn : src.length ≤ n) (hm : (applyLoop id n src).length ≤ m)
    (h : ∀ before rest,¬Range src before rest) : undoLoop m (applyLoop id n src)=src := by
  induction n generalizing src m with
  | zero => exact undoLoop_none h m
  | succ n ih =>
    rw [applyLoop] at hm ⊢
    cases hfind : find keyword src with
    | none => exact undoLoop_none h m
    | some found =>
      obtain ⟨before,rest⟩ := found
      obtain rfl := find_some hfind
      simp only [hfind,length_append,length_cons] at hn hm
      obtain ⟨m,rfl⟩ : ∃ k,m=k+1 := ⟨m-1,by omega⟩
      have hrest : rest.length ≤ n := by
        change before.length+4+rest.length ≤ n+1 at hn
        omega
      have hback := ih (m := m) hrest (by omega) fun b r hr => h _ r (hr.append (before++keyword))
      rw [undoLoop,findRange_applied h]
      simp [hback]

/-- What was expanded in a content without expanded keywords is the content again when it is undone. -/
theorem undo_apply (computeHash : Bytes → Bytes) (src : Bytes) (h : undo src = none) :
    (apply computeHash src).elim (undo src = none) fun buf => undo buf = some src := by
  have hno := findRange_none.mp (map_eq_none_iff.mp h)
  rw [apply]
  cases hfind : find keyword src with
  | none => exact h
  | some found =>
    obtain ⟨before,rest⟩ := found
    have hsrc := find_some hfind
    obtain ⟨n,hn⟩ : ∃ n,src.length=n+1 := ⟨before.length+3+rest.length,by rw [hsrc]; simp [keyword]; omega⟩
    have happlied := findRange_applied (hsrc ▸ hno) (computeHash src) (applyLoop (computeHash src) n rest)
    have hback := undoLoop_applyLoop (computeHash src) (Nat.le_refl src.length) (Nat.le_refl _) hno
    change undo (applyLoop (computeHash src) src.length src)=some src
    rw [undo,hback,hn,applyLoop,hfind,happlied]
    rfl

/-- The second keyword shares a dollar with the first one, and the third one is interrupted. -/
theorem undo_apply_sample : apply (fun _ => [171]) [36,73,100,36,73,100,36,36,73,100,58,10] =
      some [36,73,100,58,32,97,98,36,73,100,36,36,73,100,58,10] ∧
    (apply (fun _ => [171]) [36,73,100,36,73,100,36,36,73,100,58,10]).elim
      (undo [36,73,100,36,73,100,36,36,73,100,58,10] = none) fun buf => undo buf = some [36,73,100,36,73,100,36,36,73,100,58,10] :=
  ⟨by decide,undo_apply (fun _ => [171]) [36,73,100,36,73,100,36,36,73,100,58,10] (by decide)⟩

end Undo

end Gix.Filter.Ident
