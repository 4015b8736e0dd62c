import Gix.ConfigParse

/-! # Parsing a configuration file loses nothing

Each parser's events write the bytes the parser took. The one exception is an escape in the
quoted name of a subsection, which is folded when it is read and added for `\` and `"` only when
it is written. -/
namespace Gix.Config
open ByteCodec List Option

@[simp] theorem writeEvents_nil : writeEvents []=[] := rfl

@[simp] theorem writeEvents_cons (e : Event) (l : List Event) :
    writeEvents (e::l)=e.write++writeEvents l := by
  simp only [writeEvents,flatMap_cons]

@[simp] theorem writeEvents_append (l₁ l₂ : List Event) :
    writeEvents (l₁++l₂)=writeEvents l₁++writeEvents l₂ := by
  simp only [writeEvents,flatMap_append]

/-! Tokens -/

variable {i rest name : Bytes} {events : List Event} {h : Header}
  {p : UInt8 → Bool} {a : Bytes} {e : Event} {n : ℕ}

theorem takeWhile1_eq (h : takeWhile1 p i=some (a,rest)) :
    a=i.takeWhile p ∧ rest=i.dropWhile p ∧ a≠[] := by
  unfold takeWhile1 at h
  split at h
  · simp at h
  · rename_i hne
    cases h
    exact ⟨rfl,rfl,hne⟩

theorem takeWhile1_append (h : takeWhile1 p i=some (a,rest)) : a++rest=i := by
  obtain ⟨rfl,rfl,-⟩ := takeWhile1_eq h
  exact takeWhile_append_dropWhile

theorem lineEnds_append (n : ℕ) (i : Bytes) : (lineEnds n i).1++(lineEnds n i).2=i := by
  fun_induction lineEnds n i with
  | case1 n i ih => simp only [cons_append,ih]
  | case2 n i ih => simp only [cons_append,ih]
  | case3 => rfl

theorem takeNewlines1_append {nl : Bytes} (h : takeNewlines1 i=some (nl,rest)) : nl++rest=i := by
  unfold takeNewlines1 at h
  split at h
  · simp at h
  · have hl := lineEnds_append 1023 i
    rwa [some.inj h] at hl

theorem optSpaces_write (i : Bytes) : writeEvents (optSpaces i).1++(optSpaces i).2=i := by
  unfold optSpaces
  split
  · rename_i ws rest h
    simpa [Event.write] using takeWhile1_append h
  · rfl

theorem optNewlines_write (i : Bytes) : writeEvents (optNewlines i).1++(optNewlines i).2=i := by
  unfold optNewlines
  split
  · rename_i nl rest h
    simpa [Event.write] using takeNewlines1_append h
  · rfl

theorem comment_write (h : comment i=some (e,rest)) : e.write++rest=i := by
  unfold comment at h
  split at h
  · split at h
    · cases h
      simp [Event.write]
    · simp at h
  · simp at h

theorem optComment_write (i : Bytes) : writeEvents (optComment i).1++(optComment i).2=i := by
  unfold optComment
  split
  · rename_i c rest h
    simpa using comment_write h
  · rfl

/-! Values -/

theorem trimEnd_append (l : Bytes) : trimEnd l++l.drop (trimEnd l).length=l := by
  have h : trimEnd l <+: l := by
    rw [trimEnd,← reverse_suffix,reverse_reverse]
    exact dropWhile_suffix isAsciiWhitespace
  exact prefix_iff_eq_append.mp h

theorem scanValue_write {line last : Bytes} {q : Bool} (h : scanValue i line q=some (events,last,rest)) :
    writeEvents events++last++rest=line++i := by
  fun_induction scanValue i line q generalizing events with
  | case1 | case3 | case8 | case9 => simp_all
  | case2 line =>
    obtain ⟨rfl,rfl,rfl⟩ : events=[] ∧ line=last ∧ []=rest := by simpa using h
    simp
  | case4 i line =>
    obtain ⟨rfl,rfl,rfl⟩ : events=[] ∧ line=last ∧ 10::i=rest := by simpa using h
    simp
  | case5 i line q ih =>
    obtain ⟨⟨tail,r⟩,hr,he⟩ := map_eq_some_iff.mp h
    cases he
    simp_all [Event.write]
  | case6 i line q ih =>
    obtain ⟨⟨tail,r⟩,hr,he⟩ := map_eq_some_iff.mp h
    cases he
    simp_all [Event.write]
  | case7 c i line q _ _ hc ih => simpa using ih h
  | case10 i line q ih => simpa using ih h
  | case11 c i line =>
    obtain ⟨rfl,rfl,rfl⟩ : events=[] ∧ line=last ∧ c::i=rest := by simpa using h
    simp
  | case12 c i line q _ _ _ _ _ _ _ ih => simpa using ih h

theorem valueImpl_write (h : valueImpl i=some (events,rest)) : writeEvents events++rest=i := by
  obtain ⟨⟨lines,last,behind⟩,hscan,h⟩ := map_eq_some_iff.mp h
  have hw := scanValue_write hscan
  simp only at h
  split at h
  · rename_i hend
    cases h
    obtain ⟨rfl,rfl⟩ := hend
    simpa [Event.write] using hw
  · cases h
    have hlast : (if lines=[] then Event.value (trimEnd last)
        else .valueDone (trimEnd last)).write=trimEnd last := by
      split <;> rfl
    rw [writeEvents_append,writeEvents_cons,hlast]
    calc writeEvents lines++(trimEnd last++[])++(last.drop (trimEnd last).length++behind)
        = writeEvents lines++(trimEnd last++last.drop (trimEnd last).length)++behind := by simp
      _=i := by rw [trimEnd_append]; simpa using hw

theorem configValue_write (h : configValue i=some (events,rest)) : writeEvents events++rest=i := by
  unfold configValue at h
  split at h
  · rename_i i
    obtain ⟨⟨_,_⟩,hv,he⟩ := map_eq_some_iff.mp h
    cases he
    have hs := optSpaces_write i
    rw [← valueImpl_write hv] at hs
    simpa [Event.write] using hs
  · cases h
    rfl

theorem configName_append (h : configName i=some (name,rest)) : name++rest=i := by
  unfold configName at h
  split at h
  · split at h
    · cases h
      simp
    · simp at h
  · simp at h

theorem keyValuePair_write (h : keyValuePair i=some (events,rest)) : writeEvents events++rest=i := by
  unfold keyValuePair at h
  split at h
  · rename_i name behind hname
    obtain ⟨⟨_,_⟩,hv,he⟩ := map_eq_some_iff.mp h
    cases he
    have hs := optSpaces_write behind
    rw [← configValue_write hv] at hs
    rw [← configName_append hname]
    simpa [Event.write] using hs
  · cases h
    rfl

/-! Bodies -/

theorem bodyRound_write (h : bodyRound i=some (events,rest)) : writeEvents events++rest=i := by
  obtain ⟨⟨kvs,r⟩,hkv,he⟩ := map_eq_some_iff.mp h
  cases he
  calc _=writeEvents (optSpaces i).1++(writeEvents (optNewlines (optSpaces i).2).1++
          (writeEvents kvs++(writeEvents (optComment r).1++(optComment r).2))) := by simp
    _=i := by
      rw [optComment_write,keyValuePair_write hkv,optNewlines_write,optSpaces_write]

theorem bodyLoop_write (h : bodyLoop n i=some (events,rest)) : writeEvents events++rest=i := by
  induction n generalizing i events with
  | zero => simp [bodyLoop] at h
  | succ n ih =>
    obtain ⟨⟨_,_⟩,hr,h⟩ := bind_eq_some_iff.mp h
    have hw := bodyRound_write hr
    split at h
    · cases h
      exact hw
    · obtain ⟨⟨_,_⟩,hl,he⟩ := map_eq_some_iff.mp h
      cases he
      rw [writeEvents_append,append_assoc,ih hl,hw]

/-! Headers -/

theorem cutLast_append {b : UInt8} {l front behind : Bytes}
    (h : cutLast b l=some (front,behind)) : front++b::behind=l := by
  obtain ⟨⟨_,_⟩,hcut,he⟩ := map_eq_some_iff.mp h
  cases he
  have hl := (cut_eq_some.mp hcut).1
  rw [← reverse_reverse l,hl]
  simp

theorem legacyHeader_write (hh : legacyHeader name=some h) : h.write=91::name++[93] := by
  unfold legacyHeader at hh
  split at hh
  · rename_i front behind hcut
    split at hh
    · simp at hh
    · cases hh
      rw [← cutLast_append hcut]
      simp [Header.write]
  · cases hh
    simp [Header.write]

/-- The raw text of a quoted name, up to the first quote that is not escaped. -/
def quotedText : Bytes → Bytes
  | [] => []
  | 92 :: c :: i => 92 :: c :: quotedText i
  | c :: i => if c = 34 then [] else c :: quotedText i

/-- Each backslash escapes a backslash or a quote. -/
def WellEscaped : Bytes → Prop
  | [] => True
  | 92 :: c :: i => (c = 92 ∨ c = 34) ∧ WellEscaped i
  | c :: i => c ≠ 92 ∧ WellEscaped i

theorem escapeSubsection_cons (b : UInt8) (l : Bytes) : escapeSubsection (b::l) =
    (if b=92 then [92,92] else if b=34 then [92,34] else [b])++escapeSubsection l := by
  simp [escapeSubsection]

/-- A name that is closed by its quote is written as it was read. -/
theorem subSection_write (hend : (subSection i).2=34::rest) (h : WellEscaped (quotedText i)) :
    escapeSubsection (subSection i).1++34::rest=i := by
  fun_induction subSection i with
  | case1 => simp at hend
  | case2 c i hc ih =>
    obtain ⟨hesc,htail⟩ := h
    rw [escapeSubsection_cons,append_assoc,ih hend htail]
    rcases hesc with rfl | rfl <;> simp
  | case3 c i hc => simp at hend
  | case4 c i hne hc ih =>
    obtain ⟨⟨⟨hquote,hback⟩,-⟩,-⟩ : ((c≠34 ∧ c≠92) ∧ c≠10) ∧ c≠0 := by
      simpa [isSubsectionUnescapedChar] using hc
    rw [quotedText.eq_3 c i (fun _ _ h _ => hback h),if_neg hquote,WellEscaped.eq_3 c _ (fun _ _ h _ => hback h)] at h
    rw [escapeSubsection_cons,if_neg hback,if_neg hquote,append_assoc,ih hend h.2]
    rfl
  | case5 c i hne hc => exact hend.symm

theorem quotedHeader_write (hh : quotedHeader name i=some (h,rest))
    (hq : ∀ ws text,takeSpaces1 i=some (ws,34::text) → WellEscaped (quotedText text)) :
    h.write++rest=91::name++i := by
  unfold quotedHeader at hh
  split at hh
  · rename_i ws text hws
    split at hh
    · rename_i behind hend
      cases hh
      have hsep : ws≠[46] := by
        rintro rfl
        have hmem : (46 : UInt8)∈i.takeWhile isSpace := by
          rw [← (takeWhile1_eq hws).1]
          exact mem_singleton_self _
        exact absurd (mem_takeWhile_imp hmem) (by decide)
      have hw := subSection_write hend (hq ws text hws)
      rw [← takeWhile1_append hws]
      simp [Header.write,hsep,hw]
    · simp at hh
  · simp at hh

/-- The raw text of the quoted name in the header that starts the input. -/
def quotedName : Bytes → Option Bytes
  | 91 :: i =>
    match takeWhile1 isSectionChar i with
    | some (_,93 :: _) => none
    | some (_,rest) =>
      match takeSpaces1 rest with
      | some (_,34 :: text) => some (quotedText text)
      | _ => none
    | none => none
  | _ => none

theorem sectionHeader_write (hh : sectionHeader i=some (h,rest))
    (hq : ∀ raw,quotedName i=some raw → WellEscaped raw) : h.write++rest=i := by
  unfold sectionHeader at hh
  split at hh
  · split at hh
    · rename_i name behind hname
      obtain ⟨_,hl,he⟩ := map_eq_some_iff.mp hh
      cases he
      rw [legacyHeader_write hl,← takeWhile1_append hname]
      simp
    · rename_i name behind hnot hname
      have hquoted : ∀ ws text,takeSpaces1 behind=some (ws,34::text) →
          WellEscaped (quotedText text) := by
        intro ws text hws
        refine hq _ ?_
        simp [quotedName,hname,hws]
      rw [quotedHeader_write hh hquoted,← takeWhile1_append hname]
      simp
    · simp at hh
  · simp at hh

/-! Files -/

/-- The inputs at which the sections of a file start. -/
def sectionStarts : ℕ → Bytes → List Bytes
  | 0,_ => []
  | n+1,i =>
    match parseSection i with
    | none => []
    | some (_,rest) => i :: sectionStarts n rest

/-- The raw texts of the quoted subsection names of a file without byte-order mark. -/
def quotedNames (input : Bytes) : List Bytes :=
  let i := (frontMatter input).2
  (sectionStarts i.length i).filterMap quotedName

theorem parseSection_write (h : parseSection i=some (events,rest))
    (hq : ∀ raw,quotedName i=some raw → WellEscaped raw) : writeEvents events++rest=i := by
  obtain ⟨⟨_,_⟩,hh,h⟩ := bind_eq_some_iff.mp h
  obtain ⟨⟨_,_⟩,hb,he⟩ := map_eq_some_iff.mp h
  cases he
  rw [writeEvents_cons,append_assoc,bodyLoop_write hb]
  exact sectionHeader_write hh hq

theorem sectionsLoop_write (hq : ∀ raw∈(sectionStarts n i).filterMap quotedName,WellEscaped raw) :
    writeEvents (sectionsLoop n i).1++(sectionsLoop n i).2=i := by
  induction n generalizing i with
  | zero => rfl
  | succ n ih =>
    cases hs : parseSection i with
    | none => simp [sectionsLoop,hs]
    | some r =>
      simp only [sectionStarts,hs,mem_filterMap,mem_cons] at hq
      simp only [sectionsLoop,hs,writeEvents_append,append_assoc]
      rw [ih]
      · exact parseSection_write hs fun raw hraw => hq raw ⟨i,.inl rfl,hraw⟩
      · intro raw hraw
        obtain ⟨start,hstart,he⟩ := mem_filterMap.mp hraw
        exact hq raw ⟨start,.inr hstart,he⟩

theorem frontMatterEvent_write (h : frontMatterEvent i=some (e,rest)) : e.write++rest=i := by
  rcases or_eq_some_iff.mp h with hc | ⟨-,h⟩
  · exact comment_write hc
  rcases or_eq_some_iff.mp h with hs | ⟨-,hn⟩
  · obtain ⟨⟨_,r⟩,hws,he⟩ := map_eq_some_iff.mp hs
    cases he
    exact takeWhile1_append hws
  · obtain ⟨⟨_,r⟩,hnl,he⟩ := map_eq_some_iff.mp hn
    cases he
    exact takeNewlines1_append hnl

theorem frontMatterLoop_write (n : ℕ) (i : Bytes) :
    writeEvents (frontMatterLoop n i).1++(frontMatterLoop n i).2=i := by
  induction n generalizing i with
  | zero => rfl
  | succ n ih =>
    rw [frontMatterLoop]
    split
    · rfl
    · rename_i e rest he
      simpa [ih] using frontMatterEvent_write he

/-- Every byte of an accepted file is in exactly one event, in order: the events together write
the file. -/
theorem from_bytes_lossless (bomLength : Bytes → ℕ) (input : Bytes) (hbom : bomLength input = 0)
    (hquoted : ∀ raw ∈ quotedNames input, WellEscaped raw) {events : List Event}
    (h : fromBytes bomLength input = some events) : writeEvents events = input := by
  have hfront : writeEvents (frontMatter input).1++(frontMatter input).2=input :=
    frontMatterLoop_write input.length input
  have hsections : writeEvents (sections (frontMatter input).2).1++
      (sections (frontMatter input).2).2=(frontMatter input).2 := sectionsLoop_write hquoted
  simp only [fromBytes,hbom,drop_zero] at h
  split at h
  · rename_i hend
    cases h
    rw [hend,append_nil] at hfront
    exact hfront
  · split at h
    · rename_i hend
      cases h
      rw [hend,append_nil] at hsections
      rw [writeEvents_append,hsections,hfront]
    · simp at h

/-- `# c⏎[a "b"c"]⏎ x = "1;2" \⏎ 3 ; d⏎`, with a quote in the subsection, a quoted comment
character, a line that goes on and a comment behind the value. -/
def sampleFile : Bytes :=
  [35,32,99,10,91,97,32,34,98,92,34,99,34,93,10,32,120,32,61,32,34,49,59,50,34,32,92,10,32,51,
    32,59,32,100,10]

theorem from_bytes_lossless_sample :
    (fromBytes (fun _ => 0) sampleFile).map writeEvents = some sampleFile := by
  have haccepted : (fromBytes (fun _ => 0) sampleFile).isSome := by decide +kernel
  obtain ⟨_,he⟩ := isSome_iff_exists.mp haccepted
  have hquoted : ∀ raw∈quotedNames sampleFile, WellEscaped raw := by
    have hnames : quotedNames sampleFile=[[98,92,34,99]] := by decide +kernel
    rw [hnames]
    simp [WellEscaped]
  rw [he,map_some,from_bytes_lossless (fun _ => 0) sampleFile rfl hquoted he]

end Gix.Config
