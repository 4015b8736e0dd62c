import Gix.TreeEditorEdits

/-! # Trees whose subtrees are written

While trees are written, an entry of a kept tree gets the id of its subtree or is dropped
because the subtree has nothing in it. With all subtrees done, what is left after null ids
are dropped is the flattened form of what the editor stands for. -/
namespace Gix.TreeEditor
open Gix.Tree FlatTree List Option

variable {Id : Type}

/-- What became of a kept tree by its path: it was left out, or has an id now. -/
abbrev Done (Id : Type) := BString → Option (Option Id)

/-- What became of an entry of the tree at a path. -/
def settle (done : Done Id) (path : BString) (e : Entry Id) : Option (Entry Id) :=
  if e.mode.isTree then match done (pushElement path e.filename) with
    | none => some e
    | some none => none
    | some (some id) => some {e with oid := id}
  else some e

/-- The trees that were written, with their ids. -/
abbrev Log (Id : Type) := List (List (Entry Id) × Id)

/-- A store that has the written trees, and in which no tree holds a null id. -/
structure Compatible (hash : Hash Id) (lookup : Id → Option (List (Entry Id))) (log : Log Id) : Prop where
  logged : ∀ t id, (t,id) ∈ log → lookup id = some t
  nonnull : ∀ t id, (t,id) ∈ log → id ≠ hash.null
  clean : ∀ id t, lookup id = some t → ∀ e ∈ t, e.oid ≠ hash.null
  null : content lookup hash.null = []

variable {hash : Hash Id} {lookup : Id → Option (List (Entry Id))} {log log' : Log Id} {T : Trees Id}
  {done : Done Id} {P : List BString} {es : List (Entry Id)} {n : BString}
  {path : BString} {g : Entry Id → Option (Entry Id)}

theorem Compatible.mono (h : Compatible hash lookup log') (hsub : ∀ x∈log,x∈log') :
    Compatible hash lookup log :=
  ⟨fun t id ht => h.logged t id (hsub _ ht),fun t id ht => h.nonnull t id (hsub _ ht),h.clean,h.null⟩

/-! Entries that keep their names -/

theorem findName_filterMap (hes : (es.map Entry.filename).Nodup)
    (hg : ∀ e e',g e=some e' → e'.filename=e.filename) :
    findName (es.filterMap g) n=(findName es n).bind g := by
  induction es with
  | nil => rfl
  | cons e es ih =>
    obtain ⟨hnot,hnodup⟩ := nodup_cons.mp hes
    have hcons : findName (e::es) n=if e.filename=n then some e else findName es n := by
      simp only [findName]
      by_cases h : e.filename=n <;> simp [h]
    rw [hcons,filterMap_cons]
    by_cases hn : e.filename=n
    · have hnone : findName es n=none := by
        rw [findName_eq_none]
        exact fun x hx hxn => hnot (hn ▸ hxn ▸ mem_map_of_mem hx)
      rw [if_pos hn,bind_some]
      cases hge : g e with
      | none => rw [ih hnodup,hnone]; rfl
      | some e' => simp [findName,hg e e' hge,hn]
    · rw [if_neg hn]
      cases hge : g e with
      | none => exact ih hnodup
      | some e' =>
        have hne : e'.filename≠n := by rwa [hg e e' hge]
        simpa [findName,hne] using ih hnodup

theorem sortedTree_filterMap (hes : SortedTree es)
    (hg : ∀ e e',g e=some e' → e'.filename=e.filename ∧ e'.mode=e.mode) : SortedTree (es.filterMap g) := by
  refine ⟨fun e' he' => ?_,?_,?_⟩
  · obtain ⟨e,he,hge⟩ := mem_filterMap.mp he'
    rw [(hg e e' hge).1]
    exact hes.names e he
  · rw [List.Nodup,pairwise_map,pairwise_filterMap]
    refine (pairwise_map.mp hes.unique).imp fun {a b} hab a' ha b' hb => ?_
    rwa [(hg a a' ha).1,(hg b b' hb).1]
  · rw [pairwise_filterMap]
    refine hes.sorted.imp fun {a b} hab a' ha b' hb => ?_
    have hcmp : a'.cmp b'=a.cmp b := by
      simp only [Entry.cmp,Entry.byteAt,(hg a a' ha).1,(hg b b' hb).1,(hg a a' ha).2,(hg b b' hb).2]
    rw [hcmp,hab]

theorem settle_names {e e' : Entry Id} (h : settle done path e=some e') :
    e'.filename=e.filename ∧ e'.mode=e.mode := by
  unfold settle at h
  split at h
  · split at h
    · rw [← some.inj h]
      exact ⟨rfl,rfl⟩
    · simp at h
    · rw [← some.inj h]
      exact ⟨rfl,rfl⟩
  · rw [← some.inj h]
    exact ⟨rfl,rfl⟩

theorem sortedTree_settle (done : Done Id) (hes : SortedTree es) (path : BString) : SortedTree (es.filterMap (settle done path)) :=
  sortedTree_filterMap hes fun _ _ => settle_names

/-- Entries that do not lead to a tree are the same after it is done. -/
theorem filterMap_settle_of_ne {k : BString} (hk : ∀ e∈es,pushElement path e.filename≠k)
    (r : Option (Option Id)) :
    es.filterMap (settle (Function.update done k r) path)=es.filterMap (settle done path) := by
  refine filterMap_congr fun e he => ?_
  simp [settle,Function.update_of_ne (hk e he)]

theorem filterMap_settle_split (hes : (es.map Entry.filename).Nodup) {e : Entry Id} (he : e∈es)
    (ht : e.mode.isTree=true) (hopen : done (pushElement path e.filename)=none) :
    ∃ pre post,es.filterMap (settle done path)=pre++e::post ∧
      ∀ r : Option Id,es.filterMap (settle (Function.update done (pushElement path e.filename) (some r)) path) =
        pre++(r.map (fun id => {e with oid := id})).toList++post := by
  obtain ⟨pre,post,rfl⟩ := append_of_mem he
  have hother : ∀ x,x∈pre ∨ x∈post → pushElement path x.filename≠pushElement path e.filename := by
    intro x hx heq
    rw [map_append,map_cons,nodup_middle,nodup_cons] at hes
    refine hes.1 (pushElement_inj heq ▸ ?_)
    rw [← map_append]
    exact mem_map_of_mem (mem_append.mpr hx)
  refine ⟨pre.filterMap (settle done path),post.filterMap (settle done path),?_,fun r => ?_⟩
  · simp [settle,hopen]
  · rw [filterMap_append,filterMap_cons,filterMap_settle_of_ne fun x hx => hother x (.inl hx),
      filterMap_settle_of_ne fun x hx => hother x (.inr hx)]
    cases r <;> simp [settle,ht]

section Clean
variable (hclean : ∀ id t, lookup id = some t → ∀ e ∈ t, e.oid ≠ hash.null)
  {q : List BString} {x : EntryMode × Id}
include hclean

theorem content_clean (id : Id) : ∀ e∈content lookup id,e.oid≠hash.null := by
  intro e he
  cases hl : lookup id with
  | none => simp [content,hl] at he
  | some t =>
    rw [content,hl] at he
    exact hclean id t hl e he

/-- Null ids do not show up in a store without them. -/
theorem flat_clean (hes : ∀ e∈es,e.oid≠hash.null)
    (h : flat lookup es q=some x) : x.2≠hash.null := by
  induction q generalizing es with
  | nil => simp [flat] at h
  | cons n q ih =>
    rw [flat_cons] at h
    obtain ⟨e,he,hx⟩ := bind_eq_some_iff.mp h
    cases q with
    | nil =>
      simp only [leafAt] at hx
      split at hx
      · simp at hx
      · rw [← some.inj hx]
        exact hes e (mem_of_find?_eq_some he)
    | cons m q =>
      simp only [leafAt] at hx
      split at hx
      · exact ih (content_clean hclean e.oid) hx
      · simp at hx

theorem leafAt_clean {mode : EntryMode} {oid : Id} (hoid : oid≠hash.null)
    (h : leafAt lookup mode oid q=some x) : x.2≠hash.null := by
  cases q with
  | nil =>
    simp only [leafAt] at h
    split at h
    · simp at h
    · rw [← some.inj h]
      exact hoid
  | cons m q =>
    simp only [leafAt] at h
    split at h
    · exact flat_clean hclean (content_clean hclean oid) h
    · simp at h

end Clean

variable [DecidableEq Id]

/-- `t` is the flattened form of what is kept at `P`. -/
structure Settled (hash : Hash Id) (lookup : Id → Option (List (Entry Id))) (T : Trees Id) (P : List BString)
    (es t : List (Entry Id)) : Prop where
  sorted : SortedTree t
  nonnull : ∀ e ∈ t, e.oid ≠ hash.null
  flat : ∀ q, ValidPath q → flat lookup t q = dropNull hash.null (view T lookup P es) q

/-- What is known about the kept trees that are done. -/
structure DoneRight (hash : Hash Id) (lookup : Id → Option (List (Entry Id))) (T : Trees Id) (log : Log Id)
    (done : Done Id) : Prop where
  left : ∀ P es, ValidPath P → T (join P) = some es → done (join P) = some none → Settled hash lookup T P es []
  written : ∀ P es id, ValidPath P → T (join P) = some es → done (join P) = some (some id) →
    ∃ t, (t,id) ∈ log ∧ t ≠ [] ∧ Settled hash lookup T P es t
  kept : ∀ k, done k ≠ none → T k ≠ none

/-- An entry that is not that of a kept tree. -/
theorem leafAt_dropNull (hcompat : Compatible hash lookup log) (mode : EntryMode) (oid : Id) (q : List BString) :
    (if oid=hash.null then none else leafAt lookup mode oid q) =
      (leafAt lookup mode oid q).filter (fun x => x.2≠hash.null) := by
  by_cases ho : oid=hash.null
  · rw [ho]
    cases q with
    | nil => simp [leafAt,hcompat.null,Option.filter]
    | cons m q =>
      by_cases ht : mode.isTree=true <;> simp [leafAt,hcompat.null,flat_empty]
  · rw [if_neg ho]
    cases hx : leafAt lookup mode oid q with
    | none => rfl
    | some x => simp [Option.filter,leafAt_clean hcompat.clean ho hx]

/-- With all kept subtrees done, a tree is settled once its null ids are dropped. -/
theorem settled (hcompat : Compatible hash lookup log) (hdone : DoneRight hash lookup T log done)
    (hes : SortedTree es) (hP : ValidPath P)
    (hall : ∀ e∈es,e.mode.isTree=true → T (join (P++[e.filename]))≠none → done (join (P++[e.filename]))≠none) :
    Settled hash lookup T P es ((es.filterMap (settle done (join P))).filter (fun e => e.oid≠hash.null)) := by
  refine ⟨?_,fun e he => by simpa using (mem_filter.mp he).2,?_⟩
  · have hsettled := sortedTree_settle done hes (join P)
    exact ⟨fun e he => hsettled.names e (mem_of_mem_filter he),
      hsettled.unique.sublist (filter_sublist.map _),hsettled.sorted.sublist filter_sublist⟩
  · intro q hq
    cases q with
    | nil => rfl
    | cons n q =>
      obtain ⟨hn,hrest⟩ := validPath_cons.mp hq
      have hPn := validPath_concat.mpr ⟨hP,hn⟩
      have hfind : findName ((es.filterMap (settle done (join P))).filter (fun e => e.oid≠hash.null)) n =
          ((findName es n).bind (settle done (join P))).bind (fun e => if e.oid=hash.null then none else some e) := by
        have hsettled := sortedTree_settle done hes (join P)
        rw [← findName_filterMap hes.unique fun e e' h => (settle_names h).1,
          ← findName_filterMap hsettled.unique (by
            intro e e' h
            split at h
            · simp at h
            · rw [← some.inj h])]
        congr 1
        rw [← filterMap_eq_filter]
        refine filterMap_congr fun e _ => ?_
        by_cases h : e.oid=hash.null <;> simp [Option.guard]
      rw [flat_cons,hfind,dropNull,view]
      cases he : findName es n with
      | none => rfl
      | some e =>
        obtain ⟨hmem,rfl⟩ := (findName_eq_some hes).mp he
        have hleaf := leafAt_dropNull hcompat e.mode e.oid q
        rw [bind_some,bind_some,settle]
        by_cases ht : e.mode.isTree=true
        · rw [if_pos ht,if_pos ht,← join_append]
          cases hk : T (join (P++[e.filename])) with
          | none =>
            have hnone : done (join (P++[e.filename]))=none := by
              by_contra h
              exact hdone.kept _ h hk
            simp only [hnone]
            rw [← hleaf]
            by_cases ho : e.oid=hash.null <;> simp [ho]
          | some sub =>
            cases hd : done (join (P++[e.filename])) with
            | none => exact absurd hd (hall e hmem ht (by simp [hk]))
            | some r =>
              cases r with
              | none =>
                have hleft := (hdone.left _ _ hPn hk hd).flat q hrest
                rw [flat_empty] at hleft
                exact hleft
              | some id =>
                obtain ⟨t,hlog,hne,hsettled⟩ := hdone.written _ _ id hPn hk hd
                have hid := hcompat.nonnull t id hlog
                have hcontent : content lookup id=t := by simp [content,hcompat.logged t id hlog]
                simp only [bind_some,hid,if_false]
                cases q with
                | nil => simp [leafAt,ht,hcontent,hne,view]
                | cons m q =>
                  simp only [leafAt,ht,hcontent]
                  exact hsettled.flat (m::q) hrest
        · rw [if_neg ht,if_neg ht,← hleaf]
          by_cases ho : e.oid=hash.null <;> simp [ho]

end Gix.TreeEditor
