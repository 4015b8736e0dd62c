import Mathlib

/-! # First visits

Elements are met one after the other, each followed at once by its children. What was met before is
passed over with its children, so cycles end. A stack that only takes what was not met yet goes through
the elements in the same order. -/
namespace Gix.FirstVisit
open List
variable {α K : Type} {key : α → K} {children : K → List α}

/-- From those met before, through a list, to all that are met then. -/
inductive Meets (key : α → K) (children : K → List α) : List α → List α → List α → Prop
  | nil (met) : Meets key children [] met met
  | seen {a todo met out} : key a ∈ met.map key → Meets key children todo met out →
      Meets key children (a :: todo) met out
  | new {a todo met mid out} : key a ∉ met.map key → Meets key children (children (key a)) (met++[a]) mid →
      Meets key children todo mid out → Meets key children (a :: todo) met out

variable {a : α} {as todo met mid out : List α}

variable (h : Meets key children todo met out)
include h

theorem Meets.extends : ∃ more,out=met++more := by
  induction h with
  | nil met => exact ⟨[],(append_nil met).symm⟩
  | seen _ _ ih => exact ih
  | @new a todo met mid out _ _ _ ih1 ih2 =>
    obtain ⟨more1,rfl⟩ := ih1
    obtain ⟨more2,rfl⟩ := ih2
    exact ⟨a::(more1++more2),by simp⟩

omit h in
theorem nodup_concat (hmet : (met.map key).Nodup) (ha : key a∉met.map key) : ((met++[a]).map key).Nodup := by
  simpa using hmet.concat ha

theorem Meets.nodup (hmet : (met.map key).Nodup) : (out.map key).Nodup := by
  induction h with
  | nil => exact hmet
  | seen _ _ ih => exact ih hmet
  | new ha _ _ ih1 ih2 => exact ih2 (ih1 (nodup_concat hmet ha))

theorem Meets.forall {p : α → Prop} (htodo : ∀ a∈todo,p a)
    (hchildren : ∀ k,∀ a∈children k,p a) (hmet : ∀ a∈met,p a) : ∀ a∈out,p a := by
  induction h with
  | nil => exact hmet
  | seen _ _ ih => exact ih (forall_mem_cons.mp htodo).2 hmet
  | @new a todo met mid out _ _ _ ih1 ih2 =>
    rw [forall_mem_cons] at htodo
    refine ih2 htodo.2 (ih1 (hchildren (key a)) ?_)
    rw [forall_mem_append]
    exact ⟨hmet,by simpa using htodo.1⟩

theorem Meets.unique {out' : List α} (h' : Meets key children todo met out') :
    out=out' := by
  induction h generalizing out' with
  | nil =>
    cases h'
    rfl
  | seen ha _ ih =>
    cases h' with
    | seen _ h' => exact ih h'
    | new hn => exact absurd ha hn
  | new ha _ _ ih1 ih2 =>
    cases h' with
    | seen hs => exact absurd hs ha
    | new _ h1 h2 =>
      cases ih1 h1
      exact ih2 h2

omit h

theorem Meets.append (h : Meets key children as met mid) (h1 : Meets key children todo mid out) :
    Meets key children (as++todo) met out := by
  induction h with
  | nil => exact h1
  | seen ha _ ih => exact .seen ha (ih h1)
  | new ha hc _ _ ih => exact .new ha hc (ih h1)

theorem Meets.split (h : Meets key children (as++todo) met out) :
    ∃ mid,Meets key children as met mid ∧ Meets key children todo mid out := by
  induction as generalizing met with
  | nil => exact ⟨met,.nil met,h⟩
  | cons a as ih =>
    cases h with
    | seen ha h =>
      obtain ⟨mid,h1,h2⟩ := ih h
      exact ⟨mid,.seen ha h1,h2⟩
    | new ha hc h =>
      obtain ⟨mid,h1,h2⟩ := ih h
      exact ⟨mid,.new ha hc h1,h2⟩

/-! What a stack does -/

theorem meets_seen (ha : key a∈met.map key) :
    Meets key children (a::todo) met out ↔ Meets key children todo met out := by
  refine ⟨fun h => ?_,.seen ha⟩
  cases h with
  | seen _ h => exact h
  | new hn => exact absurd ha hn

theorem meets_new (ha : key a∉met.map key) :
    Meets key children (a::todo) met out ↔ Meets key children (children (key a)++todo) (met++[a]) out := by
  constructor
  · intro h
    cases h with
    | seen hs => exact absurd hs ha
    | new _ hc h => exact hc.append h
  · intro h
    obtain ⟨_,hc,h⟩ := h.split
    exact .new ha hc h

theorem meets_filter {p : α → Bool} (hp : ∀ a∈as,p a=false → key a∈met.map key) :
    Meets key children (as.filter p++todo) met out ↔ Meets key children (as++todo) met out := by
  induction as generalizing met with
  | nil => rfl
  | cons a as ih =>
    rw [forall_mem_cons] at hp
    cases hpa : p a with
    | false =>
      rw [filter_cons_of_neg (by simp [hpa]),cons_append,meets_seen (hp.1 hpa)]
      exact ih hp.2
    | true =>
      rw [filter_cons_of_pos hpa,cons_append,cons_append]
      by_cases ha : key a∈met.map key
      · rw [meets_seen ha,meets_seen ha]
        exact ih hp.2
      · -- those met so far are still met behind the children
        have hmid : ∀ mid,Meets key children (children (key a)) (met++[a]) mid →
            ∀ b∈as,p b=false → key b∈mid.map key := by
          intro mid hc b hb hpb
          obtain ⟨_,rfl⟩ := hc.extends
          simp only [map_append,mem_append]
          exact .inl (.inl (hp.2 b hb hpb))
        constructor
        · intro h
          cases h with
          | seen hs => exact absurd hs ha
          | new _ hc h => exact .new ha hc ((ih (hmid _ hc)).mp h)
        · intro h
          cases h with
          | seen hs => exact absurd hs ha
          | new _ hc h => exact .new ha hc ((ih (hmid _ hc)).mpr h)

theorem meets_all_seen (ha : ∀ a∈todo,key a∈met.map key) : Meets key children todo met out ↔ out=met := by
  induction todo with
  | nil =>
    constructor
    · intro h
      cases h
      rfl
    · rintro rfl
      exact .nil _
  | cons a todo ih =>
    rw [forall_mem_cons] at ha
    exact (meets_seen ha.1).trans (ih ha.2)

/-- Elements may be replaced by others with the same keys. -/
theorem Meets.map {β : Type} {key' : β → K} {children' : K → List β} (f : α → β) (hkey : ∀ a,key' (f a)=key a)
    (hchildren : ∀ k,(children k).map f=children' k) (h : Meets key children todo met out) :
    Meets key' children' (todo.map f) (met.map f) (out.map f) := by
  have hkeys : ∀ l : List α,(l.map f).map key'=l.map key := fun l => by simp [Function.comp_def,hkey]
  induction h with
  | nil met => exact .nil _
  | seen ha _ ih => exact .seen (by rwa [hkeys,hkey]) ih
  | new ha _ _ ih1 ih2 =>
    rw [hchildren,map_append,← hkey] at ih1
    exact .new (by rwa [hkeys,hkey]) ih1 ih2

/-- Whatever is met is followed by its children. -/
theorem Meets.children_next {before : List α} (h : Meets key children todo met out) (hin : before++[a] <+: out)
    (hlen : met.length ≤ before.length) : ∃ todo',Meets key children (children (key a)++todo') (before++[a]) out := by
  induction h with
  | nil met =>
    have := hin.length_le
    rw [length_append,length_singleton] at this
    omega
  | seen _ _ ih => exact ih hin hlen
  | @new a0 todo met mid out _ hc h ihc ih =>
    rcases Nat.lt_or_ge before.length mid.length with hlt | hge
    · have hmid : before++[a] <+: mid := by
        obtain ⟨rest,rfl⟩ := h.extends
        exact prefix_of_prefix_length_le hin (prefix_append _ _) (by rw [length_append,length_singleton]; omega)
      rcases Nat.lt_or_eq_of_le hlen with hlt | heq
      · obtain ⟨todo1,hnext⟩ := ihc hmid (by rw [length_append,length_singleton]; omega)
        exact ⟨todo1++todo,by rw [← append_assoc]; exact hnext.append h⟩
      · obtain ⟨more,rfl⟩ := hc.extends
        have hsame : met++[a0]=before++[a] := by
          refine IsPrefix.eq_of_length (prefix_of_prefix_length_le (prefix_append _ more) hmid ?_) ?_ <;>
            simp [heq]
        obtain ⟨rfl,hlast⟩ := append_inj' hsame rfl
        obtain rfl := singleton_injective hlast
        exact ⟨todo,hc.append h⟩
    · exact ih hin hge

/-- Its first child that was not met before comes next. -/
theorem Meets.first_child {before front back : List α} {b : α} (h : Meets key children todo [] out) (hin : before++[a] <+: out)
    (hchildren : children (key a)=front++b::back) (hfront : ∀ x∈front,key x∈(before++[a]).map key)
    (hb : key b∉(before++[a]).map key) : before++[a]++[b] <+: out := by
  obtain ⟨todo',hnext⟩ := h.children_next hin (Nat.zero_le _)
  rw [hchildren,append_assoc] at hnext
  obtain ⟨mid,hseen,hrest⟩ := hnext.split
  rw [(meets_all_seen hfront).mp hseen,cons_append] at hrest
  obtain ⟨more,rfl⟩ := ((meets_new hb).mp hrest).extends
  exact prefix_append _ _

/-- Of finitely many keys the search comes to an end, cycles or not. -/
theorem meets_exists {keys : List K} (htodo : ∀ a∈todo,key a∈keys) (hchildren : ∀ k,∀ a∈children k,key a∈keys)
    (hmet : ∀ a∈met,key a∈keys) (hnodup : (met.map key).Nodup) : ∃ out,Meets key children todo met out := by
  -- on the number of keys that were not met
  have hstep : ∀ n,∀ todo met : List α,keys.length < met.length+n → (∀ a∈todo,key a∈keys) →
      (∀ a∈met,key a∈keys) → (met.map key).Nodup → ∃ out,Meets key children todo met out := by
    intro n
    induction n with
    | zero =>
      intro todo met hn _ hmet hnodup
      have hle := (subperm_of_subset hnodup fun k hk => by
        obtain ⟨a,ha,rfl⟩ := mem_map.mp hk
        exact hmet a ha).length_le
      rw [length_map] at hle
      omega
    | succ n ih =>
      intro todo met hn htodo hmet hnodup
      induction todo with
      | nil => exact ⟨met,.nil met⟩
      | cons a todo ihtodo =>
        rw [forall_mem_cons] at htodo
        by_cases ha : key a∈met.map key
        · obtain ⟨out,h⟩ := ihtodo htodo.2
          exact ⟨out,.seen ha h⟩
        · have hmeta : ∀ b∈met++[a],key b∈keys := by
            intro b hb
            rcases mem_append.mp hb with hb | hb
            · exact hmet b hb
            · rw [mem_singleton.mp hb]
              exact htodo.1
          have hlen : keys.length < (met++[a]).length+n := by
            rw [length_append,length_singleton]
            omega
          obtain ⟨mid,hc⟩ := ih (children (key a)) (met++[a]) hlen (hchildren (key a)) hmeta (nodup_concat hnodup ha)
          obtain ⟨_,hmore⟩ := hc.extends
          obtain ⟨out,h⟩ := ih todo mid (by rw [hmore,length_append]; omega) htodo.2
            (hc.forall (hchildren (key a)) hchildren hmeta) (hc.nodup (nodup_concat hnodup ha))
          exact ⟨out,.new ha hc h⟩
  exact hstep (keys.length+1) todo met (by omega) htodo hmet hnodup

end Gix.FirstVisit
