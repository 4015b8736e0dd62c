import Gix.AttributeSearchResult

/-! # Macros that are not set

A macro that is met leads to its definition, whatever the state is that it is met with: the last
assignment of the definition that was not met before comes next. -/
namespace Gix.Attributes
open FirstVisit List

variable {R : Type} {files : List AttributeFile} {strip : Option Bytes → Option R}
    {matching : Pattern → R → Bool}

/-- What comes next after a macro is the first visit to its name, and comes from the macro. -/
theorem expanded_next {met before : List Visit} {v : Visit} {front back : List Assignment} {b : Assignment}
    (hmet : Visited strip matching files met) (hpre : before++[v] <+: met)
    (hdef : definition files v.name=front++b::back) (hback : ∀ x∈back,x.name∈metNames (before++[v]))
    (hnew : b.name∉metNames (before++[v])) : met.find? (·.name=b.name)=some ⟨b,some v.name⟩ := by
  have hchildren : childrenOf (definition files) v.name =
      back.reverse.map (fun a => ⟨a,some v.name⟩)++⟨b,some v.name⟩::front.reverse.map fun a => ⟨a,some v.name⟩ := by
    simp [childrenOf,hdef]
  have hfront : ∀ x∈back.reverse.map (fun a => Visit.mk a (some v.name)),x.name∈metNames (before++[v]) := by
    intro x hx
    obtain ⟨a,ha,rfl⟩ := mem_map.mp hx
    exact hback a (mem_reverse.mp ha)
  obtain ⟨more,rfl⟩ := Meets.first_child hmet hpre hchildren hfront hnew
  rw [append_assoc,find?_append,find?_key_eq_none.mpr hnew]
  simp

/-- A search for some attributes, or for all if none is named. -/
def searchFiles (hashes : Hashes) (strip : Option Bytes → Option R) (matching : Pattern → R → Bool)
    (files : List AttributeFile) (names : List Bytes) : Option (Bool × Outcome) :=
  patternMatchingRelativePath hashes strip matching (addFiles files).1
    (.initializeWithSelection (addFiles files).2 names .default)

/-- The macro `m` sets `a`; all paths have it unset. -/
def unsetMacro : AttributeFile :=
  ⟨[some ⟨.macroName [109],[some ⟨[97],.set⟩],1⟩,some ⟨.pattern everywhere,[some ⟨[109],.unset⟩],2⟩],[],none,true⟩

end Gix.Attributes
