/-!
# Ordered sets

A finite set of texts, listed in the order of their code points.
-/

namespace SsaBlocks

/-- A set of texts, in increasing order. -/
structure OrderedSet where
  members : List String := []
deriving DecidableEq, Repr, Inhabited

namespace OrderedSet

def place (a : String) : List String → List String
  | [] => [a]
  | b :: rest => if a < b then a :: b :: rest else if a = b then b :: rest else b :: place a rest

def insertAll (s : OrderedSet) (texts : List String) : OrderedSet :=
  ⟨texts.foldl (fun members a => place a members) s.members⟩

def ofList (texts : List String) : OrderedSet :=
  ({} : OrderedSet).insertAll texts

def erase (s : OrderedSet) (a : String) : OrderedSet :=
  ⟨s.members.filter (· ≠ a)⟩

def contains (s : OrderedSet) (a : String) : Bool :=
  s.members.contains a

def descending (s : OrderedSet) : List String :=
  s.members.reverse

theorem mem_place {a b : String} {l : List String} : b ∈ place a l ↔ b = a ∨ b ∈ l := by
  induction l with
  | nil => simp [place]
  | cons c rest ih =>
    unfold place
    split
    · simp
    · split
      · next h => subst h; simp
      · simp [ih, or_left_comm]

end OrderedSet

end SsaBlocks
