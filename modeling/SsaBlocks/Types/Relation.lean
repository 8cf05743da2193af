import SsaBlocks.Types.Member

/-!
# Implementation and assignment

Which types implement an interface, and between which types values can be assigned.
-/

namespace SsaBlocks.Types

namespace Store

/-- Whether a type implements an interface. As a type argument, a type whose comparison may fail
counts as comparable. -/
def implements (s : Store) (t iface : Ty) (asArgument : Bool) : Bool :=
  s.standsForInterface iface &&
    let set := s.typeSet iface
    let own := s.typeSet t
    let isInterface := s.standsForInterface t
    set.isAll || (isInterface && own.isEmpty) ||
      (!set.isEmpty && s.hasMethods t set.methods &&
        (match set.terms with
          | none => true
          | some terms =>
            if isInterface then Term.allWithin s.identical s.underlying own.terms set.terms
            else terms.any (s.inTerm t)) &&
        -- The types of a constraint that are all comparable ask for a comparable type.
        (!s.strictlyComparable iface || s.strictlyComparable t ||
          (asArgument && s.comparable t)))

/-- Whether a value can be assigned between two types one of which is no type parameter. -/
def assignablePlain (s : Store) (v t : Ty) : Bool :=
  let vu := s.underlying v
  let tu := s.underlying t
  let plain := !s.isParam v && !s.isParam t
  let oneUnnamed := !s.hasName v || !s.hasName t
  s.identical v t ||
    (plain && oneUnnamed && s.identical vu tu) ||
    (s.isInterface t && s.implements v t false) ||
    (plain && oneUnnamed && match vu, tu with
      | .chan .both a, .chan _ b => s.identical a b
      | _, _ => false)

/-- Whether a value of a typed type can be assigned to a variable of another. A type parameter stands
for all of its types, if the other type has no name. -/
def assignable (s : Store) (v t : Ty) : Bool :=
  s.assignablePlain v t ||
    (s.isParam t && !s.hasName v && (s.specificTypes t).any fun ts => ts.all (s.assignablePlain v)) ||
    (s.isParam v && !s.hasName t &&
      (s.specificTypes v).any fun vs => vs.all fun v => s.assignablePlain v t)

def satisfies (s : Store) (params : List Nat) (args : List Ty) : Bool :=
  let σ := params.zip args
  params.length == args.length &&
    σ.all fun (id, t) => s.implements t (s.subst σ (s.constraintOf id)) true

end Store

end SsaBlocks.Types
