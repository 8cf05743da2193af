import SsaBlocks.Types.TypeSet

/-!
# Finite types

A value takes finite space only if its type does not contain itself other than through a pointer or
the like. And only finitely many instances of a generic declaration may be needed: no type parameter
may be given, through whatever chain of instances, a type built from itself.
-/

namespace SsaBlocks.Types

namespace Store

/-- Whether a type does not contain itself, up to a depth. `nest` are the declared types that contain
it, the innermost first. A type parameter stands for the type argument of the innermost, which is
written outside of it. -/
def finiteUpTo (s : Store) : Nat → List Ty → Ty → Bool
  | 0, _, _ => false
  | fuel + 1, nest, t =>
    match s.unalias t with
    | .array _ element => finiteUpTo s fuel nest element
    | .struct fields => fields.all fun f => finiteUpTo s fuel nest f.2.1
    | .interface _ _ embedded => embedded.all (finiteUpTo s fuel nest)
    | .union terms => terms.all fun u => finiteUpTo s fuel nest u.2
    | .named id args =>
      !nest.any (s.identical (.named id args)) &&
        (s.typeInfo id).definition.all (finiteUpTo s fuel (.named id args :: nest))
    | .param id =>
      match nest with
      | .named outer args :: rest =>
        (((s.typeInfo outer).typeParams.zip args).lookup id).all (finiteUpTo s fuel rest)
      | _ => true
    | _ => true

def isFinite (s : Store) (id : Nat) : Bool :=
  finiteUpTo s (s.depth + 1) [] (.named id [])

/-! ## Instances -/

/-- A type parameter, or a type that is declared in a generic function and so depends on type
parameters. -/
inductive Origin
  | param (id : Nat)
  | declared (id : Nat)
deriving DecidableEq

/-- The type parameters and local types within a type, up to a depth; `whole` tells whether the type
stands alone, and the result whether it is part of a larger one. -/
def sourcesUpTo (s : Store) : Nat → Bool → Ty → List (Origin × Bool)
  | 0, _, _ => []
  | fuel + 1, whole, t =>
    let go := sourcesUpTo s fuel false
    match s.unalias t with
    | .param id => [(.param id, !whole)]
    | .named id args =>
      (if (s.typeInfo id).ambient.isEmpty then [] else [(.declared id, !whole)]) ++ args.flatMap go
    | .pointer a | .slice a | .array _ a | .chan _ a => go a
    | .map a b => go a ++ go b
    | .func ps rs _ _ => ps.flatMap (fun p => go p.2) ++ rs.flatMap fun p => go p.2
    | .struct fs => fs.flatMap fun f => go f.2.1
    | .interface k ms es => (s.typeSet (.interface k ms es)).methods.flatMap fun m => go m.2
    | _ => []

/-- A parameter of a receiver stands for a parameter of its type. -/
def canonicalParam (s : Store) (id : Nat) : Nat :=
  ((s.paramInfo id).standsFor).getD id

/-- Which origins flow into which, and whether they grow on the way: a type argument flows into its
parameter, and the parameters of a function into the types that are declared in it. -/
def flows (s : Store) (instances : List (List Nat × List Ty)) : List (Origin × Origin × Bool) :=
  let canonical := fun
    | Origin.param id => .param (s.canonicalParam id)
    | d => d
  let direct := instances.flatMap fun (params, args) => (params.zip args).flatMap fun (p, t) =>
    (sourcesUpTo s (s.depth + 1) true t).map fun (source, grows) =>
      (canonical source, .param (s.canonicalParam p), grows)
  let ambient := s.declared.toList.zipIdx.flatMap fun (d, id) => d.ambient.map fun p =>
    (.param (s.canonicalParam p), .declared id, true)
  direct ++ ambient

/-- What can be reached by a relation, with fuel. -/
def reachableUpTo {α : Type} [BEq α] (edges : List (α × α)) : Nat → List α → List α → List α
  | 0, seen, _ => seen
  | _, seen, [] => seen
  | fuel + 1, seen, a :: rest =>
    if seen.contains a then reachableUpTo edges fuel seen rest
    else
      let next := edges.filterMap fun e => if e.1 == a then some e.2 else none
      reachableUpTo edges fuel (a :: seen) (next ++ rest)

def reachable {α : Type} [BEq α] (edges : List (α × α)) (start : List α) : List α :=
  reachableUpTo edges ((edges.length + 1) * (edges.length + start.length + 1)) [] start

def finitelyInstantiated (s : Store) (instances : List (List Nat × List Ty)) : Bool :=
  let all := s.flows instances
  let edges := all.map fun e => (e.1, e.2.1)
  all.all fun (source, target, grows) => !grows || !(reachable edges [target]).contains source

end Store

end SsaBlocks.Types
