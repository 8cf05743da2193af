import SsaBlocks.Check.Operand

/-!
# Instances of generic functions

A generic function is used with type arguments. They are given, or found by matching the function
with the type that is asked for or its parameters with the arguments of a call. What is looked for are
fresh type parameters, so that a function may use itself.
-/

namespace SsaBlocks.Check

open SsaBlocks.Types

/-- Makes new type parameters with the names and constraints of others. Yields them, and what the
others stand for. -/
def freshParams (params : List Nat) : Check (List Nat × List (Nat × Ty)) := do
  let fresh ← params.mapM fun p => do newTypeParam ((← store).paramInfo p).name
  let σ := params.zip (fresh.map Ty.param)
  (params.zip fresh).forM fun (p, q) => modifyStore fun s => { s with
    params := s.params.modify q fun info =>
      { info with constraint := s.subst σ (s.paramInfo p).constraint } }
  return (fresh, σ)

def inferArguments (params : List Nat) (given : List (Option Ty)) (pairs : List (Ty × Ty))
    (untyped : List (Nat × Basic)) : Check (List Ty) := do
  match (← store).infer? params given pairs untyped with
  | some args => return args
  | none => reject "type arguments cannot be inferred"

def funcTarget? (s : Store) (target : Option Ty) : Option Ty :=
  target.bind fun t =>
    match s.underlying t with
    | .func params results variadic typeParams => some (.func params results variadic typeParams)
    | _ => none

def instanceOf (x : Operand) (args : List Ty) : Check Operand := do
  match x.type with
  | .func ps rs variadic params =>
    noteInstance params args
    let t := (← store).subst (params.zip args) (.func ps rs variadic [])
    return { x with type := t, given := [] }
  | _ => return x

/-- Gives a generic function its type arguments. Those that are missing are found from the type that
is asked for. Other operands are left alone. -/
def instantiateFunction (target : Option Ty) (x : Operand) : Check Operand := do
  match x.type with
  | .func ps rs variadic (p :: rest) =>
    let params := p :: rest
    let target := funcTarget? (← store) target
    require (target.isSome || !x.given.isEmpty) "generic function without type arguments"
    let (fresh, σ) ← freshParams params
    let own := (← store).subst σ (.func ps rs variadic [])
    let args ← inferArguments fresh (x.given.map some) (target.toList.map fun t => (own, t)) []
    instanceOf x args
  | _ => return x

end SsaBlocks.Check
