import SsaBlocks.Types.Relation

/-!
# Inferring type arguments

Type arguments are found by matching the types of parameters with those of arguments, and by what the
constraints of the type parameters say. Types match exactly, or loosely as assignment allows: a
declared type then matches what it stands for, channels match whatever their direction, and an
interface matches a type with its methods.
-/

namespace SsaBlocks.Types

/-- What is known of the type parameters that are to be found: which of them are the same, and the
types that they stand for. Parameters that are the same belong to one class, which is named by one of
them. -/
structure Unifier where
  classes : List (Nat × Nat)
  types : List (Nat × Ty) := []
deriving Inhabited

namespace Unifier

def start (params : List Nat) (given : List (Option Ty)) : Unifier :=
  { classes := params.map fun p => (p, p)
    types := (params.zip given).filterMap fun p => p.2.map fun t => (p.1, t) }

def typeOf? (u : Unifier) (p : Nat) : Option Ty :=
  (u.classes.lookup p).bind fun c => u.types.lookup c

def assign (u : Unifier) (p : Nat) (t : Ty) : Unifier :=
  match u.classes.lookup p with
  | some c => { u with types := (c, t) :: u.types.filter fun e => e.1 != c }
  | none => u

/-- Notes that two parameters are the same, unless both are known. -/
def join? (u : Unifier) (p q : Nat) : Option Unifier :=
  match u.classes.lookup p, u.classes.lookup q with
  | some c, some d =>
    let merge := fun (old new : Nat) =>
      { u with classes := u.classes.map fun e => (e.1, if e.2 == old then new else e.2) }
    if c == d then some u
    else
      match u.types.lookup c, u.types.lookup d with
      | some _, some _ => none
      | some _, none => some (merge d c)
      | none, _ => some (merge c d)
  | _, _ => none

def unknowns (u : Unifier) : Nat :=
  (u.classes.filter fun e => (u.types.lookup e.2).isNone).length

end Unifier

/-- How types match: as assignment allows at the top only, or exactly. Without either, they match
loosely at any depth. -/
structure Matching where
  assign : Bool := false
  exact : Bool := false
deriving Inhabited

def Matching.parts (m : Matching) : Matching :=
  { m with exact := m.exact || m.assign }

namespace Store

/-- Matches lists element by element. -/
def unifyLists {α : Type} (unify : Unifier → α → α → Option Unifier) :
    Unifier → List α → List α → Option Unifier
  | u, [], [] => some u
  | u, a :: as, b :: bs => do unifyLists unify (← unify u a b) as bs
  | _, _, _ => none

/-- Of two types that match loosely, the one that the other can be assigned to: an interface, a
declared type, or a channel with a direction. -/
def wider (s : Store) (x y : Ty) : Ty :=
  let isDeclared := fun (t : Ty) =>
    match s.unalias t with
    | .named _ _ => true
    | _ => false
  let isDirected := match s.unalias y with
    | .chan d _ => d != .both
    | _ => false
  if s.standsForInterface x != s.standsForInterface y then
    if s.standsForInterface x then x else y
  else if isDeclared x then x
  else if isDeclared y || isDirected then y
  else x

/-- Matches two types, up to a depth. `assumed` are the interfaces that are being matched. -/
def unifyUpTo (s : Store) : Nat → Matching → List (Ty × Ty) → Unifier → Ty → Ty → Option Unifier
  | 0, _, _, _, _, _ => none
  | fuel + 1, mode, assumed, u, x, y =>
    let go := fun (mode : Matching) => unifyUpTo s fuel mode assumed
    let exactly := fun (u : Unifier) => go { exact := true } u
    let bound := fun (t : Ty) => (s.param? t).filter fun p => (u.classes.lookup p).isSome
    let isDeclared := fun (t : Ty) =>
      match s.unalias t with
      | .named _ _ => true
      | _ => false
    let alike := fun (x y : Ty) => (s.unalias x).alikeUpTo fuel (s.unalias y)
    if alike x y then some u
    else
      -- A declared type comes last, and a parameter to be found first.
      let (x, y) := if isDeclared x || (bound y).isSome then (y, x) else (x, y)
      let isLiteral := !isDeclared x && !s.isParam x
      let y := if !mode.exact && isDeclared y && isLiteral && !s.standsForInterface x
        then s.underlying y else y
      if alike x y then some u
      else
        match bound x, bound y with
        | some p, some q =>
          match u.join? p q with
          | some u => some u
          | none => do go mode u (← u.typeOf? p) (← u.typeOf? q)
        | some p, none =>
          match u.typeOf? p with
          | some t => do
            let u ← go mode u t y
            return if mode.exact then u else u.assign p (s.wider t y)
          | none => some (u.assign p y)
        | none, _ =>
          let parts := mode.parts
          let named := fun (u : Unifier) (a b : String × Ty) => go parts u a.2 b.2
          if !mode.exact && s.isInterface x && s.isInterface y then
            let a := s.typeSet x
            let b := s.typeSet y
            let within := Term.allWithin s.identical s.underlying
            if a.comparable != b.comparable || a.terms.isSome != b.terms.isSome ||
                !within a.terms b.terms || !within b.terms a.terms then none
            else if assumed.any fun p => p.1.alikeUpTo fuel x && p.2.alikeUpTo fuel y then some u
            else
              -- The methods of one must be among those of the other.
              let (few, many) := if b.methods.length < a.methods.length
                then (b.methods, a.methods) else (a.methods, b.methods)
              few.foldlM (fun u m => do
                unifyUpTo s fuel { exact := true } ((x, y) :: assumed) u m.2
                  (← many.lookup m.1)) u
          else if !mode.exact && (s.isInterface x || s.isInterface y) then
            let (iface, other) := if s.isInterface x then (x, y) else (y, x)
            (s.typeSet iface).methods.foldlM (fun u m =>
              match s.member? other false m.1 with
              | some (.method found) => found.type.bind (exactly u m.2)
              | _ => none) u
          else
            let (x, y) := if s.isParam y then (y, x) else (x, y)
            match s.unalias x, s.unalias y with
            | .param id, _ =>
              -- A parameter that is not to be found has the shape that its constraint leaves.
              (s.core? (.param id)).bind fun core => go { assign := true } u core y
            | .basic a, .basic b => if a.canonical == b.canonical then some u else none
            | .named a as, .named b bs => do
              let u ← unifyLists (go mode) u as bs
              if a == b then some u else none
            | .pointer a, .pointer b | .slice a, .slice b => go parts u a b
            | .array m a, .array n b => if m == n then go parts u a b else none
            | .map a c, .map b d => do go parts (← go parts u a b) c d
            | .chan d a, .chan e b => if !mode.exact || d == e then go parts u a b else none
            | .func ps rs v _, .func qs us w _ => do
              if v != w then none
              else unifyLists named (← unifyLists named u ps qs) rs us
            | .struct fs, .struct gs =>
              unifyLists (fun u f g =>
                if f.1 == g.1 && f.2.2 == g.2.2 then go parts u f.2.1 g.2.1 else none) u fs gs
            | .interface k ms es, .interface l ns fs =>
              let i := Ty.interface k ms es
              let j := Ty.interface l ns fs
              let a := s.typeSet i
              let b := s.typeSet j
              let within := Term.allWithin s.identical s.underlying
              if a.comparable != b.comparable || a.terms.isSome != b.terms.isSome ||
                  !within a.terms b.terms || !within b.terms a.terms ||
                  a.methods.length != b.methods.length then none
              else if assumed.any fun p => p.1.alikeUpTo fuel i && p.2.alikeUpTo fuel j then some u
              else a.methods.foldlM (fun u m => do
                unifyUpTo s fuel { exact := true } ((i, j) :: assumed) u m.2
                  (← b.methods.lookup m.1)) u
            | .tuple ts, .tuple us => unifyLists (go mode) u ts us
            | _, _ => none

def unify (s : Store) (mode : Matching) (u : Unifier) (x y : Ty) : Option Unifier :=
  unifyUpTo s (s.depth + 1) mode [] u x y

def mentionsUpTo (s : Store) (params : List Nat) : Nat → Ty → Bool
  | 0, _ => false
  | fuel + 1, t =>
    let go := mentionsUpTo s params fuel
    match s.unalias t with
    | .basic _ => false
    | .param id => params.contains id
    | .named _ args | .synonym _ args => args.any go
    | .pointer a | .slice a | .array _ a | .chan _ a => go a
    | .map a b => go a || go b
    | .func ps rs _ _ => ps.any (fun p => go p.2) || rs.any fun p => go p.2
    | .struct fs => fs.any fun f => go f.2.1
    | .interface _ ms es => ms.any (fun m => go m.2) || es.any go
    | .union ts => ts.any fun u => go u.2
    | .tuple ts => ts.any go

def mentions (s : Store) (params : List Nat) (t : Ty) : Bool :=
  mentionsUpTo s params (s.depth + 1) t

/-! ## What constraints say -/

/-- The type that the constraint of a parameter leaves, whether it has a tilde, and whether it is
its only term. -/
def coreTerm? (s : Store) (p : Nat) : Option (Term × Bool) :=
  match (s.typeSet (.param p)).terms with
  | some [term] => some (term, true)
  | some terms => (s.core? (.param p)).map fun t => ((terms.any (·.1), t), false)
  | none => none

/-- Uses the constraint of each parameter: a known type must match the type that it leaves or have
its methods, and the only type that it leaves is the one. -/
def useConstraints (s : Store) (params : List Nat) (u : Unifier) : Option Unifier :=
  params.foldlM (fun u p =>
    match s.coreTerm? p, u.typeOf? p with
    | some (term, _), some t => s.unify {} u t term.2
    | some (term, single), none =>
      if single && !term.1 then some (u.assign p term.2) else some u
    | none, some t =>
      (s.typeSet (.param p)).methods.foldlM (fun u m =>
        match s.directMember? t false m.1 with
        | some (.method found) => found.type.bind fun mt => s.unify { exact := true } u mt m.2
        | _ => none) u
    | none, none => some u) u

/-- Uses the constraints until nothing new is found, up to a number of times. -/
def useConstraintsUpTo (s : Store) (params : List Nat) : Nat → Unifier → Option Unifier
  | 0, u => some u
  | fuel + 1, u => do
    let v ← s.useConstraints params u
    if v.unknowns == u.unknowns then some v else useConstraintsUpTo s params fuel v

/-- Replaces the parameters within a type that was found, a number of times. -/
def resolveFound (s : Store) (σ : List (Nat × Ty)) : Nat → Ty → Ty
  | 0, t => t
  | fuel + 1, t => resolveFound s σ fuel (s.subst σ t)

/-- A function type without type parameters, once those are replaced. -/
def withoutTypeParams (s : Store) (params : List Nat) : Ty → Ty
  | .func ps rs v tps =>
    if s.mentions params (.func ps rs v tps) then .func ps rs v tps else .func ps rs v []
  | t => t

/-- Finds type arguments. `given` are the arguments that are known, `pairs` the types of parameters
with those of their arguments, and `untyped` the type parameters that have arguments without a
type. -/
def infer? (s : Store) (params : List Nat) (given : List (Option Ty)) (pairs : List (Ty × Ty))
    (untyped : List (Nat × Basic)) : Option (List Ty) := do
  let σ := (params.zip given).filterMap fun p => p.2.map fun t => (p.1, t)
  if σ.length == params.length then return σ.map (·.2)
  let u := Unifier.start params (given ++ List.replicate (params.length - given.length) none)
  let u ← pairs.foldlM (fun u p =>
    let x := s.subst σ p.1
    if s.mentions params x || s.mentions params p.2 then s.unify { assign := true } u x p.2
    else some u) u
  let u ← s.useConstraintsUpTo params (params.length + 1) u
  -- Arguments without a type come last: the largest kind among them decides.
  let kinds ← untyped.foldlM (fun (kinds : List (Nat × Basic)) (p, b) =>
    if (u.typeOf? p).isSome then some kinds
    else
      match kinds.lookup p with
      | none => some ((p, b) :: kinds)
      | some c => do return (p, ← c.join? b) :: kinds) []
  let u := params.foldl (fun u p =>
    match kinds.lookup p with
    | some b => u.assign p (.basic b.defaultType)
    | none => u) u
  let found := params.filterMap fun p => (u.typeOf? p).map fun t => (p, t)
  params.mapM fun p => do
    let t := s.withoutTypeParams params (s.resolveFound found params.length (← found.lookup p))
    if s.mentions params t then none else some t

end Store

end SsaBlocks.Types
