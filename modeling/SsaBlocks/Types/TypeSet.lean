import SsaBlocks.Types.Store

/-!
# Type sets and identity

The types that satisfy a constraint are those with certain methods, among the terms of the
constraint if it has some. A term is a type, or with a tilde all types that have it as their
underlying type. Which terms overlap depends on which types are identical, identity of interfaces on
their type sets, and a type set that asks for comparable types on which types are comparable, so
that the three are defined together.
-/

namespace SsaBlocks.Types

/-- A term of a constraint: whether it has a tilde, and its type. -/
abbrev Term := Bool × Ty

/-- The types that satisfy a constraint: those with the methods that are in the list of terms, if
there is one. -/
structure TypeSet where
  methods : List (String × Ty) := []
  terms : Option (List Term) := none
  comparable : Bool := false
deriving Inhabited

/-- Two lists agree element by element. -/
def sameLists {α : Type} (same : α → α → Bool) : List α → List α → Bool
  | [], [] => true
  | a :: as, b :: bs => same a b && sameLists same as bs
  | _, _ => false

namespace Ty

/-- Whether two types are written alike, up to a depth. -/
def alikeUpTo : Nat → Ty → Ty → Bool
  | 0, _, _ => false
  | fuel + 1, a, b =>
    let same := alikeUpTo fuel
    let sameAll := fun (ps qs : List (String × Ty)) =>
      sameLists (fun p q => p.1 == q.1 && same p.2 q.2) ps qs
    match a, b with
    | basic a, basic b => a == b
    | named a as, named b bs | synonym a as, synonym b bs => a == b && sameLists same as bs
    | param a, param b => a == b
    | pointer a, pointer b | slice a, slice b => same a b
    | array m a, array n b => m == n && same a b
    | map a c, map b d => same a b && same c d
    | chan d a, chan e b => d == e && same a b
    | func ps rs v us, func qs ss w vs => v == w && us == vs && sameAll ps qs && sameAll rs ss
    | struct fs, struct gs =>
      sameLists (fun f g => f.1 == g.1 && same f.2.1 g.2.1 && f.2.2 == g.2.2) fs gs
    | interface k ms es, interface l ns fs => k == l && sameAll ms ns && sameLists same es fs
    | union ts, union us => sameLists (fun t u => t.1 == u.1 && same t.2 u.2) ts us
    | tuple ts, tuple us => sameLists same ts us
    | _, _ => false

end Ty

/-! ## Terms

What two terms have in common, given which types are identical and what they stand for. -/

namespace Term

variable (same : Ty → Ty → Bool) (underlying : Ty → Ty)

def disjoint (x y : Term) : Bool :=
  let a := if y.1 then underlying x.2 else x.2
  let b := if x.1 then underlying y.2 else y.2
  !same a b

def join? (x y : Term) : Option Term :=
  if disjoint same underlying x y then none else some (if x.1 || !y.1 then x else y)

def meet? (x y : Term) : Option Term :=
  if disjoint same underlying x y then none else some (if !x.1 || y.1 then x else y)

def within (x y : Term) : Bool :=
  !disjoint same underlying x y && (!x.1 || y.1)

/-- Joins a term with all that overlap it; yields the others too. -/
def absorb (x : Term) (rest : List Term) : Term × List Term :=
  rest.foldl (fun acc y =>
    match join? same underlying acc.1 y with
    | some u => (u, acc.2)
    | none => (acc.1, acc.2 ++ [y])) (x, [])

def separateUpTo : Nat → List Term → List Term
  | fuel + 1, x :: rest =>
    let (x, rest) := absorb same underlying x rest
    x :: separateUpTo fuel rest
  | _, xs => xs

def separate (xs : List Term) : List Term :=
  separateUpTo same underlying xs.length xs

def joinAll : Option (List Term) → Option (List Term) → Option (List Term)
  | some xs, some ys => some (separate same underlying (xs ++ ys))
  | _, _ => none

def meetAll : Option (List Term) → Option (List Term) → Option (List Term)
  | none, ys => ys
  | xs, none => xs
  | some xs, some ys =>
    some (separate same underlying (xs.flatMap fun x => ys.filterMap (meet? same underlying x)))

def allWithin : Option (List Term) → Option (List Term) → Bool
  | _, none => true
  | none, some _ => false
  | some xs, some ys => xs.all fun x => ys.any (within same underlying x)

end Term

namespace Store

/-! ## Type sets, identity and comparison -/

mutual

/-- The type set of a constraint, up to a depth. `path` are the declared types that are being
looked into: one that contains itself adds nothing. -/
def typeSetUpTo (s : Store) : Nat → List Nat → Ty → TypeSet
  | 0, _, _ => {}
  | fuel + 1, path, t =>
    let same := identicalUpTo s false fuel []
    let inner :=
      match s.unalias t with
      | .named id _ => if path.contains id then none else some (id :: path)
      | _ => some path
    match inner with
    | none => {}
    | some path =>
      match s.underlying t with
      | .interface kind methods embedded =>
        embedded.foldl (fun set e =>
          let other := typeSetUpTo s fuel path e
          let terms := Term.meetAll same s.underlying set.terms other.terms
          let comparable := set.comparable || other.comparable
          { methods := set.methods ++ other.methods.filter fun m => !set.methods.any (·.1 == m.1)
            terms := if comparable then
                terms.map fun ts => ts.filter fun u => comparableUpTo s false fuel [] u.2
              else terms
            comparable := comparable && terms.isNone })
          { methods, comparable := kind == .comparable }
      | .union terms =>
        { terms := terms.foldl (fun all u =>
            let part :=
              match s.underlying u.2 with
              | .interface _ _ _ => (typeSetUpTo s fuel path u.2).terms
              | under => if u.1 && !same u.2 under then some [] else some [u]
            Term.joinAll same s.underlying all part) (some []) }
      | .named _ _ | .synonym _ _ => {}
      | _ => { terms := some [(false, t)] }

/-- Whether two types are identical, up to a depth. The tags of fields may be ignored. `assumed` are
the interfaces that are being compared: they count as identical. -/
def identicalUpTo (s : Store) (ignoreTags : Bool) : Nat → List (Ty × Ty) → Ty → Ty → Bool
  | 0, _, _, _ => false
  | fuel + 1, assumed, a, b =>
    let same := identicalUpTo s ignoreTags fuel assumed
    let sameAll := fun (ps qs : List (String × Ty)) => sameLists (fun p q => same p.2 q.2) ps qs
    let sameTerms := fun (xs ys : Option (List Term)) =>
      let within := Term.allWithin same s.underlying
      xs.isSome == ys.isSome && within xs ys && within ys xs
    match s.unalias a, s.unalias b with
    | .basic a, .basic b => a.canonical == b.canonical
    | .named a as, .named b bs | .synonym a as, .synonym b bs => a == b && sameLists same as bs
    | .param a, .param b => a == b
    | .pointer a, .pointer b | .slice a, .slice b => same a b
    | .array m a, .array n b => m == n && same a b
    | .map a c, .map b d => same a b && same c d
    | .chan d a, .chan e b => d == e && same a b
    | .func ps rs v tps, .func qs us w uqs =>
      -- The type parameters of one stand for those of the other.
      let rename := s.subst (uqs.zip (tps.map Ty.param))
      v == w && tps.length == uqs.length &&
        sameLists (fun p q => same (s.paramInfo p).constraint (rename (s.paramInfo q).constraint))
          tps uqs &&
        sameAll ps (qs.map fun q => (q.1, rename q.2)) &&
        sameAll rs (us.map fun u => (u.1, rename u.2))
    | .struct fs, .struct gs =>
      sameLists (fun f g => f.1 == g.1 && same f.2.1 g.2.1 && f.2.2.1 == g.2.2.1 &&
        (ignoreTags || f.2.2.2 == g.2.2.2)) fs gs
    | .interface k ms es, .interface l ns fs =>
      let a := Ty.interface k ms es
      let b := Ty.interface l ns fs
      assumed.any (fun p => p.1.alikeUpTo fuel a && p.2.alikeUpTo fuel b) ||
        let m := typeSetUpTo s fuel [] a
        let n := typeSetUpTo s fuel [] b
        m.comparable == n.comparable && sameTerms m.terms n.terms &&
          m.methods.length == n.methods.length &&
          m.methods.all fun p => n.methods.any fun q =>
            p.1 == q.1 && identicalUpTo s ignoreTags fuel ((a, b) :: assumed) p.2 q.2
    | .union ts, .union us =>
      sameTerms (typeSetUpTo s fuel [] (.union ts)).terms (typeSetUpTo s fuel [] (.union us)).terms
    | .tuple ts, .tuple us => sameLists same ts us
    | _, _ => false

/-- Whether values of a type can be compared, up to a depth. With `dynamic`, interfaces can be
compared although it may fail for some of their values. `path` are the types that are being looked
into: they count as comparable. -/
def comparableUpTo (s : Store) : Bool → Nat → List Ty → Ty → Bool
  | _, 0, _, _ => false
  | dynamic, fuel + 1, path, t =>
    if path.any fun p => p.alikeUpTo fuel t then true
    else
      let go := comparableUpTo s dynamic fuel (t :: path)
      match s.underlying t with
      | .basic b => b != .untypedNil
      | .pointer _ | .chan _ _ => true
      | .struct fields => fields.all fun f => go f.2.1
      | .array _ element => go element
      | .interface _ _ _ =>
        (dynamic && !s.isParam t) ||
          let set := typeSetUpTo s fuel [] t
          match set.terms with
          | none => set.comparable
          | some ts => !ts.isEmpty && ts.all fun u => comparableUpTo s false fuel (t :: path) u.2
      | _ => false

end

def typeSet (s : Store) (t : Ty) : TypeSet :=
  typeSetUpTo s (s.depth + 1) [] t

def identical (s : Store) (a b : Ty) : Bool :=
  identicalUpTo s false (s.depth + 1) [] a b

def identicalIgnoringTags (s : Store) (a b : Ty) : Bool :=
  identicalUpTo s true (s.depth + 1) [] a b

def comparable (s : Store) (t : Ty) : Bool :=
  comparableUpTo s true (s.depth + 1) [] t

/-- Whether values of a type can be compared without fail. -/
def strictlyComparable (s : Store) (t : Ty) : Bool :=
  comparableUpTo s false (s.depth + 1) [] t

def inTerm (s : Store) (t : Ty) (u : Term) : Bool :=
  s.identical u.2 (if u.1 then s.underlying t else t)

end Store

namespace TypeSet

def isMethodSet (set : TypeSet) : Bool :=
  !set.comparable && set.terms.isNone

def isAll (set : TypeSet) : Bool :=
  set.isMethodSet && set.methods.isEmpty

def isEmpty (set : TypeSet) : Bool :=
  set.terms.any List.isEmpty

end TypeSet

namespace Store

/-! ## The types that a type may stand for -/

/-- The types that a type may stand for: the terms of a type parameter, or the type alone. A type
parameter without terms stands for no particular types. -/
def specificTypes (s : Store) (t : Ty) : Option (List Ty) :=
  if s.isParam t then
    match (s.typeSet t).terms with
    | some (x :: xs) => some ((x :: xs).map (·.2))
    | _ => none
  else some [t]

/-- Whether a property holds of what all types stand for that a type may stand for. -/
def allUnderlying (s : Store) (p : Ty → Bool) (t : Ty) : Bool :=
  (s.specificTypes t).any fun ts => ts.all fun t => p (s.underlying t)

def allBasic (s : Store) (p : Basic → Bool) (t : Ty) : Bool :=
  s.allUnderlying (fun
    | .basic b => p b
    | _ => false) t

/-- Joins what two types stand for: they must be identical, but for the direction of channels, of
which the narrower is taken. -/
def commonOf? (s : Store) (a b : Ty) : Option Ty :=
  match a, b with
  | .chan d x, .chan e y =>
    if !s.identical x y then none
    else if d == e || e == .both then some (.chan d x)
    else if d == .both then some (.chan e y)
    else none
  | _, _ => if s.identical a b then some a else none

def core? (s : Store) (t : Ty) : Option Ty :=
  match s.specificTypes t with
  | some (t :: ts) =>
    ts.foldlM (fun u t => s.commonOf? u (s.underlying t)) (s.underlying t)
  | _ => none

def commonPart? (s : Store) (part : Ty → Option Ty) (t : Ty) : Option Ty :=
  match s.specificTypes t with
  | some (t :: ts) => do
    let first ← part (s.underlying t)
    ts.foldlM (fun a t => do
      let b ← part (s.underlying t)
      if s.identical a b then some a else none) first
  | _ => none

def hasNil (s : Store) (t : Ty) : Bool :=
  let own := fun (t : Ty) =>
    match t with
    | .slice _ | .pointer _ | .func _ _ _ _ | .map _ _ | .chan _ _ | .interface _ _ _ => true
    | _ => false
  if s.isParam t then s.allUnderlying own t else own (s.underlying t)

def isBytesOrRunes (s : Store) (t : Ty) : Bool :=
  match s.underlying t with
  | .slice element => (s.basic? element).any fun b =>
    b.canonical == .uint8 || b.canonical == .int32
  | _ => false

end Store

end SsaBlocks.Types
