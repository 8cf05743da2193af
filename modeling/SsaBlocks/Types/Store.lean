import SsaBlocks.Types.Type

/-!
# What names of types stand for

The store of declared types, aliases and type parameters, and what follows from it alone: how a type
is written, substitution, and underlying types. A declaration that is still being read has no
definition yet.
-/

namespace SsaBlocks.Types

/-- What is known of a method once its declaration has been read. Within its type the parameters of
the receiver stand for the type arguments. -/
structure MethodType where
  receiverName : String
  receiverParams : List Nat
  type : Ty
deriving Inhabited

/-- A method of a declared type, with the number of the object that declares it. -/
structure Method where
  name : String
  object : Nat
  pointerReceiver : Bool
  signature : Option MethodType := none
deriving Inhabited

/-- A declared type or an alias. It has no definition while its declaration is being read. -/
structure Declared where
  name : String
  typeParams : List Nat := []
  definition : Option Ty := none
  methods : List Method := []
  /-- The type parameters of the function in which the type is declared. -/
  ambient : List Nat := []
  /-- Whether the type is predeclared or belongs to a package. -/
  isForeign : Bool := false
deriving Inhabited

/-- A type parameter and its constraint. A parameter of a receiver stands for a parameter of its
type. -/
structure Parameter where
  name : String
  constraint : Ty := Ty.any
  standsFor : Option Nat := none
deriving Inhabited

/-- Declared types, type parameters, and a bound on the depth of types. -/
structure Store where
  declared : Array Declared := #[]
  params : Array Parameter := #[]
  depth : Nat := 0
deriving Inhabited

namespace Store

def typeInfo (s : Store) (id : Nat) : Declared :=
  s.declared.getD id default

def paramInfo (s : Store) (id : Nat) : Parameter :=
  s.params.getD id default

def text (s : Store) (t : Ty) : String :=
  t.textUpTo (fun i => (s.typeInfo i).name) (fun i => (s.paramInfo i).name) (s.depth + 1)

/-! ## Substitution -/

/-- Replaces type parameters, in types up to a depth. -/
def substUpTo (σ : List (Nat × Ty)) : Nat → Ty → Ty
  | 0, t => t
  | fuel + 1, t =>
    let go := substUpTo σ fuel
    match t with
    | .basic b => .basic b
    | .named id args => .named id (args.map go)
    | .synonym id args => .synonym id (args.map go)
    | .param id => (σ.lookup id).getD (.param id)
    | .pointer base => .pointer (go base)
    | .slice element => .slice (go element)
    | .array n element => .array n (go element)
    | .map key value => .map (go key) (go value)
    | .chan d element => .chan d (go element)
    | .func params results variadic typeParams =>
      .func (params.map fun p => (p.1, go p.2)) (results.map fun p => (p.1, go p.2)) variadic
        typeParams
    | .struct fields => .struct (fields.map fun f => (f.1, go f.2.1, f.2.2))
    | .interface kind methods embedded =>
      .interface kind (methods.map fun m => (m.1, go m.2)) (embedded.map go)
    | .union terms => .union (terms.map fun u => (u.1, go u.2))
    | .tuple types => .tuple (types.map go)

def subst (s : Store) (σ : List (Nat × Ty)) (t : Ty) : Ty :=
  if σ.isEmpty then t else substUpTo σ (s.depth + 1) t

/-- The definition of a declared type or an alias with type arguments. -/
def definition? (s : Store) (id : Nat) (args : List Ty) : Option Ty :=
  let info := s.typeInfo id
  info.definition.map (s.subst (info.typeParams.zip args))

/-! ## Aliases and underlying types -/

/-- Follows aliases up to a number of times. -/
def unaliasUpTo (s : Store) : Nat → Ty → Ty
  | fuel + 1, .synonym id args =>
    match s.definition? id args with
    | some t => unaliasUpTo s fuel t
    | none => .synonym id args
  | _, t => t

def unalias (s : Store) (t : Ty) : Ty :=
  unaliasUpTo s (s.declared.size + 1) t

def param? (s : Store) (t : Ty) : Option Nat :=
  match s.unalias t with
  | .param id => some id
  | _ => none

def isParam (s : Store) (t : Ty) : Bool :=
  (s.param? t).isSome

/-- Whether a type is declared or predeclared, or a type parameter. -/
def hasName (s : Store) (t : Ty) : Bool :=
  match s.unalias t with
  | .basic _ | .named _ _ | .param _ => true
  | _ => false

/-- What a pointer points to, or the type itself, and whether it was a pointer. -/
def deref (s : Store) (t : Ty) : Ty × Bool :=
  match s.unalias t with
  | .pointer base => (base, true)
  | _ => (t, false)

/-- The number of type parameters of a type that has not been given its arguments. -/
def missingArguments (s : Store) : Ty → List Nat
  | .named id [] | .synonym id [] => (s.typeInfo id).typeParams
  | _ => []

/-- Follows declarations up to a number of times. A type whose declaration is being read, or that
is declared as itself, is left as it is. -/
def underlyingUpTo (s : Store) : Nat → Ty → Ty
  | 0, t => t
  | fuel + 1, t =>
    match t with
    | .named id args | .synonym id args =>
      ((s.definition? id args).map (underlyingUpTo s fuel)).getD t
    | t => t

/-- The constraint of a type parameter as an interface. A type in its place stands for the interface
that holds that type alone. -/
def constraintOf (s : Store) (id : Nat) : Ty :=
  let constraint := (s.paramInfo id).constraint
  match underlyingUpTo s (s.declared.size + 1) constraint with
  | .interface kind methods embedded => .interface kind methods embedded
  | .param _ => Ty.any
  | _ => .interface .plain [] [constraint]

/-- The type that a declared type stands for. A type parameter stands for its constraint. -/
def underlying (s : Store) (t : Ty) : Ty :=
  match underlyingUpTo s (s.declared.size + 1) t with
  | .param id => s.constraintOf id
  | t => t

/-- The basic type that a type stands for; a type parameter stands for none. -/
def basic? (s : Store) (t : Ty) : Option Basic :=
  match s.underlying t with
  | .basic b => some b
  | _ => none

def standsForInterface (s : Store) (t : Ty) : Bool :=
  match s.underlying t with
  | .interface _ _ _ => true
  | _ => false

def isInterface (s : Store) (t : Ty) : Bool :=
  s.standsForInterface t && !s.isParam t

def array? (s : Store) (t : Ty) : Option (Nat × Ty) :=
  match s.underlying t with
  | .array n element => some (n, element)
  | .pointer base =>
    match s.underlying base with
    | .array n element => some (n, element)
    | _ => none
  | _ => none

end Store

end SsaBlocks.Types
