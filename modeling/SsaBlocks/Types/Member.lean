import SsaBlocks.Types.TypeSet

/-!
# Fields and methods

The fields and methods that a type has, also through embedded fields. A member is looked for level by
level of embedding and must be the only one of its name at its depth.
-/

namespace SsaBlocks.Types

/-- A method as it is found: the object that declares it, unless it is a method of an interface; its
type, if that is known already; and whether it is reached through a pointer. -/
structure MethodMember where
  object : Option Nat := none
  /-- Whether the type that declares the method is generic. -/
  ofGeneric : Bool := false
  type : Option Ty
  receiverName : String := ""
  pointerReceiver : Bool := false
  viaPointer : Bool
deriving Inhabited

/-- A field, with the names of the fields on the way to it and its own, or a method of a type. -/
inductive Member
  | field (type : Ty) (viaPointer : Bool) (path : List String)
  | method (m : MethodMember)
deriving Inhabited

/-- A type in which a member is looked for: itself, whether a pointer led to it, the embedded fields
that led to it, and whether it is embedded more than once at its depth. -/
structure Embedding where
  type : Ty
  viaPointer : Bool
  path : List String := []
  repeated : Bool := false

namespace Store

def methodMember (s : Store) (m : Method) (args : List Ty) (viaPointer : Bool) : MethodMember :=
  { object := some m.object
    ofGeneric := !args.isEmpty
    type := m.signature.map fun sig => s.subst (sig.receiverParams.zip args) sig.type
    receiverName := (m.signature.map (·.receiverName)).getD ""
    pointerReceiver := m.pointerReceiver
    viaPointer }

/-- The members with a name that one type has itself, and the types that it embeds. -/
def membersOf (s : Store) (name : String) (e : Embedding) : List Member × List Embedding :=
  let attached : Option Member :=
    match s.unalias e.type with
    | .named id args => ((s.typeInfo id).methods.find? fun m => m.name == name).map fun m =>
        .method (s.methodMember m args e.viaPointer)
    | _ => none
  match attached with
  | some m => ([m], [])
  | none =>
    match s.underlying e.type with
    | .struct fields =>
      let own : List Member := fields.filterMap fun f =>
        if f.1 == name then some (.field f.2.1 e.viaPointer (e.path ++ [name])) else none
      let embedded : List Embedding := fields.filterMap fun f =>
        if f.2.2.1 && f.1 != name then
          let (t, isPointer) := s.deref f.2.1
          some {
            type := t
            viaPointer := e.viaPointer || isPointer
            path := e.path ++ [f.1]
            repeated := e.repeated }
        else none
      (own, embedded)
    | .interface _ _ _ =>
      match (s.typeSet e.type).methods.lookup name with
      | some t => ([.method { type := some t, viaPointer := e.viaPointer }], [])
      | none => ([], [])
    | _ => ([], [])

/-- A type that is embedded twice at one depth is looked at once, but has no unique members. -/
def mergeEmbeddings (s : Store) (level : List Embedding) : List Embedding :=
  level.foldl (fun (es : List Embedding) e =>
    if es.any fun d => s.identical d.type e.type then
      es.map fun d => if s.identical d.type e.type then { d with repeated := true } else d
    else es ++ [e]) []

/-- Looks for a member level by level; it must be the only one at its depth. `seen` are the
declared types that were met before. -/
def findMember (s : Store) (name : String) : Nat → List Ty → List Embedding → Option Member
  | 0, _, _ => none
  | fuel + 1, seen, level =>
    let isDeclared := fun (t : Ty) =>
      match s.unalias t with
      | .named _ _ => true
      | _ => false
    let fresh := level.filter fun e => !(isDeclared e.type && seen.any (s.identical e.type))
    let found := fresh.flatMap fun e => (s.membersOf name e).1.map fun m => (m, e.repeated)
    match found with
    | [(m, false)] => some m
    | _ :: _ => none
    | [] =>
      let next := s.mergeEmbeddings (fresh.flatMap fun e => (s.membersOf name e).2)
      let met := (fresh.map (·.type)).filter isDeclared
      if next.isEmpty then none else findMember s name fuel (met ++ seen) next

/-- The field or method with a name in a type or in what it points to. A method with a pointer as
receiver needs a pointer or an addressable value. -/
def directMember? (s : Store) (t : Ty) (addressable : Bool) (name : String) : Option Member :=
  let (base, isPointer) := s.deref t
  if name == "_" || (isPointer && s.standsForInterface base) then none
  else
    match s.findMember name (s.depth + 1) [] [{ type := base, viaPointer := isPointer }] with
    | some (.method m) =>
      if m.pointerReceiver && !m.viaPointer && !addressable then none else some (.method m)
    | m => m

/-- The field or method that a selector of a value stands for. A declared pointer type has the fields
of its base, and no methods. -/
def member? (s : Store) (t : Ty) (addressable : Bool) (name : String) : Option Member :=
  match s.unalias t, s.underlying t with
  | .named _ _, .pointer base =>
    match s.directMember? (.pointer base) false name with
    | some (.field ft p path) => some (.field ft p path)
    | _ => none
  | _, _ => s.directMember? t addressable name

/-- Whether a type has all the methods of an interface, with types that agree. -/
def hasMethods (s : Store) (t : Ty) (methods : List (String × Ty)) : Bool :=
  methods.all fun m =>
    match s.directMember? t false m.1 with
    | some (.method found) => found.type.any fun mt => s.identical mt m.2
    | _ => false

end Store

end SsaBlocks.Types
