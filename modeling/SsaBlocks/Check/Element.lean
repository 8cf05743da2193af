import SsaBlocks.Check.TypeExpr

/-!
# Checking elements and members

Indices, slices, selectors, type assertions and composite literals.
-/

namespace SsaBlocks.Check

open SsaBlocks.Source (Pos Name)
open SsaBlocks.Types

variable (goals : Goals)

def notCompiled (e : Source.Expr) : Typed.Expr :=
  .unsupported e.pos ("expression " ++ e.kind)

/-! ## Indices and slices -/

/-- An index must be an integer that is not negative, and less than the length if both are known. -/
def indexValue (x : Operand) : Check (Option Nat) := do
  let x ← convertTo x Ty.int
  require ((← store).allBasic Basic.isInteger x.type) "index is no integer"
  match x.constant? with
  | none => return none
  | some c =>
    match c.toInt? with
    | some n =>
      require (0 ≤ n && Constant.fits .int n) "bad index"
      return some n.toNat
    | none => reject "index is no integer"

def indexWithin (env : Env) (length : Option Nat) (e : Source.Expr) : Check (Option Nat) := do
  let n ← indexValue (← goals.value env e)
  match n, length with
  | some n, some l => require (n < l) "index out of range"
  | _, _ => pure ()
  return n

/-- What can be indexed: the type of its elements, the type of its keys if it is a map, its length if
that is known, and whether its elements are variables although it is none, or never. -/
structure Indexed where
  element : Ty
  key : Option Ty := none
  length : Option Nat := none
  addressable : Option Bool := none

def indexed? (s : Store) : Ty → Option Indexed
  | .basic b => if b.isString then some { element := .basic .byte, addressable := some false } else none
  | .array n t => some { element := t, length := some n }
  | .pointer p =>
    match s.underlying p with
    | .array n t => some { element := t, length := some n, addressable := some true }
    | _ => none
  | .slice t => some { element := t, addressable := some true }
  | .map key t => some { element := t, key := some key }
  | _ => none

/-- How values of all types are indexed that a type may stand for: either all are maps with the same
keys or none is, and all have the same elements. The smallest length counts if the first has one. -/
def indexedAll? (s : Store) (t : Ty) : Option Indexed :=
  match s.specificTypes t with
  | some (t :: ts) => do
    let first ← indexed? s (s.underlying t)
    ts.foldlM (fun (a : Indexed) t => do
      let b ← indexed? s (s.underlying t)
      let sameKeys := match a.key, b.key with
        | none, none => true
        | some k, some l => s.identical k l
        | _, _ => false
      if !sameKeys || !s.identical a.element b.element then none
      else some { a with
        length := match a.length, b.length with
          | some m, some n => some (min m n)
          | m, _ => m
        addressable := match a.addressable, b.addressable with
          | some false, _ | _, some false => some false
          | none, _ | _, none => none
          | _, _ => some true }) first
  | _ => none

/-- An element of a string, an array, a slice or a map. -/
def indexRule (env : Env) (e : Source.Expr) (x : Operand) (index : Source.Expr) :
    Check Operand := do
  let element := fun (mode : Mode) (t : Ty) => { valueOperand e.pos t (notCompiled e) with mode }
  match indexedAll? (← store) x.type with
  | none => reject "cannot be indexed"
  | some found =>
    match found.key with
    | some key =>
      discard (assignTo (← goals.valueFor env (some key) index) (some key))
      return element .mapElement found.element
    | none =>
      let length := match x.constant? with
        | some (.string bytes) => some bytes.length
        | _ => found.length
      discard (indexWithin goals env length index)
      let addressable := found.addressable.getD x.isAddressable
      return element (if addressable then .addressable else .value) found.element

/-- What is cut in a slice expression: the common type of all types that a type may stand for, where
a string counts as a slice of bytes unless all are strings. -/
def slicedType? (s : Store) (t : Ty) : Option Ty :=
  let asBytes := fun (t : Ty) =>
    match s.underlying t with
    | .basic b => if b.isString then .slice (.basic .byte) else .basic b
    | u => u
  match s.specificTypes t with
  | some (t :: ts) =>
    let first := asBytes t
    if ts.all fun u => s.identical first (asBytes u) then
      if (t :: ts).any fun u => (s.basic? u).any Basic.isString then
        some (if (s.basic? t).any Basic.isUntyped then .basic .untypedString else Ty.string)
      else some first
    else none
  | _ => none

def sliceRule (env : Env) (e : Source.Expr) (x : Operand) (low high max : Option Source.Expr) :
    Check Operand := do
  let s ← store
  let (t, length) ←
    match slicedType? s x.type with
    | some (.basic b) => do
      require (b.isString && max.isNone) "cannot be sliced"
      let length := match x.constant? with
        | some (.string bytes) => some bytes.length
        | _ => none
      pure (if b.isUntyped then Ty.string else x.type, length)
    | some (.array n t) => do
      require x.isAddressable "slice of a value that is no variable"
      pure (.slice t, some n)
    | some (.pointer p) =>
      match s.underlying p with
      | .array n t => pure (.slice t, some n)
      | _ => reject "cannot be sliced"
    | some (.slice _) => pure (x.type, none)
    | _ => reject "cannot be sliced"
  let bound := fun (i : Option Source.Expr) (missing : Option Nat) =>
    match i with
    | none => pure missing
    | some i => indexWithin goals env (length.map (· + 1)) i
  let low ← bound low (some 0)
  let high ← bound high length
  let max ← bound max length
  -- Bounds that are known must not decrease.
  let before := fun (a b : Option Nat) =>
    match a, b with
    | some m, some n => m ≤ n
    | _, _ => true
  require (before low high && before low max && before high max) "slice bounds in the wrong order"
  return valueOperand e.pos t (notCompiled e)

/-! ## Selectors and assertions -/

/-- The type of a method that was found. Its declaration is read if that has not been done, and the
reference to it is noted. A generic method of a generic type is given type parameters of its own. -/
def methodType (env : Env) (t : Ty) (addressable : Bool) (name : String) (m : MethodMember) :
    Check Ty := do
  let found ←
    match m.type, m.object with
    | some mt, _ => pure (some mt)
    | none, some id => do
      discard (goals.entity id false)
      match (← store).member? t addressable name with
      | some (.method m) => pure m.type
      | _ => pure none
    | none, none => pure none
  if let some id := m.object then
    if !m.ofGeneric then noteReference env id
  match found with
  | none => reject "method without a type"
  | some (.func ps rs variadic (p :: rest)) =>
    if !m.ofGeneric then return .func ps rs variadic (p :: rest)
    let (fresh, σ) ← freshParams (p :: rest)
    match (← store).subst σ (.func ps rs variadic []) with
    | .func ps rs variadic _ => return .func ps rs variadic fresh
    | mt => return mt
  | some mt => return mt

def selectorRule (env : Env) (e : Source.Expr) (x : Operand) (field : Name) : Check Operand := do
  let s ← store
  if x.isType then
    -- A method of a type is a function whose first parameter is the receiver.
    match s.member? x.type false field.text with
    | some (.method m) =>
      match ← methodType goals env x.type false field.text m with
      | .func params results variadic typeParams =>
        let name :=
          match params with
          | (n, _) :: _ => if n == "" then "" else if m.receiverName == "" then "_" else m.receiverName
          | [] => ""
        return valueOperand e.pos (.func ((name, x.type) :: params) results variadic typeParams)
          (notCompiled e)
      | _ => reject "no such method"
    | _ => reject "no such method"
  singleValue x
  match s.member? x.type x.isAddressable field.text with
  | some (.field t viaPointer _) =>
    let mode := if x.isAddressable || viaPointer then Mode.addressable else .value
    return { valueOperand e.pos t (notCompiled e) with mode }
  | some (.method m) =>
    let t ← methodType goals env x.type x.isAddressable field.text m
    return valueOperand e.pos t (notCompiled e)
  | none => reject "no such field or method"

def mayHold (s : Store) (iface t : Ty) : Bool :=
  s.standsForInterface t || s.hasMethods t (s.typeSet iface).methods

def assertRule (env : Env) (e : Source.Expr) (x : Operand) (type : Source.Expr) :
    Check Operand := do
  require ((← store).isInterface x.type) "not an interface"
  let t ← goals.varType env type
  require (mayHold (← store) x.type t) "impossible assertion"
  return { valueOperand e.pos t (notCompiled e) with mode := .optional }

/-! ## Composite literals -/

def assignElement (env : Env) (t : Ty) (e : Source.Expr) : Check Operand := do
  assignTo (← goals.element env t e) (some t)

/-- The elements of an array or a slice; yields their number, counting gaps. -/
def indexedElements (env : Env) (t : Ty) (length : Option Nat) (elements : List Source.Expr) :
    Check Nat := do
  let (_, _, max) ← elements.foldlM (fun (acc : Nat × List Nat × Nat) e => do
    let (index, seen, max) := acc
    let (index, value) ←
      match e with
      | .keyValue key value => do
        match ← indexWithin goals env length key with
        | some n => pure (n, value)
        | none => reject "index of an element is not constant"
      | e => pure (index, e)
    require (length.all (index < ·)) "too many elements"
    require (!seen.contains index) "duplicate index"
    discard (assignElement goals env t value)
    return (index + 1, index :: seen, Nat.max max (index + 1))) (0, [], 0)
  return max

/-- The field of a structure that a key names: its type, and the names of the fields on the way to it
and its own. It may belong to an embedded structure, unless a pointer leads there. -/
def keyField? (s : Store) (fields : List (String × Ty × Bool × List UInt8)) (name : String) :
    Option (Ty × List String) :=
  match fields.lookup name with
  | some f => some (f.1, [name])
  | none =>
    match s.directMember? (.struct fields) false name with
    | some (.field t false path) => some (t, path)
    | _ => none

/-- The fields of a structure: all with their names, or all without. No field is given twice, be it
as a part of another one. -/
def fieldElements (env : Env) (fields : List (String × Ty × Bool × List UInt8))
    (elements : List Source.Expr) : Check Unit := do
  let keyed := elements.map fun
    | .keyValue key value => (some key, value)
    | e => (none, e)
  let assign := fun (t : Ty) (e : Source.Expr) => do
    discard (assignTo (← goals.valueFor env (some t) e) (some t))
  match keyed with
  | [] => return
  | (some _, _) :: _ =>
    discard <| keyed.foldlM (fun (seen : List (List String)) p => do
      match p.1 with
      | some (.ident name) =>
        match keyField? (← store) fields name.text with
        | some (t, path) =>
          require (name.text != "_") "blank field"
          if 1 < path.length then since 27
          require (!seen.any fun q => q.isPrefixOf path || path.isPrefixOf q) "duplicate field"
          assign t p.2
          return path :: seen
        | none => reject "unknown field"
      | _ => reject "element without a field name") []
  | _ =>
    require (keyed.all fun p => p.1.isNone) "mixed elements"
    require (keyed.length == fields.length) "wrong number of fields"
    (keyed.zip fields).forM fun (p, f) => assign f.2.1 p.2

/-- The keys and values of a map; constant keys must be different. In an interface their types count
too. -/
def mapElements (env : Env) (key value : Ty) (elements : List Source.Expr) : Check Unit := do
  discard <| elements.foldlM (fun (seen : List (Ty × Constant)) e => do
    match e with
    | .keyValue k v =>
      let x ← assignElement goals env key k
      let s ← store
      let seen ←
        match x.constant? with
        | some c => do
          let typed := s.isInterface key
          require (!seen.any fun p => p.2.equal c && (!typed || s.identical p.1 x.type))
            "duplicate key"
          pure ((x.type, c) :: seen)
        | none => pure seen
      discard (assignElement goals env value v)
      return seen
    | _ => reject "element without a key") []

def compositeRule (env : Env) (implied : Option Ty) (e : Source.Expr) (type : Option Source.Expr)
    (elements : List Source.Expr) : Check Operand := do
  let result := fun (t : Ty) => valueOperand e.pos t (notCompiled e)
  match type with
  | some (.arrayType _ (some (.ellipsis _ none)) element) =>
    let t ← goals.varType env element
    let n ← indexedElements goals env t none elements
    return result (.array n t)
  | _ =>
    let t ←
      match type, implied with
      | some type, _ => goals.type env type
      | none, some t => pure t
      | none, none => reject "composite literal without a type"
    let s ← store
    -- Within another literal the type may be that of a pointer to the literal.
    let base :=
      match type, s.core? t with
      | none, some (.pointer base) => base
      | _, _ => t
    match s.core? base with
    | some (.struct fields) => fieldElements goals env fields elements
    | some (.array n element) =>
      discard (indexedElements goals env element (some n) elements)
    | some (.slice element) => discard (indexedElements goals env element none elements)
    | some (.map key value) => mapElements goals env key value elements
    | _ => reject "bad type of a composite literal"
    return result t

end SsaBlocks.Check
