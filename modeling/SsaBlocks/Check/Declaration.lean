import SsaBlocks.Check.Stmt

/-!
# Checking declarations of a file

The objects of a file are resolved when they are first needed, each in the scope of the file. Which
methods a type has is known from the outset; their signatures are resolved like other objects.
-/

namespace SsaBlocks.Check

open SsaBlocks.Source (Pos Name)
open SsaBlocks.Types

variable (goals : Goals)

/-- Notes the initial value of a variable of the file. -/
def setInitial (id : ObjId) (tree : Typed.Expr) : Check Unit :=
  modify fun s => { s with initials := (id, tree) :: s.initials }

/-! ## Receivers -/

/-- A receiver as it is written: whether it is a pointer, the name of its type, and the names of its
type parameters. -/
structure ReceiverParts where
  isPointer : Bool
  base : Source.Expr
  args : List Source.Expr

def ReceiverParts.of (e : Source.Expr) : ReceiverParts :=
  let (isPointer, base) :=
    match e.unparen with
    | .star _ inner => (true, inner.unparen)
    | e => (false, e)
  match base with
  | .index base args => { isPointer, base, args }
  | base => { isPointer, base, args := [] }

/-- The declared type of the file that a receiver names, possibly through aliases, and whether it is
reached through a pointer, with fuel. -/
def receiverBase (s : State) : Nat → Bool → Source.Expr → Option (ObjId × Bool)
  | 0, _, _ => none
  | fuel + 1, isPointer, e => do
    let (isPointer, e) ←
      match e.unparen with
      | .star _ inner => if isPointer then none else some (true, inner.unparen)
      | e => some (isPointer, e)
    match e with
    | .ident name =>
      let id ← s.file.lookup name.text
      match (s.objects.getD id default).pending with
      | some (.type (.mk _ typeParams isAlias type)) =>
        if !isAlias then some (id, isPointer)
        else if !typeParams.isEmpty then none
        else receiverBase s fuel isPointer type
      | _ => none
    | _ => none

/-- Finds out to which types of the file methods belong. -/
def assignMethod (id : ObjId) (decl : Source.FuncDecl) : Check Unit := do
  match decl.receiver with
  | some (.mk _ type _ :: _) =>
    let s ← get
    let parts := ReceiverParts.of type
    let isName := match parts.base with
      | .ident _ => true
      | _ => false
    if isName && decl.name.text != "_" then
      match receiverBase s (s.objects.size + 1) parts.isPointer parts.base with
      | some (base, pointerReceiver) =>
        let m : Method := { name := decl.name.text, object := id, pointerReceiver }
        require (!s.methods.any fun n => n.1 == base && n.2.name == m.name) "duplicate method"
        set { s with methods := s.methods ++ [(base, m)] }
      | none => pure ()
  | _ => pure ()

/-- A receiver must not name a generic type with its arguments through an alias, up to a number of
aliases. -/
def namesNoInstance (s : Store) : Nat → Ty → Bool
  | fuel + 1, t =>
    let inner := match t with
      | .pointer base => base
      | t => t
    match inner with
    | .synonym id args =>
      match s.definition? id args with
      | some t =>
        let base := match t with
          | .pointer base => base
          | t => t
        (match base with
          | .named _ args | .synonym _ args => args.isEmpty
          | _ => true) && namesNoInstance s fuel base
      | none => true
    | _ => true
  | 0, _ => true

/-- The type of a receiver. Its type parameters stand for those of its type. -/
def receiverType (type : Source.Expr) : Check (Env × List Nat × Ty) := do
  let env : Env := {}
  let parts := ReceiverParts.of type
  if parts.args.isEmpty then
    let t ← goals.varType env type
    let s ← store
    require (namesNoInstance s (s.declared.size + 1) t) "methods of an instance"
    return (env.enter, [], t)
  let base ← goals (.type env parts.base)
  let owners := (← store).missingArguments base
  let names ← parts.args.mapM fun
    | .ident name => pure name.text
    | _ => reject "bad type parameter of a receiver"
  require (!owners.isEmpty && owners.length == names.length) "wrong type parameters of a receiver"
  match base with
  | .named id _ =>
    let (env, params) ← declareTypeParams env.enter names
    let σ := owners.zip (params.map Ty.param)
    (owners.zip params).forM fun (owner, param) => modifyStore fun s => { s with
      params := s.params.modify param fun p => { p with
        constraint := s.subst σ (s.paramInfo owner).constraint
        standsFor := some (s.canonicalParam owner) } }
    let self := Ty.named id (params.map Ty.param)
    return ({ env with typeParams := params }, params, if parts.isPointer then .pointer self else self)
  | _ => reject "methods of an alias"

/-- The signature of a method with the receiver in scope. The type of the receiver learns it. -/
def methodHead (id : ObjId) (decl : Source.FuncDecl) (receiver : List Source.Field) :
    Check FuncHead := do
  match receiver with
  | [.mk names type _] =>
    require (names.length ≤ 1) "several receivers"
    if !decl.type.typeParams.isEmpty then since 27
    let (env, receiverParams, t) ← receiverType goals type
    defer (.receiver t)
    let receiverName := (names.head?.map (·.text)).getD ""
    let param : ParamInfo :=
      { name := receiverName, id := ← newLocal receiverName t false, type := t, typePos := type.pos }
    let head ← signatureIn goals env (some param) decl.type
    let s ← store
    match s.unalias (s.deref t).1 with
    | .named base _ =>
      let signature : MethodType := { receiverName, receiverParams, type := head.type }
      modifyDeclared base fun d => { d with methods := d.methods.map fun m =>
        if m.object == id then { m with signature := some signature } else m }
    | _ => pure ()
    return head
  | _ => reject "several receivers"

/-! ## Objects -/

def resolveShared (env : Env) (type : Option Source.Expr) (group : List ObjId)
    (value : Source.Expr) : Check Unit := do
  let given ← type.mapM (goals.varType env)
  if let some t := given then group.forM fun id => setEntity id (.var t)
  let xs ← valuesFor goals env (group.map fun _ => given) true [value]
  (group.zip xs).forM fun (id, x) => do
    let t ← match given with
      | some t => pure t
      | none => initialType x
    discard (assignTo x (some t))
    setEntity id (.var t)
    setInitial id x.tree

def resolveVar (env : Env) (id : ObjId) (type value : Option Source.Expr) : Check Unit := do
  let given ← type.mapM (goals.varType env)
  if let some t := given then setEntity id (.var t)
  match value with
  | none => require given.isSome "variable without a type"
  | some value =>
    let x ← goals.valueFor env given value
    let t ← match given with
      | some t => pure t
      | none => initialType x
    let x ← assignTo x (some t)
    setEntity id (.var t)
    setInitial id x.tree

def funcHead (id : ObjId) (decl : Source.FuncDecl) : Check FuncHead :=
  match decl.receiver with
  | some receiver => methodHead goals id decl receiver
  | none => signature goals {} decl.type

/-- A function or method of the file. Only its body refers to other declarations. -/
def resolveFunc (id : ObjId) (decl : Source.FuncDecl) : Check Unit := do
  let head ← funcHead goals id decl
  setEntity id (.func head.type)
  let head := { head with env := { head.env with owners := [id] } }
  modify fun s => { s with heads := (id, head) :: s.heads }

/-- A member of a package has the meaning that it has there. -/
def resolveImported (id : ObjId) (entity : Entity) : Check Unit :=
  setEntity id entity

def objectRule (id : ObjId) : Check Unit := do
  let o ← object id
  uncounted <| resolving id do
    match o.pending with
    | none => reject ("unresolved: " ++ o.name)
    | some (.const type value iota) =>
      setEntity id (← constEntity goals { owners := [id], iota := some iota } type value)
    | some (.var type value) => resolveVar goals { owners := [id] } id type value
    | some (.shared type group value) => resolveShared goals { owners := group } type group value
    | some (.type spec) =>
      let s ← get
      let methods := s.methods.filterMap fun m => if m.1 == id then some m.2 else none
      typeEntity goals {} spec id { name := s.packageName ++ "." ++ o.name, methods }
    | some (.func decl) => resolveFunc goals id decl
    | some (.imported _ entity) => resolveImported id entity
    | some (.package _) => reject ("package without a selector: " ++ o.name)

/-! ## Conditions on types -/

/-- Whether the alternatives of a constraint are told apart: a tilde stands before a type that is its
own underlying type, interfaces have no methods and do not ask for comparable types, and no other
alternatives overlap. -/
def termsOk (s : Store) (terms : List Term) : Bool :=
  let isInterface := fun (u : Term) => s.standsForInterface u.2
  let own := terms.all fun u =>
    (!u.1 || (!isInterface u && s.identical u.2 (s.underlying u.2))) &&
      (!isInterface u ||
        let set := s.typeSet u.2
        set.methods.isEmpty && !set.comparable)
  let plain := terms.filter fun u => !isInterface u
  own && plain.zipIdx.all (fun (u, i) =>
      (plain.take i).all fun v => Term.disjoint s.identical s.underlying v u) &&
    ((s.typeSet (.union terms)).terms.all fun ts => ts.length ≤ maxTerms)

def Deferred.holds (s : Store) : Deferred → Bool
  | .mapKey t => s.comparable t
  | .plain t => !s.isInterface t || (s.typeSet t).isMethodSet
  | .embedded t =>
    let (base, isPointer) := s.deref t
    match s.underlying base with
    | .pointer _ => false
    | .interface _ _ _ => !isPointer && !s.isParam base
    | _ => true
  | .methods t =>
    match t with
    | .interface _ own others =>
      let inherited := others.flatMap fun e => (s.typeSet e).methods
      let all := own ++ inherited
      all.all fun m => inherited.all fun n => m.1 != n.1 || s.identical m.2 n.2
    | _ => true
  | .union terms => termsOk s terms
  | .arguments params args => s.satisfies params args
  | .receiver t =>
    match s.unalias (s.deref t).1 with
    | .named id _ =>
      !(s.typeInfo id).isForeign &&
        match s.underlying (s.deref t).1 with
        | .pointer _ | .interface _ _ _ => false
        | _ => true
    | _ => false
  | .fieldNames id =>
    match s.underlying (.named id []) with
    | .struct fields => fields.all fun f =>
      f.1 == "_" || !(s.typeInfo id).methods.any fun m => m.name == f.1
    | _ => true

end SsaBlocks.Check
