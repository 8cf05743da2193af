import SsaBlocks.Source.Syntax
import SsaBlocks.Text.Quoted
import SsaBlocks.Types.Basic

/-!
# Types

The types of the source language. A declared type, an alias and a type parameter are numbers into a
`Store`, which knows what they stand for; a declared type and an alias may have type arguments.
-/

namespace SsaBlocks.Types

open SsaBlocks.Source (Direction)

/-- Interfaces that have a name of their own although nothing is declared. -/
inductive InterfaceKind
  | plain
  /-- The interface that all types have. -/
  | any
  /-- The constraint that the values of a type can be compared. -/
  | comparable
deriving DecidableEq, Repr, Inhabited

inductive Ty
  | basic (b : Basic)
  | named (id : Nat) (args : List Ty)
  /-- Another name of a type. -/
  | synonym (id : Nat) (args : List Ty)
  | param (id : Nat)
  | pointer (base : Ty)
  | slice (element : Ty)
  | array (length : Nat) (element : Ty)
  | map (key value : Ty)
  | chan (direction : Direction) (element : Ty)
  /-- Parameters and results with their names, which are empty if they have none. -/
  | func (params results : List (String × Ty)) (variadic : Bool) (typeParams : List Nat)
  /-- Fields with their names, whether they are embedded, and their tags, which are empty if they
  have none. -/
  | struct (fields : List (String × Ty × Bool × List UInt8))
  | interface (kind : InterfaceKind) (methods : List (String × Ty)) (embedded : List Ty)
  /-- The alternatives of a constraint, and whether all types with that underlying type are meant. -/
  | union (terms : List (Bool × Ty))
  | tuple (types : List Ty)
deriving Inhabited

namespace Ty

def int : Ty := basic .int

def string : Ty := basic .string

def any : Ty := interface .any [] []

def isUntyped : Ty → Bool
  | basic b => b.isUntyped
  | _ => false

/-- The type that an untyped value takes where none is asked for. -/
def defaultType : Ty → Ty
  | basic b => basic b.defaultType
  | t => t

end Ty

def commaText (texts : List String) : String :=
  String.intercalate ", " texts

/-- How a type is written, with the names of declared types and of type parameters. The first
argument bounds the depth of the type. -/
def Ty.textUpTo (typeName paramName : Nat → String) : Nat → Ty → String
  | 0, _ => "…"
  | fuel + 1, t =>
    let text := textUpTo typeName paramName fuel
    let named := fun (p : String × Ty) => if p.1 = "" then text p.2 else s!"{p.1} {text p.2}"
    let signature := fun (t : Ty) =>
      match t with
      | .func params results variadic _ =>
        let last := params.length - 1
        let param := fun (p : (String × Ty) × Nat) =>
          let name := if p.1.1 = "" then "" else p.1.1 ++ " "
          match p.1.2, variadic && p.2 == last with
          | .slice element, true => name ++ "..." ++ text element
          | t, _ => name ++ text t
        let head := "(" ++ commaText (params.zipIdx.map param) ++ ")"
        match results with
        | [] => head
        | [("", r)] => head ++ " " ++ text r
        | rs => head ++ " (" ++ commaText (rs.map named) ++ ")"
      | _ => ""
    match t with
    | .basic b => b.name
    | .named id [] | .synonym id [] => typeName id
    | .named id args | .synonym id args =>
      typeName id ++ "[" ++ String.intercalate "," (args.map text) ++ "]"
    | .param id => paramName id
    | .pointer base => "*" ++ text base
    | .slice element => "[]" ++ text element
    | .array n element => s!"[{n}]{text element}"
    | .map key value => s!"map[{text key}]{text value}"
    | .chan .sendOnly element => "chan<- " ++ text element
    | .chan .receiveOnly element => "<-chan " ++ text element
    | .chan .both (.chan .receiveOnly element) => s!"chan (<-chan {text element})"
    | .chan .both element => "chan " ++ text element
    | .func _ _ _ _ => "func" ++ signature t
    | .struct fields =>
      let field := fun (f : String × Ty × Bool × List UInt8) =>
        let base := if f.2.2.1 then text f.2.1 else s!"{f.1} {text f.2.1}"
        if f.2.2.2.isEmpty then base else base ++ " " ++ Text.quoteBytes f.2.2.2
      "struct\x7b" ++ String.intercalate "; " (fields.map field) ++ "\x7d"
    | .interface .any _ _ => "any"
    | .interface .comparable _ _ => "comparable"
    | .interface .plain methods embedded =>
      let parts := methods.map (fun m => m.1 ++ signature m.2) ++ embedded.map text
      "interface\x7b" ++ String.intercalate "; " parts ++ "\x7d"
    | .union terms =>
      String.intercalate " | " (terms.map fun u => (if u.1 then "~" else "") ++ text u.2)
    | .tuple types => "(" ++ commaText (types.map text) ++ ")"

end SsaBlocks.Types
