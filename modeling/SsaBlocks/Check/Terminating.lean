import SsaBlocks.Source.Syntax

/-!
# Terminating statements

A function with results must end in a statement after which nothing is reached. Whether it does is
read off the syntax, given which calls never return.
-/

namespace SsaBlocks.Check

open SsaBlocks.Source

mutual

/-- Whether a statement contains a break out of the labeled statement, or, if `plain` breaks count,
out of the surrounding one. The first part of a statement has none if it is simple. -/
def hasBreak (label : String) (plain : Bool) : Stmt → Bool
  | .branch _ "break" none => plain
  | .branch _ "break" (some l) => l.text == label
  | .labeled _ body => hasBreak label plain body
  | .block _ body => anyBreak label plain body
  | .ifThen _ init _ body otherwise =>
    optionBreak label plain init || anyBreak label plain body || optionBreak label plain otherwise
  | .switch _ _ _ clauses | .typeSwitch _ _ _ _ clauses =>
    label != "" && clausesBreak label clauses
  | .select _ clauses => label != "" && communicationsBreak label clauses
  | .loop _ init _ _ body =>
    optionBreak label plain init || (label != "" && anyBreak label false body)
  | .range _ _ _ _ body => label != "" && anyBreak label false body
  | _ => false

def anyBreak (label : String) (plain : Bool) : List Stmt → Bool
  | [] => false
  | s :: rest => hasBreak label plain s || anyBreak label plain rest

def optionBreak (label : String) (plain : Bool) : Option Stmt → Bool
  | none => false
  | some s => hasBreak label plain s

def clausesBreak (label : String) : List Clause → Bool
  | [] => false
  | .mk _ _ body :: rest => anyBreak label false body || clausesBreak label rest

def communicationsBreak (label : String) : List Communication → Bool
  | [] => false
  | .mk _ body :: rest => anyBreak label false body || communicationsBreak label rest

end

def isEmptyStmt : Stmt → Bool
  | .empty _ => true
  | _ => false

variable (neverReturns : Expr → Bool)

mutual

/-- Whether nothing is reached after a statement, which may have a label. -/
def isTerminating (label : String) : Stmt → Bool
  | .labeled l body => isTerminating l.text body
  | .expr e => neverReturns e.unparen
  | .ret _ _ => true
  | .branch _ keyword _ => keyword == "goto" || keyword == "fallthrough"
  | .block _ body => endsTerminating body
  | .ifThen _ _ _ body otherwise => endsTerminating body && optionTerminating otherwise
  | .switch _ _ _ clauses | .typeSwitch _ _ _ _ clauses =>
    clausesTerminating label clauses && clauses.any fun | .mk isDefault _ _ => isDefault
  | .select _ clauses => communicationsTerminating label clauses
  | .loop _ _ cond _ body => cond.isNone && !anyBreak label true body
  | _ => false

/-- Whether the last of some statements, empty ones left out, is terminating. -/
def endsTerminating : List Stmt → Bool
  | [] => false
  | s :: rest =>
    if rest.all isEmptyStmt then isTerminating "" s else endsTerminating rest

def optionTerminating : Option Stmt → Bool
  | none => false
  | some s => isTerminating "" s

def clausesTerminating (label : String) : List Clause → Bool
  | [] => true
  | .mk _ _ body :: rest =>
    endsTerminating body && !anyBreak label true body && clausesTerminating label rest

def communicationsTerminating (label : String) : List Communication → Bool
  | [] => true
  | .mk _ body :: rest =>
    endsTerminating body && !anyBreak label true body && communicationsTerminating label rest

end

end SsaBlocks.Check
