import SsaBlocks.Lower.Expr

/-!
# Lowering statements

A statement is lowered into a block and ends in a block, unless the code after it cannot be
reached. The blocks that leave the surrounding loop, or start its next round, are collected and
connected once the body of the loop has been lowered.
-/

namespace SsaBlocks.Lower

open SsaBlocks.Source (Pos)
open SsaBlocks.Typed

/-- How a statement ends: the block after it, if that can be reached, and the blocks that leave
the surrounding loop or start it again. -/
structure Flow where
  next : Option BlockId
  breaks : List BlockId := []
  continues : List BlockId := []

namespace Flow

/-- What follows a statement that ends in a block. -/
def andThen (first : Flow) (rest : Flow) : Flow :=
  { rest with
    breaks := first.breaks ++ rest.breaks
    continues := first.continues ++ rest.continues }

end Flow

/-- Declares variables, all of whose values are computed first. -/
def varSpec (b : BlockId) (spec : VarSpec) : Lower BlockId := do
  match spec.values with
  | none =>
    spec.binders.forM fun
      | none => pure ()
      | some binder => do
        let type ← valueType binder.pos binder.type
        declare b binder (← build (.const b type 0))
    return b
  | some values =>
    let (ts, b) ← exprs b values
    if ts.length ≠ spec.binders.length then unsupported spec.pos "multi-value initializer"
    (spec.binders.zip ts).forM fun
      | (none, _) => pure ()
      | (some binder, t) => declare b binder t
    return b

def varSpecs (b : BlockId) : List VarSpec → Lower BlockId
  | [] => pure b
  | spec :: rest => do
    let b ← varSpec b spec
    varSpecs b rest

/-- Joins the two branches of a conditional statement: the otherwise branch jumps to the join and
the other falls through to it. If only one branch ends, the block after it is not shared. -/
def joinBranches : Option BlockId → Option BlockId → Lower (Option BlockId)
  | some elseEnd, some thenEnd => do
    let join ← build (.newBlock [elseEnd, thenEnd])
    build (.jump elseEnd join)
    return some join
  | some b, none | none, some b => some <$> build (.newBlock [b])
  | none, none => pure none

def sendTo (target : BlockId) (sources : List BlockId) : Lower Unit :=
  sources.forM fun b => do
    build (.jump b target)
    build (.addEdge b target)

/-- Makes the block of a post statement, which is owned by the last of the blocks that lead to it. -/
def postBlock (sources : List BlockId) : Lower (Option BlockId) := do
  match sources.getLast? with
  | none => return none
  | some owner =>
    let post ← build (.newBlock [owner])
    build (.comment post "post")
    build (.jump owner post)
    sendTo post sources.dropLast
    return some post

/-- Connects the blocks that leave a loop to the block after it, which is made by the first of
them if the loop has no condition. -/
def leaveLoop : Option BlockId → List BlockId → Lower (Option BlockId)
  | after, [] => pure after
  | none, b :: rest => do
    let after ← build (.newBlock [b])
    build (.jump b after)
    leaveLoop (some after) rest
  | some after, b :: rest => do
    build (.addEdge b after)
    build (.jump b after)
    leaveLoop (some after) rest

mutual

/-- Lowers a statement. `inLoop` tells whether there is a surrounding loop. -/
def stmt (inLoop : Bool) (b : BlockId) : Stmt → Lower Flow
  | .empty => pure { next := some b }
  | .block body => stmts inLoop (some b) body
  | .call callee args => do
    let (ts, b) ← exprs b args
    discard (build (.call b callee true ts))
    return { next := some b }
  | .vars specs => do
    return { next := some (← varSpecs b specs) }
  | .assign targets values => do
    let (ts, b) ← exprs b values
    (targets.zip ts).forM fun (target, t) => assign b target t
    return { next := some b }
  | .update target current op operand => do
    let (before, b) ← expr b current
    let (t, b) ← expr b operand
    let after ← build (.binary b op before t)
    assign b target after
    return { next := some b }
  | .ret none => do
    build (.ret b none)
    return { next := none }
  | .ret (some value) => do
    let (t, b) ← expr b value
    build (.ret b (some t))
    return { next := none }
  | .ifThen init cond body otherwise => do
    let start ← stmt inLoop b init
    match start.next with
    | none => return start
    | some b =>
      let (c, context) ← expr b cond
      build (.comment context "if")
      let elseStart ← build (.newBlock [context])
      let thenStart ← build (.newBlock [context])
      build (.branch context c elseStart thenStart)
      let thenFlow ← stmts inLoop (some thenStart) body
      let elseFlow ← stmt inLoop elseStart otherwise
      let next ← joinBranches elseFlow.next thenFlow.next
      return start.andThen (thenFlow.andThen { elseFlow with next })
  | .loop init cond post body => do
    let start ← stmt inLoop b init
    match start.next with
    | none => return start
    | some b =>
      let header ← build (.newBlock [b])
      build (.comment header "for")
      let (bodyStart, after) ← loopHead header cond
      let flow ← stmts true (some bodyStart) body
      let bodyEnd ← loopPost header post flow
      if let some last := bodyEnd then
        build (.jump last header)
        build (.addEdge last header)
      let next ← leaveLoop after flow.breaks
      return start.andThen { next }
  | .leave pos => do
    if !inLoop then unsupported pos "break outside of a loop"
    return { next := none, breaks := [b] }
  | .again pos => do
    if !inLoop then unsupported pos "continue outside of a loop"
    return { next := none, continues := [b] }
  | .unsupported pos what => unsupported pos what

/-- Lowers the condition of a loop: the block of the body, and the block after the loop if it has
a condition. -/
def loopHead (header : BlockId) : Option Expr → Lower (BlockId × Option BlockId)
  | none => do
    return (← build (.newBlock [header]), none)
  | some cond => do
    let (c, test) ← expr header cond
    let negated ← build (.unary test .not c)
    let bodyStart ← build (.newBlock [test])
    let after ← build (.newBlock [test])
    build (.branch test negated bodyStart after)
    return (bodyStart, some after)

/-- Lowers the post statement of a loop after its body: the last block of a round, if there is
one. Without a post statement the next round starts at the header. -/
def loopPost (header : BlockId) : Option Stmt → Flow → Lower (Option BlockId)
  | none, flow => do
    sendTo header flow.continues
    return flow.next
  | some post, flow => do
    match ← postBlock (flow.continues ++ flow.next.toList) with
    | none => return flow.next
    | some start =>
      let postFlow ← stmt false start post
      return postFlow.next

/-- Lowers statements up to the first that cannot be reached. -/
def stmts (inLoop : Bool) : Option BlockId → List Stmt → Lower Flow
  | none, _ => pure { next := none }
  | some b, [] => pure { next := some b }
  | some b, s :: rest => do
    let first ← stmt inLoop b s
    let flow ← stmts inLoop first.next rest
    return first.andThen flow

end

end SsaBlocks.Lower
