import SsaBlocks.Program

/-!
# The machine

Finished programs are run on a machine whose values are 64-bit words. Each active call has a frame:
a register for every temporary, the block it is in and the instructions that are left there. On
entry to a block its phi nodes are read together, before any of them is set. Global variables start
at zero. At most `maxDepth` calls can be active.

An error names the calls that were active, outermost first, before its cause; a call that is
refused on entry is not one of them. A fault of the graph, such as reading a temporary without an
index, ends the run as it is.
-/

namespace SsaBlocks

/-- Why a run ended with an error. Blocks are given as written. -/
inductive EvalCause where
  | noFunction (name : String)
  | wrongArguments (name : String) (expected given : Nat)
  | notCompiled (name : String)
  | depthExceeded (name : String)
  | divisionByZero
  | unknownBinary (op : Opcode)
  | unknownUnary (op : Opcode)
  | noEdge (var block source : String)
  | fallsThrough (block : String) (children : Nat)
deriving DecidableEq, Repr

namespace EvalCause

def message : EvalCause → String
  | noFunction name => s!"no function named '{name}'"
  | wrongArguments name expected given => s!"{name} takes {expected} arguments, got {given}"
  | notCompiled name => s!"{name} has not been compiled"
  | depthExceeded name => s!"call depth exceeded in {name}"
  | divisionByZero => "division by zero"
  | unknownBinary op => s!"unknown binary operator {op.name}"
  | unknownUnary op => s!"unknown unary operator {op.name}"
  | noEdge var block source => s!"phi for {var} in {block} has no edge from {source}"
  | fallsThrough block children => s!"{block} falls through with {children} children"

end EvalCause

/-- How a run can end without a value. -/
inductive EvalFailure where
  | error (active : List String) (cause : EvalCause)
  | fault (fault : Fault)
  | outOfSteps
deriving DecidableEq, Repr

namespace EvalFailure

/-- The text of an error: the active calls, outermost first, then the cause. -/
def errorText (active : List String) (cause : EvalCause) : String :=
  String.intercalate ": " (active ++ [cause.message])

end EvalFailure

namespace Opcode

def truth (b : Bool) : Int64 :=
  if b then 1 else 0

/-- The result of an operation on two words. Arithmetic wraps around and division truncates. -/
def evalBinary (op : Opcode) (l r : Int64) : Except EvalCause Int64 :=
  match op with
  | .add => .ok (l + r)
  | .sub => .ok (l - r)
  | .mul => .ok (l * r)
  | .div => if r = 0 then .error .divisionByZero else .ok (l / r)
  | .mod => if r = 0 then .error .divisionByZero else .ok (l % r)
  | .and => .ok (l &&& r)
  | .or => .ok (l ||| r)
  | .logicalAnd => .ok (truth (l ≠ 0 ∧ r ≠ 0))
  | .logicalOr => .ok (truth (l ≠ 0 ∨ r ≠ 0))
  | .gt => .ok (truth (r < l))
  | .gte => .ok (truth (r ≤ l))
  | .eq => .ok (truth (l = r))
  | .neq => .ok (truth (l ≠ r))
  | .lte => .ok (truth (l ≤ r))
  | .lt => .ok (truth (l < r))
  | op => .error (.unknownBinary op)

def evalUnary (op : Opcode) (w : Int64) : Except EvalCause Int64 :=
  match op with
  | .neg => .ok (-w)
  | .not => .ok (truth (w = 0))
  | op => .error (.unknownUnary op)

end Opcode

/-- The values of the variables in memory; those not listed are zero. -/
abbrev Globals := Table Variable Int64

namespace Globals

def value (g : Globals) (v : Variable) : Int64 :=
  (g.get? v).getD 0

end Globals

/-- What stops a step: an error of the program or a fault of the graph. -/
inductive Halt where
  | cause (cause : EvalCause)
  | fault (fault : Fault)
deriving DecidableEq, Repr

/-- An active call. -/
structure Frame where
  fn : Func
  regs : Array Int64
  block : BlockId
  code : List Instruction
  /-- Where the caller wants the result. -/
  dest : Option Temp

namespace Frame

def register (fn : Func) (t : Temp) : Except Halt Nat :=
  match fn.tempIndex? t with
  | some i => .ok i
  | none => .error (.fault (.temporaryNotNumbered (fn.tempNumber t)))

def read (fn : Func) (regs : Array Int64) (t : Temp) : Except Halt Int64 := do
  match regs[← register fn t]? with
  | some w => return w
  | none => throw (.fault .outOfRange)

def write (fn : Func) (regs : Array Int64) (t : Temp) (w : Int64) :
    Except Halt (Array Int64) := do
  let i ← register fn t
  if i < regs.size then return regs.setIfInBounds i w else throw (.fault .outOfRange)

def phiValue (fn : Func) (regs : Array Int64) (b : BlockId) (previous : Option BlockId)
    (p : Phi) : Except Halt Int64 :=
  match p.edges.find? fun e => some e.1 = previous with
  | some e => read fn regs e.2
  | none =>
    let source := match previous with
      | some b => fn.blockText b
      | none => "the entry"
    .error (.cause (.noEdge p.var.name (fn.blockText b) source))

/-- Sets the phi nodes of a block, all of which are read first. -/
def enterPhis (fn : Func) (regs : Array Int64) (b : BlockId) (previous : Option BlockId) :
    Except Halt (Array Int64) := do
  let phis := (fn.block b).phis
  let values ← phis.mapM (phiValue fn regs b previous)
  (phis.zip values).foldlM (fun regs e => write fn regs e.1.dest e.2) regs

def goTo (f : Frame) (target : BlockId) : Except Halt Frame := do
  let regs ← enterPhis f.fn f.regs target (some f.block)
  return { f with regs, block := target, code := (f.fn.block target).code }

end Frame

/-- The active calls, innermost first, and the memory. -/
structure Run where
  frames : List Frame
  globals : Globals

/-- What one step leads to. -/
inductive Progress where
  | running (run : Run)
  | done (value : Int64) (globals : Globals)
  | failed (failure : EvalFailure) (globals : Globals)

namespace Machine

def maxDepth : Nat := 10000

/-- The frame of a new call, before its first block has been entered. -/
def openFrame (program : Program) (depth : Nat) (name : String) (args : List Int64)
    (dest : Option Temp) : Except EvalCause Frame :=
  match program.lookup? name with
  | none => .error (.noFunction name)
  | some fn =>
    if args.length ≠ fn.params.length then
      .error (.wrongArguments name fn.params.length args.length)
    else if !fn.isFinished then .error (.notCompiled name)
    else if maxDepth ≤ depth then .error (.depthExceeded name)
    else
      let zeros := Array.replicate fn.temporaryCount 0
      let regs := args.zipIdx.foldl (fun regs e => regs.setIfInBounds e.2 e.1) zeros
      .ok { fn, regs, block := fn.entry, code := (fn.block fn.entry).code, dest }

def activeNames (frames : List Frame) : List String :=
  (frames.map fun f => f.fn.name).reverse

def stop (fn : Func) (callers : List Frame) (globals : Globals) : Halt → Progress
  | .cause cause => .failed (.error (activeNames callers ++ [fn.name]) cause) globals
  | .fault fault => .failed (.fault fault) globals

def startCall (program : Program) (frames : List Frame) (globals : Globals) (name : String)
    (args : List Int64) (dest : Option Temp) : Progress :=
  match openFrame program frames.length name args dest with
  | .error cause => .failed (.error (activeNames frames) cause) globals
  | .ok frame =>
    match Frame.enterPhis frame.fn frame.regs frame.block none with
    | .error halt => stop frame.fn frames globals halt
    | .ok regs => .running { frames := { frame with regs } :: frames, globals }

def finishCall (frame : Frame) (callers : List Frame) (globals : Globals) (value : Int64) :
    Progress :=
  match callers with
  | [] => .done value globals
  | caller :: rest =>
    match frame.dest with
    | none => .running { frames := callers, globals }
    | some t =>
      match Frame.write caller.fn caller.regs t value with
      | .error halt => stop caller.fn rest globals halt
      | .ok regs => .running { frames := { caller with regs } :: rest, globals }

/-- The effect of an instruction within its function: the frame and the memory afterwards. -/
def execute (f : Frame) (g : Globals) : Instruction → Except Halt (Frame × Globals)
  | .const d _ w => return ({ f with regs := ← Frame.write f.fn f.regs d w }, g)
  | .load d v => return ({ f with regs := ← Frame.write f.fn f.regs d (g.value v) }, g)
  | .store v t => return (f, g.insert v (← Frame.read f.fn f.regs t))
  | .binary op d l r => do
    let left ← Frame.read f.fn f.regs l
    let right ← Frame.read f.fn f.regs r
    let w ← (op.evalBinary left right).mapError .cause
    return ({ f with regs := ← Frame.write f.fn f.regs d w }, g)
  | .unary op d t => do
    let w ← (op.evalUnary (← Frame.read f.fn f.regs t)).mapError .cause
    return ({ f with regs := ← Frame.write f.fn f.regs d w }, g)
  | .jump target => return (← f.goTo target, g)
  | .branch c otherwise target => do
    let w ← Frame.read f.fn f.regs c
    return (← f.goTo (if w ≠ 0 then target else otherwise), g)
  | _ => return (f, g)

def fallThrough (f : Frame) : Except Halt Frame :=
  match (f.fn.block f.block).children with
  | [child] => f.goTo child
  | children => .error (.cause (.fallsThrough (f.fn.blockText f.block) children.length))

def step (program : Program) (frame : Frame) (callers : List Frame) (globals : Globals) :
    Progress :=
  match frame.code with
  | [] =>
    match fallThrough frame with
    | .ok next => .running { frames := next :: callers, globals }
    | .error halt => stop frame.fn callers globals halt
  | inst :: code =>
    let frame := { frame with code }
    match inst with
    | .call dest callee args =>
      match args.mapM (Frame.read frame.fn frame.regs) with
      | .error halt => stop frame.fn callers globals halt
      | .ok values => startCall program (frame :: callers) globals callee values dest
    | .ret none => finishCall frame callers globals 0
    | .ret (some t) =>
      match Frame.read frame.fn frame.regs t with
      | .error halt => stop frame.fn callers globals halt
      | .ok value => finishCall frame callers globals value
    | inst =>
      match execute frame globals inst with
      | .error halt => stop frame.fn callers globals halt
      | .ok (next, globals) => .running { frames := next :: callers, globals }

def runFor (program : Program) : Nat → Progress → Except EvalFailure Int64 × Globals
  | _, .done value globals => (.ok value, globals)
  | _, .failed failure globals => (.error failure, globals)
  | 0, .running run => (.error .outOfSteps, run.globals)
  | steps + 1, .running run =>
    match run.frames with
    | [] => (.ok 0, run.globals)
    | frame :: callers => runFor program steps (step program frame callers run.globals)

/-- The number of steps after which a call is given up. -/
def stepLimit : Nat := 1152921504606846976

end Machine

/-- A program with its memory. -/
structure Machine where
  program : Program
  globals : Globals := .empty

namespace Machine

/-- Calls a function; the memory may have changed even if the call fails. -/
def call (m : Machine) (name : String) (args : List Int64) : Except EvalFailure Int64 × Machine :=
  let (result, globals) :=
    runFor m.program stepLimit (startCall m.program [] m.globals name args none)
  (result, { m with globals })

/-- A machine whose globals have been set up by the program's `init` function, if it has one. -/
def make (program : Program) : Except EvalFailure Machine :=
  let m : Machine := { program }
  if (program.lookup? Program.initName).isSome then
    match m.call Program.initName [] with
    | (.ok _, m) => .ok m
    | (.error failure, _) => .error failure
  else .ok m

end Machine

namespace Program

def evaluate (p : Program) (name : String) (args : List Int64) : Except EvalFailure Int64 := do
  let m ← Machine.make p
  (m.call name args).1

end Program

end SsaBlocks
