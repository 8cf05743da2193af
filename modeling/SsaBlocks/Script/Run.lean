import SsaBlocks.Dot
import SsaBlocks.Listing
import SsaBlocks.Script.Step

/-!
# Running scripts

The workbench holds what a script has made. All functions of a script share one graph, so that a
block may refer to the blocks and temporaries of other functions. A program refers to its functions
by their keys, so a change to a function is seen by every program that has it. A step that fails is
answered by its failure and the script goes on, unless SSA construction itself has failed.
-/

namespace SsaBlocks.Script

/-- A program on the workbench: the keys of its functions, and its globals. -/
structure ProgramEntry where
  functions : List Nat := []
  globals : List Variable := []
deriving Inhabited

/-- What a script has made, with the names given to it. -/
structure Workbench where
  nextVariable : Nat := 1
  graph : Graph := {}
  /-- The functions, without the graph. -/
  funcs : Array Func := #[]
  programs : Array ProgramEntry := #[]
  machines : Array (Nat × Globals) := #[]
  varNames : List (String × Variable) := []
  tempNames : List (String × Temp) := []
  blockNames : List (String × BlockId) := []
  funcNames : List (String × Nat) := []
  programNames : List (String × Nat) := []
  machineNames : List (String × Nat) := []
  /-- The position of each variable that has one, in its function or program. -/
  varIndices : Table Variable Nat := .empty

/-- A step that may end with an answer before its time. -/
abbrev Action (α : Type) := ExceptT Answer (StateM Workbench) α

namespace Workbench

def func (w : Workbench) (key : Nat) : Func :=
  { w.funcs.getD key default with toGraph := w.graph }

def homeKey (w : Workbench) (b : BlockId) : Nat :=
  (w.funcs.findIdx? fun fn => fn.entry = (w.graph.block b).home).getD 0

def program (w : Workbench) (key : Nat) : Program :=
  let entry := w.programs.getD key {}
  { functions := entry.functions.map w.func, globals := entry.globals }

def numberVariables (w : Workbench) (vars : List Variable) : Workbench :=
  { w with varIndices := vars.zipIdx.foldl (fun t e => t.insert e.1 e.2) w.varIndices }

/-- Replaces a function; once it has been finished its variables are numbered. -/
def setFunc (w : Workbench) (key : Nat) (fn : Func) : Workbench :=
  let completed := fn.isFinished && !(w.func key).isFinished
  let w := { w with
    graph := fn.toGraph
    funcs := w.funcs.setIfInBounds key { fn with toGraph := {} } }
  if completed then w.numberVariables fn.vars else w

end Workbench

namespace Action

def resolve {α : Type} (names : Workbench → List (String × α)) (name : String) : Action α := do
  match (names (← get)).lookup name with
  | some a => return a
  | none => throw (.unknownName name)

def variableNamed (name : String) : Action Variable :=
  resolve Workbench.varNames name

def tempNamed (name : String) : Action Temp :=
  resolve Workbench.tempNames name

def blockNamed (name : String) : Action BlockId :=
  resolve Workbench.blockNames name

def graph : Action Graph := do
  return (← get).graph

def funcNamed (name : String) : Action Nat :=
  resolve Workbench.funcNames name

def funcValue (name : String) : Action Func := do
  return (← get).func (← funcNamed name)

def programNamed (name : String) : Action Nat :=
  resolve Workbench.programNames name

def fault {α : Type} (f : Fault) : Action α :=
  throw (.fault f)

/-- Applies a step of construction to a function. -/
def build {α : Type} (key : Nat) (action : Build α) : Action α := do
  let w ← get
  let (result, fn) := action (w.func key)
  set (w.setFunc key fn)
  match result with
  | .ok a => return a
  | .error f => fault f

/-- Applies a step of construction to the function of a block. -/
def buildAt {α : Type} (block : String) (action : BlockId → Build α) : Action α := do
  let b ← blockNamed block
  build ((← get).homeKey b) (action b)

def answerTemp (as : String) (t : Temp) : Action Answer := do
  modify fun w => if as = "" then w else { w with tempNames := (as, t) :: w.tempNames }
  return .text ((← graph).tempText t)

def defineTemp (as block : String) (action : BlockId → Build Temp) : Action Answer := do
  answerTemp as (← buildAt block action)

/-- A step of construction without a result. -/
def change (block : String) (action : BlockId → Build Unit) : Action Answer := do
  buildAt block action
  return .ok

end Action

def reportBlock (g : Graph) (b : BlockId) : BlockReport :=
  let blk := g.block b
  let pairs (t : Table Variable Temp) := t.entries.map fun e => (e.1.text, g.tempText e.2)
  { block := g.blockText b
    parents := blk.parents.map g.blockText
    children := blk.children.map g.blockText
    pending := blk.pending.size
    code := blk.lines.map g.lineText
    declared := blk.declared.members.map Variable.text
    alive := blk.alive.members.map Variable.text
    written := pairs blk.written
    awaited := pairs blk.awaited
    dominators := blk.dominators.map fun s => s.members.map g.blockText
    idom := blk.idom.map g.blockText
    frontier := blk.frontier.map fun s => s.members.map g.blockText }

/-- A line of a block as it is reported; a comment has the opcode zero. -/
def reportLine (g : Graph) (line : Line) : LineReport :=
  { opcode := match line.opcode? with
      | some op => op.code
      | none => 0
    result := line.result?.map g.tempText
    operands := line.operands.map g.tempText
    text := g.lineText line }

def reportLocals (g : Graph) (b : BlockId) (v : Variable) : LocalsReport :=
  let blk := g.block b
  { declared := blk.declared.contains v
    alive := blk.alive.contains v
    written := (blk.written.get? v).map g.tempText
    awaited := (blk.awaited.get? v).map g.tempText
    anyAwaited := !blk.awaited.isEmpty }

def countOf (fn : Func) : Counted → Except Fault Nat
  | .blocks => do fn.requireNumbered "block count"; return fn.order.length
  | .instructions => do fn.requireNumbered "instruction count"; return fn.instructionCount
  | .temporaries => do fn.requireNumbered "temporary count"; return fn.temporaryCount

open Script.Action

def runMaking : Step → Action Answer
  | .makeVariable as name kind type => do
    let v : Variable := { id := (← get).nextVariable, name, kind, type }
    modify fun w =>
      { w with nextVariable := w.nextVariable + 1, varNames := (as, v) :: w.varNames }
    return .text v.text
  | .makeFunction as name params resultType entryName => do
    let fn := Func.makeIn (← graph) name (← params.mapM variableNamed) resultType
    modify fun w =>
      { w with
        graph := fn.toGraph
        funcs := w.funcs.push { fn with toGraph := {} }
        funcNames := (as, w.funcs.size) :: w.funcNames
        blockNames := (entryName, fn.entry) :: w.blockNames }
    return .ok
  | .makeBlock as func parents => do
    let key ← funcNamed func
    let b ← build key (Build.newBlock (← parents.mapM blockNamed))
    modify fun w => { w with blockNames := (as, b) :: w.blockNames }
    return .text ((← graph).blockText b)
  | .param as func position => do
    let key ← funcNamed func
    match ((← get).func key).paramTemp? position with
    | some t => answerTemp as t
    | none => fault .outOfRange
  | _ => return .ok

def runFilling : Step → Action Answer
  | .edge block target => do
    let t ← blockNamed target
    change block fun b => Build.addEdge b t
  | .const as block type value => defineTemp as block fun b => Build.const b type value
  | .comment block text => change block fun b => Build.comment b text
  | .binary as block op left right => do
    let l ← tempNamed left
    let r ← tempNamed right
    defineTemp as block fun b => Build.binary b op l r
  | .unary as block op operand => do
    let t ← tempNamed operand
    defineTemp as block fun b => Build.unary b op t
  | .load as block var => do
    let v ← variableNamed var
    defineTemp as block fun b => Build.load b v
  | .store block var temp => do
    let v ← variableNamed var
    let t ← tempNamed temp
    change block fun b => Build.store b v t
  | .call as block callee void args => do
    let values ← args.mapM tempNamed
    match ← buildAt block fun b => Build.call b callee void values with
    | some t => answerTemp as t
    | none => return .nothing
  | .jump block target => do
    let t ← blockNamed target
    change block fun b => Build.jump b t
  | .branch block cond otherwise target => do
    let c ← tempNamed cond
    let e ← blockNamed otherwise
    let t ← blockNamed target
    change block fun b => Build.branch b c e t
  | .ret block temp => do
    let t ← temp.mapM tempNamed
    change block fun b => Build.ret b t
  | .declare block var temp => do
    let v ← variableNamed var
    let t ← tempNamed temp
    change block fun b => Build.declare b v t
  | .write block var temp => do
    let v ← variableNamed var
    let t ← tempNamed temp
    change block fun b => Build.write b v t
  | .read as block var => do
    let v ← variableNamed var
    defineTemp as block fun b => Build.read b v
  | .advance func stage => do
    build (← funcNamed func) (Build.advance stage)
    return .ok
  | .finish func => do
    build (← funcNamed func) Build.finish
    return .ok
  | _ => return .ok

def blockIndex (b : BlockId) : Action Nat := do
  let g ← graph
  match (g.block b).index with
  | some i => return i
  | none => fault (.blockNotNumbered (g.blockNumber b))

def runQuery : Step → Action Answer
  | .blockIndex block => do
    let b ← blockNamed block
    return .number (← blockIndex b)
  | .tempIndex temp => do
    let t ← tempNamed temp
    let g ← graph
    match g.tempIndex? t with
    | some i => return .number i
    | none => fault (.temporaryNotNumbered (g.tempNumber t))
  | .varIndex var => do
    let v ← variableNamed var
    match (← get).varIndices.get? v with
    | some i => return .number i
    | none => fault (.variableNotNumbered v.name)
  | .blockName block => do
    let b ← blockNamed block
    return .text ((← graph).blockText b)
  | .tempName temp => do
    let t ← tempNamed temp
    return .text ((← graph).tempText t)
  | .isTerminated block => do
    let b ← blockNamed block
    return .flag ((← graph).block b).isTerminated
  | .count func what => do
    match countOf (← funcValue func) what with
    | .ok n => return .number n
    | .error f => fault f
  | .isFinished func => return .flag (← funcValue func).isFinished
  | .varsOf func => do
    let fn ← funcValue func
    match fn.requireNumbered "variables" with
    | .ok () => return .texts (fn.vars.map Variable.text)
    | .error f => fault f
  | .blockCount block => do
    let b ← blockNamed block
    let w ← get
    let fn := w.func (w.homeKey b)
    match fn.requireNumbered "instruction count" with
    | .ok () => return .number (fn.block b).codeCount
    | .error f => fault f
  | .successors block => do
    let b ← blockNamed block
    return .numbers (← ((← graph).block b).children.mapM blockIndex)
  | .lines block => do
    let b ← blockNamed block
    let g ← graph
    return .lines ((g.block b).lines.map (reportLine g))
  | .locals block var => do
    let b ← blockNamed block
    return .locals (reportLocals (← graph) b (← variableNamed var))
  | .dominates left right => do
    let a ← blockNamed left
    let b ← blockNamed right
    return .flag ((← graph).dominates a b)
  | .listing func => return .text (← funcValue func).listing
  | .dot func title => return .text ((← funcValue func).dot title)
  | .dumpBlock block => do
    let b ← blockNamed block
    return .block (reportBlock (← graph) b)
  | .dump func => do
    let fn ← funcValue func
    return .blocks (fn.orderedBlocks.map (reportBlock fn.toGraph))
  | _ => return .ok

def answerCall : Except EvalFailure Int64 → Answer
  | .ok w => .word w
  | .error failure => .evaluation failure

/-- Takes one function of a program through construction, with the error that was met before. -/
def finishKey (state : Option FinishError × Workbench) (key : Nat) :
    Option FinishError × Workbench :=
  let (error, w) := state
  let fn := w.func key
  match Build.finish fn with
  | (.ok (), done) => (error, w.setFunc key done)
  | (.error fault, left) =>
    (error.or (some { function := fn.name, fault }), w.setFunc key left)

def runProgram : Step → Action Answer
  | .makeProgram as => do
    modify fun w =>
      { w with
        programs := w.programs.push {}
        programNames := (as, w.programs.size) :: w.programNames }
    return .ok
  | .addFunction program func => do
    let key ← programNamed program
    let fkey ← funcNamed func
    let w ← get
    match (w.program key).addFunction (w.func fkey) with
    | .error f => fault f
    | .ok _ =>
      set { w with programs := w.programs.modify key fun p =>
        { p with functions := p.functions ++ [fkey] } }
      return .ok
  | .addGlobal program var => do
    let key ← programNamed program
    let v ← variableNamed var
    let w ← get
    let globals := (w.programs.getD key {}).globals
    set { w with
      varIndices := w.varIndices.insert v globals.length
      programs := w.programs.modify key fun p => { p with globals := p.globals ++ [v] } }
    return .ok
  | .lookup program name => do
    match ((← get).program (← programNamed program)).lookup? name with
    | some fn => return .text fn.name
    | none => return .nothing
  | .finishProgram program => do
    let w ← get
    let key ← programNamed program
    let (error, w) := (w.programs.getD key {}).functions.foldl finishKey (none, w)
    set w
    match error with
    | some e => throw (.compilation e)
    | none => return .ok
  | .summary program => return .text ((← get).program (← programNamed program)).summary
  | .evaluate program name args => do
    return answerCall (((← get).program (← programNamed program)).evaluate name args)
  | .makeMachine as program => do
    let key ← programNamed program
    let w ← get
    match Machine.make (w.program key) with
    | .error failure => throw (.evaluation failure)
    | .ok m =>
      set { w with
        machines := w.machines.push (key, m.globals)
        machineNames := (as, w.machines.size) :: w.machineNames }
      return .ok
  | .callMachine machine name args => do
    let mkey ← resolve Workbench.machineNames machine
    let w ← get
    let (key, globals) := w.machines.getD mkey (0, .empty)
    let (result, m) := ({ program := w.program key, globals } : Machine).call name args
    set { w with machines := w.machines.setIfInBounds mkey (key, m.globals) }
    return answerCall result
  | .globalValue machine var => do
    let mkey ← resolve Workbench.machineNames machine
    let (_, globals) := (← get).machines.getD mkey (0, .empty)
    return .word (globals.value (← variableNamed var))
  | _ => return .ok

def runStep (step : Step) : Action Answer :=
  match step with
  | .makeVariable .. | .makeFunction .. | .makeBlock .. | .param .. => runMaking step
  | .edge .. | .const .. | .comment .. | .binary .. | .unary .. | .load .. | .store .. | .call ..
  | .jump .. | .branch .. | .ret .. | .declare .. | .write .. | .read .. | .advance ..
  | .finish .. => runFilling step
  | .makeProgram .. | .addFunction .. | .addGlobal .. | .lookup .. | .finishProgram ..
  | .summary .. | .evaluate .. | .makeMachine .. | .callMachine .. | .globalValue .. =>
    runProgram step
  | _ => runQuery step

/-- Whether a failed step ends the script: the function is left half constructed. -/
def endsScript : Step → Answer → Bool
  | .advance .., .fault f => !f.isWrongStage
  | .finish .., .fault f => !f.isWrongStage
  | .finishProgram .., .compilation e => !e.fault.isWrongStage
  | _, _ => false

def runSteps : List Step → Workbench → List Answer
  | [], _ => []
  | step :: rest, w =>
    match runStep step w with
    | (.ok answer, w) => answer :: runSteps rest w
    | (.error answer, w) =>
      if endsScript step answer then [answer] else answer :: runSteps rest w

def run (steps : List Step) : List Answer :=
  runSteps steps {}

end SsaBlocks.Script
