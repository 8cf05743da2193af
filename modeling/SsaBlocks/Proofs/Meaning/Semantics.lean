import Mathlib.Logic.Function.Basic
import SsaBlocks.Machine

/-!
# The meaning of functions

A function is run block by block. How it keeps the values of its temporaries is left open: a
`Storage` says what happens to them on entering and on leaving a block. The calls that a function
makes are answered by a `Callee`. The meaning of a function, given a callee, is what its run settles
on when the number of blocks that it may visit grows; the meaning of a program is made from the
meanings of its functions, by recursion on the number of calls that may be active.

There are two ways of keeping values. In `onVariables` a function has temporaries and variables: on
entering a block, the placeholders of variables that are read there before they are written take the
values of these variables, and on leaving it the variables that the block has written take the
values of their temporaries. In `onRegisters` it has the registers of a machine: on entering a block,
its phi nodes are set, and variables play no role.
-/

namespace SsaBlocks

/-- How a computation ends: with a value, with a failure and the memory at that time, or not. -/
inductive Ending (α : Type) where
  | value (a : α)
  | failed (failure : EvalFailure) (g : Globals)
  | never

namespace Ending

variable {α β : Type}

/-- Goes on with the value of a computation. -/
protected def bind (x : Ending α) (f : α → Ending β) : Ending β :=
  match x with
  | value a => f a
  | failed failure g => failed failure g
  | never => never

instance : Monad Ending where
  pure := value
  bind := Ending.bind

@[simp] theorem value_bind (a : α) (f : α → Ending β) : (value a >>= f) = f a := rfl

@[simp] theorem failed_bind (e : EvalFailure) (g : Globals) (f : α → Ending β) :
    (failed e g >>= f) = failed e g := rfl

@[simp] theorem never_bind (f : α → Ending β) : (never >>= f) = never := rfl

@[simp] theorem pure_eq (a : α) : (pure a : Ending α) = value a := rfl

theorem bind_eq_value {x : Ending α} {f : α → Ending β} {b : β} :
    (x >>= f) = value b ↔ ∃ a, x = value a ∧ f a = value b := by
  cases x <;> simp

/-- A step of a function that may be stopped. -/
def ofHalt (name : String) (g : Globals) : Except Halt α → Ending α
  | .ok a => value a
  | .error (.cause cause) => failed (.error [name] cause) g
  | .error (.fault fault) => failed (.fault fault) g

theorem ofHalt_bind_ne_never {name : String} {g : Globals} {r : Except Halt α}
    {k : α → Ending β} (h : ∀ a, r = .ok a → k a ≠ .never) : (ofHalt name g r >>= k) ≠ .never := by
  match r with
  | .ok a => exact h a rfl
  | .error (.cause _) => simp [ofHalt]
  | .error (.fault _) => simp [ofHalt]

end Ending

/-- A failure as it appears when more calls are active. -/
def EvalFailure.under (names : List String) : EvalFailure → EvalFailure
  | error active cause => error (names ++ active) cause
  | fault f => fault f
  | outOfSteps => outOfSteps

/-- An ending as it appears when more calls are active. -/
def Ending.under {α : Type} (names : List String) : Ending α → Ending α
  | value a => value a
  | failed failure g => failed (failure.under names) g
  | never => never

/-- What calls do. -/
abbrev Callee := String → List Int64 → Globals → Ending (Int64 × Globals)

/-- Where an instruction leads: to the one after it, to a block, or out of the function. -/
inductive Move where
  | next
  | goTo (target : BlockId)
  | ret (value : Int64)

/-- How the values of temporaries are kept. -/
structure Storage (S : Type) where
  start : List Int64 → S
  get : S → Temp → Except Halt Int64
  set : S → Temp → Int64 → Except Halt S
  enter : Option BlockId → BlockId → S → Except Halt S
  leave : BlockId → S → S

namespace Storage

variable {S : Type} (store : Storage S) (fn : Func) (callee : Callee)

/-- The effect of an instruction. -/
def exec (s : S) (g : Globals) : Instruction → Ending (Move × S × Globals)
  | .comment _ => pure (.next, s, g)
  | .const d _ w => do
    let s ← .ofHalt fn.name g (store.set s d w)
    return (.next, s, g)
  | .load d v => do
    let s ← .ofHalt fn.name g (store.set s d (g.value v))
    return (.next, s, g)
  | .store v t => do
    let w ← .ofHalt fn.name g (store.get s t)
    return (.next, s, g.insert v w)
  | .binary op d l r => do
    let left ← .ofHalt fn.name g (store.get s l)
    let right ← .ofHalt fn.name g (store.get s r)
    let w ← .ofHalt fn.name g ((op.evalBinary left right).mapError .cause)
    let s ← .ofHalt fn.name g (store.set s d w)
    return (.next, s, g)
  | .unary op d t => do
    let w ← .ofHalt fn.name g (store.get s t)
    let w ← .ofHalt fn.name g ((op.evalUnary w).mapError .cause)
    let s ← .ofHalt fn.name g (store.set s d w)
    return (.next, s, g)
  | .call d f args => do
    let values ← .ofHalt fn.name g (args.mapM (store.get s))
    let (w, g) ← (callee f values g).under [fn.name]
    match d with
    | none => return (.next, s, g)
    | some t =>
      let s ← .ofHalt fn.name g (store.set s t w)
      return (.next, s, g)
  | .jump target => pure (.goTo target, s, g)
  | .branch c otherwise target => do
    let w ← .ofHalt fn.name g (store.get s c)
    return (.goTo (if w ≠ 0 then target else otherwise), s, g)
  | .ret none => pure (.ret 0, s, g)
  | .ret (some t) => do
    let w ← .ofHalt fn.name g (store.get s t)
    return (.ret w, s, g)

/-- The effect of instructions that follow one another, up to the first that leads elsewhere. -/
def runCode : List Instruction → S → Globals → Ending (Move × S × Globals)
  | [], s, g => pure (.next, s, g)
  | inst :: code, s, g => do
    match ← store.exec fn callee s g inst with
    | (.next, s, g) => runCode code s g
    | r => pure r

/-- What comes after the instructions of a block, given what is done on the way to another. -/
def afterCode (b : BlockId) (go : BlockId → S → Globals → Ending (Int64 × Globals)) :
    Move × S × Globals → Ending (Int64 × Globals)
  | (.ret w, _, g) => pure (w, g)
  | (.goTo target, s, g) => go target s g
  | (.next, s, g) =>
    match (fn.block b).children with
    | [child] => go child s g
    | children =>
      .ofHalt fn.name g (.error (.cause (.fallsThrough (fn.blockText b) children.length)))

/-- Runs the rest of a block and then at most a number of blocks. -/
def runBlocks : Nat → BlockId → List Instruction → S → Globals → Ending (Int64 × Globals)
  | 0, b, code, s, g =>
    store.runCode fn callee code s g >>= afterCode fn b fun _ _ _ => .never
  | n + 1, b, code, s, g =>
    store.runCode fn callee code s g >>= afterCode fn b fun target s g => do
      let s ← .ofHalt fn.name g (store.enter (some b) target (store.leave b s))
      runBlocks n target (fn.block target).code s g

/-- Goes on with another block, if there is a block left to visit. -/
def follow (b : BlockId) : Nat → BlockId → S → Globals → Ending (Int64 × Globals)
  | 0, _, _, _ => .never
  | n + 1, target, s, g => do
    let s ← .ofHalt fn.name g (store.enter (some b) target (store.leave b s))
    store.runBlocks fn callee n target (fn.block target).code s g

theorem runBlocks_eq (n : Nat) (b : BlockId) (code : List Instruction) (s : S) (g : Globals) :
    store.runBlocks fn callee n b code s g =
      (store.runCode fn callee code s g >>= afterCode fn b (store.follow fn callee b n)) := by
  cases n <;> rfl

theorem runBlocks_cons (n : Nat) (b : BlockId) (inst : Instruction) (code : List Instruction)
    (s : S) (g : Globals) :
    store.runBlocks fn callee n b (inst :: code) s g = (store.exec fn callee s g inst >>= fun r =>
      match r with
      | (.next, s, g) => store.runBlocks fn callee n b code s g
      | r => afterCode fn b (store.follow fn callee b n) r) := by
  rw [runBlocks_eq, runCode]
  cases store.exec fn callee s g inst with
  | value r =>
    obtain ⟨move, s', g'⟩ := r
    cases move with
    | next => exact (runBlocks_eq ..).symm
    | goTo target => rfl
    | ret w => rfl
  | failed e g => rfl
  | never => rfl

/-- Runs the function for at most a number of blocks after its entry. -/
def runFunction (n : Nat) (args : List Int64) (g : Globals) : Ending (Int64 × Globals) := do
  let s ← .ofHalt fn.name g (store.enter none fn.entry (store.start args))
  store.runBlocks fn callee n fn.entry (fn.block fn.entry).code s g

end Storage

open Classical in
/-- The ending that a sequence settles on. -/
noncomputable def Ending.limit {α : Type} (f : Nat → Ending α) : Ending α :=
  if h : ∃ n, f n ≠ .never then f h.choose else .never

namespace Ending

variable {α : Type} {f f' : Nat → Ending α} {r : Ending α} {n m : Nat}

/-- An ending, once there, stays. -/
def Settling (f : Nat → Ending α) : Prop :=
  ∀ n, f n ≠ .never → f (n + 1) = f n

theorem Settling.eq_of_le (hf : Settling f) (hn : f n ≠ .never) (hnm : n ≤ m) : f m = f n := by
  induction hnm with
  | refl => rfl
  | step _ ih => rw [hf _ (ih ▸ hn), ih]

theorem exists_limit (f : Nat → Ending α) (h : limit f ≠ .never) : ∃ n, f n = limit f := by
  rw [limit] at h ⊢
  split at h
  · rename_i hex
    rw [dif_pos hex]
    exact ⟨_, rfl⟩
  · exact absurd rfl h

theorem Settling.limit_eq (hf : Settling f) (hn : f n ≠ .never) : limit f = f n := by
  have hex : ∃ n, f n ≠ .never := ⟨n, hn⟩
  rw [limit, dif_pos hex]
  rcases Nat.le_total n hex.choose with hle | hle
  · exact hf.eq_of_le hn hle
  · exact (hf.eq_of_le hex.choose_spec hle).symm

/-- What one sequence settles on, the other does too. -/
theorem Settling.limit_eq_of_forall (hf' : Settling f')
    (h : ∀ n, f n ≠ .never → ∃ m, f' m = f n) (hne : limit f ≠ .never) :
    limit f' = limit f := by
  obtain ⟨n, hn⟩ := exists_limit f hne
  obtain ⟨m, hm⟩ := h n (hn ▸ hne)
  rw [hf'.limit_eq (n := m) (by rw [hm, hn]; exact hne), hm, hn]

theorem limit_congr (hf : Settling f) (hf' : Settling f')
    (h : ∀ n, f n ≠ .never → ∃ m, f' m = f n) (h' : ∀ n, f' n ≠ .never → ∃ m, f m = f' n) :
    limit f = limit f' := by
  by_cases hne : limit f = .never
  · by_cases hne' : limit f' = .never
    · rw [hne, hne']
    · exact hf.limit_eq_of_forall h' hne'
  · exact (hf'.limit_eq_of_forall h hne).symm

end Ending

namespace Storage

variable {S : Type} {store : Storage S} {fn : Func} {callee : Callee} {b : BlockId}

theorem afterCode_mono {go go' : BlockId → S → Globals → Ending (Int64 × Globals)}
    (h : ∀ target s g, go target s g ≠ .never → go' target s g = go target s g)
    {r : Move × S × Globals} (hr : afterCode fn b go r ≠ .never) :
    afterCode fn b go' r = afterCode fn b go r := by
  obtain ⟨move, s, g⟩ := r
  cases move with
  | ret w => rfl
  | goTo target => exact h target s g hr
  | next =>
    rw [afterCode] at hr ⊢
    rw [afterCode]
    split at hr
    · exact h _ s g hr
    · rfl

theorem settling_runBlocks (b : BlockId) (code : List Instruction) (s : S) (g : Globals) :
    Ending.Settling fun n => store.runBlocks fn callee n b code s g := by
  intro n hn
  induction n generalizing b code s g with
  | zero =>
    simp only [runBlocks_eq] at hn ⊢
    cases hcode : store.runCode fn callee code s g with
    | value r =>
      rw [hcode] at hn
      exact afterCode_mono (fun _ _ _ h => absurd rfl h) hn
    | failed e g => rfl
    | never => rfl
  | succ n ih =>
    simp only [runBlocks_eq store fn callee (_ + 1)] at hn ⊢
    cases hcode : store.runCode fn callee code s g with
    | value r =>
      rw [hcode] at hn
      refine afterCode_mono (fun target s g h => ?_) hn
      rw [follow] at h ⊢
      rw [follow]
      cases henter : Ending.ofHalt fn.name g (store.enter (some b) target (store.leave b s)) with
      | value s' =>
        rw [henter] at h
        exact ih target _ s' g h
      | failed e g => rfl
      | never => rfl
    | failed e g => rfl
    | never => rfl

theorem settling_runFunction (args : List Int64) (g : Globals) :
    Ending.Settling fun n => store.runFunction fn callee n args g := by
  intro n hn
  simp only [runFunction] at hn ⊢
  cases hs : Ending.ofHalt fn.name g (store.enter none fn.entry (store.start args)) with
  | value s =>
    rw [hs] at hn
    exact settling_runBlocks _ _ s g n hn
  | failed e g => rfl
  | never => rfl

end Storage

/-- What a function does, given what calls do. -/
noncomputable def Storage.meaning {S : Type} (store : Storage S) (fn : Func) (callee : Callee)
    (args : List Int64) (g : Globals) : Ending (Int64 × Globals) :=
  .limit fun n => store.runFunction fn callee n args g

theorem Storage.meaning_ne_never {S : Type} {store : Storage S} {fn : Func} {callee : Callee}
    {args : List Int64} {g : Globals} (h : ∃ n, store.runFunction fn callee n args g ≠ .never) :
    store.meaning fn callee args g ≠ .never := by
  obtain ⟨n, hn⟩ := h
  rwa [meaning, (settling_runFunction args g).limit_eq hn]

namespace Program

/-- Calls a function by name, unless there is none or it is given another number of arguments. -/
def accepting (p : Program) (name : String) (args : List Int64) (g : Globals)
    (run : Func → Ending (Int64 × Globals)) : Ending (Int64 × Globals) :=
  match p.lookup? name with
  | none => .failed (.error [] (.noFunction name)) g
  | some fn =>
    if args.length ≠ fn.params.length then
      .failed (.error [] (.wrongArguments name fn.params.length args.length)) g
    else run fn

/-- What the functions of a program do, if so many calls may be active. -/
def calls (p : Program) (meaning : Func → Callee → List Int64 → Globals → Ending (Int64 × Globals)) :
    Nat → Callee
  | 0, name, args, g => p.accepting name args g fun _ => .failed (.error [] (.depthExceeded name)) g
  | depth + 1, name, args, g =>
    p.accepting name args g fun fn => meaning fn (p.calls meaning depth) args g

end Program

/-! ## Two ways of keeping values -/

/-- The values of the temporaries and of the variables of a function. -/
structure Variables where
  temps : Temp → Int64
  vars : Variable → Int64

namespace Func

/-- The variable whose value on entry a placeholder of the block takes. -/
def placeholder? (fn : Func) (b : BlockId) (t : Temp) : Option Variable :=
  (fn.block b).awaited.keys.find? fun v => (fn.block b).awaited.get? v = some t

/-- Values are kept in temporaries and variables. -/
def onVariables (fn : Func) : Storage Variables where
  start args :=
    { temps := fun t => ((fn.paramTemps.zip args).lookup t).getD 0
      vars := fun _ => 0 }
  get s t := .ok (s.temps t)
  set s t w := .ok { s with temps := Function.update s.temps t w }
  enter _ b s := .ok { s with
    temps := fun t =>
      match fn.placeholder? b t with
      | some v => s.vars v
      | none => s.temps t }
  leave b s := { s with
    vars := fun v =>
      match (fn.block b).written.get? v with
      | some t => s.temps t
      | none => s.vars v }

/-- Values are kept in the registers of a machine. -/
def onRegisters (fn : Func) : Storage (Array Int64) where
  start args := args.zipIdx.foldl (fun regs e => regs.setIfInBounds e.2 e.1)
    (Array.replicate fn.temporaryCount 0)
  get := Frame.read fn
  set := Frame.write fn
  enter previous b regs := Frame.enterPhis fn regs b previous
  leave _ regs := regs

end Func

end SsaBlocks
