import SsaBlocks.Proofs.Meaning.Tracking

/-!
# What can be seen of a run

A run of a function is seen from outside by the values that it stores and by its calls. Here a
function is run as before, block by block, and what is seen is recorded. What a call does may depend
on everything that has been seen, on its arguments and on the memory; it may change all of the
memory, fail, or never return. If it depends on its arguments and the memory alone, the run ends as
it does without a record.
-/

namespace SsaBlocks

/-- What can be seen of a run. -/
inductive Event where
  | store (var : Variable) (value : Int64)
  | call (callee : String) (args : List Int64)
deriving DecidableEq

/-- What calls do, given all that has been seen, the call itself included. -/
abbrev World := List Event → Callee

/-- What is seen of an instruction. -/
def Instruction.seen (s : Variables) : Instruction → List Event
  | store v t => [.store v (s.temps t)]
  | call _ callee args => [.call callee (args.map s.temps)]
  | _ => []

/-- A computation that adds to the events that have been seen. -/
def Traced (α : Type) : Type :=
  List Event → List Event × Ending α

namespace Traced

variable {α β γ δ : Type}

/-- A computation of which nothing is seen. -/
def lift (x : Ending α) : Traced α :=
  fun events => (events, x)

/-- Goes on with the value of a computation. -/
protected def bind (x : Traced α) (k : α → Traced β) : Traced β := fun events =>
  match x events with
  | (events, .value a) => k a events
  | (events, .failed failure g) => (events, .failed failure g)
  | (events, .never) => (events, .never)

instance : Monad Traced where
  pure a := lift (.value a)
  bind := Traced.bind

/-- The second computation shows the same events as the first and ends alike, up to a relation of
their values. -/
def Follows (R : α → β → Prop) (x : Traced α) (y : Traced β) : Prop :=
  ∀ events, (y events).1 = (x events).1 ∧
    Ending.Tracks (fun _ => False) R (x events).2 (y events).2

namespace Follows

variable {R : α → β → Prop} {R' : γ → δ → Prop}

theorem lift {x : Ending α} {y : Ending β} (h : Ending.Tracks (fun _ => False) R x y) :
    Follows R (Traced.lift x) (Traced.lift y) :=
  fun _ => ⟨rfl, h⟩

theorem pure {a : α} {b : β} (h : R a b) : Follows R (pure a) (pure b) :=
  lift (.value h)

theorem bind {x : Traced α} {y : Traced β} {k : α → Traced γ} {k' : β → Traced δ}
    (h : Follows R x y) (hk : ∀ a b, R a b → Follows R' (k a) (k' b)) :
    Follows R' (x >>= k) (y >>= k') := by
  intro events
  obtain ⟨hevents, hends⟩ := h events
  show (Traced.bind y k' events).1 = (Traced.bind x k events).1 ∧
    Ending.Tracks _ R' (Traced.bind x k events).2 (Traced.bind y k' events).2
  rw [Traced.bind, Traced.bind]
  rcases hx : x events with ⟨events₁, end₁⟩
  rcases hy : y events with ⟨events₂, end₂⟩
  rw [hx, hy] at hevents hends
  obtain rfl : events₂ = events₁ := hevents
  cases hends with
  | value hab => exact hk _ _ hab events₂
  | failed e g => exact ⟨rfl, .failed e g⟩
  | never => exact ⟨rfl, .never⟩
  | excused _ _ hfalse => exact hfalse.elim

theorem eq {x y : Traced α} (h : Follows Eq x y) : y = x := by
  funext events
  obtain ⟨hevents, hends⟩ := h events
  exact Prod.ext hevents hends.eq.symm

end Follows

/-- The computation ends in one way, whatever has been seen. -/
def Ends (x : Traced α) (y : Ending α) : Prop :=
  ∀ events, (x events).2 = y

theorem Ends.bind {x : Traced α} {y : Ending α} {k : α → Traced β} {k' : α → Ending β}
    (h : Ends x y) (hk : ∀ a, Ends (k a) (k' a)) : Ends (x >>= k) (y >>= k') := by
  intro events
  have hends := h events
  show (Traced.bind x k events).2 = _
  rw [Traced.bind]
  rcases hx : x events with ⟨events₁, end₁⟩
  rw [hx] at hends
  obtain rfl : end₁ = y := hends
  cases end₁ with
  | value a => exact hk a events₁
  | failed e g => rfl
  | never => rfl

end Traced

namespace Func

variable (fn : Func) (world : World)

/-- The effect of an instruction, after what is seen of it. -/
def traceInstruction (s : Variables) (g : Globals) (inst : Instruction) :
    Traced (Move × Variables × Globals) := fun events =>
  (events ++ inst.seen s, fn.onVariables.exec fn (world (events ++ inst.seen s)) s g inst)

/-- The effect of instructions that follow one another, up to the first that leads elsewhere. -/
def traceCode : List Instruction → Variables → Globals → Traced (Move × Variables × Globals)
  | [], s, g => pure (.next, s, g)
  | inst :: code, s, g => do
    match ← fn.traceInstruction world s g inst with
    | (.next, s, g) => traceCode code s g
    | r => pure r

/-- What comes after the instructions of a block, given what is done on the way to another. -/
def traceAfter (b : BlockId) (go : BlockId → Variables → Globals → Traced (Int64 × Globals)) :
    Move × Variables × Globals → Traced (Int64 × Globals)
  | (.ret w, _, g) => pure (w, g)
  | (.goTo target, s, g) => go target s g
  | (.next, s, g) =>
    match (fn.block b).children with
    | [child] => go child s g
    | children =>
      .lift (.ofHalt fn.name g (.error (.cause (.fallsThrough (fn.blockText b) children.length))))

/-- Runs the rest of a block and then at most a number of blocks. -/
def traceBlocks : Nat → BlockId → List Instruction → Variables → Globals → Traced (Int64 × Globals)
  | 0, b, code, s, g =>
    fn.traceCode world code s g >>= fn.traceAfter b fun _ _ _ => .lift .never
  | n + 1, b, code, s, g =>
    fn.traceCode world code s g >>= fn.traceAfter b fun target s g => do
      let s ← .lift (.ofHalt fn.name g
        (fn.onVariables.enter (some b) target (fn.onVariables.leave b s)))
      traceBlocks n target (fn.block target).code s g

/-- Runs the function for at most a number of blocks after its entry. -/
def trace (n : Nat) (args : List Int64) (g : Globals) : Traced (Int64 × Globals) := do
  let s ← .lift (.ofHalt fn.name g (fn.onVariables.enter none fn.entry (fn.onVariables.start args)))
  fn.traceBlocks world n fn.entry (fn.block fn.entry).code s g

/-! ## How runs end -/

section Ending

variable {fn} {callee : Callee}

theorem ends_traceCode (code : List Instruction) (s : Variables) (g : Globals) :
    (fn.traceCode (fun _ => callee) code s g).Ends (fn.onVariables.runCode fn callee code s g) := by
  induction code generalizing s g with
  | nil => exact fun _ => rfl
  | cons inst code ih =>
    refine .bind (fun _ => rfl) ?_
    rintro ⟨move, s, g⟩
    cases move with
    | next => exact ih s g
    | goTo target => exact fun _ => rfl
    | ret w => exact fun _ => rfl

theorem ends_traceAfter {b : BlockId}
    {go : BlockId → Variables → Globals → Traced (Int64 × Globals)}
    {go' : BlockId → Variables → Globals → Ending (Int64 × Globals)}
    (h : ∀ target s g, (go target s g).Ends (go' target s g)) (r : Move × Variables × Globals) :
    (fn.traceAfter b go r).Ends (Storage.afterCode fn b go' r) := by
  obtain ⟨move, s, g⟩ := r
  cases move with
  | ret w => exact fun _ => rfl
  | goTo target => exact h target s g
  | next =>
    rcases hchildren : (fn.block b).children with _ | ⟨c, _ | ⟨d, rest⟩⟩ <;>
      simp only [traceAfter, Storage.afterCode, hchildren]
    · exact fun _ => rfl
    · exact h c s g
    · exact fun _ => rfl

theorem ends_traceBlocks (n : Nat) (b : BlockId) (code : List Instruction) (s : Variables)
    (g : Globals) : (fn.traceBlocks (fun _ => callee) n b code s g).Ends
      (fn.onVariables.runBlocks fn callee n b code s g) := by
  induction n generalizing b code s g with
  | zero => exact .bind (ends_traceCode code s g) (ends_traceAfter fun _ _ _ _ => rfl)
  | succ n ih =>
    refine .bind (ends_traceCode code s g) (ends_traceAfter fun target s g => ?_)
    exact .bind (fun _ => rfl) fun s => ih target _ s g

theorem trace_ending (n : Nat) (args : List Int64) (g : Globals) (events : List Event) :
    (fn.trace (fun _ => callee) n args g events).2 =
      fn.onVariables.runFunction fn callee n args g := by
  rw [trace, Storage.runFunction]
  exact Traced.Ends.bind (x := Traced.lift _) (fun _ => rfl)
    (fun s => ends_traceBlocks n fn.entry _ s g) events

end Ending

end Func

end SsaBlocks
