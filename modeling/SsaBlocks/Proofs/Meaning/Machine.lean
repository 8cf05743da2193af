import SsaBlocks.Proofs.Meaning.Semantics

/-!
# The machine and the meaning of programs

The machine keeps all active calls on one stack and takes one instruction at a time. What it does
is the meaning of the program: a call that ends, ends in the same way on the machine after enough
steps, and one that never ends does not do so on the machine.
-/

namespace SsaBlocks

theorem EvalFailure.under_under (e : EvalFailure) (names names' : List String) :
    (e.under names').under names = e.under (names ++ names') := by
  cases e <;> simp [under]

/-- What the functions of a finished program do, if so many calls may be active. -/
noncomputable def Program.finishedCalls (p : Program) : Nat → Callee :=
  p.calls fun fn => fn.onRegisters.meaning fn

namespace Machine

variable {p : Program} {x y z : Progress} {callers frames : List Frame} {f : Frame}
  {g : Globals} {α β : Type}

/-- From one point a run comes to another. -/
def Reaches (p : Program) (x y : Progress) : Prop :=
  ∃ j, ∀ k, runFor p (j + k) x = runFor p k y

namespace Reaches

theorem refl (x : Progress) : Reaches p x x :=
  ⟨0, fun k => by rw [Nat.zero_add]⟩

theorem trans (h : Reaches p x y) (h' : Reaches p y z) : Reaches p x z := by
  obtain ⟨j, hj⟩ := h
  obtain ⟨j', hj'⟩ := h'
  exact ⟨j + j', fun k => by rw [Nat.add_assoc, hj, hj']⟩

theorem step (p : Program) (f : Frame) (callers : List Frame) (g : Globals) :
    Reaches p (.running ⟨f :: callers, g⟩) (step p f callers g) :=
  ⟨1, fun k => by rw [Nat.add_comm]; rfl⟩

end Reaches

/-- The point of a run that an ending leads to, given where its value leads. -/
def after (names : List String) (next : α → Progress) : Ending α → Progress
  | .value a => next a
  | .failed failure g => .failed (failure.under names) g
  | .never => .failed .outOfSteps .empty

/-- If the ending is one, the run comes to what it says. -/
def LeadsTo (p : Program) (callers : List Frame) (x : Progress) (e : Ending α)
    (next : α → Progress) : Prop :=
  e ≠ .never → Reaches p x (after (activeNames callers) next e)

namespace LeadsTo

theorem bind {e : Ending α} {k : α → Ending β} {next : α → Progress} {next' : β → Progress}
    (h : LeadsTo p callers x e next) (h' : ∀ a, e = .value a → LeadsTo p callers (next a) (k a) next') :
    LeadsTo p callers x (e >>= k) next' := by
  intro hne
  cases e with
  | value a => exact (h (by simp)).trans (h' a rfl hne)
  | failed failure g => exact h (by simp)
  | never => exact absurd rfl hne

theorem of_reaches {e : Ending α} {next : α → Progress} (h : Reaches p x y)
    (h' : LeadsTo p callers y e next) : LeadsTo p callers x e next :=
  fun hne => h.trans (h' hne)

theorem value {a : α} {next : α → Progress} (h : x = next a) :
    LeadsTo p callers x (.value a) next := by
  intro _
  rw [h]
  exact .refl _

/-- A step that may be stopped. -/
theorem ofHalt {fn : Func} {r : Except Halt α} {k : α → Ending β} {next : β → Progress}
    (hstop : ∀ halt, r = .error halt → x = stop fn callers g halt)
    (hok : ∀ a, r = .ok a → LeadsTo p callers x (k a) next) :
    LeadsTo p callers x (Ending.ofHalt fn.name g r >>= k) next := by
  match r with
  | .ok a => exact hok a rfl
  | .error (.cause cause) =>
    intro _
    rw [hstop _ rfl]
    exact .refl _
  | .error (.fault fault) =>
    intro _
    rw [hstop _ rfl]
    exact .refl _

end LeadsTo

/-- Gives the result of a call to its caller. -/
def deliver (dest : Option Temp) (callers : List Frame) (r : Int64 × Globals) : Progress :=
  match callers with
  | [] => .done r.1 r.2
  | caller :: rest =>
    match dest with
    | none => .running { frames := callers, globals := r.2 }
    | some t =>
      match Frame.write caller.fn caller.regs t r.1 with
      | .error halt => stop caller.fn rest r.2 halt
      | .ok regs => .running { frames := { caller with regs } :: rest, globals := r.2 }

theorem finishCall_eq (f : Frame) (callers : List Frame) (g : Globals) (w : Int64) :
    finishCall f callers g w = deliver f.dest callers (w, g) := rfl

theorem activeNames_cons (f : Frame) (callers : List Frame) :
    activeNames (f :: callers) = activeNames callers ++ [f.fn.name] := by
  simp [activeNames]

/-- Where the machine is after an instruction. -/
def arrive (f : Frame) (code : List Instruction) (callers : List Frame) :
    Move × Array Int64 × Globals → Progress
  | (.next, regs, g) => .running ⟨{ f with regs, code } :: callers, g⟩
  | (.goTo target, regs, g) =>
    match Frame.enterPhis f.fn regs target (some f.block) with
    | .error halt => stop f.fn callers g halt
    | .ok regs =>
      .running ⟨{ f with regs, block := target, code := (f.fn.block target).code } :: callers, g⟩
  | (.ret w, _, g) => deliver f.dest callers (w, g)

/-- The machine answers calls from the given frames as the callee does. -/
def Answers (p : Program) (callee : Callee) (depth : Nat) : Prop :=
  ∀ frames : List Frame, frames.length = depth → ∀ name args dest g,
    LeadsTo p frames (startCall p frames g name args dest) (callee name args g)
      (deliver dest frames)

/-- Jumping is one step with the entry of the block that it leads to. -/
theorem leadsTo_goTo {f' : Frame} (hfn : f'.fn = f.fn) (hdest : f'.dest = f.dest)
    (hblock : f'.block = f.block) (target : BlockId) (code : List Instruction) :
    LeadsTo p callers
      (match (do return (← f'.goTo target, g) : Except Halt (Frame × Globals)) with
      | .error halt => stop f.fn callers g halt
      | .ok (next, g) => .running { frames := next :: callers, globals := g })
      (.value (.goTo target, f'.regs, g)) (arrive f code callers) := by
  refine .value ?_
  obtain ⟨fn, regs, block, code', dest⟩ := f'
  cases hfn
  cases hdest
  cases hblock
  rw [arrive, Frame.goTo]
  cases Frame.enterPhis f.fn regs target (some f.block) <;> rfl

theorem leadsTo_exec {callee : Callee} (h : Answers p callee (callers.length + 1)) (f : Frame)
    (inst : Instruction) (code : List Instruction) (regs : Array Int64) (g : Globals) :
    LeadsTo p callers (step p { f with regs, code := inst :: code } callers g)
      (f.fn.onRegisters.exec f.fn callee regs g inst) (arrive f code callers) := by
  cases inst with
  | comment text => exact .value rfl
  | const | load | store =>
    refine .ofHalt (fun halt hs => ?_) fun _ hs => .value ?_
    all_goals simp only [Func.onRegisters] at hs
    all_goals simp only [step, execute, hs, bind, Except.bind, pure, Except.pure, arrive]
  | binary op d l r =>
    refine .ofHalt (fun halt hl => ?_) fun left hl => .ofHalt (fun halt hr => ?_) fun right hr =>
      .ofHalt (fun halt hw => ?_) fun w hw => .ofHalt (fun halt hs => ?_) fun regs' hs => .value ?_
    all_goals simp only [Func.onRegisters] at *
    all_goals simp only [step, execute, *, bind, Except.bind, pure, Except.pure, arrive]
  | unary op d t =>
    refine .ofHalt (fun halt ht => ?_) fun operand ht => .ofHalt (fun halt hw => ?_) fun w hw =>
      .ofHalt (fun halt hs => ?_) fun regs' hs => .value ?_
    all_goals simp only [Func.onRegisters] at *
    all_goals simp only [step, execute, *, bind, Except.bind, pure, Except.pure, arrive]
  | call d name args =>
    refine .ofHalt (fun halt hr => ?_) fun values hr => ?_
    all_goals simp only [Func.onRegisters] at hr
    all_goals simp only [step, hr]
    -- the callee runs on top of this frame, which waits behind the call
    have hcall := h ({ f with regs, code } :: callers) rfl name values d g
    cases hr : callee name values g with
    | never => exact fun hne => absurd rfl hne
    | failed failure g' =>
      intro _
      rw [hr] at hcall
      simpa only [Ending.under, Ending.failed_bind, after, EvalFailure.under_under,
        activeNames_cons] using hcall (by simp)
    | value r =>
      rw [hr] at hcall
      refine .of_reaches (hcall (by simp)) ?_
      cases d with
      | none => exact .value rfl
      | some t =>
        refine .ofHalt (fun halt hs => ?_) fun regs' hs => .value ?_
        all_goals simp only [Func.onRegisters] at hs
        all_goals simp only [after, deliver, hs, arrive]
  | jump target => exact leadsTo_goTo rfl rfl rfl target code
  | branch c otherwise target =>
    refine .ofHalt (fun halt hr => ?_) fun w hr => ?_
    all_goals simp only [Func.onRegisters] at hr
    · simp only [step, execute, hr, bind, Except.bind]
    · simp only [step, execute, hr, bind, Except.bind]
      have hfn : ({ f with regs, code } : Frame).fn = f.fn := rfl
      exact leadsTo_goTo hfn rfl rfl _ code
  | ret t =>
    cases t with
    | none => exact .value rfl
    | some t =>
      refine .ofHalt (fun halt hr => ?_) fun w hr => .value ?_
      all_goals simp only [Func.onRegisters] at hr
      all_goals simp only [step, hr, finishCall_eq, arrive]

theorem leadsTo_runCode {callee : Callee} (h : Answers p callee (callers.length + 1)) (f : Frame)
    (code : List Instruction) (regs : Array Int64) (g : Globals) :
    LeadsTo p callers (.running ⟨{ f with regs, code } :: callers, g⟩)
      (f.fn.onRegisters.runCode f.fn callee code regs g) (arrive f [] callers) := by
  induction code generalizing regs g with
  | nil => exact .value rfl
  | cons inst code ih =>
    rw [Storage.runCode]
    refine .bind (.of_reaches (.step ..) (leadsTo_exec h f inst code regs g)) fun r hr => ?_
    obtain ⟨move, regs', g'⟩ := r
    cases move with
    | next => exact ih regs' g'
    | goTo target => exact .value rfl
    | ret w => exact .value rfl

theorem step_nil {child : BlockId} (hcode : f.code = [])
    (hchild : (f.fn.block f.block).children = [child]) :
    step p f callers g = arrive f [] callers (.goTo child, f.regs, g) := by
  simp only [step, hcode, fallThrough, hchild, Frame.goTo, arrive]
  cases Frame.enterPhis f.fn f.regs child (some f.block) <;> rfl

theorem leadsTo_afterCode {go : BlockId → Array Int64 → Globals → Ending (Int64 × Globals)}
    (hgo : ∀ target regs g, LeadsTo p callers (arrive f [] callers (.goTo target, regs, g))
      (go target regs g) (deliver f.dest callers)) (r : Move × Array Int64 × Globals) :
    LeadsTo p callers (arrive f [] callers r) (Storage.afterCode f.fn f.block go r)
      (deliver f.dest callers) := by
  obtain ⟨move, regs, g⟩ := r
  cases move with
  | ret w => exact .value rfl
  | goTo target => exact hgo target regs g
  | next =>
    refine .of_reaches (.step ..) ?_
    match hch : (f.fn.block f.block).children with
    | [child] =>
      rw [step_nil (f := { f with regs, code := [] }) rfl hch]
      simp only [Storage.afterCode, hch]
      exact hgo child regs g
    | [] | _ :: _ :: _ =>
      simp only [step, fallThrough, Storage.afterCode, hch]
      exact fun _ => .refl _

theorem leadsTo_runBlocks {callee : Callee} (h : Answers p callee (callers.length + 1)) (f : Frame)
    (n : Nat) (b : BlockId) (code : List Instruction) (regs : Array Int64) (g : Globals) :
    LeadsTo p callers (.running ⟨{ f with regs, block := b, code } :: callers, g⟩)
      (f.fn.onRegisters.runBlocks f.fn callee n b code regs g) (deliver f.dest callers) := by
  induction n generalizing b code regs g with
  | zero =>
    refine .bind (leadsTo_runCode h { f with block := b } code regs g) fun r _ => ?_
    exact leadsTo_afterCode (f := { f with block := b }) (fun _ _ _ hne => absurd rfl hne) r
  | succ n ih =>
    rw [Storage.runBlocks_eq]
    refine .bind (leadsTo_runCode h { f with block := b } code regs g) fun r _ => ?_
    refine leadsTo_afterCode (f := { f with block := b }) (fun target regs g => ?_) r
    refine .ofHalt (fun halt hr => ?_) fun regs' hr => ?_
    all_goals simp only [Func.onRegisters] at hr
    all_goals simp only [arrive, hr]
    exact ih target _ regs' g

/-- The frame of a call of a function, before its first block has been entered. -/
def newFrame (fn : Func) (args : List Int64) (dest : Option Temp) : Frame :=
  { fn, regs := fn.onRegisters.start args, block := fn.entry, code := (fn.block fn.entry).code, dest }

/-- Enters the first block of a new frame. -/
def enterFrame (f : Frame) (callers : List Frame) (g : Globals) : Progress :=
  match Frame.enterPhis f.fn f.regs f.block none with
  | .error halt => stop f.fn callers g halt
  | .ok regs => .running { frames := { f with regs } :: callers, globals := g }

theorem leadsTo_enterFrame {callee : Callee} (h : Answers p callee (callers.length + 1))
    (fn : Func) (args : List Int64) (dest : Option Temp) (g : Globals) :
    LeadsTo p callers (enterFrame (newFrame fn args dest) callers g)
      (fn.onRegisters.meaning fn callee args g) (deliver dest callers) := by
  intro hne
  obtain ⟨n, hn⟩ := Ending.exists_limit _ hne
  rw [Storage.meaning, ← hn] at hne ⊢
  revert hne
  refine LeadsTo.ofHalt (fun halt hr => ?_) fun regs hr => ?_
  all_goals simp only [Func.onRegisters] at hr
  all_goals simp only [enterFrame, newFrame, Func.onRegisters, hr]
  exact leadsTo_runBlocks h (newFrame fn args dest) n _ _ regs g

/-- Starting a call: it is refused, or the function is found and its first block entered. -/
theorem startCall_cases (hfin : ∀ fn ∈ p.functions, fn.isFinished) (frames : List Frame)
    (name : String) (args : List Int64) (dest : Option Temp) (g : Globals) {depth : Nat}
    (hdepth : frames.length + depth = maxDepth) :
    (∃ cause, startCall p frames g name args dest = .failed (.error (activeNames frames) cause) g ∧
      p.finishedCalls depth name args g = .failed (.error [] cause) g) ∨
    ∃ fn depth', depth = depth' + 1 ∧
      startCall p frames g name args dest = enterFrame (newFrame fn args dest) frames g ∧
      p.finishedCalls depth name args g =
        fn.onRegisters.meaning fn (p.finishedCalls depth') args g := by
  rw [startCall, openFrame]
  cases hlookup : p.lookup? name with
  | none =>
    refine .inl ⟨.noFunction name, rfl, ?_⟩
    cases depth <;> simp [Program.finishedCalls, Program.calls, Program.accepting, hlookup]
  | some fn =>
    have hfn : fn.isFinished := hfin fn (List.mem_of_find?_eq_some hlookup)
    by_cases hargs : args.length = fn.params.length
    · simp only [hargs, ne_eq, not_true_eq_false, if_false, hfn, Bool.not_true, Bool.false_eq_true]
      cases depth with
      | zero =>
        rw [if_pos (by omega)]
        refine .inl ⟨.depthExceeded name, rfl, ?_⟩
        simp [Program.finishedCalls, Program.calls, Program.accepting, hlookup, hargs]
      | succ depth =>
        rw [if_neg (by omega)]
        refine .inr ⟨fn, depth, rfl, rfl, ?_⟩
        simp [Program.finishedCalls, Program.calls, Program.accepting, hlookup, hargs]
    · simp only [ne_eq, hargs, not_false_eq_true, if_true]
      refine .inl ⟨.wrongArguments name fn.params.length args.length, rfl, ?_⟩
      cases depth <;> simp [Program.finishedCalls, Program.calls, Program.accepting, hlookup, hargs]

theorem leadsTo_refused (frames : List Frame) (cause : EvalCause) (g : Globals)
    (next : α → Progress) :
    LeadsTo p frames (.failed (.error (activeNames frames) cause) g)
      (.failed (.error [] cause) g) next := by
  intro _
  simp only [after, EvalFailure.under, List.append_nil]
  exact .refl _

/-- What a call means, the machine comes to. -/
theorem answers_finishedCalls (hfin : ∀ fn ∈ p.functions, fn.isFinished) (depth level : Nat)
    (hdepth : level + depth = maxDepth) : Answers p (p.finishedCalls depth) level := by
  induction depth generalizing level with
  | zero =>
    intro frames hlen name args dest g
    rcases startCall_cases hfin frames name args dest g (hlen ▸ hdepth) with
      ⟨cause, hstart, hcalls⟩ | ⟨_, _, hd, -⟩
    · rw [hstart, hcalls]
      exact leadsTo_refused frames cause g _
    · cases hd
  | succ depth ih =>
    intro frames hlen name args dest g
    rcases startCall_cases hfin frames name args dest g (hlen ▸ hdepth) with
      ⟨cause, hstart, hcalls⟩ | ⟨fn, depth', hd, hstart, hcalls⟩
    · rw [hstart, hcalls]
      exact leadsTo_refused frames cause g _
    · cases hd
      rw [hstart, hcalls]
      exact leadsTo_enterFrame (ih _ (by omega)) fn args dest g

/-! ## Runs that end -/

/-- The run ends within a number of steps. -/
def EndsIn (p : Program) (k : Nat) (x : Progress) : Prop :=
  (runFor p k x).1 ≠ .error .outOfSteps

theorem runFor_succ {k : Nat} (h : EndsIn p k x) : runFor p (k + 1) x = runFor p k x := by
  induction k generalizing x with
  | zero =>
    match x with
    | .done .. => rfl
    | .failed .. => rfl
    | .running run => exact absurd rfl h
  | succ k ih =>
    match x with
    | .done .. => rfl
    | .failed .. => rfl
    | .running ⟨[], g⟩ => rfl
    | .running ⟨f :: callers, g⟩ => exact ih h

theorem runFor_of_le {k j : Nat} (h : EndsIn p k x) (hkj : k ≤ j) :
    runFor p j x = runFor p k x := by
  induction hkj with
  | refl => rfl
  | step _ ih =>
    rw [runFor_succ, ih]
    rw [EndsIn, ih]
    exact h

/-- If a new frame ends, so does its function. -/
theorem EndsIn.exists_runFunction {k : Nat} {fn : Func} {args : List Int64} {dest : Option Temp}
    {callee : Callee} (h : EndsIn p k (enterFrame (newFrame fn args dest) callers g))
    (ih : ∀ regs, EndsIn p k (.running ⟨{ newFrame fn args dest with regs } :: callers, g⟩) →
      ∃ n, fn.onRegisters.runBlocks fn callee n fn.entry (fn.block fn.entry).code regs g ≠ .never) :
    ∃ n, fn.onRegisters.runFunction fn callee n args g ≠ .never := by
  rw [enterFrame] at h
  cases hphi : Frame.enterPhis fn (fn.onRegisters.start args) fn.entry none with
  | error halt =>
    refine ⟨0, Ending.ofHalt_bind_ne_never fun regs hregs => ?_⟩
    exact absurd (hphi.symm.trans hregs) (by simp)
  | ok regs =>
    simp only [newFrame, hphi] at h
    obtain ⟨n, hn⟩ := ih regs h
    refine ⟨n, Ending.ofHalt_bind_ne_never fun regs' hregs => ?_⟩
    cases hphi.symm.trans hregs
    exact hn

theorem EndsIn.of_reaches {k : Nat} (h : EndsIn p k x) (hxy : Reaches p x y) : EndsIn p k y := by
  obtain ⟨j, hj⟩ := hxy
  rw [EndsIn, ← hj, runFor_of_le h (Nat.le_add_left k j)]
  exact h

end Machine

namespace Storage

variable {S : Type} {store : Storage S} {fn : Func} {callee : Callee} {s : S} {g : Globals}

/-- Only a call can keep an instruction from ending. -/
theorem exec_ne_never {inst : Instruction}
    (h : ∀ d name args values, inst = .call d name args → args.mapM (store.get s) = .ok values →
      callee name values g ≠ .never) : store.exec fn callee s g inst ≠ .never := by
  cases inst with
  | comment | jump => simp [exec]
  | const | load | store | branch => exact Ending.ofHalt_bind_ne_never fun _ _ => by simp
  | binary op d l r =>
    exact Ending.ofHalt_bind_ne_never fun _ _ => Ending.ofHalt_bind_ne_never fun _ _ =>
      Ending.ofHalt_bind_ne_never fun _ _ => Ending.ofHalt_bind_ne_never fun _ _ => by simp
  | unary op d t =>
    exact Ending.ofHalt_bind_ne_never fun _ _ => Ending.ofHalt_bind_ne_never fun _ _ =>
      Ending.ofHalt_bind_ne_never fun _ _ => by simp
  | call d name args =>
    refine Ending.ofHalt_bind_ne_never fun values hvalues => ?_
    have hne := h d name args values rfl hvalues
    cases hr : callee name values g with
    | never => exact absurd hr hne
    | failed failure g => simp [Ending.under]
    | value r =>
      cases d with
      | none => simp [Ending.under]
      | some t => exact Ending.ofHalt_bind_ne_never fun _ _ => by simp
  | ret t =>
    cases t with
    | none => simp [exec]
    | some t => exact Ending.ofHalt_bind_ne_never fun _ _ => by simp

theorem afterCode_next_ne_never {b : BlockId}
    {go : BlockId → S → Globals → Ending (Int64 × Globals)}
    (h : ∀ child, (fn.block b).children = [child] → go child s g ≠ .never) :
    afterCode fn b go (.next, s, g) ≠ .never := by
  match hch : (fn.block b).children with
  | [child] => simpa only [afterCode, hch] using h child hch
  | [] | _ :: _ :: _ => simp [afterCode, hch, Ending.ofHalt]

end Storage

namespace Machine

variable {p : Program}

/-- A run of the machine that ends is of a function that ends. -/
theorem exists_runBlocks (hfin : ∀ fn ∈ p.functions, fn.isFinished) {k : Nat} {f : Frame}
    {callers : List Frame} {g : Globals} {depth : Nat}
    (hdepth : callers.length + 1 + depth = maxDepth)
    (h : EndsIn p k (.running ⟨f :: callers, g⟩)) :
    ∃ n, f.fn.onRegisters.runBlocks f.fn (p.finishedCalls depth) n f.block f.code f.regs g ≠
      .never := by
  induction k using Nat.strongRecOn generalizing f callers g depth with
  | ind k ih =>
  cases k with
  | zero => exact absurd rfl h
  | succ k =>
  replace h : EndsIn p k (step p f callers g) := h
  have hgo : ∀ code target regs g, EndsIn p k (arrive f code callers (.goTo target, regs, g)) →
      ∃ n, f.fn.onRegisters.follow f.fn (p.finishedCalls depth) f.block n target regs g ≠ .never := by
    intro code target regs g hends
    rw [arrive] at hends
    cases hphi : Frame.enterPhis f.fn regs target (some f.block) with
    | error halt =>
      refine ⟨1, Ending.ofHalt_bind_ne_never fun regs' hregs => ?_⟩
      exact absurd (hphi.symm.trans hregs) (by simp)
    | ok regs' =>
      rw [hphi] at hends
      obtain ⟨n, hn⟩ := ih k (Nat.lt_succ_self k) hdepth hends
      refine ⟨n + 1, Ending.ofHalt_bind_ne_never fun regs'' hregs => ?_⟩
      obtain rfl : regs' = regs'' := by simpa [Func.onRegisters, hphi] using hregs
      exact hn
  match hcode : f.code with
  | [] =>
    by_cases hchild : ∃ child, (f.fn.block f.block).children = [child]
    · obtain ⟨child, hchild⟩ := hchild
      rw [step_nil hcode hchild] at h
      obtain ⟨n, hn⟩ := hgo _ _ _ _ h
      refine ⟨n, ?_⟩
      rw [Storage.runBlocks_eq]
      refine Storage.afterCode_next_ne_never fun child' hchild' => ?_
      cases hchild.symm.trans hchild'
      exact hn
    · refine ⟨0, ?_⟩
      rw [Storage.runBlocks_eq]
      exact Storage.afterCode_next_ne_never fun child hchild' => absurd ⟨child, hchild'⟩ hchild
  | inst :: code =>
    obtain ⟨fn, regs, b, code', dest⟩ := f
    cases hcode
    -- a call whose run ends has a meaning, because its run is shorter
    have hexec : fn.onRegisters.exec fn (p.finishedCalls depth) regs g inst ≠ .never := by
      refine Storage.exec_ne_never fun d name args values hinst hvalues => ?_
      subst hinst
      simp only [Func.onRegisters] at hvalues
      simp only [step, hvalues] at h
      rcases startCall_cases hfin (⟨fn, regs, b, code, dest⟩ :: callers) name values d g hdepth with
        ⟨cause, -, hcalls⟩ | ⟨fn', depth', rfl, hstart, hcalls⟩
      · simp [hcalls]
      · rw [hstart] at h
        rw [hcalls]
        refine Storage.meaning_ne_never (h.exists_runFunction fun regs' hends => ?_)
        exact ih k (Nat.lt_succ_self k) (by simp only [List.length_cons]; omega) hends
    have hlead := leadsTo_exec (answers_finishedCalls hfin depth _ hdepth) ⟨fn, regs, b, [], dest⟩
      inst code regs g hexec
    have hends := h.of_reaches hlead
    simp only [Storage.runBlocks_cons]
    match hr : fn.onRegisters.exec fn (p.finishedCalls depth) regs g inst with
    | .never => exact absurd hr hexec
    | .failed failure g' => exact ⟨0, by simp⟩
    | .value (.ret w, regs', g') => exact ⟨0, by simp [Storage.afterCode]⟩
    | .value (.next, regs', g') =>
      rw [hr] at hends
      exact ih k (Nat.lt_succ_self k) hdepth hends
    | .value (.goTo target, regs', g') =>
      rw [hr] at hends
      exact hgo code target regs' g' hends

theorem calls_ne_never (hfin : ∀ fn ∈ p.functions, fn.isFinished) {k : Nat} {name : String}
    {args : List Int64} {g : Globals} (h : EndsIn p k (startCall p [] g name args none)) :
    p.finishedCalls maxDepth name args g ≠ .never := by
  rcases startCall_cases hfin [] name args none g (Nat.zero_add maxDepth) with
    ⟨cause, -, hcalls⟩ | ⟨fn, depth, hdepth, hstart, hcalls⟩
  · simp [hcalls]
  · rw [hstart] at h
    rw [hcalls]
    refine Storage.meaning_ne_never (h.exists_runFunction fun regs hends => ?_)
    exact exists_runBlocks hfin (by simp only [List.length_nil]; omega) hends

end Machine

/-- What the machine reports of a call that ends. -/
def Ending.report? : Ending (Int64 × Globals) → Option (Except EvalFailure Int64 × Globals)
  | value (w, g) => some (.ok w, g)
  | failed failure g => some (.error failure, g)
  | never => none

namespace Machine

variable {p : Program} {name : String} {args : List Int64} {g : Globals}

theorem runFor_after (r : Ending (Int64 × Globals)) (hr : r ≠ .never) (k : Nat) :
    r.report? = some (runFor p k (after (activeNames []) (deliver none []) r)) := by
  match r with
  | .value (w, g) => cases k <;> rfl
  | .failed failure g =>
    have hunder : failure.under (activeNames []) = failure := by cases failure <;> rfl
    simp only [Ending.report?, after, hunder]
    cases k <;> rfl
  | .never => exact absurd rfl hr

/-- A call that ends on the machine does so as it means. -/
theorem report_of_endsIn (hfin : ∀ fn ∈ p.functions, fn.isFinished) {k : Nat}
    (h : EndsIn p k (startCall p [] g name args none)) :
    (p.finishedCalls maxDepth name args g).report? =
      some (runFor p k (startCall p [] g name args none)) := by
  have hne := calls_ne_never hfin h
  obtain ⟨j, hj⟩ := answers_finishedCalls hfin maxDepth 0 (Nat.zero_add _) [] rfl name args none g hne
  rw [runFor_after _ hne k, ← hj k, runFor_of_le h (Nat.le_add_left k j)]

/-- A call that means to end does so on the machine after enough steps. -/
theorem exists_runFor_report (hfin : ∀ fn ∈ p.functions, fn.isFinished)
    (hne : p.finishedCalls maxDepth name args g ≠ .never) :
    ∃ j, ∀ k, (p.finishedCalls maxDepth name args g).report? =
      some (runFor p (j + k) (startCall p [] g name args none)) := by
  obtain ⟨j, hj⟩ := answers_finishedCalls hfin maxDepth 0 (Nat.zero_add _) [] rfl name args none g hne
  exact ⟨j, fun k => by rw [hj k, ← runFor_after _ hne k]⟩

end Machine

end SsaBlocks
