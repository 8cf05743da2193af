import SsaBlocks.Proofs.Fold
import SsaBlocks.Proofs.Meaning.Machine

/-!
# The depth of calls

The machine keeps the active calls on a stack, which tells how many there are and what they are
called. A call can also be performed by recursion, with a counter of the active calls that all of
them share: it goes up when a call is entered and down when the call ends, in whichever way, and a
call that fails puts its name before the error. The two ways of calling agree. So the counter is
always back to what it was, and a call that has failed leaves nothing behind but the memory.

## Main results

* `Performs.agrees`: the machine comes to what is performed, and the counter is where it was
* `exists_performs`: what ends on the machine is performed
* `performsAll_iff`: calls that share a counter do what they do on new machines
-/

namespace SsaBlocks

/-! ## What a call does -/

/-- What a call is made with: a name, arguments, and where its result is wanted. -/
structure Request where
  name : String
  args : List Int64
  dest : Option Temp

/-- What a call does next: it goes on, unless it is stopped, or it returns, or it makes a call. -/
inductive Act where
  | go (next : Except Halt Frame) (g : Globals)
  | ret (value : Int64)
  | call (rest : Frame) (c : Request)

namespace Frame

variable {f f' : Frame} {g g' : Globals}

/-- What a call does next. -/
def act (f : Frame) (g : Globals) : Act :=
  match f.code with
  | [] => .go (Machine.fallThrough f) g
  | inst :: code =>
    let f := { f with code }
    match inst with
    | .call dest callee args =>
      match args.mapM (read f.fn f.regs) with
      | .error halt => .go (.error halt) g
      | .ok values => .call f ⟨callee, values, dest⟩
    | .ret none => .ret 0
    | .ret (some t) =>
      match read f.fn f.regs t with
      | .error halt => .go (.error halt) g
      | .ok value => .ret value
    | inst =>
      match Machine.execute f g inst with
      | .error halt => .go (.error halt) g
      | .ok (next, g) => .go (.ok next) g

/-- Enters the first block of a new frame. -/
def enter (f : Frame) : Except Halt Frame := do
  return { f with regs := ← enterPhis f.fn f.regs f.block none }

/-- Takes the result of a call. -/
def take (f : Frame) (value : Int64) : Option Temp → Except Halt Frame
  | none => .ok f
  | some t => do return { f with regs := ← write f.fn f.regs t value }

/-- The frames are of the same call. -/
def SameCall (f f' : Frame) : Prop :=
  f'.fn = f.fn ∧ f'.dest = f.dest

theorem sameCall_of_return {α : Type} {x : Except Halt α} {k : α → Frame}
    (h : (do return k (← x)) = Except.ok f') (hk : ∀ a, f.SameCall (k a)) : f.SameCall f' := by
  obtain ⟨a, -, h⟩ := bind_eq_ok.mp h
  cases h
  exact hk a

theorem sameCall_goTo {target : BlockId} (h : f.goTo target = .ok f') : f.SameCall f' :=
  sameCall_of_return h fun _ => ⟨rfl, rfl⟩

theorem sameCall_execute {inst : Instruction} (h : Machine.execute f g inst = .ok (f', g')) :
    f.SameCall f' := by
  cases inst <;>
    simp only [Machine.execute, bind_eq_ok, pure, Except.pure, Except.ok.injEq, Prod.mk.injEq] at h
  all_goals grind [sameCall_goTo, SameCall]

theorem sameCall_enter (h : f.enter = .ok f') : f.SameCall f' :=
  sameCall_of_return h fun _ => ⟨rfl, rfl⟩

theorem sameCall_take {w : Int64} {dest : Option Temp} (h : f.take w dest = .ok f') :
    f.SameCall f' := by
  cases dest with
  | none =>
    cases h
    exact ⟨rfl, rfl⟩
  | some t => exact sameCall_of_return h fun _ => ⟨rfl, rfl⟩

theorem sameCall_act {next : Except Halt Frame} (h : f.act g = .go next g')
    (hnext : next = .ok f') : f.SameCall f' := by
  subst hnext
  unfold act Machine.fallThrough at h
  grind [→ sameCall_goTo, → sameCall_execute, SameCall]

theorem sameCall_call {c : Request} (h : f.act g = .call f' c) : f.SameCall f' := by
  unfold act at h
  grind [SameCall]

end Frame

namespace Machine

variable {p : Program} {f : Frame} {callers : List Frame} {g : Globals} {c : Request}

/-- Goes on with a call of a function, unless it is stopped. -/
def resume (fn : Func) (callers : List Frame) (g : Globals) : Except Halt Frame → Progress
  | .ok f => .running ⟨f :: callers, g⟩
  | .error halt => stop fn callers g halt

/-- A step is what the innermost call does. -/
theorem step_eq_act (p : Program) (f : Frame) (callers : List Frame) (g : Globals) :
    step p f callers g =
      match f.act g with
      | .go next g' => resume f.fn callers g' next
      | .ret w => deliver f.dest callers (w, g)
      | .call rest c => startCall p (rest :: callers) g c.name c.args c.dest := by
  unfold step Frame.act resume
  grind [finishCall_eq]

theorem startCall_eq (p : Program) (frames : List Frame) (g : Globals) (c : Request) :
    startCall p frames g c.name c.args c.dest =
      match openFrame p frames.length c.name c.args c.dest with
      | .error cause => .failed (.error (activeNames frames) cause) g
      | .ok f => resume f.fn frames g f.enter := by
  rw [startCall]
  cases openFrame p frames.length c.name c.args c.dest with
  | error cause => rfl
  | ok f =>
    simp only [Frame.enter]
    cases Frame.enterPhis f.fn f.regs f.block none <;> rfl

theorem deliver_cons (dest : Option Temp) (f : Frame) (w : Int64) :
    deliver dest (f :: callers) (w, g) = resume f.fn callers g (f.take w dest) := by
  cases dest with
  | none => rfl
  | some t =>
    simp only [deliver, Frame.take]
    cases Frame.write f.fn f.regs t w <;> rfl

/-- A new frame is of a call of the function with the name. -/
theorem openFrame_eq_ok {depth : Nat} (h : openFrame p depth c.name c.args c.dest = .ok f) :
    f.fn.name = c.name ∧ f.dest = c.dest := by
  unfold openFrame at h
  have hname : ∀ fn, p.lookup? c.name = some fn → fn.name = c.name := fun fn hfn => by
    simpa using List.find?_some hfn
  grind

end Machine

/-! ## Calls by recursion -/

/-- A failure of a call, before its name is put in front. -/
def Halt.failure : Halt → EvalFailure
  | cause c => .error [] c
  | fault f => .fault f

/-- What can be performed: a call, or what is left of one. -/
inductive Task where
  | call (c : Request)
  | go (next : Except Halt Frame)

open Machine

/-- How a task is performed by recursion, with the number of active calls before and after it. -/
inductive Performs (p : Program) :
    Nat → Globals → Task → Ending (Int64 × Globals) → Nat → Prop where
  /-- A call that is refused on entry is not counted, and is not named in the error. -/
  | refused {depth : Nat} {g : Globals} {c : Request} {cause : EvalCause}
      (h : openFrame p depth c.name c.args c.dest = .error cause) :
      Performs p depth g (.call c) (.failed (.error [] cause) g) depth
  /-- A call is counted while it is active, and is named in the errors in it. -/
  | entered {depth depth' : Nat} {g : Globals} {c : Request} {f : Frame}
      {e : Ending (Int64 × Globals)} (h : openFrame p depth c.name c.args c.dest = .ok f)
      (body : Performs p (depth + 1) g (.go f.enter) e depth') :
      Performs p depth g (.call c) (e.under [c.name]) (depth' - 1)
  | stopped (depth : Nat) (g : Globals) (halt : Halt) :
      Performs p depth g (.go (.error halt)) (.failed halt.failure g) depth
  | went {depth depth' : Nat} {g g' : Globals} {f : Frame} {next : Except Halt Frame}
      {e : Ending (Int64 × Globals)} (h : f.act g = .go next g')
      (rest : Performs p depth g' (.go next) e depth') : Performs p depth g (.go (.ok f)) e depth'
  | returned {depth : Nat} {g : Globals} {f : Frame} {w : Int64} (h : f.act g = .ret w) :
      Performs p depth g (.go (.ok f)) (.value (w, g)) depth
  | called {depth depth' depth'' : Nat} {g g' : Globals} {f f' : Frame} {c : Request} {w : Int64}
      {e : Ending (Int64 × Globals)} (h : f.act g = .call f' c)
      (call : Performs p depth g (.call c) (.value (w, g')) depth')
      (rest : Performs p depth' g' (.go (f'.take w c.dest)) e depth'') :
      Performs p depth g (.go (.ok f)) e depth''
  | calleeFailed {depth depth' : Nat} {g g' : Globals} {f f' : Frame} {c : Request}
      {failure : EvalFailure} (h : f.act g = .call f' c)
      (call : Performs p depth g (.call c) (.failed failure g') depth') :
      Performs p depth g (.go (.ok f)) (.failed failure g') depth'

variable {p : Program} {depth depth' : Nat} {g : Globals} {task : Task}
  {e : Ending (Int64 × Globals)} {name : String} {args : List Int64}

/-- The machine comes to the ending of a task, from as many active calls as have been counted. -/
def Machine.ComesTo (p : Program) (depth : Nat) (g : Globals) (e : Ending (Int64 × Globals)) :
    Task → Prop
  | .call c => ∀ frames : List Frame, frames.length = depth →
    Reaches p (startCall p frames g c.name c.args c.dest)
      (after (activeNames frames) (deliver c.dest frames) e)
  | .go next => ∀ (f : Frame) (callers : List Frame), callers.length + 1 = depth →
    (∀ f', next = .ok f' → f.SameCall f') →
    Reaches p (resume f.fn callers g next)
      (after (activeNames callers ++ [f.fn.name]) (deliver f.dest callers) e)

theorem Machine.after_under (names : List String) (next : Int64 × Globals → Progress) :
    after names next (e.under [name]) = after (names ++ [name]) next e := by
  cases e <;> simp [Ending.under, after, EvalFailure.under_under]

/-- What is performed, the machine comes to, and the counter is back where it was. -/
theorem Performs.agrees (h : Performs p depth g task e depth') :
    depth' = depth ∧ e ≠ .never ∧ ComesTo p depth g e task := by
  induction h with
  | refused h =>
    refine ⟨rfl, by simp, fun frames hframes => ?_⟩
    subst hframes
    rw [startCall_eq, h]
    simpa [after, EvalFailure.under] using Reaches.refl _
  | @entered depth depth' g c f e h body ih =>
    obtain ⟨hdepth, hne, hbody⟩ := ih
    refine ⟨by omega, ?_, fun frames hframes => ?_⟩
    · cases e <;> simp_all [Ending.under]
    · subst hframes
      obtain ⟨hname, hdest⟩ := openFrame_eq_ok h
      rw [startCall_eq, h, after_under, ← hname, ← hdest]
      exact hbody f frames rfl fun f' => Frame.sameCall_enter
  | stopped depth g halt =>
    refine ⟨rfl, by simp, fun f callers _ _ => ?_⟩
    cases halt <;> simpa [resume, stop, after, Halt.failure, EvalFailure.under] using Reaches.refl _
  | @went depth depth' g g' f next e h rest ih =>
    obtain ⟨hdepth, hne, hrest⟩ := ih
    refine ⟨hdepth, hne, fun f₀ callers hcallers hsame => ?_⟩
    obtain ⟨hfn, hdest⟩ := hsame f rfl
    rw [← hfn, ← hdest]
    refine (Reaches.step p f callers g).trans ?_
    rw [step_eq_act, h]
    exact hrest f callers hcallers fun f' => Frame.sameCall_act h
  | @returned depth g f w h =>
    refine ⟨rfl, by simp, fun f₀ callers _ hsame => ?_⟩
    obtain ⟨-, hdest⟩ := hsame f rfl
    refine (Reaches.step p f callers g).trans ?_
    rw [step_eq_act, h, hdest]
    exact .refl _
  | @called depth depth' depth'' g g' f f' c w e h call rest ihcall ihrest =>
    -- the callee leaves the counter as it was, so the rest starts at the same depth
    obtain ⟨rfl, -, hcall⟩ := ihcall
    obtain ⟨hdepth, hne, hrest⟩ := ihrest
    refine ⟨hdepth, hne, fun f₀ callers hcallers hsame => ?_⟩
    obtain ⟨hfn, hdest⟩ := hsame f rfl
    obtain ⟨hfn', hdest'⟩ := Frame.sameCall_call h
    refine (Reaches.step p f callers g).trans ?_
    rw [step_eq_act, h]
    refine (hcall (f' :: callers) hcallers).trans ?_
    simp only [after, deliver_cons]
    rw [← hfn, ← hdest, ← hfn', ← hdest']
    exact hrest f' callers hcallers fun f'' => Frame.sameCall_take
  | @calleeFailed depth depth' g g' f f' c failure h call ih =>
    obtain ⟨rfl, hne, hcall⟩ := ih
    refine ⟨rfl, hne, fun f₀ callers hcallers hsame => ?_⟩
    refine (Reaches.step p f callers g).trans ?_
    rw [step_eq_act, h, ← (hsame f rfl).1, ← (Frame.sameCall_call h).1, ← activeNames_cons]
    exact hcall (f' :: callers) hcallers

/-- A call is performed if what it enters is. -/
theorem exists_performs_call {k : Nat}
    (hgo : ∀ (fn : Func) (callers : List Frame) (g : Globals) (next : Except Halt Frame),
      EndsIn p k (resume fn callers g next) →
        ∃ e depth', Performs p (callers.length + 1) g (.go next) e depth')
    (frames : List Frame) (c : Request)
    (h : EndsIn p k (startCall p frames g c.name c.args c.dest)) :
    ∃ e depth', Performs p frames.length g (.call c) e depth' := by
  rw [startCall_eq] at h
  cases hopen : openFrame p frames.length c.name c.args c.dest with
  | error cause => exact ⟨_, _, .refused hopen⟩
  | ok f =>
    rw [hopen] at h
    obtain ⟨e, depth', hbody⟩ := hgo f.fn frames g f.enter h
    exact ⟨_, _, .entered hopen hbody⟩

/-- What ends on the machine is performed. The induction is on the number of steps, of which a call
that has returned has taken some. -/
theorem exists_performs {k : Nat} (fn : Func) (callers : List Frame) (g : Globals)
    (next : Except Halt Frame) (h : EndsIn p k (resume fn callers g next)) :
    ∃ e depth', Performs p (callers.length + 1) g (.go next) e depth' := by
  induction k generalizing fn callers g next with
  | zero =>
    cases next with
    | error halt => exact ⟨_, _, .stopped _ g halt⟩
    | ok f => exact absurd rfl h
  | succ k ih =>
    cases next with
    | error halt => exact ⟨_, _, .stopped _ g halt⟩
    | ok f =>
      replace h : EndsIn p k (step p f callers g) := h
      rw [step_eq_act] at h
      cases hact : f.act g with
      | ret w => exact ⟨_, _, .returned hact⟩
      | go next g' =>
        rw [hact] at h
        obtain ⟨e, depth', hrest⟩ := ih f.fn callers g' next h
        exact ⟨e, depth', .went hact hrest⟩
      | call f' c =>
        rw [hact] at h
        obtain ⟨e, depth', hcall⟩ := exists_performs_call ih (f' :: callers) c h
        obtain ⟨rfl, hne, hcomes⟩ := hcall.agrees
        have hends := h.of_reaches (hcomes (f' :: callers) rfl)
        cases e with
        | never => exact absurd rfl hne
        | failed failure g' => exact ⟨_, _, .calleeFailed hact hcall⟩
        | value r =>
          obtain ⟨w, g'⟩ := r
          simp only [after, deliver_cons] at hends
          obtain ⟨e, depth', hrest⟩ := ih f'.fn callers g' _ hends
          exact ⟨e, depth', .called hact hcall hrest⟩

/-! ## One call after the other -/

/-- Calls that are performed one after the other, with one counter and one memory. -/
inductive PerformsAll (p : Program) : Nat → Globals → List (String × List Int64) →
    List (Except EvalFailure Int64) → Nat → Prop where
  | nil (depth : Nat) (g : Globals) : PerformsAll p depth g [] [] depth
  | cons {depth depth' depth'' : Nat} {g g' : Globals} {name : String} {args : List Int64}
      {calls : List (String × List Int64)} {e : Ending (Int64 × Globals)}
      {r : Except EvalFailure Int64} {rs : List (Except EvalFailure Int64)}
      (first : Performs p depth g (.call ⟨name, args, none⟩) e depth')
      (hr : e.report? = some (r, g')) (rest : PerformsAll p depth' g' calls rs depth'') :
      PerformsAll p depth g ((name, args) :: calls) (r :: rs) depth''

/-- The results of calls, each on a new machine with the memory that the one before has left. -/
def Machine.callAll (m : Machine) : List (String × List Int64) → List (Except EvalFailure Int64)
  | [] => []
  | (name, args) :: calls => (m.call name args).1 :: (m.call name args).2.callAll calls

/-- A call that is performed ends as it does on a new machine. -/
theorem Performs.report {m : Machine}
    (h : Performs m.program 0 m.globals (.call ⟨name, args, none⟩) e depth')
    (hends : (m.call name args).1 ≠ .error .outOfSteps) :
    e.report? = some ((m.call name args).1, (m.call name args).2.globals) := by
  have hends : EndsIn m.program stepLimit (startCall m.program [] m.globals name args none) := hends
  obtain ⟨-, hne, hcomes⟩ := h.agrees
  obtain ⟨j, hj⟩ := hcomes [] rfl
  rw [runFor_after e hne stepLimit, ← hj stepLimit, runFor_of_le hends (Nat.le_add_left _ j)]
  rfl

theorem EvalFailure.errorText_cons (name : String) (active : List String) (cause : EvalCause) :
    errorText (name :: active) cause = name ++ ": " ++ errorText active cause := by
  cases active <;> simp [errorText, String.intercalate_cons_cons]

/-- **Calls leave nothing behind but the memory.** Calls that are performed one after the other with
one counter of active calls give the results that each of them gives on a new machine, whichever of
them fail, and in the end the counter is zero. In every part of a call the counter is at the end
what it was at the start. The text of an error is its cause after the names of the calls that were
active, outermost first. -/
theorem performsAll_iff (m : Machine) (calls : List (String × List Int64))
    (hends : .error .outOfSteps ∉ m.callAll calls) :
    (∀ rs depth, PerformsAll m.program 0 m.globals calls rs depth ↔
      rs = m.callAll calls ∧ depth = 0) ∧
    (∀ depth g task e depth', Performs m.program depth g task e depth' → depth' = depth) ∧
    ∀ active cause, EvalFailure.errorText active cause =
      active.foldr (fun name text => name ++ ": " ++ text) cause.message := by
  refine ⟨fun rs depth => ?_, fun _ _ _ _ _ h => h.agrees.1, fun active cause => ?_⟩
  · induction calls generalizing m rs with
    | nil =>
      constructor
      · rintro ⟨⟩
        exact ⟨rfl, rfl⟩
      · rintro ⟨rfl, rfl⟩
        exact .nil 0 m.globals
    | cons c calls ih =>
      obtain ⟨name, args⟩ := c
      simp only [Machine.callAll, List.mem_cons, not_or] at hends
      have hfirst : (m.call name args).1 ≠ .error .outOfSteps := fun h => hends.1 h.symm
      replace ih := ih (m.call name args).2 hends.2
      constructor
      · rintro (_ | ⟨first, hr, rest⟩)
        obtain ⟨rfl, rfl⟩ : _ ∧ _ := by simpa using hr.symm.trans (first.report hfirst)
        obtain rfl := first.agrees.1
        obtain ⟨rfl, rfl⟩ := (ih _).mp rest
        exact ⟨rfl, rfl⟩
      · rintro ⟨rfl, rfl⟩
        obtain ⟨e, depth', h⟩ := exists_performs_call exists_performs [] ⟨name, args, none⟩ hfirst
        obtain rfl := h.agrees.1
        exact .cons h (h.report hfirst) ((ih _).mpr ⟨rfl, rfl⟩)
  · induction active with
    | nil => simp [EvalFailure.errorText]
    | cons name active ih => rw [EvalFailure.errorText_cons, ih, List.foldr_cons]

/-- A function that calls another one, which calls one that there is not. -/
def unanswered : Machine where
  program.functions := [("h", "f"), ("f", "g")].map fun p =>
    { (Build.call 0 p.2 true [] (Func.make p.1 [] .void)).2 with stage := .numbered }

/-- The call that is refused is not named in the error, however often it is made. -/
theorem unanswered_performsAll :
    PerformsAll unanswered.program 0 .empty [("h", []), ("g", []), ("h", [])]
      [.error (.error ["h", "f"] (.noFunction "g")), .error (.error [] (.noFunction "g")),
        .error (.error ["h", "f"] (.noFunction "g"))] 0 :=
  ((performsAll_iff unanswered _ (by decide +kernel)).1 _ 0).mpr ⟨by decide +kernel, rfl⟩

end SsaBlocks
