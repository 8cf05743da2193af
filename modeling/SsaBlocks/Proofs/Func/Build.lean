import SsaBlocks.Pipeline
import SsaBlocks.Proofs.Func.Edit

/-!
# The effects of the primitives

Each primitive as a function from one `Func` to the next: what it answers and what it leaves behind.
So are the stages of construction, and `finish` as all of them.
-/

namespace SsaBlocks

namespace Build

variable {α β : Type}

/-- Goes on after a step that has succeeded. -/
theorem bind_apply (m : Build α) (k : α → Build β) (fn : Func) :
    (m >>= k) fn = match m fn with
      | (.ok a, fn) => k a fn
      | (.error e, fn) => (.error e, fn) := by
  change ExceptT.bindCont k (m fn).1 (m fn).2 = _
  rcases m fn with ⟨_ | _, _⟩ <;> rfl

@[simp] theorem pure_apply (a : α) (fn : Func) : (pure a : Build α) fn = (.ok a, fn) := rfl

@[simp] theorem throw_apply (f : Fault) (fn : Func) :
    (throw f : Build α) fn = (.error f, fn) := rfl

@[simp] theorem get_apply (fn : Func) : (get : Build Func) fn = (.ok fn, fn) := rfl

@[simp] theorem set_apply (fn fn' : Func) : (set fn' : Build PUnit) fn = (.ok (), fn') := rfl

@[simp] theorem modify_apply (f : Func → Func) (fn : Func) :
    (modify f : Build PUnit) fn = (.ok (), f fn) := rfl

end Build

namespace Func

/-- The function with an instruction at the end of a block. -/
def append (fn : Func) (b : BlockId) (inst : Instruction) : Func :=
  fn.modify b fun blk => { blk with code := blk.code ++ [inst] }

/-- The function with a placeholder for the value of a variable on entry to a block. -/
def await (fn : Func) (b : BlockId) (v : Variable) (t : Temp) : Func :=
  fn.modify b fun blk => { blk with awaited := blk.awaited.insert v t }

/-- The function with a constant that is known in a block. -/
def keepConst (fn : Func) (b : BlockId) (type : ValueType) (w : Int64) (t : Temp) : Func :=
  fn.modify b fun blk => { blk with constants := ((type, w), t) :: blk.constants }

end Func

namespace Build

open Func

variable (fn : Func) (b : BlockId)

theorem newBlock_apply (parents : List BlockId) :
    newBlock parents fn = if fn.isFinished then (.error .functionFinished, fn)
      else (.ok fn.blocks.size, fn.addBlock parents) := by
  rw [newBlock, bind_apply, get_apply]
  by_cases h : fn.isFinished <;> simp [h] <;> rfl

theorem addEdge_apply (target : BlockId) : addEdge b target fn = (.ok (), fn.addEdge b target) :=
  rfl

theorem newTemp_apply : newTemp b fn = (.ok fn.temps.size, fn.addTemp b) := rfl

theorem add_apply (inst : Instruction) :
    add b inst fn = if (fn.block b).isTerminated
      then (.error (.afterEnd (fn.instructionText inst) (fn.blockText b)), fn)
      else (.ok (), fn.append b inst) := by
  rw [add, bind_apply, get_apply]
  by_cases h : (fn.block b).isTerminated <;> simp [h] <;> rfl

theorem define_apply (inst : Temp → Instruction) :
    define b inst fn = if (fn.block b).isTerminated
      then (.error (.afterEnd ((fn.addTemp b).instructionText (inst fn.temps.size))
        ((fn.addTemp b).blockText b)), fn.addTemp b)
      else (.ok fn.temps.size, (fn.addTemp b).append b (inst fn.temps.size)) := by
  have hblock : (fn.addTemp b).block b = fn.block b := rfl
  rw [define, bind_apply, newTemp_apply]
  simp only [bind_apply, add_apply, hblock]
  by_cases h : (fn.block b).isTerminated <;> simp [h]

theorem const_apply (type : ValueType) (w : Int64) :
    const b type w fn = match (fn.block b).constants.lookup (type, w) with
      | some t => (.ok t, fn)
      | none => if (fn.block b).isTerminated
        then (.error (.afterEnd
          ((fn.addTemp b).instructionText (.const fn.temps.size type w))
          ((fn.addTemp b).blockText b)), fn.addTemp b)
        else (.ok fn.temps.size, ((fn.addTemp b).append b
          (.const fn.temps.size type w)).keepConst b type w fn.temps.size) := by
  rw [const, bind_apply, get_apply]
  simp only
  cases (fn.block b).constants.lookup (type, w) with
  | some t => rfl
  | none =>
    simp only [bind_apply, define_apply]
    by_cases h : (fn.block b).isTerminated <;> simp [h] <;> rfl

theorem declare_apply (v : Variable) (t : Temp) :
    declare b v t fn = (.ok (), fn.declare b v t) := rfl

theorem write_apply (v : Variable) (t : Temp) : write b v t fn = (.ok (), fn.write b v t) := rfl

theorem read_apply (v : Variable) :
    read b v fn = match (fn.block b).written.get? v, (fn.block b).awaited.get? v with
      | some t, _ => (.ok t, fn)
      | none, some t => (.ok t, fn)
      | none, none => (.ok fn.temps.size, (fn.addTemp b).await b v fn.temps.size) := by
  rw [read, bind_apply, get_apply]
  simp only
  cases (fn.block b).written.get? v with
  | some t => rfl
  | none => cases (fn.block b).awaited.get? v <;> rfl

theorem call_apply (callee : String) (void : Bool) (args : List Temp) :
    call b callee void args fn =
      if void then
        match add b (.call none callee args) fn with
        | (.ok (), fn) => (.ok none, fn)
        | (.error e, fn) => (.error e, fn)
      else
        match define b (fun t => .call (some t) callee args) fn with
        | (.ok t, fn) => (.ok (some t), fn)
        | (.error e, fn) => (.error e, fn) := by
  cases void with
  | true =>
    rw [call, if_pos rfl, if_pos rfl, bind_apply]
    rcases add b _ fn with ⟨_ | _, _⟩ <;> rfl
  | false =>
    rw [call, if_neg (by simp), if_neg (by simp), map_eq_pure_bind, bind_apply]
    rcases define b _ fn with ⟨_ | _, _⟩ <;> rfl

end Build

/-! ## Stages -/

namespace Func

/-- The function marked with a stage. -/
def atStage (stage : Stage) (fn : Func) : Func :=
  { fn with stage }

/-- The function with its last block closed, if it was open. -/
def closed (fn : Func) : Func :=
  let last := fn.canonicalOrder.getLastD fn.entry
  if (fn.block last).isTerminated then fn else fn.append last (.ret none)

theorem closeVoid_apply (fn : Func) : Build.closeVoid fn = (.ok (), fn.closed) := by
  rw [Build.closeVoid, Build.bind_apply, Build.get_apply, closed]
  dsimp only
  generalize fn.canonicalOrder.getLastD fn.entry = last
  cases hlast : (fn.block last).isTerminated with
  | true => simp
  | false => simp [hlast, Build.ret, Build.add_apply]

theorem finish_apply (fn : Func) : Build.finish fn =
    Stage.all.forM Build.advance (if fn.resultType = .void then fn.closed else fn) := by
  rw [Build.finish, Build.bind_apply, Build.get_apply]
  by_cases hvoid : fn.resultType = .void
  · simp only [hvoid, if_true, Build.bind_apply, closeVoid_apply]
  · simp only [hvoid, if_false]

/-- A stage is refused, or its work is done; a fault of the work leaves the mark of the stage. -/
theorem advance_cases (s : Stage) (fn : Func) :
    (fn.stage ≠ s.previous ∧
      Build.advance s fn = (.error (.wrongStage fn.name fn.stage s.previous), fn)) ∨
    (fn.stage = s.previous ∧ ∃ done, s.work (fn.atStage s) = .ok done ∧
      Build.advance s fn = (.ok (), done)) ∨
    (fn.stage = s.previous ∧ ∃ fault, s.work (fn.atStage s) = .error fault ∧
      Build.advance s fn = (.error fault, fn.atStage s)) := by
  rw [Build.advance, Build.bind_apply, Build.get_apply]
  by_cases hstage : fn.stage = s.previous
  · refine .inr ?_
    simp only [hstage, ne_eq, not_true_eq_false, if_false]
    cases hwork : s.work (fn.atStage s) with
    | ok done =>
      have hwork' : s.work { fn with stage := s } = .ok done := hwork
      exact .inl ⟨trivial, done, rfl, by simp only [hwork']; rfl⟩
    | error fault =>
      have hwork' : s.work { fn with stage := s } = .error fault := hwork
      exact .inr ⟨trivial, fault, rfl, by simp only [hwork']; rfl⟩
  · refine .inl ⟨hstage, ?_⟩
    simp only [ne_eq, hstage, not_false_eq_true, if_true]
    rfl

variable {fn done : Func} {s : Stage}

theorem advance_eq (hstage : fn.stage = s.previous) (h : s.work (fn.atStage s) = .ok done) :
    Build.advance s fn = (.ok (), done) := by
  rcases advance_cases s fn with ⟨hne, -⟩ | ⟨-, _, hok, heq⟩ | ⟨-, _, herror, -⟩
  · exact absurd hstage hne
  · rw [heq, Except.ok.inj (hok.symm.trans h)]
  · cases herror.symm.trans h

theorem advance_eq_ok (h : Build.advance s fn = (.ok (), done)) :
    fn.stage = s.previous ∧ s.work (fn.atStage s) = .ok done := by
  rcases advance_cases s fn with ⟨-, heq⟩ | ⟨hstage, _, hok, heq⟩ | ⟨-, _, -, heq⟩
  · cases heq.symm.trans h
  · exact ⟨hstage, hok.trans (congrArg Except.ok (Prod.mk.inj (heq.symm.trans h)).2)⟩
  · cases heq.symm.trans h

/-- The first of several stages, and then the others. -/
theorem forM_advance_cons (s : Stage) (stages : List Stage) :
    (s :: stages).forM Build.advance = Build.advance s >>= fun _ => stages.forM Build.advance := rfl

theorem finish_eq_ok {fin : Func} : fn.finish = .ok fin ↔ Build.finish fn = (.ok (), fin) := by
  rw [finish]
  rcases Build.finish fn with ⟨fault | ⟨⟩, cur⟩
  · exact ⟨nofun, nofun⟩
  · exact ⟨fun h => congrArg (Prod.mk _) (Except.ok.inj h), fun h =>
      congrArg Except.ok (Prod.mk.inj h).2⟩

end Func

end SsaBlocks
