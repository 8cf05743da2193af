import SsaBlocks.Proofs.Func.Start

/-!
# Functions built with primitives

A function is made and then filled by a sequence of primitives, in whatever order and with whatever
arguments.
-/

namespace SsaBlocks

/-- The operations that a function is built with, and their arguments. -/
inductive Primitive where
  | newBlock (parents : List BlockId)
  | addEdge (source target : BlockId)
  | newTemp (b : BlockId)
  | const (b : BlockId) (type : ValueType) (value : Int64)
  | comment (b : BlockId) (text : String)
  | binary (b : BlockId) (op : Opcode) (left right : Temp)
  | unary (b : BlockId) (op : Opcode) (operand : Temp)
  | load (b : BlockId) (v : Variable)
  | store (b : BlockId) (v : Variable) (t : Temp)
  | call (b : BlockId) (callee : String) (void : Bool) (args : List Temp)
  | jump (b target : BlockId)
  | branch (b : BlockId) (cond : Temp) (otherwise target : BlockId)
  | ret (b : BlockId) (value : Option Temp)
  | declare (b : BlockId) (v : Variable) (t : Temp)
  | write (b : BlockId) (v : Variable) (t : Temp)
  | read (b : BlockId) (v : Variable)

namespace Primitive

/-- The function after an operation, also if it was refused. -/
def apply (fn : Func) : Primitive → Func
  | newBlock parents => (Build.newBlock parents fn).2
  | addEdge source target => (Build.addEdge source target fn).2
  | newTemp b => (Build.newTemp b fn).2
  | const b type value => (Build.const b type value fn).2
  | comment b text => (Build.comment b text fn).2
  | binary b op left right => (Build.binary b op left right fn).2
  | unary b op operand => (Build.unary b op operand fn).2
  | load b v => (Build.load b v fn).2
  | store b v t => (Build.store b v t fn).2
  | call b callee void args => (Build.call b callee void args fn).2
  | jump b target => (Build.jump b target fn).2
  | branch b cond otherwise target => (Build.branch b cond otherwise target fn).2
  | ret b value => (Build.ret b value fn).2
  | declare b v t => (Build.declare b v t fn).2
  | write b v t => (Build.write b v t fn).2
  | read b v => (Build.read b v fn).2

/-- What primitives consist of: a block or an edge is added, a temporary is made, an instruction is
added, perhaps with the temporary as its result, a constant or a placeholder is kept, or a variable
is given a value. What each of these keeps, every primitive keeps. -/
theorem apply_of {P : Func → Prop} {fn : Func} (p : Primitive) (h : P fn)
    (hnewBlock : ∀ parents, p = .newBlock parents → P (fn.addBlock parents))
    (haddEdge : ∀ s t, p = .addEdge s t → P (fn.addEdge s t)) (htemp : ∀ b, P (fn.addTemp b))
    (happend : ∀ b inst, inst.result? = none → P (fn.append b inst))
    (hdefine : ∀ b inst, inst.result? = some fn.temps.size → P ((fn.addTemp b).append b inst))
    (hconst : ∀ cur b type w t, P cur → P (cur.keepConst b type w t))
    (hdeclare : ∀ b v t, p = .declare b v t → P (fn.declare b v t))
    (hwrite : ∀ b v t, P (fn.write b v t))
    (hawait : ∀ b v, (fn.block b).awaited.get? v = none →
      P ((fn.addTemp b).await b v fn.temps.size)) : P (p.apply fn) := by
  have hadd : ∀ b inst, inst.result? = none → P (Build.add b inst fn).2 := by
    intro b inst hinst
    rw [Build.add_apply]
    split
    · exact h
    · exact happend b inst hinst
  have hdef : ∀ b (inst : Temp → Instruction), (∀ t, (inst t).result? = some t) →
      P (Build.define b inst fn).2 := by
    intro b inst hinst
    rw [Build.define_apply]
    split
    · exact htemp b
    · exact hdefine b _ (hinst _)
  cases p with
  | newBlock parents =>
    rw [apply, Build.newBlock_apply]
    split
    · exact h
    · exact hnewBlock parents rfl
  | addEdge source target => exact haddEdge source target rfl
  | newTemp b => exact htemp b
  | const b type w =>
    rw [apply, Build.const_apply]
    cases (fn.block b).constants.lookup (type, w) with
    | some t => exact h
    | none =>
      simp only
      -- in a block that is closed, the temporary is made all the same
      split
      · exact htemp b
      · exact hconst _ b type w _ (hdefine b _ rfl)
  | comment b | store b | jump b | branch b | ret b => exact hadd b _ rfl
  | binary b | unary b | load b => exact hdef b _ fun _ => rfl
  | call b callee void args =>
    cases void with
    | true =>
      have hcall := hadd b (.call none callee args) rfl
      rw [apply, Build.call_apply, if_pos rfl]
      split <;> simp_all
    | false =>
      have hcall := hdef b (fun t => .call (some t) callee args) fun _ => rfl
      rw [apply, Build.call_apply, if_neg (by simp)]
      split <;> simp_all
  | declare b v t => exact hdeclare b v t rfl
  | write b v t => exact hwrite b v t
  | read b v =>
    rw [apply, Build.read_apply]
    cases (fn.block b).written.get? v with
    | some t => exact h
    | none =>
      cases hv : (fn.block b).awaited.get? v with
      | some t => exact h
      | none => exact hawait b v hv

end Primitive

namespace Func

/-- The function has been made and then filled by a sequence of primitives. -/
def Built (fn : Func) : Prop :=
  ∃ name params type, ∃ steps : List Primitive,
    fn = steps.foldl Primitive.apply (make name params type)

end Func

namespace Func

variable {fn : Func}

/-- Primitives keep the temporaries apart. -/
theorem Separate.apply (h : fn.Separate) (p : Primitive) : (p.apply fn).Separate :=
  p.apply_of h (fun parents _ => h.addBlock parents)
    (fun _ _ _ => (h.modify fun _ => by rfl).modify fun _ => by rfl) h.addTemp (fun _ _ => h.append)
    (fun _ _ => h.define) (fun _ _ _ _ _ hcur => hcur.modify fun _ => by rfl)
    (fun _ _ _ _ => h.modify fun _ => by rfl) (fun _ _ _ => h.modify fun _ => by rfl)
    fun _ _ => h.await

/-- No temporary of a function that has been built comes from two places. -/
theorem Built.separate (h : fn.Built) : fn.Separate := by
  obtain ⟨name, params, type, steps, rfl⟩ := h
  exact foldl_invariant (fun _ => Separate) (separate_make name params type)
    fun _ p _ _ _ h => h.apply p

end Func

end SsaBlocks
