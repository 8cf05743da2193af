import Mathlib.Order.Monotone.Basic
import SsaBlocks.Proofs.Func.Build
import SsaBlocks.Proofs.Func.Order
import SsaBlocks.Proofs.Ranked

/-!
# Renumbering the variables of a function

A function whose variables get other numbers, in the same order, is the same function up to these
numbers: tables and sets list their keys in the order in which the variables were made, and nothing
else is done with a number than to compare it. Memory instructions are left as they are, since
global variables keep their numbers.
-/

namespace SsaBlocks

open List

variable {r : Nat → Nat}

/-- The variable with its number replaced. -/
def Variable.relabel (r : Nat → Nat) (v : Variable) : Variable :=
  { v with id := r v.id }

theorem Variable.relabel_inj (hr : StrictMono r) {v w : Variable} :
    v.relabel r = w.relabel r ↔ v = w := by
  constructor
  · intro h
    cases v
    cases w
    simp only [relabel, mk.injEq] at h ⊢
    exact ⟨hr.injective h.1, h.2⟩
  · rintro rfl
    rfl

theorem Variable.rank_relabel (hr : StrictMono r) {v w : Variable} :
    Ranked.rank (v.relabel r) < Ranked.rank (w.relabel r) ↔ Ranked.rank v < Ranked.rank w :=
  hr.lt_iff_lt

/-! ## Tables and sets -/

namespace Table

variable {ν μ : Type} (m : Table Variable ν) (v w : Variable)

/-- The table with the numbers of its keys replaced. -/
def relabel (r : Nat → Nat) (m : Table Variable ν) : Table Variable ν :=
  ⟨m.entries.map fun e => (e.1.relabel r, e.2)⟩

theorem keys_relabel : (m.relabel r).keys = m.keys.map (·.relabel r) := by
  simp [keys, relabel, Function.comp_def]

theorem isEmpty_relabel : (m.relabel r).isEmpty = m.isEmpty := by
  simp [isEmpty, relabel]

theorem mapValues_relabel (f : ν → μ) :
    (m.relabel r).mapValues f = (m.mapValues f).relabel r := by
  simp [mapValues, relabel, Function.comp_def]

variable (hr : StrictMono r)
include hr

theorem get?_relabel : (m.relabel r).get? (v.relabel r) = m.get? v := by
  suffices h : ∀ l : List (Variable × ν),
      find? (v.relabel r) (l.map fun e => (e.1.relabel r, e.2)) = find? v l from h m.entries
  intro l
  induction l with
  | nil => rfl
  | cons e l ih => simp only [map_cons, find?, Variable.relabel_inj hr, ih]

theorem contains_relabel : (m.relabel r).contains (v.relabel r) = m.contains v := by
  rw [contains, contains, get?_relabel m v hr]

theorem insert_relabel (x : ν) :
    (m.relabel r).insert (v.relabel r) x = (m.insert v x).relabel r := by
  suffices h : ∀ l : List (Variable × ν),
      place (v.relabel r) x (l.map fun e => (e.1.relabel r, e.2)) =
        (place v x l).map fun e => (e.1.relabel r, e.2) from congrArg mk (h m.entries)
  intro l
  induction l with
  | nil => rfl
  | cons e l ih =>
    simp only [map_cons, place, Variable.relabel_inj hr, Variable.rank_relabel hr, ih]
    split
    · rfl
    · split <;> rfl

theorem erase_relabel : (m.relabel r).erase (v.relabel r) = (m.erase v).relabel r := by
  refine congrArg mk ?_
  simp only [relabel, filter_map]
  congr 1
  refine filter_congr fun e _ => ?_
  simp [Variable.relabel_inj hr]

end Table

namespace KeySet

variable (s t : KeySet Variable) (v : Variable)

/-- The set with the numbers of its members replaced. -/
def relabel (r : Nat → Nat) (s : KeySet Variable) : KeySet Variable :=
  ⟨s.members.map (·.relabel r)⟩

variable (hr : StrictMono r)
include hr

theorem contains_relabel : (s.relabel r).contains (v.relabel r) = s.contains v := by
  refine decide_eq_decide.mpr ?_
  simp [mem_def, relabel, Variable.relabel_inj hr]

theorem insert_relabel : (s.relabel r).insert (v.relabel r) = (s.insert v).relabel r := by
  suffices h : ∀ l : List Variable,
      place (v.relabel r) (l.map (·.relabel r)) = (place v l).map (·.relabel r) from
    congrArg mk (h s.members)
  intro l
  induction l with
  | nil => rfl
  | cons w l ih =>
    simp only [map_cons, place, Variable.relabel_inj hr, Variable.rank_relabel hr, ih]
    split
    · rfl
    · split <;> rfl

theorem union_relabel : (s.relabel r).union (t.relabel r) = (s.union t).relabel r := by
  rw [union, union, relabel.eq_def r t, foldl_map]
  exact foldl_hom (KeySet.relabel r) fun s v => insert_relabel s v hr

end KeySet

/-! ## Functions -/

/-- The phi node with the number of its variable replaced. -/
def Phi.relabel (r : Nat → Nat) (p : Phi) : Phi :=
  { p with var := p.var.relabel r }

/-- The block with the numbers of its variables replaced. -/
def Block.relabel (r : Nat → Nat) (b : Block) : Block :=
  { b with
    declared := b.declared.relabel r
    alive := b.alive.relabel r
    written := b.written.relabel r
    awaited := b.awaited.relabel r
    pending := b.pending.relabel r
    phis := b.phis.map (Phi.relabel r) }

namespace Func

variable {fn : Func} {b c : BlockId}

/-- The function with the numbers of its variables replaced. -/
def relabel (r : Nat → Nat) (fn : Func) : Func :=
  { fn with
    blocks := fn.blocks.map (Block.relabel r)
    params := fn.params.map (·.relabel r)
    vars := fn.vars.map (·.relabel r) }

theorem relabel_relabel (f g : Nat → Nat) (fn : Func) :
    (fn.relabel f).relabel g = fn.relabel (g ∘ f) := by
  have hblock : ∀ blk : Block, (blk.relabel f).relabel g = blk.relabel (g ∘ f) := by
    intro blk
    simp only [Block.relabel, Table.relabel, KeySet.relabel, map_map]
    rfl
  simp only [relabel, Array.map_map, map_map, Function.comp_def, hblock]
  rfl

@[simp] theorem size_relabel : (fn.relabel r).blocks.size = fn.blocks.size := by
  simp [relabel]

@[simp] theorem block_relabel (b : BlockId) :
    (fn.relabel r).block b = (fn.block b).relabel r := by
  by_cases hb : b < fn.blocks.size
  · simp [relabel, Graph.block, Array.getD, hb]
  · rw [Graph.block_of_size_le (by simpa using hb), Graph.block_of_size_le (by simpa using hb)]
    rfl

/-- A change of a block is seen after the numbers have been replaced. -/
theorem modify_relabel {f g : Block → Block} (h : ∀ blk, g (blk.relabel r) = (f blk).relabel r) :
    (fn.relabel r).modify b g = (fn.modify b f).relabel r := by
  have hblocks : (fn.blocks.map (Block.relabel r)).modify b g =
      (fn.blocks.modify b f).map (Block.relabel r) := by
    refine Array.ext (by simp) fun i hi hi' => ?_
    simp only [Array.getElem_modify, Array.getElem_map]
    split
    · exact h _
    · rfl
  simp only [modify, relabel, hblocks]

theorem sameShape_relabel (r : Nat → Nat) (fn : Func) : fn.SameShape (fn.relabel r) where
  entry := rfl
  size := size_relabel
  parents b := by rw [block_relabel]; rfl
  children b := by rw [block_relabel]; rfl

/-! ### How blocks and instructions are written -/

theorem blockText_relabel (b : BlockId) : (fn.relabel r).blockText b = fn.blockText b := by
  simp only [Graph.blockText, Graph.blockNumber, block_relabel]
  rfl

theorem instructionText_relabel (inst : Instruction) :
    (fn.relabel r).instructionText inst = fn.instructionText inst := by
  cases inst with
  | jump t | branch c e t =>
    simp only [Graph.instructionText, Graph.operationText, blockText_relabel]
    rfl
  | ret t => cases t <;> rfl
  | _ => rfl

theorem addTemp_relabel (b : BlockId) :
    (fn.relabel r).addTemp b = (fn.addTemp b).relabel r := by
  simp only [addTemp, block_relabel]
  rfl

theorem append_relabel (b : BlockId) (inst : Instruction) :
    (fn.relabel r).append b inst = (fn.append b inst).relabel r :=
  modify_relabel fun _ => rfl

theorem keepConst_relabel (b : BlockId) (type : ValueType) (w : Int64) (t : Temp) :
    (fn.relabel r).keepConst b type w t = (fn.keepConst b type w t).relabel r :=
  modify_relabel fun _ => rfl

theorem addChild_relabel (b child : BlockId) :
    ((fn.relabel r).modify b fun blk => { blk with children := blk.children ++ [child] }) =
      (fn.modify b fun blk => { blk with children := blk.children ++ [child] }).relabel r :=
  modify_relabel fun _ => rfl

theorem addEdge_relabel (source target : BlockId) :
    (fn.relabel r).addEdge source target = (fn.addEdge source target).relabel r := by
  rw [addEdge, addChild_relabel]
  exact modify_relabel fun _ => rfl

section Order

variable (hr : StrictMono r)
include hr

theorem addBlock_relabel (parents : List BlockId) :
    (fn.relabel r).addBlock parents = (fn.addBlock parents).relabel r := by
  have hpush : ({ fn.relabel r with blocks := (fn.relabel r).blocks.push { home := fn.entry } } :
      Func) = ({ fn with blocks := fn.blocks.push { home := fn.entry } } : Func).relabel r := by
    simp only [relabel, Array.map_push]
    rfl
  have hlink : ∀ child (fn : Func) parent, linkParent child (fn.relabel r) parent =
      (linkParent child fn parent).relabel r := by
    intro child fn parent
    rw [linkParent, addChild_relabel]
    refine modify_relabel fun blk => ?_
    simp only [Block.relabel, block_relabel, KeySet.union_relabel _ _ hr]
  have hstart := congrArg (parents.foldl (linkParent fn.blocks.size)) hpush
  rw [addBlock, size_relabel]
  exact hstart.trans (foldl_hom (relabel r) (hlink _))

theorem declare_block_relabel (blk : Block) (v : Variable) (t : Temp) :
    (blk.relabel r).declare (v.relabel r) t = (blk.declare v t).relabel r := by
  simp only [Block.declare, Block.relabel, KeySet.insert_relabel _ _ hr, Table.insert_relabel _ _ hr]

theorem declare_relabel (b : BlockId) (v : Variable) (t : Temp) :
    (fn.relabel r).declare b (v.relabel r) t = (fn.declare b v t).relabel r :=
  modify_relabel fun blk => declare_block_relabel hr blk v t

theorem write_relabel (b : BlockId) (v : Variable) (t : Temp) :
    (fn.relabel r).write b (v.relabel r) t = (fn.write b v t).relabel r :=
  modify_relabel fun blk => by simp only [Block.relabel, Table.insert_relabel _ _ hr]

theorem await_relabel (b : BlockId) (v : Variable) (t : Temp) :
    (fn.relabel r).await b (v.relabel r) t = (fn.await b v t).relabel r :=
  modify_relabel fun blk => by simp only [Block.relabel, Table.insert_relabel _ _ hr]

theorem make_relabel (name : String) (params : List Variable) (type : ValueType) :
    make name (params.map (·.relabel r)) type = (make name params type).relabel r := by
  have hentry : ∀ (l : List (Variable × Temp)) (blk : Block),
      (l.map fun e => (e.1.relabel r, e.2)).foldl (fun b p => Block.declare b p.1 p.2)
        (blk.relabel r) = (l.foldl (fun b p => Block.declare b p.1 p.2) blk).relabel r := by
    intro l blk
    rw [foldl_map]
    exact foldl_hom (Block.relabel r) fun blk e => declare_block_relabel hr blk e.1 e.2
  have hzip : (params.map (·.relabel r)).zip (range' 0 params.length) =
      (params.zip (range' 0 params.length)).map fun e => (e.1.relabel r, e.2) :=
    zip_map_left
  have hblock := (congrArg (foldl _ _) hzip).trans
    (hentry (params.zip (range' 0 params.length)) { home := 0 })
  simp only [make, makeIn, relabel, length_map]
  congr 2
  rw [Array.map_push, Array.map_empty]
  exact congrArg (Array.push #[]) hblock

end Order

end Func

/-! ## Steps of construction -/

namespace Build

open Func

variable {α β : Type}

/-- The step `p'` does to the renumbered function what `p` does to the function. -/
def Relabels (r : Nat → Nat) (φ : α → β) (p : Build α) (p' : Build β) : Prop :=
  ∀ fn : Func, p' (fn.relabel r) = ((p fn).1.map φ, (p fn).2.relabel r)

theorem relabels_newBlock (hr : StrictMono r) (parents : List BlockId) :
    Relabels r id (newBlock parents) (newBlock parents) := by
  intro fn
  rw [newBlock_apply, newBlock_apply, addBlock_relabel hr, size_relabel]
  have hfinished : (fn.relabel r).isFinished = fn.isFinished := rfl
  rw [hfinished]
  split <;> rfl

theorem relabels_addEdge (source target : BlockId) :
    Relabels r id (addEdge source target) (addEdge source target) := by
  intro fn
  rw [addEdge_apply, addEdge_apply, addEdge_relabel]
  rfl

theorem relabels_add (b : BlockId) (inst : Instruction) :
    Relabels r id (add b inst) (add b inst) := by
  intro fn
  have hend : ((fn.relabel r).block b).isTerminated = (fn.block b).isTerminated := by
    rw [block_relabel]
    rfl
  rw [add_apply, add_apply, hend, instructionText_relabel, blockText_relabel, append_relabel]
  split <;> rfl

theorem relabels_define (b : BlockId) (inst : Temp → Instruction) :
    Relabels r id (define b inst) (define b inst) := by
  intro fn
  have hend : ((fn.relabel r).block b).isTerminated = (fn.block b).isTerminated := by
    rw [block_relabel]
    rfl
  have hsize : (fn.relabel r).temps.size = fn.temps.size := rfl
  rw [define_apply, define_apply, hend, hsize, addTemp_relabel, instructionText_relabel,
    blockText_relabel, append_relabel]
  split <;> rfl

theorem relabels_const (b : BlockId) (type : ValueType) (w : Int64) :
    Relabels r id (const b type w) (const b type w) := by
  intro fn
  have hconstants : ((fn.relabel r).block b).constants = (fn.block b).constants := by
    rw [block_relabel]
    rfl
  have hend : ((fn.relabel r).block b).isTerminated = (fn.block b).isTerminated := by
    rw [block_relabel]
    rfl
  have hsize : (fn.relabel r).temps.size = fn.temps.size := rfl
  rw [const_apply, const_apply, hconstants, hend, hsize, addTemp_relabel, instructionText_relabel,
    blockText_relabel, append_relabel, keepConst_relabel]
  cases (fn.block b).constants.lookup (type, w) with
  | some t => rfl
  | none =>
    simp only
    split <;> rfl

theorem relabels_call (b : BlockId) (callee : String) (void : Bool) (args : List Temp) :
    Relabels r id (call b callee void args) (call b callee void args) := by
  intro fn
  rw [call_apply, call_apply]
  cases void with
  | true =>
    rw [if_pos rfl, if_pos rfl, relabels_add b _ fn]
    rcases add b _ fn with ⟨_ | _, _⟩ <;> rfl
  | false =>
    rw [if_neg (by simp), if_neg (by simp), relabels_define b _ fn]
    rcases define b _ fn with ⟨_ | _, _⟩ <;> rfl

section Order

variable (hr : StrictMono r)
include hr

theorem relabels_declare (b : BlockId) (v : Variable) (t : Temp) :
    Relabels r id (declare b v t) (declare b (v.relabel r) t) := by
  intro fn
  rw [declare_apply, declare_apply, declare_relabel hr]
  rfl

theorem relabels_write (b : BlockId) (v : Variable) (t : Temp) :
    Relabels r id (write b v t) (write b (v.relabel r) t) := by
  intro fn
  rw [write_apply, write_apply, write_relabel hr]
  rfl

theorem relabels_read (b : BlockId) (v : Variable) :
    Relabels r id (read b v) (read b (v.relabel r)) := by
  intro fn
  have hwritten : ((fn.relabel r).block b).written.get? (v.relabel r) =
      (fn.block b).written.get? v := by
    rw [block_relabel]
    exact Table.get?_relabel _ _ hr
  have hawaited : ((fn.relabel r).block b).awaited.get? (v.relabel r) =
      (fn.block b).awaited.get? v := by
    rw [block_relabel]
    exact Table.get?_relabel _ _ hr
  have hsize : (fn.relabel r).temps.size = fn.temps.size := rfl
  rw [read_apply, read_apply, hwritten, hawaited, hsize, addTemp_relabel, await_relabel hr]
  cases (fn.block b).written.get? v with
  | some t => rfl
  | none => cases (fn.block b).awaited.get? v <;> rfl

end Order

end Build

end SsaBlocks
