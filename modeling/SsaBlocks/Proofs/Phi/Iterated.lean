import Mathlib.Order.Bounds.Basic
import SsaBlocks.Proofs.Func.Reached

/-!
# Phi nodes stand in the iterated frontier

Of every function that has got as far as its frontiers, whatever its graph is and whatever was done
to it on the way, the blocks that get a phi node for a variable form the least set that holds the
frontiers of the blocks that write the variable and those of its own blocks.

## Main results

* `Func.Reached.iteratedPhis`: placing phi nodes succeeds and leads there
-/

namespace SsaBlocks

namespace Func

variable {fn cur : Func} {v : Variable}

/-- The set holds the frontiers of the blocks that write the variable and of its own blocks. -/
def FrontierClosed (fn : Func) (v : Variable) (S : Set BlockId) : Prop :=
  ∀ x, ((fn.block x).written.get? v).isSome ∨ x ∈ S → ∀ y ∈ fn.frontierOf x, y ∈ S

/-- The blocks with a phi node for the variable that has been asked for. -/
def phiBlocks (fn : Func) (v : Variable) : Set BlockId :=
  {b | ((fn.block b).pending.get? v).isSome}

/-- The function `cur` is `fn` with the phi nodes of a variable in their places. -/
structure IteratedPhis (fn cur : Func) (v : Variable) : Prop where
  least : IsLeast {S | fn.FrontierClosed v S} (cur.phiBlocks v)
  single : ∀ b ∈ cur.phiBlocks v, (cur.block b).pending.keys.count v = 1
  written : ∀ b ∈ cur.phiBlocks v, ((cur.block b).written.get? v).isSome
  unawaited : ∀ b ∈ cur.phiBlocks v, (cur.block b).awaited.get? v = none
  kept : ∀ b t, (fn.block b).written.get? v = some t → (cur.block b).written.get? v = some t
  elsewhere : ∀ b ∉ cur.phiBlocks v, (cur.block b).written.get? v = (fn.block b).written.get? v ∧
    (cur.block b).awaited.get? v = (fn.block b).awaited.get? v

/-- The iterated frontier lies in every set that is closed under frontiers. -/
theorem NeedsPhi.mem {y : BlockId} (h : fn.NeedsPhi v y) {S : Set BlockId}
    (hS : fn.FrontierClosed v S) : y ∈ S := by
  induction h with
  | write _ hw hy => exact hS _ (.inl hw) _ hy
  | phi _ hy ih => exact hS _ (.inr ih) _ hy

theorem PhisClosed.isLeast (h : fn.PhisClosed cur v) (hplaced : fn.Placed cur)
    (hr : fn.Recorded) : IsLeast {S | fn.FrontierClosed v S} (cur.phiBlocks v) := by
  refine ⟨fun x hx y hy => ?_, fun S hS y hy => (h.needed y hy).mem hS⟩
  refine h.closed x (hr.mem_order_of_mem_frontierOf hy) ?_ y hy
  rw [hplaced.written, Option.isSome_or, Bool.or_eq_true]
  exact hx

/-- Placing phi nodes succeeds for every function at that stage, and they stand in the iterated
frontiers of the blocks that write their variables. -/
theorem Reached.iteratedPhis (h : fn.Reached) (hstage : fn.stage = .frontier) :
    ∃ cur, Build.advance .phisPlaced fn = (.ok (), cur) ∧ ∀ v, fn.IteratedPhis cur v := by
  obtain ⟨cur, hok, -, hplaced, hclosed⟩ := h.staged.exists_placePhis hstage
  refine ⟨cur, advance_eq hstage hok, fun v => ?_⟩
  have hwritten : ∀ b, (cur.block b).written.get? v =
      ((fn.block b).written.get? v).or ((cur.block b).pending.get? v) := (hplaced.written · v)
  have hawaited : ∀ b, (cur.block b).awaited.get? v =
      if ((cur.block b).pending.get? v).isSome then none else (fn.block b).awaited.get? v :=
    (hplaced.awaited · v)
  refine ⟨(hclosed v).isLeast hplaced ?_, fun b hb => ?_, fun b hb => ?_, fun b hb => ?_,
    fun b t ht => ?_, fun b hb => ?_⟩
  · have hle : fn.stage.number ≤ Stage.phisPlaced.number := by
      rw [hstage]
      decide
    exact h.staged.toRecorded.keeps ⟨rfl, hle, rfl, le_rfl, fun _ => rfl, fun _ _ => id⟩
  · refine List.count_eq_one_of_mem (hplaced.pending_ordered b).nodup_keys ?_
    exact Table.mem_keys.mpr (Option.isSome_iff_exists.mp hb)
  · rw [hwritten b, Option.isSome_or, Bool.or_eq_true]
    exact .inr hb
  · exact (hawaited b).trans (if_pos hb)
  · rw [hwritten b, ht, Option.some_or]
  · have hnone : (cur.block b).pending.get? v = none := by simpa [phiBlocks] using hb
    rw [hwritten b, hawaited b, hnone, Option.or_none]
    exact ⟨rfl, rfl⟩

/-- The variable made after the counter. -/
def total : Variable := { id := 2, name := "t", kind := .localVar, type := .int }

/-- A loop that counts its first parameter down and sets the second one on one of the two ways
through its body, as far as its frontiers. Both variables need a phi node in the header, block 1, and
the second one needs another where the two ways meet, in block 5. -/
def twoCounters : Func :=
  let built := [.newBlock [0], .jump 0 1, .read 1 counter, .newBlock [1], .newBlock [1],
    .branch 1 2 3 2, .read 2 total, .newBlock [2], .newBlock [2], .branch 2 3 5 4,
    .const 4 .int 1, .write 4 total 4, .addEdge 4 5, .jump 4 5, .read 5 counter, .const 5 .int 1,
    .binary 5 .sub 5 6, .write 5 counter 7, .addEdge 5 1, .jump 5 1, .read 3 total,
    .ret 3 (some 8)].foldl Primitive.apply (make "f" [counter, total] .int)
  ([Stage.blocksRemoved, .loadsRemoved, .blocksNumbered, .dominance, .frontier].forM
    Build.advance built).2

theorem iteratedPhis_twoCounters :
    twoCounters.Reached ∧ twoCounters.stage = .frontier ∧
      ∃ cur, Build.advance .phisPlaced twoCounters = (.ok (), cur) ∧
        (List.range 6).filter (fun b => ((cur.block b).pending.get? counter).isSome) = [1] ∧
        (List.range 6).filter (fun b => ((cur.block b).pending.get? total).isSome) = [1, 5] ∧
        ∀ v, twoCounters.IteratedPhis cur v := by
  have hreached : twoCounters.Reached :=
    ((Reached.make _ _ _).fills _).advances (by decide +kernel)
  have hstage : twoCounters.stage = .frontier := by decide +kernel
  obtain ⟨cur, hok, hphis⟩ := hreached.iteratedPhis hstage
  have hcur : cur = (Build.advance .phisPlaced twoCounters).2 := by rw [hok]
  refine ⟨hreached, hstage, cur, hok, ?_, ?_, hphis⟩
  · rw [hcur]
    decide +kernel
  · rw [hcur]
    decide +kernel

end Func

end SsaBlocks
