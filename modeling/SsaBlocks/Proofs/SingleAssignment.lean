import Mathlib.Data.Prod.Lex
import SsaBlocks.Proofs.Func.Reached

/-!
# Single assignment and dense numbering

Whatever graph a function has been built with, if construction completes then every temporary is
defined once at most, by a parameter, a phi node or an instruction, and the temporaries that are
defined are numbered without gaps in the order of their definitions. Blocks are numbered without
gaps in canonical order.

Each stage keeps the temporaries apart: it takes definitions away or moves the placeholder of a
read to the result of a phi node, and what it adds is new.

## Main results

* `Func.Built.denselyNumbered_finish`: construction leads there, for every function that is built
-/

namespace SsaBlocks

open List

namespace Func

variable {fn fn' cur : Func} {b c : BlockId} {v : Variable} {t : Temp}

/-! ## All stages -/

theorem Separate.atStage (h : fn.Separate) (s : Stage) : (fn.atStage s).Separate :=
  ⟨⟨h.nodup, h.eq, h.lt⟩, h.params, h.unnumbered⟩

/-- Each stage but the last keeps the temporaries apart. -/
theorem Separate.advance (h : fn.Separate) (hs : fn.Staged) {s : Stage} (hne : s ≠ .numbered)
    (hok : Build.advance s fn = (.ok (), fn')) : fn'.Separate := by
  obtain ⟨hstage, hwork⟩ := advance_eq_ok hok
  have hat := h.atStage s
  cases s with
  | lowering => exact Except.ok.inj hwork ▸ hat
  | blocksRemoved => exact (thins_removeRedundantBlocks hwork).separate hat
  | loadsRemoved => exact Except.ok.inj hwork ▸ (thins_removeRedundantLoads _).separate hat
  | blocksNumbered =>
    obtain rfl := Except.ok.inj hwork
    have heq := congrArg (fun f : Func => { f with order := fn.order })
      (fn.atStage .blocksNumbered).edits_numberBlocks.eq
    exact separate_of_forgetAnalysis heq (forgetAnalysis_numberBlocks hs.entry_lt) hat
  | dominance => exact (thins_computeDominance hwork).separate hat
  | frontier => exact (hs.thins_computeFrontiers hwork).1.separate hat
  | phisPlaced =>
    obtain ⟨cur, hcur, -, hplaced, -⟩ := hs.exists_placePhis hstage
    exact Except.ok.inj (hcur.symm.trans hwork) ▸ hplaced.separate hat
  | phisResolved => exact (thins_resolveReads hwork).separate hat
  | phisComputed => exact (thins_computePhis hwork).1.separate hat
  | numbered => exact absurd rfl hne

/-- A function that goes through all stages is numbered at the end, once its phi nodes are. -/
theorem Separate.exists_numberAll (h : fn.Separate) (hs : fn.Staged) {fin : Func}
    (hfin : Stage.all.forM Build.advance fn = (.ok (), fin)) :
    ∃ cur : Func, cur.Separate ∧ cur.Staged ∧ (∀ b ∈ cur.order, cur.PhisPending b) ∧
      fin = cur.numberAll := by
  have hstep : ∀ {s stages} {fn : Func}, (s :: stages).forM Build.advance fn = (.ok (), fin) →
      s ≠ .numbered → fn.Separate ∧ fn.Staged → ∃ mid, s.work (fn.atStage s) = .ok mid ∧
        (mid.Separate ∧ mid.Staged) ∧ stages.forM Build.advance mid = (.ok (), fin) := by
    intro s stages fn hrest hne hfn
    obtain ⟨mid, hadvance, hrest⟩ := exists_advance_of_forM hrest
    exact ⟨mid, (advance_eq_ok hadvance).2, ⟨hfn.1.advance hfn.2 hne hadvance,
      hfn.2.advance hadvance⟩, hrest⟩
  obtain ⟨f₁, -, h₁, hfin⟩ := hstep hfin (by decide) ⟨h, hs⟩
  obtain ⟨f₂, -, h₂, hfin⟩ := hstep hfin (by decide) h₁
  obtain ⟨f₃, -, h₃, hfin⟩ := hstep hfin (by decide) h₂
  obtain ⟨f₄, -, h₄, hfin⟩ := hstep hfin (by decide) h₃
  obtain ⟨f₅, -, h₅, hfin⟩ := hstep hfin (by decide) h₄
  obtain ⟨f₆, -, h₆, hfin⟩ := hstep hfin (by decide) h₅
  obtain ⟨f₇, -, h₇, hfin⟩ := hstep hfin (by decide) h₆
  obtain ⟨f₈, hphis, h₈, hfin⟩ := hstep hfin (by decide) h₇
  obtain ⟨f₉, hlast, hfin⟩ := exists_advance_of_forM hfin
  obtain rfl : f₉ = fin := congrArg Prod.snd hfin
  have hle : f₈.stage.number ≤ Stage.numbered.number := by
    rw [(advance_eq_ok hlast).1]
    decide
  have hcur : (f₈.atStage .numbered).Staged := h₈.2.thins hle (.refl _) (nomatch ·)
  exact ⟨f₈.atStage .numbered, h₈.1.atStage _, hcur, (thins_computePhis hphis).2,
    (Except.ok.inj (advance_eq_ok hlast).2).symm⟩

/-! ## Definitions in order -/

/-- Where a finished function can define a temporary: by a parameter, by a phi node of a block or
by an instruction of a block. -/
inductive Definition where
  | param (i : Nat)
  | phi (b : BlockId) (i : Nat)
  | result (b : BlockId) (i : Nat)

/-- The temporary that is defined there. -/
def Defines (fn : Func) : Definition → Temp → Prop
  | .param i, t => fn.paramTemps[i]? = some t
  | .phi b i, t => b ∈ fn.order ∧ ∃ p, (fn.block b).phis[i]? = some p ∧ p.dest = t
  | .result b i, t => b ∈ fn.order ∧
    ∃ inst, (fn.block b).code[i]? = some inst ∧ inst.result? = some t

/-- The place of a definition in canonical order: parameters come first, then the blocks in order,
the phi nodes of each before its instructions. -/
def Definition.position (fn : Func) : Definition → Nat ×ₗ Nat ×ₗ Nat
  | .param i => toLex (0, toLex (0, i))
  | .phi b i => toLex (fn.order.idxOf b + 1, toLex (0, i))
  | .result b i => toLex (fn.order.idxOf b + 1, toLex (1, i))

/-- Definitions are unique, and they and the blocks are numbered without gaps, in canonical
order. -/
structure DenselyNumbered (fn : Func) : Prop where
  single : ∀ d d' t, fn.Defines d t → fn.Defines d' t → d = d'
  numbered : ∀ t, (∃ i, fn.tempIndex? t = some i) ↔ ∃ d, fn.Defines d t
  injective : ∀ t u i, fn.tempIndex? t = some i → fn.tempIndex? u = some i → t = u
  dense : ∀ i, i < fn.temporaryCount ↔ ∃ t, fn.tempIndex? t = some i
  params_length : fn.paramTemps.length = fn.params.length
  param : ∀ i t, fn.Defines (.param i) t → fn.tempIndex? t = some i
  increasing : ∀ d d' t t' i i', fn.Defines d t → fn.Defines d' t' → fn.tempIndex? t = some i →
    fn.tempIndex? t' = some i' → d.position fn < d'.position fn → i < i'
  block_numbered : ∀ b, (∃ i, (fn.block b).index = some i) ↔ b ∈ fn.order
  block_injective : ∀ b c i, (fn.block b).index = some i → (fn.block c).index = some i → b = c
  block_dense : ∀ i, i < fn.order.length ↔ ∃ b, (fn.block b).index = some i
  block_order : ∀ b i, (fn.block b).index = some i ↔ fn.order[i]? = some b

/-- The definitions of a block with their temporaries, in order. -/
def definitionsOf (fn : Func) (b : BlockId) : List (Definition × Temp) :=
  (fn.block b).phis.zipIdx.map (fun e => (.phi b e.2, e.1.dest)) ++
    (fn.block b).code.zipIdx.filterMap fun e => e.1.result?.map fun t => (.result b e.2, t)

/-- All definitions with their temporaries, in order. -/
def definitions (fn : Func) : List (Definition × Temp) :=
  fn.paramTemps.zipIdx.map (fun e => (.param e.2, e.1)) ++ fn.order.flatMap fn.definitionsOf

theorem mem_definitionsOf {d : Definition} : (d, t) ∈ fn.definitionsOf b ↔
    (∃ i p, d = .phi b i ∧ (fn.block b).phis[i]? = some p ∧ p.dest = t) ∨
      ∃ i inst, d = .result b i ∧ (fn.block b).code[i]? = some inst ∧ inst.result? = some t := by
  simp only [definitionsOf, mem_append, mem_map, mem_filterMap, Prod.exists,
    mem_zipIdx_iff_getElem?, Option.map_eq_some_iff, Prod.mk.injEq]
  constructor
  · rintro (⟨p, i, hp, rfl, rfl⟩ | ⟨inst, i, hi, u, hu, rfl, rfl⟩)
    · exact .inl ⟨i, p, rfl, hp, rfl⟩
    · exact .inr ⟨i, inst, rfl, hi, hu⟩
  · rintro (⟨i, p, rfl, hp, rfl⟩ | ⟨i, inst, rfl, hi, hu⟩)
    · exact .inl ⟨p, i, hp, rfl, rfl⟩
    · exact .inr ⟨inst, i, hi, t, hu, rfl, rfl⟩

theorem mem_definitions {d : Definition} : (d, t) ∈ fn.definitions ↔ fn.Defines d t := by
  simp only [definitions, mem_append, mem_map, mem_flatMap, mem_definitionsOf,
    Prod.exists, mem_zipIdx_iff_getElem?, Prod.mk.injEq]
  constructor
  · rintro (⟨u, i, hu, rfl, rfl⟩ | ⟨b, hb, ⟨i, p, rfl, hp⟩ | ⟨i, inst, rfl, hi⟩⟩)
    · exact hu
    · exact ⟨hb, p, hp⟩
    · exact ⟨hb, inst, hi⟩
  · intro h
    cases d with
    | param i => exact .inl ⟨t, i, h, rfl, rfl⟩
    | phi b i =>
      obtain ⟨hb, p, hp⟩ := h
      exact .inr ⟨b, hb, .inl ⟨i, p, rfl, hp⟩⟩
    | result b i =>
      obtain ⟨hb, inst, hi⟩ := h
      exact .inr ⟨b, hb, .inr ⟨i, inst, rfl, hi⟩⟩

theorem map_snd_definitions (fn : Func) : fn.definitions.map Prod.snd = fn.definedTemps := by
  have hcode : ∀ b, ((fn.block b).code.zipIdx.filterMap fun e => e.1.result?.map fun t =>
      ((.result b e.2, t) : Definition × Temp)).map Prod.snd =
        (fn.block b).code.filterMap Instruction.result? := by
    intro b
    nth_rewrite 2 [← zipIdx_map_fst 0 (fn.block b).code]
    rw [map_filterMap, filterMap_map]
    refine filterMap_congr fun e _ => ?_
    rw [Option.map_map]
    exact Option.map_id_apply
  have hphis : ∀ b, ((fn.block b).phis.zipIdx.map fun e =>
      ((.phi b e.2, e.1.dest) : Definition × Temp)).map Prod.snd =
        (fn.block b).phis.map Phi.dest := by
    intro b
    nth_rewrite 2 [← zipIdx_map_fst 0 (fn.block b).phis]
    rw [map_map, map_map]
    rfl
  have hblock : ∀ b, (fn.definitionsOf b).map Prod.snd = fn.resultsOf b := by
    intro b
    rw [definitionsOf, map_append, hphis, hcode, resultsOf_eq_append]
  rw [definitions, definedTemps, map_append, map_map, map_flatMap]
  simp only [hblock]
  congr 1
  exact zipIdx_map_fst 0 fn.paramTemps

theorem pairwise_zipIdx {α : Type} (l : List α) : l.zipIdx.Pairwise fun e e' => e.2 < e'.2 := by
  have h : (l.zipIdx.map Prod.snd).Pairwise (· < ·) := by
    rw [zipIdx_map_snd]
    exact pairwise_lt_range' 1
  exact pairwise_map.mp h

theorem pairwise_definitionsOf (fn : Func) (b : BlockId) :
    (fn.definitionsOf b).Pairwise fun e e' => e.1.position fn < e'.1.position fn := by
  refine pairwise_append.mpr ⟨?_, ?_, ?_⟩
  · refine pairwise_map.mpr ((pairwise_zipIdx _).imp fun h => ?_)
    simpa [Definition.position, Prod.Lex.toLex_lt_toLex] using h
  · refine (pairwise_zipIdx _).filterMap _ fun e e' h x hx y hy => ?_
    obtain ⟨t, -, rfl⟩ := Option.map_eq_some_iff.mp hx
    obtain ⟨u, -, rfl⟩ := Option.map_eq_some_iff.mp hy
    simpa [Definition.position, Prod.Lex.toLex_lt_toLex] using h
  · intro x hx y hy
    obtain ⟨e, -, rfl⟩ := mem_map.mp hx
    obtain ⟨e', -, he'⟩ := mem_filterMap.mp hy
    obtain ⟨t, -, rfl⟩ := Option.map_eq_some_iff.mp he'
    simp [Definition.position, Prod.Lex.toLex_lt_toLex]

/-- The definitions stand in canonical order. -/
theorem pairwise_definitions (h : fn.order.Nodup) :
    fn.definitions.Pairwise fun e e' => e.1.position fn < e'.1.position fn := by
  have hfst : ∀ b e, e ∈ fn.definitionsOf b →
      (ofLex (e.1.position fn)).1 = fn.order.idxOf b + 1 := by
    rintro b ⟨d, t⟩ he
    rcases mem_definitionsOf.mp he with ⟨i, p, rfl, -⟩ | ⟨i, inst, rfl, -⟩ <;> rfl
  refine pairwise_append.mpr ⟨?_, pairwise_flatMap.mpr
    ⟨fun b _ => pairwise_definitionsOf fn b, ?_⟩, ?_⟩
  · refine pairwise_map.mpr ((pairwise_zipIdx _).imp fun h => ?_)
    simpa [Definition.position, Prod.Lex.toLex_lt_toLex] using h
  · refine pairwise_iff_getElem.mpr fun i j hi hj hij x hx y hy => ?_
    rw [Prod.Lex.lt_iff, hfst _ x hx, hfst _ y hy, h.idxOf_getElem, h.idxOf_getElem]
    exact .inl (Nat.succ_lt_succ hij)
  · intro x hx y hy
    obtain ⟨e, -, rfl⟩ := mem_map.mp hx
    obtain ⟨b, -, hb⟩ := mem_flatMap.mp hy
    rw [Prod.Lex.lt_iff, hfst b y hb]
    exact .inl (Nat.succ_pos _)

/-- Numbering a function whose definitions are different numbers them densely. -/
theorem Separate.denselyNumbered (hsep : fn.Separate) (h : fn.Staged)
    (hphis : ∀ b ∈ fn.order, fn.PhisPending b) : fn.numberAll.DenselyNumbered := by
  obtain ⟨hnodup, hlt⟩ := hsep.nodup_definedTemps h.nodup hphis
  have hindex := tempIndex?_numberAll hnodup hlt hsep.unnumbered
  have hget : ∀ t i, fn.numberAll.tempIndex? t = some i ↔ fn.definedTemps[i]? = some t := by
    intro t i
    rw [hindex]
    constructor
    · intro hi
      split at hi
      · next ht => exact Option.some.inj hi ▸ getElem?_idxOf ht
      · cases hi
    · intro hi
      obtain ⟨hlt, rfl⟩ := List.getElem?_eq_some_iff.mp hi
      rw [if_pos (List.getElem_mem hlt), hnodup.idxOf_getElem]
  have hdefines : ∀ d t, fn.numberAll.Defines d t ↔ (d, t) ∈ fn.definitions :=
    fun d t => mem_definitions.symm
  have hmem : ∀ t, t ∈ fn.definedTemps ↔ ∃ d, fn.numberAll.Defines d t := by
    intro t
    rw [← map_snd_definitions]
    simp [hdefines]
  -- the index of a temporary is the place of its definition among all of them
  have hplace : ∀ d t i, fn.numberAll.Defines d t → fn.numberAll.tempIndex? t = some i →
      fn.definitions[i]? = some (d, t) := by
    intro d t i hd hi
    obtain ⟨j, hj⟩ := getElem?_of_mem ((hdefines d t).mp hd)
    have ht : fn.definedTemps[j]? = some t := by
      rw [← map_snd_definitions, getElem?_map, hj]
      rfl
    obtain rfl : i = j := Option.some.inj (hi.symm.trans ((hget t j).mpr ht))
    exact hj
  refine
    { single := ?_, numbered := ?_, injective := ?_, dense := ?_, params_length := hsep.params,
      param := ?_, increasing := ?_, block_numbered := ?_, block_injective := ?_, block_dense := ?_,
      block_order := h.index }
  · intro d d' t hd hd'
    have heq : (d, t) = (d', t) :=
      inj_on_of_nodup_map (map_snd_definitions fn ▸ hnodup) ((hdefines d t).mp hd)
        ((hdefines d' t).mp hd') rfl
    exact congrArg Prod.fst heq
  · intro t
    rw [← hmem]
    simp only [hget, mem_iff_getElem?]
  · intro t u i ht hu
    exact Option.some.inj (((hget t i).mp ht).symm.trans ((hget u i).mp hu))
  · intro i
    have hcount : fn.numberAll.temporaryCount = fn.definedTemps.length := rfl
    simp only [hcount, hget]
    exact ⟨fun hi => ⟨_, List.getElem?_eq_getElem hi⟩,
      fun ⟨_, ht⟩ => (List.getElem?_eq_some_iff.mp ht).1⟩
  · intro i t ht
    have ht' : fn.paramTemps[i]? = some t := ht
    rw [hget, definedTemps, List.getElem?_append_left (List.getElem?_eq_some_iff.mp ht').1]
    exact ht'
  · intro d d' t t' i i' hd hd' hi hi' hlt
    obtain ⟨hbound, heq⟩ := List.getElem?_eq_some_iff.mp (hplace d t i hd hi)
    obtain ⟨hbound', heq'⟩ := List.getElem?_eq_some_iff.mp (hplace d' t' i' hd' hi')
    rcases Nat.lt_trichotomy i i' with hii | rfl | hii
    · exact hii
    · obtain ⟨rfl, -⟩ := Prod.mk.inj (heq.symm.trans heq')
      exact absurd hlt (lt_irrefl _)
    · have hpair := pairwise_iff_getElem.mp (pairwise_definitions h.nodup) i' i
        hbound' hbound hii
      rw [heq, heq'] at hpair
      exact absurd hlt (lt_asymm hpair)
  · intro b
    exact (exists_congr (h.index b)).trans mem_iff_getElem?.symm
  · intro b c i hb hc
    exact Option.some.inj (((h.index b i).mp hb).symm.trans ((h.index c i).mp hc))
  · intro i
    refine ⟨fun hi => ⟨_, (h.index _ i).mpr (List.getElem?_eq_getElem hi)⟩, ?_⟩
    rintro ⟨b, hb⟩
    exact (List.getElem?_eq_some_iff.mp ((h.index b i).mp hb)).1

/-- What goes through all stages is numbered densely. -/
theorem Built.numbered_finish (h : fn.Built) {fin : Func} (hfin : fn.finish = .ok fin) :
    fin.DenselyNumbered := by
  have hstaged : fn.Staged := by
    obtain ⟨name, params, type, steps, rfl⟩ := id h
    exact ((Reached.make name params type).fills steps).staged
  have hstart : (if fn.resultType = .void then fn.closed else fn).Separate ∧
      (if fn.resultType = .void then fn.closed else fn).Staged := by
    rw [Func.closed]
    split_ifs
    · exact ⟨h.separate, hstaged⟩
    · exact ⟨h.separate.append rfl, hstaged.samePlan ((SamePlan.refl fn).modify fun _ => by rfl)⟩
    · exact ⟨h.separate, hstaged⟩
  have hstages := finish_eq_ok.mp hfin
  rw [finish_apply] at hstages
  obtain ⟨cur, hsep, hcur, hphis, rfl⟩ := hstart.1.exists_numberAll hstart.2 hstages
  exact hsep.denselyNumbered hcur hphis

/-- If construction completes, for a function built with any primitives, every temporary is defined
once at most and definitions and blocks are numbered densely in canonical order. -/
theorem Built.denselyNumbered_finish (h : fn.Built) {fin : Func} (hfin : fn.finish = .ok fin) :
    fin.DenselyNumbered :=
  h.numbered_finish hfin

/-- A loop that counts its parameter down, so that its header needs a phi node. -/
def countdown : Func :=
  [.newBlock [0], .jump 0 1, .read 1 counter, .newBlock [1], .newBlock [1], .branch 1 1 3 2,
    .const 2 .int 1, .read 2 counter, .binary 2 .sub 3 2, .write 2 counter 4, .addEdge 2 1,
    .jump 2 1, .read 3 counter, .ret 3 (some 5)].foldl Primitive.apply (make "f" [counter] .int)

theorem countdown_denselyNumbered : ∃ fin, countdown.finish = .ok fin ∧
    fin.temporaryCount = 4 ∧ fin.DenselyNumbered := by
  have hcount : countdown.finish.toOption.map (·.temporaryCount) = some 4 := by decide +kernel
  cases hfin : countdown.finish with
  | error fault => simp [hfin, Except.toOption] at hcount
  | ok fin =>
    rw [hfin] at hcount
    exact ⟨fin, rfl, Option.some.inj hcount, Built.denselyNumbered_finish ⟨_, _, _, _, rfl⟩ hfin⟩

end Func

end SsaBlocks
