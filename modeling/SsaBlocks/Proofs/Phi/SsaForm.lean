import SsaBlocks.Proofs.Numbering
import SsaBlocks.Proofs.Phi.Edges
import SsaBlocks.Proofs.Phi.Reaching

/-!
# SSA form

A function that is ready comes out of SSA construction as itself with its temporaries renamed, and
with phi nodes.
-/

namespace SsaBlocks.Func

open SsaBlocks.Flow List

/-- `fin` is `fn` in SSA form. Temporaries have been renamed by `σ`; `phi v b` is the result of the
phi node that was placed for `v` in `b` and `out v b` the temporary that has the value of `v` on
leaving `b`. Temporaries of lower rank come from blocks before. -/
structure SsaForm (fn fin : Func) (σ : Temp → Temp) (rank : Temp → Nat)
    (phi out : Variable → BlockId → Option Temp) : Prop where
  name : fin.name = fn.name
  params : fin.params = fn.params
  entry : fin.entry = fn.entry
  order : fin.order = fn.canonicalOrder
  children : ∀ b, (fin.block b).children = (fn.block b).children
  code : ∀ b ∈ fn.canonicalOrder,
    (fin.block b).code = (fn.block b).code.map (Instruction.substitute σ)
  node : ∀ b ∈ fn.canonicalOrder, ∀ n ∈ (fin.block b).phis, phi n.var b = some n.dest ∧
    fn.inScope n.var b ∧ ∀ p, fn.Edge p b → ∃ u, out n.var p = some u ∧
      n.edges.find? (fun e => some e.1 = some p) = some (p, σ u)
  kept : ∀ b ∈ fn.canonicalOrder, ∀ v d, phi v b = some d →
    ((fin.tempIndex? d).isSome ↔ fn.inScope v b) ∧
      (fn.inScope v b → ∃ n ∈ (fin.block b).phis, n.var = v ∧ n.dest = d)
  dests : ∀ b ∈ fn.canonicalOrder, ((fin.block b).phis.map Phi.dest).Nodup
  phi_entry : ∀ v, phi v fn.entry = none
  index_inj : ∀ t u i, fin.tempIndex? t = some i → fin.tempIndex? u = some i → t = u
  index_lt : ∀ t i, fin.tempIndex? t = some i → i < fin.temporaryCount
  index_param : ∀ i t, fn.Makes (.param i) t → fin.tempIndex? t = some i
  index_result : ∀ b ∈ fn.canonicalOrder, ∀ i t, fn.Makes (.result b i) t →
    (fin.tempIndex? t).isSome
  index_available : ∀ b ∈ fn.canonicalOrder, ∀ n t, fn.Available b n t →
    (fin.tempIndex? (σ t)).isSome
  fixed_param : ∀ i t, fn.Makes (.param i) t → σ t = t
  fixed_result : ∀ b i t, fn.Makes (.result b i) t → σ t = t
  fixed_phi : ∀ v b d, phi v b = some d → σ d = d
  rank_le : ∀ t, rank (σ t) ≤ rank t
  rank_param : ∀ i t, fn.Makes (.param i) t → rank t = 0
  rank_read : ∀ b ∈ fn.canonicalOrder, ∀ v t, fn.Makes (.read b v) t →
    rank t = fn.canonicalOrder.idxOf b + 1
  rank_result : ∀ b ∈ fn.canonicalOrder, ∀ i t, fn.Makes (.result b i) t →
    rank t = fn.canonicalOrder.idxOf b + 1
  rank_phi : ∀ b ∈ fn.canonicalOrder, ∀ v d, phi v b = some d →
    rank d = fn.canonicalOrder.idxOf b + 1
  phi_ne_result : ∀ v b d i, phi v b = some d → ¬ fn.Makes (.result b i) d
  out_written : ∀ b ∈ fn.canonicalOrder, ∀ v t, (fn.block b).written.get? v = some t →
    out v b = some t
  out_phi : ∀ b ∈ fn.canonicalOrder, ∀ v d, (fn.block b).written.get? v = none →
    phi v b = some d → out v b = some d
  out_edge : ∀ p b v, fn.Edge p b → (fn.block b).written.get? v = none → phi v b = none →
    out v b = out v p
  rank_out : ∀ p b v u, fn.Edge p b → phi v b = none → out v p = some u →
    rank u ≤ fn.canonicalOrder.idxOf b
  out_entry : ∀ v, (fn.block fn.entry).written.get? v = none → out v fn.entry = none
  out_index : ∀ p ∈ fn.canonicalOrder, ∀ v u, out v p = some u →
    (fin.tempIndex? (σ u)).isSome ∨ ∃ x ∈ fn.canonicalOrder, Reachable fn.Edge x p ∧
      phi v x = some (σ u) ∧ ¬ fn.inScope v x
  read_phi : ∀ b v t d, fn.Makes (.read b v) t → phi v b = some d → d = t
  read : ∀ p b v t, fn.Edge p b → fn.Makes (.read b v) t → phi v b = none →
    ∃ u, out v p = some u ∧ σ t = σ u


variable {fn start placed res : Func} {σ : Temp → Temp} {b p x : BlockId} {v w : Variable}
  {t u : Temp}

/-! ## After the reads have been resolved -/

/-- Phi nodes have been placed and reads resolved by a renaming. -/
structure Renamed (fn start mid res : Func) (σ : Temp → Temp) : Prop
    extends WithPhis fn start mid where
  edits : mid.Edits res
  block : ∀ b, res.block b = if b ∈ mid.order then (mid.block b).rename σ else mid.block b
  renames : mid.Renames (fn.blockRank mid) σ

theorem Ready.exists_renamed (hr : fn.Ready) :
    ∃ start placed res σ, (fn.placeStages >>= resolveReads) = .ok res ∧
      fn.Renamed start placed res σ := by
  have hrooted := hr.rooted
  obtain ⟨start, placed, hplaced, h⟩ := exists_placeStages hrooted hr.unplaced
  have hvalue : ∀ b ∈ placed.order, ∀ v t, (placed.block b).awaited.get? v = some t →
      ∃ x, LastAt placed.Edge (placed.Writes v) x b := by
    intro b hb v t ht
    rw [h.order] at hb
    rw [h.edge]
    exact h.exists_lastAt_of_liveIn hr hb (liveIn_of_awaited (h.awaited_placed ht).2)
  obtain ⟨res, σ, hres, hedits, hblock, hren⟩ := exists_resolveReads
    (h.resolvable hrooted hr.toFresh.distinctReads) hvalue (h.readsDescend hr)
  refine ⟨start, placed, res, σ, ?_, ⟨h, hedits, hblock, hren⟩⟩
  rw [hplaced, ok_bind, hres]

namespace Renamed

variable (h : fn.Renamed start placed res σ)
include h

theorem block_of_mem (hb : b ∈ fn.canonicalOrder) : res.block b = (placed.block b).rename σ := by
  rw [h.block, if_pos (h.order ▸ hb)]

theorem resShape : placed.SameShape res where
  entry := h.edits.entry
  size := h.edits.size
  parents b := by
    rw [h.block]
    split <;> rfl
  children b := by
    rw [h.block]
    split <;> rfl

theorem resEdge : res.Edge = fn.Edge := h.resShape.edge.trans h.edge

theorem pending (b : BlockId) : (res.block b).pending = (placed.block b).pending := by
  rw [h.block]
  split <;> rfl

theorem resAlive (b : BlockId) : (res.block b).alive = (fn.block b).alive := by
  rw [← h.alive, h.block]
  split <;> rfl

theorem resIndex (hb : b ∈ fn.canonicalOrder) :
    (res.block b).index = some (fn.canonicalOrder.idxOf b) := by
  rw [h.block_of_mem hb]
  exact h.index hb

theorem resWritten (hb : b ∈ fn.canonicalOrder) (v : Variable) :
    (res.block b).written.get? v = ((placed.block b).written.get? v).map σ := by
  rw [h.block_of_mem hb]
  exact Table.get?_mapValues ..

theorem resWrites : res.Writes = placed.Writes := by
  funext v b
  rw [Graph.Writes, Graph.Writes, h.block]
  split
  · rw [Block.rename, Table.get?_mapValues, Option.isSome_map]
  · rfl

theorem resHasPhi : res.HasPhi = placed.HasPhi := by
  funext v b
  rw [Graph.HasPhi, Graph.HasPhi, h.pending]

theorem resInScope : res.inScope = fn.inScope := by
  funext v b
  simp only [inScope, h.resAlive, h.resShape.parents, h.sameShape.parents]

theorem valueOut_eq (hr : fn.Rooted) (hp : p ∈ fn.canonicalOrder)
    (hu : placed.nearestWritten? v [p] = some u) : res.valueOut v p = σ u := by
  obtain ⟨q, hq, x, hx, hxu⟩ := nearestWritten?_sound hu
  cases mem_singleton.mp hq
  rw [← h.resWrites, h.edge, ← h.resEdge] at hx
  obtain ⟨y, hy, hyu⟩ := valueOut_spec hx
  rw [h.resEdge, h.resWrites] at hx hy
  cases h.lastBy_unique hr hp hx hy
  have hmem : x ∈ fn.canonicalOrder := (hr.walk_mem hx.reachable.choose_spec hp).1
  rw [h.resWritten hmem, hxu] at hyu
  exact (Option.some.inj hyu).symm

theorem meets (hr : fn.Ready) (hb : b ∈ fn.canonicalOrder) : res.Meets b where
  index p hp := by
    rw [h.resEdge] at hp
    rw [h.resIndex (hr.rooted.edge_mem hp).1]
    rfl
  two v hphi := by
    rw [h.resHasPhi] at hphi
    rw [h.resEdge]
    obtain ⟨x, -, hx⟩ := h.exists_inFrontier hr.rooted hphi
    obtain ⟨⟨p, hp, -⟩, -⟩ := id hx
    by_contra hno
    refine not_inFrontier_of_sole (p := p) (fun q => hr.rooted.not_edge_entry)
      (reachable_of_mem_canonicalOrder hb) (fun q hq => ?_) hx
    by_contra hne
    exact hno ⟨q, p, hq, hp, hne⟩
  value v p _ hscope hp := by
    rw [h.resInScope] at hscope
    rw [h.resEdge] at hp
    rw [h.resEdge, h.resWrites]
    simp only [inScope, Bool.and_eq_true, all_eq_true, KeySet.contains_iff] at hscope
    exact h.exists_lastBy_of_alive hr (hr.rooted.edge_mem hp).1 (hscope.2 p hp)

theorem mem_keptPhis {n : Phi} : n ∈ res.keptPhis b ↔
    ∃ v d, (placed.block b).pending.get? v = some d ∧ fn.inScope v b ∧ n = res.phiNode b v d := by
  rw [keptPhis, h.pending, h.resInScope]
  simp only [mem_map, mem_filter]
  constructor
  · rintro ⟨⟨v, d⟩, ⟨hmem, hscope⟩, rfl⟩
    exact ⟨v, d, ((h.placed.pending_ordered b).mem_entries).mp hmem, hscope, rfl⟩
  · rintro ⟨v, d, hget, hscope, rfl⟩
    exact ⟨(v, d), ⟨((h.placed.pending_ordered b).mem_entries).mpr hget, hscope⟩, rfl⟩

theorem mem_keptDests {d : Temp} : d ∈ (res.keptPhis b).map Phi.dest ↔
    ∃ v, (placed.block b).pending.get? v = some d ∧ fn.inScope v b := by
  rw [mem_map]
  constructor
  · rintro ⟨n, hn, rfl⟩
    obtain ⟨v, d, hget, hscope, rfl⟩ := h.mem_keptPhis.mp hn
    exact ⟨v, hget, hscope⟩
  · rintro ⟨v, hget, hscope⟩
    exact ⟨res.phiNode b v d, h.mem_keptPhis.mpr ⟨v, d, hget, hscope, rfl⟩, rfl⟩

end Renamed

/-! ## After the phi nodes have been decided -/

/-- In addition the phi nodes have been decided. -/
structure Decided (fn start mid res cur : Func) (σ : Temp → Temp) : Prop
    extends Renamed fn start mid res σ where
  editsPhis : res.Edits cur
  blockPhis : ∀ b, cur.block b =
    if b ∈ res.order then { res.block b with phis := res.keptPhis b } else res.block b

theorem Renamed.exists_decided (h : fn.Renamed start placed res σ) (hr : fn.Ready) :
    ∃ cur, res.computePhis = .ok cur ∧ fn.Decided start placed res cur σ := by
  have horder : res.order = fn.canonicalOrder := h.edits.order.trans h.order
  obtain ⟨cur, hcur, hedits, hblock⟩ := exists_computePhis
    (fun b hb => h.meets hr (horder ▸ hb))
    (fun b => by rw [h.pending]; exact h.placed.pending_ordered b)
    (horder ▸ nodup_canonicalOrder fn)
    (fun b hb => by
      rw [h.resShape.size, h.sameShape.size]
      exact hr.rooted.lt_of_mem (horder ▸ hb))
  exact ⟨cur, hcur, ⟨h, hedits, hblock⟩⟩

namespace Decided

variable {cur : Func} (h : fn.Decided start placed res cur σ)
include h

theorem curOrder : cur.order = fn.canonicalOrder :=
  (h.editsPhis.order.trans h.edits.order).trans h.toWithPhis.order

theorem curBlock (hb : b ∈ fn.canonicalOrder) :
    cur.block b = { (placed.block b).rename σ with phis := res.keptPhis b } := by
  have horder : res.order = fn.canonicalOrder := h.edits.order.trans h.toWithPhis.order
  rw [h.blockPhis, if_pos (horder ▸ hb), h.block_of_mem hb]

theorem curChildren (b : BlockId) : (cur.block b).children = (fn.block b).children := by
  rw [← h.sameShape.children, ← h.resShape.children, h.blockPhis]
  split <;> rfl

theorem curEntry : cur.entry = fn.entry :=
  (h.editsPhis.entry.trans h.edits.entry).trans h.sameShape.entry

theorem curCode (hb : b ∈ fn.canonicalOrder) :
    (cur.block b).code = (fn.block b).code.map (Instruction.substitute σ) := by
  rw [h.curBlock hb, ← h.code]
  rfl

theorem curParams : cur.paramTemps = fn.paramTemps := by
  have h₁ : cur.paramTemps = res.paramTemps := by rw [← h.editsPhis.eq]
  have h₂ : res.paramTemps = placed.paramTemps := by rw [← h.edits.eq]
  have h₃ : placed.paramTemps = start.paramTemps := by rw [← h.placed.eq]
  have h₄ : start.paramTemps = fn.paramTemps := by rw [← h.analysed.eq]
  rw [h₁, h₂, h₃, h₄]

theorem curSignature : cur.name = fn.name ∧ cur.params = fn.params := by
  have h₁ : cur.name = res.name ∧ cur.params = res.params := by rw [← h.editsPhis.eq]; simp
  have h₂ : res.name = placed.name ∧ res.params = placed.params := by rw [← h.edits.eq]; simp
  have h₃ : placed.name = start.name ∧ placed.params = start.params := by
    rw [← h.placed.eq]
    simp
  have h₄ : start.name = fn.name ∧ start.params = fn.params := by rw [← h.analysed.eq]; simp
  simp only [h₁, h₂, h₃, h₄, and_self]

theorem curPhis (hb : b ∈ fn.canonicalOrder) : (cur.block b).phis = res.keptPhis b := by
  rw [h.curBlock hb]

theorem curResults (hb : b ∈ fn.canonicalOrder) :
    (cur.block b).code.filterMap Instruction.result? = fn.results b := by
  rw [h.curCode hb, results, filterMap_map]
  exact filterMap_congr fun i _ => Instruction.result?_substitute σ i

theorem mem_definedTemps : t ∈ cur.definedTemps ↔ (∃ i, fn.Makes (.param i) t) ∨
    ∃ b ∈ fn.canonicalOrder, (∃ v, (placed.block b).pending.get? v = some t ∧ fn.inScope v b) ∨
      ∃ i, fn.Makes (.result b i) t := by
  rw [definedTemps, h.curParams, h.curOrder, mem_append, mem_flatMap,
    mem_iff_getElem?]
  refine or_congr Iff.rfl (exists_congr fun b => and_congr_right fun hb => ?_)
  rw [resultsOf_eq_append, mem_append, h.curPhis hb, h.curResults hb, h.mem_keptDests, mem_results]

/-- No temporary comes from a place that it did not come from when phi nodes were placed. -/
theorem separate (hf : fn.Fresh) : cur.Separate := by
  have hsame : Instruction.result? ∘ Instruction.substitute σ = Instruction.result? :=
    funext fun i => Instruction.result?_substitute σ i
  have hthins : placed.Thins cur := by
    refine ⟨h.edits.trans h.editsPhis, fun b => ?_⟩
    have hres : (placed.block b).Thins (res.block b) := by
      rw [h.block]
      split
      · refine ⟨?_, nil_sublist _, rfl, rfl, fun _ => id⟩
        rw [Block.rename, filterMap_map, hsame]
      · exact .refl _
    refine hres.trans ?_
    rw [h.blockPhis]
    split
    · exact ⟨.refl _, .refl _, rfl, rfl, fun _ => id⟩
    · exact .refl _
  exact hthins.separate (h.toWithPhis.separate hf)

theorem phisPending (hb : b ∈ fn.canonicalOrder) : cur.PhisPending b := by
  rw [PhisPending, h.curPhis hb, h.curBlock hb, keptPhis, h.pending, map_map]
  exact filter_sublist.map _

/-- The temporaries to be numbered are different. -/
theorem nodup_definedTemps (hf : fn.Fresh) :
    cur.definedTemps.Nodup ∧ ∀ t ∈ cur.definedTemps, t < cur.temps.size :=
  (h.separate hf).nodup_definedTemps (h.curOrder ▸ nodup_canonicalOrder fn)
    fun _ hb => h.phisPending (h.curOrder ▸ hb)

theorem index_eq (hf : fn.Fresh) (t : Temp) : cur.numberAll.tempIndex? t =
    if t ∈ cur.definedTemps then some (cur.definedTemps.idxOf t) else none :=
  tempIndex?_numberAll (h.nodup_definedTemps hf).1 (h.nodup_definedTemps hf).2
    (h.separate hf).unnumbered t

theorem isSome_index (hf : fn.Fresh) :
    (cur.numberAll.tempIndex? t).isSome ↔ t ∈ cur.definedTemps := by
  rw [h.index_eq hf]
  split <;> simp_all

end Decided

/-! ## SSA form is reached -/

namespace Renamed

variable (h : fn.Renamed start placed res σ)
include h

theorem fixed_makes (hf : fn.Fresh) {s : Source} (hs : fn.Makes s t)
    (hne : ∀ b v, s ≠ .read b v) : σ t = t := by
  refine h.renames.fixed t fun b _ v ht => ?_
  exact hne b v (hf.single _ _ t hs (h.awaited_placed ht).2)

theorem fixed_dest (hf : fn.Fresh) (hd : (placed.block b).pending.get? v = some t) : σ t = t := by
  refine h.renames.fixed t fun c _ w ht => ?_
  obtain ⟨hnone, hread⟩ := h.awaited_placed ht
  cases h.makes_dest hf hd hread
  rw [hd] at hnone
  cases hnone

theorem read_eq (hr : fn.Ready) (hpb : fn.Edge p b) (ht : fn.Makes (.read b v) t)
    (hnone : (placed.block b).pending.get? v = none) :
    ∃ u, placed.nearestWritten? v [p] = some u ∧ σ t = σ u := by
  have hrooted := hr.rooted
  obtain ⟨hp, hb⟩ := hrooted.edge_mem hpb
  have hawaited : (placed.block b).awaited.get? v = some t := by
    rw [h.awaited, hnone]
    exact ht
  obtain ⟨x, u, hx, hxu, hσ⟩ := h.renames.read b (h.order ▸ hb) v t hawaited
  rw [h.edge] at hx
  refine ⟨u, ?_, hσ⟩
  rw [h.nearestWritten?_eq hrooted hp (h.lastBy_of_lastAt hrooted hpb hnone hx), hxu]

end Renamed

/-- The temporary is defined before the instruction `n` of the block `b`: it is a parameter, the
result of a phi node or an earlier instruction of the block, or defined in a block that strictly
dominates it. -/
inductive DefinedBefore (fn : Func) (b : BlockId) (n : Nat) (t : Temp) : Prop
  | param (h : t ∈ fn.paramTemps)
  | phi (h : t ∈ (fn.block b).phis.map Phi.dest)
  | earlier (h : t ∈ ((fn.block b).code.take n).filterMap Instruction.result?)
  | above {c : BlockId} (hc : StrictlyDominates fn.Edge fn.entry c b)
      (h : t ∈ (fn.block c).phis.map Phi.dest ++ (fn.block c).code.filterMap Instruction.result?)

/-- What is defined at the end of a block is defined in all that it strictly dominates. -/
theorem DefinedBefore.of_strictlyDominates {a : BlockId} {n m : Nat} (h : fn.DefinedBefore a n t)
    (hab : StrictlyDominates fn.Edge fn.entry a b) (hb : Reachable fn.Edge fn.entry b) :
    fn.DefinedBefore b m t := by
  cases h with
  | param h => exact .param h
  | phi h => exact .above hab (mem_append_left _ h)
  | earlier h =>
    refine .above hab (mem_append_right _ ?_)
    exact (List.Sublist.filterMap _ (take_sublist n _)).subset h
  | above hc h => exact .above (.trans_left hc.1 hab hb) h

theorem DefinedBefore.mem_definedTemps {n : Nat} (h : fn.DefinedBefore b n t) (hb : b ∈ fn.order)
    (hdom : ∀ c, StrictlyDominates fn.Edge fn.entry c b → c ∈ fn.order) : t ∈ fn.definedTemps := by
  have hresults : ∀ c ∈ fn.order, t ∈ (fn.block c).phis.map Phi.dest ++
      (fn.block c).code.filterMap Instruction.result? → t ∈ fn.definedTemps := by
    intro c hc ht
    refine mem_append_right _ (mem_flatMap.mpr ⟨c, hc, ?_⟩)
    rwa [resultsOf_eq_append]
  cases h with
  | param h => exact mem_append_left _ h
  | phi h => exact hresults b hb (mem_append_left _ h)
  | earlier h =>
    refine hresults b hb (mem_append_right _ ?_)
    exact (List.Sublist.filterMap _ (take_sublist n _)).subset h
  | above hc h => exact hresults _ (hdom _ hc) h

namespace Decided

variable {cur : Func} (h : fn.Decided start placed res cur σ) (hr : fn.Ready)
include h

theorem curEdge : cur.Edge = fn.Edge := by
  rw [← h.resEdge]
  funext a b
  rw [Graph.Edge, Graph.Edge, h.blockPhis]
  split <;> rfl

theorem take_results (hb : b ∈ fn.canonicalOrder) (n : Nat) :
    ((cur.block b).code.take n).filterMap Instruction.result? =
      ((fn.block b).code.take n).filterMap Instruction.result? := by
  rw [h.curCode hb, ← map_take, filterMap_map]
  exact filterMap_congr fun i _ => Instruction.result?_substitute σ i

include hr

theorem dest_mem_definedTemps (hb : b ∈ fn.canonicalOrder)
    (ht : (placed.block b).pending.get? v = some t) :
    t ∈ cur.definedTemps ↔ fn.inScope v b := by
  rw [h.mem_definedTemps]
  constructor
  · rintro (⟨i, hi⟩ | ⟨c, -, ⟨w, hw, hscope⟩ | ⟨i, hi⟩⟩)
    · cases h.makes_dest hr.toFresh ht hi
    · obtain ⟨rfl, rfl⟩ := h.dest_unique hr.toFresh ht hw
      exact hscope
    · cases h.makes_dest hr.toFresh ht hi
  · exact fun hscope => .inr ⟨b, hb, .inl ⟨v, ht, hscope⟩⟩

/-- A phi node for a variable that is live in its block is kept and defines its result. -/
theorem live_mem_phis (hb : b ∈ fn.canonicalOrder) (hlive : fn.LiveIn v b)
    (ht : (placed.block b).pending.get? v = some t) : σ t ∈ (cur.block b).phis.map Phi.dest := by
  rw [h.fixed_dest hr.toFresh ht, h.curPhis hb]
  exact h.mem_keptDests.mpr ⟨v, ht, hr.live b hb v hlive⟩

/-- What is known before an instruction stands for something that is defined before it. -/
theorem definedBefore {n : Nat} (hb : b ∈ fn.canonicalOrder) (ht : fn.Available b n t) :
    cur.DefinedBefore b n (σ t) := by
  have hrooted := hr.rooted
  -- a placeholder stands for a value of lower rank
  induction hk : fn.blockRank placed t using Nat.strongRecOn generalizing b n t with
  | ind k ih =>
  subst hk
  obtain ⟨s, hs, hbefore⟩ := ht
  have hreach : Reachable cur.Edge cur.entry b := by
    rw [h.curEdge, h.curEntry]
    exact reachable_of_mem_canonicalOrder hb
  cases s with
  | param i =>
    rw [h.fixed_makes hr.toFresh hs (by simp)]
    refine .param ?_
    rw [h.curParams]
    exact mem_of_getElem? hs
  | result c i =>
    rw [h.fixed_makes hr.toFresh hs (by simp)]
    rcases hbefore with ⟨rfl, hi⟩ | hc
    · refine .earlier ?_
      rw [h.take_results hb]
      obtain ⟨inst, hinst, hresult⟩ := hs
      refine mem_filterMap.mpr ⟨inst, ?_, hresult⟩
      have htake : ((fn.block c).code.take n)[i]? = some inst := by
        rw [getElem?_take_of_lt hi, hinst]
      exact mem_of_getElem? htake
    · have hmem : c ∈ fn.canonicalOrder := hrooted.dominator_mem hc.1 hb
      refine .above (c := c) ?_ (mem_append_right _ ?_)
      · rw [h.curEdge, h.curEntry]
        exact hc
      · rw [h.curResults hmem]
        exact mem_results.mpr ⟨i, hs⟩
  | read c v =>
    have hmem : c ∈ fn.canonicalOrder := hrooted.dominator_mem hbefore hb
    cases hphi : (placed.block c).pending.get? v with
    | some d =>
      rcases h.dest hphi with hread | ⟨hnone, -⟩
      · obtain rfl : t = d := Option.some.inj (hs.symm.trans hread)
        have hkept := h.live_mem_phis hr hmem (liveIn_of_awaited hs) hphi
        by_cases hcb : c = b
        · exact .phi (hcb ▸ hkept)
        · refine .above (c := c) ?_ (mem_append_left _ hkept)
          rw [h.curEdge, h.curEntry]
          exact ⟨hbefore, hcb⟩
      · exact absurd (hs.symm.trans hnone) (by simp)
    | none =>
      have hawaited : (placed.block c).awaited.get? v = some t := by
        rw [h.awaited, hphi]
        exact hs
      obtain ⟨x, u, hx, hxu, hσ⟩ := h.renames.read c (h.order ▸ hmem) v t hawaited
      rw [h.edge] at hx
      have hlt : fn.blockRank placed u < fn.blockRank placed t := by
        rw [h.blockRank_of_produces hr.toFresh hmem (.inl ⟨v, hs⟩)]
        exact Nat.lt_succ_of_le (h.blockRank_lastAt hr hmem hphi hx hxu)
      -- the value comes from a strict dominator of the block that reads it
      have hxc : StrictlyDominates cur.Edge cur.entry x b := by
        have hdom := (h.settled hrooted v).strictlyDominates hx (by simp [Graph.HasPhi, hphi])
        rw [h.curEdge, h.curEntry]
        by_cases hcb : c = b
        · exact hcb ▸ hdom
        · exact .trans_left hdom.1 ⟨hbefore, hcb⟩ (reachable_of_mem_canonicalOrder hb)
      have hxmem : x ∈ fn.canonicalOrder := by
        obtain ⟨-, l, hl, -⟩ := id hx
        exact (hrooted.walk_mem hl hmem).1
      rw [hσ]
      cases hw : (fn.block x).written.get? v with
      | some u' =>
        obtain rfl : u' = u := by simpa [h.written, hw] using hxu
        exact (ih _ hlt hxmem (hr.written x hxmem v u' hw) rfl).of_strictlyDominates hxc hreach
      | none =>
        rw [h.written, hw, Option.none_or] at hxu
        refine .above hxc (mem_append_left _ (h.live_mem_phis hr hxmem ?_ hxu))
        obtain ⟨-, l, hl, hlast⟩ := hx
        refine (liveIn_of_awaited hs).of_walk hl fun y hy => ?_
        rcases mem_cons.mp hy with rfl | hy
        · simp [Graph.Writes, hw]
        · exact fun hyw => hlast y hy (h.writes_of_writes hyw)

/-- What a temporary that is available stands for has been numbered. -/
theorem available_mem_definedTemps {n : Nat} (hb : b ∈ fn.canonicalOrder)
    (ht : fn.Available b n t) : σ t ∈ cur.definedTemps := by
  refine (h.definedBefore hr hb ht).mem_definedTemps (h.curOrder ▸ hb) fun c hc => ?_
  rw [h.curEdge, h.curEntry] at hc
  rw [h.curOrder]
  exact hr.rooted.dominator_mem hc.1 hb

/-- What a variable leaves a block with has been numbered, unless it is the result of a phi node
that has been dropped. -/
theorem out_mem_definedTemps (hp : p ∈ fn.canonicalOrder)
    (hu : placed.nearestWritten? v [p] = some u) : σ u ∈ cur.definedTemps ∨
      ∃ x ∈ fn.canonicalOrder, Reachable fn.Edge x p ∧
        (placed.block x).pending.get? v = some (σ u) ∧ ¬ fn.inScope v x := by
  obtain ⟨q, hq, x, hx, hxu⟩ := nearestWritten?_sound hu
  cases mem_singleton.mp hq
  rw [h.edge] at hx
  have hxmem : x ∈ fn.canonicalOrder :=
    (hr.rooted.walk_mem hx.reachable.choose_spec hp).1
  cases hw : (fn.block x).written.get? v with
  | some u' =>
    obtain rfl : u' = u := by simpa [h.written, hw] using hxu
    exact .inl (h.available_mem_definedTemps hr hxmem (hr.written x hxmem v u' hw))
  | none =>
    rw [h.written, hw, Option.none_or] at hxu
    rw [h.fixed_dest hr.toFresh hxu, h.dest_mem_definedTemps hr hxmem hxu]
    by_cases hscope : fn.inScope v x
    · exact .inl hscope
    · exact .inr ⟨x, hxmem, hx.reachable, hxu, hscope⟩

theorem node_spec (hb : b ∈ fn.canonicalOrder) {n : Phi} (hn : n ∈ res.keptPhis b) :
    (placed.block b).pending.get? n.var = some n.dest ∧ fn.inScope n.var b ∧
      ∀ p, fn.Edge p b → ∃ u, placed.nearestWritten? n.var [p] = some u ∧
        n.edges.find? (fun e => some e.1 = some p) = some (p, σ u) := by
  obtain ⟨v, d, hget, hscope, rfl⟩ := h.mem_keptPhis.mp hn
  refine ⟨hget, hscope, fun p hp => ?_⟩
  have hmem := (hr.rooted.edge_mem hp).1
  have hphi : res.HasPhi v b := by
    rw [h.resHasPhi, Graph.HasPhi, hget]
    rfl
  obtain ⟨x, hx⟩ := (h.meets hr hb).value v p hphi (h.resInScope ▸ hscope) (h.resEdge ▸ hp)
  rw [h.resEdge, h.resWrites, ← h.edge] at hx
  obtain ⟨u, hu⟩ := nearestWritten?_complete (mem_singleton_self p) hx
  refine ⟨u, hu, ?_⟩
  rw [find?_phiNode (h.resEdge ▸ hp), h.valueOut_eq hr.rooted hmem hu]

theorem pending_entry (v : Variable) : (placed.block fn.entry).pending.get? v = none := by
  by_contra hne
  obtain ⟨x, -, ⟨p, hp, -⟩, -⟩ := h.exists_inFrontier hr.rooted (Option.ne_none_iff_isSome.mp hne)
  exact hr.rooted.not_edge_entry hp

theorem ssaForm : fn.SsaForm cur.numberAll σ (fn.blockRank placed)
    (fun v b => (placed.block b).pending.get? v) (fun v b => placed.nearestWritten? v [b]) where
  name := h.curSignature.1
  params := h.curSignature.2
  entry := h.curEntry
  order := h.curOrder
  children := h.curChildren
  code b hb := h.curCode hb
  node b hb n hn := by
    refine h.node_spec hr hb ?_
    rw [show cur.numberAll.block b = cur.block b from rfl, h.curBlock hb] at hn
    exact hn
  kept b hb v d hd := by
    refine ⟨(h.isSome_index hr.toFresh).trans (h.dest_mem_definedTemps hr hb hd),
      fun hscope => ⟨res.phiNode b v d, ?_, rfl, rfl⟩⟩
    rw [show cur.numberAll.block b = cur.block b from rfl, h.curBlock hb]
    exact h.mem_keptPhis.mpr ⟨v, d, hd, hscope, rfl⟩
  dests b hb := ((h.separate hr.toFresh).nodup (.phis b)).sublist (h.phisPending hb)
  phi_entry v := h.pending_entry hr v
  index_inj t u i ht hu := by
    rw [h.index_eq hr.toFresh] at ht hu
    split at ht <;> split at hu <;> simp_all
    rw [← idxOf_inj ‹_›]
    omega
  index_lt t i ht := by
    rw [h.index_eq hr.toFresh] at ht
    split at ht
    · cases ht
      exact idxOf_lt_length_of_mem ‹_›
    · cases ht
  index_param i t ht := by
    have hmem : t ∈ cur.definedTemps := h.mem_definedTemps.mpr (.inl ⟨i, ht⟩)
    have hget : cur.definedTemps[i]? = some t := by
      rw [definedTemps, h.curParams]
      exact List.getElem?_append_left (List.getElem?_eq_some_iff.mp ht).1 |>.trans ht
    rw [h.index_eq hr.toFresh, if_pos hmem]
    obtain ⟨hi, rfl⟩ := List.getElem?_eq_some_iff.mp hget
    rw [(h.nodup_definedTemps hr.toFresh).1.idxOf_getElem]
  index_result b hb i t ht :=
    (h.isSome_index hr.toFresh).mpr (h.mem_definedTemps.mpr (.inr ⟨b, hb, .inr ⟨i, ht⟩⟩))
  index_available b hb n t ht :=
    (h.isSome_index hr.toFresh).mpr (h.available_mem_definedTemps hr hb ht)
  fixed_param i t ht := h.fixed_makes hr.toFresh ht (by simp)
  fixed_result b i t ht := h.fixed_makes hr.toFresh ht (by simp)
  fixed_phi v b d hd := h.fixed_dest hr.toFresh hd
  rank_le := h.renames.rank_le
  rank_param i t ht := h.blockRank_param hr.toFresh ht
  rank_read b hb v t ht := h.blockRank_of_produces hr.toFresh hb (.inl ⟨v, ht⟩)
  rank_result b hb i t ht := h.blockRank_of_produces hr.toFresh hb (.inr (.inl ⟨i, ht⟩))
  rank_phi b hb v d hd := h.blockRank_of_produces hr.toFresh hb (.inr (.inr ⟨v, hd⟩))
  phi_ne_result v b d i hd hi := by cases h.makes_dest hr.toFresh hd hi
  out_written b hb v t ht := by
    have hw : placed.Writes v b := h.writes_of_writes (by simp [Graph.Writes, ht])
    rw [h.nearestWritten?_eq hr.rooted hb (.inl ⟨hw, rfl⟩), h.written, ht,
      Option.some_or]
  out_phi b hb v d ht hd := by
    have hget : (placed.block b).written.get? v = some d := by rw [h.written, ht, Option.none_or, hd]
    have hw : placed.Writes v b := by simp [Graph.Writes, hget]
    rw [h.nearestWritten?_eq hr.rooted hb (.inl ⟨hw, rfl⟩), hget]
  out_edge p b v hpb hw hphi := h.nearestWritten?_edge hr.rooted hpb hphi hw
  rank_out p b v u hpb hphi hu := by
    obtain ⟨q, hq, x, hx, hxu⟩ := nearestWritten?_sound hu
    cases mem_singleton.mp hq
    rw [h.edge] at hx
    exact h.blockRank_lastAt hr (hr.rooted.edge_mem hpb).2 hphi
      (lastAt_iff.mpr ⟨p, hpb, hx⟩) hxu
  out_entry v hv := by
    cases hu : placed.nearestWritten? v [fn.entry] with
    | none => rfl
    | some u =>
      obtain ⟨q, hq, x, hx, -⟩ := nearestWritten?_sound hu
      cases mem_singleton.mp hq
      rw [h.edge] at hx
      rcases hx with ⟨hw, -⟩ | ⟨-, hx⟩
      · simp [Graph.Writes, h.written, hv, h.pending_entry hr v] at hw
      · obtain ⟨p, hp, -⟩ := lastAt_iff.mp hx
        exact absurd hp hr.rooted.not_edge_entry
  out_index p hp v u hu := by
    rw [h.isSome_index hr.toFresh]
    exact h.out_mem_definedTemps hr hp hu
  read_phi b v t d ht hd := by
    rcases h.dest hd with hread | ⟨hnone, -⟩
    · exact Option.some.inj (hread.symm.trans ht)
    · exact absurd (hnone.symm.trans ht) (by simp)
  read p b v t hpb ht hphi := h.read_eq hr hpb ht hphi

end Decided

/-- The stages of SSA construction from the numbering of blocks to that of temporaries. -/
def ssaStages (fn : Func) : Except Fault Func := do
  let placed ← fn.placeStages
  let resolved ← placed.resolveReads
  let decided ← resolved.computePhis
  return decided.numberAll

/-- A function that is ready is brought to SSA form. -/
theorem Ready.exists_ssaForm (hr : fn.Ready) : ∃ start placed res cur σ,
    fn.ssaStages = .ok cur.numberAll ∧ fn.Decided start placed res cur σ := by
  obtain ⟨start, placed, res, σ, hres, h⟩ := hr.exists_renamed
  obtain ⟨cur, hcur, hd⟩ := h.exists_decided hr
  refine ⟨start, placed, res, cur, σ, ?_, hd⟩
  have hstages : fn.ssaStages = ((fn.placeStages >>= resolveReads) >>= fun resolved =>
      resolved.computePhis >>= fun decided => pure decided.numberAll) := by
    rw [bind_assoc]
    rfl
  rw [hstages, hres, ok_bind, hcur, ok_bind]
  rfl

end SsaBlocks.Func
