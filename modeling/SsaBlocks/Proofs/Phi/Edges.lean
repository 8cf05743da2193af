import SsaBlocks.Phi.Edges
import SsaBlocks.Proofs.Func.Substitution
import SsaBlocks.Proofs.Phi.Placement
import SsaBlocks.Proofs.Phi.Reads

/-!
# The phi nodes that are kept

A phi node is kept if its variable is in scope and dropped otherwise: it never stands for another
value, since a block that has phi nodes has two different parents. A phi node that is kept has an
edge from each parent, with the value of a block that is last on a walk to the end of the parent.
-/

namespace SsaBlocks

open SsaBlocks.Flow List

namespace Func

variable {fn fn' cur : Func} {b p x : BlockId} {v : Variable} {dest t : Temp}

/-- The value with which a variable leaves a block. -/
def valueOut (fn : Func) (v : Variable) (p : BlockId) : Temp :=
  (fn.nearestWritten? v [p]).getD 0

/-- The phi node for a variable in a block. -/
def phiNode (fn : Func) (b : BlockId) (v : Variable) (dest : Temp) : Phi :=
  { dest, var := v
    edges := (sortByKey fn.blockIndex (fn.block b).parents.eraseDups).map fun p =>
      (p, fn.valueOut v p) }

/-- The phi nodes of a block that are kept. -/
def keptPhis (fn : Func) (b : BlockId) : List Phi :=
  ((fn.block b).pending.entries.filter fun e => fn.inScope e.1 b).map fun e =>
    fn.phiNode b e.1 e.2

/-- Every phi node that is asked for stands where two different edges meet, and its variable has
reached both of them if it is in scope. -/
structure Meets (fn : Func) (b : BlockId) : Prop where
  index : ∀ p, fn.Edge p b → (fn.block p).index.isSome
  two : ∀ v, fn.HasPhi v b → ∃ p q, fn.Edge p b ∧ fn.Edge q b ∧ p ≠ q
  value : ∀ v p, fn.HasPhi v b → fn.inScope v b → fn.Edge p b →
    ∃ x, LastBy fn.Edge (fn.Writes v) x p

theorem valueFrom_eq (h : LastBy fn.Edge (fn.Writes v) x p) :
    fn.valueFrom v p = .ok (fn.valueOut v p) := by
  obtain ⟨t, ht⟩ := nearestWritten?_complete (mem_singleton_self p) h
  rw [valueFrom, valueOut, ht]
  rfl

theorem valueOut_spec (h : LastBy fn.Edge (fn.Writes v) x p) :
    ∃ y, LastBy fn.Edge (fn.Writes v) y p ∧
      (fn.block y).written.get? v = some (fn.valueOut v p) := by
  obtain ⟨t, ht⟩ := nearestWritten?_complete (mem_singleton_self p) h
  obtain ⟨q, hq, y, hy, hw⟩ := nearestWritten?_sound ht
  obtain rfl := mem_singleton.mp hq
  exact ⟨y, hy, by rw [valueOut, ht]; exact hw⟩

theorem Meets.edgeSources (h : fn.Meets b) :
    fn.edgeSources b = .ok (sortByKey fn.blockIndex (fn.block b).parents.eraseDups) := by
  have hnone : (fn.block b).parents.eraseDups.find? (fun p => (fn.block p).index.isNone) = none := by
    refine find?_eq_none.mpr fun p hp => ?_
    have := h.index p (mem_eraseDups.mp hp)
    simpa [Option.isNone_iff_eq_none, ← Option.isSome_iff_ne_none] using this
  rw [Func.edgeSources]
  simp only [hnone]

theorem lookup_map_of_mem {f : BlockId → Temp} {l : List BlockId} (hp : p ∈ l) :
    (l.map fun p => (p, f p)).lookup p = some (f p) := by
  induction l with
  | nil => cases hp
  | cons q l ih =>
    rw [map_cons, lookup_cons]
    by_cases hpq : p = q
    · simp [hpq]
    · rw [beq_eq_false_iff_ne.mpr hpq]
      exact ih (by simpa [hpq] using hp)

theorem edges_phiNode (fn : Func) (b : BlockId) (v : Variable) (dest : Temp) :
    (sortByKey fn.blockIndex (fn.block b).parents.eraseDups).map (fun p =>
      (p, (((fn.block b).parents.eraseDups.map fun p => (p, fn.valueOut v p)).lookup p).getD 0)) =
      (fn.phiNode b v dest).edges := by
  refine map_congr_left fun p hp => ?_
  rw [lookup_map_of_mem ((sortByKey_perm _ _).mem_iff.mp hp)]
  rfl

/-- A phi node is kept or dropped. -/
theorem Meets.phiFate (h : fn.Meets b) (hphi : fn.HasPhi v b) (dest : Temp) :
    fn.phiFate b v dest =
      .ok (if fn.inScope v b then .kept (fn.phiNode b v dest) else .dropped) := by
  by_cases hscope : fn.inScope v b
  · have hvalues : ((fn.block b).parents.eraseDups.mapM fun p => do
        return (p, ← fn.valueFrom v p)) =
        .ok ((fn.block b).parents.eraseDups.map fun p => (p, fn.valueOut v p)) := by
      refine mapM_eq_map fun p hp => ?_
      obtain ⟨x, hx⟩ := h.value v p hphi hscope (mem_eraseDups.mp hp)
      rw [valueFrom_eq hx]
      rfl
    have hedges := fn.edges_phiNode b v dest
    obtain ⟨p, q, hp, hq, hpq⟩ := h.two v hphi
    have hp' := mem_eraseDups.mpr hp
    have hq' := mem_eraseDups.mpr hq
    rw [Func.phiFate, if_neg (by simp [hscope]), hvalues, h.edgeSources, if_pos hscope]
    match hsources : (fn.block b).parents.eraseDups with
    | [] =>
      rw [hsources] at hp'
      cases hp'
    | [a] =>
      rw [hsources] at hp' hq'
      exact absurd ((mem_singleton.mp hp').trans (mem_singleton.mp hq').symm) hpq
    | a :: c :: rest =>
      rw [hsources] at hedges
      simp only [map_cons] at hedges ⊢
      rw [ok_bind]
      simp only [ok_bind, hedges]
      rfl
  · rw [Func.phiFate, if_pos (by simp [hscope]), if_neg hscope]
    rfl

/-- On entry from a parent, a phi node takes the value with which its variable leaves the parent. -/
theorem find?_phiNode (hp : fn.Edge p b) (v : Variable) (dest : Temp) :
    (fn.phiNode b v dest).edges.find? (fun e => some e.1 = some p) =
      some (p, fn.valueOut v p) := by
  have hmem : p ∈ sortByKey fn.blockIndex (fn.block b).parents.eraseDups :=
    (sortByKey_perm _ _).mem_iff.mpr (mem_eraseDups.mpr hp)
  rw [phiNode]
  generalize sortByKey fn.blockIndex (fn.block b).parents.eraseDups = l at hmem
  induction l with
  | nil => cases hmem
  | cons q l ih =>
    rw [map_cons, find?_cons]
    by_cases hqp : q = p
    · simp [hqp]
    · have hl : p ∈ l := by simpa [Ne.symm hqp] using hmem
      simpa [hqp] using ih hl

/-! ## All blocks -/

/-- A block without its phi nodes. -/
def forgetPhis (blk : Block) : Block :=
  { blk with phis := [] }

/-- Two functions differ in the phi nodes that have been kept only. -/
structure SamePhis (fn cur : Func) : Prop where
  size : cur.blocks.size = fn.blocks.size
  rest : ∀ b, forgetPhis (cur.block b) = forgetPhis (fn.block b)

namespace SamePhis

variable (h : fn.SamePhis cur)
include h

theorem parents (b : BlockId) : (cur.block b).parents = (fn.block b).parents :=
  (congrArg Block.parents (h.rest b) :)

theorem written (b : BlockId) : (cur.block b).written = (fn.block b).written :=
  (congrArg Block.written (h.rest b) :)

theorem pending (b : BlockId) : (cur.block b).pending = (fn.block b).pending :=
  (congrArg Block.pending (h.rest b) :)

theorem alive (b : BlockId) : (cur.block b).alive = (fn.block b).alive :=
  (congrArg Block.alive (h.rest b) :)

theorem index (b : BlockId) : (cur.block b).index = (fn.block b).index :=
  (congrArg Block.index (h.rest b) :)

theorem edge : cur.Edge = fn.Edge := by
  funext a b
  rw [Graph.Edge, Graph.Edge, h.parents]

theorem writes : cur.Writes = fn.Writes := by
  funext v b
  rw [Graph.Writes, Graph.Writes, h.written]

theorem hasPhi : cur.HasPhi = fn.HasPhi := by
  funext v b
  rw [Graph.HasPhi, Graph.HasPhi, h.pending]

theorem inScope : cur.inScope = fn.inScope := by
  funext v b
  simp only [Func.inScope, h.alive, h.parents]

theorem searchWritten (v : Variable) (steps : Nat) (seen queue : List BlockId) :
    cur.searchWritten v steps seen queue = fn.searchWritten v steps seen queue := by
  induction steps generalizing seen queue with
  | zero => rfl
  | succ steps ih =>
    cases queue with
    | nil => rfl
    | cons b queue => simp only [Func.searchWritten, h.written, h.parents, ih]

theorem nearestWritten? : cur.nearestWritten? = fn.nearestWritten? := by
  funext v start
  have hcount : cur.parentCount = fn.parentCount := by
    simp only [Graph.parentCount_eq, Graph.unseen, h.size, h.parents]
  rw [Func.nearestWritten?, Func.nearestWritten?, hcount, h.searchWritten]

theorem phiNode : cur.phiNode = fn.phiNode := by
  have hindex : cur.blockIndex = fn.blockIndex := by
    funext c
    rw [blockIndex, blockIndex, h.index]
  funext b v dest
  simp only [Func.phiNode, Func.valueOut, h.nearestWritten?, h.parents, hindex]

theorem keptPhis (b : BlockId) : cur.keptPhis b = fn.keptPhis b := by
  simp only [Func.keptPhis, h.pending, h.inScope, h.phiNode]

theorem meets (hb : fn.Meets b) : cur.Meets b := by
  refine ⟨fun p hp => ?_, fun v hv => ?_, fun v p hv hs hp => ?_⟩
  · rw [h.index]
    exact hb.index p (h.edge ▸ hp)
  · rw [h.edge]
    exact hb.two v (h.hasPhi ▸ hv)
  · rw [h.edge, h.writes]
    exact hb.value v p (h.hasPhi ▸ hv) (h.inScope ▸ hs) (h.edge ▸ hp)

end SamePhis

/-- Decides one phi node, with what has been decided before. -/
def decidePhi (fn : Func) (b : BlockId) (s : List Phi × Substitution) (e : Variable × Temp) :
    Except Fault (List Phi × Substitution) :=
  fn.phiFate b e.1 e.2 >>= fun
    | .kept node => pure (s.1 ++ [node], s.2)
    | .renamed dest value => pure (s.1, s.2.insert dest value)
    | .dropped => pure (s.1, s.2)

theorem computePhisIn_def (fn : Func) (dropped : Substitution) (b : BlockId) :
    computePhisIn (fn, dropped) b =
      ((fn.block b).pending.entries.foldlM (fn.decidePhi b) ([], dropped) >>= fun s =>
        pure (fn.modify b fun blk => { blk with phis := s.1 }, s.2)) := rfl

theorem computePhisIn_eq (h : fn.Meets b) (hord : (fn.block b).pending.Ordered)
    (dropped : Substitution) :
    computePhisIn (fn, dropped) b =
      .ok (fn.modify b fun blk => { blk with phis := fn.keptPhis b }, dropped) := by
  obtain ⟨s, hfold, rfl⟩ := exists_foldlM (l := (fn.block b).pending.entries)
    (s := (([], dropped) : List Phi × Substitution)) (f := fn.decidePhi b)
    (fun done s => s = ((done.filter fun e => fn.inScope e.1 b).map fun e =>
      fn.phiNode b e.1 e.2, dropped)) rfl (by
      rintro done ⟨v, dest⟩ rest _ hsplit rfl
      have hphi : fn.HasPhi v b := by
        rw [Graph.HasPhi, (hord.mem_entries (v := dest)).mp (by rw [hsplit]; simp)]
        rfl
      rw [decidePhi, h.phiFate hphi, ok_bind]
      by_cases hscope : fn.inScope v b
      · rw [if_pos hscope]
        exact ⟨_, rfl, by simp [hscope]⟩
      · rw [if_neg hscope]
        exact ⟨_, rfl, by simp [hscope]⟩)
  rw [computePhisIn_def, hfold]
  rfl

theorem substitute_empty (fn : Func) {l : List BlockId} (hl : l.Nodup)
    (hs : ∀ b ∈ l, b < fn.blocks.size) (c : BlockId) :
    (fn.substitute l .empty).block c = fn.block c := by
  have hid : (Substitution.close .empty).apply = id := rfl
  rw [substitute, block_foldl_modify (fun _ => Block.substitute _) hl hs, hid, Block.substitute_id,
    ite_self]

/-- The phi nodes of all blocks can be decided. -/
theorem exists_computePhis (hmeets : ∀ b ∈ fn.order, fn.Meets b)
    (hord : ∀ b, (fn.block b).pending.Ordered) (hnodup : fn.order.Nodup)
    (hlt : ∀ b ∈ fn.order, b < fn.blocks.size) :
    ∃ cur, fn.computePhis = .ok cur ∧ fn.Edits cur ∧
      ∀ b, cur.block b =
        if b ∈ fn.order then { fn.block b with phis := fn.keptPhis b } else fn.block b := by
  obtain ⟨⟨cur, dropped⟩, hfold, hdropped, hedits, hblock⟩ := exists_foldlM (l := fn.order)
    (s := (fn, Table.empty)) (f := computePhisIn)
    (fun done s => s.2 = Table.empty ∧ fn.Edits s.1 ∧ ∀ b, s.1.block b =
      if b ∈ done then { fn.block b with phis := fn.keptPhis b } else fn.block b)
    ⟨rfl, .refl fn, fun b => by simp⟩ (by
      rintro done b rest ⟨cur, _⟩ hsplit ⟨rfl, hedits, hblock⟩
      have hb : b ∈ fn.order := by
        rw [hsplit]
        simp
      have hsame : fn.SamePhis cur := by
        refine ⟨hedits.size, fun c => ?_⟩
        rw [hblock c]
        split <;> rfl
      have hstep := computePhisIn_eq (hsame.meets (hmeets b hb))
        (by rw [hsame.pending]; exact hord b) Table.empty
      refine ⟨_, hstep, rfl, hedits.trans (.modify _ _ _), fun c => ?_⟩
      by_cases hc : c = b
      · subst hc
        have hs : c < cur.blocks.size := hedits.size ▸ hlt c hb
        rw [block_modify_self hs, hsame.keptPhis, if_pos (by simp), hblock c]
        split <;> rfl
      · rw [block_modify_ne (Ne.symm hc), hblock c]
        simp [hc])
  have hlt' : ∀ b ∈ fn.order, b < cur.blocks.size := fun b hb => hedits.size ▸ hlt b hb
  have horder : cur.order = fn.order := hedits.order
  refine ⟨cur.substitute cur.order dropped, ?_,
    hedits.trans (.foldl (fun _ _ => .modify _ _ _) _ _), fun b => ?_⟩
  · rw [computePhis, hfold, ok_bind]
    rfl
  · obtain rfl : dropped = .empty := hdropped
    rw [horder, substitute_empty cur hnodup hlt', hblock b]

end Func

end SsaBlocks
