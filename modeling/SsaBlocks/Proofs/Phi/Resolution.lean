import SsaBlocks.Proofs.Func.Substitution
import SsaBlocks.Proofs.Phi.Analysis

/-!
# Resolving all reads

The blocks are resolved in canonical order. A block in which a read is resolved comes after the
block that the value is taken from, which strictly dominates it.

## Main results

* `Func.resolveBlock_takes_reaching_value`: what a placeholder is replaced by
-/

namespace SsaBlocks

open SsaBlocks.Flow List

namespace Func

variable {fn start placed cur : Func} {all : Substitution} {done : List BlockId}
  {b c x : BlockId} {v w : Variable} {t u : Temp}

/-- Every placeholder stands for one variable in one block. -/
def DistinctReads (fn : Func) : Prop :=
  ∀ b v c w t, (fn.block b).awaited.get? v = some t → (fn.block c).awaited.get? w = some t →
    b = c ∧ v = w

theorem DistinctReads.injective (h : fn.DistinctReads) (b : BlockId) :
    (fn.block b).awaited.Injective :=
  fun v w t hv hw => (h b v b w t hv hw).2

/-- Placing phi nodes takes placeholders away only. -/
theorem WithPhis.distinctReads (h : fn.WithPhis start cur) (hd : fn.DistinctReads) :
    cur.DistinctReads := by
  have hawaited : ∀ b v t, (cur.block b).awaited.get? v = some t →
      (fn.block b).awaited.get? v = some t := by
    intro b v t ht
    have hsame : (start.block b).awaited = (fn.block b).awaited :=
      (congrArg Block.awaited (h.analysed.rest b) :)
    rw [h.placed.awaited, hsame] at ht
    split at ht
    · cases ht
    · exact ht
  exact fun b v c w t hv hw => hd b v c w t (hawaited b v t hv) (hawaited c w t hw)

end Func

/-- The block with the values that were found in the place of its placeholders. -/
def Block.takeReads (found : Substitution) (blk : Block) : Block :=
  { (blk.substituteWritten found.apply).substituteCode found.apply with awaited := .empty }

namespace Func

variable {fn start placed cur cur' : Func} {all all' : Substitution} {done : List BlockId}
  {b c x : BlockId} {v w : Variable} {t u : Temp}

theorem resolveBlock_eq (cur : Func) (all : Substitution) (b : BlockId) :
    resolveBlock (cur, all) b = (cur.findReads b >>= fun found =>
      pure (cur.modify b (Block.takeReads found), all.merge found)) := rfl

/-- What was found for the placeholders of a block: for each of them, the value that a block which
is last on a walk has for its variable, or what that value has been replaced by. -/
structure Found (placed : Func) (b : BlockId) (all found : Substitution) : Prop where
  sub : ∀ t u, found.get? t = some u → all.get? t = some u
  keys : ∀ t u, found.get? t = some u → ∃ v, (placed.block b).awaited.get? v = some t
  value : ∀ v t, (placed.block b).awaited.get? v = some t →
    ∃ x u u', LastAt placed.Edge (placed.Writes v) x b ∧
      (placed.block x).written.get? v = some u ∧ found.get? t = some u' ∧
      (u' = u ∨ all.get? u = some u')

/-- The blocks in `done` have been resolved; `all` has the replacements that were made. -/
structure Resolved (placed : Func) (done : List BlockId) (cur : Func) (all : Substitution) :
    Prop where
  edits : placed.Edits cur
  undone : ∀ b ∉ done, cur.block b = placed.block b
  block : ∀ b ∈ done, ∃ found, cur.block b = (placed.block b).takeReads found ∧
    placed.Found b all found
  keys : ∀ t u, all.get? t = some u →
    ∃ b ∈ done, ∃ v, (placed.block b).awaited.get? v = some t

/-- What resolving needs of a function: reads that can be told apart, and an order of its blocks in
which single parents come first. -/
structure Resolvable (fn : Func) : Prop where
  distinct : fn.DistinctReads
  climbs : fn.ClimbsIn fn.order
  nodup : fn.order.Nodup
  lt : ∀ b ∈ fn.order, b < fn.blocks.size

theorem Resolvable.length_le (h : fn.Resolvable) : fn.order.length ≤ fn.blocks.size :=
  Graph.length_le_of_lt h.nodup h.lt

theorem WithPhis.resolvable (h : fn.WithPhis start cur) (hr : fn.Rooted)
    (hd : fn.DistinctReads) : cur.Resolvable := by
  have hshape := h.sameShape
  have horder : cur.order = cur.canonicalOrder := h.order.trans hshape.canonicalOrder.symm
  have hr' := hr.sameShape hshape
  exact ⟨h.distinctReads hd, horder ▸ climbsIn_canonicalOrder hr'.entry_parents,
    horder ▸ nodup_canonicalOrder cur, fun b hb => hr'.lt_of_mem (horder ▸ hb)⟩

namespace Resolved

theorem refl (placed : Func) : placed.Resolved [] placed .empty :=
  ⟨.refl _, fun _ _ => rfl, by simp, fun t u h => by cases h⟩

variable (h : placed.Resolved done cur all)
include h

/-- A block that has been resolved writes the same variables. -/
theorem exists_takeReads (b : BlockId) : cur.block b = placed.block b ∨
      ∃ found, cur.block b = (placed.block b).takeReads found ∧ placed.Found b all found := by
  by_cases hb : b ∈ done
  · exact .inr (h.block b hb)
  · exact .inl (h.undone b hb)

theorem sameShape : placed.SameShape cur := by
  refine ⟨h.edits.entry, h.edits.size, fun b => ?_, fun b => ?_⟩
  · rcases h.exists_takeReads b with hb | ⟨found, hb, -⟩ <;> rw [hb]
    rfl
  · rcases h.exists_takeReads b with hb | ⟨found, hb, -⟩ <;> rw [hb]
    rfl

theorem written (hx : (cur.block b).written.get? v = some u) :
    ∃ u', (placed.block b).written.get? v = some u' ∧ (u = u' ∨ all.get? u' = some u) := by
  rcases h.exists_takeReads b with hb | ⟨found, hb, hfound⟩
  · exact ⟨u, hb ▸ hx, .inl rfl⟩
  · rw [hb] at hx
    obtain ⟨u', hu', rfl⟩ : ∃ u', (placed.block b).written.get? v = some u' ∧
        found.apply u' = u := by
      simpa [Block.takeReads, Block.substituteCode, Block.substituteWritten] using hx
    refine ⟨u', hu', ?_⟩
    cases hget : found.get? u' with
    | none => exact .inl (Substitution.apply_of_none hget)
    | some z => exact .inr (by rw [Substitution.apply_of_some hget]; exact hfound.sub u' z hget)

theorem writes : cur.Writes = placed.Writes := by
  funext v b
  rcases h.exists_takeReads b with hb | ⟨found, hb, -⟩
  · rw [Graph.Writes, Graph.Writes, hb]
  · rw [Graph.Writes, Graph.Writes, hb]
    simp [Block.takeReads, Block.substituteCode, Block.substituteWritten]

theorem climbsIn (hup : placed.ClimbsIn placed.order) : cur.ClimbsIn placed.order :=
  fun b hb p hp => hup b hb p (h.sameShape.parents b ▸ hp)

/-- Resolving one more block. -/
theorem step (hp : placed.Resolvable) (hb : b ∈ placed.order)
    (hbd : b ∉ done) (hok : resolveBlock (cur, all) b = .ok (cur', all')) :
    placed.Resolved (done ++ [b]) cur' all' := by
  rw [resolveBlock_eq] at hok
  obtain ⟨found, hfound, hpair⟩ := bind_eq_ok.mp hok
  obtain ⟨rfl, rfl⟩ := Prod.mk.inj (Except.ok.inj hpair)
  have hsame := h.undone b hbd
  have hlen : placed.order.length ≤ cur.blocks.size := h.edits.size ▸ hp.length_le
  have hinj : (cur.block b).awaited.Injective := hsame ▸ hp.distinct.injective b
  obtain ⟨hord, hvalue, hkeys⟩ := findReads_sound (h.climbsIn hp.climbs) hlen hb hinj hfound
  rw [hsame, h.sameShape.edge, h.writes] at hvalue
  rw [hsame] at hkeys
  have hmerge : ∀ t, (all.merge found).get? t = (found.get? t).or (all.get? t) :=
    Substitution.get?_merge hord
  -- the placeholders of this block are not among those replaced before
  have hmono : ∀ t u, all.get? t = some u → (all.merge found).get? t = some u := by
    intro t u ht
    have hnone : found.get? t = none := by
      by_contra hsome
      obtain ⟨z, hz⟩ := Option.ne_none_iff_exists'.mp hsome
      obtain ⟨v, hv⟩ := hkeys t z hz
      obtain ⟨c, hc, w, hw⟩ := h.keys t u ht
      exact hbd ((hp.distinct b v c w t hv hw).1 ▸ hc)
    rw [hmerge, hnone]
    exact ht
  have hself : (cur.modify b (Block.takeReads found)).block b =
      (placed.block b).takeReads found := by
    rw [block_modify_self (h.edits.size ▸ hp.lt b hb), hsame]
  have hother : ∀ c, c ≠ b → (cur.modify b (Block.takeReads found)).block c = cur.block c :=
    fun c hc => block_modify_ne (Ne.symm hc)
  refine ⟨h.edits.trans (.modify _ _ _), fun c hc => ?_, fun c hc => ?_, fun t u ht => ?_⟩
  · rw [mem_append, mem_singleton, not_or] at hc
    rw [hother c hc.2, h.undone c hc.1]
  · by_cases hcb : c = b
    · subst hcb
      refine ⟨found, hself, fun t u ht => by rw [hmerge, ht]; rfl, hkeys, fun v t ht => ?_⟩
      obtain ⟨x, u', hx, hu', hget⟩ := hvalue v t ht
      obtain ⟨u, hu, hchain⟩ := h.written hu'
      exact ⟨x, u, u', hx, hu, hget, hchain.imp_right (hmono u u')⟩
    · have hcd : c ∈ done := by simpa [hcb] using hc
      obtain ⟨found', hblock, hsub, hkeys', hvalue'⟩ := h.block c hcd
      refine ⟨found', by rw [hother c hcb, hblock], fun t u ht => hmono t u (hsub t u ht), hkeys',
        fun v t ht => ?_⟩
      obtain ⟨x, u, u', hx, hu, hget, hchain⟩ := hvalue' v t ht
      exact ⟨x, u, u', hx, hu, hget, hchain.imp_right (hmono u u')⟩
  · rw [hmerge] at ht
    cases hget : found.get? t with
    | some z =>
      obtain ⟨v, hv⟩ := hkeys t z hget
      exact ⟨b, by simp, v, hv⟩
    | none =>
      rw [hget] at ht
      obtain ⟨c, hc, w, hw⟩ := h.keys t u ht
      exact ⟨c, mem_append_left _ hc, w, hw⟩

end Resolved

theorem resolved_foldlM {rest : List BlockId} (hp : placed.Resolvable)
    (horder : placed.order = done ++ rest)
    (hok : done.foldlM resolveBlock (placed, .empty) = .ok (cur, all)) :
    placed.Resolved done cur all := by
  have hnodup := hp.nodup
  rw [horder] at hnodup
  exact foldlM_invariant (fun m s => placed.Resolved m s.1 s.2) hok (.refl placed)
    fun m a n s s' hdone hs hstep => by
      refine hs.step hp ?_ ?_ hstep
      · rw [horder, hdone]
        simp
      · intro ha
        have := (nodup_append.mp hnodup).1
        rw [hdone, nodup_append] at this
        exact this.2.2 a ha a (by simp) rfl

/-! ## The value of a placeholder -/

/-- Every walk from the entry to the block passes a block that writes the variable before. -/
def Covered (fn placed : Func) (v : Variable) (b : BlockId) : Prop :=
  ∀ l, Walk fn.Edge fn.entry b l → ∃ x ∈ l, placed.Writes v x

/-- A read without a phi node that is covered is reached from one block, a strict dominator. -/
theorem WithPhis.existsUnique_lastAt (h : fn.WithPhis start placed) (hr : fn.Rooted)
    (hb : b ∈ fn.canonicalOrder) (ht : (placed.block b).awaited.get? v = some t)
    (hcov : fn.Covered placed v b) :
    ∃ x, LastAt fn.Edge (placed.Writes v) x b ∧
      (∀ y, LastAt fn.Edge (placed.Writes v) y b → y = x) ∧
      StrictlyDominates fn.Edge fn.entry x b := by
  have hphi : ¬ placed.HasPhi v b := by
    intro hphi
    rw [Graph.HasPhi] at hphi
    rw [h.placed.awaited, if_pos hphi] at ht
    cases ht
  have hreach := reachable_of_mem_canonicalOrder hb
  have hsettled := h.settled hr v
  obtain ⟨l, hl⟩ := id hreach
  obtain ⟨x, hx⟩ := exists_lastAt hl (hcov l hl)
  exact ⟨x, hx, fun y hy => hsettled.unique hy hx hphi hreach, hsettled.strictlyDominates hx hphi⟩

/-- The graph of a function is connected: edges are known at both ends, none leads to the entry,
and every block that has an edge is reached by the canonical order. -/
structure Connected (fn : Func) : Prop where
  entry_lt : fn.entry < fn.blocks.size
  mutual_edges : ∀ a b, b ∈ (fn.block a).children ↔ a ∈ (fn.block b).parents
  entry_parents : (fn.block fn.entry).parents = []
  reached : ∀ b, b ∈ fn.canonicalOrder ∨ (fn.block b).parents = [] ∧ (fn.block b).children = []

theorem Connected.rooted (h : fn.Connected) : fn.Rooted where
  entry_lt := h.entry_lt
  entry_parents := h.entry_parents
  parents_mem b hb p hp := by
    refine (h.reached p).resolve_right ?_
    rintro ⟨-, hnil⟩
    have := (h.mutual_edges p b).mpr hp
    simp [hnil] at this
  orphan b hb := ((h.reached b).resolve_left hb).1
  children_lt b c hc := Graph.Edge.lt ((h.mutual_edges b c).mp hc)

/-- After its phi nodes have been placed, a function is resolved block by block. A placeholder of a
variable that every walk from the entry has written before is replaced by what the variable holds
in one block: the only one from which the read is reached past no other block that writes the
variable, and a strict dominator. -/
theorem resolveBlock_takes_reaching_value (hc : fn.Connected) (hd : fn.DistinctReads)
    (hp : ∀ b, (fn.block b).pending = .empty) :
    ∃ placed, fn.placeStages = .ok placed ∧
      ∀ R ∈ placed.order, ∀ v t, (placed.block R).awaited.get? v = some t →
        fn.Covered placed v R →
        ∃ X, LastAt fn.Edge (placed.Writes v) X R ∧
          (∀ Y, LastAt fn.Edge (placed.Writes v) Y R → Y = X) ∧
          StrictlyDominates fn.Edge fn.entry X R ∧
          ∀ done rest cur all, placed.order = done ++ R :: rest →
            done.foldlM resolveBlock (placed, .empty) = .ok (cur, all) →
            ∃ u, (cur.block X).written.get? v = some u ∧
              (∀ cur' all', resolveBlock (cur, all) R = .ok (cur', all') →
                ∃ found, found.apply t = u ∧ cur'.block R = (cur.block R).takeReads found) ∧
              ((∀ w s, (placed.block R).awaited.get? w = some s → fn.Covered placed w R) →
                ∃ result, resolveBlock (cur, all) R = .ok result) := by
  have hr := hc.rooted
  obtain ⟨start, placed, hok, hplaced⟩ := exists_placeStages hr hp
  have hres := hplaced.resolvable hr hd
  have hshape := hplaced.sameShape
  refine ⟨placed, hok, fun R hR v t ht hcov => ?_⟩
  rw [hplaced.order] at hR
  obtain ⟨X, hX, hunique, hdom⟩ := hplaced.existsUnique_lastAt hr hR ht hcov
  refine ⟨X, hX, hunique, hdom, fun done rest cur all horder hfold => ?_⟩
  have hcur := resolved_foldlM hres horder hfold
  have hR' : R ∈ placed.order := hplaced.order ▸ hR
  have hnot : R ∉ done := by
    have hnodup := hres.nodup
    rw [horder, nodup_append] at hnodup
    exact fun hmem => hnodup.2.2 R hmem R (by simp) rfl
  have hsame := hcur.undone R hnot
  have hlen : placed.order.length ≤ cur.blocks.size := hcur.edits.size ▸ hres.length_le
  have hinj : (cur.block R).awaited.Injective := hsame ▸ hres.distinct.injective R
  have hedge : cur.Edge = fn.Edge := hcur.sameShape.edge.trans hshape.edge
  have hwrites := hcur.writes
  obtain ⟨u, hu⟩ : ∃ u, (cur.block X).written.get? v = some u := by
    have : cur.Writes v X := by
      rw [hwrites]
      exact hX.1
    exact Option.isSome_iff_exists.mp this
  refine ⟨u, hu, fun cur' all' hstep => ?_, fun hall => ?_⟩
  · rw [resolveBlock_eq] at hstep
    obtain ⟨found, hfound, hpair⟩ := bind_eq_ok.mp hstep
    obtain ⟨rfl, -⟩ := Prod.mk.inj (Except.ok.inj hpair)
    refine ⟨found, ?_, block_modify_self (hcur.edits.size ▸ hres.lt R hR')⟩
    -- the search finds a value from some last writer, and there is only one
    obtain ⟨-, hvalue, -⟩ := findReads_sound (hcur.climbsIn hres.climbs) hlen hR' hinj hfound
    rw [hsame, hedge, hwrites] at hvalue
    obtain ⟨Y, z, hY, hz, hget⟩ := hvalue v t ht
    rw [hunique Y hY, hu] at hz
    rw [Substitution.apply_of_some hget]
    exact (Option.some.inj hz).symm
  · obtain ⟨found, hfound⟩ := exists_findReads (hcur.climbsIn hres.climbs) hlen hR' hinj
      fun w s hs => by
        rw [hsame] at hs
        obtain ⟨Y, hY, -⟩ := hplaced.existsUnique_lastAt hr hR hs (hall w s hs)
        exact ⟨Y, by rw [hedge, hwrites]; exact hY⟩
    exact ⟨_, by rw [resolveBlock_eq, hfound, ok_bind]; rfl⟩

/-- Whether edges are known at both ends and every block that has one is reached, by inspection of
the blocks that there are. -/
def isConnected (fn : Func) : Bool :=
  decide (fn.entry < fn.blocks.size) && (fn.block fn.entry).parents.isEmpty &&
    (range fn.blocks.size).all fun a =>
      (fn.block a).children.all (fun b => decide (a ∈ (fn.block b).parents)) &&
        (fn.block a).parents.all (fun b => decide (a ∈ (fn.block b).children)) &&
        (decide (a ∈ fn.canonicalOrder) ||
          (fn.block a).parents.isEmpty && (fn.block a).children.isEmpty)

theorem connected_of_isConnected (h : fn.isConnected = true) : fn.Connected := by
  simp only [isConnected, Bool.and_eq_true, Bool.or_eq_true, List.all_eq_true, decide_eq_true_eq,
    List.isEmpty_iff, List.mem_range] at h
  obtain ⟨⟨hentry, hparents⟩, hall⟩ := h
  refine ⟨hentry, fun a b => ⟨fun hb => ?_, fun ha => ?_⟩, hparents, fun b => ?_⟩
  · by_cases hs : a < fn.blocks.size
    · exact (hall a hs).1.1 b hb
    · rw [Graph.block_of_size_le (Nat.not_lt.mp hs)] at hb
      cases hb
  · exact (hall b (Graph.Edge.lt ha)).1.2 a ha
  · by_cases hs : b < fn.blocks.size
    · exact (hall b hs).2
    · rw [Graph.block_of_size_le (Nat.not_lt.mp hs)]
      exact .inr ⟨rfl, rfl⟩

/-- A variable for examples. -/
def counter : Variable := { id := 1, name := "n", kind := .localVar, type := .int }

/-- A loop whose header reads a variable that is written before the loop. -/
def readInLoop : Func :=
  { name := "f", params := [], resultType := .int
    blocks := #[
      { children := [1], code := [.const 0 .int 7], written := ⟨[(counter, 0)]⟩ },
      { parents := [2, 0], children := [2, 3], code := [.branch 1 2 3]
        awaited := ⟨[(counter, 1)]⟩ },
      { parents := [1], children := [1], code := [.jump 1] },
      { parents := [1], code := [.ret (some 0)] }]
    temps := #[{}, {}] }

theorem resolveBlock_readInLoop : ∃ placed, readInLoop.placeStages = .ok placed ∧
    ∃ X, LastAt readInLoop.Edge (placed.Writes counter) X 1 ∧
      StrictlyDominates readInLoop.Edge readInLoop.entry X 1 := by
  have hblock : ∀ b, 4 ≤ b → readInLoop.block b = {} := fun b hb =>
    Graph.block_of_size_le hb
  have hreads : readInLoop.DistinctReads := by
    have hawaited : ∀ b v t, (readInLoop.block b).awaited.get? v = some t → b = 1 ∧ v = counter := by
      intro b v t ht
      match b with
      | 0 | 2 | 3 => cases ht
      | 1 =>
        by_cases hv : counter = v
        · exact ⟨rfl, hv.symm⟩
        · simp [readInLoop, Graph.block, Table.get?, Table.find?, hv] at ht
      | b + 4 =>
        rw [hblock _ (Nat.le_add_left 4 b)] at ht
        cases ht
    intro b v c w t hv hw
    obtain ⟨rfl, rfl⟩ := hawaited b v t hv
    obtain ⟨rfl, rfl⟩ := hawaited c w t hw
    exact ⟨rfl, rfl⟩
  have hpending : ∀ b, (readInLoop.block b).pending = .empty := by
    intro b
    rcases Nat.lt_or_ge b 4 with hb | hb
    · have hempty : ∀ b < 4, (readInLoop.block b).pending = .empty := by decide
      exact hempty b hb
    · rw [hblock b hb]
      rfl
  have hvalues : readInLoop.placeStages.toOption.map (fun p =>
      (p.order, (p.block 1).awaited.get? counter, (p.block 0).written.get? counter)) =
      some ([0, 1, 2, 3], some 1, some 0) := by decide
  obtain ⟨placed, hok, hall⟩ := resolveBlock_takes_reaching_value
    (connected_of_isConnected (by decide)) hreads hpending
  rw [hok] at hvalues
  obtain ⟨horder, hawaited, hwritten⟩ : placed.order = [0, 1, 2, 3] ∧
      (placed.block 1).awaited.get? counter = some 1 ∧
      (placed.block 0).written.get? counter = some 0 := by
    simpa [Except.toOption] using hvalues
  have hcovered : readInLoop.Covered placed counter 1 := by
    intro l hl
    cases hl with
    | cons _ _ => exact ⟨0, mem_cons_self .., by simp [Graph.Writes, hwritten]⟩
  obtain ⟨X, hX, -, hdom, -⟩ := hall 1 (by simp [horder]) counter 1 hawaited hcovered
  exact ⟨placed, hok, X, hX, hdom⟩

end Func

end SsaBlocks
