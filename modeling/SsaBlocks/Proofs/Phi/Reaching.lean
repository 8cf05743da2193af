import SsaBlocks.Proofs.Func.Ready
import SsaBlocks.Proofs.Phi.Renaming

/-!
# Reaching values

For each variable there is a temporary that has its value on leaving a block, if any has: the one
that the block writes, the result of its phi node, or the one from before, which is the same for
all parents. Temporaries are ranked by the place of the block they come from in the order of the
blocks; what reaches a block without a phi node is of lower rank than what the block makes.
-/

namespace SsaBlocks.Func

open SsaBlocks.Flow

variable {fn start placed : Func} {b c p x y : BlockId} {v w : Variable} {t u : Temp}

/-! ## What placement does to a function that is ready -/

namespace WithPhis

section Placed

variable (h : fn.WithPhis start placed)
include h

theorem code (b : BlockId) : (placed.block b).code = (fn.block b).code :=
  (congrArg Block.code (h.placed.rest b)).trans (congrArg Block.code (h.analysed.rest b) :)

theorem alive (b : BlockId) : (placed.block b).alive = (fn.block b).alive :=
  (congrArg Block.alive (h.placed.rest b)).trans (congrArg Block.alive (h.analysed.rest b) :)

theorem index (hb : b ∈ fn.canonicalOrder) :
    (placed.block b).index = some (fn.canonicalOrder.idxOf b) :=
  (congrArg Block.index (h.placed.rest b)).trans (h.analysed.index b hb)

theorem edge : placed.Edge = fn.Edge := h.sameShape.edge

theorem written (b : BlockId) (v : Variable) : (placed.block b).written.get? v =
      ((fn.block b).written.get? v).or ((placed.block b).pending.get? v) := by
  have hsame : (start.block b).written = (fn.block b).written :=
    (congrArg Block.written (h.analysed.rest b) :)
  rw [h.placed.written, hsame]

theorem awaited (b : BlockId) (v : Variable) :
    (placed.block b).awaited.get? v = if ((placed.block b).pending.get? v).isSome then none
      else (fn.block b).awaited.get? v := by
  have hsame : (start.block b).awaited = (fn.block b).awaited :=
    (congrArg Block.awaited (h.analysed.rest b) :)
  rw [h.placed.awaited, hsame]

theorem awaited_placed (ht : (placed.block b).awaited.get? v = some t) :
    (placed.block b).pending.get? v = none ∧ fn.Makes (.read b v) t := by
  rw [h.awaited] at ht
  split at ht
  · cases ht
  · rename_i hnone
    exact ⟨by simpa using hnone, ht⟩

theorem startTemps : start.temps = fn.temps := by
  rw [← h.analysed.eq]

theorem dest {t : Nat} (ht : (placed.block b).pending.get? v = some t) :
    fn.Makes (.read b v) t ∨
      (fn.block b).awaited.get? v = none ∧ fn.temps.size ≤ t ∧ t < placed.temps.size := by
  have hsame : (start.block b).awaited = (fn.block b).awaited :=
    (congrArg Block.awaited (h.analysed.rest b) :)
  have hdest := h.placed.dest b v t ht
  rw [hsame, h.startTemps] at hdest
  exact hdest

theorem writes_of_writes (hb : fn.Writes v b) : placed.Writes v b := by
  rw [Graph.Writes, h.written, Option.isSome_or, Bool.or_eq_true]
  exact .inl hb

end Placed

section Fresh

variable (h : fn.WithPhis start placed) (hf : fn.Fresh)
include h hf

/-- The result of a phi node is the placeholder of the read in its place, or new. -/
theorem makes_dest {s : Source} (ht : (placed.block b).pending.get? v = some t)
    (hs : fn.Makes s t) : s = .read b v := by
  rcases h.dest ht with hread | ⟨-, hle, -⟩
  · exact hf.single _ _ t hs hread
  · exact absurd (hf.lt_of_makes hs) (Nat.not_lt.mpr hle)

theorem separate : placed.Separate :=
  h.placed.separate (separate_of_forgetAnalysis h.analysed.eq h.analysed.rest hf.toSeparate)

theorem dest_unique (hb : (placed.block b).pending.get? v = some t)
    (hc : (placed.block c).pending.get? w = some t) : b = c ∧ v = w := by
  have hsep := h.separate hf
  cases hsep.eq (.phis b) (.phis c) t (Table.mem_values_of_get? hb) (Table.mem_values_of_get? hc)
  exact ⟨rfl, Table.Injective.of_nodup_values (hsep.nodup (.phis b)) v w t hb hc⟩

end Fresh

/-- Where the value of a variable on leaving a block was written is unique, and on every way. -/
theorem lastBy_unique (h : fn.WithPhis start placed) (hr : fn.Rooted) (hb : b ∈ fn.canonicalOrder)
    (hx : LastBy fn.Edge (placed.Writes v) x b) (hy : LastBy fn.Edge (placed.Writes v) y b) :
    x = y := by
  rcases hx with ⟨hw, rfl⟩ | ⟨hw, hx⟩
  · rcases hy with ⟨-, rfl⟩ | ⟨hw', -⟩
    · rfl
    · exact absurd hw hw'
  · rcases hy with ⟨hw', -⟩ | ⟨-, hy⟩
    · exact absurd hw' hw
    · exact (h.settled hr v).unique hx hy (fun hp => hw (h.writes_of_hasPhi hp))
        (reachable_of_mem_canonicalOrder hb)

theorem nearestWritten?_eq (h : fn.WithPhis start placed) (hr : fn.Rooted)
    (hb : b ∈ fn.canonicalOrder) (hx : LastBy fn.Edge (placed.Writes v) x b) :
    placed.nearestWritten? v [b] = (placed.block x).written.get? v := by
  rw [← h.edge] at hx
  obtain ⟨t, ht⟩ := nearestWritten?_complete (List.mem_singleton_self b) hx
  obtain ⟨q, hq, y, hy, hyt⟩ := nearestWritten?_sound ht
  cases List.mem_singleton.mp hq
  rw [h.edge] at hx hy
  rw [h.lastBy_unique hr hb hx hy, ht, hyt]

/-- With no phi node in a block, all of its parents bring the value of the same block. -/
theorem lastBy_of_lastAt (h : fn.WithPhis start placed) (hr : fn.Rooted) (hpb : fn.Edge p b)
    (hnone : (placed.block b).pending.get? v = none)
    (hx : LastAt fn.Edge (placed.Writes v) x b) : LastBy fn.Edge (placed.Writes v) x p := by
  obtain ⟨hp, hb⟩ := hr.edge_mem hpb
  have hphi : ¬ placed.HasPhi v b := by simp [Graph.HasPhi, hnone]
  have hdom := ((h.settled hr v).strictlyDominates hx hphi).pred hpb
  have hlast : ∃ y, LastBy fn.Edge (placed.Writes v) y p := by
    by_cases hw : placed.Writes v p
    · exact ⟨p, .inl ⟨hw, rfl⟩⟩
    · obtain ⟨l, hl⟩ := reachable_of_mem_canonicalOrder hp
      rcases hdom l hl with hmem | rfl
      · obtain ⟨y, hy⟩ := exists_lastAt hl ⟨x, hmem, hx.1⟩
        exact ⟨y, .inr ⟨hw, hy⟩⟩
      · exact absurd hx.1 hw
  obtain ⟨y, hy⟩ := hlast
  have hyb : LastAt fn.Edge (placed.Writes v) y b := lastAt_iff.mpr ⟨p, hpb, hy⟩
  rwa [(h.settled hr v).unique hx hyb hphi (reachable_of_mem_canonicalOrder hb)]

theorem nearestWritten?_edge (h : fn.WithPhis start placed) (hr : fn.Rooted) (hpb : fn.Edge p b)
    (hnone : (placed.block b).pending.get? v = none)
    (hwritten : (fn.block b).written.get? v = none) :
    placed.nearestWritten? v [b] = placed.nearestWritten? v [p] := by
  obtain ⟨hp, hb⟩ := hr.edge_mem hpb
  have hw : ¬ placed.Writes v b := by simp [Graph.Writes, h.written, hwritten, hnone]
  cases ht : placed.nearestWritten? v [p] with
  | some t =>
    obtain ⟨q, hq, x, hx, hxt⟩ := nearestWritten?_sound ht
    cases List.mem_singleton.mp hq
    rw [h.edge] at hx
    rw [h.nearestWritten?_eq hr hb (.inr ⟨hw, lastAt_iff.mpr ⟨p, hpb, hx⟩⟩), hxt]
  | none =>
    cases hu : placed.nearestWritten? v [b] with
    | none => rfl
    | some u =>
      obtain ⟨q, hq, x, hx, hxu⟩ := nearestWritten?_sound hu
      cases List.mem_singleton.mp hq
      rw [h.edge] at hx
      have hxb := (hx.resolve_left fun k => hw k.1).2
      rw [h.nearestWritten?_eq hr hp (h.lastBy_of_lastAt hr hpb hnone hxb), hxu] at ht
      cases ht

end WithPhis

/-! ## Ranks -/

/-- The temporary is a placeholder, an instruction's result or a phi node's result in the block. -/
def Produces (fn placed : Func) (b : BlockId) (t : Temp) : Prop :=
  (∃ v, fn.Makes (.read b v) t) ∨ (∃ i, fn.Makes (.result b i) t) ∨
    ∃ v, (placed.block b).pending.get? v = some t

open Classical in
/-- Zero for parameters, and else one more than the index of the block a temporary comes from. -/
noncomputable def blockRank (fn placed : Func) (t : Temp) : Nat :=
  if h : ∃ b, b ∈ fn.canonicalOrder ∧ fn.Produces placed b t then
    fn.canonicalOrder.idxOf h.choose + 1 else 0

namespace WithPhis

section Rank

variable (h : fn.WithPhis start placed) (hf : fn.Fresh)
include h hf

theorem produces_unique (hb : fn.Produces placed b t) (hc : fn.Produces placed c t) : b = c := by
  rcases hb with ⟨v, hv⟩ | ⟨i, hi⟩ | ⟨v, hv⟩ <;> rcases hc with ⟨w, hw⟩ | ⟨j, hj⟩ | ⟨w, hw⟩
  · cases hf.single _ _ t hv hw
    rfl
  · cases hf.single _ _ t hv hj
  · cases h.makes_dest hf hw hv
    rfl
  · cases hf.single _ _ t hi hw
  · cases hf.single _ _ t hi hj
    rfl
  · cases h.makes_dest hf hw hi
  · cases h.makes_dest hf hv hw
    rfl
  · cases h.makes_dest hf hv hj
  · exact (h.dest_unique hf hv hw).1

theorem blockRank_of_produces (hb : b ∈ fn.canonicalOrder) (ht : fn.Produces placed b t) :
    fn.blockRank placed t = fn.canonicalOrder.idxOf b + 1 := by
  have hex : ∃ b, b ∈ fn.canonicalOrder ∧ fn.Produces placed b t := ⟨b, hb, ht⟩
  rw [blockRank, dif_pos hex, h.produces_unique hf hex.choose_spec.2 ht]

theorem blockRank_param {i : Nat} (ht : fn.Makes (.param i) t) : fn.blockRank placed t = 0 := by
  rw [blockRank, dif_neg]
  rintro ⟨b, -, ⟨v, hv⟩ | ⟨j, hj⟩ | ⟨v, hv⟩⟩
  · cases hf.single _ _ t ht hv
  · cases hf.single _ _ t ht hj
  · cases h.makes_dest hf hv ht

theorem blockRank_available (hr : fn.Rooted) {n : Nat} (hb : b ∈ fn.canonicalOrder)
    (ht : fn.Available b n t) : fn.blockRank placed t ≤ fn.canonicalOrder.idxOf b + 1 := by
  have hle : ∀ c, Dominates fn.Edge fn.entry c b → fn.Produces placed c t →
      fn.blockRank placed t ≤ fn.canonicalOrder.idxOf b + 1 := by
    intro c hc hprod
    rw [h.blockRank_of_produces hf (hr.dominator_mem hc hb) hprod]
    by_cases hcb : c = b
    · rw [hcb]
    · exact Nat.succ_le_succ (Nat.le_of_lt (idxOf_lt_of_strictlyDominates ⟨hc, hcb⟩ hb))
  obtain ⟨s, hs, hbefore⟩ := ht
  match s, hs, hbefore with
  | .param i, hs, _ =>
    rw [h.blockRank_param hf hs]
    exact Nat.zero_le _
  | .read c v, hs, hc => exact hle c hc (.inl ⟨v, hs⟩)
  | .result c i, hs, .inl hc => exact hle c (hc.1 ▸ .refl c) (.inr (.inl ⟨i, hs⟩))
  | .result c i, hs, .inr hc => exact hle c hc.1 (.inr (.inl ⟨i, hs⟩))

theorem blockRank_written (hr : fn.Ready) (hb : b ∈ fn.canonicalOrder)
    (hu : (placed.block b).written.get? v = some u) :
    fn.blockRank placed u ≤ fn.canonicalOrder.idxOf b + 1 := by
  rw [h.written] at hu
  cases hw : (fn.block b).written.get? v with
  | some t =>
    obtain rfl : t = u := by simpa [hw] using hu
    exact h.blockRank_available hf hr.rooted hb (hr.written b hb v t hw)
  | none =>
    rw [hw, Option.none_or] at hu
    exact Nat.le_of_eq (h.blockRank_of_produces hf hb (.inr (.inr ⟨v, hu⟩)))

end Rank

section Ready

variable (h : fn.WithPhis start placed) (hr : fn.Ready)
include h hr

/-- What reaches a block is of lower rank than what the block makes. -/
theorem blockRank_lastAt (hb : b ∈ fn.canonicalOrder)
    (hnone : (placed.block b).pending.get? v = none)
    (hx : LastAt fn.Edge (placed.Writes v) x b) (hu : (placed.block x).written.get? v = some u) :
    fn.blockRank placed u ≤ fn.canonicalOrder.idxOf b := by
  have hphi : ¬ placed.HasPhi v b := by simp [Graph.HasPhi, hnone]
  have hdom := (h.settled hr.rooted v).strictlyDominates hx hphi
  have hle := h.blockRank_written hr.toFresh hr (hr.rooted.dominator_mem hdom.1 hb) hu
  exact hle.trans (idxOf_lt_of_strictlyDominates hdom hb)

theorem readsDescend : placed.ReadsDescend (fn.blockRank placed) := by
  intro b hb v t ht x u hx hu
  rw [h.order] at hb
  rw [h.edge] at hx
  obtain ⟨hnone, hread⟩ := h.awaited_placed ht
  rw [h.blockRank_of_produces hr.toFresh hb (.inl ⟨v, hread⟩)]
  exact Nat.lt_succ_of_le (h.blockRank_lastAt hr hb hnone hx hu)

/-- Where a variable is live there is a value of it. -/
theorem exists_lastAt_of_liveIn (hb : b ∈ fn.canonicalOrder) (hlive : fn.LiveIn v b) :
    ∃ x, LastAt fn.Edge (placed.Writes v) x b := by
  obtain ⟨l, hl⟩ := reachable_of_mem_canonicalOrder hb
  obtain ⟨x, hx, hw⟩ := hr.exists_writes hlive hl
  exact exists_lastAt hl ⟨x, hx, h.writes_of_writes hw⟩

/-- A variable that is alive in a block has a value on leaving it. -/
theorem exists_lastBy_of_alive (hb : b ∈ fn.canonicalOrder) (halive : v ∈ (fn.block b).alive) :
    ∃ x, LastBy fn.Edge (placed.Writes v) x b := by
  obtain ⟨x, hx, l, hl⟩ := hr.alive b hb v halive
  by_cases hw : placed.Writes v b
  · exact ⟨b, .inl ⟨hw, rfl⟩⟩
  · cases hl with
    | nil => exact absurd (h.writes_of_writes hx) hw
    | cons hab hwalk =>
      obtain ⟨y, hy⟩ := exists_lastAt (.cons hab hwalk) ⟨x, by simp, h.writes_of_writes hx⟩
      exact ⟨y, .inr ⟨hw, hy⟩⟩

end Ready

end WithPhis

end SsaBlocks.Func
