import SsaBlocks.Pipeline
import SsaBlocks.Proofs.Func.Established

/-!
# Functions that have been filled

Once no block is open any more, a function is what SSA construction takes for granted: each block
has been reached from one that is older, and is left in one way. If the variables that blocks read
before writing them are established, the variables that are live in a block are in scope there,
because a block inherits the variables of its owner.
-/

namespace SsaBlocks.Func

open SsaBlocks.Flow List

variable {fn : Func} {a b c : BlockId} {v : Variable} {u : Temp} {x : Exit}

/-- A function of which no block is open. -/
structure Filled (fn : Func) : Prop where
  formed : fn.Formed
  exits : fn.Exits 0
  stage : fn.stage = .lowering

/-- A variable that a block reads before writing it is established there, and declared elsewhere. -/
def Settled (fn : Func) : Prop :=
  ∀ b v u, (fn.block b).awaited.get? v = some u →
    fn.Established v b ∧ v ∉ (fn.block b).declared

/-- The shape of a graph that has been filled: parents and children are mutual and not repeated, all
blocks are reached from the entry and younger than their owners, and each is left in one way. -/
structure WellFormed (fn : Func) : Prop where
  entry_parents : (fn.block fn.entry).parents = []
  mem_parents : ∀ a b, a ∈ (fn.block b).parents ↔ b ∈ (fn.block a).children
  nodup_parents : ∀ b, (fn.block b).parents.Nodup
  nodup_children : ∀ b, (fn.block b).children.Nodup
  reachable : ∀ b, b < fn.blocks.size ↔ Reachable fn.Edge fn.entry b
  owner : ∀ b, b < fn.blocks.size → b ≠ fn.entry → ∃ o, (fn.block b).owner? = some o ∧ o < b
  exit : ∀ b, b < fn.blocks.size → ∃! x, fn.LeavesBy b x

/-- The block ends in an instruction that leads to its children, its only end, or it falls through to
its one child, which it owns. -/
inductive Departs (fn : Func) (b : BlockId) : Prop
  | ends (code : List Instruction) (i : Instruction) (hcode : Unended code)
    (heq : (fn.block b).code = code ++ [i]) (hi : i.isTerminator = true)
    (hchildren : ∀ c, c ∈ (fn.block b).children ↔ c ∈ i.targets)
  | falls (c : BlockId) (hcode : Unended (fn.block b).code)
    (hchildren : (fn.block b).children = [c]) (howner : (fn.block c).owner? = some b)

theorem LeavesBy.departs (h : fn.LeavesBy b x) : fn.Departs b := by
  obtain ⟨code, hcode, heq⟩ := h.code
  have hchildren := h.children
  cases x with
  | fall c =>
    obtain rfl : (fn.block b).code = code := by simpa [Exit.instruction?] using heq
    exact .falls c hcode hchildren (h.owns c rfl)
  | _ => exact .ends code _ hcode heq rfl fun c => by rw [hchildren]; rfl

namespace Departs

/-- Only the last instruction of a block ends it. -/
theorem ends_iff (h : fn.Departs b) {n : Nat} {i : Instruction}
    (hi : (fn.block b).code[n]? = some i) (hend : i.isTerminator = true) :
    n + 1 = (fn.block b).code.length ∧ ∀ c, c ∈ (fn.block b).children ↔ c ∈ i.targets := by
  cases h with
  | falls c hcode =>
    rw [hcode i (mem_of_getElem? hi)] at hend
    cases hend
  | ends code j hcode heq _ hchildren =>
    rw [heq, getElem?_append] at hi
    split at hi
    · rw [hcode i (mem_of_getElem? hi)] at hend
      cases hend
    · rw [getElem?_singleton] at hi
      split at hi
      · obtain rfl := Option.some.inj hi
        refine ⟨?_, hchildren⟩
        rw [heq, length_append, length_singleton]
        omega
      · cases hi

theorem targets_subset (h : fn.Departs b) {i : Instruction} (hi : i ∈ (fn.block b).code)
    (hc : c ∈ i.targets) : c ∈ (fn.block b).children := by
  have hend : i.isTerminator = true := by
    cases i <;> first | rfl | simp [Instruction.targets] at hc
  obtain ⟨n, hn⟩ := getElem?_of_mem hi
  exact ((h.ends_iff hn hend).2 c).mpr hc

theorem exists_fall (h : fn.Departs b) (hcode : Unended (fn.block b).code) :
    ∃ c, (fn.block b).children = [c] ∧ (fn.block c).owner? = some b := by
  cases h with
  | falls c _ hchildren howner => exact ⟨c, hchildren, howner⟩
  | ends code i _ heq hi =>
    rw [hcode i (by simp [heq])] at hi
    cases hi

theorem exists_owns (h : fn.Departs b) (hend : (fn.block b).isTerminated = false) :
    ∃ c, fn.Owns b c := by
  cases h with
  | falls c _ hchildren howner => exact ⟨c, owns_iff.mpr ⟨by simp [hchildren], howner⟩⟩
  | ends code i _ heq hi =>
    have hcode : i.isCode = true := by cases i <;> first | rfl | cases hi
    simp [Block.isTerminated, heq, hcode, hi] at hend

end Departs

/-- If all blocks are in the canonical order, they form a graph of their own. -/
theorem Wired.rooted (h : fn.Wired) (hentry : (fn.block fn.entry).parents = [])
    (hmem : ∀ b, b < fn.blocks.size → b ∈ fn.canonicalOrder) : fn.Rooted where
  entry_lt := h.entry_lt
  entry_parents := hentry
  parents_mem _ _ p hp := hmem p (h.edge_lt hp)
  orphan b hb := by
    by_contra hparents
    obtain ⟨p, hp⟩ := exists_mem_of_ne_nil _ hparents
    exact hb (hmem b (Graph.Edge.lt hp))
  children_lt b c hc := ((h.edge b c).mp hc).lt

/-- A graph that can be run is ready, if it needs nothing that is not there. -/
theorem Kept.ready (h : fn.Kept) (hentry : (fn.block fn.entry).parents = [])
    (hmem : ∀ b, b < fn.blocks.size → b ∈ fn.canonicalOrder)
    (hdeparts : ∀ b ∈ fn.canonicalOrder, fn.Departs b)
    (hoperands : ∀ b n i, (fn.block b).code[n]? = some i → ∀ t ∈ i.operands, fn.Available b n t)
    (hwritten : ∀ b v t, (fn.block b).written.get? v = some t →
      fn.Available b (fn.block b).code.length t)
    (hlive : ∀ b ∈ fn.canonicalOrder, ∀ v, fn.LiveIn v b → fn.inScope v b)
    (hlive_entry : ∀ v, ¬ fn.LiveIn v fn.entry) : fn.Ready where
  toFresh := h.fresh
  rooted := h.wired.rooted hentry hmem
  counts a b := (h.wired.counts a b).ge
  targets b hb i hi c hc := (h.wired.edge b c).mp ((hdeparts b hb).targets_subset hi hc)
  ends b hb n i hi hend := ((hdeparts b hb).ends_iff hi hend).1
  falls b hb := (hdeparts b hb).exists_fall
  operands b _ := hoperands b
  written b _ := hwritten b
  alive b _ := h.sustained.alive b
  live := hlive
  live_entry := hlive_entry

/-- The last block does not fall through: it would own a later one. -/
theorem closeVoid_of_departs (hentry : (fn.block fn.entry).parents = [])
    (h : ∀ b ∈ fn.canonicalOrder, fn.Departs b) : Build.closeVoid fn = (.ok (), fn) := by
  have hlast : (fn.block (fn.canonicalOrder.getLastD fn.entry)).isTerminated = true := by
    have hne : fn.canonicalOrder ≠ [] := ne_nil_of_mem (canonicalOrder_closed fn).1
    rw [getLastD_eq_getLast?, getLast?_eq_some_getLast hne, Option.getD_some]
    generalize hlast : fn.canonicalOrder.getLast hne = last
    have hmem : last ∈ fn.canonicalOrder := hlast ▸ getLast_mem hne
    by_contra hend
    obtain ⟨c, howns⟩ := (h last hmem).exists_owns (Bool.eq_false_iff.mpr hend)
    have hcmem := (canonicalOrder_closed fn).2 last hmem c howns
    rcases exists_owner_before hcmem with rfl | ⟨o, -, ho, hlt⟩
    · -- the entry has no owner
      have howner := (owns_iff.mp howns).2
      rw [Block.owner?, hentry] at howner
      cases howner
    · have heq : o = last :=
        Option.some.inj ((owns_iff.mp ho).2.symm.trans (owns_iff.mp howns).2)
      have hlength := idxOf_lt_length_of_mem hcmem
      have hidx : fn.canonicalOrder.idxOf last = fn.canonicalOrder.length - 1 := by
        rw [← hlast, getLast_eq_getElem]
        exact (nodup_canonicalOrder fn).idxOf_getElem _ _
      rw [heq] at hlt
      omega
  rw [closeVoid_apply, closed]
  simp only [hlast, if_true]

namespace Filled

variable (h : fn.Filled)
include h

theorem exists_leavesBy (hb : b < fn.blocks.size) : ∃ x, fn.LeavesBy b x :=
  h.exits.closed b hb (by simp)

/-- A chain of owners, each older than the one before, leads to the entry. -/
theorem mem_canonicalOrder (hb : b < fn.blocks.size) : b ∈ fn.canonicalOrder := by
  induction b using Nat.strongRecOn with
  | ind b ih =>
    by_cases hentry : b = fn.entry
    · rw [hentry]
      exact (canonicalOrder_closed fn).1
    · obtain ⟨o, ho, hlt⟩ := h.formed.linked.owner b hb hentry
      refine (canonicalOrder_closed fn).2 o (ih o hlt (hlt.trans hb)) b (owns_iff.mpr ⟨?_, ho⟩)
      exact (h.formed.wired.edge o b).mpr (mem_of_getLast? ho)

theorem wellFormed : fn.WellFormed where
  entry_parents := h.formed.linked.entry_parents
  mem_parents a b := (h.formed.wired.edge a b).symm
  nodup_parents := h.formed.linked.nodup_parents
  nodup_children := h.formed.nodup_children
  reachable b := by
    constructor
    · intro hb
      exact reachable_of_mem_canonicalOrder (h.mem_canonicalOrder hb)
    · rintro ⟨l, hl⟩
      rcases hl.eq_nil_or_snoc with ⟨-, rfl⟩ | ⟨m, a, -, -, hab⟩
      · exact h.formed.wired.entry_lt
      · exact Graph.Edge.lt hab
  owner := h.formed.linked.owner
  exit b hb := by
    obtain ⟨x, hx⟩ := h.exists_leavesBy hb
    exact ⟨x, hx, fun y hy => hy.unique hx⟩

theorem departs (hb : b ∈ fn.canonicalOrder) : fn.Departs b :=
  (h.exists_leavesBy (mem_canonicalOrder_lt hb h.formed.wired.entry_lt)).elim fun _ => (·.departs)

theorem closeVoid : Build.closeVoid fn = (.ok (), fn) :=
  closeVoid_of_departs h.formed.linked.entry_parents fun _ => h.departs

/-! ## Variables -/

/-- A walk to a block where a variable is live meets a block that declares it before. -/
theorem exists_declared_before (hs : fn.Settled) (hlive : fn.LiveIn v b)
    {l : List BlockId} (hl : Walk fn.Edge fn.entry b l) : ∃ x ∈ l, v ∈ (fn.block x).declared := by
  obtain ⟨r, m, hm, hwrites, u, hu⟩ := hlive
  obtain ⟨hestablished, hundeclared⟩ := hs r v u hu
  rcases hestablished (l ++ m) (hl.append hm) with ⟨x, hx, hv⟩ | hv
  · rcases mem_append.mp hx with hx | hx
    · exact ⟨x, hx, hv⟩
    · exact absurd (h.formed.inherits.declared_written x v hv) (hwrites x hx)
  · exact absurd hv hundeclared

/-- A variable that has been declared on a chain of owners is alive at its end. -/
theorem alive_of_walk {l : List BlockId} (hl : Walk fn.Owns a b l)
    (hv : v ∈ (fn.block a).alive) : v ∈ (fn.block b).alive := by
  induction hl with
  | nil => exact hv
  | cons hac _ ih => exact ih (h.formed.inherits.inherited _ _ v (owns_iff.mp hac).2 hv)

theorem alive_of_declared (hb : b ∈ fn.canonicalOrder)
    (hv : ∀ l, Walk fn.Edge fn.entry b l → (∃ x ∈ l, v ∈ (fn.block x).declared) ∨
      v ∈ (fn.block b).declared) : v ∈ (fn.block b).alive := by
  obtain ⟨l, hl⟩ := Func.mem_canonicalOrder.mp hb
  rcases hv l (hl.mono fun _ _ howns => howns.edge) with ⟨x, hx, hv⟩ | hv
  · obtain ⟨m, n, rfl⟩ := append_of_mem hx
    exact h.alive_of_walk hl.split.2 (h.formed.inherits.declared_alive x v hv)
  · exact h.formed.inherits.declared_alive b v hv

theorem inScope_of_liveIn (hs : fn.Settled) (hb : b ∈ fn.canonicalOrder)
    (hlive : fn.LiveIn v b) : fn.inScope v b = true := by
  refine inScope_iff.mpr ⟨h.alive_of_declared hb fun l hl => ?_, fun p hp => ?_⟩
  · exact .inl (h.exists_declared_before hs hlive hl)
  · have hpb : fn.Edge p b := hp
    refine h.alive_of_declared (h.mem_canonicalOrder (h.formed.wired.edge_lt hpb)) fun l hl => ?_
    obtain ⟨x, hx, hv⟩ := h.exists_declared_before hs hlive (hl.snoc hpb)
    rcases mem_append.mp hx with hx | hx
    · exact .inl ⟨x, hx, hv⟩
    · rw [mem_singleton.mp hx] at hv
      exact .inr hv

/-- A function that has been filled is ready for SSA construction. -/
theorem ready (hs : fn.Settled) : fn.Ready := by
  refine h.formed.toKept.ready h.formed.linked.entry_parents (fun _ => h.mem_canonicalOrder)
    (fun _ => h.departs) h.formed.sourced.operands h.formed.sourced.written
    (fun _ hb _ => h.inScope_of_liveIn hs hb) fun v hlive => ?_
  obtain ⟨x, hx, -⟩ := h.exists_declared_before hs hlive (.nil _)
  simp at hx

end Filled

end SsaBlocks.Func
