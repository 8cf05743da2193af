import SsaBlocks.Proofs.SingleAssignment

/-!
# Phi nodes are copied together

When a block of a finished function is entered, the result of each phi node takes what the register
of its value held before, also where that is the result of another phi node, and in whatever order
the phi nodes stand. If one of them cannot be read, no register changes.

## Main results

* `Frame.enterPhis_eq_inPlace`: entering a block in place comes to the same
* `Func.Built.enterPhis_copies`: phi nodes are copied together, or no register changes
-/

namespace SsaBlocks

/-! ## Registers in place -/

namespace Frame

/-- Sets phi nodes one after the other: how that ended and what the registers hold then. -/
def writeEach (fn : Func) : List (Phi × Int64) → Array Int64 → Except Halt Unit × Array Int64
  | [], regs => (.ok (), regs)
  | e :: rest, regs =>
    match write fn regs e.1.dest e.2 with
    | .ok regs => writeEach fn rest regs
    | .error halt => (.error halt, regs)

/-- Enters a block with registers that are changed in place. -/
def enterInPlace (fn : Func) (regs : Array Int64) (b : BlockId) (previous : Option BlockId) :
    Except Halt Unit × Array Int64 :=
  match (fn.block b).phis.mapM (phiValue fn regs b previous) with
  | .ok values => writeEach fn ((fn.block b).phis.zip values) regs
  | .error halt => (.error halt, regs)

variable {fn : Func} {regs : Array Int64} {b : BlockId} {previous : Option BlockId}

theorem foldlM_write_eq (l : List (Phi × Int64)) (regs : Array Int64) :
    l.foldlM (fun regs e => write fn regs e.1.dest e.2) regs =
      (writeEach fn l regs).1.map fun _ => (writeEach fn l regs).2 := by
  induction l generalizing regs with
  | nil => rfl
  | cons e rest ih =>
    rw [List.foldlM_cons, writeEach]
    cases write fn regs e.1.dest e.2 with
    | ok regs => exact ih regs
    | error halt => rfl

theorem enterPhis_eq_inPlace : enterPhis fn regs b previous =
    (enterInPlace fn regs b previous).1.map fun _ => (enterInPlace fn regs b previous).2 := by
  rw [enterPhis, enterInPlace]
  cases (fn.block b).phis.mapM (phiValue fn regs b previous) with
  | ok values => exact foldlM_write_eq _ regs
  | error halt => rfl

theorem enterInPlace_eq_ok {regs' : Array Int64}
    (h : enterPhis fn regs b previous = .ok regs') :
    enterInPlace fn regs b previous = (.ok (), regs') := by
  rw [enterPhis_eq_inPlace] at h
  generalize enterInPlace fn regs b previous = done at h ⊢
  obtain ⟨_ | _, regs''⟩ := done
  · cases h
  · cases h
    rfl

theorem read_eq_ok {t : Temp} {w : Int64} :
    read fn regs t = .ok w ↔ ∃ j, fn.tempIndex? t = some j ∧ regs[j]? = some w := by
  rw [read, register]
  cases fn.tempIndex? t with
  | none =>
    constructor
    · intro h
      cases h
    · rintro ⟨_, h, -⟩
      cases h
  | some j =>
    simp only [ok_bind, Option.some.injEq, exists_eq_left']
    cases regs[j]? with
    | none => simp [throw, throwThe, MonadExceptOf.throw]
    | some w' => simp [pure, Except.pure]

theorem phiValue_eq_ok {n : Phi} {w : Int64} : phiValue fn regs b previous n = .ok w ↔
    ∃ e, n.edges.find? (fun e => some e.1 = previous) = some e ∧ read fn regs e.2 = .ok w := by
  unfold phiValue
  cases n.edges.find? fun e => some e.1 = previous with
  | none => simp
  | some e => simp

end Frame

/-! ## Copies -/

namespace Func

variable {fn : Func} {regs regs' regs'' : Array Int64} {b : BlockId} {previous : Option BlockId}
  {nodes nodes' : List Phi}

/-- The results of the phi nodes hold what the registers of their values on the edge from `previous`
held before, and the other registers are as they were. -/
structure Copied (fn : Func) (nodes : List Phi) (previous : Option BlockId)
    (regs regs' : Array Int64) : Prop where
  size : regs'.size = regs.size
  result : ∀ n ∈ nodes, ∃ e i j w, n.edges.find? (fun e => some e.1 = previous) = some e ∧
    fn.tempIndex? n.dest = some i ∧ fn.tempIndex? e.2 = some j ∧ regs[j]? = some w ∧
    regs'[i]? = some w
  other : ∀ i, (∀ n ∈ nodes, fn.tempIndex? n.dest ≠ some i) → regs'[i]? = regs[i]?

theorem Copied.unique (h : fn.Copied nodes previous regs regs')
    (h' : fn.Copied nodes previous regs regs'') : regs' = regs'' := by
  refine Array.ext_getElem? fun i => ?_
  by_cases hi : ∃ n ∈ nodes, fn.tempIndex? n.dest = some i
  · obtain ⟨n, hn, hi⟩ := hi
    obtain ⟨e, i₁, j, w, he, hi₁, hj, hw, hset⟩ := h.result n hn
    obtain ⟨e', i₂, j', w', he', hi₂, hj', hw', hset'⟩ := h'.result n hn
    cases hi.symm.trans hi₁
    cases hi.symm.trans hi₂
    cases he.symm.trans he'
    cases hj.symm.trans hj'
    rw [hset, hset', ← hw, hw']
  · simp only [not_exists, not_and] at hi
    rw [h.other i hi, h'.other i hi]

theorem Copied.perm (h : fn.Copied nodes previous regs regs') (hp : nodes'.Perm nodes) :
    fn.Copied nodes' previous regs regs' where
  size := h.size
  result n hn := h.result n (hp.mem_iff.mp hn)
  other i hi := h.other i fun n hn => hi n (hp.mem_iff.mpr hn)

/-- The phi nodes of the block can be set in the registers, each in one of its own. -/
structure Settable (fn : Func) (b : BlockId) (regs : Array Int64) : Prop extends Registered fn where
  index : ∀ n ∈ (fn.block b).phis, (fn.tempIndex? n.dest).isSome
  nodup : ((fn.block b).phis.map Phi.dest).Nodup
  size : regs.size = fn.temporaryCount

namespace Settable

variable (h : fn.Settable b regs)
include h

theorem exists_copied
    (hread : ∀ n ∈ (fn.block b).phis, ∃ w, Frame.phiValue fn regs b previous n = .ok w) :
    ∃ regs', Frame.enterPhis fn regs b previous = .ok regs' ∧
      fn.Copied (fn.block b).phis previous regs regs' := by
  have hvalues : ∀ n ∈ (fn.block b).phis, Frame.phiValue fn regs b previous n =
      .ok ((Frame.phiValue fn regs b previous n).toOption.getD 0) := by
    intro n hn
    obtain ⟨w, hw⟩ := hread n hn
    rw [hw]
    rfl
  obtain ⟨regs', henter, hsize, hdests, hkeep⟩ :=
    h.exists_enterPhis hvalues h.index h.nodup h.size
  refine ⟨regs', henter, hsize.trans h.size.symm, fun n hn => ?_, hkeep⟩
  obtain ⟨e, he, hread⟩ := Frame.phiValue_eq_ok.mp (hvalues n hn)
  obtain ⟨j, hj, hw⟩ := Frame.read_eq_ok.mp hread
  obtain ⟨i, hi⟩ := Option.isSome_iff_exists.mp (h.index n hn)
  exact ⟨e, i, j, _, he, hi, hj, hw, hdests n hn i hi⟩

theorem enterPhis_eq_ok : Frame.enterPhis fn regs b previous = .ok regs' ↔
    fn.Copied (fn.block b).phis previous regs regs' := by
  constructor
  · intro henter
    obtain ⟨values, hvalues, -⟩ := bind_eq_ok.mp henter
    obtain ⟨regs'', henter', hcopied⟩ := h.exists_copied (forall_of_mapM_eq_ok hvalues)
    rwa [← Except.ok.inj (henter.symm.trans henter')] at hcopied
  · intro hcopied
    obtain ⟨regs'', henter, hcopied'⟩ := h.exists_copied fun n hn => by
      obtain ⟨e, i, j, w, he, -, hj, hw, -⟩ := hcopied.result n hn
      exact ⟨w, Frame.phiValue_eq_ok.mpr ⟨e, he, Frame.read_eq_ok.mpr ⟨j, hj, hw⟩⟩⟩
    rw [henter, hcopied.unique hcopied']

/-- A block that cannot be entered has changed no register. -/
theorem enterInPlace_eq_error {halt : Halt} (herror : Frame.enterPhis fn regs b previous = .error halt) :
    Frame.enterInPlace fn regs b previous = (.error halt, regs) := by
  cases hread : (fn.block b).phis.mapM (Frame.phiValue fn regs b previous) with
  | error halt' =>
    rw [Frame.enterPhis, hread] at herror
    rw [Frame.enterInPlace, hread, Except.error.inj herror]
  | ok values =>
    obtain ⟨regs', henter, -⟩ := h.exists_copied (forall_of_mapM_eq_ok hread)
    cases henter.symm.trans herror

end Settable

/-- The function with other phi nodes in a block. -/
def withPhis (fn : Func) (b : BlockId) (nodes : List Phi) : Func :=
  fn.modify b fun blk => { blk with phis := nodes }

theorem phis_withPhis (hp : nodes.Perm (fn.block b).phis) :
    ((fn.withPhis b nodes).block b).phis = nodes := by
  by_cases hb : b < fn.blocks.size
  · rw [withPhis, block_modify_self hb]
  · rw [Graph.block_of_size_le (by simpa using hb)] at hp
    rw [Graph.block_of_size_le (by simpa [withPhis] using hb), hp.eq_nil]

theorem Settable.withPhis (h : fn.Settable b regs) (hp : nodes.Perm (fn.block b).phis) :
    (fn.withPhis b nodes).Settable b regs := by
  have hphis := phis_withPhis hp
  refine ⟨⟨h.inj, h.lt⟩, fun n hn => ?_, ?_, h.size⟩
  · rw [hphis] at hn
    exact h.index n (hp.mem_iff.mp hn)
  · rw [hphis]
    exact (hp.map _).nodup_iff.mpr h.nodup

theorem DenselyNumbered.settable (h : fn.DenselyNumbered) (hb : b ∈ fn.order)
    (hsize : regs.size = fn.temporaryCount) : fn.Settable b regs := by
  have hdefines : ∀ (i : Nat) (n : Phi), (fn.block b).phis[i]? = some n →
      fn.Defines (.phi b i) n.dest := fun i n hi => ⟨hb, n, hi, rfl⟩
  refine ⟨⟨h.injective, fun t i hi => (h.dense i).mpr ⟨t, hi⟩⟩, fun n hn => ?_, ?_, hsize⟩
  · obtain ⟨i, hi⟩ := List.getElem?_of_mem hn
    exact Option.isSome_iff_exists.mpr ((h.numbered n.dest).mpr ⟨_, hdefines i n hi⟩)
  · rw [List.Nodup, List.pairwise_map, List.pairwise_iff_getElem]
    intro i j hi hj hij heq
    have hd := hdefines i _ (List.getElem?_eq_getElem hi)
    rw [heq] at hd
    cases h.single _ _ _ hd (hdefines j _ (List.getElem?_eq_getElem hj))
    exact Nat.lt_irrefl _ hij

/-- Entering a block of a finished function sets its phi nodes together, whatever the registers hold
and in whatever order the phi nodes stand; if the block cannot be entered, no register changes. -/
theorem Built.enterPhis_copies (h : fn.Built) {fin : Func} (hfin : fn.finish = .ok fin)
    (hb : b ∈ fin.order) (previous : Option BlockId) (regs : Array Int64)
    (hregs : regs.size = fin.temporaryCount) :
    (∀ regs', Frame.enterPhis fin regs b previous = .ok regs' →
      Frame.enterInPlace fin regs b previous = (.ok (), regs') ∧
      fin.Copied (fin.block b).phis previous regs regs' ∧
      ∀ nodes, nodes.Perm (fin.block b).phis →
        Frame.enterPhis (fin.withPhis b nodes) regs b previous = .ok regs') ∧
    ∀ halt, Frame.enterPhis fin regs b previous = .error halt →
      Frame.enterInPlace fin regs b previous = (.error halt, regs) := by
  have hset := (h.numbered_finish hfin).settable hb hregs
  refine ⟨fun regs' henter => ?_, fun halt => hset.enterInPlace_eq_error⟩
  have hcopied := hset.enterPhis_eq_ok.mp henter
  refine ⟨Frame.enterInPlace_eq_ok henter, hcopied, fun nodes hp => (hset.withPhis hp).enterPhis_eq_ok.mpr ?_⟩
  rw [phis_withPhis hp]
  -- the order of the phi nodes plays no part in what is copied
  have hperm := hcopied.perm hp
  exact ⟨hperm.size, hperm.result, hperm.other⟩

/-- Another variable for examples. -/
def other : Variable := { counter with id := 2, name := "m" }

/-- A loop that swaps its two parameters, so that each phi node takes its value from the other. -/
def swapping : Func :=
  [.newBlock [0], .jump 0 1, .read 1 counter, .read 1 other, .newBlock [1], .newBlock [1],
    .branch 1 2 3 2, .read 2 counter, .read 2 other, .write 2 counter 5, .write 2 other 4,
    .addEdge 2 1, .jump 2 1, .read 3 other, .ret 3 (some 6)].foldl Primitive.apply
      (make "f" [counter, other] .int)

theorem swapping_copies : ∃ fin, swapping.finish = .ok fin ∧
    Frame.enterPhis fin #[7, 8, 7, 8] 1 (some 2) = .ok #[7, 8, 8, 7] ∧
    Frame.enterPhis (fin.withPhis 1 (fin.block 1).phis.reverse) #[7, 8, 7, 8] 1 (some 2) =
      .ok #[7, 8, 8, 7] ∧
    fin.Copied (fin.block 1).phis (some 2) #[7, 8, 7, 8] #[7, 8, 8, 7] := by
  have hvalues : (swapping.finish.toOption.map fun f => (f.order, f.temporaryCount,
      (Frame.enterPhis f #[7, 8, 7, 8] 1 (some 2)).toOption)) =
        some ([0, 1, 2, 3], 4, some #[7, 8, 8, 7]) := by decide +kernel
  cases hfin : swapping.finish with
  | error fault =>
    rw [hfin] at hvalues
    cases hvalues
  | ok fin =>
    rw [hfin] at hvalues
    obtain ⟨horder, hrest⟩ := Prod.mk.inj (Option.some.inj hvalues)
    obtain ⟨hcount, henter⟩ := Prod.mk.inj hrest
    rw [toOption_eq_some] at henter
    obtain ⟨-, hcopied, hperm⟩ := (Built.enterPhis_copies ⟨_, _, _, _, rfl⟩ hfin
      (by simp [horder]) (some 2) #[7, 8, 7, 8] hcount.symm).1 _ henter
    exact ⟨fin, rfl, henter, hperm _ (List.reverse_perm _), hcopied⟩

end Func

end SsaBlocks
