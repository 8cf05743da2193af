import SsaBlocks.Proofs.Func.Kept

/-!
# Functions that are being filled

What holds of a function from its start until it has been filled: its edges are known on both sides
and every block but the entry has an owner that is older; every temporary has one source and is used
where its source is known to have come before; and a variable that is alive has been written on the
way.

Each primitive keeps these conditions, if it is used as it should be. An edge may be added if its
target dominates its source, as the header of a loop does, or if nothing has been put into its
target yet.
-/

namespace SsaBlocks.Func

open SsaBlocks.Flow List

variable {fn fn' : Func} {a b c p s t : BlockId} {v w : Variable} {u : Temp} {n : Nat}

/-- The edges of a function that is being filled. -/
structure Linked (fn : Func) : Prop where
  entry_parents : (fn.block fn.entry).parents = []
  nodup_parents : ∀ b, (fn.block b).parents.Nodup
  owner : ∀ b, b < fn.blocks.size → b ≠ fn.entry →
    ∃ o, (fn.block b).owner? = some o ∧ o < b

/-- The temporaries of a function that is being filled. -/
structure Sourced (fn : Func) : Prop where
  operands : ∀ b n i, (fn.block b).code[n]? = some i → ∀ u ∈ i.operands, fn.Available b n u
  written : ∀ b v u, (fn.block b).written.get? v = some u →
    fn.Available b (fn.block b).code.length u
  constants : ∀ b k u, (k, u) ∈ (fn.block b).constants →
    ∃ n : Nat, (fn.block b).code[n]? = some (.const u k.1 k.2)

/-- The variables of a function that is being filled. -/
structure Inherits (fn : Func) : Prop where
  declared_written : ∀ b, ∀ v ∈ (fn.block b).declared, fn.Writes v b
  declared_alive : ∀ b, ∀ v ∈ (fn.block b).declared, v ∈ (fn.block b).alive
  inherited : ∀ b o v, (fn.block b).owner? = some o → v ∈ (fn.block o).alive →
    v ∈ (fn.block b).alive

/-- What holds of a function that is being filled. -/
structure Formed (fn : Func) : Prop extends Kept fn where
  linked : fn.Linked
  sourced : fn.Sourced
  inherits : fn.Inherits

/-! ## Edges -/

namespace Linked

theorem sameShape (h : fn.Linked) (hs : fn.SameShape fn') : fn'.Linked := by
  constructor
  · rw [hs.entry, hs.parents]
    exact h.entry_parents
  · intro b
    rw [hs.parents]
    exact h.nodup_parents b
  · intro b hb hne
    rw [Block.owner?, hs.parents]
    rw [hs.size] at hb
    rw [hs.entry] at hne
    exact h.owner b hb hne

/-- The last parent of a new block is its owner. -/
theorem addBlock {parents : List BlockId} (h : fn.Linked) (hw : fn.Wired) (hne : parents ≠ [])
    (hnodup : parents.Nodup) (hlt : ∀ p ∈ parents, p < fn.blocks.size) :
    (fn.addBlock parents).Linked := by
  have hblock := block_addBlock hnodup hlt
  have hentry : (fn.addBlock parents).entry = fn.entry := (edits_addBlock parents).entry
  constructor
  · rw [hentry, hblock, if_neg hw.entry_lt.ne]
    exact h.entry_parents
  · intro b
    rw [hblock]
    split
    · exact hnodup
    · exact h.nodup_parents b
  · intro b hb hbe
    rw [size_addBlock] at hb
    rw [hentry] at hbe
    rw [Block.owner?, hblock]
    split
    · next hb =>
      refine ⟨parents.getLast hne, getLast?_eq_some_getLast hne, ?_⟩
      rw [hb]
      exact hlt _ (getLast_mem hne)
    · next hb' => exact h.owner b (Nat.lt_of_le_of_ne (Nat.le_of_lt_succ hb) hb') hbe

/-- A later edge does not change the owner. -/
theorem addEdge (h : fn.Linked) (hs : s < fn.blocks.size) (ht : t < fn.blocks.size)
    (hte : t ≠ fn.entry) (hst : ¬ fn.Edge s t) : (fn.addEdge s t).Linked := by
  have hblock := block_addEdge hs ht
  constructor
  · change ((fn.addEdge s t).block fn.entry).parents = []
    rw [hblock, if_neg hte.symm]
    exact h.entry_parents
  · intro b
    rw [hblock]
    split
    · next hb => exact nodup_cons.mpr ⟨hb ▸ hst, h.nodup_parents b⟩
    · exact h.nodup_parents b
  · intro b hb hbe
    rw [size_addEdge] at hb
    obtain ⟨o, ho, hlt⟩ := h.owner b hb hbe
    refine ⟨o, ?_, hlt⟩
    rw [Block.owner?, hblock]
    split
    · rw [getLast?_cons]
      rw [Block.owner?] at ho
      simp [ho]
    · exact ho

end Linked

/-! ## Temporaries -/

theorem sameShape_contents {f : Block → Block}
    (hf : ∀ blk, (f blk).parents = blk.parents ∧ (f blk).children = blk.children) (b : BlockId) :
    fn.SameShape (fn.modify b f) :=
  ⟨rfl, size_modify .., fun _ => proj_block_modify Block.parents fun blk => (hf blk).1,
    fun _ => proj_block_modify Block.children fun blk => (hf blk).2⟩

/-- Nothing in the block needs a temporary from before. -/
def Blank (fn : Func) (b : BlockId) : Prop :=
  (∀ i ∈ (fn.block b).code, i.operands = []) ∧ (∀ v, (fn.block b).written.get? v = none) ∧
    ∀ v, (fn.block b).awaited.get? v = none

/-- A temporary stays available if its source is kept and dominance is. -/
theorem Available.of_makes (hmakes : ∀ s, fn.Makes s u → fn'.Makes s u)
    (hdom : ∀ a, Dominates fn.Edge fn.entry a b → Dominates fn'.Edge fn'.entry a b)
    (h : fn.Available b n u) : fn'.Available b n u := by
  obtain ⟨s, hs, hbefore⟩ := h
  refine ⟨s, hmakes s hs, ?_⟩
  cases s with
  | param i => trivial
  | read c v => exact hdom c hbefore
  | result c i =>
    rcases hbefore with hc | hc
    · exact .inl hc
    · exact .inr ⟨hdom c hc.1, hc.2⟩

namespace Sourced

/-- New edges keep the temporaries in order, if they keep what dominates the blocks that need some
from before. -/
theorem of_edges (h : fn.Sourced) (hparams : fn'.paramTemps = fn.paramTemps)
    (hblock : ∀ c, ∃ home parents children alive, fn'.block c =
      { fn.block c with home, parents, children, alive })
    (hdom : ∀ c, ¬ fn.Blank c → ∀ a, Dominates fn.Edge fn.entry a c →
      Dominates fn'.Edge fn'.entry a c) : fn'.Sourced := by
  have hproj : ∀ {β : Type} (π : Block → β), (∀ blk home parents children alive,
      π { blk with home, parents, children, alive } = π blk) → ∀ c,
      π (fn'.block c) = π (fn.block c) := by
    intro β π hπ c
    obtain ⟨home, parents, children, alive, hc⟩ := hblock c
    rw [hc, hπ]
  have hcode := hproj Block.code fun _ _ _ _ _ => rfl
  have hawaited := hproj Block.awaited fun _ _ _ _ _ => rfl
  have hwritten := hproj Block.written fun _ _ _ _ _ => rfl
  have hconstants := hproj Block.constants fun _ _ _ _ _ => rfl
  have havailable : ∀ c, ¬ fn.Blank c → ∀ n u, fn.Available c n u → fn'.Available c n u := by
    refine fun c hc n u => .of_makes (fun s hs => ?_) (hdom c hc)
    cases s <;> simpa only [Makes, hcode, hawaited, hparams] using hs
  constructor
  case operands =>
    intro c n i hi u hu
    rw [hcode] at hi
    refine havailable c (fun hblank => ?_) n u (h.operands c n i hi u hu)
    rw [hblank.1 i (mem_of_getElem? hi)] at hu
    simp at hu
  case written =>
    intro c v u hu
    rw [hwritten] at hu
    rw [hcode]
    refine havailable c (fun hblank => ?_) _ u (h.written c v u hu)
    rw [hblank.2.1 v] at hu
    cases hu
  case constants =>
    intro c k u hu
    rw [hconstants] at hu
    rw [hcode]
    exact h.constants c k u hu

/-- Contents that are put into one block keep the temporaries in order if what they use is
available. -/
theorem of_contents {f : Block → Block} (h : fn.Sourced) (hb : b < fn.blocks.size)
    (hplace : ∀ blk, (f blk).parents = blk.parents ∧ (f blk).children = blk.children)
    (hold : ∀ s u, fn.Makes s u → (fn.modify b f).Makes s u)
    (hoperands : ∀ (n : Nat) i, (f (fn.block b)).code[n]? = some i →
      ∀ u ∈ i.operands, fn.Available b n u)
    (hwritten : ∀ v u, (f (fn.block b)).written.get? v = some u →
      fn.Available b (f (fn.block b)).code.length u)
    (hconstants : ∀ k u, (k, u) ∈ (f (fn.block b)).constants →
      ∃ n : Nat, (f (fn.block b)).code[n]? = some (.const u k.1 k.2)) :
    (fn.modify b f).Sourced := by
  have hself : (fn.modify b f).block b = f (fn.block b) := block_modify_self hb
  have hother : ∀ c, c ≠ b → (fn.modify b f).block c = fn.block c := fun c hc =>
    block_modify_ne (Ne.symm hc)
  have hshape : fn.SameShape (fn.modify b f) := sameShape_contents hplace b
  have havailable : ∀ c n u, fn.Available c n u → (fn.modify b f).Available c n u := by
    intro c n u
    refine .of_makes (fun s => hold s u) fun a ha => ?_
    rw [hshape.edge, hshape.entry]
    exact ha
  constructor
  case operands =>
    intro c n i hi u hu
    refine havailable c n u ?_
    by_cases hc : c = b
    · subst hc
      rw [hself] at hi
      exact hoperands n i hi u hu
    · rw [hother c hc] at hi
      exact h.operands c n i hi u hu
  case written =>
    intro c v u hu
    refine havailable c _ u ?_
    by_cases hc : c = b
    · subst hc
      rw [hself] at hu ⊢
      exact hwritten v u hu
    · rw [hother c hc] at hu ⊢
      exact h.written c v u hu
  case constants =>
    intro c k u hu
    by_cases hc : c = b
    · subst hc
      rw [hself] at hu ⊢
      exact hconstants k u hu
    · rw [hother c hc] at hu ⊢
      exact h.constants c k u hu

/-- Values are put into one block, which does not make temporaries. -/
theorem of_values {f : Block → Block} (h : fn.Sourced) (hb : b < fn.blocks.size)
    (hplace : ∀ blk, (f blk).parents = blk.parents ∧ (f blk).children = blk.children)
    (hcode : ∀ blk, (f blk).code = blk.code) (hawaited : ∀ blk, (f blk).awaited = blk.awaited)
    (hwritten : ∀ v u, (f (fn.block b)).written.get? v = some u →
      fn.Available b (fn.block b).code.length u)
    (hconstants : ∀ k u, (k, u) ∈ (f (fn.block b)).constants →
      ∃ n : Nat, (fn.block b).code[n]? = some (.const u k.1 k.2)) :
    (fn.modify b f).Sourced := by
  refine h.of_contents hb hplace (fun s u hs => ?_) ?_ ?_ ?_
  · cases s with
    | param i => exact hs
    | read c v => rwa [Makes, proj_block_modify Block.awaited hawaited]
    | result c i => rwa [Makes, proj_block_modify Block.code hcode]
  all_goals rw [hcode]
  · exact h.operands b
  · exact hwritten
  · exact hconstants

theorem append {inst : Instruction} (h : fn.Sourced) (hb : b < fn.blocks.size)
    (hoperands : ∀ u ∈ inst.operands, fn.Available b (fn.block b).code.length u) :
    (fn.append b inst).Sourced := by
  have hget : ∀ (n : Nat) i, ((fn.block b).code ++ [inst])[n]? = some i ↔
      (fn.block b).code[n]? = some i ∨ n = (fn.block b).code.length ∧ i = inst := by
    intro n i
    rcases Nat.lt_trichotomy n (fn.block b).code.length with hn | rfl | hn
    · rw [getElem?_append_left hn, or_iff_left]
      exact fun hn' => hn.ne hn'.1
    · simp [eq_comm]
    · rw [getElem?_eq_none (by simpa using Nat.succ_le_of_lt hn),
        getElem?_eq_none hn.le]
      simp [hn.ne']
  refine h.of_contents hb (fun _ => ⟨rfl, rfl⟩) ?_ ?_ ?_ ?_
  · exact fun s u hs => (Grows.append hb inst).makes hs
  · intro n i hi u hu
    rcases (hget n i).mp hi with hi | ⟨rfl, rfl⟩
    · exact h.operands b n i hi u hu
    · exact hoperands u hu
  · intro v u hu
    refine (h.written b v u hu).mono ?_
    simp
  · intro k u hu
    obtain ⟨n, hn⟩ := h.constants b k u hu
    exact ⟨n, (hget n _).mpr (.inl hn)⟩

theorem await (h : fn.Sourced) (hb : b < fn.blocks.size)
    (hv : (fn.block b).awaited.get? v = none) (u : Temp) : (fn.await b v u).Sourced :=
  h.of_contents hb (fun _ => ⟨rfl, rfl⟩) (fun _ _ hs => (Grows.await hb hv u).makes hs)
    (h.operands b) (h.written b) (h.constants b)

theorem get?_insert_available (h : fn.Sourced)
    (hu : fn.Available b (fn.block b).code.length u) (w : Variable) (u' : Temp)
    (hw : ((fn.block b).written.insert v u).get? w = some u') :
    fn.Available b (fn.block b).code.length u' := by
  rw [Table.get?_insert] at hw
  split at hw
  · cases hw
    exact hu
  · exact h.written b w u' hw

theorem write (h : fn.Sourced) (hb : b < fn.blocks.size)
    (hu : fn.Available b (fn.block b).code.length u) : (fn.write b v u).Sourced :=
  h.of_values hb (fun _ => ⟨rfl, rfl⟩) (fun _ => rfl) (fun _ => rfl)
    (h.get?_insert_available hu) (h.constants b)

theorem declare (h : fn.Sourced) (hb : b < fn.blocks.size)
    (hu : fn.Available b (fn.block b).code.length u) : (fn.declare b v u).Sourced :=
  h.of_values hb (fun _ => ⟨rfl, rfl⟩) (fun _ => rfl) (fun _ => rfl)
    (h.get?_insert_available hu) (h.constants b)

theorem keepConst {type : ValueType} {word : Int64} (h : fn.Sourced) (hb : b < fn.blocks.size)
    (hu : (fn.block b).code[n]? = some (.const u type word)) :
    (fn.keepConst b type word u).Sourced := by
  refine h.of_values hb (fun _ => ⟨rfl, rfl⟩) (fun _ => rfl) (fun _ => rfl)
    (h.written b) fun k u' hk => ?_
  rcases mem_cons.mp hk with hk | hk
  · cases hk
    exact ⟨n, hu⟩
  · exact h.constants b k u' hk

theorem addTemp (h : fn.Sourced) (x : BlockId) : (fn.addTemp x).Sourced :=
  ⟨h.operands, h.written, h.constants⟩

end Sourced

/-! ## Variables -/

namespace Inherits

/-- The conditions carry over to a function with more writes whose blocks keep their owners and their
variables. -/
theorem of_same (h : fn.Inherits) (hdeclared : ∀ b, (fn'.block b).declared = (fn.block b).declared)
    (halive : ∀ b, (fn'.block b).alive = (fn.block b).alive)
    (hwrites : ∀ v b, fn.Writes v b → fn'.Writes v b)
    (howner : ∀ b, (fn'.block b).owner? = (fn.block b).owner?) : fn'.Inherits := by
  constructor
  · intro b v hv
    rw [hdeclared] at hv
    exact hwrites v b (h.declared_written b v hv)
  · intro b v hv
    rw [hdeclared] at hv
    rw [halive]
    exact h.declared_alive b v hv
  · intro b o v ho hv
    rw [howner] at ho
    rw [halive] at hv ⊢
    exact h.inherited b o v ho hv

theorem addBlock {parents : List BlockId} (h : fn.Inherits) (hw : fn.Wired)
    (hnodup : parents.Nodup) (hlt : ∀ p ∈ parents, p < fn.blocks.size) :
    (fn.addBlock parents).Inherits := by
  have hblock := block_addBlock hnodup hlt
  have hwrites : ∀ v b, fn.Writes v b → (fn.addBlock parents).Writes v b := by
    intro v b hb
    have hne : b ≠ fn.blocks.size := by
      rintro rfl
      rw [Graph.Writes, Graph.block_of_size_le le_rfl] at hb
      cases hb
    rwa [Graph.Writes, hblock, if_neg hne]
  constructor
  · intro b v hv
    rw [hblock] at hv
    split at hv
    · exact absurd hv (KeySet.not_mem_empty v)
    · exact hwrites v b (h.declared_written b v hv)
  · intro b v hv
    rw [hblock] at hv ⊢
    split at hv
    · exact absurd hv (KeySet.not_mem_empty v)
    · next hb =>
      rw [if_neg hb]
      exact h.declared_alive b v hv
  · intro b o v ho hv
    rw [Block.owner?, hblock] at ho
    have hlto : ∀ q, q < fn.blocks.size → ((fn.addBlock parents).block q).alive =
        (fn.block q).alive := fun q hq => by rw [hblock, if_neg hq.ne]
    rw [hblock]
    split at ho
    · next hb =>
      have hmem := mem_of_getLast? ho
      rw [hlto o (hlt o hmem)] at hv
      rw [if_pos hb]
      exact mem_aliveIn.mpr ⟨o, hmem, hv⟩
    · next hb =>
      have hob : fn.Edge o b := mem_of_getLast? ho
      rw [hlto o (hw.edge_lt hob)] at hv
      rw [if_neg hb]
      exact h.inherited b o v ho hv

theorem addEdge (h : fn.Inherits) (hl : fn.Linked) (hs : s < fn.blocks.size)
    (ht : t < fn.blocks.size) (hte : t ≠ fn.entry) : (fn.addEdge s t).Inherits := by
  have hblock := block_addEdge hs ht
  refine h.of_same (fun b => by rw [hblock]) (fun b => by rw [hblock]) ?_ ?_
  · intro v b hb
    rwa [Graph.Writes, hblock]
  · intro b
    rw [Block.owner?, hblock]
    split
    · next hb =>
      obtain ⟨o, ho, -⟩ := hl.owner b (hb ▸ ht) (hb ▸ hte)
      rw [getLast?_cons, ho]
      rw [Block.owner?] at ho
      simp [ho]
    · rfl

/-- Contents are put into a block that leave its variables alone. -/
theorem of_contents {f : Block → Block} (h : fn.Inherits)
    (hf : ∀ blk, (f blk).declared = blk.declared ∧ (f blk).alive = blk.alive ∧
      (f blk).written = blk.written ∧ (f blk).parents = blk.parents) (b : BlockId) :
    (fn.modify b f).Inherits := by
  refine h.of_same (fun c => proj_block_modify Block.declared fun blk => (hf blk).1)
    (fun c => proj_block_modify Block.alive fun blk => (hf blk).2.1) (fun v c hc => ?_) fun c => ?_
  · rwa [Graph.Writes, proj_block_modify Block.written fun blk => (hf blk).2.2.1]
  · exact congrArg getLast? (proj_block_modify Block.parents fun blk => (hf blk).2.2.2)

/-- What has been written stays so when another value is put into a block. -/
theorem writes_of_insert {f : Block → Block}
    (hf : ∀ blk, (f blk).written = blk.written.insert v u) (b : BlockId) (hw : fn.Writes w c) :
    (fn.modify b f).Writes w c := by
  rw [Graph.Writes]
  rcases fn.block_modify_cases b c f with hc | ⟨-, -, hc⟩ <;> rw [hc]
  · exact hw
  · rw [hf]
    exact Table.isSome_get?_insert hw

theorem write (h : fn.Inherits) (b : BlockId) (v : Variable) (u : Temp) :
    (fn.write b v u).Inherits :=
  h.of_same (fun _ => proj_block_modify Block.declared fun _ => rfl)
    (fun _ => proj_block_modify Block.alive fun _ => rfl)
    (fun _ _ hw => writes_of_insert (fun _ => rfl) b hw)
    fun _ => congrArg getLast? (proj_block_modify Block.parents fun _ => rfl)

/-- A variable is declared in a block that owns no other. -/
theorem declare (h : fn.Inherits) (hb : b < fn.blocks.size)
    (hleaf : ∀ c, (fn.block c).owner? ≠ some b) (v : Variable) (u : Temp) :
    (fn.declare b v u).Inherits := by
  have hparents : ∀ c, ((fn.declare b v u).block c).parents = (fn.block c).parents := fun c =>
    proj_block_modify Block.parents fun _ => rfl
  have hself : (fn.declare b v u).block b = (fn.block b).declare v u := block_modify_self hb
  have hother : ∀ c, c ≠ b → (fn.declare b v u).block c = fn.block c := fun c hc =>
    block_modify_ne (Ne.symm hc)
  have hwrites : ∀ w c, fn.Writes w c → (fn.declare b v u).Writes w c := fun w c hw =>
    writes_of_insert (fun _ => rfl) b hw
  have hnew : (fn.declare b v u).Writes v b := by
    simp [Graph.Writes, hself, Block.declare]
  have hold : ∀ w ∈ (fn.block b).alive, w ∈ ((fn.declare b v u).block b).alive := by
    intro w hw
    rw [hself]
    exact KeySet.mem_insert.mpr (.inr hw)
  constructor
  · intro c w hw
    by_cases hc : c = b
    · subst hc
      rw [hself] at hw
      rcases KeySet.mem_insert.mp hw with rfl | hw
      · exact hnew
      · exact hwrites w c (h.declared_written c w hw)
    · rw [hother c hc] at hw
      exact hwrites w c (h.declared_written c w hw)
  · intro c w hw
    by_cases hc : c = b
    · subst hc
      rw [hself] at hw
      rcases KeySet.mem_insert.mp hw with rfl | hw
      · rw [hself]
        exact KeySet.mem_insert.mpr (.inl rfl)
      · exact hold w (h.declared_alive c w hw)
    · rw [hother c hc] at hw ⊢
      exact h.declared_alive c w hw
  · intro c o w ho hw
    rw [Block.owner?, hparents] at ho
    have hob : o ≠ b := by
      rintro rfl
      exact hleaf c ho
    rw [hother o hob] at hw
    have hw' := h.inherited c o w ho hw
    by_cases hc : c = b
    · subst hc
      exact hold w hw'
    · rwa [hother c hc]

end Inherits

/-! ## The primitives -/

namespace Formed

theorem edge_lt (h : fn.Formed) : ∀ a b, fn.Edge a b → a < fn.blocks.size :=
  fun _ _ => h.wired.edge_lt

theorem nodup_children (h : fn.Formed) (b : BlockId) : (fn.block b).children.Nodup :=
  nodup_iff_count_le_one.mpr fun c => by
    rw [h.wired.counts]
    exact nodup_iff_count_le_one.mp (h.linked.nodup_parents c) b

theorem addBlock {parents : List BlockId} (h : fn.Formed) (hne : parents ≠ [])
    (hnodup : parents.Nodup) (hlt : ∀ p ∈ parents, p < fn.blocks.size) :
    (fn.addBlock parents).Formed := by
  refine ⟨h.toKept.addBlock hlt, h.linked.addBlock h.wired hne hnodup hlt, ?_,
    h.inherits.addBlock h.wired hnodup hlt⟩
  have hblock := block_addBlock hnodup hlt
  have hentry : (fn.addBlock parents).entry = fn.entry := (edits_addBlock parents).entry
  refine h.sourced.of_edges (edits_addBlock parents).paramTemps ?_ ?_
  · intro c
    rw [hblock]
    split
    · next hc => exact ⟨_, _, _, _, by rw [hc, Graph.block_of_size_le le_rfl]⟩
    · exact ⟨_, _, _, _, rfl⟩
  · intro c hblank a ha
    -- a block that is not blank is old, and no edge to an old block has been added
    have hc : c < fn.blocks.size := by
      by_contra hc
      refine hblank ?_
      rw [Blank, Graph.block_of_size_le (Nat.not_lt.mp hc)]
      exact ⟨by simp, fun _ => rfl, fun _ => rfl⟩
    rw [dominates_iff_passes, hentry] at *
    refine ha.of_closed (S := (· < fn.blocks.size)) (fun x y hy hxy => ?_) hc
    rw [Graph.Edge, hblock, if_neg hy.ne] at hxy
    exact ⟨hxy, h.wired.edge_lt hxy⟩

/-- The target of a new edge dominates its source, or it is empty and leads nowhere. -/
def Accepts (fn : Func) (s t : BlockId) : Prop :=
  Dominates fn.Edge fn.entry t s ∨ s ≠ t ∧ fn.Blank t ∧ (fn.block t).children = []

theorem edge_addEdge (hs : s < fn.blocks.size) (ht : t < fn.blocks.size)
    (hab : (fn.addEdge s t).Edge a b) : fn.Edge a b ∨ a = s ∧ b = t := by
  rw [Graph.Edge, block_addEdge hs ht] at hab
  by_cases hb : b = t
  · simp only [hb, if_true, mem_cons] at hab
    rcases hab with rfl | hab
    · exact .inr ⟨rfl, hb⟩
    · exact .inl (hb ▸ hab)
  · simp only [hb, if_false] at hab
    exact .inl hab

/-- What walks to a block pass is kept if the block is not blank. -/
theorem passes_addEdge {P : BlockId → Prop} (h : fn.Formed) (hs : s < fn.blocks.size)
    (ht : t < fn.blocks.size) (haccepts : Accepts fn s t) (hc : ¬ fn.Blank c)
    (hpass : Passes fn.Edge fn.entry P c) : Passes (fn.addEdge s t).Edge fn.entry P c := by
  rcases haccepts with hdom | ⟨hne, hempty, hleaf⟩
  · exact hpass.of_added (fun _ _ => edge_addEdge hs ht) fun hpass _ => hpass.of_dominates hdom
  · refine hpass.of_leaf (fun x y hxy => (edge_addEdge hs ht hxy).imp_right And.right) ?_ ?_
    · intro y hty
      rcases edge_addEdge hs ht hty with hty | ⟨rfl, -⟩
      · have hmem := (h.wired.edge t y).mpr hty
        rw [Graph.Child, hleaf] at hmem
        simp at hmem
      · exact hne rfl
    · rintro rfl
      exact hc hempty

theorem addEdge (h : fn.Formed) (hs : s < fn.blocks.size) (ht : t < fn.blocks.size)
    (hte : t ≠ fn.entry) (hst : ¬ fn.Edge s t) (haccepts : Accepts fn s t) :
    (fn.addEdge s t).Formed := by
  refine ⟨h.toKept.addEdge hs ht, h.linked.addEdge hs ht hte hst, ?_,
    h.inherits.addEdge h.linked hs ht hte⟩
  refine h.sourced.of_edges rfl (fun c => ⟨_, _, _, _, block_addEdge hs ht c⟩) ?_
  intro c hblank a ha
  rw [dominates_iff_passes] at ha ⊢
  exact h.passes_addEdge hs ht haccepts hblank ha

/-- Contents are put into a block that leave its edges and its variables alone. -/
theorem of_contents {f : Block → Block} (h : fn.Formed) (hkept : (fn.modify b f).Kept)
    (hsourced : (fn.modify b f).Sourced)
    (hf : ∀ blk, (f blk).declared = blk.declared ∧ (f blk).alive = blk.alive ∧
      (f blk).written = blk.written ∧ (f blk).parents = blk.parents ∧
      (f blk).children = blk.children) : (fn.modify b f).Formed where
  toKept := hkept
  linked := h.linked.sameShape (sameShape_contents (fun blk => (hf blk).2.2.2) b)
  sourced := hsourced
  inherits := h.inherits.of_contents
    (fun blk => ⟨(hf blk).1, (hf blk).2.1, (hf blk).2.2.1, (hf blk).2.2.2.1⟩) b

theorem append {inst : Instruction} (h : fn.Formed) (hb : b < fn.blocks.size)
    (hoperands : ∀ u ∈ inst.operands, fn.Available b (fn.block b).code.length u)
    (hresult : inst.result? = none) : (fn.append b inst).Formed :=
  h.of_contents (h.toKept.append hresult) (h.sourced.append hb hoperands)
    fun _ => ⟨rfl, rfl, rfl, rfl, rfl⟩

theorem addTemp (h : fn.Formed) (x : BlockId) : (fn.addTemp x).Formed where
  toKept := h.toKept.addTemp x
  linked := ⟨h.linked.entry_parents, h.linked.nodup_parents, h.linked.owner⟩
  sourced := h.sourced.addTemp x
  inherits := ⟨h.inherits.declared_written, h.inherits.declared_alive, h.inherits.inherited⟩

/-- An instruction makes a new temporary, which is then available. -/
theorem define {inst : Instruction} (h : fn.Formed) (hb : b < fn.blocks.size)
    (hoperands : ∀ u ∈ inst.operands, fn.Available b (fn.block b).code.length u)
    (hresult : inst.result? = some fn.temps.size) :
    ((fn.addTemp b).append b inst).Formed :=
  (h.addTemp b).of_contents (h.toKept.define hresult) ((h.addTemp b).sourced.append hb hoperands)
    fun _ => ⟨rfl, rfl, rfl, rfl, rfl⟩

theorem available_define {inst : Instruction} (hb : b < fn.blocks.size)
    (hresult : inst.result? = some u) :
    (fn.append b inst).Available b ((fn.append b inst).block b).code.length u := by
  rw [block_append_self hb]
  refine ⟨.result b (fn.block b).code.length, ⟨inst, ?_, hresult⟩, .inl ⟨rfl, by simp⟩⟩
  rw [block_append_self hb]
  simp

theorem await (h : fn.Formed) (hb : b < fn.blocks.size) (hv : (fn.block b).awaited.get? v = none) :
    ((fn.addTemp b).await b v fn.temps.size).Formed :=
  (h.addTemp b).of_contents (h.toKept.await hv) ((h.addTemp b).sourced.await hb hv _)
    fun _ => ⟨rfl, rfl, rfl, rfl, rfl⟩

theorem write (h : fn.Formed) (hb : b < fn.blocks.size)
    (hu : fn.Available b (fn.block b).code.length u) (v : Variable) : (fn.write b v u).Formed := by
  refine ⟨h.toKept.write b v u, h.linked.sameShape ?_, h.sourced.write hb hu, h.inherits.write b v u⟩
  refine sameShape_contents ?_ b
  exact fun _ => ⟨rfl, rfl⟩

theorem declare (h : fn.Formed) (hb : b < fn.blocks.size) (hleaf : (fn.block b).children = [])
    (hu : fn.Available b (fn.block b).code.length u) (v : Variable) :
    (fn.declare b v u).Formed := by
  refine ⟨h.toKept.declare b v u, h.linked.sameShape ?_, h.sourced.declare hb hu,
    h.inherits.declare hb ?_ v u⟩
  · refine sameShape_contents ?_ b
    exact fun _ => ⟨rfl, rfl⟩
  · intro c hc
    have hmem := (h.wired.edge b c).mpr (mem_of_getLast? hc)
    rw [Graph.Child, hleaf] at hmem
    simp at hmem

theorem keepConst {type : ValueType} {word : Int64} (h : fn.Formed) (hb : b < fn.blocks.size)
    (hu : (fn.block b).code[n]? = some (.const u type word)) :
    (fn.keepConst b type word u).Formed :=
  h.of_contents (h.toKept.keepConst type word u) (h.sourced.keepConst hb hu)
    fun _ => ⟨rfl, rfl, rfl, rfl, rfl⟩

end Formed

end SsaBlocks.Func
