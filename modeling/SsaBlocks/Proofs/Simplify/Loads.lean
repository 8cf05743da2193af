import SsaBlocks.Proofs.Simplify.Scan

/-!
# Removing repeated loads

Removing repeated loads renames temporaries: the result of a load that is dropped goes to the end of
the chain of its replacements. That is right where temporaries are available before they are used.
How this comes about is left open: an `Availability` says where an instruction can be reached and
what is available there, so that a result is made at an earlier place than any where it is available.
A replacement is then available where the load was, so the chains go back and end, and what
a temporary is renamed to is available wherever the temporary is.

In a function that is ready temporaries are available by dominance, and the function stays ready.
-/

namespace SsaBlocks

open SsaBlocks.Flow

namespace Func

variable {fn fn' : Func} {R : Substitution} {b c : BlockId} {n m i : Nat} {t u d : Temp}
  {v : Variable}

/-- The block `b` can be left for `c` at its instruction `n`, or at its end. -/
def Leaves (fn : Func) (b : BlockId) (n : Nat) (c : BlockId) : Prop :=
  (∃ inst, (fn.block b).code[n]? = some inst ∧ c ∈ inst.targets) ∨
    n = (fn.block b).code.length ∧ (fn.block b).children = [c]

/-- What is available before each instruction that can be reached. Every temporary has one source,
and results are made at places of lower rank than those where they are available. -/
structure Availability (fn : Func) where
  At : BlockId → Nat → Prop
  Has : BlockId → Nat → Temp → Prop
  rank : BlockId → Nat → Nat
  single : ∀ s s' t, fn.Makes s t → fn.Makes s' t → s = s'
  mem : ∀ {b n}, At b n → b ∈ fn.canonicalOrder
  at_of_le : ∀ {b m n}, At b n → m ≤ n → At b m
  next : ∀ {b n inst}, At b n → (fn.block b).code[n]? = some inst → inst.isTerminator = false →
    At b (n + 1)
  rank_le : ∀ {b m n}, At b n → m ≤ n → rank b m ≤ rank b n
  mono : ∀ {b m n t}, At b n → m ≤ n → Has b m t → Has b n t
  result : ∀ {b n t}, At b (n + 1) → fn.Makes (.result b n) t → Has b (n + 1) t
  of_succ : ∀ {b n t}, At b (n + 1) → Has b (n + 1) t → Has b n t ∨ fn.Makes (.result b n) t
  result_lt : ∀ {b n t c i}, At b n → Has b n t → fn.Makes (.result c i) t →
    At c i ∧ rank c i < rank b n
  read_le : ∀ {b n t c v}, At b n → Has b n t → fn.Makes (.read c v) t → rank c 0 ≤ rank b n
  trans : ∀ {b n t c i u}, At b n → Has b n t → fn.Makes (.result c i) t → Has c i u → Has b n u
  operand : ∀ {b n inst t}, At b n → (fn.block b).code[n]? = some inst → t ∈ inst.operands →
    Has b n t
  written : ∀ {b n c v t}, At b n → fn.Leaves b n c → (fn.block b).written.get? v = some t →
    Has b n t
  enter : ∀ {b n c}, At b n → fn.Leaves b n c → At c 0
  before : ∀ {b n c t}, At b n → fn.Leaves b n c → Has c 0 t → (∀ v, ¬ fn.Makes (.read c v) t) →
    Has b n t
  start : At fn.entry 0
  start_result : ∀ {t c i}, Has fn.entry 0 t → ¬ fn.Makes (.result c i) t

namespace Availability

variable (A : fn.Availability)

theorem ne_result (hat : A.At b n) (hu : A.Has b n u) (hd : fn.Makes (.result b n) d) : u ≠ d := by
  rintro rfl
  exact Nat.lt_irrefl _ (A.result_lt hat hu hd).2

include A in
theorem distinctResults : fn.DistinctResults := by
  intro b i c j t hb hc
  simpa using A.single _ _ t hb hc

variable (h : fn.Trimmed fn' R)
include h

theorem exists_makes (ht : R.get? t = some u) : ∃ c ∈ fn.canonicalOrder, ∃ i,
    fn.Makes (.result c i) t := by
  obtain ⟨c, hc, hmem⟩ := h.keys t u ht
  obtain ⟨i, hi⟩ := mem_results.mp hmem
  exact ⟨c, hc, i, hi⟩

omit h in
/-- What is learned from an instruction is available after it. -/
theorem has_learn {known : Variable → Option Temp} {inst : Instruction} {f : Temp → Temp}
    (hat : A.At b (n + 1)) (hinst : (fn.block b).code[n]? = some inst)
    (hknown : ∀ v u, known v = some u → A.Has b n u) (hf : ∀ t, R.Leads t (f t))
    (hlink : ∀ x y, A.Has b n x → R.get? x = some y → A.Has b n y) (v : Variable) (u : Temp)
    (hu : inst.learn f known v = some u) : A.Has b (n + 1) u := by
  have hat' := A.at_of_le hat (Nat.le_succ n)
  have hold : ∀ v u, known v = some u → A.Has b (n + 1) u := fun v u hu =>
    A.mono hat (Nat.le_succ n) (hknown v u hu)
  cases inst with
  | load d w =>
    simp only [Instruction.learn, Function.update_apply] at hu
    split at hu
    · cases hu
      exact A.result hat ⟨_, hinst, rfl⟩
    · exact hold v u hu
  | store w t =>
    simp only [Instruction.learn, Function.update_apply] at hu
    split at hu
    · cases hu
      have ht : A.Has b n t := A.operand hat' hinst (by simp [Instruction.operands])
      refine A.mono hat (Nat.le_succ n) ?_
      rcases hf t with heq | hget
      · rwa [heq]
      · exact hlink t _ ht hget
    · exact hold v u hu
  | call d callee args => cases hu
  | _ => exact hold v u hu

omit h in
/-- The replacement of a result in the rest of a block, if replacements made before are available. -/
theorem has_of_trims {known : Variable → Option Temp} {code kept : List Instruction}
    (htrims : Trims R known code kept) (hcode : (fn.block b).code.drop m = code)
    (hknown : ∀ v u, known v = some u → A.Has b m u) (hm : m ≤ n) (hat : A.At b n)
    (hlink : ∀ k ≤ n, ∀ x y, A.Has b k x → R.get? x = some y → A.Has b k y)
    (ht : fn.Makes (.result b n) t) (hget : R.get? t = some u) : A.Has b n u := by
  obtain ⟨last, hlast, hres⟩ := ht
  induction htrims generalizing m with
  | nil known =>
    have hlen := List.drop_eq_nil_iff.mp hcode
    have := (List.getElem?_eq_some_iff.mp hlast).1
    omega
  | @drop known code kept d u' v hknown' hd _ ih =>
    obtain ⟨hinst, -, hcode', -⟩ := drop_eq_cons hcode
    rcases hm.eq_or_lt with rfl | hlt
    · obtain rfl : Instruction.load d v = last := Option.some.inj (hinst.symm.trans hlast)
      obtain rfl : d = t := Option.some.inj hres
      obtain rfl : u' = u := Option.some.inj (hd.symm.trans hget)
      exact hknown v u' hknown'
    · exact ih hcode' (fun w x hx => A.mono (A.at_of_le hat hlt) (Nat.le_succ m) (hknown w x hx)) hlt
  | @keep known code kept inst f hf hresult _ ih =>
    obtain ⟨hinst, -, hcode', -⟩ := drop_eq_cons hcode
    rcases hm.eq_or_lt with rfl | hlt
    · obtain rfl : inst = last := Option.some.inj (hinst.symm.trans hlast)
      rw [hresult t hres] at hget
      cases hget
    · exact ih hcode' (A.has_learn (A.at_of_le hat hlt) hinst hknown hf (hlink m hm)) hlt

/-- The replacement of a result is available where the result was made. -/
theorem has_replacement (hat : A.At c i) (ht : fn.Makes (.result c i) t)
    (hget : R.get? t = some u) : A.Has c i u := by
  -- by induction on the rank, since an operand that was replaced was made at a lower place
  induction hr : A.rank c i using Nat.strong_induction_on generalizing c i t u with
  | _ r ih =>
    obtain ⟨c', hc', j, hj⟩ := exists_makes h hget
    obtain ⟨rfl, rfl⟩ := A.distinctResults c i c' j t ht hj
    obtain ⟨kept, htrims, -⟩ := h.block c hc'
    refine A.has_of_trims htrims rfl (by simp) (Nat.zero_le i) hat (fun k hk x y hx hxy => ?_) ht
      hget
    obtain ⟨e, -, j, hj⟩ := exists_makes h hxy
    obtain ⟨hat', hlt⟩ := A.result_lt (A.at_of_le hat hk) hx hj
    have hrank := A.rank_le hat hk
    exact A.trans (A.at_of_le hat hk) hx hj (ih _ (by omega) hat' hj hxy rfl)

theorem has_of_get? (hat : A.At b n) (ht : A.Has b n t) (hget : R.get? t = some u) :
    A.Has b n u := by
  obtain ⟨c, -, i, hi⟩ := exists_makes h hget
  exact A.trans hat ht hi (A.has_replacement h (A.result_lt hat ht hi).1 hi hget)

omit h in
/-- The temporary is available somewhere. -/
def Somewhere (t : Temp) : Prop :=
  ∃ b n, A.At b n ∧ A.Has b n t

omit h in
open scoped Classical in
/-- The rank of a result comes from the place where it is made; all else comes before. -/
noncomputable def tempRank (t : Temp) : Nat :=
  if h : ∃ p : BlockId × Nat, fn.Makes (.result p.1 p.2) t then A.rank h.choose.1 h.choose.2 + 1
  else 0

omit h in
theorem tempRank_of_makes (ht : fn.Makes (.result c i) t) : A.tempRank t = A.rank c i + 1 := by
  have hex : ∃ p : BlockId × Nat, fn.Makes (.result p.1 p.2) t := ⟨(c, i), ht⟩
  obtain ⟨hc, hi⟩ := A.distinctResults _ _ c i t hex.choose_spec ht
  rw [tempRank, dif_pos hex, hc, hi]

theorem descending : R.DescendingOn A.Somewhere A.tempRank := by
  rintro t u ⟨b, n, hat, ht⟩ hget
  obtain ⟨c, -, i, hi⟩ := exists_makes h hget
  obtain ⟨hat', -⟩ := A.result_lt hat ht hi
  have hu := A.has_replacement h hat' hi hget
  refine ⟨⟨c, i, hat', hu⟩, ?_⟩
  rw [A.tempRank_of_makes hi]
  by_cases hmade : ∃ p : BlockId × Nat, fn.Makes (.result p.1 p.2) u
  · obtain ⟨⟨e, j⟩, hj⟩ := hmade
    rw [A.tempRank_of_makes hj]
    exact Nat.succ_lt_succ (A.result_lt hat' hu hj).2
  · rw [tempRank, dif_neg hmade]
    exact Nat.succ_pos _

/-- What a temporary is renamed to is available where the temporary is. -/
theorem has_renamed (hat : A.At b n) (ht : A.Has b n t) : A.Has b n (R.close.apply t) :=
  (A.descending h).close_apply_induction ⟨b, n, hat, ht⟩ (P := A.Has b n)
    (fun _ _ _ hget hx => A.has_of_get? h hat hx hget) ht

theorem renamed_of_leads (hat : A.At b n) (ht : A.Has b n t) (hu : R.Leads t u) :
    R.close.apply u = R.close.apply t := by
  rcases hu with rfl | hget
  · rfl
  · exact ((A.descending h).close_apply_of_get? ⟨b, n, hat, ht⟩ hget).symm

theorem get?_renamed (hat : A.At b n) (ht : A.Has b n t) :
    R.get? (R.close.apply t) = none :=
  (A.descending h).get?_close_apply ⟨b, n, hat, ht⟩

/-- The operands of an instruction that is kept are renamed. -/
theorem substitute_renamed {inst : Instruction} {f : Temp → Temp} (hat : A.At b n)
    (hinst : (fn.block b).code[n]? = some inst) (hf : ∀ t, R.Leads t (f t)) :
    (inst.substitute f).substitute R.close.apply = inst.substitute R.close.apply := by
  rw [Instruction.substitute_substitute]
  exact Instruction.substitute_congr fun t ht =>
    A.renamed_of_leads h hat (A.operand hat hinst ht) (hf t)

omit A in
/-- Only results are renamed. -/
theorem renamed_of_not_result (ht : ∀ c i, ¬ fn.Makes (.result c i) t) :
    R.close.apply t = t := by
  refine Substitution.close_apply_of_none ?_
  by_contra hne
  obtain ⟨u, hu⟩ := Option.ne_none_iff_exists'.mp hne
  obtain ⟨c, -, i, hi⟩ := exists_makes h hu
  exact ht c i hi

end Availability

/-! ## Functions that are ready -/

/-- What is available where an available result was made is available too. -/
theorem Available.trans (hr : fn.Ready) (hb : b ∈ fn.canonicalOrder) (ht : fn.Available b n t)
    (hmakes : fn.Makes (.result c i) t) (hu : fn.Available c i u) : fn.Available b n u := by
  obtain ⟨s, hs, hbefore⟩ := ht
  cases hr.single _ _ t hs hmakes
  rcases hbefore with ⟨rfl, hlt⟩ | hdom
  · exact hu.mono (Nat.le_of_lt hlt)
  · have hreach : Reachable fn.Edge fn.entry b := reachable_of_mem_canonicalOrder hb
    obtain ⟨s', hs', hbefore'⟩ := hu
    refine ⟨s', hs', ?_⟩
    cases s' with
    | param _ => trivial
    | read _ _ => exact Dominates.trans hbefore' hdom.1
    | result _ _ =>
      rcases hbefore' with ⟨rfl, -⟩ | hc
      · exact .inr hdom
      · exact .inr (.trans_left hc.1 hdom hreach)

/-- The code of every block is shorter than this. -/
def codeBound (fn : Func) : Nat :=
  (fn.blocks.toList.map (·.code)).flatten.length + 1

theorem length_code_lt (fn : Func) (b : BlockId) : (fn.block b).code.length < fn.codeBound := by
  rw [codeBound, Nat.lt_succ_iff]
  by_cases hb : b < fn.blocks.size
  · refine (List.sublist_flatten_of_mem (List.mem_map.mpr ⟨fn.block b, ?_, rfl⟩)).length_le
    rw [Graph.toList_blocks]
    exact List.mem_map_of_mem (List.mem_range.mpr hb)
  · simp [Graph.block_of_size_le (Nat.not_lt.mp hb)]

/-- No instruction before the place `n` ends the block. -/
def OpenBefore (fn : Func) (b : BlockId) (n : Nat) : Prop :=
  ∀ m inst, m < n → (fn.block b).code[m]? = some inst → inst.isTerminator = false

theorem Ready.edge_of_leaves (hr : fn.Ready) (hb : b ∈ fn.canonicalOrder) (hn : fn.OpenBefore b n)
    (h : fn.Leaves b n c) : fn.Edge b c ∧
      ∀ t, fn.Available b (fn.block b).code.length t → fn.Available b n t := by
  rcases h with ⟨inst, hinst, hc⟩ | ⟨rfl, hchildren⟩
  · refine ⟨hr.targets b hb inst (List.mem_of_getElem? hinst) c hc, fun t ht => ?_⟩
    have hends : inst.isTerminator ∧ inst.result? = none := by
      cases inst <;> simp_all [Instruction.targets, Instruction.isTerminator, Instruction.result?]
    rw [← hr.ends b hb n inst hinst hends.1] at ht
    rcases ht.of_succ with ht | ⟨inst', hinst', hres⟩
    · exact ht
    · obtain rfl : inst = inst' := Option.some.inj (hinst.symm.trans hinst')
      rw [hends.2] at hres
      cases hres
  · obtain ⟨c', hc', hedge⟩ := hr.exists_child hb fun i hi => by
      obtain ⟨m, hm⟩ := List.getElem?_of_mem hi
      exact hn m i (List.getElem?_eq_some_iff.mp hm).1 hm
    obtain rfl : c' = c := by simpa [hc'] using hchildren
    exact ⟨hedge, fun t ht => ht⟩

/-- Temporaries are available by dominance, and results come before in the canonical order. -/
def Ready.availability (hr : fn.Ready) : fn.Availability where
  At b n := b ∈ fn.canonicalOrder ∧ n ≤ (fn.block b).code.length ∧ fn.OpenBefore b n
  Has b n t := fn.Available b n t
  rank b n := fn.canonicalOrder.idxOf b * fn.codeBound + n
  single := hr.single
  mem hat := hat.1
  at_of_le hat hle := ⟨hat.1, hle.trans hat.2.1, fun m inst hm => hat.2.2 m inst (hm.trans_le hle)⟩
  next {b n inst} hat hinst hterm := by
    refine ⟨hat.1, (List.getElem?_eq_some_iff.mp hinst).1, fun m inst' hm hinst' => ?_⟩
    rcases (Nat.le_of_lt_succ hm).eq_or_lt with rfl | hm
    · obtain rfl : inst = inst' := Option.some.inj (hinst.symm.trans hinst')
      exact hterm
    · exact hat.2.2 m inst' hm hinst'
  rank_le _ hle := Nat.add_le_add_left hle _
  mono _ hle ht := ht.mono hle
  result _ ht := available_result ht
  of_succ _ ht := ht.of_succ
  result_lt {b n t c i} hat ht hmakes := by
    obtain ⟨s, hs, hbefore⟩ := ht
    cases hr.single _ _ t hs hmakes
    obtain ⟨inst, hinst, hres⟩ := hmakes
    have hlt := (List.getElem?_eq_some_iff.mp hinst).1
    have hc : c ∈ fn.canonicalOrder := by
      rcases hbefore with ⟨rfl, -⟩ | hdom
      · exact hat.1
      · exact hr.rooted.dominator_mem hdom.1 hat.1
    have hopen : fn.OpenBefore c i := by
      intro m inst' hm hinst'
      by_contra hterm
      have hlast := hr.ends c hc m inst' hinst' (by simpa using hterm)
      omega
    rcases hbefore with ⟨rfl, hin⟩ | hdom
    · exact ⟨⟨hat.1, hlt.le, hopen⟩, by omega⟩
    · have hidx := idxOf_lt_of_strictlyDominates hdom hat.1
      have hbound := fn.length_code_lt c
      refine ⟨⟨hc, hlt.le, hopen⟩, ?_⟩
      have hmul := Nat.mul_le_mul_right fn.codeBound (Nat.succ_le_of_lt hidx)
      rw [Nat.succ_mul] at hmul
      omega
  read_le {b n t c v} hat ht hmakes := by
    obtain ⟨s, hs, hbefore⟩ := ht
    cases hr.single _ _ t hs hmakes
    by_cases hcb : c = b
    · subst hcb
      exact Nat.add_le_add_left (Nat.zero_le n) _
    · have hidx := idxOf_lt_of_strictlyDominates ⟨hbefore, hcb⟩ hat.1
      exact (Nat.mul_le_mul_right _ hidx.le).trans (Nat.le_add_right _ n)
  trans hat ht hmakes hu := ht.trans hr hat.1 hmakes hu
  operand hat hinst ht := hr.operands _ hat.1 _ _ hinst _ ht
  written hat hleaves hw :=
    (hr.edge_of_leaves hat.1 hat.2.2 hleaves).2 _ (hr.written _ hat.1 _ _ hw)
  enter hat hleaves :=
    ⟨(hr.rooted.edge_mem (hr.edge_of_leaves hat.1 hat.2.2 hleaves).1).2, Nat.zero_le _,
      fun _ _ hm => absurd hm (Nat.not_lt_zero _)⟩
  before hat hleaves ht hread := by
    obtain ⟨hedge, hend⟩ := hr.edge_of_leaves hat.1 hat.2.2 hleaves
    obtain ⟨s, hs, hbefore⟩ := ht
    refine hend _ (available_pred hedge hs hbefore fun v hv => ?_)
    subst hv
    exact hread v hs
  start := ⟨(canonicalOrder_closed fn).1, Nat.zero_le _, fun _ _ hm => absurd hm (Nat.not_lt_zero _)⟩
  start_result {t c i} ht hmakes := by
    obtain ⟨s, hs, hbefore⟩ := ht
    cases hr.single _ _ t hs hmakes
    rcases hbefore with ⟨-, hlt⟩ | hdom
    · exact Nat.not_lt_zero i hlt
    · exact hdom.ne_entry rfl

/-! ## The function is still ready -/

namespace Trimmed

variable (h : fn.Trimmed fn' R)
include h

theorem block_or (b : BlockId) : fn'.block b = fn.block b ∨
    ∃ code, fn'.block b = Block.substitute R.close.apply { fn.block b with code } := by
  by_cases hb : b ∈ fn.canonicalOrder
  · obtain ⟨kept, -, hblock⟩ := h.block b hb
    exact .inr ⟨kept, hblock⟩
  · exact .inl (h.other b hb)

/-- Nothing but code, phi nodes and written temporaries changes. -/
theorem proj {β : Type} (π : Block → β) (hπ : ∀ blk code phis written,
    π { blk with code, phis, written } = π blk) (b : BlockId) :
    π (fn'.block b) = π (fn.block b) := by
  rcases h.block_or b with hb | ⟨code, hb⟩
  · rw [hb]
  · rw [hb]
    exact hπ (fn.block b) ..

theorem sameShape : fn.SameShape fn' where
  entry := h.thins.edits.entry
  size := h.thins.edits.size
  parents := h.proj (·.parents) fun _ _ _ _ => rfl
  children := h.proj (·.children) fun _ _ _ _ => rfl

theorem awaited (b : BlockId) : (fn'.block b).awaited = (fn.block b).awaited :=
  h.proj (·.awaited) (fun _ _ _ _ => rfl) b

theorem alive (b : BlockId) : (fn'.block b).alive = (fn.block b).alive :=
  h.proj (·.alive) (fun _ _ _ _ => rfl) b

theorem home (b : BlockId) : (fn'.block b).home = (fn.block b).home :=
  h.proj (·.home) (fun _ _ _ _ => rfl) b

theorem pending (b : BlockId) : (fn'.block b).pending = (fn.block b).pending :=
  h.proj (·.pending) (fun _ _ _ _ => rfl) b

theorem written {b : BlockId} (hb : b ∈ fn.canonicalOrder) (v : Variable) :
    (fn'.block b).written.get? v = ((fn.block b).written.get? v).map R.close.apply := by
  obtain ⟨code, -, hblock⟩ := h.block b hb
  rw [hblock, Block.substitute, Table.get?_mapValues]

theorem writes : fn'.Writes = fn.Writes := by
  funext v b
  rw [Graph.Writes, Graph.Writes]
  rcases h.block_or b with hb | ⟨code, hb⟩
  · rw [hb]
  · rw [hb, Block.substitute, Table.get?_mapValues, Option.isSome_map]

theorem inScope : fn'.inScope = fn.inScope := by
  funext v b
  simp only [Func.inScope, h.alive, h.sameShape.parents]

theorem liveIn : fn'.LiveIn = fn.LiveIn := by
  funext v b
  simp only [LiveIn, h.sameShape.edge, h.writes, h.awaited]

theorem paramTemps : fn'.paramTemps = fn.paramTemps := by rw [← h.thins.edits.eq]

end Trimmed

/-- Where the instructions of the second function stood in the first. -/
structure Places (fn fn' : Func) (τ : Temp → Temp) (e : BlockId → Nat → Nat) : Prop where
  mono : ∀ b, StrictMono (e b)
  makes : ∀ b i t, fn'.Makes (.result b i) t ↔ fn.Makes (.result b (e b i)) t
  code : ∀ b ∈ fn.canonicalOrder, ∀ i,
    (fn'.block b).code[i]? = ((fn.block b).code[e b i]?).map (Instruction.substitute τ)
  cover : ∀ b ∈ fn.canonicalOrder, ∀ n inst, (fn.block b).code[n]? = some inst →
    (∃ i, e b i = n) ∨ ∃ d, inst.result? = some d ∧ τ d ≠ d

namespace Trimmed

variable (h : fn.Trimmed fn' R)
include h

variable (hr : fn.Ready)
include hr

omit h hr in
theorem isTerminator_of_result? {inst : Instruction} (h : inst.result? = some d) :
    inst.isTerminator = false := by
  cases inst <;> simp_all [Instruction.isTerminator, Instruction.result?]

omit h in
theorem at_of_getElem? (hb : b ∈ fn.canonicalOrder) {inst : Instruction}
    (hinst : (fn.block b).code[n]? = some inst) : hr.availability.At b n := by
  have hlt := (List.getElem?_eq_some_iff.mp hinst).1
  refine ⟨hb, hlt.le, fun m inst' hm hinst' => ?_⟩
  by_contra hterm
  have := hr.ends b hb m inst' hinst' (by simpa using hterm)
  omega

omit h in
theorem somewhere_of_result (hb : b ∈ fn.canonicalOrder) {inst : Instruction}
    (hinst : (fn.block b).code[n]? = some inst) (hd : inst.result? = some d) :
    hr.availability.Somewhere d := by
  have hat := hr.availability.next (at_of_getElem? hr hb hinst) hinst (isTerminator_of_result? hd)
  exact ⟨b, n + 1, hat, hr.availability.result hat ⟨inst, hinst, hd⟩⟩

omit h in
/-- What is available at some place of a block is so at one that can be reached. -/
theorem exists_at (hb : b ∈ fn.canonicalOrder) (ht : fn.Available b n t) :
    ∃ k ≤ n, hr.availability.At b k ∧ fn.Available b k t := by
  induction n with
  | zero => exact ⟨0, le_rfl, ⟨hb, Nat.zero_le _, fun _ _ hm => absurd hm (Nat.not_lt_zero _)⟩, ht⟩
  | succ n ih =>
    rcases ht.of_succ with hav | ⟨inst, hinst, hres⟩
    · obtain ⟨k, hk, hat, hav⟩ := ih hav
      exact ⟨k, hk.trans (Nat.le_succ n), hat, hav⟩
    · exact ⟨n + 1, le_rfl, hr.availability.next (at_of_getElem? hr hb hinst) hinst
        (isTerminator_of_result? hres), ht⟩

/-- What a temporary goes to is available where the temporary is, and goes nowhere. -/
theorem available_renamed (hb : b ∈ fn.canonicalOrder) (ht : fn.Available b n t) :
    fn.Available b n (R.close.apply t) ∧ R.close.apply (R.close.apply t) = R.close.apply t := by
  obtain ⟨k, hk, hat, hav⟩ := exists_at hr hb ht
  have hrenamed : fn.Available b k (R.close.apply t) := hr.availability.has_renamed h hat hav
  exact ⟨hrenamed.mono hk,
    Substitution.close_apply_of_none (hr.availability.get?_renamed h hat hav)⟩

theorem exists_places : ∃ e, fn.Places fn' R.close.apply e := by
  have hplaces : ∀ b, ∃ e : Nat → Nat, StrictMono e ∧
      (∀ i t, fn'.Makes (.result b i) t ↔ fn.Makes (.result b (e i)) t) ∧
      (b ∈ fn.canonicalOrder →
        (∀ i, (fn'.block b).code[i]? =
          ((fn.block b).code[e i]?).map (Instruction.substitute R.close.apply)) ∧
        ∀ n inst, (fn.block b).code[n]? = some inst →
          (∃ i, e i = n) ∨ ∃ d, inst.result? = some d ∧ R.close.apply d ≠ d) := by
    intro b
    by_cases hb : b ∈ fn.canonicalOrder
    · obtain ⟨kept, htrims, hblock⟩ := h.block b hb
      obtain ⟨e, hmono, hcode, hcover⟩ := htrims.exists_places
      have hcode' : ∀ i, (fn'.block b).code[i]? =
          ((fn.block b).code[e i]?).map (Instruction.substitute R.close.apply) := by
        intro i
        obtain ⟨f, hf, hget⟩ := hcode i
        rw [hblock, Block.substitute, List.getElem?_map, hget, Option.map_map]
        cases hinst : (fn.block b).code[e i]? with
        | none => rfl
        | some inst =>
          exact congrArg some
            (hr.availability.substitute_renamed h (at_of_getElem? hr hb hinst) hinst hf)
      refine ⟨e, hmono, fun i t => ?_, fun _ => ⟨hcode', fun n inst hinst => ?_⟩⟩
      · simp only [Makes, hcode']
        constructor
        · rintro ⟨inst, hinst, ht⟩
          obtain ⟨inst', hinst', rfl⟩ := Option.map_eq_some_iff.mp hinst
          exact ⟨inst', hinst', by rwa [Instruction.result?_substitute] at ht⟩
        · rintro ⟨inst, hinst, ht⟩
          exact ⟨inst.substitute R.close.apply, by rw [hinst]; rfl,
            by rwa [Instruction.result?_substitute]⟩
      · refine (hcover n inst hinst).imp_right ?_
        rintro ⟨d, u, hd, hget⟩
        refine ⟨d, hd, fun hfixed => ?_⟩
        have hnone := (hr.availability.descending h).get?_close_apply
          (somewhere_of_result hr hb hinst hd)
        rw [hfixed, hget] at hnone
        cases hnone
    · refine ⟨id, strictMono_id, fun i t => ?_, fun hmem => absurd hmem hb⟩
      simp only [Makes, h.other b hb, id]
  choose e hmono hmakes hcode using hplaces
  exact ⟨e, hmono, hmakes, fun b hb => (hcode b hb).1, fun b hb => (hcode b hb).2⟩

/-- What is available and stays is available at the place that is kept. -/
theorem available_of_fixed {e : BlockId → Nat → Nat} (hp : fn.Places fn' R.close.apply e) {m : Nat}
    (hb : b ∈ fn.canonicalOrder) (hn : n ≤ e b m) (ht : fn.Available b n t) (hfixed : R.close.apply t = t) :
    fn'.Available b m t := by
  obtain ⟨s, hs, hbefore⟩ := ht
  have hdom : Dominates fn'.Edge fn'.entry = Dominates fn.Edge fn.entry := by
    rw [h.sameShape.edge, h.sameShape.entry]
  match s, hs, hbefore with
  | .param i, hs, _ => exact ⟨.param i, by rw [Makes, h.paramTemps]; exact hs, trivial⟩
  | .read c v, hs, hc =>
    exact ⟨.read c v, by rw [Makes, h.awaited]; exact hs, by rw [Source.Before, hdom]; exact hc⟩
  | .result c i, hs, hc =>
    have hmem : c ∈ fn.canonicalOrder := by
      rcases hc with ⟨rfl, -⟩ | hc
      · exact hb
      · exact hr.rooted.dominator_mem hc.1 hb
    obtain ⟨inst, hinst, hres⟩ := id hs
    rcases hp.cover c hmem i inst hinst with ⟨j, rfl⟩ | ⟨d, hd, hmoved⟩
    · refine ⟨.result c j, (hp.makes c j t).mpr hs, ?_⟩
      rcases hc with ⟨rfl, hlt⟩ | hc
      · exact .inl ⟨rfl, (hp.mono c).lt_iff_lt.mp (hlt.trans_le hn)⟩
      · exact .inr ⟨by rw [hdom]; exact hc.1, hc.2⟩
    · cases hres.symm.trans hd
      exact absurd hfixed hmoved

theorem available {e : BlockId → Nat → Nat} (hp : fn.Places fn' R.close.apply e) {m : Nat}
    (hb : b ∈ fn.canonicalOrder) (hn : n ≤ e b m) (ht : fn.Available b n t) :
    fn'.Available b m (R.close.apply t) :=
  h.available_of_fixed hr hp hb hn (h.available_renamed hr hb ht).1 (h.available_renamed hr hb ht).2

theorem fresh : fn'.Fresh where
  toSeparate := h.thins.separate hr.toSeparate
  home := by
    rw [h.thins.edits.entry, h.home]
    exact hr.home
  unplaced b := (h.pending b).trans (hr.unplaced b)

/-- Removing repeated loads leaves the function ready. -/
theorem ready : fn'.Ready := by
  obtain ⟨e, hp⟩ := h.exists_places hr
  have hshape := h.sameShape
  have hmem : ∀ b ∈ fn'.canonicalOrder, b ∈ fn.canonicalOrder := by
    rw [hshape.canonicalOrder]
    exact fun _ hb => hb
  -- an instruction of the function comes from one at a known place
  have hplace : ∀ b ∈ fn.canonicalOrder, ∀ n i, (fn'.block b).code[n]? = some i →
      ∃ j, (fn.block b).code[e b n]? = some j ∧ i = j.substitute R.close.apply := by
    intro b hb n i hi
    rw [hp.code b hb] at hi
    obtain ⟨j, hj, rfl⟩ := Option.map_eq_some_iff.mp hi
    exact ⟨j, hj, rfl⟩
  refine { toFresh := h.fresh hr, rooted := hr.rooted.sameShape hshape, counts := ?_,
           targets := ?_, ends := ?_, falls := ?_, operands := ?_, written := ?_, alive := ?_,
           live := ?_, live_entry := ?_ }
  · intro a b
    rw [hshape.parents, hshape.children]
    exact hr.counts a b
  · intro b hb i hi c hc
    obtain ⟨n, hn⟩ := List.getElem?_of_mem hi
    obtain ⟨j, hj, rfl⟩ := hplace b (hmem b hb) n i hn
    rw [Instruction.targets_substitute] at hc
    rw [hshape.edge]
    exact hr.targets b (hmem b hb) j (List.mem_of_getElem? hj) c hc
  · intro b hb n i hi hterm
    obtain ⟨j, hj, rfl⟩ := hplace b (hmem b hb) n i hi
    have hlast := hr.ends b (hmem b hb) (e b n) j hj (by
      rwa [Instruction.isTerminator_substitute] at hterm)
    refine Nat.le_antisymm (List.getElem?_eq_some_iff.mp hi).1 (Nat.le_of_not_lt fun hlt => ?_)
    obtain ⟨j', hj', -⟩ := hplace b (hmem b hb) (n + 1) _ (List.getElem?_eq_getElem hlt)
    have hlt' := (List.getElem?_eq_some_iff.mp hj').1
    have hstep : e b n < e b (n + 1) := hp.mono b (Nat.lt_succ_self n)
    omega
  · intro b hb hnone
    simp only [hshape.children, Block.owner?, hshape.parents]
    refine hr.falls b (hmem b hb) fun i hi => ?_
    obtain ⟨n, hn⟩ := List.getElem?_of_mem hi
    by_contra hterm
    rcases hp.cover b (hmem b hb) n i hn with ⟨m, rfl⟩ | ⟨d, hd, -⟩
    · have hm : (fn'.block b).code[m]? = some (i.substitute R.close.apply) := by
        rw [hp.code b (hmem b hb), hn]
        rfl
      have := hnone _ (List.mem_of_getElem? hm)
      rw [Instruction.isTerminator_substitute] at this
      exact hterm this
    · cases i <;> simp_all [Instruction.isTerminator, Instruction.result?]
  · intro b hb n i hi t ht
    obtain ⟨j, hj, rfl⟩ := hplace b (hmem b hb) n i hi
    rw [Instruction.operands_substitute] at ht
    obtain ⟨x, hx, rfl⟩ := List.mem_map.mp ht
    exact h.available hr hp (hmem b hb) le_rfl (hr.operands b (hmem b hb) _ j hj x hx)
  · intro b hb v t ht
    rw [h.written (hmem b hb)] at ht
    obtain ⟨x, hx, rfl⟩ := Option.map_eq_some_iff.mp ht
    refine h.available hr hp (hmem b hb) ?_ (hr.written b (hmem b hb) v x hx)
    have hnone := hp.code b (hmem b hb) (fn'.block b).code.length
    rw [List.getElem?_eq_none le_rfl] at hnone
    exact List.getElem?_eq_none_iff.mp (Option.map_eq_none_iff.mp hnone.symm)
  · intro b hb v hv
    rw [h.alive] at hv
    rw [h.writes, hshape.edge]
    exact hr.alive b (hmem b hb) v hv
  · intro b hb v hlive
    rw [h.liveIn] at hlive
    rw [h.inScope]
    exact hr.live b (hmem b hb) v hlive
  · intro v
    rw [h.liveIn, hshape.entry]
    exact hr.live_entry v

end Trimmed

end Func

end SsaBlocks
