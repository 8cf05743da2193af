import SsaBlocks.Phi.Edges
import SsaBlocks.Proofs.Func.Apart
import SsaBlocks.Proofs.Phi.Resolution

/-!
# Functions that are ready for SSA construction

What SSA construction takes for granted. Every temporary has one source: it is a parameter, the
placeholder of a read or the result of an instruction. A temporary is used where its source is
known to have come before: earlier in the block or in a block that dominates it. A variable that a
block needs from before is in scope there. Blocks end in jumps to their children, in a return, or
by falling through to an only child.
-/

namespace SsaBlocks.Func

open SsaBlocks.Flow

variable {fn : Func} {b c : BlockId} {v w : Variable} {t : Temp} {n : Nat}

/-- Where a temporary can come from: a parameter, a read before a write, an instruction. -/
inductive Source where
  | param (i : Nat)
  | read (b : BlockId) (v : Variable)
  | result (b : BlockId) (i : Nat)

/-- The temporary that comes from a source. -/
def Makes (fn : Func) : Source → Temp → Prop
  | .param i, t => fn.paramTemps[i]? = some t
  | .read b v, t => (fn.block b).awaited.get? v = some t
  | .result b i, t => ∃ inst, (fn.block b).code[i]? = some inst ∧ inst.result? = some t

/-- The source comes before the instruction `n` of the block `b`, whichever way `b` is reached. -/
def Source.Before (fn : Func) (b : BlockId) (n : Nat) : Source → Prop
  | .param _ => True
  | .read c _ => Dominates fn.Edge fn.entry c b
  | .result c i => c = b ∧ i < n ∨ StrictlyDominates fn.Edge fn.entry c b

/-- The temporary is known before the instruction `n` of the block `b`. -/
def Available (fn : Func) (b : BlockId) (n : Nat) (t : Temp) : Prop :=
  ∃ s, fn.Makes s t ∧ s.Before fn b n

/-- On some way from the top of the block `b` the variable is read before it is written. -/
def LiveIn (fn : Func) (v : Variable) (b : BlockId) : Prop :=
  ∃ c l, Walk fn.Edge b c l ∧ (∀ x ∈ l, ¬ fn.Writes v x) ∧
    ∃ t, (fn.block c).awaited.get? v = some t

theorem inScope_iff : fn.inScope v b = true ↔
    v ∈ (fn.block b).alive ∧ ∀ p ∈ (fn.block b).parents, v ∈ (fn.block p).alive := by
  simp [inScope]

/-- What is known of a function that has been filled, before SSA construction. -/
structure Fresh (fn : Func) : Prop extends Separate fn where
  home : (fn.block fn.entry).home = fn.entry
  unplaced : ∀ b, (fn.block b).pending = .empty

/-- The conditions on a function under which SSA construction keeps its meaning. -/
structure Ready (fn : Func) : Prop extends Fresh fn where
  rooted : fn.Rooted
  counts : ∀ a b, (fn.block b).parents.count a ≤ (fn.block a).children.count b
  targets : ∀ b ∈ fn.canonicalOrder, ∀ i ∈ (fn.block b).code, ∀ c ∈ i.targets, fn.Edge b c
  ends : ∀ b ∈ fn.canonicalOrder, ∀ n i, (fn.block b).code[n]? = some i → i.isTerminator →
    n + 1 = (fn.block b).code.length
  falls : ∀ b ∈ fn.canonicalOrder, (∀ i ∈ (fn.block b).code, i.isTerminator = false) →
    ∃ c, (fn.block b).children = [c] ∧ (fn.block c).owner? = some b
  operands : ∀ b ∈ fn.canonicalOrder, ∀ n i, (fn.block b).code[n]? = some i →
    ∀ t ∈ i.operands, fn.Available b n t
  written : ∀ b ∈ fn.canonicalOrder, ∀ v t, (fn.block b).written.get? v = some t →
    fn.Available b (fn.block b).code.length t
  alive : ∀ b ∈ fn.canonicalOrder, ∀ v ∈ (fn.block b).alive,
    ∃ x, fn.Writes v x ∧ Reachable fn.Edge x b
  live : ∀ b ∈ fn.canonicalOrder, ∀ v, fn.LiveIn v b → fn.inScope v b
  live_entry : ∀ v, ¬ fn.LiveIn v fn.entry

theorem mem_results : t ∈ fn.results b ↔ ∃ n, fn.Makes (.result b n) t := by
  simp only [results, List.mem_filterMap, Makes]
  constructor
  · rintro ⟨i, hi, ht⟩
    obtain ⟨n, hn⟩ := List.getElem?_of_mem hi
    exact ⟨n, i, hn, ht⟩
  · rintro ⟨n, i, hn, ht⟩
    exact ⟨i, List.mem_of_getElem? hn, ht⟩

/-- The place that a source belongs to. -/
def Source.origin : Source → Place
  | .param _ => .params
  | .read b _ => .reads b
  | .result b _ => .code b

theorem Makes.mem_made {s : Source} (h : fn.Makes s t) : t ∈ fn.made s.origin := by
  cases s with
  | param i => exact List.mem_of_getElem? h
  | read b v => exact Table.mem_values_of_get? h
  | result b i => exact mem_results.mpr ⟨i, h⟩

theorem Apart.lt_of_makes (h : fn.Apart) {s : Source} (hs : fn.Makes s t) : t < fn.temps.size :=
  h.lt _ t hs.mem_made

/-- If the temporaries are kept apart, every one comes from one source. -/
theorem Apart.single (h : fn.Apart) (s s' : Source) (t : Temp) (hs : fn.Makes s t)
    (hs' : fn.Makes s' t) : s = s' := by
  have hplace := h.eq _ _ t hs.mem_made hs'.mem_made
  cases s with
  | param i =>
    cases s' with
    | param j =>
      obtain ⟨hi, hs⟩ := List.getElem?_eq_some_iff.mp hs
      obtain ⟨hj, hs'⟩ := List.getElem?_eq_some_iff.mp hs'
      rw [(h.nodup .params).getElem_inj_iff.mp (hs.trans hs'.symm)]
    | _ => cases hplace
  | read b v =>
    cases s' with
    | read c w =>
      obtain rfl : b = c := Place.reads.inj hplace
      rw [Table.Injective.of_nodup_values (h.nodup (.reads b)) v w t hs hs']
    | _ => cases hplace
  | result b i =>
    cases s' with
    | result c j =>
      obtain rfl : b = c := Place.code.inj hplace
      obtain ⟨inst, hinst, ht⟩ := hs
      obtain ⟨inst', hinst', ht'⟩ := hs'
      obtain ⟨hi, rfl⟩ := List.getElem?_eq_some_iff.mp hinst
      obtain ⟨hj, rfl⟩ := List.getElem?_eq_some_iff.mp hinst'
      have hnodup := List.pairwise_filterMap.mp (h.nodup (.code b))
      rw [List.pairwise_iff_getElem] at hnodup
      rcases Nat.lt_trichotomy i j with hlt | rfl | hlt
      · exact absurd rfl (hnodup i j hi hj hlt t ht t ht')
      · rfl
      · exact absurd rfl (hnodup j i hj hi hlt t ht' t ht)
    | _ => cases hplace

theorem Available.mono {m : Nat} (h : fn.Available b n t) (hnm : n ≤ m) : fn.Available b m t := by
  obtain ⟨c, hmakes, hbefore⟩ := h
  refine ⟨c, hmakes, ?_⟩
  match c, hbefore with
  | .param _, _ => trivial
  | .read _ _, hc => exact hc
  | .result _ _, .inl ⟨hc, hi⟩ => exact .inl ⟨hc, hi.trans_le hnm⟩
  | .result _ _, .inr hc => exact .inr hc

theorem available_result (h : fn.Makes (.result b n) t) : fn.Available b (n + 1) t :=
  ⟨.result b n, h, .inl ⟨rfl, Nat.lt_succ_self n⟩⟩

theorem Available.of_succ (h : fn.Available b (n + 1) t) :
    fn.Available b n t ∨ fn.Makes (.result b n) t := by
  obtain ⟨c, hmakes, hbefore⟩ := h
  match c, hmakes, hbefore with
  | .param i, hmakes, hbefore => exact .inl ⟨_, hmakes, hbefore⟩
  | .read c v, hmakes, hbefore => exact .inl ⟨_, hmakes, hbefore⟩
  | .result c i, hmakes, .inr hc => exact .inl ⟨_, hmakes, .inr hc⟩
  | .result c i, hmakes, .inl ⟨hc, hi⟩ =>
    subst hc
    rcases Nat.lt_succ_iff_lt_or_eq.mp hi with hi | rfl
    · exact .inl ⟨_, hmakes, .inl ⟨rfl, hi⟩⟩
    · exact .inr hmakes

/-- What is available at the top of a block and does not come from it is available at the end of
each of its parents. -/
theorem available_pred {p : BlockId} {c : Source} (hpb : fn.Edge p b) (hmakes : fn.Makes c t)
    (hbefore : c.Before fn b 0) (hread : ∀ v, c ≠ .read b v) :
    fn.Available p (fn.block p).code.length t := by
  refine ⟨c, hmakes, ?_⟩
  match c, hmakes, hbefore with
  | .param i, _, _ => trivial
  | .read c v, _, hc =>
    have hne : c ≠ b := by
      rintro rfl
      exact hread v rfl
    exact StrictlyDominates.pred ⟨hc, hne⟩ hpb
  | .result c i, _, .inl hc => exact absurd hc.2 (Nat.not_lt_zero i)
  | .result c i, hmakes, .inr hc =>
    by_cases hcp : c = p
    · obtain ⟨inst, hinst, -⟩ := hmakes
      subst hcp
      exact .inl ⟨rfl, (List.getElem?_eq_some_iff.mp hinst).1⟩
    · exact .inr ⟨hc.pred hpb, hcp⟩

theorem Fresh.distinctReads (h : fn.Fresh) : fn.DistinctReads := by
  intro b v c w t hv hw
  cases h.single (.read b v) (.read c w) t hv hw
  exact ⟨rfl, rfl⟩

/-- No two instructions have the same result. -/
def DistinctResults (fn : Func) : Prop :=
  ∀ b i c j t, fn.Makes (.result b i) t → fn.Makes (.result c j) t → b = c ∧ i = j

theorem DistinctResults.nodup_results (h : fn.DistinctResults) (b : BlockId) :
    (fn.results b).Nodup := by
  refine List.pairwise_filterMap.mpr (List.pairwise_iff_getElem.mpr ?_)
  rintro i j hi hj hij t ht _ hu rfl
  have hsame := h b i b j t ⟨_, List.getElem?_eq_getElem hi, ht⟩ ⟨_, List.getElem?_eq_getElem hj, hu⟩
  exact Nat.ne_of_lt hij hsame.2

theorem DistinctResults.not_mem_results (h : fn.DistinctResults) (hb : t ∈ fn.results b)
    (hbc : b ≠ c) : t ∉ fn.results c := by
  intro hc
  obtain ⟨i, hi⟩ := mem_results.mp hb
  obtain ⟨j, hj⟩ := mem_results.mp hc
  exact hbc (h b i c j t hi hj).1

theorem Fresh.distinctResults (h : fn.Fresh) : fn.DistinctResults := by
  intro b i c j t hb hc
  simpa using h.single _ _ t hb hc

theorem liveIn_of_awaited (h : (fn.block b).awaited.get? v = some t) : fn.LiveIn v b :=
  ⟨b, [], .nil b, by simp, t, h⟩

theorem LiveIn.step (h : fn.LiveIn v c) (hb : ¬ fn.Writes v b) (k : fn.Edge b c) :
    fn.LiveIn v b := by
  obtain ⟨r, l, hl, hw, hr⟩ := h
  refine ⟨r, b :: l, .cons k hl, fun x hx => ?_, hr⟩
  rcases List.mem_cons.mp hx with rfl | hx
  · exact hb
  · exact hw x hx

/-- A variable that is live in a block is live wherever a walk without writes starts. -/
theorem LiveIn.of_walk {l : List BlockId} (h : fn.LiveIn v c) (hl : Walk fn.Edge b c l)
    (hw : ∀ x ∈ l, ¬ fn.Writes v x) : fn.LiveIn v b := by
  induction hl with
  | nil => exact h
  | cons hab _ ih =>
    exact (ih h fun x hx => hw x (List.mem_cons_of_mem _ hx)).step (hw _ (by simp)) hab

/-- A block without an end falls through to a child. -/
theorem Ready.exists_child (hr : fn.Ready) (hb : b ∈ fn.canonicalOrder)
    (h : ∀ i ∈ (fn.block b).code, i.isTerminator = false) :
    ∃ c, (fn.block b).children = [c] ∧ fn.Edge b c := by
  obtain ⟨c, hc, howner⟩ := hr.falls b hb h
  exact ⟨c, hc, List.mem_of_getLast? howner⟩

/-- Every walk from the entry to a block where a variable is live meets a block that writes it. -/
theorem Ready.exists_writes (hr : fn.Ready) (h : fn.LiveIn v b) {l : List BlockId}
    (hl : Walk fn.Edge fn.entry b l) : ∃ x ∈ l, fn.Writes v x := by
  by_contra hno
  exact hr.live_entry v (h.of_walk hl fun x hx hw => hno ⟨x, hx, hw⟩)

end SsaBlocks.Func
