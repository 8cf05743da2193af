import SsaBlocks.Proofs.SingleAssignment

/-!
# The phi nodes that are kept, in any graph

Deciding the phi nodes of a function fails if a block has a parent that nobody numbered or from which
no value of the variable can be found. If it completes, a phi node is kept where its variable is
alive, in the block and in all of its parents, and two different parents meet; it has one edge from
each of them. With one parent it is dropped and its result stands for the value from there.

## Main results

* `Func.nearestWritten?_nearest`: the search finds a nearest value
* `Func.Reached.phiKept_iff`: which phi nodes are kept, with their edges
-/

namespace SsaBlocks

open SsaBlocks.Flow List

theorem nodup_eraseDups {α : Type} [DecidableEq α] (l : List α) : l.eraseDups.Nodup := by
  induction h : l.length using Nat.strong_induction_on generalizing l with
  | _ n ih =>
    cases l with
    | nil => exact nodup_nil
    | cons a l =>
      rw [eraseDups_cons]
      have hlt : (l.filter fun b => !b == a).length < n := by
        rw [← h, length_cons]
        exact Nat.lt_succ_of_le (length_filter_le _ _)
      exact nodup_cons.mpr ⟨by simp, ih _ hlt _ rfl⟩

namespace Func

variable {fn cur : Func} {b c p q : BlockId} {v : Variable} {dest t u : Temp}

/-! ## The nearest value -/

/-- The value is written by a block at the least distance upward from `p`. -/
def Nearest (fn : Func) (v : Variable) (p : BlockId) (t : Temp) : Prop :=
  ∃ x l, Walk fn.Edge x p l ∧ (fn.block x).written.get? v = some t ∧
    ∀ y m, Walk fn.Edge y p m → m.length < l.length → (fn.block y).written.get? v = none

/-- The search has come to the blocks at distance `n` from `p`: those in `now` are still to be
looked at, those in `later` are one step further up. -/
structure Level (fn : Func) (v : Variable) (p : BlockId) (n : Nat)
    (seen now later : List BlockId) : Prop where
  walk_now : ∀ b ∈ now, ∃ l, Walk fn.Edge b p l ∧ l.length = n
  walk_later : ∀ b ∈ later, ∃ l, Walk fn.Edge b p l ∧ l.length = n + 1
  unwritten : ∀ b ∈ seen, (fn.block b).written.get? v = none
  nearer : ∀ b l, Walk fn.Edge b p l → l.length < n → b ∈ seen
  here : ∀ b l, Walk fn.Edge b p l → l.length = n → b ∈ seen ∨ b ∈ now
  parents : ∀ b ∈ seen, ∀ a, fn.Edge a b → a ∈ seen ∨ a ∈ now ∨ a ∈ later

namespace Level

variable {n : Nat} {seen now later queue : List BlockId}

theorem start (fn : Func) (v : Variable) (p : BlockId) : fn.Level v p 0 [] [p] [] where
  walk_now b hb := ⟨[], mem_singleton.mp hb ▸ .nil b, rfl⟩
  walk_later := by simp
  unwritten := by simp
  nearer _ _ _ hlt := absurd hlt (Nat.not_lt_zero _)
  here b l hl hlen := by
    obtain rfl := length_eq_zero_iff.mp hlen
    cases hl
    simp
  parents := by simp

/-- All blocks at one distance have been looked at. -/
theorem turn (h : fn.Level v p n seen [] later) : fn.Level v p (n + 1) seen later [] where
  walk_now := h.walk_later
  walk_later := by simp
  unwritten := h.unwritten
  nearer b l hl hlt := by
    rcases Nat.lt_succ_iff_lt_or_eq.mp hlt with hlt | heq
    · exact h.nearer b l hl hlt
    · simpa using h.here b l hl heq
  here b l hl hlen := by
    cases hl with
    | nil => cases hlen
    | @cons _ c _ m hbc hm =>
      have hc : c ∈ seen := by simpa using h.here c m hm (by simpa using hlen)
      simpa using h.parents c hc b hbc
  parents b hb a ha := by simpa using h.parents b hb a ha

theorem pass (h : fn.Level v p n seen (b :: now) later) (hb : b ∈ seen) :
    fn.Level v p n seen now later where
  walk_now c hc := h.walk_now c (mem_cons_of_mem _ hc)
  walk_later := h.walk_later
  unwritten := h.unwritten
  nearer := h.nearer
  here c l hl hlen := by grind [h.here c l hl hlen]
  parents c hc a ha := by grind [h.parents c hc a ha]

/-- A block that does not write the variable puts its parents on the list. -/
theorem expand (h : fn.Level v p n seen (b :: now) later)
    (hb : (fn.block b).written.get? v = none) :
    fn.Level v p n (b :: seen) now (later ++ (fn.block b).parents) where
  walk_now c hc := h.walk_now c (mem_cons_of_mem _ hc)
  walk_later c hc := by
    rcases mem_append.mp hc with hc | hc
    · exact h.walk_later c hc
    · obtain ⟨l, hl, hlen⟩ := h.walk_now b (by simp)
      exact ⟨c :: l, .cons hc hl, by simp [hlen]⟩
  unwritten := forall_mem_cons.mpr ⟨hb, h.unwritten⟩
  nearer c l hl hlt := mem_cons_of_mem _ (h.nearer c l hl hlt)
  here c l hl hlen := by grind [h.here c l hl hlen]
  parents c hc a ha := by
    rcases mem_cons.mp hc with rfl | hc
    · exact .inr (.inr (mem_append_right _ ha))
    · grind [h.parents c hc a ha]

/-- The next block of the queue is at the distance that the search has come to. -/
theorem exists_cons (h : fn.Level v p n seen now later) (hq : now ++ later = b :: queue) :
    ∃ n now later, fn.Level v p n seen (b :: now) later ∧ now ++ later = queue := by
  cases now with
  | nil =>
    rw [nil_append] at hq
    subst hq
    exact ⟨n + 1, queue, [], h.turn, by simp⟩
  | cons c now =>
    obtain ⟨rfl, rfl⟩ := cons.inj hq
    exact ⟨n, now, later, h, rfl⟩

theorem nearest (h : fn.Level v p n seen now later)
    (hfound : fn.Searches v seen (now ++ later) (some t)) : fn.Nearest v p t := by
  generalize hq : now ++ later = queue at hfound
  generalize hr : some t = r at hfound
  -- the queue is always split in two distances, whichever way the search goes on
  induction hfound generalizing n now later with
  | exhausted => cases hr
  | skip hb _ ih =>
    obtain ⟨n, now, later, h, rfl⟩ := h.exists_cons hq
    exact ih (h.pass hb) rfl hr
  | @found b _ _ u _ hw =>
    obtain ⟨n, now, later, h, -⟩ := h.exists_cons hq
    obtain ⟨l, hl, hlen⟩ := h.walk_now b (by simp)
    refine ⟨b, l, hl, hw.trans hr.symm, fun y m hm hlt => ?_⟩
    exact h.unwritten y (h.nearer y m hm (hlen ▸ hlt))
  | expand _ hw _ ih =>
    obtain ⟨n, now, later, h, rfl⟩ := h.exists_cons hq
    exact ih (h.expand hw) (append_assoc _ _ _).symm hr

end Level

theorem nearestWritten?_nearest (h : fn.nearestWritten? v [p] = some t) : fn.Nearest v p t :=
  (Level.start fn v p).nearest (h ▸ fn.searches_nearestWritten? v [p])

/-! ## What becomes of a phi node -/

/-- Whether the variable is alive in the block and its parents, of which there are two at least. -/
def keepsPhi (fn : Func) (v : Variable) (b : BlockId) : Bool :=
  fn.inScope v b && decide (1 < (fn.block b).parents.eraseDups.length)

/-- The value that the result of a phi node stands for, if it is not kept and the block has a
parent. -/
def standIn? (fn : Func) (b : BlockId) (v : Variable) (dest : Temp) : Option Temp :=
  if fn.inScope v b ∧ (fn.block b).parents.eraseDups.length = 1 then
    ((fn.block b).parents.eraseDups.head?.bind fun p => fn.nearestWritten? v [p]).filter (· ≠ dest)
  else none

/-- The values that the results of the phi nodes of a block stand for, added to others. -/
def addStandIns (fn : Func) (s : Substitution) (b : BlockId) : Substitution :=
  (fn.block b).pending.entries.foldl (fun s e => (fn.standIn? b e.1 e.2).elim s (s.insert e.2)) s

/-- The values that the results of dropped phi nodes stand for. -/
def standIns (fn : Func) : Substitution :=
  fn.order.foldl fn.addStandIns .empty

theorem one_lt_length_eraseDups_iff :
    1 < (fn.block b).parents.eraseDups.length ↔ ∃ p q, fn.Edge p b ∧ fn.Edge q b ∧ p ≠ q := by
  have hmem : ∀ p, p ∈ (fn.block b).parents.eraseDups ↔ fn.Edge p b := fun p => mem_eraseDups
  have hnodup := nodup_eraseDups (fn.block b).parents
  generalize (fn.block b).parents.eraseDups = sources at hmem hnodup ⊢
  rcases sources with _ | ⟨a, _ | ⟨c, rest⟩⟩
  · simp [← hmem]
  · refine ⟨fun h => absurd h (by simp), ?_⟩
    rintro ⟨p, q, hp, hq, hpq⟩
    have hp' := mem_singleton.mp ((hmem p).mpr hp)
    exact absurd (hp'.trans (mem_singleton.mp ((hmem q).mpr hq)).symm) hpq
  · refine ⟨fun _ => ⟨a, c, (hmem a).mp (by simp), (hmem c).mp (by simp), ?_⟩, fun _ => by simp⟩
    rintro rfl
    simp at hnodup

/-- The edges of a phi node can be told: every parent is numbered, and the variable has a value on
leaving it. -/
def Carried (fn : Func) (v : Variable) (b : BlockId) : Prop :=
  ∀ p, fn.Edge p b → (fn.block p).index.isSome ∧ fn.nearestWritten? v [p] = some (fn.valueOut v p)

theorem nearestWritten?_of_mapM {values : List (BlockId × Temp)}
    (h : ((fn.block b).parents.eraseDups.mapM fun p => do return (p, ← fn.valueFrom v p)) =
      .ok values) (hp : fn.Edge p b) : fn.nearestWritten? v [p] = some (fn.valueOut v p) := by
  obtain ⟨r, hr⟩ := forall_of_mapM_eq_ok h p (mem_eraseDups.mpr hp)
  obtain ⟨t, ht, -⟩ := bind_eq_ok.mp hr
  rw [valueFrom] at ht
  rw [valueOut]
  split at ht
  · next hu => rw [hu, Option.getD_some]
  · cases ht

theorem index_of_edgeSources {sources : List BlockId} (h : fn.edgeSources b = .ok sources) :
    sources = sortByKey fn.blockIndex (fn.block b).parents.eraseDups ∧
      ∀ p, fn.Edge p b → (fn.block p).index.isSome := by
  simp only [edgeSources] at h
  split at h
  · cases h
  · next hnone =>
    refine ⟨(Except.ok.inj h).symm, fun p hp => ?_⟩
    have := find?_eq_none.mp hnone p (mem_eraseDups.mpr hp)
    simpa [Option.isSome_iff_ne_none] using this

/-- A phi node that can be decided is kept, stands for a value or is dropped. -/
theorem phiFate_eq_ok {fate : PhiFate} (h : fn.phiFate b v dest = .ok fate) :
    (fn.keepsPhi v b ∧ fate = .kept (fn.phiNode b v dest) ∧ fn.Carried v b) ∨
      fn.keepsPhi v b = false ∧ fate = (fn.standIn? b v dest).elim .dropped (.renamed dest) := by
  by_cases hscope : fn.inScope v b
  · rw [phiFate, if_neg (by simp [hscope])] at h
    obtain ⟨values, hvalues, h⟩ := bind_eq_ok.mp h
    have hfound : ∀ p, fn.Edge p b → fn.nearestWritten? v [p] = some (fn.valueOut v p) :=
      fun p hp => nearestWritten?_of_mapM hvalues hp
    obtain rfl : values = (fn.block b).parents.eraseDups.map fun p => (p, fn.valueOut v p) := by
      refine Except.ok.inj (hvalues.symm.trans (mapM_eq_map fun p hp => ?_))
      rw [valueFrom, hfound p (mem_eraseDups.mp hp)]
      rfl
    have hedges := fn.edges_phiNode b v dest
    have hsole : ∀ p, (fn.block b).parents.eraseDups = [p] → fn.Edge p b :=
      fun p hp => mem_eraseDups.mp (hp ▸ mem_singleton_self p)
    rw [keepsPhi, standIn?, hscope]
    rcases hsources : (fn.block b).parents.eraseDups with _ | ⟨p, _ | ⟨q, rest⟩⟩
    · rw [hsources] at h
      exact .inr ⟨rfl, (Except.ok.inj h).symm⟩
    · rw [hsources] at h
      refine .inr ⟨by simp, (Except.ok.inj h).symm.trans ?_⟩
      by_cases hdest : fn.valueOut v p = dest
      · simp [hfound p (hsole p hsources), hdest, Option.filter]
      · simp [hfound p (hsole p hsources), hdest, Option.filter]
    · rw [hsources] at h hedges
      obtain ⟨sources, hs, h⟩ := bind_eq_ok.mp h
      obtain ⟨rfl, hindex⟩ := index_of_edgeSources hs
      refine .inl ⟨by simp, (Except.ok.inj h).symm.trans ?_, fun p hp => ⟨hindex p hp, hfound p hp⟩⟩
      rw [hsources]
      exact congrArg (fun edges => PhiFate.kept { dest, var := v, edges }) hedges
  · rw [phiFate, if_pos (by simp [hscope])] at h
    rw [keepsPhi, standIn?, if_neg (by simp [hscope])]
    exact .inr ⟨by simp [hscope], (Except.ok.inj h).symm⟩

/-! ## All blocks -/

theorem standIn?_of_keepsPhi (h : fn.keepsPhi v b) : fn.standIn? b v dest = none := by
  rw [keepsPhi, Bool.and_eq_true, decide_eq_true_eq] at h
  exact if_neg fun hone => by omega

/-- The phi nodes of a block that are kept, before the results of others are replaced. -/
def joinedPhis (fn : Func) (b : BlockId) : List Phi :=
  ((fn.block b).pending.entries.filter fun e => fn.keepsPhi e.1 b).map fun e =>
    fn.phiNode b e.1 e.2

theorem computePhisIn_eq_ok {dropped dropped' : Substitution}
    (h : computePhisIn (fn, dropped) b = .ok (cur, dropped')) :
    cur = fn.modify b (fun blk => { blk with phis := fn.joinedPhis b }) ∧
      dropped' = fn.addStandIns dropped b ∧
      ∀ e ∈ (fn.block b).pending.entries, fn.keepsPhi e.1 b → fn.Carried e.1 b := by
  rw [computePhisIn_def] at h
  obtain ⟨s, hfold, h⟩ := bind_eq_ok.mp h
  obtain ⟨rfl, rfl⟩ := Prod.mk.inj (Except.ok.inj h)
  suffices hs : s = (fn.joinedPhis b, fn.addStandIns dropped b) ∧
      ∀ e ∈ (fn.block b).pending.entries, fn.keepsPhi e.1 b → fn.Carried e.1 b by
    rw [hs.1]
    exact ⟨rfl, rfl, hs.2⟩
  refine foldlM_invariant (fun done (s : List Phi × Substitution) =>
    s = ((done.filter fun e => fn.keepsPhi e.1 b).map fun e => fn.phiNode b e.1 e.2,
      done.foldl (fun s e => (fn.standIn? b e.1 e.2).elim s (s.insert e.2)) dropped) ∧
      ∀ e ∈ done, fn.keepsPhi e.1 b → fn.Carried e.1 b) hfold ⟨rfl, by simp⟩ ?_
  rintro done e rest _ s' - ⟨rfl, hdone⟩ hok
  obtain ⟨fate, hfate, hok⟩ := bind_eq_ok.mp hok
  rcases phiFate_eq_ok hfate with ⟨hkeeps, rfl, hcarried⟩ | ⟨hkeeps, rfl⟩
  · obtain rfl := Except.ok.inj hok
    refine ⟨?_, forall_mem_append.mpr ⟨hdone, by simpa using fun _ => hcarried⟩⟩
    simp [hkeeps, standIn?_of_keepsPhi hkeeps]
  · refine ⟨?_, forall_mem_append.mpr ⟨hdone, by simp [hkeeps]⟩⟩
    cases hstand : fn.standIn? b e.1 e.2 with
    | none | some =>
      rw [hstand] at hok
      obtain rfl := Except.ok.inj hok
      simp [hkeeps, hstand]

namespace SamePhis

theorem keepsPhi (h : fn.SamePhis cur) : cur.keepsPhi = fn.keepsPhi := by
  funext v b
  simp only [Func.keepsPhi, h.inScope, h.parents]

theorem joinedPhis (h : fn.SamePhis cur) : cur.joinedPhis = fn.joinedPhis := by
  funext b
  simp only [Func.joinedPhis, h.pending, h.keepsPhi, h.phiNode]

theorem addStandIns (h : fn.SamePhis cur) : cur.addStandIns = fn.addStandIns := by
  funext s b
  simp only [Func.addStandIns, standIn?, h.pending, h.inScope, h.parents, h.nearestWritten?]

theorem carried (h : fn.SamePhis cur) : cur.Carried = fn.Carried := by
  funext v b
  simp only [Func.Carried, h.edge, h.index, h.nearestWritten?, valueOut]

end SamePhis

/-- If the phi nodes can be decided, those of every block in order are as they should be. -/
theorem phis_computePhis (hok : fn.computePhis = .ok cur) (hnodup : fn.order.Nodup)
    (hlt : ∀ b ∈ fn.order, b < fn.blocks.size) (hb : b ∈ fn.order) :
    (cur.block b).phis = (fn.joinedPhis b).map (Phi.substitute fn.standIns.close.apply) ∧
      ∀ e ∈ (fn.block b).pending.entries, fn.keepsPhi e.1 b → fn.Carried e.1 b := by
  obtain ⟨⟨mid, dropped⟩, hfold, hok⟩ := bind_eq_ok.mp hok
  obtain rfl := Except.ok.inj hok
  obtain ⟨hedits, rfl, hblock, hcarried⟩ := foldlM_invariant
    (fun done (s : Func × Substitution) => fn.Edits s.1 ∧ s.2 = done.foldl fn.addStandIns .empty ∧
      (∀ c, s.1.block c =
        if c ∈ done then { fn.block c with phis := fn.joinedPhis c } else fn.block c) ∧
      ∀ c ∈ done, ∀ e ∈ (fn.block c).pending.entries, fn.keepsPhi e.1 c → fn.Carried e.1 c)
    hfold ⟨.refl fn, rfl, fun c => by simp, by simp⟩ (by
      rintro done b rest ⟨cur, _⟩ ⟨cur', dropped'⟩ hsplit ⟨hedits, rfl, hblock, hcarried⟩ hok
      have hsame : fn.SamePhis cur := by
        refine ⟨hedits.size, fun c => ?_⟩
        rw [hblock c]
        split <;> rfl
      obtain ⟨rfl, rfl, hb⟩ := computePhisIn_eq_ok hok
      rw [hsame.pending, hsame.keepsPhi, hsame.carried] at hb
      refine ⟨hedits.trans (.modify _ _ _), by simp [hsame.addStandIns], fun c => ?_,
        forall_mem_append.mpr ⟨hcarried, by simpa using hb⟩⟩
      have hlt' : b < cur.blocks.size := hedits.size ▸ hlt b (by rw [hsplit]; simp)
      by_cases hc : c = b
      · subst hc
        rw [block_modify_self hlt', hsame.joinedPhis, if_pos (by simp), hblock c]
        split <;> rfl
      · rw [block_modify_ne (Ne.symm hc), hblock c]
        simp [hc])
  refine ⟨?_, hcarried b hb⟩
  have horder : mid.order = fn.order := hedits.order
  rw [substitute, horder, block_foldl_modify (fun _ => Block.substitute _) hnodup
    (fun c hc => hedits.size ▸ hlt c hc), if_pos hb, hblock b, if_pos hb]
  rfl

/-! ## The phi nodes that are kept -/

/-- A variable has one phi node in a block, if it is kept. -/
theorem filter_phis (hord : (fn.block b).pending.Ordered)
    (hphi : (fn.block b).pending.get? v = some dest) (f : Temp → Temp) :
    ((fn.joinedPhis b).map (Phi.substitute f)).filter (·.var = v) =
      if fn.keepsPhi v b then [(fn.phiNode b v dest).substitute f] else [] := by
  have hkey : (fn.block b).pending.entries.filter (·.1 = v) = [(v, dest)] := by
    refine perm_singleton.mp ((perm_ext_iff_of_nodup ?_ (nodup_singleton _)).mpr ?_)
    · exact (List.Nodup.of_map _ hord.nodup_keys).filter _
    · rintro ⟨w, t⟩
      rw [mem_filter, hord.mem_entries, mem_singleton, decide_eq_true_eq, Prod.mk.injEq]
      constructor
      · rintro ⟨ht, rfl⟩
        exact ⟨rfl, Option.some.inj (ht.symm.trans hphi)⟩
      · rintro ⟨rfl, rfl⟩
        exact ⟨hphi, rfl⟩
  have hpred : ∀ e ∈ (fn.block b).pending.entries, (((fun n : Phi => decide (n.var = v)) ∘
      (Phi.substitute f ∘ fun e => fn.phiNode b e.1 e.2)) e && fn.keepsPhi e.1 b) =
        (decide (e.1 = v) && fn.keepsPhi v b) := by
    rintro ⟨w, t⟩ -
    by_cases hw : w = v
    · rw [hw]
      rfl
    · simp [hw, phiNode, Phi.substitute]
  rw [joinedPhis, map_map, filter_map, filter_filter, filter_congr hpred]
  by_cases hk : fn.keepsPhi v b
  · simp [hk, hkey]
  · simp [hk]

/-- The phi node for `v` that has been kept in `b`: there is one edge from each parent, in
increasing order of index, which carries the nearest value found from there upward. -/
structure PhiKept (fn : Func) (b : BlockId) (v : Variable) (dest : Temp) (node : Phi) : Prop where
  var : node.var = v
  dest : node.dest = dest
  nodup : (node.edges.map (·.1)).Nodup
  sources : ∀ p, p ∈ node.edges.map (·.1) ↔ fn.Edge p b
  increasing : node.edges.Pairwise fun e e' => ∃ i j, (fn.block e.1).index = some i ∧
    (fn.block e'.1).index = some j ∧ i < j
  value : ∀ e ∈ node.edges, ∃ t, fn.nearestWritten? v [e.1] = some t ∧ fn.Nearest v e.1 t ∧
    e.2 = fn.standIns.close.apply t

/-- A phi node that can be told, with the results of others replaced. -/
theorem Carried.phiKept (h : fn.Carried v b) (hr : fn.Recorded) (dest : Temp) :
    fn.PhiKept b v dest ((fn.phiNode b v dest).substitute fn.standIns.close.apply) := by
  have hperm := sortByKey_perm fn.blockIndex (fn.block b).parents.eraseDups
  have hmem : ∀ p, p ∈ sortByKey fn.blockIndex (fn.block b).parents.eraseDups ↔ fn.Edge p b :=
    fun p => hperm.mem_iff.trans mem_eraseDups
  have hnodup := hperm.nodup_iff.mpr (nodup_eraseDups (fn.block b).parents)
  have hedges : ((fn.phiNode b v dest).substitute fn.standIns.close.apply).edges =
      (sortByKey fn.blockIndex (fn.block b).parents.eraseDups).map fun p =>
        (p, fn.standIns.close.apply (fn.valueOut v p)) := map_map ..
  have hsources : ((fn.phiNode b v dest).substitute fn.standIns.close.apply).edges.map (·.1) =
      sortByKey fn.blockIndex (fn.block b).parents.eraseDups := by
    rw [hedges, map_map]
    exact map_id _
  refine ⟨rfl, rfl, hsources ▸ hnodup, fun p => hsources ▸ hmem p, ?_, ?_⟩
  · rw [hedges, pairwise_map]
    refine ((pairwise_sortByKey _ _).and hnodup).imp_of_mem fun {p q} hp hq hpq => ?_
    obtain ⟨hle, hne⟩ := hpq
    obtain ⟨i, hi⟩ := Option.isSome_iff_exists.mp (h p ((hmem p).mp hp)).1
    obtain ⟨j, hj⟩ := Option.isSome_iff_exists.mp (h q ((hmem q).mp hq)).1
    refine ⟨i, j, hi, hj, lt_of_le_of_ne ?_ fun hij => hne ?_⟩
    · rwa [blockIndex, blockIndex, hi, hj] at hle
    · -- different blocks have different numbers
      subst hij
      exact Option.some.inj (((hr.index p i).mp hi).symm.trans ((hr.index q i).mp hj))
  · rw [hedges]
    rintro e he
    obtain ⟨p, hp, rfl⟩ := mem_map.mp he
    have hfound := (h p ((hmem p).mp hp)).2
    exact ⟨_, hfound, nearestWritten?_nearest hfound, rfl⟩

/-- Whatever the graph is, if the phi nodes of a function can be decided, one that was asked for is
kept if and only if its variable is alive in the block and in all of its parents, of which there are
two different ones; it is then kept once. -/
theorem Reached.phiKept_iff (h : fn.Reached)
    (hok : Build.advance .phisComputed fn = (.ok (), cur))
    (hphi : (fn.block b).pending.get? v = some dest) :
    ((∃ node ∈ (cur.block b).phis, node.var = v) ↔
      (v ∈ (fn.block b).alive ∧ ∀ p, fn.Edge p b → v ∈ (fn.block p).alive) ∧
        ∃ p q, fn.Edge p b ∧ fn.Edge q b ∧ p ≠ q) ∧
    ∀ node ∈ (cur.block b).phis, node.var = v →
      fn.PhiKept b v dest node ∧ (cur.block b).phis.filter (·.var = v) = [node] := by
  have hs := h.staged
  have hcomputed : (fn.atStage .phisComputed).computePhis = .ok cur := (advance_eq_ok hok).2
  obtain ⟨hphis, hcarried⟩ :=
    phis_computePhis hcomputed hs.nodup hs.lt (hs.pending b v (by simp [hphi]))
  have hsame : fn.SamePhis (fn.atStage .phisComputed) := ⟨rfl, fun _ => rfl⟩
  have hstandIns : (fn.atStage .phisComputed).standIns = fn.standIns := by
    rw [standIns, hsame.addStandIns]
    rfl
  rw [hsame.joinedPhis, hstandIns] at hphis
  rw [hsame.pending, hsame.keepsPhi, hsame.carried] at hcarried
  have hentry : (v, dest) ∈ (fn.block b).pending.entries :=
    (hs.pending_ordered b).mem_entries.mpr hphi
  have hone := filter_phis (hs.pending_ordered b) hphi fn.standIns.close.apply
  rw [← hphis] at hone
  have hkeeps : fn.keepsPhi v b ↔ (v ∈ (fn.block b).alive ∧
      ∀ p, fn.Edge p b → v ∈ (fn.block p).alive) ∧ ∃ p q, fn.Edge p b ∧ fn.Edge q b ∧ p ≠ q := by
    rw [keepsPhi, Bool.and_eq_true, decide_eq_true_eq, one_lt_length_eraseDups_iff, inScope_iff]
    rfl
  have hmem : ∀ node, node ∈ (cur.block b).phis ∧ node.var = v ↔
      fn.keepsPhi v b ∧ node = (fn.phiNode b v dest).substitute fn.standIns.close.apply := by
    intro node
    have hnode : node ∈ (cur.block b).phis.filter (·.var = v) ↔
        node ∈ (cur.block b).phis ∧ node.var = v := by
      rw [mem_filter, decide_eq_true_eq]
    rw [← hnode, hone]
    split
    · next hk => simp [hk]
    · next hk => simp [hk]
  refine ⟨?_, fun node hnode hvar => ?_⟩
  · rw [← hkeeps]
    exact ⟨fun hex => hex.elim fun node hnode => ((hmem node).mp hnode).1,
      fun hk => ⟨_, (hmem _).mpr ⟨hk, rfl⟩⟩⟩
  · obtain ⟨hk, rfl⟩ := (hmem node).mp ⟨hnode, hvar⟩
    refine ⟨(hcarried _ hentry hk).phiKept hs.toRecorded dest, ?_⟩
    rw [hone, if_pos hk]

/-- The loop that counts down, with the reads of its variable resolved. -/
def countdownResolved : Func :=
  ([Stage.blocksRemoved, .loadsRemoved, .blocksNumbered, .dominance, .frontier, .phisPlaced,
    .phisResolved].forM Build.advance countdown).2

theorem phiKept_countdownResolved :
    countdownResolved.Reached ∧ (countdownResolved.block 1).pending.get? counter = some 1 ∧
      ∃ cur, Build.advance .phisComputed countdownResolved = (.ok (), cur) ∧
        ∃ node ∈ (cur.block 1).phis, node.var = counter ∧
          countdownResolved.PhiKept 1 counter 1 node := by
  have hreached : countdownResolved.Reached :=
    ((Reached.make _ _ _).fills _).advances (by decide +kernel)
  have hphi : (countdownResolved.block 1).pending.get? counter = some 1 := by decide +kernel
  have hfirst : (Build.advance .phisComputed countdownResolved).1 = .ok () := by decide +kernel
  generalize hok : Build.advance .phisComputed countdownResolved = done at hfirst
  obtain ⟨_, cur⟩ := done
  obtain rfl := hfirst
  obtain ⟨hiff, hkept⟩ := hreached.phiKept_iff hok hphi
  have hscope : countdownResolved.keepsPhi counter 1 := by decide +kernel
  rw [keepsPhi, Bool.and_eq_true, decide_eq_true_eq, one_lt_length_eraseDups_iff,
    inScope_iff] at hscope
  obtain ⟨node, hnode, hvar⟩ := hiff.mpr hscope
  exact ⟨hreached, hphi, cur, rfl, node, hnode, hvar, (hkept node hnode hvar).1⟩

end Func

end SsaBlocks
