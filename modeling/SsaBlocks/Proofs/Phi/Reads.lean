import SsaBlocks.Phi.Reads
import SsaBlocks.Proofs.Dominance.Dominators
import SsaBlocks.Proofs.Fold

/-!
# The values that placeholders stand for

The search for the value of a variable goes up from the parents of a block and ends at blocks that
write the variable: at a block where some walk to the place of the read meets such a block for the
last time. It finds one if there is any. The climb for all placeholders of a block at once finds
what the search finds for each of them.

## Main results

* `Func.nearestWritten?_sound`, `Func.nearestWritten?_complete`: what the search finds
* `Func.findReads_sound`, `Func.exists_findReads`: the values found for the placeholders of a block
* `Func.findReads_agrees_with_search`: they are those that the search finds one by one
-/

namespace SsaBlocks

open SsaBlocks.Flow List

/-- The variable has a value of its own when the block is left. -/
def Graph.Writes (g : Graph) (v : Variable) (b : BlockId) : Prop :=
  ((g.block b).written.get? v).isSome

/-- A phi node for the variable has been placed in the block. -/
def Graph.HasPhi (g : Graph) (v : Variable) (b : BlockId) : Prop :=
  ((g.block b).pending.get? v).isSome

namespace Func

variable {fn : Func} {v w : Variable} {b q x : BlockId} {t u : Temp}

/-! ## The search among all ancestors -/

/-- The search for a written value among the blocks of a queue and what comes before them, as long
as it takes. -/
inductive Searches (fn : Func) (v : Variable) :
    List BlockId → List BlockId → Option Temp → Prop
  | exhausted {seen : List BlockId} : Searches fn v seen [] none
  | skip {b : BlockId} {seen queue : List BlockId} {r : Option Temp} : b ∈ seen →
    Searches fn v seen queue r → Searches fn v seen (b :: queue) r
  | found {b : BlockId} {seen queue : List BlockId} {t : Temp} : b ∉ seen →
    (fn.block b).written.get? v = some t → Searches fn v seen (b :: queue) (some t)
  | expand {b : BlockId} {seen queue : List BlockId} {r : Option Temp} : b ∉ seen →
    (fn.block b).written.get? v = none →
    Searches fn v (b :: seen) (queue ++ (fn.block b).parents) r → Searches fn v seen (b :: queue) r

section Search

variable {steps : Nat} {seen queue : List BlockId}

theorem searches_searchWritten
    (hsteps : queue.length + fn.unseen (·.parents.length) seen < steps) :
    fn.Searches v seen queue (fn.searchWritten v steps seen queue) := by
  induction steps generalizing seen queue with
  | zero => omega
  | succ steps ih =>
    match queue with
    | [] => exact .exhausted
    | b :: queue =>
      rw [length_cons] at hsteps
      rw [searchWritten]
      by_cases hb : b ∈ seen
      · rw [if_pos hb]
        exact .skip hb (ih (by omega))
      · rw [if_neg hb]
        cases hw : (fn.block b).written.get? v with
        | some t => exact .found hb hw
        | none =>
          have hsum : fn.unseen (·.parents.length) seen =
              (fn.block b).parents.length + fn.unseen (·.parents.length) (b :: seen) :=
            fn.unseen_insert rfl hb (by simp)
          exact .expand hb hw (ih (by rw [length_append]; omega))

theorem searches_nearestWritten? (fn : Func) (v : Variable) (start : List BlockId) :
    fn.Searches v [] start (fn.nearestWritten? v start) := by
  refine searches_searchWritten ?_
  rw [← Graph.parentCount_eq]
  omega

theorem Searches.sound (h : fn.Searches v seen queue (some t)) :
    ∃ q ∈ queue, ∃ x, LastBy fn.Edge (fn.Writes v) x q ∧ (fn.block x).written.get? v = some t := by
  generalize hr : some t = r at h
  induction h with
  | exhausted => cases hr
  | skip _ _ ih =>
    obtain ⟨q, hq, hx⟩ := ih hr
    exact ⟨q, mem_cons_of_mem _ hq, hx⟩
  | @found b _ _ _ _ hu =>
    cases hr
    exact ⟨b, by simp, b, .inl ⟨by simp [Graph.Writes, hu], rfl⟩, hu⟩
  | @expand b _ _ _ _ hnone _ ih =>
    obtain ⟨q, hq, x, hx, ht⟩ := ih hr
    rcases mem_append.mp hq with hq | hq
    · exact ⟨q, mem_cons_of_mem _ hq, x, hx, ht⟩
    · exact ⟨b, by simp, x, .inr ⟨by simp [Graph.Writes, hnone], lastAt_iff.mpr ⟨q, hq, hx⟩⟩, ht⟩

/-- A search that finds nothing has gone through all ancestors, none of which writes. -/
theorem Searches.unwritten (h : fn.Searches v seen queue none)
    (hseen : ∀ b ∈ seen, ¬ fn.Writes v b ∧ ∀ p, fn.Edge p b → p ∈ seen ∨ p ∈ queue) :
    ∃ all : List BlockId, seen ⊆ all ∧ queue ⊆ all ∧
      ∀ b ∈ all, ¬ fn.Writes v b ∧ ∀ p, fn.Edge p b → p ∈ all := by
  generalize hr : none = r at h
  induction h with
  | @exhausted seen => exact ⟨seen, by simp, by simp, by simpa using hseen⟩
  | skip hb _ ih =>
    obtain ⟨all, h₁, h₂, h₃⟩ := ih (fun c hc => ⟨(hseen c hc).1, fun p hp => by grind⟩) hr
    exact ⟨all, h₁, cons_subset.mpr ⟨h₁ hb, h₂⟩, h₃⟩
  | found => cases hr
  | @expand b seen queue _ _ hw _ ih =>
    have hb : ¬ fn.Writes v b ∧ ∀ p, fn.Edge p b → p ∈ (fn.block b).parents :=
      ⟨by simp [Graph.Writes, hw], fun _ => id⟩
    obtain ⟨all, h₁, h₂, h₃⟩ := ih (fun c hc => by grind) hr
    obtain ⟨hb, h₁⟩ := cons_subset.mp h₁
    exact ⟨all, h₁, cons_subset.mpr ⟨hb, (append_subset.mp h₂).1⟩, h₃⟩

end Search

theorem nearestWritten?_sound {start : List BlockId} (h : fn.nearestWritten? v start = some t) :
    ∃ q ∈ start, ∃ x, LastBy fn.Edge (fn.Writes v) x q ∧ (fn.block x).written.get? v = some t :=
  (h ▸ fn.searches_nearestWritten? v start).sound

theorem nearestWritten?_complete {start : List BlockId} (hq : q ∈ start)
    (hx : LastBy fn.Edge (fn.Writes v) x q) : ∃ t, fn.nearestWritten? v start = some t := by
  by_contra hnone
  have hnone : fn.nearestWritten? v start = none :=
    Option.eq_none_iff_forall_ne_some.mpr fun t ht => hnone ⟨t, ht⟩
  obtain ⟨all, -, hstart, hall⟩ := (hnone ▸ fn.searches_nearestWritten? v start).unwritten (by simp)
  obtain ⟨l, hl⟩ := hx.reachable
  have hmem := hl.of_end (P := (· ∈ all)) (hstart hq) fun p c hpc hc => (hall c hc).2 p hpc
  exact (hall x hmem.1).1 hx.mem

theorem nearestWritten?_parents_sound (h : fn.nearestWritten? v (fn.block b).parents = some t) :
    ∃ x, LastAt fn.Edge (fn.Writes v) x b ∧ (fn.block x).written.get? v = some t := by
  obtain ⟨q, hq, x, hx, ht⟩ := nearestWritten?_sound h
  exact ⟨x, lastAt_iff.mpr ⟨q, hq, hx⟩, ht⟩

theorem nearestWritten?_parents_complete (hx : LastAt fn.Edge (fn.Writes v) x b) :
    ∃ t, fn.nearestWritten? v (fn.block b).parents = some t := by
  obtain ⟨q, hq, hxq⟩ := lastAt_iff.mp hx
  exact nearestWritten?_complete hq hxq

/-- If the value can only come from one block, the search finds what that block writes. -/
theorem nearestWritten?_parents_eq (h : ∀ y, LastAt fn.Edge (fn.Writes v) y b ↔ y = x) :
    fn.nearestWritten? v (fn.block b).parents = (fn.block x).written.get? v := by
  obtain ⟨t, ht⟩ := nearestWritten?_parents_complete ((h x).mpr rfl)
  obtain ⟨y, hy, hyt⟩ := nearestWritten?_parents_sound ht
  rw [ht, ← (h y).mp hy, hyt]

/-! ## The placeholders of a block -/

/-- What the search finds has been found for the placeholders of the block `b`, as `awaited` lists
them, when those in `s` are left. -/
structure Resolves (fn : Func) (b : BlockId) (awaited : Table Variable Temp) (s : Resolving) :
    Prop where
  sub : ∀ v t, s.awaited.get? v = some t → awaited.get? v = some t
  found : ∀ v t, awaited.get? v = some t → s.awaited.get? v = none →
    ∃ u, fn.nearestWritten? v (fn.block b).parents = some u ∧ s.found.get? t = some u
  keys : ∀ t u, s.found.get? t = some u → ∃ v, awaited.get? v = some t
  ordered : s.found.Ordered

namespace Resolves

variable {awaited : Table Variable Temp} {s : Resolving}

theorem refl (fn : Func) (b : BlockId) (awaited : Table Variable Temp) :
    fn.Resolves b awaited { awaited, found := .empty } where
  sub _ _ h := h
  found v t h hn := by
    rw [h] at hn
    cases hn
  keys t u h := by cases h
  ordered := Table.ordered_empty

theorem resolve (h : fn.Resolves b awaited s) (hinj : awaited.Injective)
    (hu : fn.nearestWritten? v (fn.block b).parents = some u) :
    fn.Resolves b awaited (s.resolve v u) ∧
      ∀ w, (s.resolve v u).awaited.get? w = if v = w then none else s.awaited.get? w := by
  rw [Resolving.resolve]
  cases ht : s.awaited.get? v with
  | none =>
    refine ⟨h, fun w => ?_⟩
    by_cases hvw : v = w
    · rw [if_pos hvw, ← hvw, ht]
    · rw [if_neg hvw]
  | some t =>
    refine ⟨⟨fun w z hz => ?_, fun w z hz hnone => ?_, fun z y hz => ?_,
      h.ordered.insert t u⟩, fun w => ?_⟩
    · rw [Table.get?_erase] at hz
      split at hz
      · cases hz
      · exact h.sub w z hz
    · have hvt := h.sub v t ht
      rw [Table.get?_erase] at hnone
      by_cases hvw : v = w
      · subst hvw
        rw [hvt] at hz
        obtain rfl := Option.some.inj hz
        exact ⟨u, hu, by simp⟩
      · rw [if_neg hvw] at hnone
        obtain ⟨o, ho, hfound⟩ := h.found w z hz hnone
        refine ⟨o, ho, ?_⟩
        have htz : t ≠ z := by
          rintro rfl
          exact hvw (hinj v w t hvt hz)
        rw [Table.get?_insert, if_neg htz, hfound]
    · rw [Table.get?_insert] at hz
      split at hz
      · next htz => exact ⟨v, htz ▸ h.sub v t ht⟩
      · exact h.keys z y hz
    · rw [Table.get?_erase]

/-- Taking values from a block if the search finds what it writes. -/
theorem takeFrom (h : fn.Resolves b awaited s) (hinj : awaited.Injective)
    (hq : ∀ v t u, s.awaited.get? v = some t → (fn.block q).written.get? v = some u →
      fn.nearestWritten? v (fn.block b).parents = some u) :
    fn.Resolves b awaited (s.takeFrom (fn.block q)) ∧
      ∀ v, (s.takeFrom (fn.block q)).awaited.get? v =
        if ((fn.block q).written.get? v).isSome then none else s.awaited.get? v := by
  have hfold : fn.Resolves b awaited (s.takeFrom (fn.block q)) ∧
      ∀ v, (s.takeFrom (fn.block q)).awaited.get? v =
        if v ∈ s.awaited.keys ∧ ((fn.block q).written.get? v).isSome then none
        else s.awaited.get? v := by
    rw [Resolving.takeFrom]
    refine foldl_invariant (fun done s' => fn.Resolves b awaited s' ∧ ∀ v, s'.awaited.get? v =
      if v ∈ done ∧ ((fn.block q).written.get? v).isSome then none else s.awaited.get? v)
      ⟨h, by simp⟩ ?_
    rintro done v rest s' hsplit ⟨hs', hawaited⟩
    cases hu : (fn.block q).written.get? v with
    | none =>
      refine ⟨hs', fun w => ?_⟩
      rw [hawaited w]
      refine if_congr ?_ rfl rfl
      rw [mem_append, mem_singleton, or_and_right]
      refine (or_iff_left ?_).symm
      rintro ⟨rfl, hw⟩
      simp [hu] at hw
    | some u =>
      obtain ⟨t, ht⟩ := Table.mem_keys.mp (show v ∈ s.awaited.keys by rw [hsplit]; simp)
      obtain ⟨h₁, h₂⟩ := hs'.resolve hinj (hq v t u ht hu)
      refine ⟨h₁, fun w => ?_⟩
      rw [h₂ w, hawaited w]
      by_cases hvw : v = w
      · subst hvw
        simp [hu]
      · simp [hvw, Ne.symm hvw]
  refine ⟨hfold.1, fun v => (hfold.2 v).trans ?_⟩
  by_cases hv : v ∈ s.awaited.keys
  · simp [hv]
  · simp [hv, Table.get?_eq_none.mpr hv]

end Resolves

/-- A single parent of a block comes before it. -/
def ClimbsIn (fn : Func) (order : List BlockId) : Prop :=
  ∀ b ∈ order, ∀ p, (fn.block b).parents = [p] → p ∈ order ∧ order.idxOf p < order.idxOf b

theorem climbsIn_canonicalOrder (hentry : (fn.block fn.entry).parents = []) :
    fn.ClimbsIn fn.canonicalOrder := by
  intro b hb p hp
  rcases exists_owner_before hb with rfl | ⟨o, ho, hob, hlt⟩
  · rw [hentry] at hp
    cases hp
  · have howner := (owns_iff.mp hob).2
    rw [Block.owner?, hp] at howner
    obtain rfl : p = o := by simpa using howner
    exact ⟨ho, hlt⟩

theorem Resolves.exists_climb {awaited : Table Variable Temp} {s : Resolving}
    {order : List BlockId} {steps : Nat} (hup : fn.ClimbsIn order) (hinj : awaited.Injective)
    (h : fn.Resolves b awaited s) (hq : q ∈ order) (hsteps : order.idxOf q < steps)
    (hlast : ∀ v t, s.awaited.get? v = some t → ∀ x, LastAt fn.Edge (fn.Writes v) x b ↔
      LastAt fn.Edge (fn.Writes v) x q) :
    ∃ s', fn.climb steps q s = .ok s' ∧ fn.Resolves b awaited s' := by
  induction steps generalizing q s with
  | zero => omega
  | succ steps ih =>
    rw [climb]
    by_cases hempty : s.awaited.isEmpty
    · exact ⟨s, if_pos hempty, h⟩
    · rw [if_neg hempty]
      match hparents : (fn.block q).parents with
      | [] => exact ⟨s, rfl, h⟩
      | _ :: _ :: _ => exact ⟨s, rfl, h⟩
      | [p] =>
        obtain ⟨hp, hlt⟩ := hup q hq p hparents
        -- all that reaches `q` comes by way of `p`
        have hby : ∀ v t, s.awaited.get? v = some t → ∀ x, LastAt fn.Edge (fn.Writes v) x b ↔
            LastBy fn.Edge (fn.Writes v) x p := by
          intro v t ht x
          rw [hlast v t ht x, lastAt_iff]
          simp [Graph.Edge, hparents]
        obtain ⟨h', hawaited⟩ := h.takeFrom hinj (q := p) fun v t u ht hu => by
          have hw : fn.Writes v p := by simp [Graph.Writes, hu]
          rw [nearestWritten?_parents_eq (x := p) fun x => (hby v t ht x).trans (by simp [LastBy, hw]),
            hu]
        refine ih h' hp (by omega) fun v t ht x => ?_
        rw [hawaited v] at ht
        split at ht
        · cases ht
        · next hw =>
          have hw : ¬ fn.Writes v p := hw
          exact (hby v t ht x).trans (by simp [LastBy, hw])

/-- Looks for the value of one placeholder among all ancestors. -/
def searchRead (fn : Func) (b : BlockId) (s : Resolving) (v : Variable) : Except Fault Resolving :=
  match fn.nearestWritten? v (fn.block b).parents with
  | some t => .ok (s.resolve v t)
  | none => .error (.unreadable v.text (fn.blockText b))

theorem findReads_eq (fn : Func) (b : BlockId) :
    fn.findReads b = (fn.climb (fn.blocks.size + 2) b
      { awaited := (fn.block b).awaited, found := .empty } >>= fun s =>
        s.awaited.keys.foldlM (fn.searchRead b) s >>= fun s => pure s.found) := rfl

theorem Resolves.searchRead {awaited : Table Variable Temp} {s s' : Resolving}
    (h : fn.Resolves b awaited s) (hinj : awaited.Injective) (hs : fn.searchRead b s v = .ok s') :
    fn.Resolves b awaited s' ∧
      ∀ w, s'.awaited.get? w = if v = w then none else s.awaited.get? w := by
  rw [Func.searchRead] at hs
  cases hnear : fn.nearestWritten? v (fn.block b).parents with
  | none =>
    rw [hnear] at hs
    cases hs
  | some u =>
    rw [hnear] at hs
    obtain rfl := Except.ok.inj hs
    exact h.resolve hinj hnear

/-- Looking for several placeholders succeeds if each search does. -/
theorem foldlM_searchRead (fn : Func) (b : BlockId) (l : List Variable) (s : Resolving) :
    (∃ s', l.foldlM (fn.searchRead b) s = .ok s') ∨
      ∃ v ∈ l, fn.nearestWritten? v (fn.block b).parents = none ∧
        l.foldlM (fn.searchRead b) s = .error (.unreadable v.text (fn.blockText b)) := by
  induction l generalizing s with
  | nil => exact .inl ⟨s, rfl⟩
  | cons v l ih =>
    rw [foldlM_cons, searchRead]
    cases hnear : fn.nearestWritten? v (fn.block b).parents with
    | none => exact .inr ⟨v, by simp, hnear, rfl⟩
    | some u =>
      refine (ih (s.resolve v u)).imp_right ?_
      rintro ⟨w, hw, herror⟩
      exact ⟨w, mem_cons_of_mem _ hw, herror⟩

section FindReads

variable {order : List BlockId} (hup : fn.ClimbsIn order)
  (hlen : order.length ≤ fn.blocks.size + 1)
  (hb : b ∈ order) (hinj : (fn.block b).awaited.Injective)
include hup hlen hb hinj

theorem exists_climb_findReads :
    ∃ s, fn.climb (fn.blocks.size + 2) b { awaited := (fn.block b).awaited, found := .empty } =
      .ok s ∧ fn.Resolves b (fn.block b).awaited s := by
  have hsteps : order.idxOf b < fn.blocks.size + 2 := by
    have := idxOf_lt_length_of_mem hb
    omega
  exact (Resolves.refl fn b (fn.block b).awaited).exists_climb hup hinj hb hsteps
    fun _ _ _ _ => .rfl

/-- For every placeholder of the block, and no other temporary, the result of the search is found. -/
theorem findReads_spec {found : Substitution} (h : fn.findReads b = .ok found) :
    found.Ordered ∧
      (∀ v t, (fn.block b).awaited.get? v = some t → ∃ u,
        fn.nearestWritten? v (fn.block b).parents = some u ∧ found.get? t = some u) ∧
      ∀ t u, found.get? t = some u → ∃ v, (fn.block b).awaited.get? v = some t := by
  obtain ⟨s, hclimb, hs⟩ := exists_climb_findReads hup hlen hb hinj
  rw [findReads_eq, hclimb, ok_bind] at h
  obtain ⟨s', hfold, hfound⟩ := bind_eq_ok.mp h
  obtain rfl := Except.ok.inj hfound
  obtain ⟨hres, hnone⟩ := foldlM_invariant
    (fun done (s' : Resolving) => fn.Resolves b (fn.block b).awaited s' ∧ ∀ v,
      s'.awaited.get? v = if v ∈ done then none else s.awaited.get? v) hfold ⟨hs, by simp⟩ (by
      rintro done v rest s₁ s₂ - ⟨h₁, hawaited⟩ hstep
      obtain ⟨h₂, herase⟩ := h₁.searchRead hinj hstep
      refine ⟨h₂, fun w => ?_⟩
      rw [herase w, hawaited w]
      by_cases hvw : v = w
      · simp [hvw]
      · simp [hvw, Ne.symm hvw])
  refine ⟨hres.ordered, fun v t ht => hres.found v t ht ?_, hres.keys⟩
  rw [hnone v]
  by_cases hv : v ∈ s.awaited.keys
  · rw [if_pos hv]
  · rw [if_neg hv, Table.get?_eq_none.mpr hv]

/-- Something is found for every placeholder, or the search for one of them fails. -/
theorem findReads_cases : (∃ found, fn.findReads b = .ok found) ∨
    ∃ v t, (fn.block b).awaited.get? v = some t ∧
      fn.nearestWritten? v (fn.block b).parents = none ∧
      fn.findReads b = .error (.unreadable v.text (fn.blockText b)) := by
  obtain ⟨s, hclimb, hs⟩ := exists_climb_findReads hup hlen hb hinj
  rw [findReads_eq, hclimb, ok_bind]
  rcases fn.foldlM_searchRead b s.awaited.keys s with ⟨s', hfold⟩ | ⟨v, hv, hnone, herror⟩
  · exact .inl ⟨s'.found, by rw [hfold, ok_bind]; rfl⟩
  · obtain ⟨t, ht⟩ := Table.mem_keys.mp hv
    exact .inr ⟨v, t, hs.sub v t ht, hnone, by rw [herror]; rfl⟩

end FindReads

section Listed

variable {order : List BlockId} (hup : fn.ClimbsIn order) (hlen : order.length ≤ fn.blocks.size)
  (hb : b ∈ order) (hinj : (fn.block b).awaited.Injective)
include hup hlen hb hinj

/-- What is found for a placeholder is written by a block that is last on a walk to the read. -/
theorem findReads_sound {found : Substitution} (h : fn.findReads b = .ok found) :
    found.Ordered ∧
      (∀ v t, (fn.block b).awaited.get? v = some t →
        ∃ x u, LastAt fn.Edge (fn.Writes v) x b ∧ (fn.block x).written.get? v = some u ∧
          found.get? t = some u) ∧
      ∀ t u, found.get? t = some u → ∃ v, (fn.block b).awaited.get? v = some t := by
  obtain ⟨hord, hvalue, hkeys⟩ := findReads_spec hup (Nat.le_succ_of_le hlen) hb hinj h
  refine ⟨hord, fun v t ht => ?_, hkeys⟩
  obtain ⟨u, hu, hget⟩ := hvalue v t ht
  obtain ⟨x, hx, hxu⟩ := nearestWritten?_parents_sound hu
  exact ⟨x, u, hx, hxu, hget⟩

/-- A value is found for every placeholder if each of them has one. -/
theorem exists_findReads (hall : ∀ v t, (fn.block b).awaited.get? v = some t →
    ∃ x, LastAt fn.Edge (fn.Writes v) x b) : ∃ found, fn.findReads b = .ok found := by
  refine (findReads_cases hup (Nat.le_succ_of_le hlen) hb hinj).resolve_right ?_
  rintro ⟨v, t, ht, hnone, -⟩
  obtain ⟨x, hx⟩ := hall v t ht
  obtain ⟨u, hu⟩ := nearestWritten?_parents_complete hx
  cases hnone.symm.trans hu

end Listed

/-! ## Climbing and searching -/

/-- Going up from single parent to single parent comes to an end. -/
inductive ClimbEnds (fn : Func) : BlockId → Prop
  | top {b : BlockId} (h : (fn.block b).parents.length ≠ 1) : fn.ClimbEnds b
  | step {b p : BlockId} (h : (fn.block b).parents = [p]) (hp : fn.ClimbEnds p) : fn.ClimbEnds b

/-- The blocks on the way up, from the top. All but the first have a parent. -/
theorem ClimbEnds.exists_order (h : fn.ClimbEnds b) : ∃ order : List BlockId,
    fn.ClimbsIn order ∧ b ∈ order ∧ order.length ≤ fn.blocks.size + 1 := by
  suffices hway : ∃ top rest, fn.ClimbsIn (top :: rest) ∧ b ∈ top :: rest ∧ rest.Nodup ∧
      ∀ x ∈ rest, x < fn.blocks.size by
    obtain ⟨top, rest, hup, hb, hnodup, hlt⟩ := hway
    exact ⟨top :: rest, hup, hb, Nat.succ_le_succ (Graph.length_le_of_lt hnodup hlt)⟩
  induction h with
  | @top b h =>
    refine ⟨b, [], fun c hc p hp => ?_, by simp, .nil, by simp⟩
    obtain rfl := mem_singleton.mp hc
    simp [hp] at h
  | @step b p hbp _ ih =>
    obtain ⟨top, rest, hup, hp, hnodup, hlt⟩ := ih
    by_cases hb : b ∈ top :: rest
    · exact ⟨top, rest, hup, hb, hnodup, hlt⟩
    refine ⟨top, rest ++ [b], fun c hc q hq => ?_, by simp, ?_, ?_⟩
    · rw [← cons_append] at hc ⊢
      rcases mem_append.mp hc with hc | hc
      · obtain ⟨hq, hidx⟩ := hup c hc q hq
        rw [idxOf_append_of_mem hq, idxOf_append_of_mem hc]
        exact ⟨mem_append_left _ hq, hidx⟩
      · obtain rfl := mem_singleton.mp hc
        obtain rfl : p = q := by simpa using hbp.symm.trans hq
        rw [idxOf_append_of_mem hp, idxOf_append_of_notMem hb]
        exact ⟨mem_append_left _ hp,
          Nat.lt_add_right _ (idxOf_lt_length_of_mem hp)⟩
    · exact concat_eq_append ▸ hnodup.concat fun h => hb (mem_cons_of_mem top h)
    · have hedge : fn.Edge p b := by simp [Graph.Edge, hbp]
      exact forall_mem_append.mpr ⟨hlt, by simpa using hedge.lt⟩

/-- Climbing first and searching for what is left finds what searching alone finds, for each
placeholder of a block, and fails just if one of these searches does. Nothing is assumed of what the
blocks write. -/
theorem findReads_agrees_with_search (hends : fn.ClimbEnds b)
    (hinj : (fn.block b).awaited.Injective) :
    (∀ found, fn.findReads b = .ok found → ∀ t u, found.get? t = some u ↔
      ∃ v, (fn.block b).awaited.get? v = some t ∧
        fn.nearestWritten? v (fn.block b).parents = some u) ∧
    ((∃ f, fn.findReads b = .error f) ↔ ∃ v t, (fn.block b).awaited.get? v = some t ∧
      fn.nearestWritten? v (fn.block b).parents = none) ∧
    ∀ f, fn.findReads b = .error f → ∃ v t, (fn.block b).awaited.get? v = some t ∧
      fn.nearestWritten? v (fn.block b).parents = none ∧
      f = .unreadable v.text (fn.blockText b) := by
  obtain ⟨order, hup, hb, hlen⟩ := hends.exists_order
  have hcases := findReads_cases hup hlen hb hinj
  have herror : ∀ f, fn.findReads b = .error f → ∃ v t, (fn.block b).awaited.get? v = some t ∧
      fn.nearestWritten? v (fn.block b).parents = none ∧
      f = .unreadable v.text (fn.blockText b) := by
    intro f hf
    rw [hf] at hcases
    rcases hcases with ⟨found, hfound⟩ | ⟨v, t, ht, hnone, hv⟩
    · cases hfound
    · exact ⟨v, t, ht, hnone, Except.error.inj hv⟩
  refine ⟨fun found hfound t u => ?_, ⟨fun hfails => ?_, fun hnone => ?_⟩, herror⟩
  · obtain ⟨-, hvalue, hkeys⟩ := findReads_spec hup hlen hb hinj hfound
    constructor
    · intro hu
      obtain ⟨v, hv⟩ := hkeys t u hu
      obtain ⟨u', hu', hget⟩ := hvalue v t hv
      exact ⟨v, hv, hu'.trans (hget.symm.trans hu)⟩
    · rintro ⟨v, hv, hu⟩
      obtain ⟨u', hu', hget⟩ := hvalue v t hv
      exact hget.trans (hu'.symm.trans hu)
  · obtain ⟨f, hf⟩ := hfails
    obtain ⟨v, t, ht, hnone, -⟩ := herror f hf
    exact ⟨v, t, ht, hnone⟩
  · obtain ⟨v, t, ht, hnone⟩ := hnone
    rcases hcases with ⟨found, hfound⟩ | ⟨w, s, -, -, hw⟩
    · obtain ⟨u, hu, -⟩ := (findReads_spec hup hlen hb hinj hfound).2.1 v t ht
      cases hnone.symm.trans hu
    · exact ⟨_, hw⟩

/-- Two variables are read below a join: `x` is written above it and `y` between. -/
def readBelowJoin (x y : Variable) : Func :=
  { name := "f", params := [], resultType := .int
    blocks := #[
      { children := [1, 2], written := ⟨[(x, 0)]⟩ },
      { parents := [0], children := [3] },
      { parents := [0], children := [3] },
      { parents := [2, 1], children := [4] },
      { parents := [3], children := [5], written := ⟨[(y, 1)]⟩ },
      { parents := [4], awaited := ⟨[(x, 2), (y, 3)]⟩ }]
    temps := #[{}, {}, {}, {}] }

theorem readBelowJoin_agrees : ∃ x y found, (readBelowJoin x y).findReads 5 = .ok found ∧
    found.get? 2 = some 0 ∧ found.get? 3 = some 1 := by
  let x : Variable := { id := 1, name := "x", kind := .localVar, type := .int }
  let y : Variable := { id := 2, name := "y", kind := .localVar, type := .int }
  have hends : (readBelowJoin x y).ClimbEnds 5 := .step rfl (.step rfl (.top (by decide)))
  have hinj : ((readBelowJoin x y).block 5).awaited.Injective := by
    intro v w t (hv : Table.find? v [(x, 2), (y, 3)] = some t)
      (hw : Table.find? w [(x, 2), (y, 3)] = some t)
    grind [Table.find?]
  obtain ⟨hvalue, -⟩ := findReads_agrees_with_search hends hinj
  have hok : ((readBelowJoin x y).findReads 5).toOption.isSome := by decide
  cases hfound : (readBelowJoin x y).findReads 5 with
  | error f => simp [hfound, Except.toOption] at hok
  | ok found =>
    refine ⟨x, y, found, hfound, (hvalue found hfound 2 0).mpr ⟨x, ?_⟩,
      (hvalue found hfound 3 1).mpr ⟨y, ?_⟩⟩ <;> decide

end Func

end SsaBlocks
