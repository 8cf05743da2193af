import SsaBlocks.Proofs.Meaning.Semantics
import SsaBlocks.Proofs.Simplify.Blocks

/-!
# The meaning of a function without its redundant blocks

A redundant block reads and writes nothing, so a run through it goes on with its child as if it had
gone there at once. The two runs visit the same blocks with the same values but for the removed one,
and the run of one function ends as soon as that of the other does.
-/

namespace SsaBlocks

namespace Storage

variable {S : Type} {store : Storage S} {fn fn' : Func} {callee : Callee}

theorem exec_congr (h : fn'.name = fn.name) : store.exec fn' callee = store.exec fn callee := by
  funext s g i
  cases i <;> simp only [exec, h]

theorem runCode_congr (h : fn'.name = fn.name) :
    store.runCode fn' callee = store.runCode fn callee := by
  funext code
  induction code with
  | nil => rfl
  | cons i code ih =>
    funext s g
    rw [runCode, runCode, exec_congr h, ih]

/-- An instruction leads to one of its targets or, if it does not end the block, to the next. -/
theorem exec_exits {s s' : S} {g g' : Globals} {i : Instruction} {move : Move}
    (h : store.exec fn callee s g i = .value (move, s', g')) :
    (∀ target, move = .goTo target → target ∈ i.targets) ∧
      (move = .next → i.isTerminator = false) := by
  cases i with
  | branch c otherwise target =>
    simp only [exec, Ending.bind_eq_value, Ending.pure_eq, Ending.value.injEq, Prod.mk.injEq] at h
    obtain ⟨w, -, rfl, -, -⟩ := h
    split <;> simp [Instruction.targets]
  | call d f args =>
    simp only [exec, Ending.bind_eq_value] at h
    obtain ⟨values, -, r, -, h⟩ := h
    cases d with
    | none => cases h; simp [Instruction.isTerminator]
    | some t =>
      obtain ⟨s'', -, h⟩ := Ending.bind_eq_value.mp h
      cases h
      simp [Instruction.isTerminator]
  | ret t =>
    cases t with
    | none => cases h; simp
    | some t =>
      obtain ⟨w, -, h⟩ := Ending.bind_eq_value.mp h
      cases h
      simp
  | _ =>
    simp only [exec, Ending.bind_eq_value, Ending.pure_eq, Ending.value.injEq, Prod.mk.injEq] at h
    grind [Instruction.targets, Instruction.isTerminator]

/-- The code of a block leads to a target of one of its instructions or falls through. -/
theorem runCode_exits {code : List Instruction} {s s' : S} {g g' : Globals} {move : Move}
    (h : store.runCode fn callee code s g = .value (move, s', g')) :
    (∀ target, move = .goTo target → ∃ i ∈ code, target ∈ i.targets) ∧
      (move = .next → ∀ i ∈ code, i.isTerminator = false) := by
  induction code generalizing s g with
  | nil =>
    cases h
    simp
  | cons i code ih =>
    obtain ⟨⟨first, s₁, g₁⟩, hexec, h⟩ := Ending.bind_eq_value.mp h
    obtain ⟨htargets, hnext⟩ := exec_exits hexec
    cases first with
    | next =>
      obtain ⟨htargets', hnext'⟩ := ih h
      refine ⟨fun target ht => ?_, fun hm j hj => ?_⟩
      · obtain ⟨j, hj, ht⟩ := htargets' target ht
        exact ⟨j, List.mem_cons_of_mem i hj, ht⟩
      · rcases List.mem_cons.mp hj with rfl | hj
        · exact hnext rfl
        · exact hnext' hm j hj
    | goTo target =>
      cases h
      exact ⟨fun t ht => ⟨i, by simp, htargets t ht⟩, by simp⟩
    | ret w =>
      cases h
      exact ⟨by simp, by simp⟩

/-- The move of a function in which another block is jumped to. -/
def retargetMove (b c : BlockId) : Move × S × Globals → Move × S × Globals
  | (.goTo target, s, g) => (.goTo (if target = b then c else target), s, g)
  | r => r

theorem exec_retarget (b c : BlockId) (s : S) (g : Globals) (i : Instruction) :
    store.exec fn callee s g (i.retarget b c) =
      (store.exec fn callee s g i >>= fun r => pure (retargetMove b c r)) := by
  have hother : i.targets = [] → store.exec fn callee s g i =
      (store.exec fn callee s g i >>= fun r => pure (retargetMove b c r)) := by
    intro htargets
    match hexec : store.exec fn callee s g i with
    | .value (.goTo target, s', g') => simpa [htargets] using (exec_exits hexec).1 target rfl
    | .value (.next, s', g') => rfl
    | .value (.ret w, s', g') => rfl
    | .failed e g => rfl
    | .never => rfl
  cases i with
  | jump target => rfl
  | branch cond otherwise target =>
    simp only [Instruction.retarget, exec]
    cases Ending.ofHalt fn.name g (store.get s cond) with
    | value w =>
      simp only [Ending.value_bind, Ending.pure_eq, retargetMove]
      split <;> rfl
    | failed e g => rfl
    | never => rfl
  | _ => exact hother rfl

theorem runCode_map_retarget (b c : BlockId) (code : List Instruction) (s : S) (g : Globals) :
    store.runCode fn callee (code.map (Instruction.retarget b c)) s g =
      (store.runCode fn callee code s g >>= fun r => pure (retargetMove b c r)) := by
  induction code generalizing s g with
  | nil => rfl
  | cons i code ih =>
    rw [List.map_cons, runCode, runCode, exec_retarget]
    cases store.exec fn callee s g i with
    | value r =>
      obtain ⟨move, s', g'⟩ := r
      cases move with
      | next => exact ih s' g'
      | goTo target => rfl
      | ret w => rfl
    | failed e g => rfl
    | never => rfl

/-- Comments do nothing. -/
theorem runCode_comments {comments : List Instruction} (h : ∀ i ∈ comments, i.isCode = false)
    (code : List Instruction) (s : S) (g : Globals) :
    store.runCode fn callee (comments ++ code) s g = store.runCode fn callee code s g := by
  induction comments with
  | nil => rfl
  | cons i comments ih =>
    cases i with
    | comment text => exact ih fun j hj => h j (List.mem_cons_of_mem _ hj)
    | _ => simpa [Instruction.isCode] using h _ (List.mem_cons_self ..)

end Storage

namespace Func

open Storage

variable {fn fn' : Func} {b c x : BlockId} {blocks : List BlockId} {callee : Callee}

/-- The values on entering a block. -/
def entered (fn : Func) (b : BlockId) (s : Variables) : Variables :=
  { s with
    temps := fun t =>
      match fn.placeholder? b t with
      | some v => s.vars v
      | none => s.temps t }

theorem follow_succ (n : Nat) (x y : BlockId) (s : Variables) (g : Globals) :
    fn.onVariables.follow fn' callee x (n + 1) y s g = fn.onVariables.runBlocks fn' callee n y
      (fn'.block y).code (fn.entered y (fn.onVariables.leave x s)) g := rfl

/-- What the code of a block of the order leads to is a child of the block. -/
theorem Ready.exits (hr : fn.Ready) (hx : x ∈ fn.canonicalOrder) {S : Type} {store : Storage S}
    {s s' : S} {g g' : Globals} {move : Move}
    (h : store.runCode fn callee (fn.block x).code s g = .value (move, s', g')) :
    (∀ y, move = .goTo y → fn.Edge x y) ∧
      (move = .next → ∃ y, (fn.block x).children = [y] ∧ fn.Edge x y) := by
  obtain ⟨htargets, hnext⟩ := runCode_exits h
  refine ⟨fun y hy => ?_, fun hm => hr.exists_child hx (hnext hm)⟩
  obtain ⟨i, hi, hy⟩ := htargets y hy
  exact hr.targets x hx i hi y hy

namespace Redundant

variable (hd : fn.Redundant b c)
include hd

theorem entered_eq (s : Variables) : fn.entered b s = s := by
  have hnone : ∀ t, fn.placeholder? b t = none := fun t => by
    simp [placeholder?, hd.awaited]
  simp only [entered, hnone]

theorem leave_eq (s : Variables) : fn.onVariables.leave b s = s := by
  simp only [onVariables, hd.written]

/-- A run through a redundant block goes on with its child. -/
theorem follow_eq (n : Nat) (x : BlockId) (s : Variables) (g : Globals) :
    fn.onVariables.follow fn callee x (n + 1) b s g = fn.onVariables.follow fn callee x n c s g := by
  have hcode : fn.onVariables.runCode fn callee (fn.block b).code = fun s g =>
      .value (.next, s, g) := by
    funext s g
    simpa [runCode] using runCode_comments hd.comments [] s g
  rw [follow_succ, runBlocks_eq, hcode, hd.entered_eq]
  simp only [Ending.value_bind, afterCode, hd.children]
  cases n with
  | zero => rfl
  | succ n => rw [follow_succ, follow_succ, hd.leave_eq]

/-- A run that goes on with a block comes to the one that it leads around to. -/
theorem exists_follow_eq {n : Nat} {x y : BlockId} {s : Variables} {g : Globals}
    (hne : fn.onVariables.follow fn callee x n y s g ≠ .never) :
    ∃ k < n, fn.onVariables.follow fn callee x n y s g =
      fn.onVariables.follow fn callee x (k + 1) (if y = b then c else y) s g := by
  cases n with
  | zero => exact absurd rfl hne
  | succ n =>
    by_cases hy : y = b
    · subst hy
      rw [hd.follow_eq] at hne ⊢
      cases n with
      | zero => exact absurd rfl hne
      | succ n => exact ⟨n, by omega, by rw [if_pos rfl]⟩
    · exact ⟨n, by omega, by rw [if_neg hy]⟩

theorem follow_around (n : Nat) (x y : BlockId) (s : Variables) (g : Globals) :
    ∃ m, fn.onVariables.follow fn callee x m y s g =
      fn.onVariables.follow fn callee x n (if y = b then c else y) s g := by
  by_cases hy : y = b
  · subst hy
    exact ⟨n + 1, by rw [hd.follow_eq, if_pos rfl]⟩
  · exact ⟨n, by rw [if_neg hy]⟩

end Redundant

namespace Bypassed

variable (h : fn.Bypassed fn' blocks b c) (hr : fn.Ready) (hd : fn.Redundant b c)
include h

theorem onVariables_eq : fn'.onVariables = fn.onVariables := by
  simp only [onVariables, placeholder?, h.awaited, h.written, h.thins.edits.paramTemps]

theorem follow_succ_eq (n : Nat) (x y : BlockId) (s : Variables) (g : Globals) :
    fn'.onVariables.follow fn' callee x (n + 1) y s g = fn'.onVariables.runBlocks fn' callee n y
      (fn'.block y).code (fn.entered y (fn.onVariables.leave x s)) g := by
  rw [h.onVariables_eq]
  rfl

theorem name : fn'.name = fn.name := by rw [← h.thins.edits.eq]

include hd

theorem runCode_eq (hblocks : ∀ x ∈ fn.canonicalOrder, x ∈ blocks) (hx : x ∈ fn.canonicalOrder)
    (hxb : x ≠ b) (s : Variables) (g : Globals) :
    fn'.onVariables.runCode fn' callee (fn'.block x).code s g =
      (fn.onVariables.runCode fn callee (fn.block x).code s g >>= fun r =>
        pure (retargetMove b c r)) := by
  rw [h.onVariables_eq, runCode_congr h.name, h.code_eq hxb, if_pos (hblocks x hx)]
  split
  · rw [runCode_comments hd.comments, runCode_map_retarget]
  · rw [List.nil_append, runCode_map_retarget]

include hr

/-- A block that is left for stays in the order. -/
theorem around_mem {y : BlockId} (hxy : fn.Edge x y) (hxb : x ≠ b) :
    (if y = b then c else y) ∈ fn.canonicalOrder ∧ (if y = b then c else y) ≠ b := by
  have hedge := h.edge_around hd.toIdle hr.counts hxy hxb
  exact (h.mem_canonicalOrder hd hr).mp ((h.rooted hd hr).edge_mem hedge).2

variable (hblocks : ∀ x ∈ fn.canonicalOrder, x ∈ blocks)
include hblocks

/-- Both functions leave a block in the same way: for good, or to the same child, or around the
removed block. -/
theorem runBlocks_cases (hx : x ∈ fn.canonicalOrder) (hxb : x ≠ b) (s : Variables) (g : Globals) :
    (∃ w, ∀ n, fn.onVariables.runBlocks fn callee n x (fn.block x).code s g = w ∧
        fn'.onVariables.runBlocks fn' callee n x (fn'.block x).code s g = w) ∨
      ∃ y s' g', fn.Edge x y ∧ ∀ n,
        fn.onVariables.runBlocks fn callee n x (fn.block x).code s g =
          fn.onVariables.follow fn callee x n y s' g' ∧
        fn'.onVariables.runBlocks fn' callee n x (fn'.block x).code s g =
          fn'.onVariables.follow fn' callee x n (if y = b then c else y) s' g' := by
  simp only [runBlocks_eq, h.runCode_eq hd hblocks hx hxb]
  cases hcode : fn.onVariables.runCode fn callee (fn.block x).code s g with
  | failed e g => exact .inl ⟨.failed e g, fun _ => ⟨rfl, rfl⟩⟩
  | never => exact .inl ⟨.never, fun _ => ⟨rfl, rfl⟩⟩
  | value r =>
    obtain ⟨move, s', g'⟩ := r
    obtain ⟨htargets, hnext⟩ := hr.exits hx hcode
    cases move with
    | ret w => exact .inl ⟨.value (w, g'), fun _ => ⟨rfl, rfl⟩⟩
    | goTo y => exact .inr ⟨y, s', g', htargets y rfl, fun _ => ⟨rfl, rfl⟩⟩
    | next =>
      obtain ⟨y, hy, hxy⟩ := hnext rfl
      refine .inr ⟨y, s', g', hxy, fun n => ?_⟩
      simp only [Ending.value_bind, Ending.pure_eq, afterCode, retargetMove, hy,
        h.children_singleton hd.toIdle hr.counts hxb hy hxy, and_self]

theorem exists_runBlocks (n : Nat) (hx : x ∈ fn.canonicalOrder) (hxb : x ≠ b) (s : Variables)
    (g : Globals) (hne : fn.onVariables.runBlocks fn callee n x (fn.block x).code s g ≠ .never) :
    ∃ m, fn'.onVariables.runBlocks fn' callee m x (fn'.block x).code s g =
      fn.onVariables.runBlocks fn callee n x (fn.block x).code s g := by
  induction n using Nat.strong_induction_on generalizing x s g with
  | _ n ih =>
    rcases h.runBlocks_cases hr hd hblocks hx hxb s g with ⟨w, hw⟩ | ⟨y, s', g', hxy, hgo⟩
    · exact ⟨0, (hw 0).2.trans (hw n).1.symm⟩
    · rw [(hgo n).1] at hne ⊢
      obtain ⟨k, hk, hfollow⟩ := hd.exists_follow_eq hne
      obtain ⟨hy, hyb⟩ := h.around_mem hr hd hxy hxb
      rw [hfollow, follow_succ] at hne ⊢
      obtain ⟨m, hm⟩ := ih k hk hy hyb _ _ hne
      exact ⟨m + 1, by rw [(hgo (m + 1)).2, h.follow_succ_eq, hm]⟩

theorem exists_runBlocks_of_bypassed (n : Nat) (hx : x ∈ fn.canonicalOrder) (hxb : x ≠ b)
    (s : Variables) (g : Globals)
    (hne : fn'.onVariables.runBlocks fn' callee n x (fn'.block x).code s g ≠ .never) :
    ∃ m, fn.onVariables.runBlocks fn callee m x (fn.block x).code s g =
      fn'.onVariables.runBlocks fn' callee n x (fn'.block x).code s g := by
  induction n generalizing x s g with
  | zero =>
    rcases h.runBlocks_cases hr hd hblocks hx hxb s g with ⟨w, hw⟩ | ⟨y, s', g', -, hgo⟩
    · exact ⟨0, (hw 0).1.trans (hw 0).2.symm⟩
    · exact absurd (hgo 0).2 hne
  | succ n ih =>
    rcases h.runBlocks_cases hr hd hblocks hx hxb s g with ⟨w, hw⟩ | ⟨y, s', g', hxy, hgo⟩
    · exact ⟨0, (hw 0).1.trans (hw _).2.symm⟩
    · rw [(hgo _).2, h.follow_succ_eq] at hne ⊢
      obtain ⟨hy, hyb⟩ := h.around_mem hr hd hxy hxb
      obtain ⟨m, hm⟩ := ih hy hyb _ _ hne
      obtain ⟨j, hj⟩ : ∃ j, fn.onVariables.follow fn callee x j y s' g' = _ :=
        hd.follow_around (m + 1) x y s' g'
      exact ⟨j, by rw [(hgo j).1, hj, follow_succ, hm]⟩

/-- Taking out a block that does nothing does not change what the function does. -/
theorem meaning_eq (args : List Int64) (g : Globals) :
    fn'.onVariables.meaning fn' callee args g = fn.onVariables.meaning fn callee args g := by
  have hentry : fn.entry ∈ fn.canonicalOrder := (canonicalOrder_closed fn).1
  have hrun : ∀ n, fn.onVariables.runFunction fn callee n args g =
      fn.onVariables.runBlocks fn callee n fn.entry (fn.block fn.entry).code
        (fn.entered fn.entry (fn.onVariables.start args)) g := fun n => rfl
  have hrun' : ∀ n, fn'.onVariables.runFunction fn' callee n args g =
      fn'.onVariables.runBlocks fn' callee n fn.entry (fn'.block fn.entry).code
        (fn.entered fn.entry (fn.onVariables.start args)) g := fun n => by
    rw [h.onVariables_eq, ← h.thins.edits.entry]
    rfl
  refine Ending.limit_congr (settling_runFunction args g) (settling_runFunction args g)
    (fun n hne => ?_) (fun n hne => ?_)
  · simp only [hrun, hrun'] at hne ⊢
    exact h.exists_runBlocks_of_bypassed hr hd hblocks n hentry hd.ne_entry.symm _ _ hne
  · simp only [hrun, hrun'] at hne ⊢
    exact h.exists_runBlocks hr hd hblocks n hentry hd.ne_entry.symm _ _ hne

end Bypassed

/-- Removing the redundant blocks of a function that is ready succeeds; the function stays ready and
does what it did. -/
theorem exists_removeRedundantBlocks (hstart : fn.Ready) :
    ∃ fn', fn.removeRedundantBlocks = .ok fn' ∧ fn'.Ready ∧ fn.Edits fn' ∧
      ∀ callee args g, fn'.onVariables.meaning fn' callee args g =
        fn.onVariables.meaning fn callee args g := by
  refine (exists_foldlM (fun m (cur : Func) => fn.Edits cur ∧ cur.Ready ∧
      (∀ callee args g, cur.onVariables.meaning cur callee args g =
        fn.onVariables.meaning fn callee args g) ∧
      (∀ x ∈ cur.canonicalOrder, x ∈ fn.canonicalOrder) ∧
      ∀ x ∈ fn.canonicalOrder, x ∉ m → x ∈ cur.canonicalOrder) ?_ ?_).imp
    fun fn' ⟨hdone, hedits, hr', hmeaning, _⟩ => ⟨hdone, hr', hedits, hmeaning⟩
  · exact ⟨.refl fn, hstart, fun _ _ _ => rfl, fun x hx => hx, fun x hx _ => hx⟩
  · rintro m b l cur hsplit ⟨hedits, hr, hmeaning, hsub, hleft⟩
    have hnodup := nodup_canonicalOrder fn
    have hb : b ∈ cur.canonicalOrder := by
      refine hleft b (by simp [hsplit]) fun hbm => ?_
      rw [hsplit, List.nodup_append] at hnodup
      exact hnodup.2.2 b hbm b (by simp) rfl
    rw [removeIfRedundant]
    split
    · next hremovable =>
      obtain ⟨c, hd⟩ := hr.redundant hb hremovable
      have hlt : ∀ x ∈ fn.canonicalOrder, x < cur.blocks.size := fun x hx =>
        hedits.size ▸ mem_canonicalOrder_lt hx hstart.rooted.entry_lt
      obtain ⟨fn', hfn', h⟩ := exists_bypass hr.counts hd.toIdle hnodup hlt (hsub b hb)
      refine ⟨fn', ?_, hedits.trans h.thins.edits, h.ready hd hr hsub, ?_, ?_, ?_⟩
      · simpa only [hd.children, hd.ne_child, if_false] using hfn'
      · intro callee args g
        rw [h.meaning_eq hr hd hsub, hmeaning]
      · exact fun x hx => hsub x ((h.mem_canonicalOrder hd hr).mp hx).1
      · intro x hx hxm
        simp only [List.mem_append, List.mem_singleton, not_or] at hxm
        exact h.mem_of_mem hd hr.counts (hleft x hx hxm.1) hxm.2
    · exact ⟨cur, rfl, hedits, hr, hmeaning, hsub, fun x hx hxm =>
        hleft x hx fun hx => hxm (List.mem_append_left _ hx)⟩

end Func

end SsaBlocks
