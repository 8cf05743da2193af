import SsaBlocks.Proofs.Func.Ready
import SsaBlocks.Proofs.Meaning.Semantics

/-!
# Comparing meanings

Two computations are compared ending by ending. The second one may fail in some way that is excused;
otherwise they end alike. If two functions execute the same instructions up to a renaming of their
operands, and the operands have the same values, they execute them alike.
-/

namespace SsaBlocks

namespace Func

variable {fn : Func} {b : BlockId} {t : Temp}

theorem placeholder?_eq_some (hsingle : ∀ s s' t, fn.Makes s t → fn.Makes s' t → s = s')
    {v : Variable} (ht : fn.Makes (.read b v) t) : fn.placeholder? b t = some v := by
  have hmem : v ∈ (fn.block b).awaited.keys := Table.mem_keys.mpr ⟨t, ht⟩
  cases hfind : fn.placeholder? b t with
  | none =>
    have := List.find?_eq_none.mp hfind v hmem
    simp [show (fn.block b).awaited.get? v = some t from ht] at this
  | some w =>
    have hw : (fn.block b).awaited.get? w = some t := by simpa using List.find?_some hfind
    cases hsingle (.read b v) (.read b w) t ht hw
    rfl

theorem placeholder?_eq_none (ht : ∀ v, ¬ fn.Makes (.read b v) t) :
    fn.placeholder? b t = none := by
  refine List.find?_eq_none.mpr fun v _ => ?_
  simpa [Makes] using ht v

end Func

namespace Ending

variable {α β γ δ : Type} {E : EvalFailure → Prop} {R : α → β → Prop} {R' : γ → δ → Prop}

/-- The second computation ends like the first, up to a relation of their values, or it fails in a
way that is excused. -/
inductive Tracks (E : EvalFailure → Prop) (R : α → β → Prop) : Ending α → Ending β → Prop
  | value {a : α} {b : β} (h : R a b) : Tracks E R (.value a) (.value b)
  | failed (e : EvalFailure) (g : Globals) : Tracks E R (.failed e g) (.failed e g)
  | never : Tracks E R .never .never
  | excused (x : Ending α) {e : EvalFailure} (g : Globals) (h : E e) : Tracks E R x (.failed e g)

namespace Tracks

theorem bind {x : Ending α} {y : Ending β} {k : α → Ending γ} {k' : β → Ending δ}
    (h : Tracks E R x y) (hk : ∀ a b, R a b → Tracks E R' (k a) (k' b)) :
    Tracks E R' (x >>= k) (y >>= k') := by
  cases h with
  | value h => exact hk _ _ h
  | failed e g => exact .failed e g
  | never => exact .never
  | excused x g h => exact .excused _ g h

theorem refl {x : Ending α} : Tracks E Eq x x := by
  cases x with
  | value a => exact .value rfl
  | failed e g => exact .failed e g
  | never => exact .never

theorem under (hE : ∀ e names, E e → E (e.under names)) {x : Ending α} {y : Ending β}
    (h : Tracks E R x y) (names : List String) : Tracks E R (x.under names) (y.under names) := by
  cases h with
  | value h => exact .value h
  | failed e g => exact .failed _ g
  | never => exact .never
  | excused x g h => exact .excused _ g (hE _ names h)

/-- Computations that track each other are equal, up to excuses. -/
theorem eq_or_excused {x y : Ending α} (h : Tracks E Eq x y) :
    y = x ∨ ∃ e g, y = .failed e g ∧ E e := by
  cases h with
  | value h => exact .inl (by rw [h])
  | failed e g => exact .inl rfl
  | never => exact .inl rfl
  | excused x g h => exact .inr ⟨_, g, rfl, h⟩

/-- Without excuses, computations that track each other are equal. -/
theorem eq {x y : Ending α} (h : Tracks (fun _ => False) Eq x y) : x = y := by
  rcases h.eq_or_excused with heq | ⟨_, _, _, hfalse⟩
  · exact heq.symm
  · exact hfalse.elim

theorem limit {f f' : Nat → Ending α} (hf : Settling f) (hf' : Settling f')
    (h : ∀ n, Tracks E Eq (f n) (f' n)) : Tracks E Eq (limit f) (limit f') := by
  by_cases hne' : Ending.limit f' = .never
  · by_cases hne : Ending.limit f = .never
    · rw [hne, hne']
      exact .never
    · obtain ⟨n, hn⟩ := exists_limit f hne
      have hnever : f' n = .never := by
        by_contra hfn
        exact hfn (hf'.limit_eq hfn ▸ hne')
      have hn' := h n
      rw [hnever] at hn'
      cases hfn : f n with
      | never => exact absurd (hn.symm.trans hfn) hne
      | value a =>
        rw [hfn] at hn'
        cases hn'
      | failed e g =>
        rw [hfn] at hn'
        cases hn'
  · obtain ⟨n, hn⟩ := exists_limit f' hne'
    have hn' := h n
    rw [← hn]
    by_cases hfn : f n = .never
    · rw [hfn] at hn'
      cases hfn' : f' n with
      | never => exact absurd (hn.symm.trans hfn') hne'
      | value a =>
        rw [hfn'] at hn'
        cases hn'
      | failed e g =>
        rw [hfn'] at hn'
        cases hn' with
        | excused x g h => exact .excused _ g h
    · rw [hf.limit_eq hfn]
      exact hn'

end Tracks

end Ending

/-- Calls end as other calls do, or fail in a way that is excused. -/
def Callee.Tracks (E : EvalFailure → Prop) (C C' : Callee) : Prop :=
  ∀ name args g, Ending.Tracks E Eq (C name args g) (C' name args g)

namespace Storage

variable {S T : Type} {store : Storage S} {store' : Storage T} {fn fn' : Func}
  {C C' : Callee} {E : EvalFailure → Prop}

/-- The word that an instruction sets its result to, and the memory after it, as far as they can be
told from the instruction. -/
def Effect (store : Storage S) (s : S) (g : Globals) : Instruction → Int64 → Globals → Prop
  | .load _ v, w, g' => w = g.value v ∧ g' = g
  | .store v t, _, g' => ∃ w, store.get s t = .ok w ∧ g' = g.insert v w
  | .call .., _, _ => True
  | _, _, g' => g' = g

/-- What is known when an instruction has been executed: it leads to the same place on both sides,
which is one of its targets, and the next instruction is only reached if it ends no block. -/
def SameMove (R : S → T → Globals → Prop) (inst : Instruction) (r : Move × S × Globals)
    (r' : Move × T × Globals) : Prop :=
  r.1 = r'.1 ∧ R r.2.1 r'.2.1 r.2.2 ∧ r.2.2 = r'.2.2 ∧
    (∀ target, r.1 = .goTo target → target ∈ inst.targets) ∧
    (r.1 = .next → inst.isTerminator = false) ∧ (r.1 ≠ .next → inst.isTerminator)

theorem tracks_ofHalt {α β γ δ : Type} {R : γ → δ → Prop} {name : String} {g : Globals} {a : α}
    {b : β} {x : Except Halt α} {y : Except Halt β} {k : α → Ending γ} {k' : β → Ending δ}
    (hx : x = .ok a) (hy : y = .ok b) (hk : Ending.Tracks E R (k a) (k' b)) :
    Ending.Tracks E R (Ending.ofHalt name g x >>= k) (Ending.ofHalt name g y >>= k') := by
  rw [hx, hy]
  exact hk

/-- A step on words, the same on both sides. -/
theorem tracks_word {γ δ : Type} {R : γ → δ → Prop} {name : String} {g : Globals}
    {x : Except Halt Int64} {k : Int64 → Ending γ} {k' : Int64 → Ending δ}
    (hk : ∀ w, x = .ok w → Ending.Tracks E R (k w) (k' w)) :
    Ending.Tracks E R (Ending.ofHalt name g x >>= k) (Ending.ofHalt name g x >>= k') := by
  match x with
  | .ok w => exact hk w rfl
  | .error (.cause _) => exact .failed _ _
  | .error (.fault _) => exact .failed _ _

theorem exists_mapM {s : S} {t : T} {σ : Temp → Temp} {args : List Temp}
    (h : ∀ x ∈ args, ∃ w, store.get s x = .ok w ∧ store'.get t (σ x) = .ok w) :
    ∃ ws, args.mapM (store.get s) = .ok ws ∧ (args.map σ).mapM (store'.get t) = .ok ws := by
  induction args with
  | nil => exact ⟨[], rfl, rfl⟩
  | cons x args ih =>
    obtain ⟨w, hw, hw'⟩ := h x (by simp)
    obtain ⟨ws, hws, hws'⟩ := ih fun y hy => h y (List.mem_cons_of_mem _ hy)
    refine ⟨w :: ws, ?_, ?_⟩
    · rw [List.mapM_cons, hw, ok_bind, hws, ok_bind]
      rfl
    · rw [List.map_cons, List.mapM_cons, hw', ok_bind, hws', ok_bind]
      rfl

/-- Instructions whose operands have the same values are executed alike. -/
theorem tracks_exec (hname : fn'.name = fn.name) (hE : ∀ e names, E e → E (e.under names))
    (hC : Callee.Tracks E C C') {σ : Temp → Temp} {R : S → T → Globals → Prop}
    {inst : Instruction} {s : S} {t : T} {g : Globals}
    (hget : ∀ x ∈ inst.operands, ∃ w, store.get s x = .ok w ∧ store'.get t (σ x) = .ok w)
    (hset : ∀ d w g', inst.result? = some d → store.Effect s g inst w g' →
      ∃ s' t', store.set s d w = .ok s' ∧ store'.set t d w = .ok t' ∧ R s' t' g')
    (hkeep : ∀ w g', inst.result? = none → store.Effect s g inst w g' → R s t g') :
    Ending.Tracks E (SameMove R inst) (store.exec fn C s g inst)
      (store'.exec fn' C' t g (inst.substitute σ)) := by
  have hdone : ∀ d w g', inst.result? = some d → inst.isTerminator = false →
      store.Effect s g inst w g' → Ending.Tracks E (SameMove R inst)
        (Ending.ofHalt fn.name g' (store.set s d w) >>= fun s => pure (.next, s, g'))
        (Ending.ofHalt fn.name g' (store'.set t d w) >>= fun t => pure (.next, t, g')) := by
    intro d w g' hd hend heffect
    obtain ⟨s', t', hs, ht, hR⟩ := hset d w g' hd heffect
    exact tracks_ofHalt hs ht (.value ⟨rfl, hR, rfl, by simp, fun _ => hend, by simp⟩)
  cases inst with
  | comment text => exact .value ⟨rfl, hkeep 0 g rfl rfl, rfl, by simp, fun _ => rfl, by simp⟩
  | const d type w =>
    rw [Instruction.substitute, exec, exec, hname]
    exact hdone d w g rfl rfl rfl
    all_goals simp
  | load d v =>
    rw [Instruction.substitute, exec, exec, hname]
    exact hdone d _ g rfl rfl ⟨rfl, rfl⟩
    all_goals simp
  | store v x =>
    obtain ⟨w, hw, hw'⟩ := hget x (by simp [Instruction.operands])
    rw [Instruction.substitute, exec, exec, hname]
    exact tracks_ofHalt hw hw'
      (.value ⟨rfl, hkeep 0 _ rfl ⟨w, hw, rfl⟩, rfl, by simp, fun _ => rfl, by simp⟩)
  | binary op d l r =>
    obtain ⟨wl, hl, hl'⟩ := hget l (by simp [Instruction.operands])
    obtain ⟨wr, hr, hr'⟩ := hget r (by simp [Instruction.operands])
    rw [Instruction.substitute, exec, exec, hname]
    exact tracks_ofHalt hl hl' (tracks_ofHalt hr hr'
      (tracks_word fun w _ => hdone d w g rfl rfl rfl))
  | unary op d x =>
    obtain ⟨wx, hx, hx'⟩ := hget x (by simp [Instruction.operands])
    rw [Instruction.substitute, exec, exec, hname]
    exact tracks_ofHalt hx hx' (tracks_word fun w _ => hdone d w g rfl rfl rfl)
  | call d name args =>
    -- the arguments have the same values, so the callees answer alike
    obtain ⟨ws, hws, hws'⟩ : ∃ ws, args.mapM (store.get s) = .ok ws ∧
        (args.map σ).mapM (store'.get t) = .ok ws := exists_mapM hget
    rw [Instruction.substitute, exec, exec, hname]
    refine tracks_ofHalt hws hws' (.bind ((hC name ws g).under hE [fn.name]) ?_)
    rintro ⟨w, g'⟩ _ rfl
    cases d with
    | none => exact .value ⟨rfl, hkeep w g' rfl trivial, rfl, by simp, fun _ => rfl, by simp⟩
    | some d => exact hdone d w g' rfl rfl trivial
  | jump target =>
    exact .value ⟨rfl, hkeep 0 g rfl rfl, rfl, by simp [Instruction.targets], by simp, fun _ => rfl⟩
  | branch c otherwise target =>
    obtain ⟨w, hw, hw'⟩ := hget c (by simp [Instruction.operands])
    rw [Instruction.substitute, exec, exec, hname]
    refine tracks_ofHalt hw hw' (.value ⟨rfl, hkeep 0 g rfl rfl, rfl, ?_, by simp, fun _ => rfl⟩)
    intro c hc
    simp only [Move.goTo.injEq] at hc
    subst hc
    split <;> simp [Instruction.targets]
  | ret x =>
    cases x with
    | none => exact .value ⟨rfl, hkeep 0 g rfl rfl, rfl, by simp, by simp, fun _ => rfl⟩
    | some x =>
      obtain ⟨w, hw, hw'⟩ := hget x (by simp [Instruction.operands])
      rw [Instruction.substitute, Option.map_some, exec, exec, hname]
      exact tracks_ofHalt hw hw'
        (.value ⟨rfl, hkeep 0 g rfl rfl, rfl, by simp, by simp, fun _ => rfl⟩)

/-- What is known when the instructions of a block have been executed on both sides. -/
def AtExit (fn : Func) (Out : S → T → Prop) (b : BlockId) (r : Move × S × Globals)
    (r' : Move × T × Globals) : Prop :=
  r.1 = r'.1 ∧ r.2.2 = r'.2.2 ∧ Out r.2.1 r'.2.1 ∧
    (∀ target, r.1 = .goTo target → fn.Edge b target) ∧
    (r.1 = .next → ∃ c, (fn.block b).children = [c] ∧ fn.Edge b c)

/-- An instruction that does not lead to the next one is the last of its block. -/
theorem SameMove.atExit (hr : fn.Ready) {b : BlockId} (hb : b ∈ fn.canonicalOrder) {n : Nat}
    {inst : Instruction} (hinst : (fn.block b).code[n]? = some inst) {R : S → T → Globals → Prop}
    {Out : S → T → Prop} {r : Move × S × Globals} {r' : Move × T × Globals}
    (h : SameMove R inst r r') (hne : r.1 ≠ .next)
    (hout : n + 1 = (fn.block b).code.length → R r.2.1 r'.2.1 r.2.2 → Out r.2.1 r'.2.1) :
    AtExit fn Out b r r' := by
  obtain ⟨hmove, hR, hg, htargets, -, hend⟩ := h
  have hlast := hr.ends b hb n inst hinst (hend hne)
  refine ⟨hmove, hg, hout hlast hR, fun c hc => ?_, fun hnext => absurd hnext hne⟩
  exact hr.targets b hb inst (List.mem_of_getElem? hinst) c (htargets c hc)

/-- Two functions go through the same blocks. On entering a block `In` holds of what they keep, and
on leaving it `Out`. -/
structure Simulates (E : EvalFailure → Prop) (fn fn' : Func) (store : Storage S)
    (store' : Storage T) (C C' : Callee) (In Out : BlockId → S → T → Prop) : Prop where
  name : fn'.name = fn.name
  entry : fn'.entry = fn.entry
  children : ∀ b ∈ fn.canonicalOrder, (fn'.block b).children = (fn.block b).children
  code : ∀ b ∈ fn.canonicalOrder, ∀ s t g, In b s t →
    Ending.Tracks E (AtExit fn (Out b) b) (store.runCode fn C (fn.block b).code s g)
      (store'.runCode fn' C' (fn'.block b).code t g)
  enter : ∀ b ∈ fn.canonicalOrder, ∀ c, fn.Edge b c → ∀ s t, Out b s t →
    c ∈ fn.canonicalOrder ∧
      ((∃ fault, store'.enter (some b) c (store'.leave b t) = .error (.fault fault) ∧
          E (.fault fault)) ∨
        ∃ s' t', store.enter (some b) c (store.leave b s) = .ok s' ∧
          store'.enter (some b) c (store'.leave b t) = .ok t' ∧ In c s' t')

namespace Simulates

variable {In Out : BlockId → S → T → Prop} (h : Simulates E fn fn' store store' C C' In Out)
include h

theorem afterCode {b : BlockId} (hb : b ∈ fn.canonicalOrder) {r : Move × S × Globals}
    {r' : Move × T × Globals} (hexit : AtExit fn (Out b) b r r')
    {go : BlockId → S → Globals → Ending (Int64 × Globals)}
    {go' : BlockId → T → Globals → Ending (Int64 × Globals)}
    (hgo : ∀ c, fn.Edge b c → Ending.Tracks E Eq (go c r.2.1 r.2.2)
      (go' c r'.2.1 r'.2.2)) :
    Ending.Tracks E Eq (Storage.afterCode fn b go r) (Storage.afterCode fn' b go' r') := by
  obtain ⟨move, s, g⟩ := r
  obtain ⟨_, t, _⟩ := r'
  obtain ⟨rfl, rfl, -, htargets, hnext⟩ := hexit
  cases move with
  | ret w => exact .value rfl
  | goTo target => exact hgo target (htargets target rfl)
  | next =>
    obtain ⟨c, hc, hbc⟩ := hnext rfl
    simp only [Storage.afterCode, h.children b hb, hc]
    exact hgo c hbc

theorem runBlocks {b : BlockId} (hb : b ∈ fn.canonicalOrder) {s : S} {t : T} (hin : In b s t)
    (k : Nat) (g : Globals) :
    Ending.Tracks E Eq (store.runBlocks fn C k b (fn.block b).code s g)
      (store'.runBlocks fn' C' k b (fn'.block b).code t g) := by
  induction k generalizing b s t g with
  | zero =>
    rw [runBlocks_eq, runBlocks_eq]
    refine (h.code b hb s t g hin).bind fun r r' hexit => ?_
    exact h.afterCode hb hexit fun _ _ => .never
  | succ k ih =>
    rw [runBlocks_eq, runBlocks_eq]
    refine (h.code b hb s t g hin).bind fun r r' hexit => ?_
    refine h.afterCode hb hexit fun c hc => ?_
    obtain ⟨-, hg, hout, -, -⟩ := hexit
    rw [follow, follow, h.name, hg]
    obtain ⟨hmem, ⟨fault, hfault, hE⟩ | ⟨s', t', hs, ht, hin'⟩⟩ := h.enter b hb c hc _ _ hout
    · rw [hfault]
      exact .excused _ _ hE
    · exact tracks_ofHalt hs ht (ih hmem hin' _)

theorem meaning {args : List Int64} {s : S} {t : T}
    (hs : store.enter none fn.entry (store.start args) = .ok s)
    (ht : store'.enter none fn.entry (store'.start args) = .ok t) (hin : In fn.entry s t)
    (hentry : fn.entry ∈ fn.canonicalOrder) (g : Globals) :
    Ending.Tracks E Eq (store.meaning fn C args g) (store'.meaning fn' C' args g) := by
  refine .limit (settling_runFunction args g) (settling_runFunction args g) fun k => ?_
  rw [runFunction, runFunction, h.name, h.entry]
  exact tracks_ofHalt hs ht (h.runBlocks hentry hin k g)

end Simulates

end Storage

/-- Programs whose functions are alike are alike. -/
theorem Program.tracks_calls {E : EvalFailure → Prop} {p p' : Program}
    {F F' : Func → Callee → List Int64 → Globals → Ending (Int64 × Globals)}
    (hlookup : ∀ name, (p.lookup? name = none ∧ p'.lookup? name = none) ∨
      ∃ fn fn', p.lookup? name = some fn ∧ p'.lookup? name = some fn' ∧ fn'.params = fn.params ∧
        ∀ C C' args g, Callee.Tracks E C C' → args.length = fn.params.length →
          Ending.Tracks E Eq (F fn C args g) (F' fn' C' args g)) (depth : Nat) :
    Callee.Tracks E (p.calls F depth) (p'.calls F' depth) := by
  induction depth with
  | zero =>
    intro name args g
    rw [calls, calls, accepting, accepting]
    rcases hlookup name with ⟨hn, hn'⟩ | ⟨fn, fn', hn, hn', hparams, -⟩
    · rw [hn, hn']
      exact .failed _ _
    · rw [hn, hn']
      simp only [hparams]
      exact .refl
  | succ depth ih =>
    intro name args g
    rw [calls, calls, accepting, accepting]
    rcases hlookup name with ⟨hn, hn'⟩ | ⟨fn, fn', hn, hn', hparams, hF⟩
    · rw [hn, hn']
      exact .failed _ _
    · rw [hn, hn']
      simp only [hparams]
      split
      · exact .failed _ _
      · rename_i hargs
        exact hF _ _ args g ih (by simpa using hargs)

end SsaBlocks
