import SsaBlocks.Lower.Function
import SsaBlocks.Proofs.Lower.Basic
import SsaBlocks.Proofs.Typed.Terminating

/-!
# Terminating statements

A function with a result must end in a terminating statement, and does so if its file has been
checked (`Typed.Checked.ends`). This is read off the tree, where every break counts, be it reachable
or not. Lowering finds out for itself what can be reached. The two agree: there is no block after a
terminating statement, so that the end of the body of a function with a result is never reached.

## Main results

* `returns_stmt`, `returns_stmts`: breaks and the block after statements, by induction on their structure
* `function_of_endsTerminating`: the end of the body is not reached
-/

namespace SsaBlocks

namespace Lower

open SsaBlocks.Source (Pos)
open SsaBlocks.Typed

variable {α β : Type} {m : Lower α} {k : α → Lower β} {P : α → Prop} {R : β → Prop}

/-- The result of a step of lowering is as required if it succeeds, whatever state it starts in. -/
def Returns (m : Lower α) (P : α → Prop) : Prop :=
  ∀ c s a s', m c s = .ok (a, s') → P a

namespace Returns

theorem pure {a : α} (h : P a) : Returns (Pure.pure a) P := by
  rintro c s _ _ ⟨⟩
  exact h

theorem unsupported (pos : Pos) (what : String) : Returns (Lower.unsupported pos what) P := by
  rintro c s _ _ ⟨⟩

theorem bind (h : Returns m P) (hk : ∀ a, P a → Returns (k a) R) : Returns (m >>= k) R := by
  intro c s b s' hb
  rw [Ensures.bind_apply] at hb
  cases hm : m c s with
  | error e =>
    rw [hm] at hb
    cases hb
  | ok r =>
    rw [hm] at hb
    exact hk r.1 (h c s r.1 r.2 hm) c r.2 b s' hb

/-- A step of whose result nothing has to be known. -/
theorem after (hk : ∀ a, Returns (k a) R) : Returns (m >>= k) R :=
  bind (fun _ _ _ _ _ => trivial) fun a (_ : True) => hk a

end Returns

/-! ## Statements -/

/-- What a statement leaves: no break if it has none, and no block after it if it is terminating. -/
structure Flow.Obeys (flow : Flow) (breaks terminating : Bool) : Prop where
  breaks : breaks = false → flow.breaks = []
  next : terminating = true → flow.next = none

/-- A statement that ends in a block has no breaks. -/
theorem Flow.Obeys.of_next (b : BlockId) (breaks : Bool) :
    ({ next := some b } : Flow).Obeys breaks false where
  breaks _ := rfl
  next h := by cases h

/-- Without two ends there is nothing to join. -/
theorem returns_joinBranches {thenEnd elseEnd : Option BlockId} :
    Returns (joinBranches elseEnd thenEnd) fun next =>
      elseEnd = none → thenEnd = none → next = none := by
  rintro c s next s' h rfl rfl
  cases h
  rfl

theorem returns_loopHead {header : BlockId} (cond : Option Expr) :
    Returns (loopHead header cond) fun r => cond.isNone → r.2 = none := by
  cases cond with
  | none =>
    rw [loopHead]
    exact .after fun _ => .pure fun _ => rfl
  | some e => exact fun _ _ _ _ _ h => by cases h

/-- A loop without a condition that is never left has no block after it. -/
theorem returns_leaveLoop {after : Option BlockId} {breaks : List BlockId} :
    Returns (leaveLoop after breaks) fun next => after = none → breaks = [] → next = none := by
  rintro c s next s' h rfl rfl
  rw [leaveLoop] at h
  cases h
  rfl

mutual

theorem returns_stmt (st : Stmt) (inLoop : Bool) (b : BlockId) :
    Returns (stmt inLoop b st) (Flow.Obeys · st.hasBreak st.isTerminating) := by
  cases st with
  | empty =>
    rw [stmt]
    exact .pure (.of_next b _)
  | block body =>
    rw [stmt, Stmt.hasBreak, Stmt.isTerminating]
    exact fun c s flow s' h =>
      have hbody := returns_stmts body inLoop (some b) c s flow s' h
      ⟨hbody.breaks, fun hends => hbody.next (by simp [hends])⟩
  | call callee args =>
    rw [stmt]
    exact .after fun _ => .after fun _ => .pure (.of_next _ _)
  | vars specs =>
    rw [stmt]
    exact .after fun _ => .pure (.of_next _ _)
  | assign targets values =>
    rw [stmt]
    exact .after fun _ => .after fun _ => .pure (.of_next _ _)
  | update target current op operand =>
    rw [stmt]
    exact .after fun _ => .after fun _ => .after fun _ => .after fun _ => .pure (.of_next _ _)
  | ret value =>
    cases value with
    | none =>
      rw [stmt]
      exact .after fun _ => .pure ⟨fun _ => rfl, fun _ => rfl⟩
    | some value =>
      rw [stmt]
      exact .after fun _ => .after fun _ => .pure ⟨fun _ => rfl, fun _ => rfl⟩
  | ifThen init cond body otherwise =>
    rw [stmt, Stmt.hasBreak, Stmt.isTerminating]
    refine (returns_stmt init inLoop b).bind fun start hstart => ?_
    rcases hnext : start.next with _ | b₁
    · exact .pure ⟨fun h => hstart.breaks (by simp_all), fun _ => hnext⟩
    refine .after fun r => .after fun _ => .after fun elseStart => .after fun thenStart =>
      .after fun _ => (returns_stmts body inLoop (some thenStart)).bind fun thenFlow hthen =>
      (returns_stmt otherwise inLoop elseStart).bind fun elseFlow helse =>
      returns_joinBranches.bind fun next hjoin => .pure ⟨fun h => ?_, fun h => ?_⟩
    · simp only [Bool.or_eq_false_iff] at h
      simp [Flow.andThen, hstart.breaks h.1.1, hthen.breaks h.1.2, helse.breaks h.2]
    · simp only [Bool.and_eq_true] at h
      exact hjoin (helse.next h.2) (hthen.next (by simp [h.1]))
  | loop init cond post body =>
    rw [stmt, Stmt.hasBreak, Stmt.isTerminating]
    refine (returns_stmt init inLoop b).bind fun start hstart => ?_
    rcases hnext : start.next with _ | b₁
    · exact .pure ⟨hstart.breaks, fun _ => hnext⟩
    refine .after fun header => .after fun _ => (returns_loopHead cond).bind fun r hhead =>
      (returns_stmts body true (some r.1)).bind fun flow hbody => .after fun bodyEnd => ?_
    -- without a condition, only a break leaves the loop
    have hrest : Returns (do let next ← leaveLoop r.2 flow.breaks; return start.andThen { next })
        (Flow.Obeys · init.hasBreak (cond.isNone && !Stmt.anyBreak body)) := by
      refine returns_leaveLoop.bind fun next hleave => .pure ⟨fun h => ?_, fun h => ?_⟩
      · simp [Flow.andThen, hstart.breaks h]
      · simp only [Bool.and_eq_true, Bool.not_eq_true'] at h
        exact hleave (hhead h.1) (hbody.breaks h.2)
    cases bodyEnd with
    | none => exact hrest
    | some last => exact .after fun _ => .after fun _ => hrest
  | leave pos =>
    rw [stmt]
    cases inLoop with
    | false => exact .after fun _ => .pure ⟨fun h => (by cases h), fun _ => rfl⟩
    | true => exact .pure ⟨fun h => (by cases h), fun _ => rfl⟩
  | again pos =>
    rw [stmt]
    cases inLoop with
    | false => exact .after fun _ => .pure ⟨fun _ => rfl, fun _ => rfl⟩
    | true => exact .pure ⟨fun _ => rfl, fun _ => rfl⟩
  | unsupported pos what =>
    rw [stmt]
    exact .unsupported pos what

/-- Once the end of a statement is not reached, nothing after it is. -/
theorem returns_stmts (l : List Stmt) (inLoop : Bool) (start : Option BlockId) :
    Returns (stmts inLoop start l)
      (Flow.Obeys · (Stmt.anyBreak l) (start.isNone || Stmt.endsTerminating l)) := by
  cases start with
  | none =>
    rw [stmts]
    exact .pure ⟨fun _ => rfl, fun _ => rfl⟩
  | some b =>
    cases l with
    | nil =>
      rw [stmts]
      exact .pure (.of_next b _)
    | cons first rest =>
      rw [stmts, Stmt.anyBreak, Stmt.endsTerminating]
      refine (returns_stmt first inLoop b).bind fun flow hfirst =>
        (returns_stmts rest inLoop flow.next).bind fun flow' hrest =>
        .pure ⟨fun h => ?_, fun h => hrest.next ?_⟩
      · simp only [Bool.or_eq_false_iff] at h
        simp [Flow.andThen, hfirst.breaks h.1, hrest.breaks h.2]
      · -- empty statements at the end are lowered from nowhere
        by_cases hempty : rest.all Stmt.isEmpty
        · simp only [Option.isNone_some, Bool.false_or, hempty, if_true] at h
          simp [hfirst.next h]
        · simp only [Option.isNone_some, Bool.false_or, hempty] at h
          simp_all

end

/-! ## Functions -/

/-- A body with no block after it needs no end. -/
theorem bind_finishBody {f : Function} (h : Returns (stmts false (some entry) f.body) (·.next = none)) :
    (do let flow ← stmts false (some entry) f.body; finishBody f flow.next) =
      discard (stmts false (some entry) f.body) := by
  funext c s
  change (stmts false (some entry) f.body c s >>= _) = (stmts false (some entry) f.body c s >>= _)
  cases hs : stmts false (some entry) f.body c s with
  | error e => rfl
  | ok r =>
    change finishBody f r.1.next c r.2 = _
    rw [h c s r.1 r.2 hs]
    rfl

/-- **The end of a body that ends in a terminating statement is not reached.** A function with such
a body is lowered as if nothing came after the body: whatever fails has failed before. No block is
left after any terminating statement or list of statements, wherever it is lowered. -/
theorem function_of_endsTerminating (f : Function) (h : Stmt.endsTerminating f.body) :
    (∀ name, function name f = do
      let params ← f.params.mapM param
      start name params (← resultType f.result)
      discard (stmts false (some entry) f.body)) ∧
    (∀ st : Stmt, st.isTerminating → ∀ inLoop b c s flow s',
      stmt inLoop b st c s = .ok (flow, s') → flow.next = none) ∧
    ∀ l : List Stmt, Stmt.endsTerminating l → ∀ inLoop start c s flow s',
      stmts inLoop start l c s = .ok (flow, s') → flow.next = none := by
  have hstmts : ∀ l : List Stmt, Stmt.endsTerminating l → ∀ inLoop start,
      Returns (stmts inLoop start l) (·.next = none) :=
    fun l hl inLoop start c s flow s' hflow =>
      (returns_stmts l inLoop start c s flow s' hflow).next (by simp [hl])
  refine ⟨fun name => ?_, fun st hst inLoop b c s flow s' hflow => ?_, hstmts⟩
  · rw [function, bind_finishBody (hstmts f.body h false (some entry))]
  · exact (returns_stmt st inLoop b c s flow s' hflow).next hst

/-- A loop that is left by a return alone, with an empty statement after it. -/
def endless : Function where
  name := "f"
  params := [{ typePos := {}, name := "b", id := 0, type := .value .bool }]
  result := .value {} (.value .bool)
  bodyPos := {}
  body := [.loop .empty none none [.ifThen .empty (.var {} "b" 0) [.ret (some (.var {} "b" 0))] .empty,
    .again {}], .empty]

/-- The loop is lowered, and its end is not reached. -/
theorem endless_end_not_reached :
    (run [] id (function "f" endless)).isOk ∧
    ∀ inLoop start c s flow s', stmts inLoop start endless.body c s = .ok (flow, s') →
      flow.next = none :=
  ⟨by decide +kernel,
    (function_of_endsTerminating endless (by decide)).2.2 endless.body (by decide)⟩

end Lower

end SsaBlocks
