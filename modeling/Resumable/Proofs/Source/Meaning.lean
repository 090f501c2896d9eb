import Resumable.Machine.Eval
import Resumable.Machine.Run

/-!
# What resolved trees mean

The meaning of the trees that programs are resolved to, before any lowering: a big-step relation
along the forms of statements.  A statement comes to its end, leaves or continues the loop around
it, returns, or fails.  The first handler of a try takes every failure of its block and receives the
value that was thrown, or else the text of the failure (`received`).  A finally runs on every way out
of the block and its handlers, and its failure joins the one that is on its way (`together`).  A local
to which nothing was assigned has the zero of its type (`valueOf`).

The relation covers bodies without suspensions, labels and jumps.  It has no rule for a throw
without a value, and none for a finally that is left by a return or by a loop's jump.
-/

set_option autoImplicit false

namespace Resumable.Source

open Resumable.Report Resumable.Symbol Resumable.Tree Resumable.Machine

variable {σ : Type}

/-! ## What is covered -/

mutual

/-- The statement has no suspensions, labels, jumps or throws without a value.  A finally is not
left by a return, nor by a jump of a loop around it: `mayJump` and `mayReturn` say what is
allowed. -/
def coveredStmt (mayJump mayReturn : Bool) : Stmt → Bool
  | .block b => coveredBlock mayJump mayReturn b
  | .noOp _ | .localDeclaration .. | .expression .. => true
  | .return .. => mayReturn
  | .throw _ e => !e.isAbsent
  | .break .. | .continue .. => mayJump
  | .if _ _ t f => coveredStmt mayJump mayReturn t && coveredStmt mayJump mayReturn f
  | .while _ _ body _ _ => coveredStmt true mayReturn body
  | .try _ body catches cleanup =>
    coveredBlock mayJump mayReturn body && coveredCatches mayJump mayReturn catches &&
      coveredBlock false false cleanup
  | .absent => true
  | _ => false

/-- All of the statements are covered. -/
def coveredStmts (mayJump mayReturn : Bool) : List Stmt → Bool
  | [] => true
  | s :: rest => coveredStmt mayJump mayReturn s && coveredStmts mayJump mayReturn rest

/-- The statements of the block are covered. -/
def coveredBlock (mayJump mayReturn : Bool) : Block → Bool
  | .absent => true
  | .mk _ _ ss => coveredStmts mayJump mayReturn ss

/-- The bodies of the handlers are covered. -/
def coveredCatches (mayJump mayReturn : Bool) : List Catch → Bool
  | [] => true
  | .mk _ _ body :: rest =>
    coveredBlock mayJump mayReturn body && coveredCatches mayJump mayReturn rest

end

/-! ## Failures -/

/-- What the variable of a handler receives: the value that was thrown, or else the text.  Of several
reasons it is the first value that was thrown. -/
def received : Failure → Value
  | .single (.thrown v) => v
  | .single t => .string t.text
  | .aggregate ts => (firstThrown ts).getD (.string (aggregateText (ts.map Trap.text)))
where
  /-- The first value that was thrown. -/
  firstThrown : List Trap → Option Value
    | [] => none
    | .thrown v :: _ => some v
    | _ :: rest => firstThrown rest

/-- Two failures as one: the reasons of the first, and then those of the second. -/
def together : Failure → Failure → Failure
  | .single t, .single u => .aggregate [t, u]
  | .single t, .aggregate us => .aggregate (t :: us)
  | .aggregate ts, .single u => .aggregate (ts ++ [u])
  | .aggregate ts, .aggregate us => .aggregate (ts ++ us)

theorem firstThrown_eq (ts : List Trap) : received.firstThrown ts = ts.findSome? Trap.thrown? := by
  induction ts with
  | nil => rfl
  | cons t rest ih => cases t <;> first | rfl | exact ih

/-- A handler of a machine stores what a handler receives. -/
theorem caughtValue_eq_received (f : Failure) : f.caughtValue = received f := by
  cases f with
  | single t => cases t <;> rfl
  | aggregate ts => rw [received, firstThrown_eq]; rfl

/-- A machine joins failures as they go together. -/
theorem append_eq_together (f g : Failure) : f.append g = together f g := by
  cases f <;> cases g <;> rfl

/-! ## Endings -/

/-- How a statement ends. -/
inductive Ending where
  | normal
  /-- The loop around is left. -/
  | broke
  /-- The next round of the loop around begins. -/
  | continued
  | returned (v : Value)
  | failed (f : Failure)
  deriving DecidableEq, Repr, Inhabited

namespace Ending

/-- The ending of a step that only evaluates. -/
def ofResult {α : Type} (k : α → Ending) : Except Failure α → Ending
  | .ok a => k a
  | .error f => failed f

/-- Behind a round of its body a loop goes on. -/
def goesOn : Ending → Bool
  | normal | continued => true
  | _ => false

/-- How a loop ends whose body ends so and does not go on. -/
def ofLoop : Ending → Ending
  | broke => normal
  | e => e

/-- A try block or a handler ends so, and then the finally: its failure takes the place of any
other ending, and joins a failure. -/
def behindFinally : Ending → Ending → Option Ending
  | e, normal => some e
  | failed f, failed g => some (failed (together f g))
  | _, failed g => some (failed g)
  | _, _ => none

/-- What a call gives whose body ends so. -/
def result : Ending → Except Failure Value
  | returned v => .ok v
  | failed f => .error f
  | _ => .ok .null

end Ending

/-! ## Variables and conditions -/

/-- The configuration with a local that has a value. -/
def withLocal (c : Config σ) (l : Local) (v : Value) : Config σ :=
  { c with activation := { c.activation with locals := c.activation.locals.put l v } }

/-- The configuration in which a handler begins: its variable, if it has one, receives what was
thrown. -/
def withCaughtValue (c : Config σ) (target : Option Local) (f : Failure) : Config σ :=
  match target with
  | some l => withLocal c l (received f)
  | none => c

/-- The value of a local: as long as none was assigned, the zero of its type. -/
def valueOf (c : Config σ) (l : Local) : Value :=
  match c.activation.locals.get? l with
  | some v => v
  | none => .zero l.type

/-- Evaluate a condition. -/
def truth (ctx : Context σ) (condition : Expr) : Act σ Bool := do
  Act.ofExcept (← eval ctx condition).asBool

/-! ## The relation -/

/-- What has a meaning: a statement, statements in order, or a try block with its handlers. -/
inductive Phrase where
  | one (s : Stmt)
  | all (ss : List Stmt)
  | guarded (body : Block) (catches : List Catch)

/-- A phrase runs from a configuration to an ending and a configuration. -/
inductive Runs (ctx : Context σ) : Phrase → Config σ → Ending → Config σ → Prop where
  | block {o : Origin} {locals : List Local} {ss : List Stmt} {c d : Config σ} {e : Ending} :
      Runs ctx (.all ss) c e d → Runs ctx (.one (.block (.mk o locals ss))) c e d
  | noOp {o : Origin} {c : Config σ} : Runs ctx (.one (.noOp o)) c .normal c
  /-- A declaration without a value leaves the variable as it was. -/
  | declare {o : Origin} {l : Local} {c : Config σ} :
      Runs ctx (.one (.localDeclaration o l .absent)) c .normal c
  | declareWith {o : Origin} {l : Local} {init : Expr} {c d : Config σ} {v : Value} :
      init ≠ .absent → eval ctx init c = some (.ok v, d) →
      Runs ctx (.one (.localDeclaration o l init)) c .normal (withLocal d l v)
  | declareFails {o : Origin} {l : Local} {init : Expr} {c d : Config σ} {f : Failure} :
      init ≠ .absent → eval ctx init c = some (.error f, d) →
      Runs ctx (.one (.localDeclaration o l init)) c (.failed f) d
  | expression {o : Origin} {x : Expr} {c d : Config σ} {r : Except Failure Value} :
      eval ctx x c = some (r, d) →
      Runs ctx (.one (.expression o x)) c (.ofResult (fun _ => .normal) r) d
  | returnNothing {o : Origin} {c : Config σ} :
      Runs ctx (.one (.return o .absent)) c (.returned .null) c
  | return {o : Origin} {x : Expr} {c d : Config σ} {r : Except Failure Value} :
      x ≠ .absent → eval ctx x c = some (r, d) →
      Runs ctx (.one (.return o x)) c (.ofResult .returned r) d
  | throw {o : Origin} {x : Expr} {c d : Config σ} {r : Except Failure Value} :
      x ≠ .absent → eval ctx x c = some (r, d) →
      Runs ctx (.one (.throw o x)) c (.ofResult (fun v => .failed (.single (.thrown v))) r) d
  | break {o : Origin} {l : Option Label} {c : Config σ} :
      Runs ctx (.one (.break o l)) c .broke c
  | continue {o : Origin} {l : Option Label} {c : Config σ} :
      Runs ctx (.one (.continue o l)) c .continued c
  | ifTrue {o : Origin} {x : Expr} {t f : Stmt} {c d d' : Config σ} {e : Ending} :
      truth ctx x c = some (.ok true, d) → Runs ctx (.one t) d e d' →
      Runs ctx (.one (.if o x t f)) c e d'
  | ifFalse {o : Origin} {x : Expr} {t f : Stmt} {c d d' : Config σ} {e : Ending} :
      truth ctx x c = some (.ok false, d) → f ≠ .absent → Runs ctx (.one f) d e d' →
      Runs ctx (.one (.if o x t f)) c e d'
  | ifSkip {o : Origin} {x : Expr} {t : Stmt} {c d : Config σ} :
      truth ctx x c = some (.ok false, d) → Runs ctx (.one (.if o x t .absent)) c .normal d
  | ifFails {o : Origin} {x : Expr} {t f : Stmt} {c d : Config σ} {g : Failure} :
      truth ctx x c = some (.error g, d) → Runs ctx (.one (.if o x t f)) c (.failed g) d
  | whileDone {o : Origin} {x : Expr} {b : Stmt} {exit again : Option Label} {c d : Config σ} :
      truth ctx x c = some (.ok false, d) →
      Runs ctx (.one (.while o x b exit again)) c .normal d
  | whileGoesOn {o : Origin} {x : Expr} {b : Stmt} {exit again : Option Label}
      {c d d' d'' : Config σ} {e e' : Ending} :
      truth ctx x c = some (.ok true, d) → Runs ctx (.one b) d e d' → e.goesOn = true →
      Runs ctx (.one (.while o x b exit again)) d' e' d'' →
      Runs ctx (.one (.while o x b exit again)) c e' d''
  | whileLeft {o : Origin} {x : Expr} {b : Stmt} {exit again : Option Label}
      {c d d' : Config σ} {e : Ending} :
      truth ctx x c = some (.ok true, d) → Runs ctx (.one b) d e d' → e.goesOn = false →
      Runs ctx (.one (.while o x b exit again)) c e.ofLoop d'
  | whileFails {o : Origin} {x : Expr} {b : Stmt} {exit again : Option Label} {c d : Config σ}
      {g : Failure} :
      truth ctx x c = some (.error g, d) →
      Runs ctx (.one (.while o x b exit again)) c (.failed g) d
  | nil {c : Config σ} : Runs ctx (.all []) c .normal c
  | cons {s : Stmt} {rest : List Stmt} {c d d' : Config σ} {e : Ending} :
      Runs ctx (.one s) c .normal d → Runs ctx (.all rest) d e d' →
      Runs ctx (.all (s :: rest)) c e d'
  | consLeft {s : Stmt} {rest : List Stmt} {c d : Config σ} {e : Ending} :
      Runs ctx (.one s) c e d → e ≠ .normal → Runs ctx (.all (s :: rest)) c e d
  /-- No failure, or no handler that could take it. -/
  | unhandled {body : Block} {catches : List Catch} {c d : Config σ} {e : Ending} :
      Runs ctx (.all body.statements) c e d → (catches = [] ∨ ∀ f, e ≠ .failed f) →
      Runs ctx (.guarded body catches) c e d
  /-- The first handler takes the failure. -/
  | handled {body handler : Block} {o : Origin} {target : Option Local} {rest : List Catch}
      {c d d' : Config σ} {f : Failure} {e : Ending} :
      Runs ctx (.all body.statements) c (.failed f) d →
      Runs ctx (.all handler.statements) (withCaughtValue d target f) e d' →
      Runs ctx (.guarded body (.mk o target handler :: rest)) c e d'
  | tryOnly {o : Origin} {body : Block} {catches : List Catch} {c d : Config σ} {e : Ending} :
      Runs ctx (.guarded body catches) c e d →
      Runs ctx (.one (.try o body catches .absent)) c e d
  | tryFinally {o fo : Origin} {body : Block} {catches : List Catch} {locals : List Local}
      {ss : List Stmt} {c d d' : Config σ} {e e' e'' : Ending} :
      Runs ctx (.guarded body catches) c e d → Runs ctx (.all ss) d e' d' →
      e.behindFinally e' = some e'' →
      Runs ctx (.one (.try o body catches (.mk fo locals ss))) c e'' d'

/-! ## The relation, form by form -/

namespace Runs

variable {ctx : Context σ} {c d : Config σ} {e : Ending} {o : Origin}

theorem block_iff {locals : List Local} {ss : List Stmt} :
    Runs ctx (.one (.block (.mk o locals ss))) c e d ↔ Runs ctx (.all ss) c e d := by
  constructor
  · intro h
    cases h with
    | block h => exact h
  · exact .block

theorem noOp_iff : Runs ctx (.one (.noOp o)) c e d ↔ e = .normal ∧ d = c := by
  constructor
  · intro h
    cases h
    exact ⟨rfl, rfl⟩
  · rintro ⟨rfl, rfl⟩
    exact .noOp

theorem declare_iff {l : Local} :
    Runs ctx (.one (.localDeclaration o l .absent)) c e d ↔ e = .normal ∧ d = c := by
  constructor
  · intro h
    cases h with
    | declare => exact ⟨rfl, rfl⟩
    | declareWith h => exact absurd rfl h
    | declareFails h => exact absurd rfl h
  · rintro ⟨rfl, rfl⟩
    exact .declare

theorem declareWith_iff {l : Local} {init : Expr} (hinit : init ≠ .absent) :
    Runs ctx (.one (.localDeclaration o l init)) c e d ↔
      (∃ v m, eval ctx init c = some (.ok v, m) ∧ e = .normal ∧ d = withLocal m l v) ∨
        ∃ f, eval ctx init c = some (.error f, d) ∧ e = .failed f := by
  constructor
  · intro h
    cases h with
    | declare => exact absurd rfl hinit
    | declareWith _ h => exact .inl ⟨_, _, h, rfl, rfl⟩
    | declareFails _ h => exact .inr ⟨_, h, rfl⟩
  · rintro (⟨v, m, h, rfl, rfl⟩ | ⟨f, h, rfl⟩)
    · exact .declareWith hinit h
    · exact .declareFails hinit h

theorem expression_iff {x : Expr} :
    Runs ctx (.one (.expression o x)) c e d ↔
      ∃ r, eval ctx x c = some (r, d) ∧ e = .ofResult (fun _ => .normal) r := by
  constructor
  · intro h
    cases h with
    | expression h => exact ⟨_, h, rfl⟩
  · rintro ⟨r, h, rfl⟩
    exact .expression h

/-- A return gives what a machine evaluates for it. -/
theorem return_iff {x : Expr} :
    Runs ctx (.one (.return o x)) c e d ↔
      ∃ r, evalReturned ctx x c = some (r, d) ∧ e = .ofResult .returned r := by
  by_cases hx : x = .absent
  · subst hx
    constructor
    · intro h
      cases h with
      | returnNothing => exact ⟨.ok .null, rfl, rfl⟩
      | «return» hne => exact absurd rfl hne
    · rintro ⟨r, h, rfl⟩
      cases h
      exact .returnNothing
  · have heval : evalReturned ctx x = eval ctx x := by
      cases x <;> first | rfl | exact absurd rfl hx
    rw [heval]
    constructor
    · intro h
      cases h with
      | returnNothing => exact absurd rfl hx
      | «return» _ h => exact ⟨_, h, rfl⟩
    · rintro ⟨r, h, rfl⟩
      exact .return hx h

theorem throw_iff {x : Expr} (hx : x ≠ .absent) :
    Runs ctx (.one (.throw o x)) c e d ↔
      ∃ r, eval ctx x c = some (r, d) ∧
        e = .ofResult (fun v => .failed (.single (.thrown v))) r := by
  constructor
  · intro h
    cases h with
    | throw _ h => exact ⟨_, h, rfl⟩
  · rintro ⟨r, h, rfl⟩
    exact .throw hx h

theorem break_iff {l : Option Label} :
    Runs ctx (.one (.break o l)) c e d ↔ e = .broke ∧ d = c := by
  constructor
  · intro h
    cases h
    exact ⟨rfl, rfl⟩
  · rintro ⟨rfl, rfl⟩
    exact .break

theorem continue_iff {l : Option Label} :
    Runs ctx (.one (.continue o l)) c e d ↔ e = .continued ∧ d = c := by
  constructor
  · intro h
    cases h
    exact ⟨rfl, rfl⟩
  · rintro ⟨rfl, rfl⟩
    exact .continue

theorem if_iff {x : Expr} {t f : Stmt} :
    Runs ctx (.one (.if o x t f)) c e d ↔
      (∃ m, truth ctx x c = some (.ok true, m) ∧ Runs ctx (.one t) m e d) ∨
      (∃ m, truth ctx x c = some (.ok false, m) ∧
        ((f ≠ .absent ∧ Runs ctx (.one f) m e d) ∨ (f = .absent ∧ e = .normal ∧ d = m))) ∨
      ∃ g, truth ctx x c = some (.error g, d) ∧ e = .failed g := by
  constructor
  · intro h
    cases h with
    | ifTrue hx h => exact .inl ⟨_, hx, h⟩
    | ifFalse hx hf h => exact .inr (.inl ⟨_, hx, .inl ⟨hf, h⟩⟩)
    | ifSkip hx => exact .inr (.inl ⟨_, hx, .inr ⟨rfl, rfl, rfl⟩⟩)
    | ifFails hx => exact .inr (.inr ⟨_, hx, rfl⟩)
  · rintro (⟨m, hx, h⟩ | ⟨m, hx, ⟨hf, h⟩ | ⟨rfl, rfl, rfl⟩⟩ | ⟨g, hx, rfl⟩)
    · exact .ifTrue hx h
    · exact .ifFalse hx hf h
    · exact .ifSkip hx
    · exact .ifFails hx

theorem nil_iff : Runs ctx (.all []) c e d ↔ e = .normal ∧ d = c := by
  constructor
  · intro h
    cases h
    exact ⟨rfl, rfl⟩
  · rintro ⟨rfl, rfl⟩
    exact .nil

theorem cons_iff {s : Stmt} {rest : List Stmt} :
    Runs ctx (.all (s :: rest)) c e d ↔
      (∃ m, Runs ctx (.one s) c .normal m ∧ Runs ctx (.all rest) m e d) ∨
        (Runs ctx (.one s) c e d ∧ e ≠ .normal) := by
  constructor
  · intro h
    cases h with
    | cons h h' => exact .inl ⟨_, h, h'⟩
    | consLeft h hne => exact .inr ⟨h, hne⟩
  · rintro (⟨m, h, h'⟩ | ⟨h, hne⟩)
    · exact .cons h h'
    · exact .consLeft h hne

theorem unhandled_iff {body : Block} :
    Runs ctx (.guarded body []) c e d ↔ Runs ctx (.all body.statements) c e d := by
  constructor
  · intro h
    cases h with
    | unhandled h => exact h
  · exact fun h => .unhandled h (.inl rfl)

theorem handled_iff {body handler : Block} {target : Option Local} {rest : List Catch} :
    Runs ctx (.guarded body (.mk o target handler :: rest)) c e d ↔
      (Runs ctx (.all body.statements) c e d ∧ ∀ f, e ≠ .failed f) ∨
        ∃ f m, Runs ctx (.all body.statements) c (.failed f) m ∧
          Runs ctx (.all handler.statements) (withCaughtValue m target f) e d := by
  constructor
  · intro h
    cases h with
    | unhandled h hne => exact .inl ⟨h, hne.resolve_left (by simp)⟩
    | handled h h' => exact .inr ⟨_, _, h, h'⟩
  · rintro (⟨h, hne⟩ | ⟨f, m, h, h'⟩)
    · exact .unhandled h (.inr hne)
    · exact .handled h h'

theorem tryOnly_iff {body : Block} {catches : List Catch} :
    Runs ctx (.one (.try o body catches .absent)) c e d ↔
      Runs ctx (.guarded body catches) c e d := by
  constructor
  · intro h
    cases h with
    | tryOnly h => exact h
  · exact .tryOnly

theorem tryFinally_iff {body cleanup : Block} {catches : List Catch} (hne : cleanup ≠ .absent) :
    Runs ctx (.one (.try o body catches cleanup)) c e d ↔
      ∃ e' e'' m, Runs ctx (.guarded body catches) c e' m ∧
        Runs ctx (.all cleanup.statements) m e'' d ∧ e'.behindFinally e'' = some e := by
  cases cleanup with
  | absent => exact absurd rfl hne
  | mk fo locals ss =>
    constructor
    · intro h
      cases h with
      | tryFinally h h' hend => exact ⟨_, _, _, h, h', hend⟩
    · rintro ⟨e', e'', m, h, h', hend⟩
      exact .tryFinally h h' hend

end Runs

end Resumable.Source
