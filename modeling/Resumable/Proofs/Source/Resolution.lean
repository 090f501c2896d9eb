import Resumable.Proofs.Tree.Jumps
import Resumable.Source.Program

/-!
# What resolution makes

The trees that resolution gives for a program without faults: expressions read and write locals and
the parameters of the method and call host methods only, each loop has labels of its own, a loop's
jump goes to the labels of the loop around it, a try has handlers or a finally, and blocks that are
the user's know their braces.  No label is placed twice, and each jump goes to a label that the
method places (`bound_methods`).

Resolution goes on after a fault, but faults are never taken back, so a step of a resolution that
ends without faults has had none (`Resolve.Gives`).
-/

set_option autoImplicit false

namespace Resumable.Source

open Resumable.Text Resumable.Report Resumable.Symbol Resumable.Tree

variable {α β : Type}

/-! ## Steps of resolution -/

/-- Every host method that is known is one. -/
def Progress.Sound (p : Progress) : Prop := ∀ m ∈ p.hosts, m.isHost = true

/-- Nothing has become of labels and loops. -/
def Progress.Still (p q : Progress) : Prop := q.labels = p.labels ∧ q.loopCount = p.loopCount

theorem Progress.Still.refl (p : Progress) : p.Still p := ⟨rfl, rfl⟩

theorem Progress.Still.trans {p q r : Progress} (h : p.Still q) (h' : q.Still r) : p.Still r :=
  ⟨h'.1.trans h.1, h'.2.trans h.2⟩

/-- The method declares a label of the name. -/
def Progress.Declares (p : Progress) (name : String) : Prop :=
  ∃ use ∈ p.labels, use.name = name ∧ use.declared = true

/-- The method declares a label of the name, or jumps to it. -/
def Progress.Knows (p : Progress) (name : String) : Prop := ∃ use ∈ p.labels, use.name = name

/-- A step that takes no fault back, and that gives what `post` says if there are none behind it. -/
structure Resolve.Gives (x : Resolve α) (post : Progress → α → Progress → Prop) : Prop where
  grows : ∀ p : Progress, ∃ more, (x p).2.faults = p.faults ++ more
  sound : ∀ p : Progress, p.Sound → (x p).2.Sound
  post : ∀ p : Progress, p.Sound → (x p).2.faults = [] → post p (x p).1 (x p).2

theorem Resolve.host_eq (name : String) (p : Progress) : Resolve.host name p =
    match p.hosts.find? fun h => h.name == name with
    | some m => (m, p)
    | none => (.host name (some .object), { p with
        hosts := p.hosts.filter (fun h => h.name != name) ++ [.host name (some .object)] }) := by
  show (match p.hosts.find? fun h => h.name == name with
    | some m => Pure.pure m
    | none => do
      let m := Method.host name (some .object)
      Resolve.declareHost m
      return m : Resolve Method) p = _
  cases p.hosts.find? fun h => h.name == name <;> rfl

namespace Resolve.Gives

variable {x : Resolve α} {f : α → Resolve β} {post post' : Progress → α → Progress → Prop}
  {next : Progress → β → Progress → Prop}

theorem faults_nil (h : Gives x post) {p : Progress} (hp : (x p).2.faults = []) :
    p.faults = [] := by
  obtain ⟨more, hmore⟩ := h.grows p
  rw [hp] at hmore
  exact (List.append_eq_nil_iff.mp hmore.symm).1

theorem pure (a : α) : Gives (Pure.pure a : Resolve α) fun p b q => b = a ∧ q = p where
  grows _ := ⟨[], (List.append_nil _).symm⟩
  sound _ h := h
  post _ _ _ := ⟨rfl, rfl⟩

theorem weaken (h : Gives x post) (hpost : ∀ p a q, p.Sound → post p a q → post' p a q) :
    Gives x post' where
  grows := h.grows
  sound := h.sound
  post p hp hq := hpost _ _ _ hp (h.post p hp hq)

/-- Steps in a row. -/
theorem bind {next : α → Progress → β → Progress → Prop} (hx : Gives x post)
    (hf : ∀ a, Gives (f a) (next a)) :
    Gives (x >>= f) fun p b q => ∃ a m, post p a m ∧ next a m b q where
  grows p := by
    obtain ⟨more, hmore⟩ := hx.grows p
    obtain ⟨more', hmore'⟩ := (hf (x p).1).grows (x p).2
    refine ⟨more ++ more', ?_⟩
    change (f (x p).1 (x p).2).2.faults = _
    rw [hmore', hmore, List.append_assoc]
  sound p hp := (hf _).sound _ (hx.sound p hp)
  post p hp hq := by
    have hmid : (x p).2.faults = [] := (hf (x p).1).faults_nil hq
    exact ⟨_, _, hx.post p hp hmid, (hf _).post _ (hx.sound p hp) hq⟩

theorem get : Gives (MonadState.get : Resolve Progress) fun p a q => a = p ∧ q = p where
  grows _ := ⟨[], (List.append_nil _).symm⟩
  sound _ h := h
  post _ _ _ := ⟨rfl, rfl⟩

/-- A step that changes neither faults nor host methods. -/
theorem modify {g : Progress → Progress} (hfaults : ∀ p, (g p).faults = p.faults)
    (hhosts : ∀ p, (g p).hosts = p.hosts) :
    Gives (MonadState.modifyGet fun p => ((), g p) : Resolve Unit) fun p _ q => q = g p where
  grows p := ⟨[], by rw [List.append_nil]; exact hfaults p⟩
  sound p h := by
    intro m hm
    exact h m (hhosts p ▸ hm)
  post _ _ _ := rfl

/-- A fault does not go away. -/
theorem report (d : Diagnostic) : Gives (Resolve.report d) fun _ _ _ => False where
  grows _ := ⟨[d], rfl⟩
  sound _ h := h
  post p _ h := by
    have : p.faults ++ [d] = [] := h
    simp at this

theorem type (name : String) (position : Position) :
    Gives (Resolve.type name position) fun p _ q => q = p := by
  unfold Resolve.type
  split
  · exact (pure _).weaken fun p a q _ h => h.2
  · exact ((report _).bind fun _ => pure _).weaken fun p a q _ ⟨_, _, h, _⟩ => h.elim

theorem declareHost {m : Method} (hm : m.isHost = true) :
    Gives (Resolve.declareHost m) fun p _ q => p.Still q where
  grows _ := ⟨[], (List.append_nil _).symm⟩
  sound p h := by
    intro k hk
    rcases List.mem_append.mp hk with hk | hk
    · exact h k (List.mem_filter.mp hk).1
    · rw [List.mem_singleton.mp hk]
      exact hm
  post p _ _ := .refl p

/-- A host method is one that is known, or a new one. -/
theorem host (name : String) :
    Gives (Resolve.host name) fun p m q => m.isHost = true ∧ p.Still q := by
  unfold Resolve.host
  refine (@bind _ _ _ _ _ (fun known p m q => (m ∈ known.hosts ∨ m.isHost = true) ∧
    p.Still q) get fun known => ?_).weaken ?_
  · split
    · rename_i m hm
      refine (pure m).weaken ?_
      rintro p _ q - ⟨rfl, rfl⟩
      exact ⟨.inl (List.mem_of_find?_eq_some hm), .refl _⟩
    · refine ((declareHost rfl).bind fun _ => pure _).weaken ?_
      rintro p _ q - ⟨_, _, hstill, rfl, rfl⟩
      exact ⟨.inr rfl, hstill⟩
  · rintro p m q hp ⟨_, _, ⟨rfl, rfl⟩, hm | hm, hstill⟩
    · exact ⟨hp m hm, hstill⟩
    · exact ⟨hm, hstill⟩

theorem newLocal (name : String) (type : Ty) :
    Gives (Resolve.newLocal name type) fun p _ q => p.Still q where
  grows _ := ⟨[], (List.append_nil _).symm⟩
  sound _ h := h
  post p _ _ := .refl p

theorem newLoop :
    Gives Resolve.newLoop fun p r q => q.loopCount = p.loopCount + 1 ∧ q.labels = p.labels ∧
      r = (.generated "break" q.loopCount, .generated "continue" q.loopCount) where
  grows _ := ⟨[], (List.append_nil _).symm⟩
  sound _ h := h
  post _ _ _ := ⟨rfl, rfl, rfl⟩

/-- A change of what is known of a label reaches the uses of its name, of which there is one then. -/
theorem updateLabel (name : String) (f : LabelUse → LabelUse) :
    Gives (Resolve.updateLabel name f) fun p _ q => q.loopCount = p.loopCount ∧
      ∀ use, use ∈ q.labels ↔ (use ∈ p.labels ∧ use.name ≠ name) ∨
        (∃ old ∈ p.labels, old.name = name ∧ use = f old) ∨
        ((∀ old ∈ p.labels, old.name ≠ name) ∧ use = f { name }) := by
  refine (modify (fun p => ?_) fun p => ?_).weaken ?_
  · split <;> rfl
  · split <;> rfl
  · rintro p _ q - rfl
    by_cases hany : (p.labels.any fun use => use.name == name) = true
    · simp only [hany, if_true]
      refine ⟨trivial, fun use => ?_⟩
      obtain ⟨known, hknown, hname⟩ := List.any_eq_true.mp hany
      simp only [List.mem_map]
      constructor
      · rintro ⟨old, hold, rfl⟩
        by_cases h : old.name = name
        · exact .inr (.inl ⟨old, hold, h, by simp [h]⟩)
        · exact .inl (by simpa [h] using hold)
      · rintro (⟨huse, hne⟩ | ⟨old, hold, h, rfl⟩ | ⟨hnone, -⟩)
        · exact ⟨use, huse, by simp [hne]⟩
        · exact ⟨old, hold, by simp [h]⟩
        · exact absurd (by simpa using hname) (hnone known hknown)
    · have hnone : ∀ old ∈ p.labels, old.name ≠ name := by simpa using hany
      simp only [hany]
      refine ⟨rfl, fun use => ?_⟩
      simp only [Bool.false_eq_true, if_false, List.mem_append, List.mem_singleton]
      constructor
      · rintro (huse | rfl)
        · exact .inl ⟨huse, hnone use huse⟩
        · exact .inr (.inr ⟨hnone, rfl⟩)
      · rintro (⟨huse, -⟩ | ⟨old, hold, h, -⟩ | ⟨-, rfl⟩)
        · exact .inl huse
        · exact absurd h (hnone old hold)
        · exact .inr rfl

/-- Behind such a change that keeps names, the names that were known are known, and so is the name
of the label. -/
theorem known_of_update {p q : Progress} {name : String} {f : LabelUse → LabelUse}
    (hname : ∀ use, (f use).name = use.name)
    (huses : ∀ use, use ∈ q.labels ↔ (use ∈ p.labels ∧ use.name ≠ name) ∨
      (∃ old ∈ p.labels, old.name = name ∧ use = f old) ∨
      ((∀ old ∈ p.labels, old.name ≠ name) ∧ use = f { name })) :
    (∀ n, p.Knows n → q.Knows n) ∧ q.Knows name := by
  have hknown : q.Knows name := by
    by_cases hold : ∃ old ∈ p.labels, old.name = name
    · obtain ⟨old, hold, h⟩ := hold
      exact ⟨f old, (huses _).mpr (.inr (.inl ⟨old, hold, h, rfl⟩)), (hname old).trans h⟩
    · exact ⟨f { name }, (huses _).mpr (.inr (.inr ⟨by simpa using hold, rfl⟩)), hname _⟩
  refine ⟨?_, hknown⟩
  rintro n ⟨use, huse, rfl⟩
  by_cases h : use.name = name
  · exact h ▸ hknown
  · exact ⟨use, (huses use).mpr (.inl ⟨huse, h⟩), rfl⟩

/-- A jump makes a label known. -/
theorem useLabel (name : String) (position : Position) :
    Gives (Resolve.useLabel name position) fun p _ q => q.loopCount = p.loopCount ∧
      (∀ n, q.Declares n ↔ p.Declares n) ∧ (∀ n, p.Knows n → q.Knows n) ∧ q.Knows name := by
  let f : LabelUse → LabelUse := fun use =>
    if !use.declared && use.usedAt.isNone then { use with usedAt := some position } else use
  have hname : ∀ use, (f use).name = use.name := fun use => by dsimp only [f]; split <;> rfl
  have hdeclared : ∀ use, (f use).declared = use.declared := fun use => by
    dsimp only [f]
    split <;> rfl
  refine (updateLabel name f).weaken ?_
  rintro p _ q - ⟨hloop, huses⟩
  refine ⟨hloop, fun n => ⟨?_, ?_⟩, known_of_update hname huses⟩
  · rintro ⟨use, huse, rfl, h⟩
    rcases (huses use).mp huse with ⟨hold, -⟩ | ⟨old, hold, -, rfl⟩ | ⟨-, rfl⟩
    · exact ⟨use, hold, rfl, h⟩
    · exact ⟨old, hold, (hname old).symm, (hdeclared old).symm.trans h⟩
    · exact absurd ((hdeclared _).symm.trans h) Bool.false_ne_true
  · rintro ⟨old, hold, rfl, h⟩
    by_cases hcase : old.name = name
    · exact ⟨f old, (huses _).mpr (.inr (.inl ⟨old, hold, hcase, rfl⟩)), hname old,
        (hdeclared old).trans h⟩
    · exact ⟨old, (huses _).mpr (.inl ⟨hold, hcase⟩), rfl, h⟩

/-- A check that reports a fault is passed. -/
theorem checked (c : Bool) (d : Diagnostic) (hx : Gives x post) :
    Gives (if c = true then do Resolve.report d; x else x) fun p a q => c = false ∧ post p a q := by
  cases c with
  | true => exact ((report d).bind fun _ => hx).weaken fun _ _ _ _ ⟨_, _, h, _⟩ => h.elim
  | false => exact hx.weaken fun _ _ _ _ h => ⟨rfl, h⟩

theorem declareLabel (name : String) (position : Position) :
    Gives (Resolve.declareLabel name position) fun p _ q => q.loopCount = p.loopCount ∧
      ¬ p.Declares name ∧ (∀ n, q.Declares n ↔ p.Declares n ∨ n = name) ∧
      ∀ n, p.Knows n → q.Knows n := by
  refine (get.bind fun known => checked _ _ (updateLabel name _)).weaken ?_
  rintro p _ q - ⟨_, p, ⟨rfl, rfl⟩, hfresh, hloop, huses⟩
  have hfresh : ∀ use ∈ p.labels, use.name = name → use.declared = false := by simpa using hfresh
  have hknown := known_of_update (f := fun use => { use with declared := true }) (fun _ => rfl) huses
  refine ⟨hloop, ?_, fun n => ⟨?_, ?_⟩, hknown.1⟩
  all_goals simp only [Progress.Declares, huses]
  · grind
  · grind
  · rintro (⟨use, huse, rfl, hdeclared⟩ | rfl)
    · have hne : use.name ≠ name := by
        intro h
        rw [hfresh use huse h] at hdeclared
        cases hdeclared
      exact ⟨use, .inl ⟨huse, hne⟩, rfl, hdeclared⟩
    · by_cases hold : ∃ old ∈ p.labels, old.name = n
      · obtain ⟨old, hold, rfl⟩ := hold
        exact ⟨_, .inr (.inl ⟨old, hold, rfl, rfl⟩), rfl, rfl⟩
      · exact ⟨_, .inr (.inr ⟨by simpa using hold, rfl⟩), rfl, rfl⟩

end Resolve.Gives

/-! ## Expressions -/

/-- A variable of a method. -/
def isVariable : Expr → Bool
  | .localRef .. | .parameterRef .. => true
  | _ => false

mutual

/-- The expression is made of literals, locals, parameters of the method, operators and calls of
host methods. -/
def boundExpr (params : List Param) : Expr → Bool
  | .literal .. | .localRef .. => true
  | .parameterRef _ p => p ∈ params
  | .unary _ _ e => boundExpr params e
  | .binary _ _ a b => boundExpr params a && boundExpr params b
  | .call _ r m args => r.isAbsent && m.isHost && boundExprs params args
  | _ => false

/-- All of the expressions are. -/
def boundExprs (params : List Param) : List Expr → Bool
  | [] => true
  | e :: rest => boundExpr params e && boundExprs params rest

end

/-- The expression is such a one, or assigns one to a variable. -/
def boundEffect (params : List Param) : Expr → Bool
  | .assignment _ target value =>
    isVariable target && boundExpr params target && boundExpr params value
  | e => boundExpr params e

variable {params : List Param}

theorem boundEffect_of_bound {e : Expr} (h : boundExpr params e = true) :
    boundEffect params e = true := by
  cases e with
  | assignment => simp [boundExpr] at h
  | _ => exact h

/-- Precedence only puts operators between what it is given. -/
theorem climb_bound (o : Origin) : ∀ (steps least : Nat) (left : Expr)
    (rest : List (BinaryOp × Expr)), boundExpr params left = true →
    (∀ x ∈ rest, boundExpr params x.2 = true) →
    boundExpr params (climb o steps least left rest).1 = true ∧
      ∀ x ∈ (climb o steps least left rest).2, boundExpr params x.2 = true
  | 0, _, left, rest, hleft, hrest => ⟨hleft, hrest⟩
  | _ + 1, _, left, [], hleft, hrest => ⟨hleft, hrest⟩
  | steps + 1, least, left, (op, operand) :: rest, hleft, hrest => by
    unfold climb
    split
    · exact ⟨hleft, hrest⟩
    · obtain ⟨hright, hothers⟩ := climb_bound o steps op.precedence operand rest
        (hrest (op, operand) (by simp)) fun x hx => hrest x (by simp [hx])
      refine climb_bound o steps least _ _ ?_ hothers
      simp only [boundExpr, hleft, hright, Bool.and_self]

theorem operatorTree_bound (o : Origin) {first : Expr} {rest : List (BinaryOp × Expr)}
    (hfirst : boundExpr params first = true) (hrest : ∀ x ∈ rest, boundExpr params x.2 = true) :
    boundExpr params (operatorTree o first rest) = true :=
  (climb_bound o _ 0 first rest hfirst hrest).1

/-- The expression is bound, and nothing becomes of labels and loops. -/
def GivesExpr (params : List Param) (x : Resolve Expr) : Prop :=
  x.Gives fun p e q => boundExpr params e = true ∧ p.Still q

theorem lookup_gives (visible : Visible) (name : String) (position : Position) (r : Provenance) :
    (Resolve.lookup visible name position r).Gives fun p e q =>
      isVariable e = true ∧ boundExpr visible.params e = true ∧ p.Still q := by
  unfold Resolve.lookup
  split
  · refine (Resolve.Gives.pure _).weaken ?_
    rintro p _ q - ⟨rfl, rfl⟩
    exact ⟨rfl, rfl, .refl q⟩
  · split
    · rename_i param hparam
      refine (Resolve.Gives.pure _).weaken ?_
      rintro p _ q - ⟨rfl, rfl⟩
      have hmem : param ∈ visible.params :=
        List.mem_reverse.mp (List.mem_of_find?_eq_some hparam)
      exact ⟨rfl, decide_eq_true hmem, .refl q⟩
    · exact ((Resolve.Gives.report _).bind fun _ => .pure _).weaken
        fun _ _ _ _ ⟨_, _, h, _⟩ => h.elim

theorem literal_gives (o : Origin) (v : Constant) (t : Option Ty) :
    GivesExpr params (pure (.literal o v t)) := by
  refine (Resolve.Gives.pure _).weaken ?_
  rintro p _ q - ⟨rfl, rfl⟩
  exact ⟨rfl, .refl q⟩

mutual

theorem chain_gives (visible : Visible) : ∀ (c : Chain) (parent : Provenance),
    GivesExpr visible.params (c.resolve visible parent)
  | .last operand, parent => by
    unfold Chain.resolve
    refine ((operand_gives visible operand parent).bind fun _ => .pure _).weaken ?_
    rintro p _ q - ⟨e, m, ⟨he, hstill⟩, rfl, rfl⟩
    exact ⟨he, hstill⟩
  | .link operand op rest, parent => by
    unfold Chain.resolve
    refine ((operand_gives visible operand parent).bind fun _ =>
      (links_gives visible rest parent).bind fun _ => .pure _).weaken ?_
    rintro p _ q - ⟨e, m, ⟨he, hstill⟩, ⟨second, others⟩, m', ⟨hsecond, hothers, hstill'⟩, rfl, rfl⟩
    refine ⟨operatorTree_bound _ he ?_, hstill.trans hstill'⟩
    intro x hx
    rcases List.mem_cons.mp hx with rfl | hx
    · exact hsecond
    · exact hothers x hx

theorem links_gives (visible : Visible) : ∀ (c : Chain) (parent : Provenance),
    (c.resolveLinks visible parent).Gives fun p r q =>
      boundExpr visible.params r.1 = true ∧ (∀ x ∈ r.2, boundExpr visible.params x.2 = true) ∧
        p.Still q
  | .last operand, parent => by
    unfold Chain.resolveLinks
    refine ((operand_gives visible operand parent).bind fun _ => .pure _).weaken ?_
    rintro p _ q - ⟨e, m, ⟨he, hstill⟩, rfl, rfl⟩
    exact ⟨he, by simp, hstill⟩
  | .link operand op rest, parent => by
    unfold Chain.resolveLinks
    refine ((operand_gives visible operand parent).bind fun _ =>
      (links_gives visible rest parent).bind fun _ => .pure _).weaken ?_
    rintro p _ q - ⟨e, m, ⟨he, hstill⟩, ⟨second, others⟩, m', ⟨hsecond, hothers, hstill'⟩, rfl, rfl⟩
    refine ⟨he, ?_, hstill.trans hstill'⟩
    intro x hx
    rcases List.mem_cons.mp hx with rfl | hx
    · exact hsecond
    · exact hothers x hx

theorem operand_gives (visible : Visible) : ∀ (x : Operand) (parent : Provenance),
    GivesExpr visible.params (x.resolve visible parent)
  | .mk none span atom, parent => by
    unfold Operand.resolve
    exact atom_gives visible atom _
  | .mk (some op) span atom, parent => by
    unfold Operand.resolve
    refine ((atom_gives visible atom _).bind fun _ => .pure _).weaken ?_
    rintro p _ q - ⟨e, m, ⟨he, hstill⟩, rfl, rfl⟩
    exact ⟨he, hstill⟩

theorem atom_gives (visible : Visible) : ∀ (a : Atom) (parent : Provenance),
    GivesExpr visible.params (a.resolve visible parent)
  | .call name args, parent => by
    unfold Atom.resolve
    refine ((chains_gives visible args parent).bind fun _ =>
      (Resolve.Gives.host name).bind fun _ => .pure _).weaken ?_
    rintro p _ q - ⟨es, m, ⟨hes, hstill⟩, method, m', ⟨hmethod, hstill'⟩, rfl, rfl⟩
    exact ⟨by simp [boundExpr, hes, hmethod, Expr.isAbsent], hstill.trans hstill'⟩
  | .number digits, parent => by
    unfold Atom.resolve
    split
    · exact literal_gives ..
    · exact ((Resolve.Gives.report _).bind fun _ => .pure _).weaken
        fun _ _ _ _ ⟨_, _, h, _⟩ => h.elim
  | .text quoted, parent => by
    unfold Atom.resolve
    split
    · exact literal_gives ..
    · exact ((Resolve.Gives.report _).bind fun _ => .pure _).weaken
        fun _ _ _ _ ⟨_, _, h, _⟩ => h.elim
  | .bool value, parent => by
    unfold Atom.resolve
    exact literal_gives ..
  | .null, parent => by
    unfold Atom.resolve
    exact literal_gives ..
  | .name name, parent => by
    unfold Atom.resolve
    exact (lookup_gives ..).weaken fun _ _ _ _ h => h.2
  | .parens inner, parent => by
    unfold Atom.resolve
    exact chain_gives visible inner parent

theorem chains_gives (visible : Visible) : ∀ (cs : List Chain) (parent : Provenance),
    (Chain.resolveAll visible parent cs).Gives fun p es q =>
      boundExprs visible.params es = true ∧ p.Still q
  | [], parent => by
    unfold Chain.resolveAll
    refine (Resolve.Gives.pure _).weaken ?_
    rintro p _ q - ⟨rfl, rfl⟩
    exact ⟨rfl, .refl q⟩
  | c :: rest, parent => by
    unfold Chain.resolveAll
    refine ((chain_gives visible c parent).bind fun _ =>
      (chains_gives visible rest parent).bind fun _ => .pure _).weaken ?_
    rintro p _ q - ⟨e, m, ⟨he, hstill⟩, es, m', ⟨hes, hstill'⟩, rfl, rfl⟩
    exact ⟨by simp [boundExprs, he, hes], hstill.trans hstill'⟩

end

theorem optional_gives (visible : Visible) (c : Option Chain) (parent : Provenance) :
    (resolveOptional visible parent c).Gives fun p e q =>
      (e.isAbsent || boundExpr visible.params e) = true ∧ p.Still q := by
  cases c with
  | none =>
    refine (Resolve.Gives.pure _).weaken ?_
    rintro p _ q - ⟨rfl, rfl⟩
    exact ⟨rfl, .refl q⟩
  | some c =>
    refine (chain_gives visible c parent).weaken ?_
    rintro p e q - ⟨he, hstill⟩
    exact ⟨by rw [he, Bool.or_true], hstill⟩

/-! ## Labels -/

/-- The label is one of a loop with a number behind `n` up to `m`. -/
def LoopLabel (n m : Nat) (l : Option Label) : Prop :=
  ∃ k : Nat, n < k ∧ k ≤ m ∧
    (l = some (.generated "break" k) ∨ l = some (.generated "continue" k))

/-- The label is one of the loop around. -/
def Leaves (loop : Option (Label × Label)) (l : Option Label) : Prop :=
  ∃ x, loop = some x ∧ (l = some x.1 ∨ l = some x.2)

/-- Between two points of a resolution, inside a loop, the labels are placed and the jumps made:
no label twice, jumps of loops to labels among them or to the loop around, and gotos to labels that
are known from then on. -/
structure Places (loop : Option (Label × Label)) (p : Progress) (landings : List (Option Label))
    (leaps : List Leap) (q : Progress) : Prop where
  loops : p.loopCount ≤ q.loopCount
  nodup : landings.Nodup
  placed : ∀ l ∈ landings, (∃ name, l = some (.user name) ∧ ¬ p.Declares name) ∨
    LoopLabel p.loopCount q.loopCount l
  declares : ∀ name, q.Declares name ↔ p.Declares name ∨ some (.user name) ∈ landings
  knows : ∀ name, p.Knows name → q.Knows name
  ofLoop : ∀ j ∈ leaps, j.ofLoop = true → j.target ∈ landings ∨ Leaves loop j.target
  gotos : ∀ j ∈ leaps, j.ofLoop = false → ∃ name, j.target = some (.user name) ∧ q.Knows name

namespace Places

variable {loop : Option (Label × Label)} {p m q : Progress} {ls ls' : List (Option Label)}
  {js js' : List Leap}

/-- A step that neither places a label nor jumps. -/
theorem still (h : p.Still q) : Places loop p [] [] q where
  loops := Nat.le_of_eq h.2.symm
  nodup := .nil
  placed _ hl := nomatch hl
  declares name := by simp only [Progress.Declares, h.1, List.not_mem_nil, or_false]
  knows name := by simp only [Progress.Knows, h.1, imp_self]
  ofLoop _ hj := nomatch hj
  gotos _ hj := nomatch hj

theorem append (h : Places loop p ls js m) (h' : Places loop m ls' js' q) :
    Places loop p (ls ++ ls') (js ++ js') q where
  loops := Nat.le_trans h.loops h'.loops
  nodup := by
    refine List.nodup_append.mpr ⟨h.nodup, h'.nodup, ?_⟩
    rintro l hl _ hl' rfl
    rcases h'.placed l hl' with ⟨name, rfl, hname⟩ | ⟨k, hlow, -, hk⟩
    · exact hname ((h.declares name).mpr (.inr hl))
    · rcases h.placed l hl with ⟨name, rfl, -⟩ | ⟨k', -, hhigh, hk'⟩
      · simp at hk
      · rcases hk with rfl | rfl <;> simp at hk' <;> omega
  placed l hl := by
    rcases List.mem_append.mp hl with hl | hl
    · exact (h.placed l hl).imp id fun ⟨k, hlow, hhigh, hk⟩ =>
        ⟨k, hlow, Nat.le_trans hhigh h'.loops, hk⟩
    · refine (h'.placed l hl).imp (fun ⟨name, hname, hfresh⟩ => ⟨name, hname, fun hp => ?_⟩)
        fun ⟨k, hlow, hhigh, hk⟩ => ⟨k, Nat.lt_of_le_of_lt h.loops hlow, hhigh, hk⟩
      exact hfresh ((h.declares name).mpr (.inl hp))
  declares name := by rw [h'.declares, h.declares, List.mem_append, or_assoc]
  knows name hname := h'.knows name (h.knows name hname)
  ofLoop j hj hof := by
    rcases List.mem_append.mp hj with hj | hj
    · exact (h.ofLoop j hj hof).imp (List.mem_append_left _) id
    · exact (h'.ofLoop j hj hof).imp (List.mem_append_right _) id
  gotos j hj hof := by
    rcases List.mem_append.mp hj with hj | hj
    · obtain ⟨name, htarget, hknown⟩ := h.gotos j hj hof
      exact ⟨name, htarget, h'.knows name hknown⟩
    · exact h'.gotos j hj hof

theorem of_still (hstill : p.Still m) (h : Places loop m ls js q) : Places loop p ls js q :=
  (still hstill).append h

/-- A loop: its labels, which are new, and what its body places. -/
theorem looped {x : Label × Label} (hcount : m.loopCount = p.loopCount + 1)
    (hlabels : m.labels = p.labels)
    (hx : x = (.generated "break" m.loopCount, .generated "continue" m.loopCount))
    (h : Places (some x) m ls js q) :
    Places loop p (some x.2 :: ls ++ [some x.1]) js q where
  loops := by have := h.loops; omega
  nodup := by
    have hfresh : ∀ l ∈ ls, l ≠ some x.1 ∧ l ≠ some x.2 := by
      intro l hl
      rcases h.placed l hl with ⟨name, rfl, -⟩ | ⟨k, hlow, -, hk⟩
      · simp [hx]
      · rcases hk with rfl | rfl <;> simp [hx] <;> omega
    have hne : (some x.2 : Option Label) ≠ some x.1 := by simp [hx]
    have hnodup := h.nodup
    grind [List.nodup_append]
  placed l hl := by
    have hcase : l = some x.2 ∨ l ∈ ls ∨ l = some x.1 := by simpa using hl
    rcases hcase with rfl | hl | rfl
    · exact .inr ⟨m.loopCount, by omega, h.loops, .inr (by rw [hx])⟩
    · refine (h.placed l hl).imp (fun ⟨name, hname, hfresh⟩ => ⟨name, hname, ?_⟩)
        fun ⟨k, hlow, hhigh, hk⟩ => ⟨k, by omega, hhigh, hk⟩
      rwa [Progress.Declares, ← hlabels]
    · exact .inr ⟨m.loopCount, by omega, h.loops, .inl (by rw [hx])⟩
  declares name := by
    rw [h.declares, Progress.Declares, hlabels, Progress.Declares]
    simp [hx]
  knows name hname := h.knows name (by rwa [Progress.Knows, hlabels])
  ofLoop j hj hof := by
    left
    rcases h.ofLoop j hj hof with hj | ⟨y, hy, hj⟩
    · simp [hj]
    · cases hy
      rcases hj with hj | hj <;> simp [hj]
  gotos := h.gotos

/-- A jump of a loop. -/
theorem ofLoop_leap {l : Option Label} (h : Leaves loop l) : Places loop p [] [⟨l, true⟩] p where
  loops := Nat.le_refl _
  nodup := .nil
  placed _ hl := nomatch hl
  declares name := by simp
  knows _ h := h
  ofLoop j hj _ := by
    rw [List.mem_singleton.mp hj]
    exact .inr h
  gotos j hj hof := by
    rw [List.mem_singleton.mp hj] at hof
    cases hof

/-- A goto. -/
theorem goto {name : String} (hloop : q.loopCount = p.loopCount)
    (hdeclares : ∀ n, q.Declares n ↔ p.Declares n) (hknows : ∀ n, p.Knows n → q.Knows n)
    (hknown : q.Knows name) : Places loop p [] [⟨some (.user name), false⟩] q where
  loops := Nat.le_of_eq hloop.symm
  nodup := .nil
  placed _ hl := nomatch hl
  declares n := by simp [hdeclares]
  knows := hknows
  ofLoop j hj hof := by
    rw [List.mem_singleton.mp hj] at hof
    cases hof
  gotos j hj _ := by
    rw [List.mem_singleton.mp hj]
    exact ⟨name, rfl, hknown⟩

/-- The declaration of a label. -/
theorem label {name : String} (hloop : q.loopCount = p.loopCount) (hfresh : ¬ p.Declares name)
    (hdeclares : ∀ n, q.Declares n ↔ p.Declares n ∨ n = name)
    (hknows : ∀ n, p.Knows n → q.Knows n) : Places loop p [some (.user name)] [] q where
  loops := Nat.le_of_eq hloop.symm
  nodup := by simp
  placed l hl := by
    rw [List.mem_singleton.mp hl]
    exact .inl ⟨name, rfl, hfresh⟩
  declares n := by simp [hdeclares]
  knows := hknows
  ofLoop _ hj := nomatch hj
  gotos _ hj := nomatch hj

end Places

/-! ## Statements -/

mutual

/-- The statement is one that resolution makes in a method with the parameters, inside the loop
with the labels, if there is one.  The method has begun `n` loops before it and as many as the last
argument says behind it. -/
def BoundStmt (params : List Param) (loop : Option (Label × Label)) (n : Nat) :
    Stmt → Nat → Prop
  | .block b, m => BoundBlock params loop n b m
  | .noOp _, m => m = n
  | .localDeclaration _ _ init, m => (init.isAbsent || boundExpr params init) = true ∧ m = n
  | .expression _ e, m => boundEffect params e = true ∧ m = n
  | .return _ e, m => (e.isAbsent || boundExpr params e) = true ∧ m = n
  | .throw _ e, m => (e.isAbsent || boundExpr params e) = true ∧ m = n
  | .yieldReturn _ e, m => boundExpr params e = true ∧ m = n
  | .yieldBreak _, m => m = n
  | .goto _ l, m => (∃ name, l = some (.user name)) ∧ m = n
  | .label _ l, m => (∃ name, l = some (.user name)) ∧ m = n
  | .break _ l, m => (∃ x, loop = some x ∧ l = some x.1) ∧ m = n
  | .continue _ l, m => (∃ x, loop = some x ∧ l = some x.2) ∧ m = n
  | .if _ c t f, m => boundExpr params c = true ∧ ∃ k, BoundStmt params loop n t k ∧
    ((f = .absent ∧ m = k) ∨ BoundStmt params loop k f m)
  | .while _ c body exit again, m => boundExpr params c = true ∧
    exit = some (.generated "break" (n + 1 : Nat)) ∧
    again = some (.generated "continue" (n + 1 : Nat)) ∧
    BoundStmt params
      (some (.generated "break" (n + 1 : Nat), .generated "continue" (n + 1 : Nat))) (n + 1) body m
  | .try _ body catches cleanup, m => ∃ k j, BoundBlock params loop n body k ∧
    BoundCatches params loop k catches j ∧
    ((cleanup = .absent ∧ m = j) ∨ BoundBlock params loop j cleanup m) ∧
    (catches ≠ [] ∨ cleanup ≠ .absent)
  | _, _ => False

/-- Statements that resolution makes, in order. -/
def BoundStmts (params : List Param) (loop : Option (Label × Label)) (n : Nat) :
    List Stmt → Nat → Prop
  | [], m => m = n
  | s :: rest, m => ∃ k, BoundStmt params loop n s k ∧ BoundStmts params loop k rest m

/-- A block that resolution makes: if it is the user's, it knows its braces. -/
def BoundBlock (params : List Param) (loop : Option (Label × Label)) (n : Nat) :
    Block → Nat → Prop
  | .absent, _ => False
  | .mk o _ ss, m => (o.generated = true ∨ ∃ p, o.provenance = some p ∧ p.isBlock = true) ∧
    BoundStmts params loop n ss m

/-- Handlers that resolution makes. -/
def BoundCatches (params : List Param) (loop : Option (Label × Label)) (n : Nat) :
    List Catch → Nat → Prop
  | [], m => m = n
  | .mk _ _ body :: rest, m =>
    ∃ k, BoundBlock params loop n body k ∧ BoundCatches params loop k rest m

end

@[simp] theorem Visible.loops_declare (v : Visible) (l : Local) : (v.declare l).loops = v.loops := by
  unfold Visible.declare
  split <;> rfl

@[simp] theorem Visible.params_declare (v : Visible) (l : Local) :
    (v.declare l).params = v.params := by
  unfold Visible.declare
  split <;> rfl

/-- What resolution makes of a statement, inside the loop around the place. -/
def Resolved (visible : Visible) (p : Progress) (s : Stmt) (q : Progress) : Prop :=
  BoundStmt visible.params visible.loops.head? p.loopCount s q.loopCount ∧
    Places visible.loops.head? p (landingsStmt s) (leapsStmt s) q

theorem Resolved.embed {visible : Visible} {p q : Progress} {s : Stmt} (parent : Provenance)
    (l : Option Local) (h : Resolved visible p s q) :
    Resolved visible p (embed parent (some s, l)) q := by
  cases l with
  | none => exact h
  | some l =>
    refine ⟨⟨.inl rfl, _, h.1, rfl⟩, ?_⟩
    simpa [Source.embed, landingsStmt, landingsBlock, landingsStmts, leapsStmt, leapsBlock,
      leapsStmts] using h.2

/-- A statement without labels and jumps. -/
theorem Resolved.leaf {visible : Visible} {p q : Progress} {s : Stmt} (hstill : p.Still q)
    (hbound : BoundStmt visible.params visible.loops.head? p.loopCount s p.loopCount)
    (hlandings : landingsStmt s = []) (hleaps : leapsStmt s = []) : Resolved visible p s q := by
  refine ⟨hstill.2 ▸ hbound, ?_⟩
  rw [hlandings, hleaps]
  exact .still hstill

/-- The step gives a statement, which is one that resolution makes. -/
def GivesStmt (visible : Visible) (x : Resolve (Option Stmt × Option Local)) : Prop :=
  x.Gives fun p r q => ∃ s, r.1 = some s ∧ Resolved visible p s q

mutual

theorem statement_gives : ∀ (s : Statement) (visible : Visible) (parent : Provenance),
    GivesStmt visible (s.resolve visible parent)
  | .mk span form, visible, parent => by
    unfold Statement.resolve
    exact form_gives form visible parent _

theorem form_gives : ∀ (f : Form) (visible : Visible) (parent own : Provenance),
    GivesStmt visible (f.resolve visible parent own)
  | .synthesized body, visible, parent, own => by
    unfold Form.resolve
    refine ((braces_gives body visible own.toSite true).bind fun _ => .pure _).weaken ?_
    rintro p _ q - ⟨b, m, hb, rfl, rfl⟩
    exact ⟨_, rfl, hb⟩
  | .block body, visible, parent, own => by
    unfold Form.resolve
    refine ((braces_gives body visible parent.toSite false).bind fun _ => .pure _).weaken ?_
    rintro p _ q - ⟨b, m, hb, rfl, rfl⟩
    exact ⟨_, rfl, hb⟩
  | .noOp, visible, parent, own => by
    unfold Form.resolve
    refine (Resolve.Gives.pure _).weaken ?_
    rintro p _ q - ⟨rfl, rfl⟩
    exact ⟨_, rfl, .leaf (.refl q) rfl rfl rfl⟩
  | .var name typeName init, visible, parent, own => by
    unfold Form.resolve
    refine ((Resolve.Gives.type typeName _).bind fun _ => (Resolve.Gives.newLocal name _).bind
      fun _ => (optional_gives visible init own).bind fun _ =>
        Resolve.Gives.checked _ _ (.pure _)).weaken ?_
    rintro p _ q - ⟨_, _, rfl, l, m, hstill, e, m', ⟨he, hstill'⟩, -, rfl, rfl⟩
    exact ⟨_, rfl, .leaf (hstill.trans hstill') ⟨he, rfl⟩ rfl rfl⟩
  | .yieldReturn value, visible, parent, own => by
    unfold Form.resolve
    refine ((chain_gives visible value own).bind fun _ => .pure _).weaken ?_
    rintro p _ q - ⟨e, m, ⟨he, hstill⟩, rfl, rfl⟩
    exact ⟨_, rfl, .leaf hstill ⟨he, rfl⟩ rfl rfl⟩
  | .yieldBreak, visible, parent, own => by
    unfold Form.resolve
    refine (Resolve.Gives.pure _).weaken ?_
    rintro p _ q - ⟨rfl, rfl⟩
    exact ⟨_, rfl, .leaf (.refl q) rfl rfl rfl⟩
  | .return value, visible, parent, own => by
    unfold Form.resolve
    refine ((optional_gives visible value own).bind fun _ => .pure _).weaken ?_
    rintro p _ q - ⟨e, m, ⟨he, hstill⟩, rfl, rfl⟩
    exact ⟨_, rfl, .leaf hstill ⟨he, rfl⟩ rfl rfl⟩
  | .throw value, visible, parent, own => by
    unfold Form.resolve
    refine ((optional_gives visible value own).bind fun _ => .pure _).weaken ?_
    rintro p _ q - ⟨e, m, ⟨he, hstill⟩, rfl, rfl⟩
    exact ⟨_, rfl, .leaf hstill ⟨he, rfl⟩ rfl rfl⟩
  | .try body handlers none, visible, parent, own => by
    unfold Form.resolve
    refine ((braces_gives body visible own.toSite false).bind fun _ =>
      (handlers_gives handlers visible own).bind fun _ => (Resolve.Gives.pure _).bind fun _ =>
        Resolve.Gives.checked _ _ (.pure _)).weaken ?_
    rintro p _ q - ⟨b, k, hb, cs, j, hcs, _, _, ⟨rfl, rfl⟩, hnone, rfl, rfl⟩
    refine ⟨_, rfl, ⟨_, _, hb.1, hcs.2.1, .inl ⟨rfl, rfl⟩, .inl ?_⟩, ?_⟩
    · rintro rfl
      simp [hcs.1] at hnone
    · simpa [landingsStmt, leapsStmt, landingsBlock, leapsBlock] using hb.2.append hcs.2.2
  | .try body handlers (some cleanup), visible, parent, own => by
    unfold Form.resolve
    refine ((braces_gives body visible own.toSite false).bind fun _ =>
      (handlers_gives handlers visible own).bind fun _ =>
        (braces_gives cleanup visible own.toSite false).bind fun _ =>
          Resolve.Gives.checked _ _ (.pure _)).weaken ?_
    rintro p _ q - ⟨b, k, hb, cs, j, hcs, f, i, hf, -, rfl, rfl⟩
    refine ⟨_, rfl, ⟨_, _, hb.1, hcs.2.1, .inr hf.1, .inr ?_⟩, (hb.2.append hcs.2.2).append hf.2⟩
    rintro rfl
    exact hf.1
  | .if condition whenTrue none, visible, parent, own => by
    unfold Form.resolve
    refine ((chain_gives visible condition own).bind fun _ =>
      (statement_gives whenTrue (visible.enter []) own).bind fun _ =>
        (Resolve.Gives.pure _).bind fun _ => .pure _).weaken ?_
    rintro p _ q - ⟨c, k, ⟨hc, hstill⟩, ⟨t, l⟩, j, ⟨s, rfl, hs⟩, _, _, ⟨rfl, rfl⟩, rfl, rfl⟩
    obtain ⟨hbound, hplaces⟩ := hs.embed own l
    rw [hstill.2] at hbound
    refine ⟨_, rfl, ⟨hc, _, hbound, .inl ⟨rfl, rfl⟩⟩, ?_⟩
    simpa [landingsStmt, leapsStmt, Visible.enter] using hplaces.of_still hstill
  | .if condition whenTrue (some whenFalse), visible, parent, own => by
    unfold Form.resolve
    refine ((chain_gives visible condition own).bind fun _ =>
      (statement_gives whenTrue (visible.enter []) own).bind fun _ =>
        (statement_gives whenFalse (visible.enter []) own).bind fun _ =>
          (Resolve.Gives.pure _).bind fun _ => .pure _).weaken ?_
    rintro p _ q - ⟨c, k, ⟨hc, hstill⟩, ⟨t, l⟩, j, ⟨s, rfl, hs⟩, ⟨f, l'⟩, i, ⟨s', rfl, hs'⟩, _, _,
      ⟨rfl, rfl⟩, rfl, rfl⟩
    obtain ⟨hbound, hplaces⟩ := hs.embed own l
    obtain ⟨hbound', hplaces'⟩ := hs'.embed own l'
    rw [hstill.2] at hbound
    exact ⟨_, rfl, ⟨hc, _, hbound, .inr hbound'⟩, (hplaces.append hplaces').of_still hstill⟩
  | .while condition body, visible, parent, own => by
    unfold Form.resolve
    refine (Resolve.Gives.newLoop.bind fun x => (chain_gives visible condition own).bind fun _ =>
      (statement_gives body { visible.enter [] with loops := x :: visible.loops } own).bind fun _ =>
        .pure _).weaken ?_
    rintro p _ q - ⟨x, k, ⟨hcount, hlabels, hx⟩, c, j, ⟨hc, hstill⟩, ⟨t, l⟩, i, ⟨s, rfl, hs⟩, rfl,
      rfl⟩
    obtain ⟨hbound, hplaces⟩ := hs.embed own l
    refine ⟨_, rfl, ?_, (hplaces.of_still hstill).looped hcount hlabels hx⟩
    rw [hstill.2, hcount] at hbound
    rw [hcount] at hx
    subst hx
    exact ⟨hc, rfl, rfl, hbound⟩
  | .break, visible, parent, own => by
    unfold Form.resolve
    split
    · rename_i exit again outer hloops
      refine (Resolve.Gives.pure _).weaken ?_
      rintro p _ q - ⟨rfl, rfl⟩
      have hhead : visible.loops.head? = some (exit, again) := by rw [hloops]; rfl
      exact ⟨_, rfl, ⟨⟨_, hhead, rfl⟩, rfl⟩, .ofLoop_leap ⟨_, hhead, .inl rfl⟩⟩
    · exact ((Resolve.Gives.report _).bind fun _ => .pure _).weaken
        fun _ _ _ _ ⟨_, _, h, _⟩ => h.elim
  | .continue, visible, parent, own => by
    unfold Form.resolve
    split
    · rename_i exit again outer hloops
      refine (Resolve.Gives.pure _).weaken ?_
      rintro p _ q - ⟨rfl, rfl⟩
      have hhead : visible.loops.head? = some (exit, again) := by rw [hloops]; rfl
      exact ⟨_, rfl, ⟨⟨_, hhead, rfl⟩, rfl⟩, .ofLoop_leap ⟨_, hhead, .inr rfl⟩⟩
    · exact ((Resolve.Gives.report _).bind fun _ => .pure _).weaken
        fun _ _ _ _ ⟨_, _, h, _⟩ => h.elim
  | .goto label, visible, parent, own => by
    unfold Form.resolve
    refine ((Resolve.Gives.useLabel label _).bind fun _ => .pure _).weaken ?_
    rintro p _ q - ⟨_, m, ⟨hloop, hdeclares, hknows, hknown⟩, rfl, rfl⟩
    exact ⟨_, rfl, ⟨⟨_, rfl⟩, hloop⟩, .goto hloop hdeclares hknows hknown⟩
  | .label label, visible, parent, own => by
    unfold Form.resolve
    refine ((Resolve.Gives.declareLabel label _).bind fun _ => .pure _).weaken ?_
    rintro p _ q - ⟨_, m, ⟨hloop, hfresh, hdeclares, hknows⟩, rfl, rfl⟩
    exact ⟨_, rfl, ⟨⟨_, rfl⟩, hloop⟩, .label hloop hfresh hdeclares hknows⟩
  | .assign target value, visible, parent, own => by
    unfold Form.resolve
    refine ((lookup_gives visible target _ own).bind fun _ =>
      (chain_gives visible value own).bind fun _ => .pure _).weaken ?_
    rintro p _ q - ⟨t, m, ⟨ht, ht', hstill⟩, e, m', ⟨he, hstill'⟩, rfl, rfl⟩
    have heffect : boundEffect visible.params (.assignment (.bound own) t e) = true := by
      simp [boundEffect, ht, ht', he]
    exact ⟨_, rfl, .leaf (hstill.trans hstill') ⟨heffect, rfl⟩ rfl rfl⟩
  | .expression value, visible, parent, own => by
    unfold Form.resolve
    refine ((chain_gives visible value own).bind fun _ => .pure _).weaken ?_
    rintro p _ q - ⟨e, m, ⟨he, hstill⟩, rfl, rfl⟩
    exact ⟨_, rfl, .leaf hstill ⟨boundEffect_of_bound he, rfl⟩ rfl rfl⟩

theorem braces_gives : ∀ (b : Braces) (visible : Visible) (parent : Site) (made : Bool),
    (b.resolve visible parent made).Gives fun p b q => Resolved visible p (.block b) q
  | .mk opening statements closing, visible, parent, made => by
    unfold Braces.resolve
    refine ((statements_gives statements (visible.enter []) _).bind fun _ => .pure _).weaken ?_
    rintro p _ q - ⟨⟨locals, ss⟩, m, hss, rfl, rfl⟩
    exact ⟨⟨.inr ⟨_, rfl, rfl⟩, hss.1⟩, hss.2⟩

theorem statements_gives : ∀ (ss : List Statement) (visible : Visible) (parent : Provenance),
    (Statement.resolveAll visible parent ss).Gives fun p r q =>
      BoundStmts visible.params visible.loops.head? p.loopCount r.2 q.loopCount ∧
        Places visible.loops.head? p (landingsStmts r.2) (leapsStmts r.2) q
  | [], visible, parent => by
    unfold Statement.resolveAll
    refine (Resolve.Gives.pure _).weaken ?_
    rintro p _ q - ⟨rfl, rfl⟩
    exact ⟨rfl, .still (.refl q)⟩
  | s :: rest, visible, parent => by
    unfold Statement.resolveAll
    refine ((statement_gives s visible parent).bind fun r =>
      (statements_gives rest _ parent).bind fun _ => .pure _).weaken ?_
    rintro p _ q - ⟨⟨t, l⟩, m, ⟨t, rfl, ht⟩, ⟨locals, ss⟩, m', hss, rfl, rfl⟩
    have hrest : BoundStmts visible.params visible.loops.head? m.loopCount ss q.loopCount ∧
        Places visible.loops.head? m (landingsStmts ss) (leapsStmts ss) q := by
      cases l with
      | none => exact hss
      | some l => simpa using hss
    exact ⟨⟨_, ht.1, hrest.1⟩, ht.2.append hrest.2⟩

theorem handlers_gives : ∀ (hs : List Handler) (visible : Visible) (parent : Provenance),
    (Handler.resolveAll visible parent hs).Gives fun p cs q => (cs = [] → hs = []) ∧
      BoundCatches visible.params visible.loops.head? p.loopCount cs q.loopCount ∧
        Places visible.loops.head? p (landingsCatches cs) (leapsCatches cs) q
  | [], visible, parent => by
    unfold Handler.resolveAll
    refine (Resolve.Gives.pure _).weaken ?_
    rintro p _ q - ⟨rfl, rfl⟩
    exact ⟨fun _ => rfl, rfl, .still (.refl q)⟩
  | .mk start none body :: rest, visible, parent => by
    unfold Handler.resolveAll
    refine (((braces_gives body visible parent.toSite false).bind fun _ => .pure _).bind fun _ =>
      (handlers_gives rest visible parent).bind fun _ => .pure _).weaken ?_
    rintro p _ q - ⟨_, m, ⟨b, _, hb, rfl, rfl⟩, cs, m', ⟨-, hcs⟩, rfl, rfl⟩
    exact ⟨fun h => (nomatch h), ⟨_, hb.1, hcs.1⟩, hb.2.append hcs.2⟩
  | .mk start (some name) body :: rest, visible, parent => by
    unfold Handler.resolveAll
    refine ((Resolve.Gives.newLocal name .object).bind fun l =>
      (braces_gives body (visible.enter [l]) parent.toSite false).bind fun _ =>
        (Resolve.Gives.pure _).bind fun _ =>
          (handlers_gives rest visible parent).bind fun _ => .pure _).weaken ?_
    rintro p _ q - ⟨l, _, hstill, b, _, hb, _, m, ⟨rfl, rfl⟩, cs, m', ⟨-, hcs⟩, rfl, rfl⟩
    obtain ⟨hbound, hplaces⟩ := hb
    rw [hstill.2] at hbound
    exact ⟨fun h => (nomatch h), ⟨_, hbound, hcs.1⟩, (hplaces.append hcs.2).of_still hstill⟩

end

/-! ## Methods and programs -/

/-- The label is one of the program: a label of the user's or one of a loop. -/
def OfProgram : Option Label → Prop
  | some (.user _) => True
  | some (.generated stem _) => stem = "break" ∨ stem = "continue"
  | none => False

/-- A method that resolution makes: its parameters are numbered, its body is one that resolution
makes outside of loops, no label is placed twice, and each jump goes to a label of the method. -/
structure BoundMethod (m : MethodBody) : Prop where
  ordinals : ∀ (i : Nat) (p : Param), m.symbol.params[i]? = some p → p.ordinal = i
  bound : ∃ n, BoundBlock m.symbol.params none 0 m.body n
  nodup : (landingsBlock m.body).Nodup
  ofProgram : ∀ l ∈ landingsBlock m.body, OfProgram l
  targets : ∀ j ∈ leapsBlock m.body, j.target ∈ landingsBlock m.body

theorem params_gives : ∀ (ps : List ParamDecl) (ordinal : Nat),
    (resolveParams ordinal ps).Gives fun _ params _ =>
      ∀ (i : Nat) (p : Param), params[i]? = some p → p.ordinal = ((ordinal + i : Nat) : Int)
  | [], ordinal => by
    unfold resolveParams
    refine (Resolve.Gives.pure _).weaken ?_
    rintro p _ q - ⟨rfl, rfl⟩ i param hparam
    cases hparam
  | decl :: rest, ordinal => by
    unfold resolveParams
    refine ((Resolve.Gives.type decl.type decl.start).bind fun _ =>
      (params_gives rest (ordinal + 1)).bind fun _ => .pure _).weaken ?_
    rintro p _ q - ⟨type, _, -, params, _, hparams, rfl, rfl⟩ i param hparam
    cases i with
    | zero =>
      cases hparam
      rfl
    | succ i =>
      rw [List.getElem?_cons_succ] at hparam
      rw [hparams i param hparam]
      omega

/-- A step for each element of a list, with what each of them is for. -/
theorem Resolve.Gives.forIn {γ : Type} {f : γ → PUnit → Resolve (ForInStep PUnit)}
    {good : γ → Prop}
    (hf : ∀ c u, (f c u).Gives fun p r q => (∃ u', r = .yield u') ∧ p.Still q ∧ good c) :
    ∀ cs : List γ, (ForIn.forIn cs PUnit.unit f : Resolve PUnit).Gives fun p _ q =>
      p.Still q ∧ ∀ c ∈ cs, good c
  | [] => by
    refine (Resolve.Gives.pure PUnit.unit).weaken ?_
    rintro p _ q - ⟨-, rfl⟩
    exact ⟨.refl q, fun _ hc => nomatch hc⟩
  | c :: rest => by
    rw [List.forIn_cons]
    refine (@Resolve.Gives.bind _ _ _ _ _ (fun r p _ q => (∃ u', r = .yield u') → p.Still q ∧
      ∀ c ∈ rest, good c) (hf c _) fun r => ?_).weaken ?_
    · cases r with
      | done u =>
        refine (Resolve.Gives.pure u).weaken ?_
        rintro p _ q - - ⟨u', hu'⟩
        cases hu'
      | yield u => exact (Resolve.Gives.forIn hf rest).weaken fun _ _ _ _ h _ => h
    · rintro p _ q - ⟨r, m, ⟨hyield, hstill, hgood⟩, hrest⟩
      obtain ⟨hstill', hgood'⟩ := hrest hyield
      exact ⟨hstill.trans hstill', by simpa using ⟨hgood, hgood'⟩⟩

/-- A step for each element of a list, with what each of them gives. -/
theorem Resolve.Gives.mapM {γ δ : Type} {f : γ → Resolve δ} {good : δ → Prop}
    (hf : ∀ c, (f c).Gives fun _ d _ => good d) :
    ∀ cs : List γ, (cs.mapM f).Gives fun _ ds _ => ∀ d ∈ ds, good d
  | [] => by
    rw [List.mapM_nil]
    refine (Resolve.Gives.pure _).weaken ?_
    rintro p _ q - ⟨rfl, rfl⟩
    simp
  | c :: rest => by
    rw [List.mapM_cons]
    refine ((hf c).bind fun _ => (Resolve.Gives.mapM hf rest).bind fun _ => .pure _).weaken ?_
    rintro p _ q - ⟨d, _, hd, ds, _, hds, rfl, rfl⟩
    simpa using ⟨hd, hds⟩

/-- Behind the report every label that is known is declared. -/
theorem reportLabels_gives : reportLabels.Gives fun p _ _ =>
    ∀ name, p.Knows name → p.Declares name := by
  refine (Resolve.Gives.get.bind fun known => (@Resolve.Gives.forIn _ _
    (fun use => use.declared = true) (fun use u => ?_) known.labels).bind
      fun _ => .pure _).weaken ?_
  · refine (Resolve.Gives.checked _ _ (.pure _)).weaken ?_
    rintro p _ q - ⟨hdeclared, rfl, rfl⟩
    exact ⟨⟨_, rfl⟩, .refl q, by simpa using hdeclared⟩
  · rintro p _ q - ⟨_, _, ⟨rfl, rfl⟩, _, _, ⟨-, hall⟩, -, -⟩ name ⟨use, huse, hname⟩
    exact ⟨use, huse, hname, hall use huse⟩

/-- The labels and jumps of a body whose labels are all declared. -/
theorem BoundMethod.of_places {m : MethodBody} {p q : Progress}
    (hordinals : ∀ (i : Nat) (r : Param), m.symbol.params[i]? = some r → r.ordinal = i)
    (hlabels : p.labels = []) (hloops : p.loopCount = 0)
    (hbody : Resolved { params := m.symbol.params } p (.block m.body) q)
    (hdeclared : ∀ name, q.Knows name → q.Declares name) : BoundMethod m where
  ordinals := hordinals
  bound := ⟨_, hloops ▸ hbody.1⟩
  nodup := hbody.2.nodup
  ofProgram l hl := by
    rcases hbody.2.placed l hl with ⟨name, rfl, -⟩ | ⟨k, -, -, rfl | rfl⟩
    · trivial
    · exact .inl rfl
    · exact .inr rfl
  targets j hj := by
    cases hof : j.ofLoop with
    | true =>
      rcases hbody.2.ofLoop j hj hof with h | ⟨x, hx, -⟩
      · exact h
      · cases hx
    | false =>
      obtain ⟨name, htarget, hknown⟩ := hbody.2.gotos j hj hof
      rw [htarget]
      refine ((hbody.2.declares name).mp (hdeclared name hknown)).resolve_left ?_
      rintro ⟨use, huse, -⟩
      rw [hlabels] at huse
      cases huse

/-- A method is one that resolution makes. -/
theorem method_gives (cls : TypeDecl) (decl : MethodDecl) :
    (decl.resolve cls).Gives fun _ m _ => BoundMethod m := by
  have hreset : Resolve.Gives
      (modify fun p => { p with labels := [], loopCount := 0 } : Resolve PUnit)
      fun _ _ q => q.labels = [] ∧ q.loopCount = 0 :=
    ⟨fun _ => ⟨[], (List.append_nil _).symm⟩, fun _ h => h, fun _ _ _ => ⟨rfl, rfl⟩⟩
  unfold MethodDecl.resolve
  refine ((params_gives decl.params 0).bind fun params => (Resolve.Gives.type _ _).bind fun _ =>
    hreset.bind fun _ => (braces_gives decl.body { params } _ false).bind fun _ =>
      reportLabels_gives.bind fun _ => .pure _).weaken ?_
  rintro p _ q - ⟨params, _, hparams, type, _, -, _, k, ⟨hlabels, hloops⟩, b, m, hb, _, _, hdeclared,
    rfl, rfl⟩
  have hparams : ∀ (i : Nat) (r : Param), params[i]? = some r → r.ordinal = i := by
    simpa using hparams
  cases hiterator : decl.isIterator with
  | true => exact .of_places hparams hlabels hloops hb hdeclared
  | false => exact .of_places hparams hlabels hloops hb hdeclared

theorem class_gives (decl : ClassDecl) :
    decl.resolve.Gives fun _ program _ => ∀ m ∈ program.methods, BoundMethod m := by
  unfold ClassDecl.resolve
  refine ((@Resolve.Gives.forIn _ _ (fun _ => True) (fun h _ => ?_) decl.hosts).bind fun _ =>
    (Resolve.Gives.mapM (method_gives _) decl.methods).bind fun _ =>
      Resolve.Gives.get.bind fun _ => .pure _).weaken ?_
  · refine ((Resolve.Gives.type _ _).bind fun _ => (Resolve.Gives.declareHost rfl).bind fun _ =>
      .pure _).weaken ?_
    rintro p _ q - ⟨_, _, rfl, _, _, hstill, rfl, rfl⟩
    exact ⟨⟨_, rfl⟩, hstill, trivial⟩
  · rintro p _ q - ⟨_, _, -, methods, _, hmethods, _, _, -, rfl, rfl⟩
    exact hmethods

/-- A program that was read is what resolution makes of its declarations, without a fault. -/
theorem read_ok {file source : String} {program : Program} (h : read file source = .ok program) :
    ∃ decl, parse file source = .ok decl ∧ program = (decl.resolve {}).1 ∧
      (decl.resolve {}).2.faults = [] := by
  unfold read at h
  cases hparse : parse file source with
  | error d =>
    rw [hparse] at h
    cases h
  | ok decl =>
    rw [hparse] at h
    change (if (decl.resolve {}).2.faults.isEmpty = true then Except.ok (decl.resolve {}).1
      else Except.error (ReadError.unresolved (decl.resolve {}).2.faults)) = .ok program at h
    split at h
    · rename_i hfaults
      cases h
      exact ⟨decl, rfl, rfl, List.isEmpty_iff.mp hfaults⟩
    · cases h

/-- The methods of a program that was read. -/
theorem bound_methods {file source : String} {program : Program}
    (h : read file source = .ok program) {m : MethodBody} (hm : m ∈ program.methods) :
    BoundMethod m := by
  obtain ⟨decl, -, rfl, hfaults⟩ := read_ok h
  have hsound : Progress.Sound {} := fun k hk => nomatch hk
  exact (class_gives decl).post {} hsound hfaults m hm

/-- Read a program from the characters of its text. -/
def readChars (file : String) (cs : List Char) : Except ReadError Program := do
  let all ← (Lexer.lexemes { file, offset := 0, line := 1, column := 1 } cs).mapError fun f =>
    .malformed (Report.Diagnostic.ofSource .sourceForm f.message f.position)
  let decl ← (readClass (all.filter fun t => t.kind ≠ .comment ∧ t.kind ≠ .whitespace)).mapError
    fun f => .malformed (Report.Diagnostic.ofSource .sourceForm f.message f.position)
  let (program, progress) := decl.resolve.run {}
  if progress.faults.isEmpty then .ok program else .error (.unresolved progress.faults)

/-- A text is read by its characters.  Evaluation should begin with them: to find those of a text,
its octets are decoded. -/
theorem read_ofList (file : String) (cs : List Char) :
    read file (.ofList cs) = readChars file cs := by
  simp only [read, parse, tokens, readChars, String.toList_ofList]
  cases Lexer.lexemes { file, offset := 0, line := 1, column := 1 } cs with
  | error e => rfl
  | ok all =>
    change ((readClass (all.filter _)).mapError _).mapError _ >>= _ =
      (readClass (all.filter _)).mapError _ >>= _
    cases readClass (all.filter fun t => decide (t.kind ≠ .comment ∧ t.kind ≠ .whitespace)) <;> rfl

/-- The characters of a text that is put together. -/
theorem append_ofList {s t : String} {cs ds : List Char} (hs : s = .ofList cs)
    (ht : t = .ofList ds) : s ++ t = .ofList (cs ++ ds) := by
  rw [hs, ht, String.ofList_append]

/-- What a reading of a text shows has been read. -/
theorem read_of_toOption {file source : String} {program : Program}
    (h : (read file source).toOption = some program) : read file source = .ok program := by
  cases hread : read file source with
  | error e =>
    rw [hread] at h
    cases h
  | ok p =>
    rw [hread] at h
    cases h
    rfl

/-- A program of one method, by what a reading of it shows. -/
theorem read_single {file source : String} {f : MethodBody → α} {a : α}
    (h : ((read file source).toOption.map fun p => p.methods.map f) = some [a]) :
    ∃ program m, read file source = .ok program ∧ m ∈ program.methods ∧ f m = a := by
  cases hread : read file source with
  | error e =>
    rw [hread] at h
    cases h
  | ok program =>
    rw [hread] at h
    have hmethods : program.methods.map f = [a] := Option.some.inj h
    obtain ⟨m, hm, hfm⟩ : ∃ m ∈ program.methods, f m = a :=
      List.mem_map.mp (hmethods ▸ List.mem_singleton_self a)
    exact ⟨program, m, rfl, hm, hfm⟩

end Resumable.Source
