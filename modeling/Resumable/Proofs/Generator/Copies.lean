import Resumable.Proofs.Generator.Answers
import Resumable.Proofs.Generator.Heeding
import Resumable.Proofs.Session.Tracking
import Resumable.Proofs.StateMachine.Leaving

/-!
# What a state machine has in the place of a generator

`Copies` says, along the lowered body of a resumable method, what a state machine has in the place of
it: its expressions are hoisted, a suspension stores its element and returns, a frame is entered
through its dispatch and left through the call of its finally, and jumps go where a relation says
that the jumps of the body may go.  A label that jumps from outside can go to is a loose one
(`looseStmt`); such labels are where they were, and so are those that resuming goes to (`Bears`).
-/

set_option autoImplicit false

namespace Resumable.StateMachine

open Resumable.Symbol Resumable.Tree Resumable.Source Resumable.Lowering
open Resumable.Machine hiding Region Outcome Handler

/-! ## Jumps inside of parts -/

/-- Jumps to labels of the part. -/
def toItself (labels : List (Option Label)) : Jumps := fun l k => k = l ∧ l ∈ labels

/-- Jumps in a frame: to labels inside it, or by way of a proxy where the jumps around may go, but not
to the labels directly before the frame. -/
def insideFrame (J : Jumps) (near labels : List (Option Label)) (routes : List Route) : Jumps :=
  fun l k => (k = l ∧ l ∈ labels ∨ ∃ x ∈ routes, k = some x.proxy ∧ J l x.next) ∧ l ∉ near

/-- Jumps in a handler. -/
def insideHandler (J : Jumps) (labels : List (Option Label)) : Jumps := fun l k =>
  J l k ∨ k = l ∧ l ∈ labels

/-! ## Copies -/

mutual

/-- What the machine has in the place of a statement in the frame `st`, with `k` suspensions before
it and the labels in `near` directly before it; `exit` is the end of the generator.  The locals in
`strays` belong to the handlers around. -/
def Copies (H : House) (plan : Plan) (exit : Label) : Stmt → Jumps → List Local → Int → Nat →
    List (Option Label) → Contents → Stmt → Prop
  | .block b, J, strays, st, k, near, c, t =>
    ∃ b', CopiesBlock H plan exit b J strays st k near c b' ∧ t = .block b'
  | .list o ss, J, strays, st, k, near, c, t =>
    ∃ ts, CopiesAll H plan exit ss J strays st k near c ts ∧ t = .list o ts
  | .yieldReturn o e, _, strays, st, k, _, c, t => strays = [] ∧ ∃ x e', c = ⟨[x], []⟩ ∧
    x.state = (k + 1 : Nat) ∧ H.Moves [] e e' ∧ t = suspend plan o e' x st
  | .yieldBreak o, J, _, _, _, _, c, t => c = {} ∧ ∃ l, J (some exit) l ∧ t = .goto o.asGenerated l
  | .goto o l, J, _, _, _, _, c, t => c = {} ∧ ∃ l', J l l' ∧ t = .goto o l'
  | .conditionalGoto o e whenTrue l, J, strays, _, _, _, c, t => c = {} ∧ ∃ e' l',
    H.Moves strays e e' ∧ J l l' ∧ t = .conditionalGoto o e' whenTrue l'
  | .label o l, _, _, _, _, _, c, t => c = {} ∧ t = .label o l
  | .sequencePoint o place, _, _, _, _, _, c, t => c = {} ∧ t = .sequencePoint o place
  | .expression o e, _, strays, _, _, _, c, t => c = {} ∧ ∃ e', H.Moves strays e e' ∧
    t = .expression o e'
  | .throw o e, _, strays, _, _, _, c, t => c = {} ∧ ∃ e', H.Moves strays e e' ∧ t = .throw o e'
  | .try o body catches cleanup, J, strays, st, k, near, c, t =>
    if framed body cleanup then strays = [] ∧ catches = [] ∧ ∃ f start routes b' ways o' cleanup',
      c = ⟨[], [f]⟩ ∧ CopiesBlock H plan exit body (insideFrame J near (looseBlock body) routes) []
        f.state k [] ⟨f.suspensions, f.children⟩ b' ∧
      CopiesBlock H plan exit cleanup (toItself (looseBlock cleanup)) [] st
        (k + ((elementsBlock body).length + (elementsCatches catches).length)) [] {} cleanup' ∧
      f.cleanup.body = .mk o' [] (assignState o'.provenance plan.state st :: cleanup'.statements) ∧
      Behind o.provenance ⟨f, routes⟩ ways ∧ t = region plan o body.origin f start b'.statements ways
    else c = {} ∧ ∃ body' catches' cleanup', CopiesBlock H plan exit body J strays st k near {} body' ∧
      CopiesCatches H plan exit catches J strays st (k + (elementsBlock body).length) catches' ∧
      (cleanup = .absent ∧ cleanup' = .absent ∨
        CopiesBlock H plan exit cleanup (toItself (looseBlock cleanup)) strays st
          (k + ((elementsBlock body).length + (elementsCatches catches).length)) [] {} cleanup') ∧
      t = .try o body' catches' cleanup'
  | .absent, _, _, _, _, _, _, _ | .noOp .., _, _, _, _, _, _, _
  | .localDeclaration .., _, _, _, _, _, _, _ | .return .., _, _, _, _, _, _, _
  | .if .., _, _, _, _, _, _, _ | .while .., _, _, _, _, _, _, _ | .break .., _, _, _, _, _, _, _
  | .continue .., _, _, _, _, _, _, _ | .dispatch .., _, _, _, _, _, _, _
  | .foreign .., _, _, _, _, _, _, _ => False
termination_by structural s => s

/-- What it has in the place of statements. -/
def CopiesAll (H : House) (plan : Plan) (exit : Label) : List Stmt → Jumps → List Local → Int → Nat →
    List (Option Label) → Contents → List Stmt → Prop
  | [], _, _, _, _, _, c, ts => c = {} ∧ ts = []
  | s :: rest, J, strays, st, k, near, c, ts => ∃ a b t ts',
    Copies H plan exit s J strays st k near a t ∧
    CopiesAll H plan exit rest J strays st (k + (elementsStmt s).length) (follow near s) b ts' ∧
    c = a.append b ∧ ts = t :: ts'
termination_by structural ss => ss

/-- What it has in the place of a block. -/
def CopiesBlock (H : House) (plan : Plan) (exit : Label) : Block → Jumps → List Local → Int → Nat →
    List (Option Label) → Contents → Block → Prop
  | .absent, _, _, _, _, _, _, _ => False
  | .mk o _ ss, J, strays, st, k, near, c, b' =>
    ∃ ls ts, CopiesAll H plan exit ss J strays st k near c ts ∧ b' = .mk o ls ts
termination_by structural b => b

/-- What it has in the place of handlers, whose variables have no fields. -/
def CopiesCatches (H : House) (plan : Plan) (exit : Label) : List Catch → Jumps → List Local → Int →
    Nat → List Catch → Prop
  | [], _, _, _, _, ds => ds = []
  | .mk o v body :: rest, J, strays, st, k, ds => ∃ body' ds',
    (∀ l ∈ v, H.last.locals.lookup l = none) ∧
    CopiesBlock H plan exit body (insideHandler J (looseBlock body)) (v.toList ++ strays) st k [] {}
      body' ∧
    CopiesCatches H plan exit rest J strays st (k + (elementsBlock body).length) ds' ∧
    ds = .mk o v body' :: ds'
termination_by structural cs => cs

end

/-! ## Where the labels are -/

section Bears

variable {H : House} {plan : Plan} {exit : Label} {base : Nat}

theorem labelsStmts_proxies (p : Option Provenance) (f : Frame) (routes : List Route) (after : Label) :
    labelsStmts (proxies p f routes after) = routes.map (fun x => some x.proxy) ++ [some after] := by
  have hroutes : labelsStmts (routes.flatMap fun x =>
      [Made.label p x.proxy, callCleanup p f, .goto (.made p) x.next]) =
        routes.map fun x => some x.proxy := by
    induction routes with
    | nil => rfl
    | cons x rest ih => simpa [labelsStmts, labelsStmt, Made.label, callCleanup, Made.callThis] using ih
  rw [proxies, labelsStmts_append, labelsStmts, hroutes]
  simp [labelsStmts, labelsStmt, Made.label, Made.goto]

theorem Behind.proxy_mem {p : Option Provenance} {f : Frame} {routes : List Route} {ways : List Stmt}
    (h : Behind p ⟨f, routes⟩ ways) {x : Route} (hx : x ∈ routes) :
    some x.proxy ∈ labelsStmts ways := by
  rcases h with ⟨rfl, -⟩ | ⟨after, rfl⟩
  · cases hx
  · rw [labelsStmts_proxies]
    exact List.mem_append_left _ (List.mem_map.mpr ⟨x, hx, rfl⟩)

theorem labels_region (plan : Plan) (o body : Origin) (f : Frame) (start : Label) (b' : Block)
    (ways : List Stmt) : labelsStmt (region plan o body f start b'.statements ways) =
      some f.entry :: some start :: (labelsBlock b' ++ labelsStmts ways) := by
  cases b' <;> simp [region, labelsStmt, labelsStmts, labelsBlock, Made.label,
    Plan.setState, assignState, Made.assign, callCleanup, Made.callThis, Block.statements]

/-- The labels that control comes to from outside of a part are in what the machine has in its place,
and the suspensions are numbered from `k` on. -/
structure Bears (c : Contents) (loose labels : List (Option Label)) (k n : Nat) : Prop where
  loose : ∀ l ∈ loose, l ∈ labels
  resume : ∀ x ∈ c.suspensions, some x.resume ∈ labels
  entry : ∀ f ∈ c.children, some f.entry ∈ labels
  states : ∀ s ∈ c.resumeStates, ∃ i : Nat, s = i ∧ k < i ∧ i ≤ k + n

namespace Bears

theorem plain {loose labels : List (Option Label)} {k n : Nat} (h : ∀ l ∈ loose, l ∈ labels) :
    Bears {} loose labels k n :=
  ⟨h, fun _ hx => (nomatch hx), fun _ hf => (nomatch hf), fun _ hs => (nomatch hs)⟩

theorem append {a b : Contents} {xs ys ls ms : List (Option Label)} {k m n : Nat}
    (h : Bears a xs ls k m) (h' : Bears b ys ms (k + m) n) :
    Bears (a.append b) (xs ++ ys) (ls ++ ms) k (m + n) where
  loose l hl := List.mem_append.mpr ((List.mem_append.mp hl).imp (h.loose l) (h'.loose l))
  resume x hx := List.mem_append.mpr ((List.mem_append.mp hx).imp (h.resume x) (h'.resume x))
  entry f hf := List.mem_append.mpr ((List.mem_append.mp hf).imp (h.entry f) (h'.entry f))
  states s hs := by
    have hs : s ∈ a.resumeStates ∨ s ∈ b.resumeStates := by
      simp only [Contents.resumeStates, Contents.append, List.map_append,
        Frame.resumeStatesAll_append, List.mem_append] at hs ⊢
      tauto
    rcases hs with hs | hs
    · obtain ⟨i, rfl, h, h'⟩ := h.states s hs
      exact ⟨i, rfl, h, by omega⟩
    · obtain ⟨i, rfl, h, h''⟩ := h'.states s hs
      exact ⟨i, rfl, by omega, by omega⟩

end Bears

mutual

theorem loose_labelsStmt : ∀ {s : Stmt} {J : Jumps} {strays : List Local} {st : Int} {k : Nat}
    {near : List (Option Label)} {c : Contents} {t : Stmt},
    Copies H plan exit s J strays st k near c t → ∀ l ∈ looseStmt s, l ∈ labelsStmt s
  | .block b, _, _, _, _, _, _, _, ⟨_, h, _⟩ => loose_labelsBlock (b := b) h
  | .list _ ss, J, strays, st, k, near, c, _, ⟨ts, h, _⟩ =>
    @loose_labelsStmts ss J strays st k near c ts h
  | .label .., _, _, _, _, _, _, _, _ => fun _ hl => hl
  | .try _ body _ cleanup, _, _, _, _, _, _, _, h => by
    rw [Copies] at h
    intro l hl
    rw [looseStmt] at hl
    split at h <;> rename_i hframed
    · rw [if_pos hframed] at hl
      cases hl
    · rw [if_neg hframed] at hl
      obtain ⟨-, body', -, -, hbody, -⟩ := h
      exact List.mem_append_left _ (List.mem_append_left _ (loose_labelsBlock hbody l hl))
  | .yieldReturn .., _, _, _, _, _, _, _, _ | .yieldBreak _, _, _, _, _, _, _, _, _
  | .goto .., _, _, _, _, _, _, _, _ | .conditionalGoto .., _, _, _, _, _, _, _, _
  | .sequencePoint .., _, _, _, _, _, _, _, _ | .expression .., _, _, _, _, _, _, _, _
  | .throw .., _, _, _, _, _, _, _, _ => fun _ hl => nomatch hl
  | .absent, _, _, _, _, _, _, _, h | .noOp .., _, _, _, _, _, _, _, h
  | .localDeclaration .., _, _, _, _, _, _, _, h | .return .., _, _, _, _, _, _, _, h
  | .if .., _, _, _, _, _, _, _, h | .while .., _, _, _, _, _, _, _, h
  | .break .., _, _, _, _, _, _, _, h | .continue .., _, _, _, _, _, _, _, h
  | .dispatch .., _, _, _, _, _, _, _, h | .foreign .., _, _, _, _, _, _, _, h => h.elim

theorem loose_labelsStmts : ∀ {ss : List Stmt} {J : Jumps} {strays : List Local} {st : Int} {k : Nat}
    {near : List (Option Label)} {c : Contents} {ts : List Stmt},
    CopiesAll H plan exit ss J strays st k near c ts → ∀ l ∈ looseStmts ss, l ∈ labelsStmts ss
  | [], _, _, _, _, _, _, _, _ => fun _ hl => nomatch hl
  | _ :: _, _, _, _, _, _, _, _, ⟨_, _, _, _, h, h', _, _⟩ => fun l hl =>
    List.mem_append.mpr ((List.mem_append.mp hl).imp (loose_labelsStmt h l) (loose_labelsStmts h' l))

/-- The loose labels of a block are labels of it. -/
theorem loose_labelsBlock : ∀ {b : Block} {J : Jumps} {strays : List Local} {st : Int} {k : Nat}
    {near : List (Option Label)} {c : Contents} {b' : Block},
    CopiesBlock H plan exit b J strays st k near c b' → ∀ l ∈ looseBlock b, l ∈ labelsBlock b
  | .absent, _, _, _, _, _, _, _, h => h.elim
  | .mk _ _ ss, J, strays, st, k, near, c, _, ⟨_, ts, h, _⟩ =>
    @loose_labelsStmts ss J strays st k near c ts h

end

/-- The loose labels of a part are in the generator. -/
theorem loose_emitStmts {ss : List Stmt} {J : Jumps} {strays : List Local} {st : Int} {k : Nat}
    {near : List (Option Label)} {c : Contents} {ts : List Stmt}
    (h : CopiesAll H plan exit ss J strays st k near c ts) (i : Nat) :
    ∀ l ∈ looseStmts ss, l ∈ labelsStmts (emitStmts exit base i ss) := fun l hl =>
  (labels_emitStmts i ss).mem_iff.mpr (List.mem_append_left _ (loose_labelsStmts h l hl))

theorem loose_emitStmt {s : Stmt} {J : Jumps} {strays : List Local} {st : Int} {k : Nat}
    {near : List (Option Label)} {c : Contents} {t : Stmt}
    (h : Copies H plan exit s J strays st k near c t) (i : Nat) :
    ∀ l ∈ looseStmt s, l ∈ labelsStmt (emitStmt exit base i s) := fun l hl =>
  (labels_emitStmt i s).mem_iff.mpr (List.mem_append_left _ (loose_labelsStmt h l hl))

theorem loose_emitBlock {b : Block} {J : Jumps} {strays : List Local} {st : Int} {k : Nat}
    {near : List (Option Label)} {c : Contents} {b' : Block}
    (h : CopiesBlock H plan exit b J strays st k near c b') (i : Nat) :
    ∀ l ∈ looseBlock b, l ∈ labelsBlock (emitBlock exit base i b) := fun l hl =>
  (labels_emitBlock i b).mem_iff.mpr (List.mem_append_left _ (loose_labelsBlock h l hl))

mutual

theorem bears_stmt : ∀ {s : Stmt} {J : Jumps} {strays : List Local} {st : Int} {k : Nat}
    {near : List (Option Label)} {c : Contents} {t : Stmt},
    Copies H plan exit s J strays st k near c t →
    Bears c (looseStmt s) (labelsStmt t) k (elementsStmt s).length
  | .block b, _, _, _, _, _, _, _, ⟨_, h, rfl⟩ => bears_block (b := b) h
  | .list _ ss, J, strays, st, k, near, c, _, ⟨ts, h, rfl⟩ =>
    @bears_all ss J strays st k near c ts h
  | .yieldReturn o e, _, _, _, k, _, _, _, ⟨_, x, e', rfl, hx, _, rfl⟩ => by
    refine ⟨fun _ hl => (nomatch hl), fun y hy => ?_, fun _ hf => (nomatch hf), fun s hs => ?_⟩
    · rw [List.mem_singleton.mp hy]
      simp [suspend, labelsStmt, labelsStmts, Made.label, Made.assign, Plan.setState, assignState,
        Plan.returnBool]
    · obtain rfl : s = x.state := by simpa [Contents.resumeStates, Frame.resumeStatesAll] using hs
      exact ⟨k + 1, hx, by omega, by simp [elementsStmt]⟩
  | .label .., _, _, _, _, _, _, _, ⟨rfl, rfl⟩ => .plain fun _ hl => hl
  | .yieldBreak _, _, _, _, _, _, _, _, ⟨rfl, _⟩ | .goto .., _, _, _, _, _, _, _, ⟨rfl, _⟩
  | .conditionalGoto .., _, _, _, _, _, _, _, ⟨rfl, _⟩
  | .sequencePoint .., _, _, _, _, _, _, _, ⟨rfl, _⟩ | .expression .., _, _, _, _, _, _, _, ⟨rfl, _⟩
  | .throw .., _, _, _, _, _, _, _, ⟨rfl, _⟩ => .plain fun _ hl => nomatch hl
  | .try o body catches cleanup, _, _, _, k, _, _, _, h => by
    rw [Copies] at h
    split at h
    · rename_i hframed
      obtain ⟨-, -, f, start, routes, b', ways, o', cleanup', rfl, hbody, -, -, -, rfl⟩ := h
      have hstates := (bears_block hbody).states
      refine ⟨by simp [looseStmt, hframed], fun _ hx => (nomatch hx), fun g hg => ?_, fun s hs => ?_⟩
      · rw [List.mem_singleton.mp hg, labels_region]
        exact List.mem_cons_self
      · obtain ⟨i, rfl, hi, hi'⟩ := hstates s (by
          simpa [Contents.resumeStates, Frame.resumeStatesAll, Frame.resumeStates_eq] using hs)
        exact ⟨i, rfl, hi, by simp only [elementsStmt, List.length_append]; omega⟩
    · rename_i hframed
      obtain ⟨rfl, body', catches', cleanup', hbody, -, -, rfl⟩ := h
      rw [looseStmt, if_neg hframed]
      exact .plain fun l hl =>
        List.mem_append_left _ (List.mem_append_left _ ((bears_block hbody).loose l hl))
  | .absent, _, _, _, _, _, _, _, h | .noOp .., _, _, _, _, _, _, _, h
  | .localDeclaration .., _, _, _, _, _, _, _, h | .return .., _, _, _, _, _, _, _, h
  | .if .., _, _, _, _, _, _, _, h | .while .., _, _, _, _, _, _, _, h
  | .break .., _, _, _, _, _, _, _, h | .continue .., _, _, _, _, _, _, _, h
  | .dispatch .., _, _, _, _, _, _, _, h | .foreign .., _, _, _, _, _, _, _, h => h.elim

theorem bears_all : ∀ {ss : List Stmt} {J : Jumps} {strays : List Local} {st : Int} {k : Nat}
    {near : List (Option Label)} {c : Contents} {ts : List Stmt},
    CopiesAll H plan exit ss J strays st k near c ts →
    Bears c (looseStmts ss) (labelsStmts ts) k (elementsStmts ss).length
  | [], _, _, _, _, _, _, _, ⟨rfl, rfl⟩ => .plain fun _ hl => nomatch hl
  | s :: rest, _, _, _, _, _, _, _, ⟨a, b, t, ts, h, h', rfl, rfl⟩ => by
    rw [elementsStmts, List.length_append]
    exact (bears_stmt h).append (bears_all h')

/-- The labels of a block that control comes to from outside are where the machine has it. -/
theorem bears_block : ∀ {b : Block} {J : Jumps} {strays : List Local} {st : Int} {k : Nat}
    {near : List (Option Label)} {c : Contents} {b' : Block},
    CopiesBlock H plan exit b J strays st k near c b' →
    Bears c (looseBlock b) (labelsBlock b') k (elementsBlock b).length
  | .absent, _, _, _, _, _, _, _, h => h.elim
  | .mk _ _ ss, J, strays, st, k, near, c, _, ⟨_, ts, h, rfl⟩ => @bears_all ss J strays st k near c ts h

end

mutual

theorem plain_labelsStmt : ∀ {s : Stmt} {J : Jumps} {strays : List Local} {st : Int} {k : Nat}
    {near : List (Option Label)} {t : Stmt}, Copies H plan exit s J strays st k near {} t →
    labelsStmt t = labelsStmt s
  | .block b, _, _, _, _, _, _, ⟨_, h, rfl⟩ => plain_labelsBlock (b := b) h
  | .list _ ss, J, strays, st, k, near, _, ⟨ts, h, rfl⟩ => @plain_labelsStmts ss J strays st k near ts h
  | .yieldReturn o e, _, _, _, _, _, _, ⟨_, x, e', hc, _⟩ => by cases hc
  | .label .., _, _, _, _, _, _, ⟨_, rfl⟩ | .sequencePoint .., _, _, _, _, _, _, ⟨_, rfl⟩
  | .yieldBreak _, _, _, _, _, _, _, ⟨_, _, _, rfl⟩ | .goto .., _, _, _, _, _, _, ⟨_, _, _, rfl⟩
  | .conditionalGoto .., _, _, _, _, _, _, ⟨_, _, _, _, _, rfl⟩
  | .expression .., _, _, _, _, _, _, ⟨_, _, _, rfl⟩ | .throw .., _, _, _, _, _, _, ⟨_, _, _, rfl⟩ => rfl
  | .try o body catches cleanup, _, _, _, k, _, _, h => by
    rw [Copies] at h
    split at h
    · obtain ⟨-, -, f, start, routes, b', ways, o', cleanup', hc, -⟩ := h
      cases hc
    · obtain ⟨-, body', catches', cleanup', hbody, hcatches, hcleanup, rfl⟩ := h
      have hlast : labelsBlock cleanup' = labelsBlock cleanup := by
        obtain ⟨rfl, rfl⟩ | hcleanup := hcleanup
        · rfl
        · exact plain_labelsBlock hcleanup
      simp only [labelsStmt, plain_labelsBlock hbody, plain_labelsCatches hcatches, hlast]
  | .absent, _, _, _, _, _, _, h | .noOp .., _, _, _, _, _, _, h
  | .localDeclaration .., _, _, _, _, _, _, h | .return .., _, _, _, _, _, _, h
  | .if .., _, _, _, _, _, _, h | .while .., _, _, _, _, _, _, h
  | .break .., _, _, _, _, _, _, h | .continue .., _, _, _, _, _, _, h
  | .dispatch .., _, _, _, _, _, _, h | .foreign .., _, _, _, _, _, _, h => h.elim

theorem plain_labelsStmts : ∀ {ss : List Stmt} {J : Jumps} {strays : List Local} {st : Int} {k : Nat}
    {near : List (Option Label)} {ts : List Stmt}, CopiesAll H plan exit ss J strays st k near {} ts →
    labelsStmts ts = labelsStmts ss
  | [], _, _, _, _, _, _, ⟨_, rfl⟩ => rfl
  | s :: rest, _, _, _, _, _, _, ⟨a, b, t, ts, h, h', hc, rfl⟩ => by
    obtain ⟨rfl, rfl⟩ := Contents.append_eq_empty hc
    rw [labelsStmts, labelsStmts, plain_labelsStmt h, plain_labelsStmts h']

/-- Where there is no suspension, the labels are those of the body. -/
theorem plain_labelsBlock : ∀ {b : Block} {J : Jumps} {strays : List Local} {st : Int} {k : Nat}
    {near : List (Option Label)} {b' : Block}, CopiesBlock H plan exit b J strays st k near {} b' →
    labelsBlock b' = labelsBlock b
  | .absent, _, _, _, _, _, _, h => h.elim
  | .mk _ _ ss, J, strays, st, k, near, _, ⟨_, ts, h, rfl⟩ => @plain_labelsStmts ss J strays st k near ts h

theorem plain_labelsCatches : ∀ {cs : List Catch} {J : Jumps} {strays : List Local} {st : Int}
    {k : Nat} {ds : List Catch}, CopiesCatches H plan exit cs J strays st k ds →
    labelsCatches ds = labelsCatches cs
  | [], _, _, _, _, _, rfl => rfl
  | .mk _ _ body :: rest, _, _, _, _, _, ⟨body', ds, _, hbody, hrest, rfl⟩ => by
    simp only [labelsCatches, plain_labelsBlock hbody, plain_labelsCatches hrest]

end

/-! ## Places that jumps may go to -/

/-- The jumps of a part go to a loose label of it or outside of it, on both sides. -/
structure Lands (J : Jumps) (loose labels labels' : List (Option Label)) : Prop where
  first : ∀ l k, J l k → l ∈ labels → k = l ∧ l ∈ loose
  second : ∀ l k, J l k → k ∈ labels' → k = l ∧ l ∈ loose
  nodup : labels.Nodup
  nodup' : labels'.Nodup

/-- A jump goes to a label directly before a part, on either side, if that is one of `near`. -/
def Nearby (J : Jumps) (near nearX nearY : List (Option Label)) : Prop :=
  ∀ l k, J l k → (l ∈ nearX ↔ l ∈ near) ∧ (k ∈ nearY ↔ l ∈ near)

theorem Nearby.nil (J : Jumps) : Nearby J [] [] [] := fun _ _ _ => by simp

namespace Lands

variable {J : Jumps} {xs ys ls ms ls' ms' : List (Option Label)}

/-- The first of two parts. -/
theorem head (h : Lands J (xs ++ ys) (ls ++ ms) (ls' ++ ms')) (hy : ∀ l ∈ ys, l ∈ ms)
    (hy' : ∀ l ∈ ys, l ∈ ms') : Lands J xs ls ls' where
  first l k hJ hl := by
    obtain ⟨rfl, hmem⟩ := h.first l k hJ (List.mem_append_left _ hl)
    refine ⟨rfl, (List.mem_append.mp hmem).resolve_right fun hys => ?_⟩
    exact (List.nodup_append.mp h.nodup).2.2 k hl k (hy k hys) rfl
  second l k hJ hk := by
    obtain ⟨rfl, hmem⟩ := h.second l k hJ (List.mem_append_left _ hk)
    refine ⟨rfl, (List.mem_append.mp hmem).resolve_right fun hys => ?_⟩
    exact (List.nodup_append.mp h.nodup').2.2 k hk k (hy' k hys) rfl
  nodup := (List.nodup_append.mp h.nodup).1
  nodup' := (List.nodup_append.mp h.nodup').1

/-- The second of two parts. -/
theorem tail (h : Lands J (xs ++ ys) (ls ++ ms) (ls' ++ ms')) (hx : ∀ l ∈ xs, l ∈ ls)
    (hx' : ∀ l ∈ xs, l ∈ ls') : Lands J ys ms ms' where
  first l k hJ hl := by
    obtain ⟨rfl, hmem⟩ := h.first l k hJ (List.mem_append_right _ hl)
    refine ⟨rfl, (List.mem_append.mp hmem).resolve_left fun hxs => ?_⟩
    exact (List.nodup_append.mp h.nodup).2.2 k (hx k hxs) k hl rfl
  second l k hJ hk := by
    obtain ⟨rfl, hmem⟩ := h.second l k hJ (List.mem_append_right _ hk)
    refine ⟨rfl, (List.mem_append.mp hmem).resolve_left fun hxs => ?_⟩
    exact (List.nodup_append.mp h.nodup').2.2 k (hx' k hxs) k hk rfl
  nodup := (List.nodup_append.mp h.nodup).2.1
  nodup' := (List.nodup_append.mp h.nodup').2.1

end Lands

mutual

theorem nearby_stmt : ∀ {s : Stmt} {J : Jumps} {strays : List Local} {st : Int} {k : Nat}
    {near nearX nearY : List (Option Label)} {c : Contents} {t : Stmt},
    Copies H plan exit s J strays st k near c t →
    Lands J (looseStmt s) (labelsStmt (emitStmt exit base k s)) (labelsStmt t) →
    Nearby J near nearX nearY →
    Nearby J (follow near s) (follow nearX (emitStmt exit base k s)) (follow nearY t)
  | .block b, _, _, _, _, _, _, _, _, _, ⟨_, h, rfl⟩, hlands, hnear =>
    nearby_block (b := b) h hlands hnear
  | .list _ ss, J, strays, st, k, near, nearX, nearY, c, _, ⟨ts, h, rfl⟩, hlands, hnear =>
    @nearby_all ss J strays st k near nearX nearY c ts h hlands hnear
  | .yieldReturn o e, _, _, _, k, _, _, _, _, _, ⟨_, x, e', rfl, hx, _, rfl⟩, hlands, _ => by
    intro l l' hJ
    refine ⟨⟨fun hl => ?_, fun hl => nomatch hl⟩, ⟨fun hl => ?_, fun hl => nomatch hl⟩⟩
    · obtain ⟨-, hmem⟩ := hlands.first l l' hJ (by
        simpa [emitStmt, follow, followAll, labelsStmt, labelsStmts] using hl)
      cases hmem
    · simp [suspend, follow, followAll, Plan.setState, assignState, Made.assign] at hl
  | .label o l₀, _, _, _, _, _, _, _, _, _, ⟨rfl, rfl⟩, hlands, hnear => by
    intro l l' hJ
    simp only [emitStmt, follow, List.mem_append, List.mem_singleton]
    have hfirst := hlands.first l l' hJ
    have hsecond := hlands.second l l' hJ
    simp only [emitStmt, labelsStmt, looseStmt, List.mem_singleton] at hfirst hsecond
    refine ⟨or_congr (hnear l l' hJ).1 .rfl, or_congr (hnear l l' hJ).2 ⟨fun h => ?_, fun h => ?_⟩⟩
    · exact (hsecond h).2
    · exact (hfirst h).1.trans h
  | .try o body catches cleanup, _, _, _, _, _, _, _, _, _, h, hlands, _ => by
    rw [Copies] at h
    intro l l' hJ
    split at h
    · rename_i hframed
      obtain ⟨-, -, f, start, routes, b', ways, o', cleanup', rfl, hbody, -, -, hways, rfl⟩ := h
      refine ⟨.rfl, ⟨fun hl => ?_, fun hl => nomatch hl⟩⟩
      have hmem : l' ∈ labelsStmt (region plan o body.origin f start b'.statements ways) := by
        rw [labels_region]
        refine List.mem_cons_of_mem _ (List.mem_cons_of_mem _ (List.mem_append_right _ ?_))
        have hl : l' ∈ followAll [] ways := by
          simpa [region, follow, followAll, callCleanup, Made.callThis] using hl
        exact (Setting.followAll_mem hl).resolve_left List.not_mem_nil
      obtain ⟨-, hmem⟩ := hlands.second l l' hJ hmem
      rw [looseStmt, if_pos hframed] at hmem
      cases hmem
    · obtain ⟨rfl, body', catches', cleanup', -, -, -, rfl⟩ := h
      exact Nearby.nil _ l l' hJ
  | .yieldBreak _, _, _, _, _, _, _, _, _, _, ⟨rfl, _, _, rfl⟩, _, _
  | .goto .., _, _, _, _, _, _, _, _, _, ⟨rfl, _, _, rfl⟩, _, _
  | .conditionalGoto .., _, _, _, _, _, _, _, _, _, ⟨rfl, _, _, _, _, rfl⟩, _, _
  | .sequencePoint .., _, _, _, _, _, _, _, _, _, ⟨rfl, rfl⟩, _, _
  | .expression .., _, _, _, _, _, _, _, _, _, ⟨rfl, _, _, rfl⟩, _, _
  | .throw .., _, _, _, _, _, _, _, _, _, ⟨rfl, _, _, rfl⟩, _, _ => .nil _
  | .absent, _, _, _, _, _, _, _, _, _, h, _, _ | .noOp .., _, _, _, _, _, _, _, _, _, h, _, _
  | .localDeclaration .., _, _, _, _, _, _, _, _, _, h, _, _
  | .return .., _, _, _, _, _, _, _, _, _, h, _, _ | .if .., _, _, _, _, _, _, _, _, _, h, _, _
  | .while .., _, _, _, _, _, _, _, _, _, h, _, _ | .break .., _, _, _, _, _, _, _, _, _, h, _, _
  | .continue .., _, _, _, _, _, _, _, _, _, h, _, _
  | .dispatch .., _, _, _, _, _, _, _, _, _, h, _, _
  | .foreign .., _, _, _, _, _, _, _, _, _, h, _, _ => h.elim

theorem nearby_all : ∀ {ss : List Stmt} {J : Jumps} {strays : List Local} {st : Int} {k : Nat}
    {near nearX nearY : List (Option Label)} {c : Contents} {ts : List Stmt},
    CopiesAll H plan exit ss J strays st k near c ts →
    Lands J (looseStmts ss) (labelsStmts (emitStmts exit base k ss)) (labelsStmts ts) →
    Nearby J near nearX nearY →
    Nearby J (followAll near ss) (followAll nearX (emitStmts exit base k ss)) (followAll nearY ts)
  | [], _, _, _, _, _, _, _, _, _, ⟨rfl, rfl⟩, _, hnear => hnear
  | s :: rest, _, _, _, _, _, _, _, _, _, ⟨a, b, t, ts, h, h', rfl, rfl⟩, hlands, hnear => by
    have hfirst := hlands.head (loose_emitStmts h' _) (bears_all h').loose
    have hrest := hlands.tail (loose_emitStmt h _) (bears_stmt h).loose
    have hall := nearby_all h' hrest (nearby_stmt h hfirst hnear)
    exact hall

/-- The jumps of a block go to the same labels directly behind it, on both sides. -/
theorem nearby_block : ∀ {b : Block} {J : Jumps} {strays : List Local} {st : Int} {k : Nat}
    {near nearX nearY : List (Option Label)} {c : Contents} {b' : Block},
    CopiesBlock H plan exit b J strays st k near c b' →
    Lands J (looseBlock b) (labelsBlock (emitBlock exit base k b)) (labelsBlock b') →
    Nearby J near nearX nearY →
    Nearby J (followBlock near b) (followBlock nearX (emitBlock exit base k b)) (followBlock nearY b')
  | .absent, _, _, _, _, _, _, _, _, _, h, _, _ => h.elim
  | .mk _ _ ss, J, strays, st, k, near, nearX, nearY, c, _, ⟨_, ts, h, rfl⟩, hlands, hnear =>
    @nearby_all ss J strays st k near nearX nearY c ts h hlands hnear

end

/-! ## Entries -/

/-- How a part is entered on both sides, and the state that the machine is in then: at its start, by
a jump, or to go on behind a suspension inside. -/
inductive Meets (base : Nat) (loose : List (Option Label)) (st : Int) (c : Contents) :
    Entry → Entry → Int → Prop where
  | start : Meets base loose st c .start .start st
  | seek {l : Option Label} (hl : l ∈ loose) : Meets base loose st c (.seek l) (.seek l) st
  | resume {x : Suspension} (hx : x ∈ c.suspensions) : Meets base loose st c
      (.seek (some (yieldLabel base x.state))) (.seek (some x.resume)) x.state
  | entry {f : Frame} {s : Int} (hf : f ∈ c.children) (hs : s ∈ f.resumeStates) :
    Meets base loose st c (.seek (some (yieldLabel base s))) (.seek (some f.entry)) s

namespace Meets

variable {loose : List (Option Label)} {st s : Int} {c : Contents} {e e' : Entry}

/-- Both sides are entered. -/
theorem enters {labels labels' : List (Option Label)} {k n : Nat}
    (h : Meets base loose st c e e' s) (hbears : Bears c loose labels' k n)
    (hloose : ∀ l ∈ loose, l ∈ labels) (hyields : ∀ l ∈ yieldLabels base k n, l ∈ labels) :
    e.enters labels = true ∧ e'.enters labels' = true := by
  have hyield : ∀ s ∈ c.resumeStates, some (yieldLabel base s) ∈ labels := by
    intro s hs
    obtain ⟨i, rfl, hi, hi'⟩ := hbears.states s hs
    exact hyields _ (List.mem_map.mpr ⟨i, List.mem_range'_1.mpr ⟨by omega, by omega⟩, rfl⟩)
  cases h with
  | start => exact ⟨rfl, rfl⟩
  | seek hl => simp [Entry.enters, hloose _ hl, hbears.loose _ hl]
  | @resume x hx =>
    have hs : x.state ∈ c.resumeStates := List.mem_append_left _ (List.mem_map.mpr ⟨_, hx, rfl⟩)
    simp [Entry.enters, hyield _ hs, hbears.resume _ hx]
  | entry hf hs =>
    have hs : s ∈ c.resumeStates := List.mem_append_right _ (Frame.mem_resumeStatesAll.mpr ⟨_, hf, hs⟩)
    simp [Entry.enters, hyield _ hs, hbears.entry _ hf]

/-- Two parts are entered at the start of the first one, or by way of a label in one of them. -/
theorem append {a b : Contents} {xs ys : List (Option Label)}
    (h : Meets base (xs ++ ys) st (a.append b) e e' s) :
    Meets base xs st a e e' s ∨ (∃ l l', e = .seek l ∧ e' = .seek l') ∧ Meets base ys st b e e' s := by
  cases h with
  | start => exact .inl .start
  | seek hl =>
    rcases List.mem_append.mp hl with hl | hl
    · exact .inl (.seek hl)
    · exact .inr ⟨⟨_, _, rfl, rfl⟩, .seek hl⟩
  | resume hx =>
    rcases List.mem_append.mp hx with hx | hx
    · exact .inl (.resume hx)
    · exact .inr ⟨⟨_, _, rfl, rfl⟩, .resume hx⟩
  | entry hf hs =>
    rcases List.mem_append.mp hf with hf | hf
    · exact .inl (.entry hf hs)
    · exact .inr ⟨⟨_, _, rfl, rfl⟩, .entry hf hs⟩

end Meets

end Bears

end Resumable.StateMachine
