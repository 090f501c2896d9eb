import Resumable.Proofs.Lowering.Correspondence
import Resumable.Proofs.Lowering.Walked

/-!
# Lowering keeps the meaning of statements

The structured execution of a lowered statement and the meaning of the statement before lowering
end alike (`sim_stmt`).  A loop's jumps out of a statement are jumps to the labels of the loop
around it; all other labels are met again inside the lists that lowering has put them in.
-/

set_option autoImplicit false

namespace Resumable.Lowering

open Resumable.Symbol Resumable.Tree Resumable.Machine Resumable.Source

variable {σ : Type}

/-! ## Statements of the lowered form, unobserved -/

section Silent

variable {S : Setting σ} {scope : Range} {pc : Nat} {near : List (Option Label)}

theorem exec_sequencePoint (hS : S.observer = .silent) (o : Origin) (place : Text.Span) :
    S.exec scope pc near (.sequencePoint o place) .start = .done .normal := by
  rw [Setting.exec, noting_silent hS]
  · rfl
  all_goals simp

theorem exec_expression (hS : S.observer = .silent) (o : Origin) (e : Expr) :
    S.exec scope pc near (.expression o e) .start =
      .effect pc (eval S.ctx e) fun _ => .normal := by
  rw [Setting.exec, noting_silent hS, Setting.leaf, hS]
  · rfl
  all_goals simp

theorem exec_return (hS : S.observer = .silent) (o : Origin) (e : Expr) :
    S.exec scope pc near (.return o e) .start =
      .effect pc (evalReturned S.ctx e) (.ret pc) := by
  rw [Setting.exec, noting_silent hS, Setting.leaf]
  all_goals simp

theorem exec_throw (hS : S.observer = .silent) (o : Origin) {e : Expr} (he : e ≠ .absent) :
    S.exec scope pc near (.throw o e) .start =
      .effect pc (eval S.ctx e) fun v => .fail pc (.single (.thrown v)) := by
  rw [Setting.exec, noting_silent hS, Setting.leaf]
  all_goals simp [he]

theorem exec_goto (hS : S.observer = .silent) (o : Origin) (l : Option Label) :
    S.exec scope pc near (.goto o l) .start = .done (.jump pc l) := by
  rw [Setting.exec, noting_silent hS, Setting.leaf]
  all_goals simp

theorem exec_gotoUnless (hS : S.observer = .silent) (p : Option Provenance) (x : Expr)
    (l : Option Label) :
    S.exec scope pc near (Made.gotoUnless p x l) .start =
      choose pc (truth S.ctx x) (.done .normal) (.done (.jump pc l)) := by
  rw [Made.gotoUnless, Setting.exec, noting_silent hS, Setting.leaf]
  · funext c
    unfold Flow.effect choose truth
    cases (do Act.ofExcept (← eval S.ctx x).asBool : Act σ Bool) c with
    | none => rfl
    | some p =>
      obtain ⟨⟨⟩ | ⟨_ | _⟩, d⟩ := p <;> rfl
  all_goals simp

/-- A branch without else is a choice. -/
theorem exec_branch (hS : S.observer = .silent) (o : Origin) (x : Expr) (t : Option Stmt)
    (done : Label) (hdone : some done ∉ labelsStmts t.toList)
    (ht : ∀ c d p l, S.pass scope (pc + 1) [] t.toList .start c = some (.jump p l, d) →
      l ∉ labelsStmts t.toList ++ [some done]) :
    S.exec scope pc near (branch o x t done) .start =
      choose pc (truth S.ctx x) (S.pass scope (pc + 1) [] t.toList .start)
        fun c => some (.normal, c.leave scope pc (some (S.label (some done)))) := by
  have hlabels : labelsStmts (Made.gotoUnless o.provenance x (some done) :: t.toList ++
      [Made.label o.provenance done]) = labelsStmts t.toList ++ [some done] := by
    simp [labelsStmts, labelsStmts_append, labelsStmt, Made.gotoUnless, Made.label]
  have hstart : S.pass scope pc near (Made.gotoUnless o.provenance x (some done) :: t.toList ++
      [Made.label o.provenance done]) .start =
      choose pc (truth S.ctx x) (S.pass scope (pc + 1) [] t.toList .start)
        (.done (.jump pc (some done))) := by
    rw [List.cons_append, Setting.pass_cons, exec_gotoUnless hS, choose_onNormal,
      Flow.done_onNormal, Setting.pass_append]
    simp only [Made.gotoUnless, sizeStmt, follow]
    rw [Setting.pass_madeLabel (.inl rfl), Setting.pass, Flow.onNormal_done]
    rfl
  have hseek : S.pass scope pc near (Made.gotoUnless o.provenance x (some done) :: t.toList ++
      [Made.label o.provenance done]) (.seek (some done)) = .done .normal := by
    rw [Setting.pass_seek_append, Setting.pass_madeLabel (.inr rfl), Setting.pass]
    simpa [labelsStmts, labelsStmt, Made.gotoUnless] using hdone
  have hend : ∀ c, S.rounds scope [] (labelsStmts t.toList ++ [some done])
      (S.pass scope pc near (Made.gotoUnless o.provenance x (some done) :: t.toList ++
        [Made.label o.provenance done])) (.seek (some done)) c = some (.normal, c) := by
    intro c
    refine Setting.rounds_end ?_ (by simp)
    rw [hseek]
    rfl
  rw [branch, Setting.exec, hlabels, Setting.rounds_eq, hstart, choose_again,
    Setting.andThen_again fun c d p l h => ⟨ht c d p l h, by simp⟩,
    Setting.jump_again (e := .seek (some done)) (by simp [Entry.staying?])]
  congr 1
  funext c
  exact hend _

/-- A branch with two sides is a choice. -/
theorem exec_branches (hS : S.observer = .silent) (o : Origin) (x : Expr) (t f : Option Stmt)
    (otherwise done : Label)
    (hnodup : (labelsStmts t.toList ++ some otherwise :: labelsStmts f.toList ++
      [some done]).Nodup)
    (ht : ∀ c d p l, S.pass scope (pc + 1) [] t.toList .start c = some (.jump p l, d) →
      l ∉ labelsStmts t.toList ++ some otherwise :: labelsStmts f.toList ++ [some done])
    (hf : ∀ c d p l, S.pass scope (pc + 1 + sizeStmts t.toList + 1) [some otherwise] f.toList
        .start c = some (.jump p l, d) →
      l ∉ labelsStmts t.toList ++ some otherwise :: labelsStmts f.toList ++ [some done]) :
    S.exec scope pc near (branches o x t f otherwise done) .start =
      choose pc (truth S.ctx x)
        ((S.pass scope (pc + 1) [] t.toList .start).onNormal fun c =>
          some (.normal, c.leave scope (pc + 1 + sizeStmts t.toList)
            (some (S.label (some done)))))
        fun c => S.pass scope (pc + 1 + sizeStmts t.toList + 1) [some otherwise] f.toList .start
          (c.leave scope pc (some (S.label (some otherwise)))) := by
  have hotherwise : some otherwise ∉ labelsStmts t.toList := by
    intro h
    rw [List.append_assoc] at hnodup
    exact (List.nodup_append.mp hnodup).2.2 _ h _ (by simp) rfl
  have hdone : some done ∉ labelsStmts t.toList ++ some otherwise :: labelsStmts f.toList :=
    fun h => (List.nodup_append.mp hnodup).2.2 _ h _ (by simp) rfl
  -- The list as lowering has made it, bracketed so that each part stands by itself.
  obtain ⟨ss, hss⟩ : ∃ ss, ss = [Made.gotoUnless o.provenance x (some otherwise)] ++ (t.toList ++
      ([Made.goto o.provenance done] ++ (Made.label o.provenance otherwise :: (f.toList ++
        [Made.label o.provenance done])))) := ⟨_, rfl⟩
  have hlist : branches o x t f otherwise done = .list o ss := by
    simp [branches, hss]
  have hlabels : labelsStmts ss = labelsStmts t.toList ++ some otherwise :: labelsStmts f.toList ++
      [some done] := by
    simp [hss, labelsStmts, labelsStmts_append, labelsStmt, Made.gotoUnless, Made.label, Made.goto]
  have hsize : ∀ y l, sizeStmts [Made.gotoUnless o.provenance y l] = 1 := by
    simp [sizeStmts, sizeStmt, Made.gotoUnless]
  have hstart : S.pass scope pc near ss .start =
      choose pc (truth S.ctx x)
        ((S.pass scope (pc + 1) [] t.toList .start).onNormal
          (.done (.jump (pc + 1 + sizeStmts t.toList) (some done))))
        (.done (.jump pc (some otherwise))) := by
    rw [hss, Setting.pass_append, Setting.pass_singleton rfl, exec_gotoUnless hS,
      choose_onNormal, Flow.done_onNormal, Setting.pass_append, hsize, Setting.pass_append,
      Setting.pass_singleton rfl, Made.goto, exec_goto hS, Flow.jump_onNormal]
    rfl
  have hseek : S.pass scope pc near ss (.seek (some otherwise)) =
      S.pass scope (pc + 1 + sizeStmts t.toList + 1) [some otherwise] f.toList .start := by
    rw [hss, Setting.pass_seek_append _ (by simp [labelsStmts, labelsStmt, Made.gotoUnless]),
      Setting.pass_seek_append _ hotherwise,
      Setting.pass_seek_append _ (by simp [labelsStmts, labelsStmt, Made.goto]), 
      Setting.pass_madeLabel (.inr rfl), Setting.pass_append,
      Setting.pass_madeLabel (.inl rfl), Setting.pass, Flow.onNormal_done]
    simp [sizeStmts, sizeStmt, Made.gotoUnless, Made.goto, followAll, follow]
  have hend : S.pass scope pc near ss (.seek (some done)) = .done .normal := by
    have hbefore : some done ∉ labelsStmts ([Made.gotoUnless o.provenance x (some otherwise)] ++
        (t.toList ++ ([Made.goto o.provenance done] ++
          (Made.label o.provenance otherwise :: f.toList)))) := by
      simpa [labelsStmts, labelsStmts_append, labelsStmt, Made.gotoUnless, Made.label, Made.goto]
        using hdone
    have hsplit : ss = ([Made.gotoUnless o.provenance x (some otherwise)] ++ (t.toList ++
        ([Made.goto o.provenance done] ++ (Made.label o.provenance otherwise :: f.toList)))) ++
        [Made.label o.provenance done] := by
      simp [hss]
    rw [hsplit, Setting.pass_seek_append _ hbefore, Setting.pass_madeLabel (.inr rfl),
      Setting.pass]
  rw [hlist, Setting.exec, hlabels, Setting.rounds_eq, hstart, choose_again,
    Setting.onNormal_again fun c d p l h => ⟨ht c d p l h, by simp⟩,
    Setting.jump_again (e := .seek (some done)) (by simp [Entry.staying?]),
    Setting.jump_again (e := .seek (some otherwise)) (by simp [Entry.staying?])]
  have hrounds : ∀ c, S.rounds scope [] (labelsStmts t.toList ++ some otherwise ::
      labelsStmts f.toList ++ [some done]) (S.pass scope pc near ss) (.seek (some done)) c =
      some (.normal, c) := by
    intro c
    refine Setting.rounds_end ?_ (by simp)
    rw [hend]
    rfl
  have hrounds' : S.rounds scope [] (labelsStmts t.toList ++ some otherwise ::
      labelsStmts f.toList ++ [some done]) (S.pass scope pc near ss) (.seek (some otherwise)) =
      S.pass scope (pc + 1 + sizeStmts t.toList + 1) [some otherwise] f.toList .start := by
    rw [← hseek]
    refine Setting.rounds_of_leaves fun c d p l h => ⟨?_, by simp⟩
    rw [hseek] at h
    exact hf c d p l h
  simp only [hrounds, hrounds']

theorem labelsStmt_branch (o : Origin) (x : Expr) (t : Option Stmt) (done : Label) :
    labelsStmt (branch o x t done) = labelsStmts t.toList ++ [some done] := by
  simp [branch, labelsStmts, labelsStmts_append, labelsStmt, Made.gotoUnless, Made.label]

theorem labelsStmt_branches (o : Origin) (x : Expr) (t f : Option Stmt) (otherwise done : Label) :
    labelsStmt (branches o x t f otherwise done) =
      labelsStmts t.toList ++ some otherwise :: labelsStmts f.toList ++ [some done] := by
  simp [branches, labelsStmts, labelsStmts_append, labelsStmt, Made.gotoUnless, Made.label,
    Made.goto]

theorem labelsStmt_loop (o : Origin) (x : Expr) (body : Option Stmt) (exit again : Label) :
    labelsStmt (loop o x body exit again) =
      some again :: labelsStmts body.toList ++ [some exit] := by
  simp [loop, labelsStmts, labelsStmts_append, labelsStmt, Made.gotoUnless, Made.label, Made.goto]

theorem labelsStmt_splitTry (o : Origin) (body : Block) (catches : List Catch) (cleanup : Block) :
    labelsStmt (splitTry o body catches cleanup) =
      labelsBlock body ++ labelsCatches catches ++ labelsBlock cleanup := by
  unfold splitTry
  split <;> simp [labelsStmt, labelsBlock, labelsStmts, labelsCatches, Made.block]

theorem splitTry_both (o : Origin) (body : Block) (catches : List Catch) {cleanup : Block}
    (hcatches : catches ≠ []) (hcleanup : cleanup ≠ .absent) :
    splitTry o body catches cleanup =
      .try o (Made.block o.provenance [.try o.asGenerated body catches .absent]) [] cleanup := by
  cases cleanup with
  | absent => exact absurd rfl hcleanup
  | mk fo locals ss => simp [splitTry, hcatches, Block.isAbsent]

/-- The rounds of a lowered loop. -/
theorem pass_loop (hS : S.observer = .silent) (o : Origin) (x : Expr) (body : Option Stmt)
    (exit again : Label) (hexit : some exit ∉ some again :: labelsStmts body.toList) :
    ∃ ss, loop o x body exit again = .list o ss ∧
      labelsStmts ss = some again :: labelsStmts body.toList ++ [some exit] ∧
      (∀ e, e = .start ∨ e = .seek (some again) → S.pass scope pc near ss e =
        choose pc (truth S.ctx x)
          ((S.pass scope (pc + 1) [] body.toList .start).onNormal
            (.done (.jump (pc + 1 + sizeStmts body.toList) (some again))))
          (.done (.jump pc (some exit)))) ∧
      S.pass scope pc near ss (.seek (some exit)) = .done .normal := by
  refine ⟨Made.label o.provenance again :: (Made.gotoUnless o.provenance x (some exit) ::
    (body.toList ++ ([Made.goto o.provenance again] ++ [Made.label o.provenance exit]))), ?_, ?_,
    ?_, ?_⟩
  · simp [loop]
  · simp [labelsStmts, labelsStmts_append, labelsStmt, Made.gotoUnless, Made.label, Made.goto]
  · intro e he
    rw [Setting.pass_madeLabel he, Setting.pass_cons, exec_gotoUnless hS,
      choose_onNormal, Flow.done_onNormal, Setting.pass_append, Setting.pass_append,
      Setting.pass_singleton rfl, Made.goto, exec_goto hS, Flow.jump_onNormal]
    rfl
  · have hsplit : Made.label o.provenance again :: (Made.gotoUnless o.provenance x (some exit) ::
        (body.toList ++ ([Made.goto o.provenance again] ++ [Made.label o.provenance exit]))) =
        (Made.label o.provenance again :: (Made.gotoUnless o.provenance x (some exit) ::
          (body.toList ++ [Made.goto o.provenance again]))) ++ [Made.label o.provenance exit] := by
      simp
    rw [hsplit, Setting.pass_seek_append, Setting.pass_madeLabel (.inr rfl), Setting.pass]
    simpa [labelsStmts, labelsStmts_append, labelsStmt, Made.gotoUnless, Made.label, Made.goto]
      using hexit

/-! ## Loops -/

/-- The parts of a list are the rounds of a loop: from its start, or from the label `again`, it tests
the condition and passes through its body, and at the label `exit` it is at its end. -/
structure Loops (S : Setting σ) (pc last : Nat) (x : Expr) (body : Flow σ) (exit again : Label)
    (labels : List (Option Label)) (part : Entry → Flow σ) : Prop where
  staysExit : Entry.staying? [] labels (some exit) = some (.seek (some exit))
  staysAgain : Entry.staying? [] labels (some again) = some (.seek (some again))
  round : ∀ e, e = .start ∨ e = .seek (some again) → part e = choose pc (truth S.ctx x)
    (body.onNormal (.done (.jump last (some again)))) (.done (.jump pc (some exit)))
  finished : part (.seek (some exit)) = .done .normal

/-- What a round of a loop has come to, whose meaning began in a configuration: the loop is at its
end, goes on with another round, or has been left. -/
inductive RoundEnds (S : Setting σ) (phrase : Phrase) (loop : Option (Label × Label))
    (mayReturn : Bool) (exit again : Label) (c : Config σ) : Outcome → Config σ → Prop where
  | finished {p : Nat} {d d' : Config σ} (hd : Runs S.ctx phrase c .normal d') (halike : Alike d d') :
    RoundEnds S phrase loop mayReturn exit again c (.jump p (some exit)) d
  | more {p : Nat} {d d' : Config σ}
    (hd : ∀ e d'', Runs S.ctx phrase d' e d'' → Runs S.ctx phrase c e d'') (halike : Alike d d') :
    RoundEnds S phrase loop mayReturn exit again c (.jump p (some again)) d
  | left {o : Outcome} {e : Ending} {d d' : Config σ} (hd : Runs S.ctx phrase c e d')
    (hmatch : Matches loop mayReturn o e) (halike : Alike d d') (ho : ∀ p l, o ≠ .jump p l) :
    RoundEnds S phrase loop mayReturn exit again c o d

namespace Loops

variable {loop : Option (Label × Label)} {mayReturn : Bool} {o' : Origin} {x : Expr} {b : Stmt}
  {body : Flow σ} {exit again : Label} {last : Nat} {labels : List (Option Label)}
  {part : Entry → Flow σ} {e₀ : Entry} {c c' d d' : Config σ}

/-- One round of the list is one round of the loop, or its end. -/
theorem round_ends (h : Loops S pc last x body exit again labels part)
    (hb : Sim (some (exit, again)) mayReturn body (Runs S.ctx (.one b)))
    (he : e₀ = .start ∨ e₀ = .seek (some again)) (hc : Alike c c') {o : Outcome}
    (hround : part e₀ c = some (o, d)) :
    RoundEnds S (.one (.while o' x b (some exit) (some again))) loop mayReturn exit again c' o d := by
  rw [h.round e₀ he] at hround
  obtain ⟨⟨r, m⟩, hm, hround⟩ := Option.bind_eq_some_iff.mp hround
  obtain ⟨m', hm', halike⟩ := hc.step (truth_steady S.ctx x) hm
  rcases r with g | _ | _
  · cases hround
    exact .left (.whileFails hm') .failed halike (by simp)
  · cases hround
    exact .finished (.whileDone hm') halike
  · rcases Flow.onNormal_eq_some.mp hround with ⟨k, hk, hround⟩ | ⟨hk, hne⟩
    · cases hround
      obtain ⟨e, k', hk', hmatch, hkk⟩ := hb.sound m m' _ _ halike hk
      cases hmatch
      exact .more (fun e d' h => .whileGoesOn hm' hk' rfl h) hkk
    · obtain ⟨e, k', hk', hmatch, hkk⟩ := hb.sound m m' _ d halike hk
      cases hmatch with
      | normal => exact absurd rfl hne
      | broke hloop =>
        cases hloop
        exact .finished (.whileLeft hm' hk' rfl) hkk
      | continued hloop =>
        cases hloop
        exact .more (fun e d' h => .whileGoesOn hm' hk' rfl h) hkk
      | returned hret => exact .left (.whileLeft hm' hk' rfl) (.returned hret) hkk (by simp)
      | failed => exact .left (.whileLeft hm' hk' rfl) .failed hkk (by simp)

/-- At its end the list is at its end. -/
theorem rounds_over (h : Loops S pc last x body exit again labels part) (c : Config σ) :
    S.rounds scope [] labels part (.seek (some exit)) c = some (.normal, c) := by
  refine Setting.rounds_end ?_ (by simp)
  rw [h.finished]
  rfl

/-- The rounds of the list are those of the loop, and their outcome is its ending. -/
theorem sound (h : Loops S pc last x body exit again labels part)
    (hb : Sim (some (exit, again)) mayReturn body (Runs S.ctx (.one b))) {n : Nat}
    (he : e₀ = .start ∨ e₀ = .seek (some again)) (hc : Alike c c') {o : Outcome}
    (hn : S.roundsUpTo scope [] labels part n e₀ c = some (o, d)) :
    ∃ e d', Runs S.ctx (.one (.while o' x b (some exit) (some again))) c' e d' ∧
      Matches loop mayReturn o e ∧ Alike d d' := by
  induction n generalizing c c' e₀ with
  | zero => cases hn
  | succ n ih =>
    obtain ⟨o₂, d₂, hround, hrest⟩ := Flow.andThen_eq_some.mp hn
    have hends : RoundEnds S (.one (.while o' x b (some exit) (some again))) loop mayReturn exit again
        c' o₂ d₂ := h.round_ends hb he hc hround
    cases hends with
    | @finished p _ k' hk' halike =>
      simp only [Setting.again, h.staysExit] at hrest
      have hover := Setting.rounds_eq_some.mpr ⟨n, hrest⟩
      rw [h.rounds_over] at hover
      cases hover
      exact ⟨.normal, k', hk', .normal, halike.leave ..⟩
    | more hstep halike =>
      simp only [Setting.again, h.staysAgain] at hrest
      obtain ⟨e, d', hd', hmatch, hd⟩ := ih (.inr rfl) (halike.leave ..) hrest
      exact ⟨e, d', hstep e d' hd', hmatch, hd⟩
    | left hd' hmatch halike ho =>
      have hend : some (o₂, d₂) = some (o, d) := by
        cases o₂ with
        | jump p l => exact absurd rfl (ho p l)
        | _ => exact hrest
      cases hend
      exact ⟨_, _, hd', hmatch, halike⟩

/-- The list jumps back where the body of the loop goes on. -/
theorem round_again (h : Loops S pc last x body exit again labels part)
    (hb : Sim (some (exit, again)) mayReturn body (Runs S.ctx (.one b)))
    (he : e₀ = .start ∨ e₀ = .seek (some again)) (hc : Alike c c') {m' : Config σ} {e : Ending}
    (htrue : truth S.ctx x c' = some (.ok true, m')) (hbody : Runs S.ctx (.one b) m' e d')
    (hgoes : e.goesOn = true) :
    ∃ p k, part e₀ c = some (.jump p (some again), k) ∧ Alike k d' := by
  obtain ⟨m, hm, halike⟩ := hc.symm.step (truth_steady S.ctx x) htrue
  obtain ⟨o₂, k, hk, hmatch, hkk⟩ := hb.complete m _ _ _ halike.symm hbody
  rw [h.round e₀ he]
  simp only [choose, hm, Option.bind_some]
  cases hmatch with
  | normal => exact ⟨last, k, Flow.onNormal_eq_some.mpr (.inl ⟨k, hk, rfl⟩), hkk⟩
  | continued hloop =>
    cases hloop
    exact ⟨_, k, Flow.onNormal_eq_some.mpr (.inr ⟨hk, by simp⟩), hkk⟩
  | broke | returned | failed => simp [Ending.goesOn] at hgoes

/-- The list is left, or jumps to its end, where the body of the loop leaves it. -/
theorem rounds_left (h : Loops S pc last x body exit again labels part)
    (hb : Sim (some (exit, again)) mayReturn body (Runs S.ctx (.one b)))
    (he : e₀ = .start ∨ e₀ = .seek (some again)) (hc : Alike c c') {m' : Config σ} {e : Ending}
    (htrue : truth S.ctx x c' = some (.ok true, m')) (hbody : Runs S.ctx (.one b) m' e d')
    (hgoes : e.goesOn = false) :
    ∃ o d, S.rounds scope [] labels part e₀ c = some (o, d) ∧ Matches loop mayReturn o e.ofLoop ∧
      Alike d d' := by
  obtain ⟨m, hm, halike⟩ := hc.symm.step (truth_steady S.ctx x) htrue
  obtain ⟨o₂, k, hk, hmatch, hkk⟩ := hb.complete m _ _ _ halike.symm hbody
  have hleft : o₂ ≠ .normal → part e₀ c = some (o₂, k) := by
    intro hne
    rw [h.round e₀ he]
    simp only [choose, hm, Option.bind_some]
    exact Flow.onNormal_eq_some.mpr (.inr ⟨hk, hne⟩)
  cases hmatch with
  | normal | continued => simp [Ending.goesOn] at hgoes
  | broke hloop =>
    cases hloop
    rw [Setting.rounds_jump_stay (hleft (by simp)) h.staysExit, h.rounds_over]
    exact ⟨.normal, _, rfl, .normal, hkk.leave ..⟩
  | returned hret =>
    exact ⟨_, k, Setting.rounds_end (hleft (by simp)) (by simp), .returned hret, hkk⟩
  | failed => exact ⟨_, k, Setting.rounds_end (hleft (by simp)) (by simp), .failed, hkk⟩

/-- The rounds of the loop are those of the list. -/
theorem complete (h : Loops S pc last x body exit again labels part)
    (hb : Sim (some (exit, again)) mayReturn body (Runs S.ctx (.one b)))
    (he : e₀ = .start ∨ e₀ = .seek (some again)) (hc : Alike c c') {e : Ending}
    (hd : Runs S.ctx (.one (.while o' x b (some exit) (some again))) c' e d') :
    ∃ o d, S.rounds scope [] labels part e₀ c = some (o, d) ∧ Matches loop mayReturn o e ∧
      Alike d d' := by
  generalize hphrase : Phrase.one (.while o' x b (some exit) (some again)) = p at hd
  induction hd generalizing c e₀ with
  | whileDone hm' =>
    cases hphrase
    obtain ⟨m, hm, halike⟩ := hc.symm.step (truth_steady S.ctx x) hm'
    have hjump : part e₀ c = some (.jump pc (some exit), m) := by
      rw [h.round e₀ he]
      simp [choose, hm, Flow.done]
    rw [Setting.rounds_jump_stay hjump h.staysExit, h.rounds_over]
    exact ⟨.normal, _, rfl, .normal, halike.symm.leave scope pc (some (S.label (some exit)))⟩
  | whileFails hm' =>
    cases hphrase
    obtain ⟨m, hm, halike⟩ := hc.symm.step (truth_steady S.ctx x) hm'
    refine ⟨.fail pc _, m, Setting.rounds_end ?_ (by simp), .failed, halike.symm⟩
    rw [h.round e₀ he]
    simp [choose, hm]
  | whileGoesOn hm' hbody hgoes _ _ ih =>
    cases hphrase
    obtain ⟨p, k, hjump, hkk⟩ := h.round_again hb he hc hm' hbody hgoes
    rw [Setting.rounds_jump_stay hjump h.staysAgain]
    exact ih (.inr rfl) (hkk.leave ..) rfl
  | whileLeft hm' hbody hgoes =>
    cases hphrase
    exact h.rounds_left hb he hc hm' hbody hgoes
  | _ => cases hphrase

end Loops

/-- A loop. -/
theorem sim_while (hS : S.observer = .silent) {loop : Option (Label × Label)} {mayReturn : Bool}
    {o o' : Origin} {x : Expr} {b : Stmt} {body : Option Stmt} {exit again : Label}
    (hb : Sim (some (exit, again)) mayReturn (S.pass scope (pc + 1) [] body.toList .start)
      (Runs S.ctx (.one b)))
    (hexit : some exit ∉ some again :: labelsStmts body.toList) :
    Sim loop mayReturn (S.exec scope pc near (Lowering.loop o x body exit again) .start)
      (Runs S.ctx (.one (.while o' x b (some exit) (some again)))) := by
  obtain ⟨ss, hlist, hlabels, hpart, hend⟩ := @pass_loop σ S scope pc near hS o x body exit again hexit
  have hloops : Loops S pc (pc + 1 + sizeStmts body.toList) x
      (S.pass scope (pc + 1) [] body.toList .start) exit again
      (some again :: labelsStmts body.toList ++ [some exit]) (S.pass scope pc near ss) :=
    ⟨by simp [Entry.staying?], by simp [Entry.staying?], hpart, hend⟩
  rw [hlist, Setting.exec, hlabels]
  constructor
  · intro c c' o d hc hd
    obtain ⟨n, hn⟩ := Setting.rounds_eq_some.mp hd
    exact hloops.sound hb (.inl rfl) hc hn
  · intro c c' e d' hc hd
    exact hloops.complete hb (.inl rfl) hc hd

/-! ## Branches -/

/-- Control that only leaves handlers has done nothing. -/
theorem sim_leave {loop : Option (Label × Label)} {mayReturn : Bool} (target : Option Nat) :
    Sim loop mayReturn (fun c : Config σ => some (.normal, c.leave scope pc target))
      fun c e d => e = .normal ∧ d = c where
  sound c c' o d hc hd := by
    cases hd
    exact ⟨.normal, c', ⟨rfl, rfl⟩, .normal, hc.leave ..⟩
  complete c c' e d' hc hd := by
    obtain ⟨rfl, rfl⟩ := hd
    exact ⟨.normal, _, rfl, .normal, hc.leave ..⟩

/-- A flow behind control that leaves handlers. -/
theorem sim_afterLeave {loop : Option (Label × Label)} {mayReturn : Bool} {flow : Flow σ}
    {meaning : Config σ → Ending → Config σ → Prop} (h : Sim loop mayReturn flow meaning)
    (target : Option Nat) :
    Sim loop mayReturn (fun c => flow (c.leave scope pc target)) meaning where
  sound _ c' o d hc hd := h.sound _ c' o d (hc.leave ..) hd
  complete _ c' e d' hc hd := h.complete _ c' e d' (hc.leave ..) hd

/-- A branch without else. -/
theorem sim_branch (hS : S.observer = .silent) {loop : Option (Label × Label)} {mayReturn : Bool}
    {o o' : Origin} {x : Expr} {t : Stmt} {t' : Option Stmt} {done : Label}
    (ht : Sim loop mayReturn (S.pass scope (pc + 1) [] t'.toList .start) (Runs S.ctx (.one t)))
    (hnodup : (labelsStmts t'.toList ++ [some done]).Nodup)
    (hapart : Apart loop (labelsStmts t'.toList ++ [some done])) :
    Sim loop mayReturn (S.exec scope pc near (branch o x t' done) .start)
      (Runs S.ctx (.one (.if o' x t .absent))) := by
  have hdone : some done ∉ labelsStmts t'.toList :=
    fun h => (List.nodup_append.mp hnodup).2.2 _ h _ (by simp) rfl
  rw [exec_branch hS o x t' done hdone fun c d p l h => ht.not_mem hapart h]
  refine (Sim.choose (truth_steady S.ctx x) ht (sim_leave _)).congr fun c e d => ?_
  rw [Runs.if_iff]
  simp

/-- A branch with two sides. -/
theorem sim_branches (hS : S.observer = .silent) {loop : Option (Label × Label)}
    {mayReturn : Bool} {o o' : Origin} {x : Expr} {t f : Stmt} {t' f' : Option Stmt}
    {otherwise done : Label} (hne : f ≠ .absent)
    (ht : Sim loop mayReturn (S.pass scope (pc + 1) [] t'.toList .start) (Runs S.ctx (.one t)))
    (hf : Sim loop mayReturn (S.pass scope (pc + 1 + sizeStmts t'.toList + 1) [some otherwise]
      f'.toList .start) (Runs S.ctx (.one f)))
    (hnodup : (labelsStmts t'.toList ++ some otherwise :: labelsStmts f'.toList ++
      [some done]).Nodup)
    (hapart : Apart loop (labelsStmts t'.toList ++ some otherwise :: labelsStmts f'.toList ++
      [some done])) :
    Sim loop mayReturn (S.exec scope pc near (branches o x t' f' otherwise done) .start)
      (Runs S.ctx (.one (.if o' x t f))) := by
  rw [exec_branches hS o x t' f' otherwise done hnodup
    (fun c d p l h => ht.not_mem hapart h) fun c d p l h => hf.not_mem hapart h]
  refine (Sim.choose (truth_steady S.ctx x) (ht.onNormal (sim_leave _))
    (sim_afterLeave hf _)).congr fun c e d => ?_
  rw [Runs.if_iff]
  simp only [hne, ne_eq, not_false_eq_true, true_and, false_and, or_false]
  have hside : ∀ m, ((∃ d', Runs S.ctx (.one t) m .normal d' ∧ e = .normal ∧ d = d') ∨
      (Runs S.ctx (.one t) m e d ∧ ¬ e = .normal)) ↔ Runs S.ctx (.one t) m e d := by
    intro m
    by_cases he : e = .normal
    · subst he
      simp
    · simp [he]
  simp only [hside]

/-! ## Tries -/

/-- The finally and the relation end alike: the finally comes to its end or fails. -/
structure Settles (act : Act σ Unit) (meaning : Config σ → Ending → Config σ → Prop) : Prop where
  sound : ∀ c c' r d, Alike c c' → act c = some (r, d) →
    ∃ d', meaning c' (.ofResult (fun _ => .normal) r) d' ∧ Alike d d'
  complete : ∀ c c' e d', Alike c c' → meaning c' e d' →
    ∃ r d, act c = some (r, d) ∧ e = .ofResult (fun _ => .normal) r ∧ Alike d d'

/-- A finally outside of loops that does not return. -/
theorem Sim.settles (hS : S.observer = .silent) {flow : Flow σ}
    {meaning : Config σ → Ending → Config σ → Prop} (h : Sim none false flow meaning) :
    Settles (S.settle scope flow) meaning where
  sound c c' r d hc hd := by
    obtain ⟨⟨o, m⟩, hm, hclose⟩ := Option.bind_eq_some_iff.mp hd
    obtain ⟨e, d', hd', hmatch, halike⟩ := h.sound c c' o m hc hm
    cases hmatch with
    | normal =>
      simp only [Setting.close, hS, Act.bind_apply] at hclose
      cases hclose
      exact ⟨d', hd', halike⟩
    | broke h => cases h
    | continued h => cases h
    | returned h => cases h
    | failed =>
      simp only [Setting.close, Act.bind_apply, leave_apply, Act.throw_apply] at hclose
      cases hclose
      exact ⟨d', hd', halike.leave ..⟩
  complete c c' e d' hc hd := by
    obtain ⟨o, m, hm, hmatch, halike⟩ := h.complete c c' e d' hc hd
    have hact : ∀ r d, (S.close scope (scope.stop - 1) o >>= requireDone S.method) m = some (r, d) →
        S.settle scope flow c = some (r, d) := by
      intro r d hr
      rw [Setting.settle, hm]
      exact hr
    cases hmatch with
    | normal =>
      refine ⟨.ok (), m, hact _ _ ?_, rfl, halike⟩
      simp only [Setting.close, hS, Act.bind_apply]
      rfl
    | broke h => cases h
    | continued h => cases h
    | returned h => cases h
    | @failed p f =>
      refine ⟨.error f, m.leave scope p none, hact _ _ ?_, rfl, halike.leave ..⟩
      simp only [Setting.close, Act.bind_apply, leave_apply, Act.throw_apply]

theorem Alike.handle {c d : Config σ} (h : Alike c d) (f : Failure) (handler : Machine.Handler) :
    Alike (c.handle scope pc f handler) (withCaughtValue d handler.target f) := by
  rw [h.eq_withHeld]
  obtain ⟨body, target⟩ := handler
  cases target with
  | none => rfl
  | some l =>
    rw [withCaughtValue, ← caughtValue_eq_received]
    rfl

/-- A try block whose failures a handler takes. -/
theorem Sim.handled (hS : S.observer = .silent) {loop : Option (Label × Label)} {mayReturn : Bool}
    {x handler : Flow σ} {meaning meaning' : Config σ → Ending → Config σ → Prop}
    {h : Machine.Handler} {rest : List Machine.Handler} {last behind : Nat}
    (hx : Sim loop mayReturn x meaning) (hhandler : Sim loop mayReturn handler meaning') :
    Sim loop mayReturn (x.andThen (S.exitTry scope (h :: rest) handler none last behind))
      fun c e d => (meaning c e d ∧ ∀ f, e ≠ .failed f) ∨
        ∃ f m, meaning c (.failed f) m ∧ meaning' (withCaughtValue m h.target f) e d where
  sound c c' o d hc hd := by
    obtain ⟨o₁, m, hm, hexit⟩ := Flow.andThen_eq_some.mp hd
    obtain ⟨e, m', hm', hmatch, halike⟩ := hx.sound c c' o₁ m hc hm
    cases hmatch with
    | normal =>
      simp only [Setting.exitTry, noting_silent hS, Setting.cleaning] at hexit
      cases hexit
      exact ⟨.normal, m', .inl ⟨hm', by simp⟩, .normal, halike.leave ..⟩
    | broke hloop =>
      cases hexit
      exact ⟨.broke, m', .inl ⟨hm', by simp⟩, .broke hloop, halike⟩
    | continued hloop =>
      cases hexit
      exact ⟨.continued, m', .inl ⟨hm', by simp⟩, .continued hloop, halike⟩
    | returned hret =>
      cases hexit
      exact ⟨_, m', .inl ⟨hm', by simp⟩, .returned hret, halike⟩
    | @failed p f =>
      obtain ⟨e, d', hd', hmatch, halike'⟩ := hhandler.sound _ _ o d (halike.handle f h) hexit
      exact ⟨e, d', .inr ⟨f, m', hm', hd'⟩, hmatch, halike'⟩
  complete c c' e d' hc hd := by
    rcases hd with ⟨hd', hne⟩ | ⟨f, m', hm', hd'⟩
    · obtain ⟨o, m, hm, hmatch, halike⟩ := hx.complete c c' e d' hc hd'
      cases hmatch with
      | normal =>
        refine ⟨.normal, m.leave scope last (some behind),
          Flow.andThen_eq_some.mpr ⟨_, m, hm, ?_⟩, .normal, halike.leave ..⟩
        simp only [Setting.exitTry, noting_silent hS]
        rfl
      | broke hloop =>
        exact ⟨_, m, Flow.andThen_eq_some.mpr ⟨_, m, hm, rfl⟩, .broke hloop, halike⟩
      | continued hloop =>
        exact ⟨_, m, Flow.andThen_eq_some.mpr ⟨_, m, hm, rfl⟩, .continued hloop, halike⟩
      | returned hret =>
        exact ⟨_, m, Flow.andThen_eq_some.mpr ⟨_, m, hm, rfl⟩, .returned hret, halike⟩
      | failed => exact absurd rfl (hne _)
    · obtain ⟨o, m, hm, hmatch, halike⟩ := hx.complete c c' _ m' hc hm'
      cases hmatch
      obtain ⟨o, d, hd, hmatch, halike'⟩ :=
        hhandler.complete _ _ e d' (halike.handle f h) hd'
      exact ⟨o, d, Flow.andThen_eq_some.mpr ⟨_, m, hm, hd⟩, hmatch, halike'⟩

section Finally

variable {loop : Option (Label × Label)} {mayReturn : Bool} {handler : Flow σ} {act : Act σ Unit}
  {last behind : Nat} {o : Outcome} {e : Ending}

theorem cleaning_ok {m k : Config σ} (hact : act m = some (.ok (), k)) (o : Outcome)
    (failed : Failure → Outcome) : Setting.cleaning (some act) o failed m = some (o, k) := by
  simp only [Setting.cleaning, hact, Option.map_some]

theorem cleaning_error {m k : Config σ} {g : Failure} (hact : act m = some (.error g, k))
    (o : Outcome) (failed : Failure → Outcome) :
    Setting.cleaning (some act) o failed m = some (failed g, k) := by
  simp only [Setting.cleaning, hact, Option.map_some]

/-- A finally behind an outcome takes it to the ending behind the finally. -/
theorem exitTry_finally (hS : S.observer = .silent) (h : Matches loop mayReturn o e)
    {m k : Config σ} {r : Except Failure Unit} (hact : act m = some (r, k)) :
    ∃ o' k' e', S.exitTry scope [] handler (some act) last behind o m = some (o', k') ∧
      e.behindFinally (.ofResult (fun _ => .normal) r) = some e' ∧
      Matches loop mayReturn o' e' ∧ Alike k' k := by
  cases r with
  | ok _ =>
    cases h with
    | normal =>
      refine ⟨.normal, k.leave scope last (some behind), .normal, ?_, rfl, .normal, .refl k⟩
      simp only [Setting.exitTry, noting_silent hS, Flow.andThen, cleaning_ok hact,
        Option.bind_some]
    | broke h => exact ⟨_, k, .broke, cleaning_ok hact _ _, rfl, .broke h, .refl k⟩
    | continued h => exact ⟨_, k, .continued, cleaning_ok hact _ _, rfl, .continued h, .refl k⟩
    | returned h => exact ⟨_, k, _, cleaning_ok hact _ _, rfl, .returned h, .refl k⟩
    | failed => exact ⟨_, k, _, cleaning_ok hact _ _, rfl, .failed, .refl k⟩
  | error g =>
    cases h with
    | normal =>
      refine ⟨.fail last g, k, .failed g, ?_, rfl, .failed, .refl k⟩
      simp only [Setting.exitTry, noting_silent hS, Flow.andThen, cleaning_error hact,
        Option.bind_some, Flow.done]
    | broke => exact ⟨_, k, .failed g, cleaning_error hact _ _, rfl, .failed, .refl k⟩
    | continued => exact ⟨_, k, .failed g, cleaning_error hact _ _, rfl, .failed, .refl k⟩
    | returned => exact ⟨_, k, .failed g, cleaning_error hact _ _, rfl, .failed, .refl k⟩
    | @failed _ f =>
      have hjoined : (Ending.failed f).behindFinally (.failed g) = some (.failed (f.append g)) := by
        rw [append_eq_together]
        rfl
      exact ⟨_, k, _, cleaning_error hact _ _, hjoined, .failed, .refl k⟩

/-- An outcome comes through a finally only if the finally ends. -/
theorem exitTry_finally_ends (hS : S.observer = .silent) (h : Matches loop mayReturn o e)
    {m : Config σ} {z : Outcome × Config σ}
    (hexit : S.exitTry scope [] handler (some act) last behind o m = some z) :
    ∃ r k, act m = some (r, k) := by
  cases hact : act m with
  | some p => exact ⟨p.1, p.2, rfl⟩
  | none =>
    cases h <;>
      simp [Setting.exitTry, noting_silent hS, Setting.cleaning, Flow.andThen, hact] at hexit

/-- A try block with a finally. -/
theorem Sim.finally (hS : S.observer = .silent) {x : Flow σ}
    {meaning meaning' : Config σ → Ending → Config σ → Prop}
    (hx : Sim loop mayReturn x meaning) (hact : Settles act meaning') :
    Sim loop mayReturn (x.andThen (S.exitTry scope [] handler (some act) last behind))
      fun c e d => ∃ e' e'' m, meaning c e' m ∧ meaning' m e'' d ∧
        e'.behindFinally e'' = some e where
  sound c c' o d hc hd := by
    obtain ⟨o₁, m, hm, hexit⟩ := Flow.andThen_eq_some.mp hd
    obtain ⟨e, m', hm', hmatch, halike⟩ := hx.sound c c' o₁ m hc hm
    obtain ⟨r, k, hk⟩ := exitTry_finally_ends hS hmatch hexit
    obtain ⟨k', hk', halike'⟩ := hact.sound m m' r k halike hk
    obtain ⟨o', d', e', hend, hbehind, hmatch', hd'⟩ := exitTry_finally hS hmatch hk
    rw [hend] at hexit
    cases hexit
    exact ⟨e', k', ⟨_, _, m', hm', hk', hbehind⟩, hmatch', hd'.trans halike'⟩
  complete c c' e d' hc hd := by
    obtain ⟨e₁, e₂, m', hm', hd', hbehind⟩ := hd
    obtain ⟨o₁, m, hm, hmatch, halike⟩ := hx.complete c c' e₁ m' hc hm'
    obtain ⟨r, k, hk, rfl, halike'⟩ := hact.complete m m' e₂ d' halike hd'
    obtain ⟨o', d, e', hend, hbehind', hmatch', hd⟩ := exitTry_finally hS hmatch hk
    rw [hbehind'] at hbehind
    cases hbehind
    exact ⟨o', d, Flow.andThen_eq_some.mpr ⟨o₁, m, hm, hend⟩, hmatch', hd.trans halike'⟩

end Finally

/-- The first handler. -/
theorem sim_catch (hS : S.observer = .silent) {loop : Option (Label × Label)} {mayReturn : Bool}
    {o : Origin} {target : Option Local} {body : Block} {rest : List Catch} {behind : Nat}
    {meaning : Config σ → Ending → Config σ → Prop}
    (h : Sim loop mayReturn (S.passBlock scope (pc + 1) [] body .start) meaning)
    (hapart : Apart loop (labelsBlock body)) :
    Sim loop mayReturn (S.execCatches scope pc behind (.mk o target body :: rest) .start)
      meaning := by
  have hbody : Sim loop mayReturn
      (S.rounds scope [] (labelsBlock body) (S.passBlock scope (pc + 1) [] body) .start) meaning :=
    h.rounds hapart .nil
  simp only [Setting.execCatches, Entry.enters, if_true]
  constructor
  · intro c c' o d hc hd
    obtain ⟨o₁, m, hm, hexit⟩ := Flow.andThen_eq_some.mp hd
    obtain ⟨e, d', hd', hmatch, halike⟩ := hbody.sound c c' o₁ m hc hm
    refine ⟨e, d', hd', ?_⟩
    cases hmatch with
    | normal =>
      simp only [Setting.exitCatch, hS] at hexit
      cases hexit
      exact ⟨.normal, halike⟩
    | broke h =>
      cases hexit
      exact ⟨.broke h, halike⟩
    | continued h =>
      cases hexit
      exact ⟨.continued h, halike⟩
    | returned h =>
      cases hexit
      exact ⟨.returned h, halike⟩
    | failed =>
      cases hexit
      exact ⟨.failed, halike⟩
  · intro c c' e d' hc hd
    obtain ⟨o₁, m, hm, hmatch, halike⟩ := hbody.complete c c' e d' hc hd
    have hexit : ∀ o d, S.exitCatch scope (pc + 1 + sizeBlock body) behind o₁ m = some (o, d) →
        (S.rounds scope [] (labelsBlock body) (S.passBlock scope (pc + 1) [] body) .start).andThen
          (S.exitCatch scope (pc + 1 + sizeBlock body) behind) c = some (o, d) :=
      fun o d h => Flow.andThen_eq_some.mpr ⟨o₁, m, hm, h⟩
    cases hmatch with
    | normal =>
      refine ⟨.normal, _, hexit _ _ rfl, .normal, ?_⟩
      rw [hS]
      exact halike
    | broke h => exact ⟨_, m, hexit _ _ rfl, .broke h, halike⟩
    | continued h => exact ⟨_, m, hexit _ _ rfl, .continued h, halike⟩
    | returned h => exact ⟨_, m, hexit _ _ rfl, .returned h, halike⟩
    | failed => exact ⟨_, m, hexit _ _ rfl, .failed, halike⟩

/-- A try with handlers. -/
theorem sim_tryCatch (hS : S.observer = .silent) {loop : Option (Label × Label)}
    {mayReturn : Bool} {o co : Origin} {target : Option Local} {body handler : Block}
    {rest : List Catch} {meaning meaning' : Config σ → Ending → Config σ → Prop}
    (hbody : Sim loop mayReturn (S.passBlock scope pc near body .start) meaning)
    (hhandler : Sim loop mayReturn (S.passBlock scope (behindBody pc body + 1) [] handler .start)
      meaning')
    (hapart : Apart loop (labelsBlock body)) (hapart' : Apart loop (labelsBlock handler))
    (hnear : Apart loop near) :
    Sim loop mayReturn
      (S.exec scope pc near (.try o body (.mk co target handler :: rest) .absent) .start)
      fun c e d => (meaning c e d ∧ ∀ f, e ≠ .failed f) ∨
        ∃ f m, meaning c (.failed f) m ∧ meaning' (withCaughtValue m target f) e d := by
  simp only [Setting.exec, Entry.enters, if_true, handlersAt, cleanupRange, Option.map_none]
  exact (hbody.rounds hapart hnear).handled hS (sim_catch hS hhandler hapart')

/-- A try with a finally. -/
theorem sim_tryFinally (hS : S.observer = .silent) {loop : Option (Label × Label)}
    {mayReturn : Bool} {o : Origin} {body cleanup : Block}
    {meaning meaning' : Config σ → Ending → Config σ → Prop} (hpresent : cleanup ≠ .absent)
    (hbody : Sim loop mayReturn (S.passBlock scope pc near body .start) meaning)
    (hcleanup : ∀ scope, Sim none false
      (S.passBlock scope (behindCatches pc body []) [] cleanup .start) meaning')
    (hapart : Apart loop (labelsBlock body)) (hnear : Apart loop near) :
    Sim loop mayReturn (S.exec scope pc near (.try o body [] cleanup) .start)
      fun c e d => ∃ e' e'' m, meaning c e' m ∧ meaning' m e'' d ∧
        e'.behindFinally e'' = some e := by
  cases cleanup with
  | absent => exact absurd rfl hpresent
  | mk fo locals ss =>
    simp only [Setting.exec, Entry.enters, if_true, handlersAt, cleanupRange, Option.map_some]
    exact (hbody.rounds hapart hnear).finally hS (((hcleanup _).rounds .none .none).settles hS)

/-! ## Statements, blocks and handlers -/

/-- The markers of a block do nothing. -/
theorem sim_markBlock (hS : S.observer = .silent) {loop : Option (Label × Label)}
    {mayReturn : Bool} {p : Provenance} {ss : List Stmt}
    {meaning : Config σ → Ending → Config σ → Prop}
    (h : Sim loop mayReturn (S.pass scope (pc + 1) [] ss .start) meaning) :
    Sim loop mayReturn (S.pass scope pc near (markBlock p ss) .start) meaning := by
  have hstart : ∀ near pc place rest, S.pass scope pc near
      (Made.sequencePoint (some p) place :: rest) .start = S.pass scope (pc + 1) [] rest .start := by
    intro near pc place rest
    rw [Setting.pass_cons, Made.sequencePoint, exec_sequencePoint hS, Flow.done_onNormal]
    rfl
  rw [markBlock, List.cons_append, hstart]
  split
  · rwa [List.append_nil]
  · rw [Setting.pass_append, hstart, Setting.pass, Flow.onNormal_done]
    exact h

theorem labelsStmts_markBlock (p : Provenance) (ss : List Stmt) :
    labelsStmts (markBlock p ss) = labelsStmts ss := by
  unfold markBlock
  split <;> simp [labelsStmts, labelsStmts_append, labelsStmt, Made.sequencePoint]

theorem labelsStmts_toList (s : Stmt) : labelsStmts (some s).toList = labelsStmt s := by
  simp [labelsStmts]

theorem pass_toList (s : Stmt) :
    S.pass scope pc near (some s).toList .start = S.exec scope pc near s .start :=
  Setting.pass_singleton rfl

theorem eval_declaration (ctx : Context σ) (o : Origin) (l : Local) (init : Expr) (c : Config σ) :
    eval ctx (.assignment o (.localRef o l) init) c =
      (eval ctx init c).map fun p => match p with
        | (.ok v, d) => (.ok v, withLocal d l v)
        | (.error f, d) => (.error f, d) := by
  rw [eval, Act.bind_apply]
  cases eval ctx init c with
  | none => rfl
  | some p =>
    obtain ⟨r, d⟩ := p
    cases r <;> rfl

/-- A declaration with a value is an assignment. -/
theorem sim_declaration (hS : S.observer = .silent) {loop : Option (Label × Label)}
    {mayReturn : Bool} {o o' : Origin} {l : Local} {init : Expr} (hinit : init ≠ .absent) :
    Sim loop mayReturn
      (S.exec scope pc near (.expression o (.assignment o (.localRef o l) init)) .start)
      (Runs S.ctx (.one (.localDeclaration o' l init))) := by
  rw [exec_expression hS]
  refine (Sim.effect (eval_steady S.ctx _) fun _ => .normal).congr fun c e d => ?_
  rw [Runs.declareWith_iff hinit, eval_declaration]
  constructor
  · rintro ⟨r, hr, rfl⟩
    obtain ⟨⟨r', m⟩, hm, heq⟩ := Option.map_eq_some_iff.mp hr
    cases r' with
    | ok v =>
      cases heq
      exact .inl ⟨v, m, hm, rfl, rfl⟩
    | error f =>
      cases heq
      exact .inr ⟨f, hm, rfl⟩
  · rintro (⟨v, m, hm, rfl, rfl⟩ | ⟨f, hm, rfl⟩)
    · exact ⟨.ok v, by rw [hm]; rfl, rfl⟩
    · exact ⟨.error f, by rw [hm]; rfl, rfl⟩

end Silent

section Statements

variable {S : Setting σ} {markers : Bool}

mutual

/-- A statement means what its lowered form does. -/
theorem sim_stmt (hS : S.observer = .silent) :
    ∀ {s : Stmt} {s' : Option Stmt} {loop : Option (Label × Label)} {mayReturn : Bool}
      {scope : Range} {pc : Nat} {near : List (Option Label)},
      Plain loop mayReturn s → WalkedStmt markers s s' → (labelsStmts s'.toList).Nodup →
      Apart loop (labelsStmts s'.toList) → Apart loop near →
      Sim loop mayReturn (S.pass scope pc near s'.toList .start) (Runs S.ctx (.one s))
  | .block b, s', loop, mayReturn, scope, pc, near, hplain, hwalked, hnodup, hapart, hnear => by
    obtain ⟨b', hb, rfl⟩ := hwalked
    rw [labelsStmts_toList] at hnodup hapart
    rw [pass_toList, Setting.exec]
    refine ((sim_block hS hplain hb hnodup hapart hnear).rounds hapart .nil).congr fun c e d => ?_
    cases b with
    | absent => exact hplain.elim
    | mk o locals ss => exact Runs.block_iff.symm
  | .noOp o, s', loop, mayReturn, scope, pc, near, hplain, hwalked, hnodup, hapart, hnear => by
    cases hwalked
    rw [labelsStmts_toList] at hapart
    rw [pass_toList, Setting.exec]
    refine (Sim.rounds ?_ hapart .nil).congr fun c e d => Runs.noOp_iff.symm
    simp only [emptyBlock, Setting.passBlock]
    split
    · simp only [Setting.pass]
      exact .done
    · rw [Setting.pass_singleton rfl, Made.sequencePoint, exec_sequencePoint hS]
      exact .done
  | .localDeclaration o l init, s', loop, mayReturn, scope, pc, near, hplain, hwalked, hnodup,
      hapart, hnear => by
    obtain ⟨rfl, rfl⟩ | ⟨hsound, rfl⟩ := hwalked
    · simp only [Option.toList_none, Setting.pass]
      exact Sim.done.congr fun c e d => Runs.declare_iff.symm
    · rw [pass_toList]
      refine sim_declaration hS ?_
      rintro rfl
      simp [soundExpr] at hsound
  | .expression o x, s', loop, mayReturn, scope, pc, near, hplain, hwalked, hnodup, hapart,
      hnear => by
    obtain ⟨-, rfl⟩ := hwalked
    rw [pass_toList, exec_expression hS]
    exact (Sim.effect (eval_steady S.ctx x) fun _ => .normal).congr fun c e d =>
      Runs.expression_iff.symm
  | .return o x, s', loop, mayReturn, scope, pc, near, hplain, hwalked, hnodup, hapart, hnear => by
    obtain ⟨-, rfl⟩ := hwalked
    rw [pass_toList, exec_return hS]
    exact (Sim.effect (evalReturned_steady S.ctx x) fun _ => .returned hplain).congr fun c e d =>
      Runs.return_iff.symm
  | .throw o x, s', loop, mayReturn, scope, pc, near, hplain, hwalked, hnodup, hapart, hnear => by
    obtain ⟨-, rfl⟩ := hwalked
    rw [pass_toList, exec_throw hS o hplain]
    exact (Sim.effect (eval_steady S.ctx x) fun _ => .failed).congr fun c e d =>
      (Runs.throw_iff hplain).symm
  | .break o l, s', loop, mayReturn, scope, pc, near, hplain, hwalked, hnodup, hapart, hnear => by
    cases hwalked
    obtain ⟨x, hloop, rfl⟩ := hplain
    rw [pass_toList, exec_goto hS]
    exact (Sim.jump (.broke hloop)).congr fun c e d => Runs.break_iff.symm
  | .continue o l, s', loop, mayReturn, scope, pc, near, hplain, hwalked, hnodup, hapart,
      hnear => by
    cases hwalked
    obtain ⟨x, hloop, rfl⟩ := hplain
    rw [pass_toList, exec_goto hS]
    exact (Sim.jump (.continued hloop)).congr fun c e d => Runs.continue_iff.symm
  | .if o x t f, s', loop, mayReturn, scope, pc, near, hplain, hwalked, hnodup, hapart,
      hnear => by
    obtain ⟨-, t', done, ht, ⟨rfl, rfl⟩ | ⟨f', otherwise, hf, rfl⟩⟩ := hwalked
    · rw [labelsStmts_toList, labelsStmt_branch] at hnodup hapart
      rw [pass_toList]
      have ht : Sim loop mayReturn (S.pass scope (pc + 1) [] t'.toList .start)
          (Runs S.ctx (.one t)) :=
        sim_stmt hS hplain.1 ht (List.nodup_append.mp hnodup).1 (Apart.append_iff.mp hapart).1 .nil
      exact sim_branch hS ht hnodup hapart
    · rw [labelsStmts_toList, labelsStmt_branches] at hnodup hapart
      have hne : f ≠ .absent := by
        rintro rfl
        exact hf
      have hparts := List.nodup_append.mp (List.nodup_append.mp hnodup).1
      have happ := Apart.append_iff.mp (Apart.append_iff.mp hapart).1
      have happ' := Apart.cons_iff.mp happ.2
      have ht : Sim loop mayReturn (S.pass scope (pc + 1) [] t'.toList .start)
          (Runs S.ctx (.one t)) :=
        sim_stmt hS hplain.1 ht hparts.1 happ.1 .nil
      have hf : Sim loop mayReturn (S.pass scope (pc + 1 + sizeStmts t'.toList + 1)
          [some otherwise] f'.toList .start) (Runs S.ctx (.one f)) :=
        sim_stmt hS (hplain.2.resolve_left hne) hf (List.nodup_cons.mp hparts.2.1).2 happ'.2 happ'.1
      rw [pass_toList]
      exact sim_branches hS hne ht hf hnodup hapart
  | .while o x body exit again, s', loop, mayReturn, scope, pc, near, hplain, hwalked, hnodup,
      hapart, hnear => by
    obtain ⟨-, body', exit, again, hbody, rfl, rfl, rfl⟩ := hwalked
    obtain ⟨_, _, hexit, hagain, hplain⟩ := hplain
    cases hexit
    cases hagain
    rw [labelsStmts_toList, labelsStmt_loop] at hnodup hapart
    have hexit : some exit ∉ some again :: labelsStmts body'.toList :=
      fun h => (List.nodup_append.mp hnodup).2.2 _ h _ (by simp) rfl
    have hcons := List.nodup_cons.mp (List.nodup_append.mp hnodup).1
    have hinside : Apart (some (exit, again)) (labelsStmts body'.toList) := by
      rintro x ⟨⟩
      exact ⟨fun h => hexit (List.mem_cons_of_mem _ h), hcons.1⟩
    have hbody : Sim (some (exit, again)) mayReturn (S.pass scope (pc + 1) [] body'.toList .start)
        (Runs S.ctx (.one body)) :=
      sim_stmt hS hplain hbody hcons.2 hinside .nil
    rw [pass_toList]
    exact sim_while hS hbody hexit
  | .try o body catches cleanup, s', loop, mayReturn, scope, pc, near, hplain, hwalked, hnodup,
      hapart, hnear => by
    obtain ⟨body', catches', cleanup', hbody, hcatches, hcleanup, rfl⟩ := hwalked
    obtain ⟨hplain, hplains, hform, hplainCleanup⟩ := hplain
    rw [labelsStmts_toList, labelsStmt_splitTry] at hnodup hapart
    obtain ⟨hbothNodup, hcleanupNodup, -⟩ := List.nodup_append.mp hnodup
    obtain ⟨hbodyNodup, hcatchesNodup, -⟩ := List.nodup_append.mp hbothNodup
    obtain ⟨hbothApart, hcleanupApart⟩ := Apart.append_iff.mp hapart
    obtain ⟨hbodyApart, hcatchesApart⟩ := Apart.append_iff.mp hbothApart
    have hbody : Sim loop mayReturn (S.passBlock scope pc near body' .start)
        (Runs S.ctx (.all body.statements)) :=
      sim_block hS hplain hbody hbodyNodup hbodyApart hnear
    have hfinally : cleanup ≠ .absent → ∀ scope pc, Sim none false
        (S.passBlock scope pc [] cleanup' .start) (Runs S.ctx (.all cleanup.statements)) := by
      intro hne scope pc
      exact sim_block hS (hplainCleanup.resolve_left hne)
        (hcleanup.resolve_left fun h => hne h.1) hcleanupNodup .none .nil
    rw [pass_toList]
    match catches, hcatches, hplains with
    | [], hcatches, hplains =>
      cases hcatches
      have hne : cleanup ≠ .absent := hform.resolve_left (by simp)
      have hne' : cleanup' ≠ .absent := (hcleanup.resolve_left fun h => hne h.1).present
      refine (sim_tryFinally hS hne' hbody (fun scope => hfinally hne scope _) hbodyApart
        hnear).congr fun c e d => ?_
      simp only [Runs.tryFinally_iff hne, Runs.unhandled_iff]
    | .mk co target handler :: rest, hcatches, hplains =>
      obtain ⟨handler', rest', hhandler, hrest, rfl⟩ := hcatches
      rw [labelsCatches] at hcatchesNodup hcatchesApart
      have hhandlerApart := (Apart.append_iff.mp hcatchesApart).1
      have hhandler : ∀ pc, Sim loop mayReturn (S.passBlock scope pc [] handler' .start)
          (Runs S.ctx (.all handler.statements)) := fun pc =>
        sim_block hS hplains.1 hhandler (List.nodup_append.mp hcatchesNodup).1 hhandlerApart .nil
      have hguarded : ∀ o, Sim loop mayReturn (S.exec scope pc near
          (.try o body' (.mk co target handler' :: rest') .absent) .start)
          (Runs S.ctx (.guarded body (.mk co target handler :: rest))) := fun o =>
        (sim_tryCatch hS hbody (hhandler _) hbodyApart hhandlerApart hnear).congr
          fun c e d => Runs.handled_iff.symm
      by_cases hne : cleanup = .absent
      · subst hne
        obtain ⟨-, rfl⟩ := hcleanup.resolve_right id
        exact (hguarded o).congr fun c e d => Runs.tryOnly_iff.symm
      · have hne' : cleanup' ≠ .absent := (hcleanup.resolve_left fun h => hne h.1).present
        have hinner : Sim loop mayReturn (S.passBlock scope pc near (Made.block o.provenance
            [.try o.asGenerated body' (.mk co target handler' :: rest') .absent]) .start)
            (Runs S.ctx (.guarded body (.mk co target handler :: rest))) := by
          rw [Made.block, Setting.passBlock, Setting.pass_singleton rfl]
          exact hguarded _
        rw [splitTry_both o body' _ (by simp) hne']
        refine (sim_tryFinally hS hne' hinner (fun scope => hfinally hne scope _) ?_
          hnear).congr fun c e d => (Runs.tryFinally_iff hne).symm
        simpa [labelsBlock, labelsStmts, labelsStmt, Made.block, labelsCatches] using hbothApart
  | .absent, s', loop, mayReturn, scope, pc, near, hplain, hwalked, hnodup, hapart, hnear
  | .list .., s', loop, mayReturn, scope, pc, near, hplain, hwalked, hnodup, hapart, hnear
  | .sequencePoint .., s', loop, mayReturn, scope, pc, near, hplain, hwalked, hnodup, hapart, hnear
  | .yieldReturn .., s', loop, mayReturn, scope, pc, near, hplain, hwalked, hnodup, hapart, hnear
  | .yieldBreak .., s', loop, mayReturn, scope, pc, near, hplain, hwalked, hnodup, hapart, hnear
  | .label .., s', loop, mayReturn, scope, pc, near, hplain, hwalked, hnodup, hapart, hnear
  | .goto .., s', loop, mayReturn, scope, pc, near, hplain, hwalked, hnodup, hapart, hnear
  | .conditionalGoto .., s', loop, mayReturn, scope, pc, near, hplain, hwalked, hnodup, hapart,
      hnear
  | .dispatch .., s', loop, mayReturn, scope, pc, near, hplain, hwalked, hnodup, hapart, hnear
  | .foreign .., s', loop, mayReturn, scope, pc, near, hplain, hwalked, hnodup, hapart, hnear => by
    exact hplain.elim

/-- Statements mean what their lowered forms do in order. -/
theorem sim_stmts (hS : S.observer = .silent) :
    ∀ {ss ss' : List Stmt} {loop : Option (Label × Label)} {mayReturn : Bool}
      {scope : Range} {pc : Nat} {near : List (Option Label)},
      PlainAll loop mayReturn ss → WalkedStmts markers ss ss' → (labelsStmts ss').Nodup →
      Apart loop (labelsStmts ss') → Apart loop near →
      Sim loop mayReturn (S.pass scope pc near ss' .start) (Runs S.ctx (.all ss))
  | [], ss', loop, mayReturn, scope, pc, near, hplain, hwalked, hnodup, hapart, hnear => by
    cases hwalked
    rw [Setting.pass]
    exact Sim.done.congr fun c e d => Runs.nil_iff.symm
  | s :: rest, ss', loop, mayReturn, scope, pc, near, hplain, hwalked, hnodup, hapart,
      hnear => by
    obtain ⟨s', rest', hs, hrest, rfl⟩ := hwalked
    rw [labelsStmts_append] at hnodup hapart
    rw [Apart.append_iff] at hapart
    have hparts := List.nodup_append.mp hnodup
    rw [Setting.pass_append]
    refine ((sim_stmt hS hplain.1 hs hparts.1 hapart.1 hnear).onNormal
      (sim_stmts hS hplain.2 hrest hparts.2.1 hapart.2 (hnear.followAll hapart.1))).congr
      fun c e d => Runs.cons_iff.symm

/-- A block means what its lowered form does. -/
theorem sim_block (hS : S.observer = .silent) :
    ∀ {b b' : Block} {loop : Option (Label × Label)} {mayReturn : Bool}
      {scope : Range} {pc : Nat} {near : List (Option Label)},
      PlainBlock loop mayReturn b → WalkedBlock markers b b' → (labelsBlock b').Nodup →
      Apart loop (labelsBlock b') → Apart loop near →
      Sim loop mayReturn (S.passBlock scope pc near b' .start) (Runs S.ctx (.all b.statements))
  | .absent, b', loop, mayReturn, scope, pc, near, hplain, hwalked, hnodup, hapart, hnear => by
    exact hplain.elim
  | .mk o locals ss, b', loop, mayReturn, scope, pc, near, hplain, hwalked, hnodup, hapart,
      hnear => by
    obtain ⟨ss', hss, ⟨-, rfl⟩ | ⟨-, p, -, -, rfl⟩⟩ := hwalked
    · exact sim_stmts hS hplain hss hnodup hapart hnear
    · simp only [labelsBlock, labelsStmts_markBlock] at hnodup hapart
      exact sim_markBlock hS (sim_stmts hS hplain hss hnodup hapart .nil)

end

end Statements

end Resumable.Lowering
