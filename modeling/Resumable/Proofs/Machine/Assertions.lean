import Resumable.Proofs.Machine.Agreement
import Resumable.Proofs.Machine.FlowLaws

/-!
# Assertions about structured execution

What a part of a body establishes, whichever way it is entered and left (`Spec`): an assertion for
its start and one for each label by which it can be entered, an assertion for its end, and
assertions for the ways that leave it (`Exits`).  Parts in a row share the assertion between them,
and rounds need that a jump which stays meets what holds at its label.
-/

set_option autoImplicit false

namespace Resumable.Machine

open Resumable.Symbol Resumable.Tree

variable {σ α : Type}

/-! ## Ends of flows -/

/-- From a configuration with the first property, every end of the flow has the second one. -/
def Flow.Meets (pre : Config σ → Prop) (x : Flow σ) (post : Outcome → Config σ → Prop) : Prop :=
  ∀ c, pre c → ∀ o d, x c = some (o, d) → post o d

namespace Flow.Meets

variable {pre : Config σ → Prop} {x : Flow σ} {mid post : Outcome → Config σ → Prop}

theorem done {o : Outcome} (h : ∀ c, pre c → post o c) : Meets pre (.done o) post := by
  intro c hc o' d hd
  cases hd
  exact h c hc

theorem andThen {k : Outcome → Flow σ} (hx : Meets pre x mid)
    (hk : ∀ o, Meets (mid o) (k o) post) : Meets pre (x.andThen k) post := by
  intro c hc o d hd
  obtain ⟨o', d', hd', hrest⟩ := Flow.andThen_eq_some.mp hd
  exact hk o' d' (hx c hc o' d' hd') o d hrest

theorem mono {pre' : Config σ → Prop} {post' : Outcome → Config σ → Prop}
    (h : Meets pre x post) (hpre : ∀ c, pre' c → pre c) (hpost : ∀ o c, post o c → post' o c) :
    Meets pre' x post' :=
  fun c hc o d hd => hpost o d (h c (hpre c hc) o d hd)

/-- A step of the machine, with what it keeps. -/
theorem effect {pc : Nat} {z : Act σ α} {k : α → Outcome}
    (hok : ∀ c a d, pre c → z c = some (.ok a, d) → post (k a) d)
    (herror : ∀ c f d, pre c → z c = some (.error f, d) → post (.fail pc f) d) :
    Meets pre (.effect pc z k) post := by
  intro c hc o d hd
  obtain ⟨⟨result, d'⟩, hz, heq⟩ := Option.map_eq_some_iff.mp hd
  cases result with
  | ok a =>
    cases heq
    exact hok c a d hc hz
  | error f =>
    cases heq
    exact herror c f d hc hz

end Flow.Meets

/-! ## Assertions for entries and exits -/

/-- What holds where a part is entered: `start` at its start, and `place l` at the label `l`. -/
def Entry.Holds (start : Config σ → Prop) (place : Option Label → Config σ → Prop) :
    Entry → Config σ → Prop
  | .start => start
  | .seek l => place l

/-- What holds where a part is left otherwise than by coming to its end.  It does not suspend. -/
structure Exits (σ : Type) where
  jump : Option Label → Config σ → Prop
  ret : Value → Config σ → Prop
  fail : Config σ → Prop
  stop : Config σ → Prop

namespace Exits

/-- What holds at an outcome, if `normal` holds at the end of the part. -/
def Ends (X : Exits σ) (normal : Config σ → Prop) : Outcome → Config σ → Prop
  | .normal, d => normal d
  | .jump _ l, d => X.jump l d
  | .ret _ v, d => X.ret v d
  | .fail _ _, d => X.fail d
  | .suspend .., _ => False
  | .stop _, d => X.stop d

/-- The ways out are allowed by other ones. -/
structure Within (X Y : Exits σ) : Prop where
  jump : ∀ l d, X.jump l d → Y.jump l d
  ret : ∀ v d, X.ret v d → Y.ret v d
  fail : ∀ d, X.fail d → Y.fail d
  stop : ∀ d, X.stop d → Y.stop d

theorem Within.refl (X : Exits σ) : X.Within X :=
  ⟨fun _ _ h => h, fun _ _ h => h, fun _ h => h, fun _ h => h⟩

theorem Ends.mono {X Y : Exits σ} (h : X.Within Y) {normal normal' : Config σ → Prop}
    (hnormal : ∀ d, normal d → normal' d) : ∀ o d, X.Ends normal o d → Y.Ends normal' o d
  | .normal, d, hd => hnormal d hd
  | .jump _ l, d, hd => h.jump l d hd
  | .ret _ v, d, hd => h.ret v d hd
  | .fail _ _, d, hd => h.fail d hd
  | .stop _, d, hd => h.stop d hd

end Exits

/-- The part with the labels, entered where `pre` or the assertion of a label holds, comes to its end
where `post` holds, or leaves by the given ways. -/
def Spec (X : Exits σ) (place : Option Label → Config σ → Prop) (labels : List (Option Label))
    (pre post : Config σ → Prop) (x : Entry → Flow σ) : Prop :=
  ∀ e, e.enters labels = true → (x e).Meets (e.Holds pre place) (X.Ends post)

namespace Spec

variable {X Y : Exits σ} {place : Option Label → Config σ → Prop} {labels : List (Option Label)}
  {pre mid post : Config σ → Prop} {x : Entry → Flow σ}

theorem mono (h : Spec X place labels pre post x) {pre' post' : Config σ → Prop}
    (hX : X.Within Y) (hpre : ∀ c, pre' c → pre c) (hpost : ∀ c, post c → post' c) :
    Spec Y place labels pre' post' x := by
  intro e he
  refine (h e he).mono ?_ (Exits.Ends.mono hX hpost)
  cases e with
  | start => exact hpre
  | seek l => exact fun c hc => hc

/-- More may be known where the labels of the part are reached. -/
theorem places (h : Spec X place labels pre post x) {place' : Option Label → Config σ → Prop}
    (hplace : ∀ l ∈ labels, ∀ c, place' l c → place l c) : Spec X place' labels pre post x := by
  intro e he
  refine (h e he).mono ?_ fun _ _ h => h
  cases e with
  | start => exact fun c hc => hc
  | seek l => exact hplace l (by simpa [Entry.enters] using he)

variable {S : Setting σ} {scope : Range} {pc : Nat} {near : List (Option Label)}

/-- A part without labels that does nothing. -/
theorem still {x : Entry → Flow σ} (hx : x .start = .done .normal) : Spec X place [] pre pre x := by
  intro e he
  cases e with
  | start =>
    rw [hx]
    exact .done fun c hc => hc
  | seek l => simp [Entry.enters] at he

/-- No statements. -/
theorem nil : Spec X place (labelsStmts []) pre pre (S.pass scope pc near []) :=
  still (by rw [Setting.pass])

/-- One statement and others behind it. -/
theorem cons {s : Stmt} {rest : List Stmt} {n : Nat} (hn : sizeStmt s = n)
    (hs : Spec X place (labelsStmt s) pre mid (S.exec scope pc near s))
    (hrest : Spec X place (labelsStmts rest) mid post
      (S.pass scope (pc + n) (follow near s) rest)) :
    Spec X place (labelsStmts (s :: rest)) pre post (S.pass scope pc near (s :: rest)) := by
  subst hn
  intro e he
  rw [Setting.pass]
  split
  · rename_i henters
    refine (hs e henters).andThen fun o => ?_
    cases o with
    | normal => exact hrest .start rfl
    | _ => exact .done fun c hc => hc
  · rename_i henters
    cases e with
    | start => exact absurd rfl henters
    | seek l =>
      refine hrest (.seek l) ?_
      simp only [Entry.enters, labelsStmts, List.mem_append, decide_eq_true_eq] at he henters ⊢
      exact he.resolve_left henters

/-- Rounds of a part, if what holds at a jump that stays holds where it goes. -/
theorem rounds (h : Spec X place labels pre post x)
    (hseek : ∀ p l d, l ∈ labels → X.jump l d → place l (d.leave scope p (some (S.label l))))
    (hnear : ∀ p l d, l ∈ near → X.jump l d → pre (d.leave scope p (some (S.label l)))) :
    Spec X place labels pre post (S.rounds scope near labels x) := by
  have hrounds : ∀ n e, e.enters labels = true →
      (S.roundsUpTo scope near labels x n e).Meets (e.Holds pre place) (X.Ends post) := by
    intro n
    induction n with
    | zero =>
      intro e _ c _ o d hd
      cases hd
    | succ n ih =>
      intro e he
      refine (h e he).andThen fun o => ?_
      cases o with
      | jump p l =>
        intro c hc o d hd
        cases hstay : Entry.staying? near labels l with
        | none =>
          simp only [Setting.again, hstay] at hd
          cases hd
          exact hc
        | some e' =>
          simp only [Setting.again, hstay] at hd
          unfold Entry.staying? at hstay
          split at hstay
          · rename_i hl
            cases hstay
            exact ih (.seek l) (by simpa [Entry.enters] using hl) _ (hseek p l c hl hc) o d hd
          · split at hstay
            · rename_i hl
              cases hstay
              exact ih .start rfl _ (hnear p l c hl hc) o d hd
            · cases hstay
      | _ => exact .done fun c hc => hc
  intro e he c hc o d hd
  obtain ⟨n, hn⟩ := Setting.rounds_eq_some.mp hd
  exact hrounds n e he c hc o d hn

/-- A list of statements. -/
theorem list {o : Origin} {ss : List Stmt}
    (h : Spec X place (labelsStmts ss) pre post (S.pass scope pc near ss))
    (hseek : ∀ p l d, X.jump l d → place l (d.leave scope p (some (S.label l)))) :
    Spec X place (labelsStmt (.list o ss)) pre post (S.exec scope pc near (.list o ss)) := by
  intro e he
  rw [Setting.exec]
  exact h.rounds (fun p l d _ hd => hseek p l d hd) (fun _ _ _ hl => absurd hl List.not_mem_nil) e he

/-- A block of statements. -/
theorem block {b : Block}
    (h : Spec X place (labelsBlock b) pre post (S.passBlock scope pc near b))
    (hseek : ∀ p l d, X.jump l d → place l (d.leave scope p (some (S.label l)))) :
    Spec X place (labelsStmt (.block b)) pre post (S.exec scope pc near (.block b)) := by
  intro e he
  rw [Setting.exec]
  exact h.rounds (fun p l d _ hd => hseek p l d hd) (fun _ _ _ hl => absurd hl List.not_mem_nil) e he

/-- A statement of one instruction, behind the note that is taken of it. -/
theorem leaf {s : Stmt} (hs : isLeaf s = true) (noted : Config σ → Prop)
    (hnote : ∀ c, pre c → noted (S.observer.note pc c))
    (h : (S.leaf pc s).Meets noted (X.Ends post)) :
    Spec X place (labelsStmt s) pre post (S.exec scope pc near s) := by
  intro e he
  rw [exec_leaf hs]
  cases e with
  | start => exact fun c hc o d hd => h _ (hnote c hc) o d hd
  | seek l =>
    rw [(flattenStmt_leaf hs pc).2.2] at he
    simp [Entry.enters] at he

/-- An expression that is executed for its effect. -/
theorem expression {o : Origin} {e : Expr} (he : S.observer.element? e = none)
    (noted : Config σ → Prop) (hnote : ∀ c, pre c → noted (S.observer.note pc c))
    (hok : ∀ c v d, noted c → eval S.ctx e c = some (.ok v, d) → post d)
    (herror : ∀ c f d, noted c → eval S.ctx e c = some (.error f, d) → X.fail d) :
    Spec X place (labelsStmt (.expression o e)) pre post (S.exec scope pc near (.expression o e)) := by
  refine leaf rfl noted hnote ?_
  rw [Setting.leaf, he]
  exact .effect hok herror

/-- A jump. -/
theorem goto {o : Origin} {l : Option Label} (hjump : ∀ c, pre c → X.jump l (S.observer.note pc c)) :
    Spec X place (labelsStmt (.goto o l)) pre post (S.exec scope pc near (.goto o l)) :=
  leaf rfl (X.jump l) hjump (.done fun _ hc => hc)

/-- A label: it is reached from the statement before it, or by a jump. -/
theorem label {o : Origin} {l : Option Label} (hpre : ∀ c, pre c → post c)
    (hplace : ∀ c, place l c → post c) :
    Spec X place (labelsStmt (.label o l)) pre post (S.exec scope pc near (.label o l)) := by
  intro e he
  rw [Setting.exec]
  cases e with
  | start => exact .done hpre
  | seek l' =>
    obtain rfl : l' = l := by simpa [Entry.enters, labelsStmt] using he
    exact .done hplace

end Spec

/-! ## Parts with one assertion -/

/-- The assertion is about the world and the instance alone. -/
def Steadfast (Q : Config σ → Prop) : Prop :=
  ∀ c d : Config σ, d.world = c.world → d.activation.this = c.activation.this → Q c → Q d

/-- The assertion outlasts the notes that are taken at the `n` positions from `pc` on. -/
def Setting.Outlasts (S : Setting σ) (Q : Config σ → Prop) (pc n : Nat) : Prop :=
  ∀ p, pc ≤ p → p < pc + n → ∀ c, Q c → Q (S.observer.note p c)

theorem Setting.Outlasts.part {S : Setting σ} {Q : Config σ → Prop} {pc n pc' n' : Nat}
    (h : S.Outlasts Q pc n) (hpc : pc ≤ pc') (hn : pc' + n' ≤ pc + n) : S.Outlasts Q pc' n' :=
  fun p hp hlt => h p (by omega) (by omega)

/-- The ways out of a part that returns nothing and in which one assertion holds throughout.  Its
jumps go to certain labels. -/
def Exits.steady (Q : Config σ → Prop) (goes : Option Label → Prop) (stops : Prop) : Exits σ where
  jump l d := goes l ∧ Q d
  ret _ _ := False
  fail := Q
  stop d := stops ∧ Q d

namespace Spec

variable {Q : Config σ → Prop} {goes : Option Label → Prop} {stops : Prop} {S : Setting σ}
  {scope : Range} {pc : Nat} {place : Option Label → Config σ → Prop}

/-- Whichever way a finally ends as a scope of its own, the assertion holds. -/
theorem settle (hQ : Steadfast Q) {x : Flow σ} (hx : x.Meets Q ((Exits.steady Q goes stops).Ends Q))
    (hnote : ∀ c, Q c → Q (S.observer.note (scope.stop - 1) c)) {c d : Config σ} (hc : Q c)
    {z : Except Failure Unit} (hd : S.settle scope x c = some (z, d)) : Q d := by
  obtain ⟨⟨o, d'⟩, ho, hd⟩ := Option.bind_eq_some_iff.mp hd
  have hout := hx c hc o d' ho
  cases o with
  | normal =>
    cases hd
    exact hnote d' hout
  | jump p l =>
    cases hd
    exact hQ d' _ rfl rfl hout.2
  | fail p f =>
    cases hd
    exact hQ d' _ rfl rfl hout
  | stop result =>
    rw [Setting.close, Act.bind_apply, Act.ofExcept_apply] at hd
    rcases result with f | (v | _ | _) <;> cases hd <;> exact hout.2
  | ret p v => exact hout.elim
  | suspend p v => exact hout.elim

/-- A finally on the way out. -/
theorem cleaning {clean : Option (Act σ Unit)} (hclean : ∀ act ∈ clean, ∀ c, Q c → ∀ z d,
    act c = some (z, d) → Q d) {o : Outcome} {failed : Failure → Outcome}
    {post : Outcome → Config σ → Prop} (hdone : ∀ d, Q d → post o d)
    (hfail : ∀ f d, Q d → post (failed f) d) :
    (Setting.cleaning clean o failed).Meets Q post := by
  intro c hc o' d hd
  cases clean with
  | none =>
    cases hd
    exact hdone c hc
  | some act =>
    obtain ⟨⟨z, d'⟩, hact, heq⟩ := Option.map_eq_some_iff.mp hd
    have hd' := hclean act rfl c hc z d' hact
    cases z with
    | ok _ =>
      cases heq
      exact hdone d hd'
    | error f =>
      cases heq
      exact hfail f d hd'

/-- A failure that is held is thrown again; the run stops if none is. -/
theorem rethrow (hQ : Steadfast Q) (hstops : stops) (o : Origin) :
    (S.leaf pc (.throw o .absent)).Meets Q ((Exits.steady Q goes stops).Ends Q) := by
  intro c hc out d hd
  change S.rethrow pc c = _ at hd
  unfold Setting.rethrow at hd
  cases hcaught : c.activation.caught with
  | nil =>
    rw [hcaught] at hd
    cases hd
    exact ⟨hstops, hc⟩
  | cons held rest =>
    rw [hcaught] at hd
    cases hd
    exact hQ c _ rfl rfl hc

/-- What becomes of the end of a try block. -/
theorem exitTry (hQ : Steadfast Q) {handlers : List Handler} {handler : Flow σ}
    (hhandler : handler.Meets Q ((Exits.steady Q goes stops).Ends Q)) {clean : Option (Act σ Unit)}
    (hclean : ∀ act ∈ clean, ∀ c, Q c → ∀ z d, act c = some (z, d) → Q d) {last : Nat}
    (hlast : ∀ c, Q c → Q (S.observer.note last c)) (behind : Nat) (o : Outcome) :
    (S.exitTry scope handlers handler clean last behind o).Meets
      ((Exits.steady Q goes stops).Ends Q o) ((Exits.steady Q goes stops).Ends Q) := by
  cases o with
  | normal =>
    have hcleaned : (Setting.cleaning clean .normal (.fail last)).Meets Q
        ((Exits.steady Q goes stops).Ends Q) :=
      cleaning hclean (fun d hd => hd) fun _ d hd => hd
    intro c hc o d hd
    simp only [Setting.exitTry, Setting.noting] at hd
    refine hcleaned.andThen (fun o => ?_) _ (hlast c hc) o d hd
    cases o with
    | normal =>
      intro c hc o d hd
      cases hd
      exact hQ c _ rfl rfl hc
    | _ => exact .done fun c hc => hc
  | jump p l =>
    exact fun c hc => cleaning hclean (fun d hd => ⟨hc.1, hd⟩) (fun _ d hd => hd) c hc.2
  | fail p f =>
    cases handlers with
    | nil => exact cleaning hclean (fun d hd => hd) fun _ d hd => hd
    | cons h rest => exact fun c hc => hhandler _ (hQ c _ rfl rfl hc)
  | stop result => exact .done fun c hc => hc
  | ret p v => exact fun c hc => hc.elim
  | suspend p v => exact fun c hc => hc.elim

/-- What becomes of the end of a handler. -/
theorem exitCatch (hQ : Steadfast Q) {last : Nat} (hnote : S.Outlasts Q last 2) (behind : Nat)
    (o : Outcome) : (S.exitCatch scope last behind o).Meets
      ((Exits.steady Q goes stops).Ends Q o) ((Exits.steady Q goes stops).Ends Q) := by
  cases o with
  | normal =>
    intro c hc o d hd
    cases hd
    refine hQ (S.observer.note (last + 1) _) _ rfl rfl ?_
    refine hnote (last + 1) (by omega) (by omega) _ ?_
    exact hQ (S.observer.note last c) _ rfl rfl (hnote last (by omega) (by omega) c hc)
  | _ => exact .done fun c hc => hc

/-- Handlers, if those behind the first one are no others. -/
theorem handlers {o : Origin} {l : Option Local} {body : Block} {rest : List Catch}
    (hQ : Steadfast Q) (hnote : S.Outlasts Q pc (sizeCatches (.mk o l body :: rest)))
    (hplace : ∀ l d, goes l → Q d → place l d) {behind : Nat}
    (hbody : Spec (.steady Q goes stops) place (labelsBlock body) Q Q
      (S.passBlock scope (pc + 1) [] body))
    (hrest : Spec (.steady Q goes stops) place (labelsCatches rest) Q Q
      (S.execCatches scope (pc + sizeBlock body + 3) behind rest)) :
    Spec (.steady Q goes stops) place (labelsCatches (.mk o l body :: rest)) Q Q
      (S.execCatches scope pc behind (.mk o l body :: rest)) := by
  intro e he
  rw [sizeCatches] at hnote
  rw [Setting.execCatches]
  split
  · rename_i henters
    have hrounds : Spec (.steady Q goes stops) place (labelsBlock body) Q Q
        (S.rounds scope [] (labelsBlock body) (S.passBlock scope (pc + 1) [] body)) :=
      hbody.rounds (fun p l d _ hd => hplace l _ hd.1 (hQ d _ rfl rfl hd.2))
        (fun _ _ _ hl => absurd hl List.not_mem_nil)
    exact (hrounds e henters).andThen fun o =>
      exitCatch hQ (hnote.part (by omega) (by omega)) behind o
  · rename_i henters
    refine hrest e ?_
    cases e with
    | start => exact absurd rfl henters
    | seek l =>
      simp only [Entry.enters, labelsCatches, List.mem_append, decide_eq_true_eq] at he henters ⊢
      exact he.resolve_left henters

/-- A try.  Where one of the labels in its finally is reached, stopping has to be allowed, and then
it is enough to know how the finally goes on from there. -/
theorem tried {o : Origin} {body cleanup : Block} {catches : List Catch}
    {near : List (Option Label)} (hQ : Steadfast Q)
    (hnote : S.Outlasts Q pc (sizeStmt (.try o body catches cleanup)))
    (hplace : ∀ l d, goes l → Q d → place l d)
    (hbody : Spec (.steady Q goes stops) place (labelsBlock body) Q Q
      (S.passBlock scope pc near body))
    (hcatches : Spec (.steady Q goes stops) place (labelsCatches catches) Q Q
      (S.execCatches scope (behindBody pc body) (behindTry pc body catches cleanup) catches))
    {goes' : Option Label → Prop} {stops' : Prop}
    (hclean : ∀ range, (S.rounds range [] (labelsBlock cleanup) (S.passBlock range
      (behindCatches pc body catches) [] cleanup) .start).Meets Q
        ((Exits.steady Q goes' stops').Ends Q))
    (hinto : ∀ l ∈ labelsBlock cleanup, ∀ d, place l d → stops)
    (hseek : stops → Spec (.steady Q goes stops) place (labelsBlock cleanup) Q Q
      (S.passBlock scope (behindCatches pc body catches) [] cleanup)) :
    Spec (.steady Q goes stops) place (labelsStmt (.try o body catches cleanup)) Q Q
      (S.exec scope pc near (.try o body catches cleanup)) := by
  have hlast : ∀ p, p < sizeBlock body + 1 + sizeCatches catches + sizeCleanup cleanup →
      ∀ c, Q c → Q (S.observer.note (pc + p) c) := fun p hp =>
    hnote (pc + p) (by omega) (by rw [sizeStmt]; omega)
  have hend : cleanup ≠ .absent →
      ∀ c, Q c → Q (S.observer.note (behindCatches pc body catches + sizeBlock cleanup) c) := by
    cases cleanup with
    | absent => exact fun h => absurd rfl h
    | mk o' locals ss =>
      intro _
      rw [behindCatches, behindBody, show pc + sizeBlock body + 1 + sizeCatches catches +
        sizeBlock (.mk o' locals ss) = pc + (sizeBlock body + 1 + sizeCatches catches +
          sizeBlock (.mk o' locals ss)) by omega]
      exact hlast _ (by simp only [sizeBlock, sizeCleanup]; omega)
  have hstays : ∀ p l d, (Exits.steady Q goes stops).jump l d → place l (d.leave scope p
      (some (S.label l))) := fun p l d hd => hplace l _ hd.1 (hQ d _ rfl rfl hd.2)
  intro e he
  rw [Setting.exec]
  split
  · rename_i henters
    have hrounds : Spec (.steady Q goes stops) place (labelsBlock body) Q Q
        (S.rounds scope near (labelsBlock body) (S.passBlock scope pc near body)) :=
      hbody.rounds (fun p l d _ hd => hstays p l d hd) fun p l d _ hd => hQ d _ rfl rfl hd.2
    refine (hrounds e henters).andThen fun o => exitTry hQ (hcatches .start rfl) ?_
      (hlast _ (by omega)) _ o
    intro act hact c hc z d hd
    cases cleanup with
    | absent => cases hact
    | mk o' locals ss =>
      obtain ⟨range, hrange, rfl⟩ := Option.map_eq_some_iff.mp hact
      cases hrange
      refine settle hQ (hclean _) (fun c hc => ?_) hc hd
      exact hend (by simp) c hc
  · split
    · rename_i henters
      exact hcatches e henters
    · rename_i hbodyLabels hcatchesLabels
      cases e with
      | start => exact absurd rfl hbodyLabels
      | seek l =>
        have hl : l ∈ labelsBlock cleanup := by
          simp only [Entry.enters, decide_eq_true_eq] at hbodyLabels hcatchesLabels
          simp only [Entry.enters, labelsStmt, List.mem_append, decide_eq_true_eq] at he
          exact he.resolve_left fun h => h.elim hbodyLabels hcatchesLabels
        have hpresent : cleanup ≠ .absent := by
          rintro rfl
          cases hl
        intro c hc
        have hstops := hinto l hl c hc
        have hrounds : Spec (.steady Q goes stops) place (labelsBlock cleanup) Q Q
            (S.rounds scope [] (labelsBlock cleanup) (S.passBlock scope
              (behindCatches pc body catches) [] cleanup)) :=
          (hseek hstops).rounds (fun p l d _ hd => hstays p l d hd) fun _ _ _ hl =>
            absurd hl List.not_mem_nil
        refine (hrounds (.seek l) (by simpa [Entry.enters] using hl)).andThen (fun o => ?_) c hc
        cases o with
        | normal =>
          intro c hc o d hd
          cases hd
          exact ⟨hstops, hend hpresent c hc⟩
        | _ => exact .done fun c hc => hc

end Spec

end Resumable.Machine
