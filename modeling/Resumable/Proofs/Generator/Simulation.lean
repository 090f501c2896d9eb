import Resumable.Proofs.Generator.Pieces

/-!
# A state machine does what the generator does

What a state machine has in the place of a part of a generator answers the part, however the two are
entered (`answers_block`).  The induction is on the lowered body: the pieces that the machine has of
its own stand for suspensions and frames, and everything else is on both sides.  It is used for the
body of the method that resumes and for the methods of the finallys, which are parts without
suspensions.
-/

set_option autoImplicit false

namespace Resumable.StateMachine

open Resumable.Symbol Resumable.Tree Resumable.Source Resumable.Lowering
open Resumable.Machine hiding Region Handler Outcome

variable {σ : Type}

/-! ## Parts side by side -/

/-- The call of the finally of a frame executes its body, and what it is executed with faces the
generator. -/
def Performs (P : Pairing σ) (plan : Plan) (base : Nat) (X : Setting σ) (call : Caller σ)
    (f : Frame) : Prop :=
  ∃ (Z : Setting σ) (scope : Range), Facing P plan base X Z ∧
    ∀ w, call f.cleanup.symbol (some P.ref) [] w = (Z.execBody scope f.cleanup.body .start
      ⟨{ this := some P.ref, args := [] }, w⟩).map Outcome.shown

/-- The finally of the frame is a method of the machine, for the method that resumes and for the
disposal. -/
structure Loaded (P : Pairing σ) (plan : Plan) (base : Nat) (X Y : Setting σ) (f : Frame) : Prop where
  own : f.cleanup.symbol.isHost = false
  calls : Performs P plan base X Y.ctx.call f
  disposes : Performs P plan base X P.clean f

/-- What a part of the generator and a part of the machine are executed with, and where they stand:
`places` are the positions of the generator's labels, if
there is a suspension inside. -/
structure Opposite (P : Pairing σ) (plan : Plan) (base : Nat) (X Y : Setting σ) (st : Int)
    (c : Contents) (J : Jumps) (near nearX nearY loose labels labels' : List (Option Label))
    (places : List (Option Label × Nat)) : Prop where
  facing : Facing P plan base X Y
  loaded : ∀ f ∈ Frame.preorderAll c.children, Loaded P plan base X Y f
  nodup : (st :: c.states).Nodup
  lands : Lands J loose labels labels'
  near : Nearby J near nearX nearY
  apart : ∀ l ∈ nearX, l ∉ labels
  labelled : c = {} ∨ Labelled X places

section Parts

variable {P : Pairing σ} {plan : Plan} {base : Nat} {X Y : Setting σ} {st : Int} {c : Contents}
  {J : Jumps} {near nearX nearY loose labels labels' : List (Option Label)}
  {places : List (Option Label × Nat)} {strays : List Local}

namespace Opposite

variable {a b : Contents} {xs ys ls ms ls' ms' : List (Option Label)}
  {ps qs : List (Option Label × Nat)}

/-- The first of two parts. -/
theorem head (h : Opposite P plan base X Y st (a.append b) J near nearX nearY (xs ++ ys) (ls ++ ms)
    (ls' ++ ms') (ps ++ qs)) (hy : ∀ l ∈ ys, l ∈ ms) (hy' : ∀ l ∈ ys, l ∈ ms') :
    Opposite P plan base X Y st a J near nearX nearY xs ls ls' ps where
  facing := h.facing
  loaded f hf := h.loaded f (by
    rw [Contents.append, Frame.preorderAll_append]
    exact List.mem_append_left _ hf)
  nodup := by
    have hperm := ((Contents.states_append a b).cons st).nodup_iff.mp h.nodup
    exact hperm.sublist ((List.sublist_append_left _ _).cons_cons st)
  lands := h.lands.head hy hy'
  near := h.near
  apart l hl hmem := h.apart l hl (List.mem_append_left _ hmem)
  labelled := h.labelled.imp (fun h => (Contents.append_eq_empty h.symm).1)
    fun h => (Labelled.append.mp h).1

/-- The second of two parts, which stands behind the first one. -/
theorem tail (h : Opposite P plan base X Y st (a.append b) J near nearX nearY (xs ++ ys) (ls ++ ms)
    (ls' ++ ms') (ps ++ qs)) (hx : ∀ l ∈ xs, l ∈ ls) (hx' : ∀ l ∈ xs, l ∈ ls')
    {near' nearX' nearY' : List (Option Label)} (hnear : Nearby J near' nearX' nearY')
    (hfollow : ∀ l ∈ nearX', l ∈ nearX ∨ l ∈ ls) :
    Opposite P plan base X Y st b J near' nearX' nearY' ys ms ms' qs where
  facing := h.facing
  loaded f hf := h.loaded f (by
    rw [Contents.append, Frame.preorderAll_append]
    exact List.mem_append_right _ hf)
  nodup := by
    have hperm := ((Contents.states_append a b).cons st).nodup_iff.mp h.nodup
    exact hperm.sublist ((List.sublist_append_right _ _).cons_cons st)
  lands := h.lands.tail hx hx'
  near := hnear
  apart l hl hmem := by
    rcases hfollow l hl with hl | hl
    · exact h.apart l hl (List.mem_append_right _ hmem)
    · exact (List.nodup_append.mp h.lands.nodup).2.2 l hl l hmem rfl
  labelled := h.labelled.imp (fun h => (Contents.append_eq_empty h.symm).2)
    fun h => (Labelled.append.mp h).2

/-- A part without suspensions. -/
theorem plain (hfacing : Facing P plan base X Y) (hlands : Lands J loose labels labels')
    (hnear : Nearby J near nearX nearY) (hapart : ∀ l ∈ nearX, l ∉ labels) :
    Opposite P plan base X Y st {} J near nearX nearY loose labels labels' places :=
  ⟨hfacing, fun _ hf => absurd hf List.not_mem_nil, List.nodup_singleton st, hlands, hnear, hapart,
    .inl rfl⟩

/-- The code inside of a frame. -/
theorem inside {f : Frame} {o ob : Origin} {body body' cleanup : Block} {start : Label}
    {routes : List Route} {ways : List Stmt} {pc k n : Nat}
    (h : Opposite P plan base X Y st ⟨[], [f]⟩ J near nearX nearY []
      (labelsStmt (.try o body [] cleanup))
      (labelsStmt (region plan o ob f start body'.statements ways))
      (flattenStmt pc (.try o body [] cleanup)).labels)
    (hways : Behind o.provenance ⟨f, routes⟩ ways)
    (hbears : Bears ⟨f.suspensions, f.children⟩ loose (labelsBlock body') k n)
    (hloose : ∀ l ∈ loose, l ∈ labelsBlock body) :
    Opposite P plan base X Y f.state ⟨f.suspensions, f.children⟩ (insideFrame J near loose routes) []
      nearX [some start] loose (labelsBlock body) (labelsBlock body') (flattenBlock pc body).labels := by
  have hnodup' := h.lands.nodup'
  rw [labels_region] at hnodup'
  obtain ⟨hstart, hnodup'⟩ := List.nodup_cons.mp (List.nodup_cons.mp hnodup').2
  obtain ⟨hbody', -, hapart⟩ := List.nodup_append.mp hnodup'
  have hmem : ∀ l ∈ labelsBlock body, l ∈ labelsStmt (.try o body [] cleanup) := fun l hl =>
    List.mem_append_left _ (List.mem_append_left _ hl)
  have hproxy : ∀ x ∈ routes, some x.proxy ∈ labelsStmts ways := fun x hx => hways.proxy_mem hx
  refine ⟨h.facing, fun g hg => h.loaded g ?_, ?_, ⟨?_, ?_, ?_, hbody'⟩, ?_, ?_, ?_⟩
  · obtain ⟨state, entry, method, suspensions, children⟩ := f
    simp only [Frame.preorderAll, Frame.preorder, List.append_nil]
    exact List.mem_cons_of_mem _ hg
  · have hlive : f.liveStates.Nodup := by
      simpa [Contents.states, Frame.liveStatesAll] using (List.nodup_cons.mp h.nodup).2
    rwa [Frame.liveStates_eq] at hlive
  · rintro l k ⟨⟨rfl, hl⟩ | ⟨x, hx, rfl, hJ⟩, -⟩ hmem'
    · exact ⟨rfl, hl⟩
    · exact absurd (h.lands.first l _ hJ (hmem l hmem')).2 List.not_mem_nil
  · rintro l k ⟨⟨rfl, hl⟩ | ⟨x, hx, rfl, hJ⟩, -⟩ hmem'
    · exact ⟨rfl, hl⟩
    · exact absurd rfl (hapart _ hmem' _ (hproxy x hx))
  · exact (List.nodup_append.mp (List.nodup_append.mp h.lands.nodup).1).1
  · rintro l k ⟨⟨rfl, hl⟩ | ⟨x, hx, rfl, hJ⟩, hnear⟩
    · refine ⟨⟨fun hn => ?_, fun hn => absurd hn List.not_mem_nil⟩,
        ⟨fun hn => ?_, fun hn => absurd hn List.not_mem_nil⟩⟩
      · exact absurd (hmem k (hloose k hl)) (h.apart k hn)
      · rw [List.mem_singleton.mp hn] at hl
        exact absurd (List.mem_append_left _ (hbears.loose _ hl)) hstart
    · refine ⟨⟨fun hn => ?_, fun hn => absurd hn List.not_mem_nil⟩,
        ⟨fun hn => ?_, fun hn => absurd hn List.not_mem_nil⟩⟩
      · exact absurd ((h.near l _ hJ).1.mp hn) hnear
      · exact absurd (List.mem_append_right _ (List.mem_singleton.mp hn ▸ hproxy x hx)) hstart
  · exact fun l hl hmem' => h.apart l hl (hmem l hmem')
  · refine .inr fun x hx => h.labelled.resolve_left (by simp) x ?_
    simp only [flattenStmt, Fragment.append_labels]
    simp [hx]

end Opposite

namespace Answering

variable {x y : Entry → Flow σ}

/-- Parts that only control at their start comes to, and that are matched. -/
theorem of_matched (h : ∀ a d, P.Has strays st a d →
    Matched (P.Has strays st) J (x .start a) (y .start d)) :
    Answering P base J strays [] st {} x y := by
  intro e e' s hmeets a d had
  cases hmeets with
  | start => exact .of_matched (h a d had) List.not_mem_nil
  | seek hl => cases hl
  | resume hx => cases hx
  | entry hf => cases hf

/-- Rounds of parts that answer each other. -/
theorem rounds (h : Answering P base J strays loose st c x y) (hlands : Lands J loose labels labels')
    (hloose : ∀ l ∈ loose, l ∈ labels ∧ l ∈ labels') (hnear : Nearby J near nearX nearY)
    (scope scope' : Range) :
    Answering P base (Answers.leaving J nearX labels) strays loose st c
      (X.rounds scope nearX labels x) (Y.rounds scope' nearY labels' y) := by
  intro e e' s hmeets a d had
  refine Answers.rounds (fun l k hJ => ?_) (h e e' s hmeets a d had)
  obtain ⟨hfirst, hsecond⟩ := hnear l k hJ
  by_cases hl : l ∈ loose
  · obtain ⟨hmem, hmem'⟩ := hloose l hl
    obtain ⟨rfl, -⟩ := hlands.first l k hJ hmem
    refine .inr ⟨.seek k, .seek k, ?_, ?_, fun a d had => h _ _ _ (.seek hl) a d had⟩
    · rw [Entry.staying?, if_pos hmem]
    · rw [Entry.staying?, if_pos hmem']
  · have hmem : l ∉ labels := fun hmem => hl (hlands.first l k hJ hmem).2
    have hmem' : k ∉ labels' := fun hmem => hl (hlands.second l k hJ hmem).2
    by_cases hl' : l ∈ near
    · refine .inr ⟨.start, .start, ?_, ?_, fun a d had => h _ _ _ .start a d had⟩
      · rw [Entry.staying?, if_neg hmem, if_pos (hfirst.mpr hl')]
      · rw [Entry.staying?, if_neg hmem', if_pos (hsecond.mpr hl')]
    · exact .inl ⟨Entry.staying?_eq_none.mpr ⟨hmem, fun hn => hl' (hfirst.mp hn)⟩,
        Entry.staying?_eq_none.mpr ⟨hmem', fun hn => hl' (hsecond.mp hn)⟩⟩

theorem mono {J' : Jumps} (h : Answering P base J strays loose st c x y)
    (hJ : ∀ l k, J l k → J' l k) : Answering P base J' strays loose st c x y :=
  fun e e' s hmeets a d had => (h e e' s hmeets a d had).mono hJ (fun _ hl => hl) (.refl _ _)

/-- A list of statements or a block. -/
theorem several (h : Answering P base J strays loose st c x y) (hlands : Lands J loose labels labels')
    (hloose : ∀ l ∈ loose, l ∈ labels ∧ l ∈ labels') (scope scope' : Range) :
    Answering P base J strays loose st c (X.rounds scope [] labels x) (Y.rounds scope' [] labels' y) :=
  (h.rounds hlands hloose (.nil J) scope scope').mono fun _ _ hJ => hJ.1

/-- A statement and those behind it. -/
theorem cons {a b : Contents} {s t : Stmt} {ss ts : List Stmt} {xs ys : List (Option Label)}
    {k m n : Nat} {scope scope' : Range} {pc pc' : Nat}
    (h : Answering P base J strays xs st a (X.exec scope pc nearX s) (Y.exec scope' pc' nearY t))
    (h' : Answering P base J strays ys st b (X.pass scope (pc + sizeStmt s) (follow nearX s) ss)
      (Y.pass scope' (pc' + sizeStmt t) (follow nearY t) ts))
    (hnodup : (st :: (a.append b).states).Nodup) (hs : Bears a xs (labelsStmt t) k m)
    (hss : Bears b ys (labelsStmts ts) (k + m) n)
    (hloose : ∀ l ∈ xs, l ∈ labelsStmt s) (hyields : ∀ l ∈ yieldLabels base k m, l ∈ labelsStmt s)
    (hloose' : ∀ l ∈ ys, l ∈ labelsStmts ss)
    (hyields' : ∀ l ∈ yieldLabels base (k + m) n, l ∈ labelsStmts ss)
    (hlabels : (labelsStmts (s :: ss)).Nodup) (hlabels' : (labelsStmts (t :: ts)).Nodup) :
    Answering P base J strays (xs ++ ys) st (a.append b) (X.pass scope pc nearX (s :: ss))
      (Y.pass scope' pc' nearY (t :: ts)) := by
  intro e e' i hmeets c d hcd
  rcases hmeets.append with hmeets | ⟨⟨l, l', rfl, rfl⟩, hmeets⟩
  · obtain ⟨henters, henters'⟩ := hmeets.enters hs hloose hyields
    simp only [Setting.pass, henters, henters', if_true]
    refine Answers.onNormal ((h _ _ _ hmeets c d hcd).mono (fun _ _ hJ => hJ) (fun _ hl => hl)
      (.append_left hnodup)) fun c d hcd => ?_
    exact (h' _ _ _ .start c d hcd).mono (fun _ _ hJ => hJ) (fun _ hl => hl) (.append_right hnodup)
  · obtain ⟨henters, henters'⟩ := hmeets.enters hss hloose' hyields'
    have hl : l ∉ labelsStmt s := fun hmem => (List.nodup_append.mp hlabels).2.2 l hmem l
      (by simpa [Entry.enters] using henters) rfl
    have hl' : l' ∉ labelsStmt t := fun hmem => (List.nodup_append.mp hlabels').2.2 l' hmem l'
      (by simpa [Entry.enters] using henters') rfl
    rw [pass_skip hl, pass_skip hl']
    exact (h' _ _ _ hmeets c d hcd).mono (fun _ _ hJ => hJ) (fun _ hl => hl) (.append_right hnodup)

/-- A statement of one instruction. -/
theorem of_leaf (hX : X.Unobserved) (hY : Y.Unobserved) {s t : Stmt} (hs : isLeaf s = true)
    (ht : isLeaf t = true) {scope scope' : Range} {pc pc' : Nat}
    (h : ∀ a d, P.Has strays st a d → Matched (P.Has strays st) J (X.leaf pc s a) (Y.leaf pc' t d)) :
    Answering P base J strays [] st {} (X.exec scope pc nearX s) (Y.exec scope' pc' nearY t) := by
  refine .of_matched fun a d had => ?_
  rw [exec_unobserved hX hs, exec_unobserved hY ht]
  exact h a d had

end Answering

/-! ## Statements of one instruction -/

section Leaves

variable {pc pc' : Nat} {a d : Config σ} {e e' : Expr}

theorem matched_goto (o o' : Origin) {l k : Option Label} (hJ : J l k) (h : P.Has strays st a d) :
    Matched (P.Has strays st) J (X.leaf pc (.goto o l) a) (Y.leaf pc' (.goto o' k) d) :=
  .jump hJ h

theorem matched_expression (hfacing : Facing P plan base X Y) (he : P.house.Moves strays e e')
    (o o' : Origin) (h : P.Has strays st a d) :
    Matched (P.Has strays st) J (X.leaf pc (.expression o e) a) (Y.leaf pc' (.expression o' e') d) := by
  have hX : X.leaf pc (.expression o e) = .effect pc (eval X.ctx e) fun _ => .normal := by
    simp only [Setting.leaf, hfacing.element_none he]
  have hY : Y.leaf pc' (.expression o' e') = .effect pc' (eval Y.ctx e') fun _ => .normal := by
    simp only [Setting.leaf, hfacing.silent]
    rfl
  rw [hX, hY]
  exact .effect (hfacing.agree he) (fun _ _ _ h => .normal h) pc pc' h

theorem matched_branch (hfacing : Facing P plan base X Y) (he : P.house.Moves strays e e')
    (o o' : Origin) (whenTrue : Bool) {l k : Option Label} (hJ : J l k) (h : P.Has strays st a d) :
    Matched (P.Has strays st) J (X.leaf pc (.conditionalGoto o e whenTrue l) a)
      (Y.leaf pc' (.conditionalGoto o' e' whenTrue k) d) := by
  refine .effect (.bind (hfacing.agree he) fun v => .ofExcept _) (fun b _ _ h => ?_) pc pc' h
  split
  · exact .jump hJ h
  · exact .normal h

/-- An expression is hoisted to an expression. -/
theorem hoistExpr_present {h : Hoisted} {e e' : Expr} (he : hoistExpr h e = .ok e') :
    e' ≠ .absent := by
  rintro rfl
  cases e with
  | absent | literal | this | foreign => cases he
  | localRef o l =>
    rw [hoistExpr] at he
    split at he <;> cases he
  | parameterRef o p =>
    rw [hoistExpr] at he
    split at he <;> cases he
  | fieldRef | unary =>
    obtain ⟨_, -, hpure⟩ := bind_ok_iff.mp he
    cases hpure
  | assignment | binary =>
    obtain ⟨_, -, hrest⟩ := bind_ok_iff.mp he
    obtain ⟨_, -, hpure⟩ := bind_ok_iff.mp hrest
    cases hpure
  | call o r m args =>
    cases r with
    | absent =>
      rw [hoistExpr] at he
      obtain ⟨_, -, hpure⟩ := bind_ok_iff.mp he
      cases hpure
    | _ =>
      rw [hoistExpr] at he
      · obtain ⟨_, -, hrest⟩ := bind_ok_iff.mp he
        obtain ⟨_, -, hpure⟩ := bind_ok_iff.mp hrest
        cases hpure
      · simp

theorem matched_throw (hfacing : Facing P plan base X Y) (he : P.house.Moves strays e e')
    (o o' : Origin) (h : P.Has strays st a d) :
    Matched (P.Has strays st) J (X.leaf pc (.throw o e) a) (Y.leaf pc' (.throw o' e') d) := by
  have hX : X.leaf pc (.throw o e) =
      .effect pc (eval X.ctx e) fun v => .fail pc (.single (.thrown v)) := by
    cases e with
    | absent => exact absurd he.bound (by simp [BoundIn, boundEffect, boundExpr])
    | _ => rfl
  have hY : Y.leaf pc' (.throw o' e') =
      .effect pc' (eval Y.ctx e') fun v => .fail pc' (.single (.thrown v)) := by
    cases e' with
    | absent => exact absurd rfl (hoistExpr_present he.hoisted)
    | _ => rfl
  rw [hX, hY]
  exact .effect (hfacing.agree he) (fun _ _ _ h => .fail h) pc pc' h

end Leaves

/-! ## Tries -/

section Try

/-- A try whose try block is entered. -/
theorem exec_try_body {S : Setting σ} {scope : Range} {pc : Nat} (o : Origin) {body : Block}
    (catches : List Catch) (cleanup : Block) {e : Entry}
    (he : e.enters (labelsBlock body) = true) :
    S.exec scope pc near (.try o body catches cleanup) e =
      (S.rounds scope near (labelsBlock body) (S.passBlock scope pc near body) e).andThen
        (S.exitTry scope (handlersAt (behindBody pc body) catches)
          (S.execCatches scope (behindBody pc body) (behindTry pc body catches cleanup) catches
            .start)
          ((cleanupRange (behindCatches pc body catches) cleanup).map fun range =>
            S.settle range (S.rounds range [] (labelsBlock cleanup)
              (S.passBlock range (behindCatches pc body catches) [] cleanup) .start))
          (pc + sizeBlock body) (behindTry pc body catches cleanup)) := by
  rw [Setting.exec]
  exact if_pos he

variable {J' : Jumps} {scope scope' : Range} {pc pc' : Nat}

/-- A finally out of which no jump leads is the same on both sides. -/
theorem Answering.settle {x y : Entry → Flow σ} (hfacing : Facing P plan base X Y)
    (h : Answering P base (toItself loose) strays loose st {} x y)
    (hlands : Lands (toItself loose) loose labels labels')
    (hloose : ∀ l ∈ loose, l ∈ labels ∧ l ∈ labels') (range range' : Range) :
    Act.Agree (P.Has strays st) (X.settle range (X.rounds range [] labels x .start))
      (Y.settle range' (Y.rounds range' [] labels' y .start)) := by
  refine Matched.settle hfacing.unobserved hfacing.unobserved' (P.careless strays st) range range'
    fun a d had => ?_
  have hrounds := h.rounds (X := X) (Y := Y) hlands hloose (.nil _) range range'
  refine (hrounds _ _ _ .start a d had).matched.mono (fun _ _ h => h) ?_
  rintro l k ⟨⟨-, hl⟩, hnot, -⟩
  exact hnot (hloose l hl).1

/-- A handler that takes a failure on both sides. -/
theorem Answering.handler {x y : Entry → Flow σ} (hfacing : Facing P plan base X Y)
    {v : Option Local} (hv : ∀ l ∈ v, P.house.last.locals.lookup l = none)
    (h : Answering P base (insideHandler J loose) (v.toList ++ strays) loose st {} x y)
    (hlands : Lands (insideHandler J loose) loose labels labels')
    (hloose : ∀ l ∈ loose, l ∈ labels ∧ l ∈ labels') (range range' : Range)
    (last last' behind behind' p p' : Nat) (f : Failure) {a d : Config σ}
    (had : P.Has strays st a d) :
    Matched (P.Has strays st) J
      ((X.rounds scope [] labels x .start).andThen (X.exitCatch scope last behind)
        (a.handle scope p f ⟨range, v⟩))
      ((Y.rounds scope' [] labels' y .start).andThen (Y.exitCatch scope' last' behind')
        (d.handle scope' p' f ⟨range', v⟩)) := by
  have hbound : P.Has (v.toList ++ strays) st (a.handle scope p f ⟨range, v⟩)
      (d.handle scope' p' f ⟨range', v⟩) := by
    cases v with
    | none => exact had.of_caught _ _
    | some l => exact (had.assignStray (hv l rfl) f.caughtValue).of_caught _ _
  have hrounds := h.rounds (X := X) (Y := Y) hlands hloose (.nil _) scope scope'
  refine ((hrounds _ _ _ .start _ _ hbound).matched.mono
    (fun _ _ h => h.fewer fun l hl => List.mem_append_right _ hl) ?_).andThen
    fun o o' a d hod => hod.exitCatch hfacing.unobserved hfacing.unobserved' (P.careless strays st) ..
  rintro l k ⟨hJ | ⟨-, hl⟩, hnot, -⟩
  · exact hJ
  · exact absurd (hloose l hl).1 hnot

/-- The handlers take a failure alike on both sides, or there is none. -/
def Handling (P : Pairing σ) (J : Jumps) (strays : List Local) (st : Int) (scope scope' : Range)
    (handlers handlers' : List Machine.Handler) (x y : Flow σ) : Prop :=
  handlers = [] ∧ handlers' = [] ∨ ∃ h rest h' rest', handlers = h :: rest ∧
    handlers' = h' :: rest' ∧ ∀ p p' f a d, P.Has strays st a d →
      Matched (P.Has strays st) J (x (a.handle scope p f h)) (y (d.handle scope' p' f h'))

/-- A try that is a try on both sides. -/
theorem Answering.tried (hfacing : Facing P plan base X Y) {o : Origin}
    {body body' cleanup cleanup' : Block} {catches catches' : List Catch}
    (hbody : Answering P base J strays loose st {} (X.passBlock scope pc nearX body)
      (Y.passBlock scope' pc' nearY body'))
    (hlands : Lands J loose (labelsBlock body) (labelsBlock body'))
    (hloose : ∀ l ∈ loose, l ∈ labelsBlock body ∧ l ∈ labelsBlock body')
    (hnear : Nearby J near nearX nearY)
    (hhandling : Handling P J strays st scope scope' (handlersAt (behindBody pc body) catches)
      (handlersAt (behindBody pc' body') catches')
      (X.execCatches scope (behindBody pc body) (behindTry pc body catches cleanup) catches .start)
      (Y.execCatches scope' (behindBody pc' body') (behindTry pc' body' catches' cleanup') catches'
        .start))
    (hclean : Option.Rel (fun x y => Act.Agree (P.Has strays st) x y)
      ((cleanupRange (behindCatches pc body catches) cleanup).map fun range =>
        X.settle range (X.rounds range [] (labelsBlock cleanup)
          (X.passBlock range (behindCatches pc body catches) [] cleanup) .start))
      ((cleanupRange (behindCatches pc' body' catches') cleanup').map fun range =>
        Y.settle range (Y.rounds range [] (labelsBlock cleanup')
          (Y.passBlock range (behindCatches pc' body' catches') [] cleanup') .start))) :
    Answering P base J strays loose st {} (X.exec scope pc nearX (.try o body catches cleanup))
      (Y.exec scope' pc' nearY (.try o body' catches' cleanup')) := by
  intro e e' s hmeets a d had
  have hplain : s = st ∧ e.enters (labelsBlock body) = true ∧ e'.enters (labelsBlock body') = true := by
    cases hmeets with
    | start => exact ⟨rfl, rfl, rfl⟩
    | seek hl => simp [Entry.enters, hloose _ hl]
    | resume hx => cases hx
    | entry hf => cases hf
  obtain ⟨rfl, henters, henters'⟩ := hplain
  have hrounds := hbody.rounds (X := X) (Y := Y) hlands hloose hnear scope scope'
  rw [exec_try_body o catches cleanup henters, exec_try_body o catches' cleanup' henters']
  refine .of_matched ((((hrounds _ _ _ hmeets a d had).matched).mono (fun _ _ h => h)
    fun _ _ hJ => hJ.1).andThen fun o o' a d hod => ?_) List.not_mem_nil
  exact hod.exitTry hfacing.unobserved hfacing.unobserved' (P.careless strays s) hclean hhandling

end Try

/-! ## Frames -/

/-- The statements of a frame before what stands behind the call of its finally. -/
def frontOf (plan : Plan) (o ob : Origin) (f : Frame) (start : Label) (b : Block) : List Stmt :=
  [plan.setState f.state, Made.label o.provenance f.entry,
    .block (innerOf plan (.made o.provenance) ob.asGenerated f start b), callCleanup o.provenance f]

theorem region_eq (plan : Plan) (o ob : Origin) (f : Frame) (start : Label) (b : Block)
    (ways : List Stmt) : region plan o ob f start b.statements ways =
      .list o.asGenerated (frontOf plan o ob f start b ++ ways) := rfl

/-- However the frame is entered, its dispatch comes next, in the state in which control goes on. -/
theorem pass_front (hfacing : Facing P plan base X Y) (nearY : List (Option Label)) (scope : Range)
    (pc : Nat) (o ob : Origin) {f : Frame} (start : Label) (b : Block) (ways : List Stmt)
    {e e' : Entry} {s : Int} (hmeets : Meets base [] st ⟨[], [f]⟩ e e' s) {a d : Config σ}
    (h : P.Has [] s a d) :
    ∃ s₀ d₀, Into base f e s₀ ∧ P.Has [] s₀ a d₀ ∧ ∃ q near' near₀,
      Y.pass scope pc nearY (frontOf plan o ob f start b ++ ways) e' d =
        (Y.exec scope (pc + 1) [some f.entry]
          (.block (innerOf plan (.made o.provenance) ob.asGenerated f start b)) .start).onNormal
          ((Y.exec scope q near' (callCleanup o.provenance f) .start).onNormal
            (Y.pass scope (q + 1) near₀ ways .start)) d₀ := by
  cases hmeets with
  | start =>
    have hset := h.setState hfacing.sound f.state
    rw [← hfacing.state] at hset
    refine ⟨_, _, .start, hset, ?_⟩
    rw [frontOf, List.cons_append, Setting.pass_cons,
      onNormal_go (exec_setState hfacing.silent h.this f.state), List.cons_append,
      Setting.pass_madeLabel (.inl rfl), List.cons_append, Setting.pass_cons, List.cons_append,
      Setting.pass_cons]
    exact ⟨_, _, _, rfl⟩
  | seek hl => cases hl
  | resume hx => cases hx
  | entry hf hs =>
    obtain rfl := List.mem_singleton.mp hf
    refine ⟨_, _, .resume hs, h, ?_⟩
    rw [frontOf, List.cons_append, Plan.setState, assignState, Made.assign,
      pass_skip List.not_mem_nil, List.cons_append, Setting.pass_madeLabel (.inr rfl),
      List.cons_append, Setting.pass_cons, List.cons_append, Setting.pass_cons]
    exact ⟨_, _, _, rfl⟩

/-- A frame is entered where its try block is. -/
theorem Into.enters {f : Frame} {e : Entry} {s : Int} {labels : List (Option Label)} {k n : Nat}
    (h : Into base f e s) (hbears : Bears ⟨f.suspensions, f.children⟩ loose labels k n)
    {labels' : List (Option Label)} (hyields : ∀ l ∈ yieldLabels base k n, l ∈ labels') :
    e.enters labels' = true := by
  cases h with
  | start => rfl
  | resume hs =>
    obtain ⟨i, rfl, hi, hi'⟩ := hbears.states s (Frame.resumeStates_eq _ ▸ hs)
    simpa [Entry.enters] using hyields _
      (List.mem_map.mpr ⟨i, List.mem_range'_1.mpr ⟨by omega, by omega⟩, rfl⟩)

/-- A try that is extracted and the frame that it becomes. -/
theorem Answering.frame (hfacing : Facing P plan base X Y) {f : Frame}
    (hloaded : Loaded P plan base X Y f) (hnodup : (st :: Contents.states ⟨[], [f]⟩).Nodup)
    {o ob : Origin} {body body' cleanup cleanup' : Block} {start : Label} {routes : List Route}
    {ways : List Stmt} (hlands : Lands J [] (labelsStmt (.try o body [] cleanup))
      (labelsStmt (region plan o ob f start body'.statements ways)))
    (hnear : Nearby J near nearX nearY) (hways : Behind o.provenance ⟨f, routes⟩ ways)
    {o' : Origin} (hcode : f.cleanup.body =
      .mk o' [] (assignState o'.provenance plan.state st :: cleanup'.statements))
    (hpresent : cleanup ≠ .absent) {loose' : List (Option Label)} {k n : Nat}
    {scope scope' : Range} {pc pc' : Nat}
    (hbody : Answering P base (insideFrame J near loose routes) [] loose f.state
      ⟨f.suspensions, f.children⟩ (X.passBlock scope pc nearX body)
      (Y.passBlock scope' (pc' + 2) [some start] body'))
    (hbears : Bears ⟨f.suspensions, f.children⟩ loose (labelsBlock body') k n)
    (hloose : ∀ l ∈ loose, l ∈ labelsBlock body)
    (hyields : ∀ l ∈ yieldLabels base k n, l ∈ labelsBlock body)
    (hcleanup : ∀ Z, Facing P plan base X Z → ∀ range scope q, Answering P base (toItself loose') []
      loose' st {} (X.passBlock range q [] cleanup) (Z.passBlock scope 1 [] cleanup'))
    (hloose' : ∀ l ∈ loose', l ∈ labelsBlock cleanup ∧ l ∈ labelsBlock cleanup') :
    Answering P base J [] [] st ⟨[], [f]⟩ (X.exec scope pc nearX (.try o body [] cleanup))
      (Y.exec scope' pc' nearY (region plan o ob f start body'.statements ways)) := by
  have hnodup' := hlands.nodup'
  rw [labels_region] at hnodup'
  obtain ⟨hstart, hbehind⟩ := List.nodup_cons.mp (List.nodup_cons.mp hnodup').2
  have hinside : (f.state :: Contents.states ⟨f.suspensions, f.children⟩).Nodup := by
    have hlive : f.liveStates.Nodup := by
      simpa [Contents.states, Frame.liveStatesAll] using (List.nodup_cons.mp hnodup).2
    rwa [Frame.liveStates_eq] at hlive
  have hout : ∀ l, ∀ x ∈ routes, J l x.next → l ∉ near → l ∉ labelsBlock body ∧ l ∉ nearX := by
    refine fun l x hx hJ hl => ⟨fun hmem => ?_, fun hmem => hl ((hnear l _ hJ).1.mp hmem)⟩
    exact List.not_mem_nil (hlands.first l _ hJ
      (List.mem_append_left _ (List.mem_append_left _ hmem))).2
  have hproxy : ∀ x ∈ routes, x.proxy ≠ start ∧ some x.proxy ∉ labelsBlock body' := by
    intro x hx
    have hmem : some x.proxy ∈ labelsStmts ways := hways.proxy_mem hx
    refine ⟨fun heq => hstart (List.mem_append_right _ (heq ▸ hmem)), fun hmem' => ?_⟩
    exact (List.nodup_append.mp hbehind).2.2 _ hmem' _ hmem rfl
  have hfinishes : ∀ range q call, Performs P plan base X call f → Finishes P
      (X.settle range (X.rounds range [] (labelsBlock cleanup) (X.passBlock range q [] cleanup)
        .start)) call f st := by
    rintro range q call ⟨Z, scopeZ, hZ, hcall⟩
    refine finishes hZ hcode hcall hloose' fun e he a d had => ?_
    rcases he with rfl | ⟨l, hl, rfl⟩
    · exact hcleanup Z hZ range scopeZ q _ _ _ .start a d had
    · exact hcleanup Z hZ range scopeZ q _ _ _ (.seek hl) a d had
  obtain ⟨oc, lc, ssc, rfl⟩ : ∃ o ls ss, cleanup = .mk o ls ss := by
    cases cleanup with
    | absent => exact absurd rfl hpresent
    | mk o ls ss => exact ⟨o, ls, ss, rfl⟩
  intro e e' s hmeets a d had
  obtain ⟨s₀, d₀, hinto, had₀, q, near', near₀, hfirst⟩ := pass_front hfacing nearY scope' pc' o ob
    start body' ways hmeets had
  rw [region_eq, exec_try_body o [] _ (hinto.enters hbears hyields), Setting.exec]
  exact answers_leave hfacing hnodup hloaded.own (hfinishes _ _ _ hloaded.calls)
    (hfinishes _ _ _ hloaded.disposes) (answers_inner hfacing hinside hbody hbears hloose
      (fun hmem => hstart (List.mem_append_left _ hmem)) hout hproxy hinto had₀) hways hlands.nodup'
    (fun l x hx hJ hmem => List.not_mem_nil (hlands.second l x.next hJ hmem).2) hfirst

end Parts

/-! ## Bodies -/

section Bodies

variable {P : Pairing σ} {plan : Plan} {exit : Label} {base : Nat} {X : Setting σ}

/-- The labels behind the suspensions of a part are in it. -/
theorem yields_emitStmt (s : Stmt) (k : Nat) : ∀ l ∈ yieldLabels base k (elementsStmt s).length,
    l ∈ labelsStmt (emitStmt exit base k s) := fun _ hl =>
  (labels_emitStmt k s).mem_iff.mpr (List.mem_append_right _ hl)

theorem yields_emitStmts (ss : List Stmt) (k : Nat) :
    ∀ l ∈ yieldLabels base k (elementsStmts ss).length, l ∈ labelsStmts (emitStmts exit base k ss) :=
  fun _ hl => (labels_emitStmts k ss).mem_iff.mpr (List.mem_append_right _ hl)

theorem yields_emitBlock (b : Block) (k : Nat) :
    ∀ l ∈ yieldLabels base k (elementsBlock b).length, l ∈ labelsBlock (emitBlock exit base k b) :=
  fun _ hl => (labels_emitBlock k b).mem_iff.mpr (List.mem_append_right _ hl)

/-- A finally without suspensions, with the jumps to its own labels. -/
theorem Lands.own {b b' : Block} {strays : List Local} {st : Int} {k : Nat}
    {near : List (Option Label)} (hnodup : (labelsBlock (emitBlock exit base k b)).Nodup)
    (h : CopiesBlock P.house plan exit b (toItself (looseBlock b)) strays st k near {} b') :
    Lands (toItself (looseBlock b)) (looseBlock b) (labelsBlock (emitBlock exit base k b))
      (labelsBlock b') where
  first _ _ hJ _ := hJ
  second _ _ hJ _ := ⟨hJ.1, hJ.1 ▸ hJ.2⟩
  nodup := hnodup
  nodup' := by
    rw [plain_labelsBlock h]
    exact (List.nodup_append.mp ((labels_emitBlock k b).nodup_iff.mp hnodup)).1

/-! ### What answers a part -/

section Goals

variable (P plan exit base X)

/-- Whatever the machine has in the place of the statement answers it. -/
def AnswersStmt (s : Stmt) : Prop :=
  ∀ ⦃J : Jumps⦄ ⦃strays : List Local⦄ ⦃st : Int⦄ ⦃k : Nat⦄ ⦃near : List (Option Label)⦄
    ⦃c : Contents⦄ ⦃t : Stmt⦄, Copies P.house plan exit s J strays st k near c t →
    ∀ ⦃Y : Setting σ⦄ ⦃nearX nearY : List (Option Label)⦄ (scope scope' : Range) (pc pc' : Nat),
    Opposite P plan base X Y st c J near nearX nearY (looseStmt s)
      (labelsStmt (emitStmt exit base k s)) (labelsStmt t)
      (flattenStmt pc (emitStmt exit base k s)).labels →
    Answering P base J strays (looseStmt s) st c (X.exec scope pc nearX (emitStmt exit base k s))
      (Y.exec scope' pc' nearY t)

/-- What it has in the place of the statements answers them. -/
def AnswersStmts (ss : List Stmt) : Prop :=
  ∀ ⦃J : Jumps⦄ ⦃strays : List Local⦄ ⦃st : Int⦄ ⦃k : Nat⦄ ⦃near : List (Option Label)⦄
    ⦃c : Contents⦄ ⦃ts : List Stmt⦄, CopiesAll P.house plan exit ss J strays st k near c ts →
    ∀ ⦃Y : Setting σ⦄ ⦃nearX nearY : List (Option Label)⦄ (scope scope' : Range) (pc pc' : Nat),
    Opposite P plan base X Y st c J near nearX nearY (looseStmts ss)
      (labelsStmts (emitStmts exit base k ss)) (labelsStmts ts)
      (flattenStmts pc (emitStmts exit base k ss)).labels →
    Answering P base J strays (looseStmts ss) st c (X.pass scope pc nearX (emitStmts exit base k ss))
      (Y.pass scope' pc' nearY ts)

/-- What it has in the place of the block answers it. -/
def AnswersBlock (b : Block) : Prop :=
  ∀ ⦃J : Jumps⦄ ⦃strays : List Local⦄ ⦃st : Int⦄ ⦃k : Nat⦄ ⦃near : List (Option Label)⦄
    ⦃c : Contents⦄ ⦃b' : Block⦄, CopiesBlock P.house plan exit b J strays st k near c b' →
    ∀ ⦃Y : Setting σ⦄ ⦃nearX nearY : List (Option Label)⦄ (scope scope' : Range) (pc pc' : Nat),
    Opposite P plan base X Y st c J near nearX nearY (looseBlock b)
      (labelsBlock (emitBlock exit base k b)) (labelsBlock b')
      (flattenBlock pc (emitBlock exit base k b)).labels →
    Answering P base J strays (looseBlock b) st c
      (X.passBlock scope pc nearX (emitBlock exit base k b)) (Y.passBlock scope' pc' nearY b')

/-- What it has in the place of the handlers answers them. -/
def AnswersCatches (cs : List Catch) : Prop :=
  ∀ ⦃J : Jumps⦄ ⦃strays : List Local⦄ ⦃st : Int⦄ ⦃k : Nat⦄ ⦃ds : List Catch⦄,
    CopiesCatches P.house plan exit cs J strays st k ds → ∀ ⦃Y : Setting σ⦄, Facing P plan base X Y →
    (∀ l k', J l k' → l ∉ labelsCatches (emitCatches exit base k cs) ∧ k' ∉ labelsCatches ds) →
    (labelsCatches (emitCatches exit base k cs)).Nodup → (labelsCatches ds).Nodup →
    ∀ (scope scope' : Range) (pc pc' behind behind' : Nat),
    Handling P J strays st scope scope' (handlersAt pc (emitCatches exit base k cs))
      (handlersAt pc' ds) (X.execCatches scope pc behind (emitCatches exit base k cs) .start)
      (Y.execCatches scope' pc' behind' ds .start)

end Goals

/-! ### One lemma for each form -/

theorem AnswersBlock.block {b : Block} (hb : AnswersBlock P plan exit base X b) :
    AnswersStmt P plan exit base X (.block b) := by
  rintro J strays st k near c _ ⟨_, h, rfl⟩ Y nearX nearY scope scope' pc pc' hopposite
  have hseveral := (hb h scope scope' pc pc' hopposite).several hopposite.lands
    (fun l hl => ⟨loose_emitBlock h k l hl, (bears_block h).loose l hl⟩) scope scope' (X := X) (Y := Y)
  simp only [emitStmt, Setting.exec]
  exact hseveral

theorem AnswersStmts.list {o : Origin} {ss : List Stmt} (hss : AnswersStmts P plan exit base X ss) :
    AnswersStmt P plan exit base X (.list o ss) := by
  rintro J strays st k near c _ ⟨ts, h, rfl⟩ Y nearX nearY scope scope' pc pc' hopposite
  have hseveral := (hss h scope scope' pc pc' hopposite).several hopposite.lands
    (fun l hl => ⟨loose_emitStmts h k l hl, (bears_all h).loose l hl⟩) scope scope' (X := X) (Y := Y)
  simp only [emitStmt, Setting.exec]
  exact hseveral

theorem answers_label (o : Origin) (l : Option Label) :
    AnswersStmt P plan exit base X (.label o l) := by
  rintro J strays st k near c _ ⟨rfl, rfl⟩ Y nearX nearY scope scope' pc pc' - e e' s hmeets a d had
  simp only [emitStmt, Setting.exec]
  cases hmeets with
  | start | seek => exact .normal had
  | resume hx => cases hx
  | entry hf => cases hf

/-- The finally of an extracted try is a method of the machine, and the frame has what becomes of the
try block. -/
theorem AnswersBlock.extracted {o : Origin} {body cleanup : Block} {catches : List Catch}
    (hframed : framed body cleanup = true) (hbodies : AnswersBlock P plan exit base X body)
    (hcleanups : AnswersBlock P plan exit base X cleanup) {J : Jumps} {strays : List Local} {st : Int}
    {k : Nat} {near : List (Option Label)} {c : Contents} {t : Stmt}
    (h : Copies P.house plan exit (.try o body catches cleanup) J strays st k near c t)
    {Y : Setting σ} {nearX nearY : List (Option Label)} (scope scope' : Range) (pc pc' : Nat)
    (hopposite : Opposite P plan base X Y st c J near nearX nearY
      (looseStmt (.try o body catches cleanup))
      (labelsStmt (emitStmt exit base k (.try o body catches cleanup))) (labelsStmt t)
      (flattenStmt pc (emitStmt exit base k (.try o body catches cleanup))).labels) :
    Answering P base J strays (looseStmt (.try o body catches cleanup)) st c
      (X.exec scope pc nearX (emitStmt exit base k (.try o body catches cleanup)))
      (Y.exec scope' pc' nearY t) := by
  rw [Copies, if_pos hframed] at h
  obtain ⟨rfl, rfl, f, start, routes, b', ways, o', cleanup', rfl, hbody, hcleanup, hcode, hways,
    rfl⟩ := h
  rw [looseStmt, if_pos hframed] at hopposite ⊢
  have hbears := bears_block hbody
  have hinside := hopposite.inside hways hbears (loose_emitBlock hbody k)
  have hmem : f ∈ Frame.preorderAll [f] := by
    cases f
    exact List.mem_cons_self
  have hpresent : emitBlock exit base (k + ((elementsBlock body).length +
      (elementsCatches []).length)) cleanup ≠ .absent := by
    cases cleanup with
    | absent => exact hcleanup.elim
    | mk => exact fun heq => nomatch heq
  have hloose' : ∀ l ∈ looseBlock cleanup, l ∈ labelsBlock (emitBlock exit base (k +
      ((elementsBlock body).length + (elementsCatches []).length)) cleanup) ∧
        l ∈ labelsBlock cleanup' := fun l hl =>
    ⟨loose_emitBlock hcleanup _ l hl, (bears_block hcleanup).loose l hl⟩
  refine .frame hopposite.facing (hopposite.loaded f hmem) hopposite.nodup hopposite.lands
    hopposite.near hways hcode hpresent (hbodies hbody scope scope' pc (pc' + 2) hinside)
    hbears (loose_emitBlock hbody k) (yields_emitBlock body k)
    (fun Z hZ range scopeZ q => ?_) hloose'
  have hlabels := List.nodup_append.mp hopposite.lands.nodup
  exact hcleanups hcleanup range scopeZ q 1 (.plain hZ (.own hlabels.2.1 hcleanup) (.nil _)
    fun _ hl => nomatch hl)

/-- A finally that is executed in place, if there is one. -/
theorem AnswersBlock.settles {cleanup cleanup' : Block} (h : AnswersBlock P plan exit base X cleanup)
    {strays : List Local} {st : Int} {k : Nat} {Y : Setting σ} (hfacing : Facing P plan base X Y)
    (hnodup : (labelsBlock (emitBlock exit base k cleanup)).Nodup)
    (hcopies : cleanup = .absent ∧ cleanup' = .absent ∨ CopiesBlock P.house plan exit cleanup
      (toItself (looseBlock cleanup)) strays st k [] {} cleanup') (pc pc' : Nat) :
    Option.Rel (fun x y => Act.Agree (P.Has strays st) x y)
      ((cleanupRange pc (emitBlock exit base k cleanup)).map fun range =>
        X.settle range (X.rounds range [] (labelsBlock (emitBlock exit base k cleanup))
          (X.passBlock range pc [] (emitBlock exit base k cleanup)) .start))
      ((cleanupRange pc' cleanup').map fun range =>
        Y.settle range (Y.rounds range [] (labelsBlock cleanup')
          (Y.passBlock range pc' [] cleanup') .start)) := by
  obtain ⟨rfl, rfl⟩ | hcopies := hcopies
  · exact .none
  · obtain ⟨oc, lc, ss, rfl⟩ : ∃ o ls ss, cleanup = .mk o ls ss := by
      cases cleanup with
      | absent => exact hcopies.elim
      | mk o ls ss => exact ⟨o, ls, ss, rfl⟩
    obtain ⟨_, ts, -, hts⟩ := id hcopies
    rw [hts] at hcopies ⊢
    exact .some (Answering.settle hfacing (h hcopies _ _ _ _
      (.plain hfacing (.own hnodup hcopies) (.nil _) fun _ hl => nomatch hl)) (.own hnodup hcopies)
      (fun l hl => ⟨loose_emitBlock hcopies _ l hl, (bears_block hcopies).loose l hl⟩) _ _)

/-- A try that stays is a try on both sides. -/
theorem AnswersBlock.staying {o : Origin} {body cleanup : Block} {catches : List Catch}
    (hframed : ¬framed body cleanup = true) (hbodies : AnswersBlock P plan exit base X body)
    (hhandlers : AnswersCatches P plan exit base X catches)
    (hcleanups : AnswersBlock P plan exit base X cleanup) {J : Jumps} {strays : List Local} {st : Int}
    {k : Nat} {near : List (Option Label)} {c : Contents} {t : Stmt}
    (h : Copies P.house plan exit (.try o body catches cleanup) J strays st k near c t)
    {Y : Setting σ} {nearX nearY : List (Option Label)} (scope scope' : Range) (pc pc' : Nat)
    (hopposite : Opposite P plan base X Y st c J near nearX nearY
      (looseStmt (.try o body catches cleanup))
      (labelsStmt (emitStmt exit base k (.try o body catches cleanup))) (labelsStmt t)
      (flattenStmt pc (emitStmt exit base k (.try o body catches cleanup))).labels) :
    Answering P base J strays (looseStmt (.try o body catches cleanup)) st c
      (X.exec scope pc nearX (emitStmt exit base k (.try o body catches cleanup)))
      (Y.exec scope' pc' nearY t) := by
  rw [Copies, if_neg hframed] at h
  obtain ⟨rfl, body', catches', cleanup', hbody, hcatches, hcleanup, rfl⟩ := h
  rw [looseStmt, if_neg hframed] at hopposite ⊢
  obtain ⟨hfirst, hlast, -⟩ := List.nodup_append.mp hopposite.lands.nodup
  obtain ⟨hnodup, hmiddle, hapart⟩ := List.nodup_append.mp hfirst
  obtain ⟨hfirst', -, -⟩ := List.nodup_append.mp hopposite.lands.nodup'
  obtain ⟨hnodup', hmiddle', hapart'⟩ := List.nodup_append.mp hfirst'
  have hloose : ∀ l ∈ looseBlock body,
      l ∈ labelsBlock (emitBlock exit base k body) ∧ l ∈ labelsBlock body' := fun l hl =>
    ⟨loose_emitBlock hbody k l hl, (bears_block hbody).loose l hl⟩
  have hlands : Lands J (looseBlock body) (labelsBlock (emitBlock exit base k body))
      (labelsBlock body') :=
    ⟨fun l l' hJ hl => hopposite.lands.first l l' hJ
        (List.mem_append_left _ (List.mem_append_left _ hl)),
      fun l l' hJ hl => hopposite.lands.second l l' hJ
        (List.mem_append_left _ (List.mem_append_left _ hl)), hnodup, hnodup'⟩
  refine .tried hopposite.facing (hbodies hbody scope scope' pc pc' (.plain
    hopposite.facing hlands hopposite.near fun l hl hmem => hopposite.apart l hl
      (List.mem_append_left _ (List.mem_append_left _ hmem)))) hlands hloose hopposite.near
    (hhandlers hcatches hopposite.facing (fun l l' hJ => ⟨fun hl => ?_, fun hl => ?_⟩)
      hmiddle hmiddle' ..) (hcleanups.settles hopposite.facing hlast hcleanup _ _)
  -- A jump of the surroundings to a label of a handler would lead to a label of the try block.
  · obtain ⟨-, hmem⟩ := hopposite.lands.first l l' hJ
      (List.mem_append_left _ (List.mem_append_right _ hl))
    exact hapart l (hloose l hmem).1 l hl rfl
  · obtain ⟨rfl, hmem⟩ := hopposite.lands.second l l' hJ
      (List.mem_append_left _ (List.mem_append_right _ hl))
    exact hapart' l' (hloose l' hmem).2 l' hl rfl

theorem AnswersStmt.cons {s : Stmt} {ss : List Stmt} (hs : AnswersStmt P plan exit base X s)
    (hss : AnswersStmts P plan exit base X ss) : AnswersStmts P plan exit base X (s :: ss) := by
  rintro J strays st k near _ _ ⟨a, b, t, ts, h, h', rfl, rfl⟩ Y nearX nearY scope scope' pc pc'
    hopposite
  have hbears := bears_stmt h
  have hbears' := bears_all h'
  have hfirst := hopposite.head (loose_emitStmts h' _) hbears'.loose
  have hfollow : ∀ l ∈ follow nearX (emitStmt exit base k s),
      l ∈ nearX ∨ l ∈ labelsStmt (emitStmt exit base k s) := by
    intro l hl
    have hl : l ∈ followAll nearX [emitStmt exit base k s] := hl
    simpa [labelsStmts] using Setting.followAll_mem hl
  have hrest := hopposite.tail (loose_emitStmt h _) hbears.loose
    (nearby_stmt h hfirst.lands hfirst.near) hfollow
  exact (hs h scope scope' pc pc' hfirst).cons (hss h' scope scope' _ _ hrest)
    hopposite.nodup hbears hbears' (loose_emitStmt h _) (yields_emitStmt s k)
    (loose_emitStmts h' _) (yields_emitStmts ss _) hopposite.lands.nodup hopposite.lands.nodup'

/-- A handler binds its variable on both sides, and no jump from outside leads into it. -/
theorem AnswersBlock.catch {o : Origin} {v : Option Local} {body : Block} {rest : List Catch}
    (hbodies : AnswersBlock P plan exit base X body) :
    AnswersCatches P plan exit base X (.mk o v body :: rest) := by
  rintro J strays st k _ ⟨body', ds, hv, hbody, -, rfl⟩ Y hfacing hout hnodup hnodup' scope scope' pc
    pc' behind behind'
  have hbears := bears_block hbody
  have hlands : Lands (insideHandler J (looseBlock body)) (looseBlock body)
      (labelsBlock (emitBlock exit base k body)) (labelsBlock body') := by
    refine ⟨fun l l' hJ hl => ?_, fun l l' hJ hl => ?_, (List.nodup_append.mp hnodup).1,
      (List.nodup_append.mp hnodup').1⟩
    · exact hJ.elim (fun hJ => absurd (List.mem_append_left _ hl) (hout l l' hJ).1) id
    · exact hJ.elim (fun hJ => absurd (List.mem_append_left _ hl) (hout l l' hJ).2) id
  have hloose : ∀ l ∈ looseBlock body,
      l ∈ labelsBlock (emitBlock exit base k body) ∧ l ∈ labelsBlock body' := fun l hl =>
    ⟨loose_emitBlock hbody k l hl, hbears.loose l hl⟩
  have hanswers := @hbodies _ _ _ _ _ _ _ hbody Y [] [] scope scope' (pc + 1) (pc' + 1)
    (.plain hfacing hlands (.nil _) fun _ hl => nomatch hl)
  refine .inr ⟨_, _, _, _, rfl, rfl, fun p p' f a d had => ?_⟩
  rw [emitCatches, Setting.execCatches_start, Setting.execCatches_start]
  exact hanswers.handler hfacing hv hlands hloose _ _ _ _ _ _ p p' f had

/-! ### Every part -/

mutual

theorem answers_stmt : ∀ s : Stmt, AnswersStmt P plan exit base X s
  | .block b => (answers_block b).block
  | .list _ ss => (answers_all ss).list
  | .try o body catches cleanup => by
    intro J strays st k near c t h Y nearX nearY scope scope' pc pc' hopposite
    by_cases hframed : framed body cleanup = true
    · exact (answers_block body).extracted hframed (answers_block cleanup) h scope scope' pc pc'
        hopposite
    · exact (answers_block body).staying hframed (answers_catches catches) (answers_block cleanup) h
        scope scope' pc pc' hopposite
  | .label o l => answers_label o l
  | .yieldReturn .. => by
    rintro J strays st k near _ _ ⟨rfl, x, e', rfl, hx, he, rfl⟩ Y nearX nearY scope scope' pc pc'
      hopposite _ _ _ hmeets _ _ had
    exact answers_suspend hopposite.facing hx he (hopposite.labelled.resolve_left (by simp)) hmeets had
  | .yieldBreak o => by
    rintro J strays st k near _ _ ⟨rfl, _, hJ, rfl⟩ Y nearX nearY scope scope' pc pc' hopposite
    exact .of_leaf hopposite.facing.unobserved hopposite.facing.unobserved' rfl rfl fun _ _ had =>
      matched_goto o o.asGenerated hJ had
  | .goto o _ => by
    rintro J strays st k near _ _ ⟨rfl, _, hJ, rfl⟩ Y nearX nearY scope scope' pc pc' hopposite
    exact .of_leaf hopposite.facing.unobserved hopposite.facing.unobserved' rfl rfl fun _ _ had =>
      matched_goto o o hJ had
  | .conditionalGoto o _ whenTrue _ => by
    rintro J strays st k near _ _ ⟨rfl, _, _, he, hJ, rfl⟩ Y nearX nearY scope scope' pc pc' hopposite
    exact .of_leaf hopposite.facing.unobserved hopposite.facing.unobserved' rfl rfl fun _ _ had =>
      matched_branch hopposite.facing he o o whenTrue hJ had
  | .sequencePoint .. => by
    rintro J strays st k near _ _ ⟨rfl, rfl⟩ Y nearX nearY scope scope' pc pc' hopposite
    exact .of_leaf hopposite.facing.unobserved hopposite.facing.unobserved' rfl rfl fun _ _ had =>
      .normal had
  | .expression o _ => by
    rintro J strays st k near _ _ ⟨rfl, _, he, rfl⟩ Y nearX nearY scope scope' pc pc' hopposite
    exact .of_leaf hopposite.facing.unobserved hopposite.facing.unobserved' rfl rfl fun _ _ had =>
      matched_expression hopposite.facing he o o had
  | .throw o _ => by
    rintro J strays st k near _ _ ⟨rfl, _, he, rfl⟩ Y nearX nearY scope scope' pc pc' hopposite
    exact .of_leaf hopposite.facing.unobserved hopposite.facing.unobserved' rfl rfl fun _ _ had =>
      matched_throw hopposite.facing he o o had
  | .absent | .noOp .. | .localDeclaration .. | .return .. | .if .. | .while .. | .break ..
  | .continue .. | .dispatch .. | .foreign .. => fun _ _ _ _ _ _ _ h => h.elim
termination_by structural s => s

theorem answers_all : ∀ ss : List Stmt, AnswersStmts P plan exit base X ss
  | [] => by
    rintro J strays st k near _ _ ⟨rfl, rfl⟩ Y nearX nearY scope scope' pc pc' -
    exact Answering.of_matched fun _ _ had => .normal had
  | s :: ss => (answers_stmt s).cons (answers_all ss)
termination_by structural ss => ss

/-- What the machine has in the place of a block answers the block. -/
theorem answers_block : ∀ b : Block, AnswersBlock P plan exit base X b
  | .absent => fun _ _ _ _ _ _ _ h => h.elim
  | .mk _ _ ss => by
    rintro J strays st k near c _ ⟨_, ts, h, rfl⟩ Y nearX nearY scope scope' pc pc' hopposite
    exact answers_all ss h scope scope' pc pc' hopposite
termination_by structural b => b

theorem answers_catches : ∀ cs : List Catch, AnswersCatches P plan exit base X cs
  | [] => by
    rintro J strays st k _ rfl Y - - - - scope scope' pc pc' behind behind'
    exact .inl ⟨rfl, rfl⟩
  | .mk _ _ body :: _ => (answers_block body).catch
termination_by structural cs => cs

end

end Bodies

end Resumable.StateMachine
