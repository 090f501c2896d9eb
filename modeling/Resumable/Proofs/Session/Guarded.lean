import Resumable.Proofs.Session.Finished
import Resumable.Proofs.Session.Tracking

/-!
# A resumed machine from its dispatch on

The code inside the handler of the method that resumes begins in any state, goes to where the machine
is in it, and ends in a suspension, in the end of the body, or in a failure
(`track_guardedBody`).
-/

set_option autoImplicit false

namespace Resumable.StateMachine

open Resumable.Symbol Resumable.Tree Resumable.Source Resumable.Lowering
open Resumable.Machine hiding Region Outcome Handler

variable {σ : Type}

/-! ## Labels and ways out -/

section Assertions

variable (T : Table) (r : Ref) (I : Phase → World σ → Prop) (free : Option Label → Prop)
  (strict : Bool) (invalid start : Label)

/-- What is known where a label of the method that resumes is reached. -/
def Enters (l : Option Label) (d : Config σ) : Prop :=
  (l = some invalid ∧ ∃ s, d.At r (I (.inState s))) ∨
    (l = some start ∧ d.At r (I (.inState stateCreated))) ∨ Arrives T r I free strict l d

/-- The ways out of the method that resumes a machine with the contents. -/
def endsOf (c : Contents) : Exits σ where
  jump := Enters T r I free strict invalid start
  ret v d := (v = .bool true ∧ ∃ s ∈ c.states, d.At r (I (.given s))) ∨
    (v = .bool false ∧ d.At r (I (.inState stateFinished)))
  fail d := ∃ s, d.At r (I (.inState s))
  stop d := strict = false ∧ ∃ s, d.At r (I (.inState s))

end Assertions

variable {T : Table} {r : Ref} {I : Phase → World σ → Prop} {free : Option Label → Prop}
  {strict : Bool} {invalid start : Label}

theorem enters_leave {l : Option Label} {d : Config σ}
    (h : Enters T r I free strict invalid start l d) (scope : Range) (p : Nat)
    (target : Option Nat) : Enters T r I free strict invalid start l (d.leave scope p target) := by
  rcases h with ⟨hl, s, hd⟩ | ⟨hl, hd⟩ | ⟨s, hs, hd⟩
  · exact .inl ⟨hl, s, steadfast_at _ _ d _ rfl rfl hd⟩
  · exact .inr (.inl ⟨hl, steadfast_at _ _ d _ rfl rfl hd⟩)
  · exact .inr (.inr ⟨s, hs, steadfast_at _ _ d _ rfl rfl hd⟩)

/-- The ways out of the body are ways out of the method. -/
theorem waysOutOf_endsOf (c : Contents) :
    (waysOutOf T r I free strict stateRunning c).Within
      (endsOf T r I free strict invalid start c) where
  jump _ _ := fun ⟨s, _, hl, hd⟩ => .inr (.inr ⟨s, hl, hd⟩)
  ret _ _ := fun h => .inl h
  fail _ := fun ⟨s, _, hd⟩ => ⟨s, hd⟩
  stop _ := fun ⟨hstrict, s, _, hd⟩ => ⟨hstrict, s, hd⟩

/-! ## The method -/

section Method

variable {S : Setting σ} {plan : Plan} {owner : TypeDecl} {c : Contents}
  {element : Int → Expr → Prop} {entered : List Frame} {b b' : Block} {dispose : Method}
  {body : Block} {X : Exits σ} {place : Option Label → Config σ → Prop} {scope : Range} {pc : Nat}
  {near : List (Option Label)}

/-- Labels of the body itself. -/
structure Fresh (plan : Plan) (invalid start : Label) (b' : Block) : Prop where
  distinct : invalid ≠ start
  exit : plan.exit ≠ invalid ∧ plan.exit ≠ start
  body : ∀ l ∈ labelsBlock b', l ≠ some invalid ∧ l ≠ some start

theorem fresh_of_nodup (h : (labelsBlock (guardedBody plan c invalid start b')).Nodup) :
    Fresh plan invalid start b' := by
  simp only [guardedBody, Made.block, Made.label, Made.callHost, Plan.setState, assignState,
    Made.assign, Plan.returnBool, labelsBlock, labelsStmts, labelsStmt, List.nil_append,
    List.cons_append, List.append_nil, List.nodup_cons, List.mem_cons, List.mem_append, List.not_mem_nil, or_false,
    not_or, Option.some_inj] at h
  obtain ⟨⟨hdistinct, hinvalid, hexit⟩, ⟨hstart, hexit'⟩, -⟩ := h
  exact ⟨hdistinct, ⟨Ne.symm hexit, Ne.symm hexit'⟩,
    fun l hl => ⟨fun h => hinvalid (h ▸ hl), fun h => hstart (h ▸ hl)⟩⟩

/-- Four instructions stand before the body. -/
theorem labelled_guardedBody
    (h : Labelled S (flattenBlock 0 (guardedBody plan c invalid start b')).labels) :
    Labelled S (flattenBlock 4 b').labels := by
  refine fun x hx => h x ?_
  simpa [guardedBody, Made.block, Made.label, Made.callHost, Plan.setState, assignState,
    Made.assign, Plan.returnBool, flattenBlock, flattenStmts, flattenStmt, sizeStmt] using
    .inr (.inr (.inl hx))

/-! ## The statements of the method -/

/-- At the position the observer notes nothing that matters. -/
def Unnoted (S : Setting σ) (r : Ref) (I : Phase → World σ → Prop) (p : Nat) : Prop :=
  ∀ φ d, d.At r (I φ) → (S.observer.note p d).At r (I φ)

/-- No frame is entered before the body and behind it. -/
theorem unnoted_outside (H : Tracks S plan owner c element r I entered)
    (himage : ImageBlock plan T element stateRunning b c b')
    (hlabelled : Labelled S (flattenBlock 0 (guardedBody plan c invalid start b')).labels)
    (hentered : ∀ f ∈ entered, f ∈ Frame.preorderAll c.children) {p : Nat}
    (hp : p < 4 ∨ 4 + sizeBlock b' ≤ p) : Unnoted S r I p := by
  have hentries := imageBlock_entries himage 4 (labelled_guardedBody hlabelled)
  refine H.note p fun f hf heq => ?_
  have := hentries f (hentered f hf)
  omega

/-- Nothing but the dispatch goes to the first two labels. -/
theorem Enters.arrives {l : Option Label} {d : Config σ}
    (h : Enters T r I free strict invalid start l d) (hinvalid : l ≠ some invalid)
    (hstart : l ≠ some start) : Arrives T r I free strict l d :=
  (h.resolve_left fun h => hinvalid h.1).resolve_left fun h => hstart h.1

theorem Enters.at_invalid (hT : T.Functional) (hinvalid : T (some invalid) (.inner []))
    (hdistinct : invalid ≠ start) {d : Config σ}
    (h : Enters T r I free strict invalid start (some invalid) d) : ∃ s, d.At r (I (.inState s)) := by
  rcases h with ⟨-, hd⟩ | ⟨hl, -⟩ | hd
  · exact hd
  · exact absurd (Option.some.inj hl) hdistinct
  · obtain ⟨s, hs, -⟩ := hd.states hT hinvalid
    cases hs

theorem Enters.at_start (hT : T.Functional) (hstart : T (some start) (.inner []))
    (hdistinct : invalid ≠ start) {d : Config σ}
    (h : Enters T r I free strict invalid start (some start) d) :
    d.At r (I (.inState stateCreated)) := by
  rcases h with ⟨hl, -⟩ | ⟨-, hd⟩ | hd
  · exact absurd (Option.some.inj hl).symm hdistinct
  · exact hd
  · obtain ⟨s, hs, -⟩ := hd.states hT hstart
    cases hs

/-- The end of the body is reached while the machine is running. -/
theorem Enters.at_exit (hT : T.Functional)
    (hexit : T (some plan.exit) (.leading stateRunning (some plan.exit)))
    (hfresh : Fresh plan invalid start b') {d : Config σ}
    (h : Enters T r I free strict invalid start (some plan.exit) d) :
    d.At r (I (.inState stateRunning)) := by
  have harrives := h.arrives (fun h => hfresh.exit.1 (Option.some.inj h))
    fun h => hfresh.exit.2 (Option.some.inj h)
  obtain ⟨s, hs, hd, -⟩ := harrives.states hT hexit
  rw [← List.mem_singleton.mp hs]
  exact hd

/-- A return of a truth value. -/
theorem spec_returnBool (value : Bool) {pre : Config σ → Prop}
    (hnote : ∀ d, pre d → X.ret (.bool value) (S.observer.note pc d)) :
    Spec X place (labelsStmt (plan.returnBool value)) pre (fun _ => False)
      (S.exec scope pc near (plan.returnBool value)) := by
  refine Spec.leaf rfl (X.ret (.bool value)) hnote (.effect (fun d v d' hd hd' => ?_)
    fun d E d' hd hd' => ?_)
  all_goals cases hd'
  exact hd

/-- The dispatch at the start goes to where the machine is in its state. -/
theorem spec_firstDispatch (H : Tracks S plan owner c element r I entered)
    (himage : ImageBlock plan T element stateRunning b c b') (hnote : Unnoted S r I 0) (s : Int) :
    Spec (endsOf T r I free strict invalid start c) (Enters T r I free strict invalid start)
      (labelsStmt (.dispatch (.made plan.provenance) plan.stateRef
        (⟨stateCreated, some start⟩ :: c.resumeCases) (some invalid)))
      (fun d => d.At r (I (.inState s))) (fun _ => False) (S.exec scope 0 []
        (.dispatch (.made plan.provenance) plan.stateRef
          (⟨stateCreated, some start⟩ :: c.resumeCases) (some invalid))) := by
  refine Spec.mono (spec_dispatch H (fun s => hnote _) fun s' hs' d hd => ?_)
    (.refl _) (fun d hd => ⟨s, List.mem_singleton_self s, hd⟩) fun d hd => hd
  rcases caseLabel_cases (⟨stateCreated, some start⟩ :: c.resumeCases) (some invalid) s' with
    ⟨x, hx, hvalue, hlabel⟩ | ⟨-, hlabel⟩
  · rw [hlabel]
    rcases List.mem_cons.mp hx with rfl | hx
    · obtain rfl : stateCreated = s' := hvalue
      exact .inr (.inl ⟨rfl, hd⟩)
    · obtain ⟨states, hstates, hmem⟩ := (imageBlock_reached himage).resumeCase hx
      rw [hvalue] at hmem
      exact .inr (.inr ⟨s', ⟨_, hstates, hmem, by rintro _ _ ⟨⟩⟩, hd⟩)
  · rw [hlabel]
    exact .inl ⟨rfl, s', hd⟩

/-- The check of resumptions fails in the state that it finds. -/
theorem spec_refuse (H : Tracks S plan owner c element r I entered) (hnote : Unnoted S r I pc) :
    Spec (endsOf T r I free strict invalid start c) place
      (labelsStmt (Made.callHost plan.provenance .invalidResumption))
      (fun d => ∃ s, d.At r (I (.inState s))) (fun _ => False)
      (S.exec scope pc near (Made.callHost plan.provenance .invalidResumption)) := by
  refine Spec.expression (H.plain _) (fun d => ∃ s, d.At r (I (.inState s)))
    (fun d => Exists.imp fun s => hnote _ d) (fun d v d' hd hd' => ?_) fun d f d' hd hd' => ?_
  all_goals
    rw [eval_invalidResumption] at hd'
    cases hd'
  exact hd

/-- The body begins and ends while the machine is running. -/
theorem spec_body (H : Tracks S plan owner c element r I entered) (hT : T.Functional)
    (himage : ImageBlock plan T element stateRunning b c b') (hready : ReadyBlock (OfUser owner) b)
    (hfree : free (some plan.exit)) (horderly : strict = true → OrderlyBlock free b)
    (hfresh : Fresh plan invalid start b')
    (hlabelled : Labelled S (flattenBlock 0 (guardedBody plan c invalid start b')).labels)
    (hentered : ∀ f ∈ entered, f ∈ Frame.preorderAll c.children) :
    Spec (endsOf T r I free strict invalid start c) (Enters T r I free strict invalid start)
      (labelsStmt (.block b')) (fun d => d.At r (I (.inState stateRunning)))
      (fun d => d.At r (I (.inState stateRunning))) (S.exec scope 4 [] (.block b')) := by
  have hinner := labelled_guardedBody hlabelled
  have hsite : Site S c entered stateRunning c 4 (sizeBlock b') (flattenBlock 4 b').labels :=
    ⟨⟨c, .top, fun s hs => hs, fun f hf => hf⟩, fun _ => hinner, fun f hf _ _ => hentered f hf⟩
  have hblock := track_block H hT hfree himage hready horderly scope 4 [] hsite
  refine Spec.mono (Spec.places (Spec.block hblock fun p l d hd => arrives_of_jump hd scope p _)
    fun l hl d hd => ?_) (waysOutOf_endsOf c) (fun d hd => hd) fun d hd => hd
  obtain ⟨hinvalid, hstart⟩ := hfresh.body l hl
  exact hd.arrives hinvalid hstart

/-- What is known in each state is carried through the method that resumes: it begins in any state,
and ends in a suspension, at the end of the body, or in a failure.  In strict use nothing stops
it. -/
theorem track_guardedBody (H : Tracks S plan owner c element r I entered) (hT : T.Functional)
    (hexit : T (some plan.exit) (.leading stateRunning (some plan.exit)))
    (hinvalid : T (some invalid) (.inner [])) (hstart : T (some start) (.inner []))
    (himage : ImageBlock plan T element stateRunning b c b') (hready : ReadyBlock (OfUser owner) b)
    (hfree : free (some plan.exit)) (horderly : strict = true → OrderlyBlock free b)
    (hnodup : (labelsBlock (guardedBody plan c invalid start b')).Nodup)
    (hlabelled : Labelled S (flattenBlock 0 (guardedBody plan c invalid start b')).labels)
    (hentered : ∀ f ∈ entered, f ∈ Frame.preorderAll c.children)
    (hbegin : ∀ w, I (.inState stateCreated) w →
      I (.inState stateRunning) (w.put r plan.state (.int stateRunning)))
    (hend : ∀ w, I (.inState stateRunning) w →
      I (.inState stateFinished) (w.put r plan.state (.int stateFinished)))
    (scope : Range) (s : Int) :
    (S.rounds scope [] (labelsBlock (guardedBody plan c invalid start b'))
      (S.passBlock scope 0 [] (guardedBody plan c invalid start b')) .start).Meets
        (fun d => d.At r (I (.inState s)))
        ((endsOf T r I free strict invalid start c).Ends fun _ => False) := by
  have hfresh := fresh_of_nodup hnodup
  have hnote : ∀ {p : Nat}, p < 4 ∨ 4 + sizeBlock b' ≤ p → Unnoted S r I p := fun hp =>
    unnoted_outside H himage hlabelled hentered hp
  have hsets : ∀ {p : Nat} {near : List (Option Label)} {before behind : Int}, Unnoted S r I p →
      (∀ w, I (.inState before) w → I (.inState behind) (w.put r plan.state (.int behind))) →
      Spec (endsOf T r I free strict invalid start c) (Enters T r I free strict invalid start)
        (labelsStmt (plan.setState behind)) (fun d => d.At r (I (.inState before)))
        (fun d => d.At r (I (.inState behind))) (S.exec scope p near (plan.setState behind)) :=
    fun hp hput => spec_setState H fun d hd =>
      have hd := hp _ d hd
      ⟨hd.this, hput _ hd.world⟩
  have hfirst : Unnoted S r I 0 := hnote (by omega)
  have hsecond : Unnoted S r I 1 := hnote (by omega)
  have hfourth : Unnoted S r I 3 := hnote (by omega)
  have hbehind : Unnoted S r I (4 + sizeBlock b') := hnote (by omega)
  have hlast : Unnoted S r I (4 + sizeBlock b' + 0 + 1) := hnote (by omega)
  have hstatements : Spec (endsOf T r I free strict invalid start c)
      (Enters T r I free strict invalid start)
      (labelsBlock (guardedBody plan c invalid start b')) (fun d => d.At r (I (.inState s)))
      (fun _ => False) (S.passBlock scope 0 [] (guardedBody plan c invalid start b')) :=
    .cons rfl (spec_firstDispatch H himage hfirst s) <|
    .cons rfl (.label (fun _ hd => hd.elim) fun _ hd => hd.at_invalid hT hinvalid hfresh.distinct) <|
    .cons rfl (spec_refuse H hsecond) <|
    .cons rfl (spec_returnBool false fun _ hd => hd.elim) <|
    .cons rfl (.label (fun _ hd => hd.elim) fun _ hd => hd.at_start hT hstart hfresh.distinct) <|
    .cons rfl (hsets hfourth hbegin) <|
    .cons rfl (spec_body H hT himage hready hfree horderly hfresh hlabelled hentered) <|
    .cons rfl (.label (fun _ hd => hd) fun _ hd => hd.at_exit hT hexit hfresh) <|
    .cons rfl (hsets hbehind hend) <|
    .cons rfl (spec_returnBool false fun d hd => .inr ⟨rfl, hlast _ d hd⟩) .nil
  exact hstatements.rounds (fun p l d _ hd => enters_leave hd scope p _)
    (fun _ _ _ hl => absurd hl List.not_mem_nil) .start rfl

end Method

end Resumable.StateMachine
