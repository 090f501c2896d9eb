import Resumable.Proofs.Lowering.Scopes
import Resumable.Proofs.Session.Disposal
import Resumable.Proofs.StateMachine.Image

/-!
# The method that resumes

The method that resumes a state machine is made of the image of the method's body, inside a try
whose handler disposes of the machine (`Built.resumes`).
-/

set_option autoImplicit false

namespace Resumable.StateMachine

open Resumable.Symbol Resumable.Tree Resumable.Source Resumable.Lowering Resumable.Machine

variable {σ : Type}

/-! ## The body of the method -/

/-- The expression of the suspension point with the number. -/
def ElementOf (b : Block) (i : Int) (e : Expr) : Prop :=
  ∃ k : Nat, i = (k + 1 : Nat) ∧ (elementsBlock b)[k]? = some e

/-- The code inside the outermost try of the method that resumes. -/
def guardedBody (plan : Plan) (contents : Contents) (invalid start : Label) (body : Block) :
    Block :=
  let p := plan.provenance
  let cases := ⟨stateCreated, some start⟩ :: contents.resumeCases
  Made.block p
    [.dispatch (.made p) plan.stateRef cases (some invalid),
      Made.label p invalid, Made.callHost p .invalidResumption, plan.returnBool false,
      Made.label p start, plan.setState stateRunning, .block body,
      Made.label p plan.exit, plan.setState stateFinished, plan.returnBool false]

theorem moveNextBody_eq (plan : Plan) (dispose : Method) (c : Contents) (invalid start : Label)
    (b : Block) : moveNextBody plan dispose c invalid start b =
      Made.block plan.provenance [.try (.made plan.provenance) (guardedBody plan c invalid start b)
        [faultHandler plan.provenance plan.state.owner dispose] .absent] := rfl

/-- The method that resumes is made of the image `b'` of the body `b`.  Neither of its first two
labels is reached from inside the image, and the last one is reached outside of every frame. -/
structure Resumes (plan : Plan) (dispose : Method) (c : Contents) (b : Block) (body : Block)
    (T : Table) (invalid start : Label) (b' : Block) : Prop where
  body : body = moveNextBody plan dispose c invalid start b'
  image : ImageBlock plan T (ElementOf b) stateRunning b c b'
  functional : T.Functional
  exit : T (some plan.exit) (.leading stateRunning (some plan.exit))
  invalid : T (some invalid) (.inner [])
  start : T (some start) (.inner [])

/-- What lowering leaves as it is in the body, it leaves as it is around it. -/
theorem settled_guardedBody {markers again : Bool} (plan : Plan) (c : Contents)
    (invalid start : Label) {b : Block} (hb : SettledBlock markers again b) :
    SettledBlock markers again (guardedBody plan c invalid start b) :=
  ⟨rfl, trivial, trivial, trivial, trivial, trivial, trivial, hb, trivial, trivial, trivial,
    trivial⟩

/-- The same for the whole method. -/
theorem settled_moveNextBody {markers : Bool} (plan : Plan) (dispose : Method) (c : Contents)
    (invalid start : Label) {b : Block} (hb : SettledBlock markers true b) :
    SettledBlock markers true (moveNextBody plan dispose c invalid start b) := by
  have hguarded := settled_guardedBody plan c invalid start hb
  have hrethrow : SettledBlock markers true (Made.block plan.provenance
      [.throw (.made plan.provenance) .absent]) := ⟨rfl, .inl rfl, trivial⟩
  have hhandler : SettledCatches markers true
      [faultHandler plan.provenance plan.state.owner dispose] :=
    ⟨⟨rfl, ⟨⟨rfl, trivial, trivial⟩, trivial, .inr hrethrow, .inl rfl⟩, trivial⟩, trivial⟩
  exact ⟨rfl, ⟨hguarded, hhandler, .inl rfl, .inr rfl⟩, trivial⟩

variable {markers : Bool} {origin : MethodBody} {owner : TypeDecl} {sm : StateMachine} {plan : Plan}
  {c : Contents} {b : Block} {k n : Nat}

/-- Only the scope of the whole body is left behind its conversion, without ways out of it. -/
theorem unrouted {owners : List (Option Label × Int)} {st : Int} {rest : Contents}
    {routes routes' : List Route} {outer : List Scope}
    (hgrown : Grown [⟨st, rest, routes⟩] (⟨st, rest, routes'⟩ :: outer))
    (hlinked : Linked owners (⟨st, rest, routes'⟩ :: outer)) : routes' = [] := by
  have houter : outer = [] := by
    cases outer with
    | nil => rfl
    | cons => exact hgrown.2.2.2.elim
  subst houter
  refine List.eq_nil_iff_forall_not_mem.mpr fun r hr => ?_
  obtain ⟨s, hs, -⟩ := hlinked.1 r hr
  cases hs

/-- The method that resumes is made of what the conversion of the body gives.  Lowering has nothing
left to do in it. -/
theorem Built.converts (h : Built markers origin owner sm plan c b k n) :
    ∃ invalid start b' scopes' i j,
      convertBlock plan b [⟨stateRunning, c, []⟩] i = (.ok (b', scopes'), j) ∧
      sm.moveNext.body = moveNextBody plan (.dispose owner) c invalid start b' := by
  obtain ⟨body, n', hbuild, hwalked⟩ := h.moveNext
  obtain ⟨invalid, n₁, hinvalid, hbuild⟩ := Lower.bind_ok.mp hbuild
  obtain ⟨start, n₂, hstart, hbuild⟩ := Lower.bind_ok.mp hbuild
  obtain ⟨⟨b', scopes'⟩, n₃, hconvert, hbuild⟩ := Lower.bind_ok.mp hbuild
  obtain ⟨rfl, -⟩ := Lower.pure_ok.mp hbuild
  refine ⟨invalid, start, b', scopes', n₂, n₃, hconvert, ?_⟩
  have helements : Elements (fun _ _ => True) 0 (elementsBlock b) := fun _ _ _ => trivial
  obtain ⟨_, _, _, _, _, _, _, _, himage⟩ :=
    convertBlock_image h.prepared.ready h.prepared.guarded h.prepared.contents helements {} [] [] n₂
      b' scopes' n₃ ⟨fun r hr => (nomatch hr), trivial⟩ (by rw [Contents.append_nil]; exact hconvert)
  have hsettled := imageBlock_settled
    (himage (fun _ _ => True) (fun _ _ => trivial) (fun _ _ => trivial) fun _ _ => trivial)
    (h.settled true (.inl rfl))
  exact settledBlock_walked (settled_moveNextBody plan (.dispose owner) c invalid start hsettled)
    hwalked

/-- The conversion of the body is all that the method is made of. -/
theorem Built.resumes (h : Built markers origin owner sm plan c b k n) :
    ∃ T invalid start b',
      Resumes plan (.dispose owner) c b sm.moveNext.body T invalid start b' := by
  obtain ⟨invalid, start, b', scopes', n₂, n₃, hconvert, hbody⟩ := h.converts
  have helements : Elements (ElementOf b) 0 (elementsBlock b) := fun i e hi =>
    ⟨i, by rw [Nat.zero_add], hi⟩
  obtain ⟨routes, outer, entries, rfl, hgrown, hlinked, hperm, hown, himage⟩ :=
    convertBlock_image h.prepared.ready h.prepared.guarded h.prepared.contents
      helements {} [] [] n₂ b' scopes' n₃ ⟨fun r hr => (nomatch hr), trivial⟩
      (by rw [Contents.append_nil]; exact hconvert)
  obtain rfl := unrouted hgrown hlinked
  have himage : ∀ T : Table, T.Has entries →
      T (some plan.exit) (.leading stateRunning (some plan.exit)) →
      ImageBlock plan T (ElementOf b) stateRunning b c b' := by
    intro T hentries hexit
    refine himage T hentries (fun l hl => ?_) fun r hr => (nomatch hr)
    rcases (h.prepared.owners l).mp hl with rfl | hl
    · exact hexit
    · exact hentries _ (hown l hl)
  -- The labels of the method are those of the entries.
  obtain ⟨hverified, hnodup, -⟩ := verify_block_iff.mp (h.verified sm.moveNext List.mem_cons_self)
  rw [← (landingsBlock_of_verified hverified).1, hbody, landingsBlock_moveNextBody] at hnodup
  obtain ⟨made, hmade⟩ : ∃ made : List (Option Label × Place), made =
      (some invalid, .inner []) :: (some start, .inner []) :: (entries ++
        [(some plan.exit, .leading stateRunning (some plan.exit))]) := ⟨_, rfl⟩
  have hmem : ∀ x, x ∈ made ↔ x = (some invalid, .inner []) ∨ x = (some start, .inner []) ∨
      x ∈ entries ∨ x = (some plan.exit, .leading stateRunning (some plan.exit)) := by
    simp [hmade]
  have hfunctional : (Table.ofEntries made).Functional := by
    refine Table.ofEntries_functional (List.Perm.nodup_iff ?_ |>.mpr hnodup)
    rw [hmade]
    simp only [List.map_cons, List.map_append, List.map_nil]
    exact .cons _ (.cons _ (hperm.append_right _))
  have hexit := (hmem (some plan.exit, _)).mpr (.inr (.inr (.inr rfl)))
  exact ⟨Table.ofEntries made, invalid, start, b', hbody,
    himage _ (fun x hx => (hmem x).mpr (.inr (.inr (.inl hx)))) hexit, hfunctional, hexit,
    (hmem _).mpr (.inl rfl), (hmem _).mpr (.inr (.inl rfl))⟩

/-! ## What resuming keeps -/

/-- The field of the object holds a number. -/
def HoldsNumber (r : Ref) (f : Field) (w : World σ) : Prop := ∃ s, w.Reads r f (.int s)

section Keeps

variable {machine : Machine σ} {r : Ref}

/-- The expressions of the method that resumes leave a number in the state. -/
theorem Built.brings (h : Built markers origin owner sm plan c b k n)
    (steps depth : Nat) (method : Method) : Brings plan fun e =>
      (eval (contextWithin machine steps depth method) e).Keeps r (HoldsNumber r plan.state) where
  read := eval_field_keeps _ _
  bool _ _ := by
    simp only [Made.bool, eval]
    exact .pure _
  set p state := by
    intro c hc z d hd
    obtain ⟨-, hpresent, -⟩ := hc.world
    rw [show Expr.assignment _ _ _ = stateAssignment p plan.state state from rfl,
      eval_stateAssignment _ p plan.state state hc.this] at hd
    cases hd
    exact ⟨hc.this, state, .put_self hpresent⟩
  store p e he := by
    simp only [Made.field, Made.this, eval, store]
    refine .bind he fun v => .bind (.writeField _ ?_) fun _ => .pure _
    rintro w ⟨s, hs⟩
    exact ⟨s, hs.put_of_ne h.distinct⟩

/-- The code inside the outermost try leaves a number in the state. -/
theorem Built.guarded_keeps (h : Built markers origin owner sm plan c b k n)
    (hcarries : Carries sm machine) (hundisturbed : Undisturbed machine r) {T : Table}
    {invalid start : Label} {b' : Block}
    (hresumes : Resumes plan (.dispose owner) c b sm.moveNext.body T invalid start b')
    (steps depth : Nat) (method : Method) : FormedBlock (fun e =>
      (eval (contextWithin machine steps (depth + 1) method) e).Keeps r (HoldsNumber r plan.state))
      (guardedBody plan c invalid start b') := by
  have hbrings : Brings plan fun e => (eval (contextWithin machine steps (depth + 1) method)
      e).Keeps r (HoldsNumber r plan.state) := h.brings steps (depth + 1) method
  have huser : ∀ e, OfUser owner e → (eval (contextWithin machine steps (depth + 1) method) e).Keeps
      r (HoldsNumber r plan.state) := fun e he => by
    refine eval_keeps (callHost_keeps hundisturbed ?_ steps (depth + 1) method) ?_ he
    · rintro w w' hobject ⟨s, hs⟩
      exact ⟨s, hs.of_object hobject⟩
    · rintro g v hg w ⟨s, hs⟩
      refine ⟨s, hs.put_of_ne ?_⟩
      rw [h.planned]
      exact hg
  have hcall : ∀ f ∈ Frame.preorderAll c.children, ∀ p,
      (eval (contextWithin machine steps (depth + 1) method) (cleanupCall p f)).Keeps r
        (HoldsNumber r plan.state) := by
    intro f hf p e he z d hd
    obtain ⟨parent, hroot⟩ := Frame.rootedAll_inside h.rooted hf
    obtain ⟨o, rest, hbody⟩ := hroot.body
    have hclean := h.cleanable hcarries hundisturbed steps depth f hf
    rw [cleanupCall, eval_callThis he.this hclean.own] at hd
    obtain ⟨⟨z', v⟩, hz, heq⟩ := Option.map_eq_some_iff.mp hd
    cases heq
    obtain ⟨-, hpresent, -⟩ := he.world
    rw [← h.state] at hbody ⊢
    exact ⟨he.this, parent, hclean.leaves hbody hpresent hz⟩
  have hb' := imageBlock_formed hbrings hresumes.image (h.user.mono huser) hcall
  exact ⟨.inl rfl, hbrings.read, trivial, huser _ rfl, .inr (hbrings.bool _ _), trivial,
    hbrings.set _ _, hb', trivial, hbrings.set _ _, .inr (hbrings.bool _ _), trivial⟩

end Keeps

end Resumable.StateMachine
