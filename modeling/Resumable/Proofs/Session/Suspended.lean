import Resumable.Proofs.Session.Faults
import Resumable.Proofs.Session.Guarded

/-!
# How the code inside the handler ends

The code that resumes a machine, inside the handler around it, ends in one of three ways: it says that
there is an element, the body is at its end, or it has failed in some state (`Built.unguarded_ends`).
This takes that nothing is thrown again and that no finally is entered from outside, since otherwise
the run can end at once in a state that is none of a suspension.
-/

set_option autoImplicit false

namespace Resumable.StateMachine

open Resumable.Symbol Resumable.Tree Resumable.Source Resumable.Lowering
open Resumable.Machine hiding Region Outcome Handler

variable {σ : Type}

/-! ## Levels -/

theorem Frame.rooted_of_mem {field : Field} {parent : Int} {fs : List Frame} {f : Frame}
    (h : Frame.RootedAll field parent fs) (hf : f ∈ fs) : f.Rooted field parent := by
  induction fs with
  | nil => cases hf
  | cons g rest ih =>
    rcases List.mem_cons.mp hf with rfl | hf
    · exact h.1
    · exact ih h.2 hf

/-- The frames inside of frames are those inside of one of them. -/
theorem Frame.preorderAll_of_mem {fs : List Frame} {f g : Frame} (hf : f ∈ fs)
    (hg : g ∈ f.preorder) : g ∈ Frame.preorderAll fs := by
  induction fs with
  | nil => cases hf
  | cons first rest ih =>
    rw [Frame.preorderAll, List.mem_append]
    rcases List.mem_cons.mp hf with rfl | hf
    · exact .inl hg
    · exact .inr (ih hf)

section Levels

variable {root c : Contents} {st : Int}

/-- The finallys of the frames of a level set the state of the level. -/
theorem Level.rooted {field : Field} (hroot : Frame.RootedAll field stateRunning root.children)
    (h : Level root st c) : Frame.RootedAll field st c.children := by
  induction h with
  | top => exact hroot
  | inside _ hf ih => exact Frame.rooted_children (Frame.rooted_of_mem ih hf)

/-- The frames of a level are among all frames. -/
theorem Level.preorder (h : Level root st c) :
    ∀ f ∈ Frame.preorderAll c.children, f ∈ Frame.preorderAll root.children := by
  induction h with
  | top => exact fun f hf => hf
  | @inside st c g _ hg ih =>
    refine fun f hf => ih f (Frame.preorderAll_of_mem hg ?_)
    rw [Frame.preorder_eq]
    exact List.mem_cons_of_mem _ hf

theorem Level.mem (h : Level root st c) {f : Frame} (hf : f ∈ c.children) :
    f ∈ Frame.preorderAll root.children :=
  h.preorder f (Frame.preorderAll_of_mem hf f.mem_preorder_self)

end Levels

/-! ## What is known in each phase -/

/-- The state of a machine while it is resumed. -/
def Resting (r : Ref) (state : Field) : Phase → World σ → Prop
  | .inState s, w | .stored s _, w | .given s, w => w.Reads r state (.int s)

section Calls

variable {machine : Machine σ} {r : Ref} {markers : Bool} {origin : MethodBody} {owner : TypeDecl}
  {sm : StateMachine} {plan : Plan} {c : Contents} {b : Block} {k n : Nat}

/-- The steps of the method that resumes carry over what is known in each phase. -/
theorem Built.tracks (h : Built markers origin owner sm plan c b k n) (hcarries : Carries sm machine)
    (hundisturbed : Undisturbed machine r) (steps depth : Nat) (method : Method) (body : Block) :
    Tracks (settingWithin machine steps (depth + 1) method body) plan owner c (ElementOf b) r
      (Resting r plan.state) [] := by
  have huser : ∀ e, OfUser owner e → ∀ s, (eval (contextWithin machine steps (depth + 1) method)
      e).Keeps r (World.Reads r plan.state (.int s)) := fun e he s => by
    refine eval_keeps (callHost_keeps hundisturbed (fun _ _ hobject hw => hw.of_object hobject)
      steps (depth + 1) method) (fun g v hg w hw => hw.put_of_ne ?_) he
    rw [h.planned]
    exact hg
  have hclean := h.cleanable hcarries hundisturbed steps depth
  rw [h.state] at hclean
  exact
    { plain := fun e => rfl
      note := fun p _ φ d hd => hd
      user := huser
      reads := fun s w hw => hw
      enter := fun _ _ p _ d hd => ⟨hd.this, .put_self hd.world.present⟩
      own := fun hlevel hf => (hclean _ (hlevel.mem hf)).own
      cleanup := fun hlevel hf w z v hw hcall => by
        obtain ⟨o, rest, hbody⟩ := (Frame.rooted_of_mem (hlevel.rooted h.rooted) hf).body
        exact (hclean _ (hlevel.mem hf)).leaves hbody hw.present hcall
      store := fun _ _ e _ he d hd _ d' hv =>
        (huser e he _ d hd _ d' hv).world.put_of_ne h.distinct
      suspend := fun _ _ w hw => .put_self hw.present
      resume := fun _ _ w hw => .put_self hw.present }

/-- The label at the end of the body is not one of the body. -/
theorem Prepared.exit_notMem (h : Prepared owner plan c b k n) :
    some plan.exit ∉ landingsBlock b := by
  intro hmem
  rw [h.exit] at hmem
  rcases h.earlier _ hmem with hprogram | hmade
  · simp [OfProgram] at hprogram
  · obtain ⟨stem, i, hi, -, hhigh, -⟩ := hmade
    simp only [Option.some.injEq, Label.generated.injEq, Int.natCast_inj] at hi
    omega

/-- If nothing is thrown again and no finally is entered from outside, the hoisted body is orderly:
its jumps go to labels outside of finallys or to its end. -/
theorem Built.orderly (h : Built markers origin owner sm plan c b k n)
    (hrethrow : rethrowsBlock origin.body = false)
    (hunentered : ∀ x ∈ regionsBlock [] origin.body, x.Unentered) :
    OrderlyBlock (fun l => l ∈ openBlock b ∨ l = some plan.exit) b := by
  refine orderlyBlock_of_leads (h.settled false (.inr hrethrow))
    ((h.leads hunentered).mono fun l hl => .inl hl) fun l hl => ?_
  have hnodup := (landingsBlock_open b).nodup_iff.mp h.prepared.nodup
  rintro (hopen | rfl)
  · exact (List.nodup_append.mp hnodup).2.2 l hopen l hl rfl
  · exact h.prepared.exit_notMem ((mem_landings_open b).mpr (.inr hl))

/-- How the code inside the handler ends. -/
theorem Built.unguarded_ends (h : Built markers origin owner sm plan c b k n)
    (hrethrow : rethrowsBlock origin.body = false)
    (hunentered : ∀ x ∈ regionsBlock [] origin.body, x.Unentered)
    (hcarries : Carries sm machine) (hundisturbed : Undisturbed machine r) {steps depth : Nat}
    {w v : World σ} (hw : HoldsNumber r sm.state w) {z : Except Failure Value}
    (hactivate : activate machine (callWithin machine steps (depth + 1)) steps
      (routineOf sm.moveNext.symbol (unguarded sm.moveNext.body)) (some r) [] w = some (z, v)) :
    z = .ok (.bool true) ∨
      (z = .ok (.bool false) ∧ v.Reads r sm.state (.int stateFinished)) ∨
      ∃ E s, z = .error E ∧ v.Reads r sm.state (.int s) := by
  obtain ⟨T, invalid, start, b', hresumes⟩ := h.resumes
  have hbody : sm.moveNext.body = guarding plan.provenance plan.state.owner sm.dispose.symbol
      (guardedBody plan c invalid start b') := by
    rw [hresumes.body, moveNextBody_eq, h.disposeSymbol, guarding]
  have hexecutable := h.executable sm.moveNext List.mem_cons_self
  rw [hbody] at hexecutable hactivate
  have hpresent : guardedBody plan c invalid start b' ≠ .absent := by rintro ⟨⟩
  have hinner := executable_of_guarding hpresent hexecutable
  obtain ⟨o, d, ho, rfl, rfl⟩ := execBody_of_activate hinner hactivate
  obtain ⟨s, hs⟩ := hw
  rw [h.state] at hs ⊢
  have hends := track_guardedBody (h.tracks hcarries hundisturbed steps depth
      sm.moveNext.symbol (guardedBody plan c invalid start b')) hresumes.functional hresumes.exit
    hresumes.invalid hresumes.start hresumes.image h.user (.inr rfl)
    (fun _ : true = true => h.orderly hrethrow hunentered) hinner.nodup
    (hinner.placed _ _ _).label (fun f hf => absurd hf List.not_mem_nil)
    (fun w hw => .put_self (World.Reads.present hw)) (fun w hw => .put_self (World.Reads.present hw))
    (routineOf sm.moveNext.symbol (guardedBody plan c invalid start b')).range s
    ⟨{ this := some r, args := [] }, w⟩ ⟨rfl, hs⟩
  obtain ⟨hnormal, hjump⟩ := hinner.execBody_ne rfl ho
  rcases Flow.onNormal_eq_some.mp ho with ⟨d', hrounds, -⟩ | ⟨hrounds, -⟩
  · exact (hends _ d' hrounds).elim
  · have hend := hends o d hrounds
    cases o with
    | normal => exact absurd rfl hnormal
    | jump pc l => exact absurd rfl (hjump pc l)
    | ret pc x =>
      rcases hend with ⟨rfl, s, -, hd⟩ | ⟨rfl, hd⟩
      · exact .inl rfl
      · exact .inr (.inl ⟨rfl, hd.world⟩)
    | fail pc E =>
      obtain ⟨s, hd⟩ := hend
      exact .inr (.inr ⟨E, s, rfl, hd.world⟩)
    | suspend pc x => exact hend.elim
    | stop result => exact absurd hend.1 Bool.noConfusion

end Calls

end Resumable.StateMachine
