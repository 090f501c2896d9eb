import Resumable.Proofs.Machine.Contained
import Resumable.Proofs.Session.Counted

/-!
# Where the code of frames and suspensions stands

In the image of a body, the code of each frame and of each suspension point stands directly in the
parts of tries that the image stands in (`imageBlock_sited`): no try of the user's that is left in
place has any of them inside.  The dispatches of the image are those of its frames
(`imageBlock_dispatches`).
-/

set_option autoImplicit false

namespace Resumable.StateMachine

open Resumable.Symbol Resumable.Tree Resumable.Source Resumable.Lowering
open Resumable.Machine hiding Region Outcome Handler

/-! ## The code of a frame -/

/-- What the code of a frame begins with: its state is set, and its dispatch stands between its
label and the one before what is inside. -/
def openingSites (plan : Plan) (p : Option Provenance) (f : Frame) (start : Label)
    (around : List Part) (pc : Nat) : List Machine.Site :=
  [⟨pc, .stmt (plan.setState f.state), around⟩,
    ⟨pc + 1, .stmt (Made.label p f.entry), around⟩,
    ⟨pc + 1, .stmt (.dispatch (.made p) plan.stateRef
      (Contents.resumeCases ⟨f.suspensions, f.children⟩) (some start)), around⟩,
    ⟨pc + 2, .stmt (Made.label p start), around⟩]

theorem sites_region (plan : Plan) (o body : Origin) (f : Frame) (start : Label) (b' : Block)
    (ways : List Stmt) (around : List Part) (pc : Nat) :
    sitesStmt around pc (region plan o body f start b'.statements ways) =
      openingSites plan o.provenance f start around pc ++ (sitesBlock around (pc + 2) b' ++
        sitesStmts around (pc + 2 + sizeBlock b') (callCleanup o.provenance f :: ways)) := by
  have hblock : sitesBlock around (pc + 2) b' = sitesStmts around (pc + 2) b'.statements := by
    cases b' <;> rfl
  have hsize : pc + 2 + sizeBlock b' = pc + 1 + 0 + sizeStmt (.block (.mk body.asGenerated []
      (.dispatch (.made o.provenance) plan.stateRef
        (Contents.resumeCases ⟨f.suspensions, f.children⟩) (some start) ::
          Made.label o.provenance start :: b'.statements))) := by
    rw [← Block.sizeBlock_statements]
    simp only [sizeStmt, sizeBlock, sizeStmts, Made.label]
    omega
  rw [hblock, hsize]
  rfl

theorem sites_suspend (plan : Plan) (o : Origin) (e : Expr) (s : Suspension) (frame : Int)
    (around : List Part) (pc : Nat) : sitesStmt around pc (suspend plan o e s frame) =
      [⟨pc, .stmt (Made.assign o.provenance (Made.field o.provenance plan.current) e), around⟩,
        ⟨pc + 1, .stmt (plan.setState s.state), around⟩,
        ⟨pc + 2, .stmt (plan.returnBool true), around⟩,
        ⟨pc + 3, .stmt (Made.label o.provenance s.resume), around⟩,
        ⟨pc + 3, .stmt (plan.setState frame), around⟩] := rfl

section Members

variable {plan : Plan} {around : List Part} {xs : List Machine.Site} {pc : Nat}

theorem opening_dispatch {p : Option Provenance} {f : Frame} {start : Label}
    (h : openingSites plan p f start around pc <:+: xs) :
    ⟨pc + 1, .stmt (.dispatch (.made p) plan.stateRef
      (Contents.resumeCases ⟨f.suspensions, f.children⟩) (some start)), around⟩ ∈ xs :=
  h.mem (List.mem_cons_of_mem _ (List.mem_cons_of_mem _ List.mem_cons_self))

theorem suspend_resume {o : Origin} {e : Expr} {s : Suspension} {frame : Int}
    (h : sitesStmt around pc (suspend plan o e s frame) <:+: xs) :
    ⟨pc + 3, .stmt (Made.label o.provenance s.resume), around⟩ ∈ xs := by
  rw [sites_suspend] at h
  exact h.mem (List.mem_cons_of_mem _ (List.mem_cons_of_mem _ (List.mem_cons_of_mem _
    List.mem_cons_self)))

end Members

/-! ## Frames and suspensions among sites -/

/-- The code of the suspension point of the frame `frame` stands among the sites. -/
def Suspends (plan : Plan) (element : Int → Expr → Prop) (around : List Part)
    (xs : List Machine.Site) (frame : Int) (s : Suspension) : Prop :=
  ∃ pc o e, element s.state e ∧ sitesStmt around pc (suspend plan o e s frame) <:+: xs

/-- The code of the frame stands among the sites. -/
def Opens (plan : Plan) (around : List Part) (xs : List Machine.Site) (f : Frame) : Prop :=
  ∃ pc p start, openingSites plan p f start around pc <:+: xs

/-- The code of the frames and suspension points of a part of a body stands among the sites. -/
structure Sited (plan : Plan) (element : Int → Expr → Prop) (around : List Part)
    (xs : List Machine.Site) (frame : Int) (c : Contents) : Prop where
  suspensions : ∀ s ∈ c.suspensions, Suspends plan element around xs frame s
  frames : ∀ f ∈ Frame.preorderAll c.children, Opens plan around xs f ∧
    ∀ s ∈ f.suspensions, Suspends plan element around xs f.state s

namespace Sited

variable {plan : Plan} {element : Int → Expr → Prop} {around : List Part}
  {xs ys : List Machine.Site} {frame : Int} {c d : Contents}

theorem empty : Sited plan element around xs frame {} :=
  ⟨List.forall_mem_nil _, List.forall_mem_nil _⟩

theorem mono (h : Sited plan element around xs frame c) (hsub : xs <:+: ys) :
    Sited plan element around ys frame c := by
  have hsuspends : ∀ {frame s}, Suspends plan element around xs frame s →
      Suspends plan element around ys frame s := fun ⟨pc, o, e, he, hs⟩ =>
    ⟨pc, o, e, he, hs.trans hsub⟩
  refine ⟨fun s hs => hsuspends (h.suspensions s hs), fun f hf => ?_⟩
  obtain ⟨⟨pc, p, start, hopens⟩, hinside⟩ := h.frames f hf
  exact ⟨⟨pc, p, start, hopens.trans hsub⟩, fun s hs => hsuspends (hinside s hs)⟩

theorem append (h : Sited plan element around xs frame c)
    (h' : Sited plan element around ys frame d) :
    Sited plan element around (xs ++ ys) frame (c.append d) := by
  have hleft := h.mono (List.prefix_append xs ys).isInfix
  have hright := h'.mono (List.suffix_append xs ys).isInfix
  refine ⟨fun s hs => ?_, fun f hf => ?_⟩
  · exact (List.mem_append.mp hs).elim (hleft.suspensions s) (hright.suspensions s)
  · rw [Contents.append, Frame.preorderAll_append, List.mem_append] at hf
    exact hf.elim (hleft.frames f) (hright.frames f)

/-- What stands inside a frame stands in its code. -/
theorem region {f : Frame} {b' : Block} {start : Label} {o body : Origin} {ways : List Stmt}
    {pc : Nat} (h : Sited plan element around (sitesBlock around (pc + 2) b') f.state
      ⟨f.suspensions, f.children⟩) :
    Sited plan element around
      (sitesStmt around pc (StateMachine.region plan o body f start b'.statements ways)) frame
      ⟨[], [f]⟩ := by
  rw [sites_region]
  have hinside := h.mono (((List.prefix_append _ (sitesStmts around (pc + 2 + sizeBlock b')
    (callCleanup o.provenance f :: ways))).isInfix).trans
      (List.suffix_append (openingSites plan o.provenance f start around pc) _).isInfix)
  refine ⟨List.forall_mem_nil _, fun g hg => ?_⟩
  rw [Frame.preorderAll, Frame.preorderAll, List.append_nil, Frame.preorder_eq, List.mem_cons] at hg
  rcases hg with rfl | hg
  · exact ⟨⟨pc, o.provenance, start, (List.prefix_append _ _).isInfix⟩, hinside.suspensions⟩
  · exact hinside.frames g hg

end Sited

section Image

variable {plan : Plan} {T : Table} {element : Int → Expr → Prop}

mutual

theorem image_sited : ∀ {s : Stmt} {frame : Int} {c : Contents} {t : Stmt},
    Image plan T element frame s c t → ∀ around pc,
      Sited plan element around (sitesStmt around pc t) frame c
  | .block b, _, _, _, ⟨_, h, rfl⟩ => imageBlock_sited (b := b) h
  | .list _ ss, frame, c, _, ⟨ts, h, rfl⟩ => @imageAll_sited ss frame c ts h
  | .yieldReturn o e, _, _, _, ⟨s, rfl, he, _, rfl⟩ => by
    refine fun around pc => ⟨fun s' hs' => ?_, List.forall_mem_nil _⟩
    obtain rfl := List.mem_singleton.mp hs'
    exact ⟨pc, o, e, he, List.infix_refl _⟩
  | .yieldBreak _, _, _, _, ⟨rfl, _⟩ | .goto .., _, _, _, ⟨rfl, _⟩
  | .conditionalGoto .., _, _, _, ⟨rfl, _⟩ | .label .., _, _, _, ⟨rfl, _⟩
  | .sequencePoint .., _, _, _, ⟨rfl, _⟩ | .expression .., _, _, _, ⟨rfl, _⟩
  | .throw .., _, _, _, ⟨rfl, _⟩ => fun _ _ => .empty
  | .try .., _, _, _, h => by
    rw [Image] at h
    split at h
    · obtain ⟨f, start, b', ways, rfl, -, -, himage, -, rfl⟩ := h
      exact fun around pc => (imageBlock_sited himage around (pc + 2)).region
    · obtain ⟨rfl, -⟩ := h
      exact fun _ _ => .empty
  | .absent, _, _, _, h | .noOp .., _, _, _, h | .localDeclaration .., _, _, _, h
  | .return .., _, _, _, h | .if .., _, _, _, h | .while .., _, _, _, h | .break .., _, _, _, h
  | .continue .., _, _, _, h | .dispatch .., _, _, _, h | .foreign .., _, _, _, h => h.elim

theorem imageAll_sited : ∀ {ss : List Stmt} {frame : Int} {c : Contents} {ts : List Stmt},
    ImageAll plan T element frame ss c ts → ∀ around pc,
      Sited plan element around (sitesStmts around pc ts) frame c
  | [], _, _, _, ⟨rfl, _⟩ => fun _ _ => .empty
  | _ :: _, _, _, _, ⟨_, _, t, _, h, h', rfl, rfl⟩ => fun around pc =>
    (image_sited h around pc).append (imageAll_sited h' around (pc + sizeStmt t))

/-- The code of the frames and suspension points of a body stands in the image of the body. -/
theorem imageBlock_sited : ∀ {b : Block} {frame : Int} {c : Contents} {b' : Block},
    ImageBlock plan T element frame b c b' → ∀ around pc,
      Sited plan element around (sitesBlock around pc b') frame c
  | .absent, _, _, _, h => h.elim
  | .mk _ _ ss, frame, c, _, ⟨ts, h, rfl⟩ => @imageAll_sited ss frame c ts h

end

/-! ## Dispatches -/

/-- The cases of a dispatch. -/
def casesOf? : Stmt → Option (List DispatchCase)
  | .dispatch _ _ cases _ => some cases
  | _ => none

/-- The dispatches among statements at their places, by their cases. -/
def dispatchesOf (xs : List (Nat × Stmt)) : List (List DispatchCase) :=
  xs.filterMap fun x => casesOf? x.2

theorem dispatchesOf_append (xs ys : List (Nat × Stmt)) :
    dispatchesOf (xs ++ ys) = dispatchesOf xs ++ dispatchesOf ys := List.filterMap_append

/-- The cases of the dispatches of frames. -/
def frameCases (fs : List Frame) : List (List DispatchCase) :=
  (Frame.preorderAll fs).map fun f => Contents.resumeCases ⟨f.suspensions, f.children⟩

/-- The statements of a frame at their places. -/
theorem places_region (plan : Plan) (o body : Origin) (f : Frame) (start : Label) (b' : Block)
    (ways : List Stmt) (pc : Nat) :
    placesStmt pc (region plan o body f start b'.statements ways) =
      (openingSites plan o.provenance f start [] pc).filterMap Machine.Site.place? ++
        (placesBlock (pc + 2) b' ++
          placesStmts (pc + 2 + sizeBlock b') (callCleanup o.provenance f :: ways)) := by
  rw [← places_of_sites_stmt [], sites_region, List.filterMap_append, List.filterMap_append,
    places_of_sites, places_of_sites_stmts]

theorem dispatches_ways {frame : Int} {p : Option Provenance} {f : Frame} {ways : List Stmt}
    (h : Ways T frame p f ways) (pc : Nat) :
    dispatchesOf (placesStmts pc (callCleanup p f :: ways)) = [] := by
  have hproxies : ∀ (routes : List Route) (pc : Nat) (after : Label), dispatchesOf (placesStmts pc
      ((routes.flatMap fun r => [Made.label p r.proxy, callCleanup p f, .goto (.made p) r.next]) ++
        [Made.label p after])) = [] := by
    intro routes
    induction routes with
    | nil => exact fun _ _ => rfl
    | cons r rest ih => exact fun pc after => ih _ after
  rcases h with rfl | ⟨routes, after, rfl, -⟩
  · rfl
  · exact hproxies routes _ after

mutual

theorem image_dispatches : ∀ {s : Stmt} {frame : Int} {c : Contents} {t : Stmt},
    Image plan T element frame s c t → ∀ pc,
      dispatchesOf (placesStmt pc t) = frameCases c.children
  | .block b, _, _, _, ⟨_, h, rfl⟩ => imageBlock_dispatches (b := b) h
  | .list _ ss, frame, c, _, ⟨ts, h, rfl⟩ => @imageAll_dispatches ss frame c ts h
  | .yieldReturn .., _, _, _, ⟨_, rfl, _, _, rfl⟩
  | .yieldBreak _, _, _, _, ⟨rfl, _, _, rfl⟩ | .goto .., _, _, _, ⟨rfl, _, _, rfl⟩
  | .conditionalGoto .., _, _, _, ⟨rfl, _, _, rfl⟩ | .label .., _, _, _, ⟨rfl, _, rfl⟩
  | .sequencePoint .., _, _, _, ⟨rfl, rfl⟩ | .expression .., _, _, _, ⟨rfl, rfl⟩
  | .throw .., _, _, _, ⟨rfl, rfl⟩ => fun _ => rfl
  | .try .., _, _, _, h => by
    rw [Image] at h
    split at h
    · obtain ⟨f, start, b', ways, rfl, -, -, himage, hways, rfl⟩ := h
      intro pc
      rw [places_region, dispatchesOf_append, dispatchesOf_append, dispatches_ways hways,
        imageBlock_dispatches himage, List.append_nil, frameCases, frameCases, Frame.preorderAll,
        Frame.preorderAll, List.append_nil, Frame.preorder_eq]
      rfl
    · obtain ⟨rfl, body', catches', cleanup', hbody, hcatches, hcleanup, rfl⟩ := h
      intro pc
      have hfinally : ∀ pc, dispatchesOf (placesBlock pc cleanup') = [] := by
        rcases hcleanup with ⟨-, rfl⟩ | hcleanup
        · exact fun _ => rfl
        · exact imageBlock_dispatches hcleanup
      rw [placesStmt, dispatchesOf_append, dispatchesOf_append, hfinally,
        imageBlock_dispatches hbody, imageCatches_dispatches hcatches]
      rfl
  | .absent, _, _, _, h | .noOp .., _, _, _, h | .localDeclaration .., _, _, _, h
  | .return .., _, _, _, h | .if .., _, _, _, h | .while .., _, _, _, h | .break .., _, _, _, h
  | .continue .., _, _, _, h | .dispatch .., _, _, _, h | .foreign .., _, _, _, h => h.elim
termination_by structural s => s

theorem imageAll_dispatches : ∀ {ss : List Stmt} {frame : Int} {c : Contents} {ts : List Stmt},
    ImageAll plan T element frame ss c ts → ∀ pc,
      dispatchesOf (placesStmts pc ts) = frameCases c.children
  | [], _, _, _, ⟨rfl, rfl⟩ => fun _ => rfl
  | _ :: _, _, _, _, ⟨_, _, _, _, h, h', rfl, rfl⟩ => fun pc => by
    rw [placesStmts, dispatchesOf_append, image_dispatches h, imageAll_dispatches h', frameCases,
      frameCases, frameCases, Contents.append, Frame.preorderAll_append, List.map_append]
termination_by structural ss => ss

/-- The dispatches in the image of a body are those of its frames, in their order. -/
theorem imageBlock_dispatches : ∀ {b : Block} {frame : Int} {c : Contents} {b' : Block},
    ImageBlock plan T element frame b c b' → ∀ pc,
      dispatchesOf (placesBlock pc b') = frameCases c.children
  | .absent, _, _, _, h => h.elim
  | .mk _ _ ss, frame, c, _, ⟨ts, h, rfl⟩ => @imageAll_dispatches ss frame c ts h
termination_by structural b => b

theorem imageCatches_dispatches : ∀ {cs : List Catch} {frame : Int} {c : Contents}
    {ds : List Catch}, ImageCatches plan T element frame cs c ds → ∀ pc,
      dispatchesOf (placesCatches pc ds) = frameCases c.children
  | [], _, _, _, ⟨rfl, rfl⟩ => fun _ => rfl
  | .mk .. :: _, _, _, _, ⟨_, _, _, _, h, h', rfl, rfl⟩ => fun pc => by
    rw [placesCatches, dispatchesOf_append, imageBlock_dispatches h, imageCatches_dispatches h',
      frameCases, frameCases, frameCases, Contents.append, Frame.preorderAll_append,
      List.map_append]
termination_by structural cs => cs

end

end Image

end Resumable.StateMachine
