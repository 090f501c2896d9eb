import Resumable.Proofs.StateMachine.Extracted
import Resumable.Proofs.StateMachine.Numbering

/-!
# The tree of regions

Where the suspension points and the extracted tries of a body stand in its text (`spotsBlock`): the
state that each has by its order in the source, and the extracted tries around it.  The analysis
makes the frames a picture of this: they come in the same order with the same states, each inside
the frame of the nearest try around its own, and a frame is live just in the states that stand
inside its try (`analyzeBlock_charted`).
-/

set_option autoImplicit false

namespace Resumable.StateMachine

open Resumable.Report Resumable.Symbol Resumable.Tree Resumable.Lowering

/-! ## The text -/

/-- A suspension point or an extracted try: its state, and the states of the extracted tries whose
try blocks it stands in, from the inside outwards. -/
structure Spot where
  state : Int
  around : List Int
  deriving DecidableEq, Repr

/-- The state of the innermost of some regions, which is that of running outside of every one if
there is none. -/
def innermost (around : List Int) : Int := around.headD stateRunning

/-- The state of the innermost extracted try around. -/
def Spot.region (x : Spot) : Int := innermost x.around

/-- The suspension points of a part of a body and its extracted tries, each in the order of the
source. -/
structure Spots where
  points : List Spot := []
  regions : List Spot := []
  deriving DecidableEq, Repr

/-- One part after another. -/
def Spots.append (x y : Spots) : Spots := ⟨x.points ++ y.points, x.regions ++ y.regions⟩

/-- The state is that of a suspension point inside the region, of the region, or of one in it. -/
def Spots.Live (x : Spots) (region s : Int) : Prop :=
  (∃ p ∈ x.points, p.state = s ∧ region ∈ p.around) ∨
    ∃ r ∈ x.regions, r.state = s ∧ region ∈ r.state :: r.around

mutual

/-- The suspension points and extracted tries of a statement that stands inside the tries `around`.
Before it stand `i` suspension points, and `j` extracted tries begin: a suspension point gets the
next number for its state, and a try the state of the next frame. -/
def spotsStmt (around : List Int) (i j : Nat) : Stmt → Spots
  | .block b => spotsBlock around i j b
  | .list _ ss => spotsStmts around i j ss
  | .yieldReturn .. => { points := [⟨(i + 1 : Nat), around⟩] }
  | .if _ _ t f =>
    let x := spotsStmt around i j t
    x.append (spotsStmt around (i + x.points.length) (j + x.regions.length) f)
  | .while _ _ body _ _ => spotsStmt around i j body
  | .try _ body catches cleanup =>
    let x :=
      if framed body cleanup then
        let state := stateOfFrame (j + 1)
        Spots.append { regions := [⟨state, around⟩] } (spotsBlock (state :: around) i (j + 1) body)
      else spotsBlock around i j body
    let y := x.append (spotsCatches around (i + x.points.length) (j + x.regions.length) catches)
    y.append (spotsBlock around (i + y.points.length) (j + y.regions.length) cleanup)
  | _ => {}

/-- The suspension points and extracted tries of statements. -/
def spotsStmts (around : List Int) (i j : Nat) : List Stmt → Spots
  | [] => {}
  | s :: rest =>
    let x := spotsStmt around i j s
    x.append (spotsStmts around (i + x.points.length) (j + x.regions.length) rest)

/-- The suspension points and extracted tries of a block. -/
def spotsBlock (around : List Int) (i j : Nat) : Block → Spots
  | .absent => {}
  | .mk _ _ ss => spotsStmts around i j ss

/-- The suspension points and extracted tries of handlers. -/
def spotsCatches (around : List Int) (i j : Nat) : List Catch → Spots
  | [] => {}
  | .mk _ _ body :: rest =>
    let x := spotsBlock around i j body
    x.append (spotsCatches around (i + x.points.length) (j + x.regions.length) rest)

end

theorem Spots.append_empty (x : Spots) : x.append {} = x := by simp [Spots.append]

theorem Spots.live_append {x y : Spots} {region s : Int} :
    (x.append y).Live region s ↔ x.Live region s ∨ y.Live region s := by
  simp only [Spots.Live, Spots.append, List.mem_append, or_and_right, exists_or]
  exact or_or_or_comm

mutual

/-- Nothing of a statement that does not suspend is a suspension point or extracted. -/
theorem spotsStmt_quiet : ∀ {s : Stmt}, .yieldReturn ∉ exitsStmt s → ∀ around i j,
    spotsStmt around i j s = {}
  | .block b, hs, around, i, j => spotsBlock_quiet (b := b) hs around i j
  | .list _ ss, hs, around, i, j => @spotsStmts_quiet ss hs around i j
  | .yieldReturn .., hs, _, _, _ => absurd List.mem_cons_self hs
  | .if _ _ t f, hs, around, i, j => by
    simp only [exitsStmt, List.mem_append, not_or] at hs
    simp only [spotsStmt, spotsStmt_quiet hs.1, spotsStmt_quiet hs.2, Spots.append_empty]
  | .while _ _ body _ _, hs, around, i, j => spotsStmt_quiet (s := body) hs around i j
  | .try _ body catches cleanup, hs, around, i, j => by
    simp only [exitsStmt, List.mem_append, not_or] at hs
    have hframed : framed body cleanup = false :=
      Bool.eq_false_iff.mpr fun hframed => hs.1.1 (framed_iff.mp hframed).2
    simp only [spotsStmt, hframed, Bool.false_eq_true, if_false, spotsBlock_quiet hs.1.1,
      spotsCatches_quiet hs.1.2, spotsBlock_quiet hs.2, Spots.append_empty]
  | .absent, _, _, _, _ | .sequencePoint .., _, _, _, _ | .noOp .., _, _, _, _
  | .localDeclaration .., _, _, _, _ | .expression .., _, _, _, _ | .return .., _, _, _, _
  | .yieldBreak .., _, _, _, _ | .throw .., _, _, _, _ | .break .., _, _, _, _
  | .continue .., _, _, _, _ | .label .., _, _, _, _ | .goto .., _, _, _, _
  | .conditionalGoto .., _, _, _, _ | .dispatch .., _, _, _, _ | .foreign .., _, _, _, _ => rfl

theorem spotsStmts_quiet : ∀ {ss : List Stmt}, .yieldReturn ∉ exitsStmts ss → ∀ around i j,
    spotsStmts around i j ss = {}
  | [], _, _, _, _ => rfl
  | s :: rest, hs, around, i, j => by
    simp only [exitsStmts, List.mem_append, not_or] at hs
    simp only [spotsStmts, spotsStmt_quiet hs.1, spotsStmts_quiet hs.2, Spots.append_empty]

theorem spotsBlock_quiet : ∀ {b : Block}, .yieldReturn ∉ exitsBlock b → ∀ around i j,
    spotsBlock around i j b = {}
  | .absent, _, _, _, _ => rfl
  | .mk _ _ ss, hs, around, i, j => @spotsStmts_quiet ss hs around i j

theorem spotsCatches_quiet : ∀ {cs : List Catch}, .yieldReturn ∉ exitsCatches cs →
    ∀ around i j, spotsCatches around i j cs = {}
  | [], _, _, _, _ => rfl
  | .mk _ _ body :: rest, hs, around, i, j => by
    simp only [exitsCatches, List.mem_append, not_or] at hs
    simp only [spotsCatches, spotsBlock_quiet hs.1, spotsCatches_quiet hs.2, Spots.append_empty]

end

mutual

theorem spotsStmt_points {P : Expr → Prop} : ∀ {s : Stmt}, Ready P s → ∀ around i j,
    (spotsStmt around i j s).points.length = (elementsStmt s).length
  | .block b, hs, around, i, j => spotsBlock_points (b := b) hs around i j
  | .list _ ss, hs, around, i, j => @spotsStmts_points P ss hs around i j
  | .try _ body catches cleanup, hs, around, i, j => by
    obtain ⟨hbody, hcatches, hcleanup, -⟩ := hs
    have hfinally : ∀ i j, (spotsBlock around i j cleanup).points.length =
        (elementsBlock cleanup).length := by
      rcases hcleanup with rfl | hcleanup
      · exact fun _ _ => rfl
      · exact spotsBlock_points hcleanup around
    have hguarded : ∀ k, (if framed body cleanup then
          Spots.append { regions := [k] } (spotsBlock (k.state :: around) i (j + 1) body)
        else spotsBlock around i j body).points.length = (elementsBlock body).length := by
      intro k
      split
      · exact spotsBlock_points hbody ..
      · exact spotsBlock_points hbody ..
    simp only [spotsStmt, elementsStmt, Spots.append, List.length_append] at hguarded ⊢
    rw [hfinally, spotsCatches_points hcatches, hguarded ⟨stateOfFrame (j + 1), around⟩]
  | .yieldReturn .., _, _, _, _ | .sequencePoint .., _, _, _, _ | .expression .., _, _, _, _
  | .return .., _, _, _, _ | .yieldBreak .., _, _, _, _ | .throw .., _, _, _, _
  | .label .., _, _, _, _ | .goto .., _, _, _, _ | .conditionalGoto .., _, _, _, _ => rfl
  | .absent, hs, _, _, _ | .noOp .., hs, _, _, _ | .localDeclaration .., hs, _, _, _
  | .if .., hs, _, _, _ | .while .., hs, _, _, _ | .break .., hs, _, _, _
  | .continue .., hs, _, _, _ | .dispatch .., hs, _, _, _ | .foreign .., hs, _, _, _ => hs.elim

theorem spotsStmts_points {P : Expr → Prop} : ∀ {ss : List Stmt}, ReadyAll P ss → ∀ around i j,
    (spotsStmts around i j ss).points.length = (elementsStmts ss).length
  | [], _, _, _, _ => rfl
  | s :: rest, hss, around, i, j => by
    simp only [spotsStmts, elementsStmts, Spots.append, List.length_append]
    rw [spotsStmt_points hss.1, spotsStmts_points hss.2]

/-- A lowered block has one suspension point for each expression that it suspends with. -/
theorem spotsBlock_points {P : Expr → Prop} : ∀ {b : Block}, ReadyBlock P b → ∀ around i j,
    (spotsBlock around i j b).points.length = (elementsBlock b).length
  | .absent, hb, _, _, _ => hb.elim
  | .mk _ _ ss, hb, around, i, j => @spotsStmts_points P ss hb.2 around i j

theorem spotsCatches_points {P : Expr → Prop} : ∀ {cs : List Catch}, ReadyCatches P cs →
    ∀ around i j, (spotsCatches around i j cs).points.length = (elementsCatches cs).length
  | [], _, _, _, _ => rfl
  | .mk _ _ body :: rest, hcs, around, i, j => by
    simp only [spotsCatches, elementsCatches, Spots.append, List.length_append]
    rw [spotsBlock_points hcs.1, spotsCatches_points hcs.2]

end

/-! ## The picture -/

/-- The state is that of one of the `k` frames that come behind the first `j`. -/
def OfFrames (j k : Nat) (s : Int) : Prop := stateOfFrame (j + k) ≤ s ∧ s < stateOfFrame j

/-- The regions around are among the first `j`. -/
def Before (j : Nat) (around : List Int) : Prop := ∀ g ∈ around, stateOfFrame j ≤ g

/-- The contents are a picture of the suspension points and extracted tries of a part of a body that
stands inside the tries `around`, behind `i` suspension points and `j` extracted tries. -/
structure Charted (around : List Int) (i j : Nat) (x : Spots) (c : Contents) : Prop where
  points : x.points.map Spot.state = (List.range' (i + 1) x.points.length).map Nat.cast
  regions : x.regions.map Spot.state = (List.range' (j + 1) x.regions.length).map stateOfFrame
  within : ∀ s ∈ x.points ++ x.regions, ∃ inner, s.around = inner ++ around ∧
    ∀ g ∈ inner, OfFrames j x.regions.length g
  frames : (Frame.preorderAll c.children).map Frame.state = x.regions.map Spot.state
  suspensions : c.suspensions.map Suspension.state =
    (x.points.filter fun s => s.region = innermost around).map Spot.state
  children : c.children.map Frame.state =
    (x.regions.filter fun s => s.region = innermost around).map Spot.state
  inside : ∀ f ∈ Frame.preorderAll c.children,
    f.suspensions.map Suspension.state =
        (x.points.filter fun s => s.region = f.state).map Spot.state ∧
      f.children.map Frame.state = (x.regions.filter fun s => s.region = f.state).map Spot.state
  states : ∀ s, s ∈ c.states ↔ s ∈ x.points.map Spot.state ∨ s ∈ x.regions.map Spot.state
  live : ∀ f ∈ Frame.preorderAll c.children, ∀ s, s ∈ f.liveStates ↔ x.Live f.state s

namespace Charted

variable {around : List Int} {i j : Nat} {x y : Spots} {c d : Contents}

/-- Outside of every try the state is that of running, which is before all frames. -/
theorem innermost_before (h : Before j around) : stateOfFrame j ≤ innermost around := by
  cases around with
  | nil =>
    show stateOfFrame j ≤ stateRunning
    unfold stateOfFrame stateRunning
    omega
  | cons g rest => exact h g List.mem_cons_self

/-- The innermost region around a spot is one of the part or the innermost one around the part. -/
theorem region_cases (h : Charted around i j x c) {s : Spot} (hs : s ∈ x.points ++ x.regions) :
    s.region = innermost around ∨ OfFrames j x.regions.length s.region := by
  obtain ⟨inner, haround, hinner⟩ := h.within s hs
  rw [Spot.region, haround]
  cases inner with
  | nil => exact .inl rfl
  | cons g rest => exact .inr (hinner g List.mem_cons_self)

/-- What stands around the part stands around all of it. -/
theorem around_cases (h : Charted around i j x c) {s : Spot} (hs : s ∈ x.points ++ x.regions)
    {g : Int} : g ∈ s.around → g ∈ around ∨ OfFrames j x.regions.length g := by
  obtain ⟨inner, haround, hinner⟩ := h.within s hs
  rw [haround, List.mem_append]
  exact fun hg => (hg.imp (hinner g) id).symm

theorem around_mem (h : Charted around i j x c) {s : Spot} (hs : s ∈ x.points ++ x.regions)
    {g : Int} (hg : g ∈ around) : g ∈ s.around := by
  obtain ⟨inner, haround, -⟩ := h.within s hs
  rw [haround]
  exact List.mem_append_right _ hg

/-- The states of extracted tries follow each other. -/
theorem region_ofFrames (h : Charted around i j x c) {r : Spot} (hr : r ∈ x.regions) :
    OfFrames j x.regions.length r.state := by
  have hmem : r.state ∈ x.regions.map Spot.state := List.mem_map_of_mem hr
  rw [h.regions, List.mem_map] at hmem
  obtain ⟨g, hg, hstate⟩ := hmem
  rw [List.mem_range'_1] at hg
  rw [← hstate]
  unfold OfFrames stateOfFrame
  omega

theorem frame_ofFrames (h : Charted around i j x c) {f : Frame}
    (hf : f ∈ Frame.preorderAll c.children) : OfFrames j x.regions.length f.state := by
  have hmem : f.state ∈ (Frame.preorderAll c.children).map Frame.state := List.mem_map_of_mem hf
  rw [h.frames, List.mem_map] at hmem
  obtain ⟨r, hr, hstate⟩ := hmem
  exact hstate ▸ h.region_ofFrames hr

/-- A part without suspension points and frames. -/
theorem still : Charted around i j {} {} where
  points := rfl
  regions := rfl
  within := List.forall_mem_nil _
  frames := rfl
  suspensions := rfl
  children := rfl
  inside := List.forall_mem_nil _
  states s := by simp [Contents.states, Frame.liveStatesAll]
  live := List.forall_mem_nil _

/-- A suspension point. -/
theorem suspension (resume : Label) :
    Charted around i j { points := [⟨(i + 1 : Nat), around⟩] } ⟨[⟨(i + 1 : Nat), resume⟩], []⟩ where
  points := rfl
  regions := rfl
  within s hs := by
    obtain rfl : s = ⟨(i + 1 : Nat), around⟩ := by simpa using hs
    exact ⟨[], rfl, List.forall_mem_nil _⟩
  frames := rfl
  suspensions := by simp [Spot.region]
  children := rfl
  inside := List.forall_mem_nil _
  states s := by simp [Contents.states, Frame.liveStatesAll]
  live := List.forall_mem_nil _

/-- A region that is neither around the part nor in it is not around anything of it. -/
theorem elsewhere (h : Charted around i j x c) {b : Nat} (hbefore : Before b around) {g : Int}
    (hg : g < stateOfFrame b) (hout : ¬ OfFrames j x.regions.length g) {s : Spot}
    (hs : s ∈ x.points ++ x.regions) : s.region ≠ g ∧ g ∉ s.around := by
  have hinnermost := innermost_before hbefore
  constructor
  · rintro rfl
    rcases h.region_cases hs with hregion | hregion
    · rw [hregion] at hg
      omega
    · exact hout hregion
  · intro haround
    rcases h.around_cases hs haround with haround | haround
    · have := hbefore g haround
      omega
    · exact hout haround

/-- Nothing of the part stands inside such a region. -/
theorem not_live (h : Charted around i j x c) {b : Nat} (hbefore : Before b around) {g : Int}
    (hg : g < stateOfFrame b) (hout : ¬ OfFrames j x.regions.length g) (s : Int) :
    ¬ x.Live g s := by
  rintro (⟨p, hp, -, haround⟩ | ⟨r, hr, -, hself⟩)
  · exact (h.elsewhere hbefore hg hout (List.mem_append_left _ hp)).2 haround
  · rcases List.mem_cons.mp hself with rfl | haround
    · exact hout (h.region_ofFrames hr)
    · exact (h.elsewhere hbefore hg hout (List.mem_append_right _ hr)).2 haround

/-- The spots with a region, if those of one side have others. -/
theorem filter_append_left {a b : List Spot} {g : Int} (h : ∀ s ∈ b, s.region ≠ g) :
    (a ++ b).filter (fun s => s.region = g) = a.filter fun s => s.region = g := by
  have hnone : b.filter (fun s => s.region = g) = [] :=
    List.filter_eq_nil_iff.mpr fun s hs => by simpa using h s hs
  rw [List.filter_append, hnone, List.append_nil]

theorem filter_append_right {a b : List Spot} {g : Int} (h : ∀ s ∈ a, s.region ≠ g) :
    (a ++ b).filter (fun s => s.region = g) = b.filter fun s => s.region = g := by
  have hnone : a.filter (fun s => s.region = g) = [] :=
    List.filter_eq_nil_iff.mpr fun s hs => by simpa using h s hs
  rw [List.filter_append, hnone, List.nil_append]

/-- One part after another: the frames of neither are around anything of the other. -/
theorem append (hbefore : Before j around) (h : Charted around i j x c)
    (h' : Charted around (i + x.points.length) (j + x.regions.length) y d) :
    Charted around i j (x.append y) (c.append d) := by
  have hleft : ∀ f ∈ Frame.preorderAll c.children, f.state < stateOfFrame j ∧
      ¬ OfFrames (j + x.regions.length) y.regions.length f.state := by
    intro f hf
    have hstate := h.frame_ofFrames hf
    unfold OfFrames stateOfFrame at hstate ⊢
    omega
  have hright : ∀ f ∈ Frame.preorderAll d.children, f.state < stateOfFrame j ∧
      ¬ OfFrames j x.regions.length f.state := by
    intro f hf
    have hstate := h'.frame_ofFrames hf
    unfold OfFrames stateOfFrame at hstate ⊢
    omega
  refine ⟨?_, ?_, fun s hs => ?_, ?_, ?_, ?_, fun f hf => ?_, fun s => ?_, fun f hf s => ?_⟩
  · simp only [Spots.append, List.map_append, h.points, h'.points, List.length_append]
    rw [← List.map_append, Nat.add_right_comm, List.range'_append_1]
  · simp only [Spots.append, List.map_append, h.regions, h'.regions, List.length_append]
    rw [← List.map_append, Nat.add_right_comm, List.range'_append_1]
  · have hwider : ∀ g, OfFrames j x.regions.length g ∨
        OfFrames (j + x.regions.length) y.regions.length g →
        OfFrames j (x.append y).regions.length g := by
      intro g hg
      simp only [Spots.append, List.length_append]
      unfold OfFrames stateOfFrame at hg ⊢
      omega
    have hs : s ∈ x.points ++ x.regions ∨ s ∈ y.points ++ y.regions := by
      simp only [Spots.append, List.mem_append] at hs ⊢
      tauto
    rcases hs with hs | hs
    · obtain ⟨inner, haround, hinner⟩ := h.within s hs
      exact ⟨inner, haround, fun g hg => hwider g (.inl (hinner g hg))⟩
    · obtain ⟨inner, haround, hinner⟩ := h'.within s hs
      exact ⟨inner, haround, fun g hg => hwider g (.inr (hinner g hg))⟩
  · simp only [Contents.append, Spots.append, Frame.preorderAll_append, List.map_append, h.frames,
      h'.frames]
  · simp only [Contents.append, Spots.append, List.map_append, List.filter_append, h.suspensions,
      h'.suspensions]
  · simp only [Contents.append, Spots.append, List.map_append, List.filter_append, h.children,
      h'.children]
  · rw [Contents.append, Frame.preorderAll_append, List.mem_append] at hf
    rcases hf with hf | hf
    · obtain ⟨hbelow, hout⟩ := hleft f hf
      have hother := fun s hs => (h'.elsewhere (s := s) hbefore hbelow hout hs).1
      rw [Spots.append, filter_append_left fun s hs => hother s (List.mem_append_left _ hs),
        filter_append_left fun s hs => hother s (List.mem_append_right _ hs)]
      exact h.inside f hf
    · obtain ⟨hbelow, hout⟩ := hright f hf
      have hother := fun s hs => (h.elsewhere (s := s) hbefore hbelow hout hs).1
      rw [Spots.append, filter_append_right fun s hs => hother s (List.mem_append_left _ hs),
        filter_append_right fun s hs => hother s (List.mem_append_right _ hs)]
      exact h'.inside f hf
  · rw [(c.states_append d).mem_iff, List.mem_append, h.states, h'.states]
    simp only [Spots.append, List.map_append, List.mem_append]
    tauto
  · rw [Contents.append, Frame.preorderAll_append, List.mem_append] at hf
    rw [Spots.live_append]
    rcases hf with hf | hf
    · obtain ⟨hbelow, hout⟩ := hleft f hf
      rw [h.live f hf, or_iff_left (h'.not_live hbefore hbelow hout s)]
    · obtain ⟨hbelow, hout⟩ := hright f hf
      rw [h'.live f hf, or_iff_right (h.not_live hbefore hbelow hout s)]

/-- An extracted try around a part: its frame is around everything in the part. -/
theorem region (hbefore : Before j around) (entry : Label) (method : MethodBody)
    (h : Charted (stateOfFrame (j + 1) :: around) i (j + 1) x c) :
    Charted around i j (Spots.append { regions := [⟨stateOfFrame (j + 1), around⟩] } x)
      ⟨[], [.mk (stateOfFrame (j + 1)) entry method c.suspensions c.children]⟩ := by
  have hpreorder : Frame.preorderAll [.mk (stateOfFrame (j + 1)) entry method c.suspensions
      c.children] = .mk (stateOfFrame (j + 1)) entry method c.suspensions c.children ::
        Frame.preorderAll c.children := by
    rw [Frame.preorderAll, Frame.preorder, Frame.preorderAll, List.append_nil]
  have hinnermost := innermost_before hbefore
  have hstate : stateOfFrame (j + 1) < stateOfFrame j := by
    unfold stateOfFrame
    omega
  -- Everything inside has the new frame around it, and an innermost region that is not one outside.
  have hself : ∀ s ∈ x.points ++ x.regions, stateOfFrame (j + 1) ∈ s.around := fun s hs =>
    h.around_mem hs List.mem_cons_self
  have hregion : ∀ s ∈ x.points ++ x.regions, s.region ≠ innermost around := by
    intro s hs heq
    rcases h.region_cases hs with hs | hs
    · rw [heq, innermost, innermost, List.headD_cons] at hs
      unfold innermost at hinnermost
      omega
    · rw [heq] at hs
      unfold OfFrames stateOfFrame at hs
      unfold stateOfFrame at hinnermost
      omega
  have hnone : ∀ {ss : List Spot}, (∀ s ∈ ss, s ∈ x.points ++ x.regions) →
      ss.filter (fun s => s.region = innermost around) = [] := fun hss =>
    List.filter_eq_nil_iff.mpr fun s hs => by simpa using hregion s (hss s hs)
  have hwithin : ∀ s ∈ x.points ++ x.regions, ∃ inner, s.around = inner ++ around ∧
      ∀ g ∈ inner, OfFrames j (x.regions.length + 1) g := by
    intro s hs
    obtain ⟨inner, haround, hinner⟩ := h.within s hs
    refine ⟨inner ++ [stateOfFrame (j + 1)], by simp [haround], fun g hg => ?_⟩
    have hg : OfFrames (j + 1) x.regions.length g ∨ g = stateOfFrame (j + 1) :=
      (List.mem_append.mp hg).imp (hinner g) List.mem_singleton.mp
    unfold OfFrames stateOfFrame at hg ⊢
    omega
  have hstates : ∀ s, s ∈ Contents.states ⟨[], [.mk (stateOfFrame (j + 1)) entry method
      c.suspensions c.children]⟩ ↔ s = stateOfFrame (j + 1) ∨ s ∈ c.states := by
    simp [Contents.states, Frame.liveStatesAll, Frame.liveStates]
  refine ⟨h.points, ?_, fun s hs => ?_, ?_, ?_, ?_, fun f hf => ?_, fun s => ?_, fun f hf s => ?_⟩
  · simp only [Spots.append, List.cons_append, List.nil_append, List.map_cons, List.length_cons,
      List.range'_succ, h.regions]
  · simp only [Spots.append, List.cons_append, List.nil_append, List.mem_append,
      List.mem_cons] at hs
    simp only [Spots.append, List.cons_append, List.nil_append, List.length_cons]
    rcases hs with hs | rfl | hs
    · exact hwithin s (List.mem_append_left _ hs)
    · exact ⟨[], rfl, List.forall_mem_nil _⟩
    · exact hwithin s (List.mem_append_right _ hs)
  · rw [hpreorder, List.map_cons, h.frames]
    rfl
  · show [] = _
    simp only [Spots.append, List.nil_append, hnone fun s hs => List.mem_append_left _ hs,
      List.map_nil]
  · simp only [Spots.append, List.cons_append, List.nil_append]
    rw [List.filter_cons_of_pos (by simp [Spot.region]),
      hnone fun s hs => List.mem_append_right _ hs]
    rfl
  · rw [hpreorder, List.mem_cons] at hf
    simp only [Spots.append, List.cons_append, List.nil_append]
    have hnew : innermost around ≠ f.state := by
      rcases hf with rfl | hf
      · exact Int.ne_of_gt (Int.lt_of_lt_of_le hstate hinnermost)
      · have hinside := (h.frame_ofFrames hf).2
        omega
    rw [List.filter_cons_of_neg (by simp [Spot.region, hnew])]
    rcases hf with rfl | hf
    · exact ⟨h.suspensions, h.children⟩
    · exact h.inside f hf
  · rw [hstates, h.states]
    simp only [Spots.append, List.nil_append, List.cons_append, List.map_cons, List.mem_cons]
    exact or_left_comm
  · rw [hpreorder, List.mem_cons] at hf
    rw [Spots.live_append]
    rcases hf with rfl | hf
    · have hall : x.Live (stateOfFrame (j + 1)) s ↔ s ∈ c.states := by
        rw [h.states, List.mem_map, List.mem_map]
        refine or_congr (exists_congr fun p => and_congr_right fun hp => ?_)
          (exists_congr fun r => and_congr_right fun hr => ?_)
        · exact and_iff_left (hself p (List.mem_append_left _ hp))
        · exact and_iff_left (List.mem_cons_of_mem _ (hself r (List.mem_append_right _ hr)))
      rw [Frame.state, hall, Frame.liveStates, List.cons_append, List.mem_cons]
      refine or_congr_left ?_
      simp [Spots.Live, eq_comm]
    · rw [h.live f hf, or_iff_right]
      rintro (⟨p, hp, -⟩ | ⟨r, hr, -, hinside⟩)
      · cases hp
      · obtain rfl := List.mem_singleton.mp hr
        have hdeeper := (h.frame_ofFrames hf).2
        rcases List.mem_cons.mp hinside with heq | houtside
        · exact absurd heq (Int.ne_of_lt hdeeper)
        · have := hbefore f.state houtside
          omega

end Charted

/-! ## The analysis -/

/-- A step of the analysis makes a picture of the part that it is about. -/
def Charts (around : List Int) (spots : Nat → Nat → Spots) (x : Analyze Contents) : Prop :=
  ∀ a n c b m, Before a.frameCount around → x a n = (.ok (c, b), m) →
    let found := spots a.suspensionCount a.frameCount
    Charted around a.suspensionCount a.frameCount found c ∧
      b.suspensionCount = a.suspensionCount + found.points.length ∧
      b.frameCount = a.frameCount + found.regions.length

namespace Charts

variable {around : List Int} {spots spots' : Nat → Nat → Spots} {x y : Analyze Contents}

theorem still : Charts around (fun _ _ => {}) (pure {}) := by
  intro a n c b m _ h
  obtain ⟨rfl, rfl, -⟩ := Stateful.pure_ok.mp h
  exact ⟨.still, rfl, rfl⟩

theorem append (hx : Charts around spots x) (hy : Charts around spots' y) :
    Charts around
      (fun i j => (spots i j).append
        (spots' (i + (spots i j).points.length) (j + (spots i j).regions.length))) (do
      let c ← x
      let c' ← y
      return c.append c') := by
  intro a n c b m hbefore h
  obtain ⟨d, a', k, hone, h⟩ := Stateful.bind_ok.mp h
  obtain ⟨d', a'', k', htwo, h⟩ := Stateful.bind_ok.mp h
  obtain ⟨rfl, rfl, -⟩ := Stateful.pure_ok.mp h
  obtain ⟨hchart, hpoints, hregions⟩ := hx a n d a' k hbefore hone
  have hbefore' : Before a'.frameCount around := by
    intro g hg
    have := hbefore g hg
    unfold stateOfFrame at this ⊢
    omega
  obtain ⟨hchart', hpoints', hregions'⟩ := hy a' k d' b k' hbefore' htwo
  rw [hpoints, hregions] at hchart' hpoints' hregions'
  refine ⟨hchart.append hbefore hchart', ?_, ?_⟩
  · simp only [hpoints', Spots.append, List.length_append, Nat.add_assoc]
  · simp only [hregions', Spots.append, List.length_append, Nat.add_assoc]

/-- A frame, whose try block is analyzed inside it. -/
theorem region {field : Field} {frame : Int} (o : Origin) {body cleanup : Block}
    {spots : Int → Nat → Nat → Spots}
    (h : ∀ state, Charts (state :: around) (spots state) (analyzeBlock field state body)) :
    Charts around (fun i j => Spots.append { regions := [⟨stateOfFrame (j + 1), around⟩] }
      (spots (stateOfFrame (j + 1)) i (j + 1))) (do
      let (state, entry, method) ← Analyze.frame field frame o body cleanup
      let inner ← analyzeBlock field state body
      return { children := [.mk state entry method inner.suspensions inner.children] }) := by
  intro a n c b m hbefore hok
  obtain ⟨⟨state, entry, method⟩, a', k, hframe, hok⟩ := Stateful.bind_ok.mp hok
  obtain ⟨inner, a'', k', hinner, hok⟩ := Stateful.bind_ok.mp hok
  obtain ⟨rfl, rfl, -⟩ := Stateful.pure_ok.mp hok
  obtain ⟨name, members, -, rfl, -, -, rfl⟩ := frame_eq hframe
  have hinside : Before (a.frameCount + 1) (stateOfFrame (a.frameCount + 1) :: around) := by
    intro g hg
    rcases List.mem_cons.mp hg with rfl | hg
    · exact Int.le_refl _
    · have := hbefore g hg
      unfold stateOfFrame at this ⊢
      omega
  obtain ⟨hchart, hpoints, hregions⟩ := h _ _ _ _ _ _ hinside hinner
  simp only at hchart hpoints hregions
  refine ⟨hchart.region hbefore entry method, hpoints, ?_⟩
  simp only [hregions, Spots.append, List.length_append, List.length_singleton, Nat.add_assoc]

end Charts

mutual

theorem analyzeStmt_charted (field : Field) : ∀ {s : Stmt}, verifiedStmt true s = true →
    Guarded s → ∀ (frame : Int) (around : List Int),
    Charts around (spotsStmt around · · s) (analyzeStmt field frame s)
  | .block b, hs, hguarded, frame, around =>
    analyzeBlock_charted field (b := b) hs hguarded frame around
  | .list _ ss, hs, hguarded, frame, around =>
    @analyzeStmts_charted field ss hs hguarded frame around
  | .yieldReturn .., _, _, frame, around => by
    intro a n c b m _ h
    cases h
    exact ⟨.suspension _, rfl, rfl⟩
  | .label o l, _, _, frame, around => by
    intro a n c b m _ h
    obtain ⟨u, a', k, hown, h⟩ := Stateful.bind_ok.mp h
    obtain ⟨rfl, rfl, -⟩ := Stateful.pure_ok.mp h
    simp only [Analyze.own, Stateful.bind_apply, Stateful.get_apply] at hown
    split at hown
    · cases hown
    · cases hown
      exact ⟨.still, rfl, rfl⟩
  | .try o body catches cleanup, hs, hguarded, frame, around => by
    simp only [verifiedStmt, Bool.and_eq_true] at hs
    obtain ⟨-, ⟨hbody, hcatches⟩, hcleanup⟩ := hs
    rw [analyzeStmt, isFrame_eq hbody]
    cases hframed : framed body cleanup with
    | true =>
      simp only [spotsStmt, hframed, if_true, spotsCatches_quiet hguarded.1.1,
        spotsBlock_quiet hguarded.1.2.1, Spots.append_empty]
      exact .region o fun state =>
        analyzeBlock_charted field hbody hguarded.2.1 state (state :: around)
    | false =>
      have hparts := ((analyzeBlock_charted field hbody hguarded.2.1 frame around).append
        (analyzeCatches_charted field hcatches hguarded.2.2.1 frame around)).append
        (analyzeBlock_charted field hcleanup hguarded.2.2.2 frame around)
      simpa only [bind_assoc, pure_bind, spotsStmt, hframed, Bool.false_eq_true, if_false]
        using hparts
  | .absent, _, _, _, _ | .sequencePoint .., _, _, _, _ | .expression .., _, _, _, _
  | .return .., _, _, _, _ | .yieldBreak .., _, _, _, _ | .throw .., _, _, _, _
  | .goto .., _, _, _, _ | .conditionalGoto .., _, _, _, _ | .dispatch .., _, _, _, _ => .still
  | .noOp .., hs, _, _, _ | .localDeclaration .., hs, _, _, _ | .if .., hs, _, _, _
  | .while .., hs, _, _, _ | .break .., hs, _, _, _ | .continue .., hs, _, _, _
  | .foreign .., hs, _, _, _ => nomatch hs

theorem analyzeStmts_charted (field : Field) : ∀ {ss : List Stmt}, verifiedStmts true ss = true →
    GuardedAll ss → ∀ (frame : Int) (around : List Int),
    Charts around (spotsStmts around · · ss) (analyzeStmts field frame ss)
  | [], _, _, _, _ => .still
  | s :: rest, hs, hguarded, frame, around => by
    simp only [verifiedStmts, Bool.and_eq_true] at hs
    exact (analyzeStmt_charted field hs.1 hguarded.1 frame around).append
      (analyzeStmts_charted field hs.2 hguarded.2 frame around)

/-- What the analysis finds in a block is a picture of it. -/
theorem analyzeBlock_charted (field : Field) : ∀ {b : Block}, verifiedBlock true b = true →
    GuardedBlock b → ∀ (frame : Int) (around : List Int),
    Charts around (spotsBlock around · · b) (analyzeBlock field frame b)
  | .absent, _, _, _, _ => .still
  | .mk _ _ ss, hb, hguarded, frame, around =>
    @analyzeStmts_charted field ss hb hguarded frame around

theorem analyzeCatches_charted (field : Field) : ∀ {cs : List Catch},
    verifiedCatches true cs = true → GuardedCatches cs → ∀ (frame : Int) (around : List Int),
    Charts around (spotsCatches around · · cs) (analyzeCatches field frame cs)
  | [], _, _, _, _ => .still
  | .mk _ _ body :: rest, hcs, hguarded, frame, around => by
    simp only [verifiedCatches, Bool.and_eq_true] at hcs
    exact (analyzeBlock_charted field hcs.1 hguarded.1 frame around).append
      (analyzeCatches_charted field hcs.2 hguarded.2 frame around)

end

end Resumable.StateMachine
