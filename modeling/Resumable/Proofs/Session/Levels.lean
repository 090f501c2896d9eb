import Resumable.Proofs.Session.Suspended

/-!
# Live states of levels

The states of a machine are all different.  So a frame other than those of a level is live in all
states of the level or in none of them, and those of the level are live in no state of its own
(`Level.suspension_live`, `Level.child_live`).
-/

set_option autoImplicit false

namespace Resumable.StateMachine

open Resumable.Symbol Resumable.Tree Resumable.Lowering Resumable.Machine

/-! ## Frames and their states -/

section Frames

variable {fs : List Frame} {f g : Frame} {s : Int}

theorem Frame.mem_preorderAll : g ∈ Frame.preorderAll fs ↔ ∃ f ∈ fs, g ∈ f.preorder := by
  induction fs with
  | nil => simp [Frame.preorderAll]
  | cons f rest ih => simp [Frame.preorderAll, ih]

theorem Frame.liveStates_of_mem (hf : f ∈ fs) (hs : s ∈ f.liveStates) :
    s ∈ Frame.liveStatesAll fs :=
  Frame.liveStates_of_preorderAll (Frame.preorderAll_of_mem hf f.mem_preorder_self) hs

theorem Frame.nodup_of_mem (h : (Frame.liveStatesAll fs).Nodup) (hf : f ∈ fs) :
    f.liveStates.Nodup := by
  induction fs with
  | nil => cases hf
  | cons first rest ih =>
    rw [Frame.liveStatesAll] at h
    obtain ⟨hfirst, hrest, -⟩ := List.nodup_append.mp h
    rcases List.mem_cons.mp hf with rfl | hf
    · exact hfirst
    · exact ih hrest hf

/-- Two frames side by side have no state in common. -/
theorem Frame.liveStates_disjoint (h : (Frame.liveStatesAll fs).Nodup) (hf : f ∈ fs) (hg : g ∈ fs)
    (hne : f ≠ g) (hs : s ∈ f.liveStates) : s ∉ g.liveStates := by
  induction fs with
  | nil => cases hf
  | cons first rest ih =>
    rw [Frame.liveStatesAll] at h
    obtain ⟨-, hrest, hapart⟩ := List.nodup_append.mp h
    rcases List.mem_cons.mp hf with rfl | hf' <;> rcases List.mem_cons.mp hg with rfl | hg'
    · exact absurd rfl hne
    · exact fun hs' => hapart s hs s (Frame.liveStates_of_mem hg' hs') rfl
    · exact fun hs' => hapart s hs' s (Frame.liveStates_of_mem hf' hs) rfl
    · exact ih hrest hf' hg'

/-- Of frames side by side and those inside them, one that is neither the frame nor inside it has no
state in common with it. -/
theorem Frame.apart (h : (Frame.liveStatesAll fs).Nodup) (hf : f ∈ fs)
    (hg : g ∈ Frame.preorderAll fs) :
    g = f ∨ g ∈ Frame.preorderAll f.children ∨ ∀ s ∈ f.liveStates, s ∉ g.liveStates := by
  obtain ⟨outer, houter, hg⟩ := Frame.mem_preorderAll.mp hg
  by_cases heq : f = outer
  · subst heq
    rw [Frame.preorder_eq, List.mem_cons] at hg
    exact hg.imp_right .inl
  · exact .inr (.inr fun s hs hs' => Frame.liveStates_disjoint h hf houter heq hs
      (Frame.liveStates_of_preorder hg hs'))

mutual

theorem Frame.states_sublist : ∀ f : Frame,
    (f.preorder.map Frame.state).Sublist f.liveStates
  | .mk state entry cleanup suspensions children => by
    rw [Frame.preorder, Frame.liveStates, List.map_cons, List.cons_append]
    exact ((Frame.statesAll_sublist children).trans (List.sublist_append_right _ _)).cons_cons _

theorem Frame.statesAll_sublist : ∀ fs : List Frame,
    ((Frame.preorderAll fs).map Frame.state).Sublist (Frame.liveStatesAll fs)
  | [] => .slnil
  | f :: rest => by
    rw [Frame.preorderAll, Frame.liveStatesAll, List.map_append]
    exact (Frame.states_sublist f).append (Frame.statesAll_sublist rest)

end

/-- A frame is known by its state. -/
theorem Frame.eq_of_state (h : (Frame.liveStatesAll fs).Nodup) (hf : f ∈ Frame.preorderAll fs)
    (hg : g ∈ Frame.preorderAll fs) (hstate : f.state = g.state) : f = g :=
  List.inj_on_of_nodup_map (h.sublist (Frame.statesAll_sublist fs)) hf hg hstate

end Frames

/-! ## Levels -/

section Levels

variable {root c : Contents} {st : Int} {f g : Frame}

/-- The states of a level are all different. -/
theorem Level.nodup (hroot : (stateRunning :: root.states).Nodup) (h : Level root st c) :
    (st :: c.states).Nodup := by
  induction h with
  | top => exact hroot
  | @inside st c f _ hf ih =>
    have hchildren : (Frame.liveStatesAll c.children).Nodup :=
      (List.Nodup.of_cons ih).sublist (List.sublist_append_right _ _)
    have hlive := Frame.nodup_of_mem hchildren hf
    rwa [Frame.liveStates_eq] at hlive

/-- A frame outside of a level is live in all of its states or in none. -/
theorem Level.uniform (hroot : (stateRunning :: root.states).Nodup) (h : Level root st c)
    (hg : g ∈ Frame.preorderAll root.children) (hout : g ∉ Frame.preorderAll c.children) :
    (∀ s ∈ st :: c.states, s ∈ g.liveStates) ∨ ∀ s ∈ st :: c.states, s ∉ g.liveStates := by
  induction h with
  | top => exact absurd hg hout
  | @inside st c f hlevel hf ih =>
    have hchildren : (Frame.liveStatesAll c.children).Nodup :=
      (List.Nodup.of_cons (hlevel.nodup hroot)).sublist (List.sublist_append_right _ _)
    rw [show f.state :: Contents.states ⟨f.suspensions, f.children⟩ = f.liveStates from
      (Frame.liveStates_eq f).symm]
    by_cases hmem : g ∈ Frame.preorderAll c.children
    · rcases Frame.apart hchildren hf hmem with rfl | hinside | hapart
      · exact .inl fun s hs => hs
      · exact absurd hinside hout
      · exact .inr hapart
    · have hsub : ∀ s ∈ f.liveStates, s ∈ st :: c.states := fun s hs =>
        List.mem_cons_of_mem _ (List.mem_append_right _ (Frame.liveStates_of_mem hf hs))
      exact (ih hmem).imp (fun hall s hs => hall s (hsub s hs)) fun hnone s hs =>
        hnone s (hsub s hs)

/-- The frames of a level are not live in the states that are directly in it. -/
theorem Level.outside (hroot : (stateRunning :: root.states).Nodup) (h : Level root st c)
    (hg : g ∈ Frame.preorderAll c.children) :
    st ∉ g.liveStates ∧ ∀ s ∈ c.suspensions, s.state ∉ g.liveStates := by
  obtain ⟨hst, hstates⟩ := List.nodup_cons.mp (h.nodup hroot)
  have hinside : ∀ {s}, s ∈ g.liveStates → s ∈ Frame.liveStatesAll c.children :=
    Frame.liveStates_of_preorderAll hg
  exact ⟨fun hs => hst (List.mem_append_right _ (hinside hs)), fun s hs hs' =>
    (List.nodup_append.mp hstates).2.2 _ (List.mem_map_of_mem hs) _ (hinside hs') rfl⟩

/-- A suspension is live where its level is. -/
theorem Level.suspension_live (hroot : (stateRunning :: root.states).Nodup) (h : Level root st c)
    (hg : g ∈ Frame.preorderAll root.children) {s : Suspension} (hs : s ∈ c.suspensions) :
    s.state ∈ g.liveStates ↔ st ∈ g.liveStates := by
  by_cases hmem : g ∈ Frame.preorderAll c.children
  · obtain ⟨hst, hsuspensions⟩ := h.outside hroot hmem
    exact iff_of_false (hsuspensions s hs) hst
  · have hmem' : s.state ∈ st :: c.states :=
      List.mem_cons_of_mem _ (List.mem_append_left _ (List.mem_map_of_mem hs))
    rcases h.uniform hroot hg hmem with hall | hnone
    · exact iff_of_true (hall _ hmem') (hall _ List.mem_cons_self)
    · exact iff_of_false (hnone _ hmem') (hnone _ List.mem_cons_self)

/-- In the state of a frame of the level, the frame itself is live beside those around it. -/
theorem Level.child_live (hroot : (stateRunning :: root.states).Nodup) (h : Level root st c)
    (hg : g ∈ Frame.preorderAll root.children) (hf : f ∈ c.children) :
    f.state ∈ g.liveStates ↔ st ∈ g.liveStates ∨ g = f := by
  have hself : f.state ∈ f.liveStates := by simp [Frame.liveStates_eq]
  by_cases hmem : g ∈ Frame.preorderAll c.children
  · have hchildren : (Frame.liveStatesAll c.children).Nodup :=
      (List.Nodup.of_cons (h.nodup hroot)).sublist (List.sublist_append_right _ _)
    rw [or_iff_right (h.outside hroot hmem).1]
    rcases Frame.apart hchildren hf hmem with rfl | hinside | hapart
    · exact iff_of_true hself rfl
    · have hlive := ((Level.inside h hf).outside hroot hinside).1
      exact iff_of_false hlive fun heq => hlive (heq ▸ hself)
    · exact iff_of_false (hapart _ hself) fun heq => hapart _ hself (heq ▸ hself)
  · have hne : g ≠ f := fun heq =>
      hmem (Frame.preorderAll_of_mem hf (heq ▸ f.mem_preorder_self))
    rw [or_iff_left hne]
    have hmem' : f.state ∈ st :: c.states :=
      List.mem_cons_of_mem _ (List.mem_append_right _ (Frame.liveStates_of_mem hf hself))
    rcases h.uniform hroot hg hmem with hall | hnone
    · exact iff_of_true (hall _ hmem') (hall _ List.mem_cons_self)
    · exact iff_of_false (hnone _ hmem') (hnone _ List.mem_cons_self)

end Levels

end Resumable.StateMachine
