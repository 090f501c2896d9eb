import Resumable.Proofs.Machine.Recorded
import Resumable.Proofs.Session.Entered
import Resumable.Proofs.Session.Levels

/-!
# Entries of frames and runs of their finallys

How often a frame is entered and how often its finally is called can be counted in the record of an
instance.  The two balance (`Balanced`) when each entry has been followed by one call, up to a frame
that is still live in the state.  A call of the finally of a frame settles one entry
(`Built.cleanup_balances`), and a disposal settles all of them (`Built.dispose_balances`).
-/

set_option autoImplicit false

namespace Resumable.Machine

open Resumable.Symbol Resumable.Tree Resumable.StateMachine

variable {σ : Type}

/-! ## Host methods that stay away -/

/-- The host methods do not come back to the instance: what they call leaves it as it is and calls
no method on it. -/
def StaysAway (m : Machine σ) (watched : Method) (r : Ref) : Prop :=
  ∀ name host, m.hosts name = some host → ∀ args s method this args' s',
    host args s = (.call method this args', s') → ∀ steps depth w z v,
      recordedWithin m watched r steps depth method this args' w = some (z, v) →
        v.objects[r.number]? = w.objects[r.number]? ∧ v.log = w.log

/-- A recorded call of a host method keeps what depends on the instance and its record alone. -/
theorem callHost_recorded_keeps {m : Machine σ} {watched : Method} {r : Ref}
    (haway : StaysAway m watched r) {I : World (Recorded σ) → Prop}
    (hI : ∀ w w' : World (Recorded σ), w'.objects[r.number]? = w.objects[r.number]? →
      w'.log = w.log → I w → I w')
    (steps depth : Nat) (method : Method) (name : String) (args : List Value) :
    (callHost ⟨m.recording, recordedWithin m watched r steps depth, method⟩ name args).Keeps
      r I := by
  refine callHost_keeps_of (fun name host hhost args w hw => ?_) name args
  obtain ⟨plain, hplain, rfl⟩ :=
    Option.map_eq_some_iff.mp ((host?_recording m name).symm.trans hhost)
  refine ⟨hI w _ rfl rfl hw, fun callee this args' z v hcall hv => ?_⟩
  obtain ⟨hobject, hlog⟩ := haway name plain (hosts_of_call hplain hcall) args _ callee this args' _
    (Prod.ext hcall rfl) steps depth _ z v hv
  exact hI _ v hobject hlog (hI w _ rfl rfl hw)

end Resumable.Machine

namespace Resumable.StateMachine

open Resumable.Symbol Resumable.Tree Resumable.Source Resumable.Lowering Resumable.Machine

variable {σ : Type}

/-! ## Balance -/

/-- The instruction of the method that resumes by which the frame is entered: it stands directly
before the label of the frame. -/
def entryOf (sm : StateMachine) (f : Frame) : Nat :=
  ((flattenBlock 0 sm.moveNext.body).labels.lookup (some f.entry)).getD 0 - 1

/-- The instance is in the state, and each frame has been entered as often as its finally has been
called, and once more if it is live. -/
structure Balanced (sm : StateMachine) (frames : List Frame) (r : Ref) (s : Int)
    (w : World (Recorded σ)) : Prop where
  reads : w.Reads r sm.state (.int s)
  count : ∀ f ∈ frames, w.log.count (.reached (entryOf sm f)) =
    w.log.count (.called f.cleanup.symbol) + if s ∈ f.liveStates then 1 else 0

namespace Balanced

variable {sm : StateMachine} {frames : List Frame} {r : Ref} {s s' : Int}
  {w v : World (Recorded σ)}

/-- In a state in which no frame is live, every entry has been settled. -/
theorem settled (h : Balanced sm frames r s w) {f : Frame} (hf : f ∈ frames)
    (hs : s ∉ f.liveStates) :
    w.log.count (.reached (entryOf sm f)) = w.log.count (.called f.cleanup.symbol) := by
  rw [h.count f hf, if_neg hs, Nat.add_zero]

/-- Only the instance and its record matter. -/
theorem of_object (h : Balanced sm frames r s w)
    (hobject : v.objects[r.number]? = w.objects[r.number]?) (hlog : v.log = w.log) :
    Balanced sm frames r s v where
  reads := h.reads.of_object hobject
  count f hf := by
    rw [hlog]
    exact h.count f hf

/-- Other fields of the instance do not matter. -/
theorem put_of_ne (h : Balanced sm frames r s w) {g : Field} (hg : g ≠ sm.state) (x : Value) :
    Balanced sm frames r s (w.put r g x) where
  reads := h.reads.put_of_ne hg
  count f hf := h.count f hf

/-- The state may become one in which the same frames are live. -/
theorem put_state (h : Balanced sm frames r s w)
    (hlive : ∀ f ∈ frames, s' ∈ f.liveStates ↔ s ∈ f.liveStates) :
    Balanced sm frames r s' (w.put r sm.state (.int s')) where
  reads := .put_self h.reads.present
  count f hf := by
    rw [if_congr (hlive f hf) rfl rfl]
    exact h.count f hf

/-- An event that is neither the entry of a frame nor a call of its finally. -/
theorem note (h : Balanced sm frames r s w) {e : Event}
    (he : ∀ f ∈ frames, e ≠ .reached (entryOf sm f) ∧ e ≠ .called f.cleanup.symbol) :
    Balanced sm frames r s (w.note e) where
  reads := h.reads.of_object rfl
  count f hf := by
    obtain ⟨hreached, hcalled⟩ := he f hf
    rw [World.log_note, List.count_append, List.count_append, List.count_singleton,
      List.count_singleton, if_neg (by simpa using hreached), if_neg (by simpa using hcalled)]
    exact h.count f hf

end Balanced

section Machine

variable {markers : Bool} {origin : MethodBody} {owner : TypeDecl} {sm : StateMachine} {plan : Plan}
  {c : Contents} {b : Block} {k n : Nat}

/-! ## Where frames are entered -/

/-- The code of the method that resumes enters each frame. -/
theorem Built.entersFrame (h : Built markers origin owner sm plan c b k n) {f : Frame}
    (hf : f ∈ Frame.preorderAll c.children) :
    EntersFrame plan f 0 (flattenBlock 0 sm.moveNext.body) := by
  obtain ⟨T, invalid, start, b', hresumes⟩ := h.resumes
  have hinside := imageBlock_enters hresumes.image 4 f hf
  -- Four instructions stand before the body.
  have hguarded : EntersFrame plan f 0 (flattenBlock 0 (guardedBody plan c invalid start b')) :=
    .append_right (n := 1) (.append_right (n := 0) (.append_right (n := 1) (.append_right (n := 1)
      (.append_right (n := 0) (.append_right (n := 1) (hinside.append_left _) rfl) rfl) rfl) rfl)
        rfl) rfl
  rw [hresumes.body, moveNextBody_eq, Made.block, flattenBlock, flattenStmts, flattenStmt_try]
  exact .append_left (.append_left (.append_right (n := 0) (hguarded.append_left _) rfl) _) _

/-- The instruction that sets the state of a frame stands before the label of the frame. -/
theorem Built.entry (h : Built markers origin owner sm plan c b k n) {f : Frame}
    (hf : f ∈ Frame.preorderAll c.children) :
    (flattenBlock 0 sm.moveNext.body).labels.lookup (some f.entry) = some (entryOf sm f + 1) ∧
      (flattenBlock 0 sm.moveNext.body).instrs[entryOf sm f]? =
        some (.exec (stateAssignment plan.provenance sm.state f.state)) := by
  obtain ⟨p, hlabel, hinstr⟩ := h.entersFrame hf
  have hnodup : ((flattenBlock 0 sm.moveNext.body).labels.map Prod.fst).Nodup := by
    rw [(fits_block 0 _).labels_eq]
    exact (h.executable sm.moveNext List.mem_cons_self).nodup
  have hlookup := lookup_of_nodup hnodup hlabel
  have hentry : entryOf sm f = p := by
    rw [entryOf, hlookup, Option.getD_some, Nat.add_sub_cancel, Nat.zero_add]
  rw [hentry, hlookup, h.state]
  exact ⟨by rw [Nat.zero_add], hinstr⟩

/-- No two frames are entered by one instruction. -/
theorem Built.eq_of_entry (h : Built markers origin owner sm plan c b k n) {f g : Frame}
    (hf : f ∈ Frame.preorderAll c.children) (hg : g ∈ Frame.preorderAll c.children)
    (heq : entryOf sm f = entryOf sm g) : f = g := by
  have hinstr := (h.entry hf).2
  rw [heq, (h.entry hg).2] at hinstr
  have hstate : g.state = f.state := by
    simpa [stateAssignment, Made.int] using hinstr
  exact Frame.eq_of_state (List.Nodup.of_cons h.states_nodup) hf hg hstate.symm

/-- No two frames have one finally. -/
theorem Built.eq_of_symbol (h : Built markers origin owner sm plan c b k n) {f g : Frame}
    (hf : f ∈ Frame.preorderAll c.children) (hg : g ∈ Frame.preorderAll c.children)
    (heq : f.cleanup.symbol = g.cleanup.symbol) : f = g := by
  obtain ⟨a, a', -, -, hcounted⟩ := h.counted
  exact List.inj_on_of_nodup_map hcounted.distinct hf hg (congrArg Method.name heq)

/-- The method that disposes and the one that resumes are no finallys. -/
theorem Built.cleanup_ne (h : Built markers origin owner sm plan c b k n) {f : Frame}
    (hf : f ∈ Frame.preorderAll c.children) :
    f.cleanup.symbol ≠ sm.moveNext.symbol ∧ f.cleanup.symbol ≠ sm.dispose.symbol := by
  obtain ⟨name, hname⟩ := h.cleanup_symbol hf
  rw [hname, h.moveNextSymbol, h.disposeSymbol]
  constructor <;> intro heq <;> cases congrArg Method.role heq

/-- Where the state of a frame of a level is set, the frame is entered once more. -/
theorem Built.enter_balances (h : Built markers origin owner sm plan c b k n) {st : Int}
    {level : Contents} (hlevel : Level c st level) {f : Frame} (hf : f ∈ level.children) {r : Ref}
    {w : World (Recorded σ)} (hw : Balanced sm (Frame.preorderAll c.children) r st w) :
    Balanced sm (Frame.preorderAll c.children) r f.state
      ((w.note (.reached (entryOf sm f))).put r sm.state (.int f.state)) := by
  have hmem := hlevel.mem hf
  refine ⟨.put_self hw.reads.present, fun g hg => ?_⟩
  have hlive := hlevel.child_live h.contents_nodup hg hf
  rw [World.log_put, World.log_note, List.count_append, List.count_append, List.count_singleton,
    List.count_singleton,
    if_neg (show ¬ (Event.reached (entryOf sm f) == .called g.cleanup.symbol) = true by simp),
    Nat.add_zero, hw.count g hg]
  by_cases heq : g = f
  · subst heq
    have hself : st ∉ g.liveStates :=
      (hlevel.outside h.contents_nodup (Frame.preorderAll_of_mem hf g.mem_preorder_self)).1
    rw [if_neg hself, if_pos (hlive.mpr (.inr rfl))]
    simp
  · have hne : entryOf sm f ≠ entryOf sm g := fun hentry => heq (h.eq_of_entry hg hmem hentry.symm)
    rw [if_congr (hlive.trans (or_iff_left heq)) rfl rfl,
      if_neg (show ¬ (Event.reached (entryOf sm f) == .reached (entryOf sm g)) = true by
        simpa using hne), Nat.add_zero]

/-! ## Calls of finallys -/

variable {m : Machine σ} {watched : Method} {r : Ref}

/-- A recorded call of the finally of a frame is one event, and leaves the instance in the state
that the finally sets first. -/
theorem Built.cleanup_recorded (h : Built markers origin owner sm plan c b k n)
    (hcarries : Carries sm m) (haway : StaysAway m watched r) {f : Frame}
    (hf : f ∈ Frame.preorderAll c.children) (hwatched : f.cleanup.symbol ≠ watched) {o : Origin}
    {rest : List Stmt} {parent : Int}
    (hbody : f.cleanup.body = .mk o [] (assignState o.provenance sm.state parent :: rest))
    {steps depth : Nat} {w v : World (Recorded σ)} {z : Except Failure Value}
    (hpresent : r.number < w.objects.length)
    (hcall : recordedWithin m watched r steps (depth + 1) f.cleanup.symbol (some r) [] w =
      some (z, v)) :
    v.Reads r sm.state (.int parent) ∧ v.log = w.log ++ [.called f.cleanup.symbol] := by
  obtain ⟨x, hx, hsymbol, hwalked⟩ := h.cleanup_mem hf
  rw [← hsymbol] at hwatched hcall ⊢
  rw [recordedWithin_succ (hcarries.routine hx (h.executable x hx)), if_neg hwatched] at hcall
  refine h.cleanup_brings (I := fun v => v.Reads r sm.state (.int parent) ∧
    v.log = w.log ++ [.called x.symbol]) hx hf hwalked hbody
    (callHost_recorded_keeps haway (fun u u' hobject hlog hu => ?_) steps depth x.symbol)
    (fun g y hg u hu => ?_) (fun u hu => ?_) ?_ hcall
  · exact ⟨hu.1.of_object hobject, hlog.trans hu.2⟩
  · exact ⟨hu.1.put_of_ne hg, hu.2⟩
  · exact ⟨.put_self hu.1.present, hu.2⟩
  · exact ⟨.put_self hpresent, rfl⟩

/-- A finally can be called, and is recorded. -/
theorem Built.cleanable_recorded (h : Built markers origin owner sm plan c b k n)
    (hcarries : Carries sm m) (haway : StaysAway m sm.moveNext.symbol r) (steps depth : Nat) :
    ∀ f ∈ Frame.preorderAll c.children,
      Cleanable (recordedWithin m sm.moveNext.symbol r steps (depth + 1)) r sm.state f := by
  intro f hf
  obtain ⟨name, hsymbol⟩ := h.cleanup_symbol hf
  refine ⟨by rw [hsymbol]; rfl, fun hbody _ _ _ hpresent hcall => ?_⟩
  exact (h.cleanup_recorded hcarries haway hf (h.cleanup_ne hf).1 hbody hpresent hcall).1

/-- The finally of a frame settles an entry of it. -/
theorem Built.cleanup_balances (h : Built markers origin owner sm plan c b k n)
    (hcarries : Carries sm m) (haway : StaysAway m sm.moveNext.symbol r) {st : Int}
    {level : Contents} (hlevel : Level c st level) {f : Frame} (hf : f ∈ level.children)
    {steps depth : Nat} {w v : World (Recorded σ)} {z : Except Failure Value}
    (hw : Balanced sm (Frame.preorderAll c.children) r f.state w)
    (hcall : recordedWithin m sm.moveNext.symbol r steps (depth + 1) f.cleanup.symbol (some r) []
      w = some (z, v)) : Balanced sm (Frame.preorderAll c.children) r st v := by
  have hmem := hlevel.mem hf
  obtain ⟨o, rest, hbody⟩ := (Frame.rooted_of_mem (hlevel.rooted h.rooted) hf).body
  rw [← h.state] at hbody
  obtain ⟨hreads, hlog⟩ := h.cleanup_recorded hcarries haway hmem (h.cleanup_ne hmem).1 hbody
    hw.reads.present hcall
  refine ⟨hreads, fun g hg => ?_⟩
  have hlive := hlevel.child_live h.contents_nodup hg hf
  have hcount := hw.count g hg
  rw [hlog, List.count_append, List.count_append, List.count_singleton, List.count_singleton,
    if_neg (by simp), Nat.add_zero, hcount, Nat.add_assoc]
  by_cases heq : g = f
  · subst heq
    have hself : st ∉ g.liveStates :=
      (hlevel.outside h.contents_nodup (Frame.preorderAll_of_mem hf g.mem_preorder_self)).1
    rw [if_pos (hlive.mpr (.inr rfl)), if_neg hself]
    simp
  · have hne : f.cleanup.symbol ≠ g.cleanup.symbol := fun hsymbol =>
      heq (h.eq_of_symbol hg hmem hsymbol.symm)
    rw [if_congr (hlive.trans (or_iff_left heq)) rfl rfl,
      if_neg (show ¬ (Event.called f.cleanup.symbol == .called g.cleanup.symbol) = true by
        simpa using hne), Nat.zero_add]

/-! ## Disposal -/

/-- The finallys that are run are recorded in their order. -/
theorem Built.runCleanups_recorded (h : Built markers origin owner sm plan c b k n)
    (hcarries : Carries sm m) (haway : StaysAway m sm.moveNext.symbol r) {steps depth : Nat}
    {fs : List Frame} (hfs : ∀ f ∈ fs, f ∈ Frame.preorderAll c.children)
    {w v : World (Recorded σ)} {failures : List Failure} (hpresent : r.number < w.objects.length)
    (hrun : runCleanups (recordedWithin m sm.moveNext.symbol r steps (depth + 1)) r fs w =
      some (failures, v)) :
    r.number < v.objects.length ∧ v.log = w.log ++ fs.map fun f => .called f.cleanup.symbol := by
  induction fs generalizing w failures with
  | nil =>
    cases hrun
    exact ⟨hpresent, (List.append_nil _).symm⟩
  | cons f rest ih =>
    obtain ⟨result, i, others, hcall, hothers, -⟩ := runCleanups_cons.mp hrun
    obtain ⟨hf, hrest⟩ := List.forall_mem_cons.mp hfs
    obtain ⟨parent, hroot⟩ := Frame.rootedAll_inside h.rooted hf
    obtain ⟨o, ss, hbody⟩ := hroot.body
    rw [← h.state] at hbody
    obtain ⟨hreads, hlog⟩ := h.cleanup_recorded hcarries haway hf (h.cleanup_ne hf).1 hbody hpresent
      hcall
    obtain ⟨hpresent', hlog'⟩ := ih hrest hreads.present hothers
    refine ⟨hpresent', ?_⟩
    rw [hlog', hlog, List.map_cons, List.append_assoc, List.singleton_append]

/-- A recorded disposal runs the finallys of the live frames. -/
theorem Built.dispose_recorded (h : Built markers origin owner sm plan c b k n)
    (hcarries : Carries sm m) (haway : StaysAway m sm.moveNext.symbol r) {steps depth : Nat}
    {w w' : World (Recorded σ)} {s : Int} (hstate : w.Reads r sm.state (.int s))
    {res : Except Failure Value}
    (hcall : recordedWithin m sm.moveNext.symbol r steps (depth + 2) sm.dispose.symbol (some r) []
      w = some (res, w')) :
    ∃ v : World (Recorded σ), r.number < v.objects.length ∧
      v.log = w.log ++ .called sm.dispose.symbol ::
        (liveFrames c.children s).map (fun f => .called f.cleanup.symbol) ∧
      w' = v.put r sm.state (.int stateFinished) := by
  have hmem : sm.dispose ∈ sm.methods := List.mem_cons_of_mem _ List.mem_cons_self
  have hexecutable := h.executable _ hmem
  have hne : sm.dispose.symbol ≠ sm.moveNext.symbol := by
    rw [h.moveNextSymbol, h.disposeSymbol]
    intro heq
    cases congrArg Method.role heq
  rw [recordedWithin_succ (hcarries.routine hmem hexecutable), if_neg hne] at hcall
  obtain ⟨o, d, ho, -, rfl⟩ := execBody_of_activate hexecutable hcall
  have hclean := h.cleanable_recorded hcarries haway steps depth
  obtain ⟨e, d', hruns, -, hworld⟩ := (Lowering.execBody_iff_runs rfl
    (plain_disposeBody plan c.children) h.dispose hexecutable.nodup _ _ _ _).mp ⟨o, d, ho, rfl, rfl⟩
  have hnoted : (w.note (.called sm.dispose.symbol)).Reads r sm.state (.int s) :=
    hstate.of_object rfl
  rw [h.state] at hnoted hclean ⊢
  obtain ⟨failures, v, hrun, -, rfl⟩ := (runs_disposeBody_iff h.rooted h.states_nodup hclean
    ⟨rfl, hnoted⟩).mp hruns
  obtain ⟨hpresent, hlog⟩ := h.runCleanups_recorded hcarries haway
    (fun f hf => (mem_liveFrames.mp hf).1) hnoted.present hrun
  exact ⟨v, hpresent, by rw [hlog, World.log_note, List.append_assoc, List.singleton_append],
    hworld.symm⟩

/-- The finally of a frame is among those that a disposal runs if the frame is live, and once. -/
theorem Built.count_liveFrames (h : Built markers origin owner sm plan c b k n) (s : Int)
    {f : Frame} (hf : f ∈ Frame.preorderAll c.children) :
    ((liveFrames c.children s).map fun g => Event.called g.cleanup.symbol).count
      (.called f.cleanup.symbol) = if s ∈ f.liveStates then 1 else 0 := by
  have hnodup : ((liveFrames c.children s).map fun g => Event.called g.cleanup.symbol).Nodup := by
    have hsymbols := (h.liveFrames_nodup s).map (f := Event.called) fun a b heq => by cases heq; rfl
    rwa [List.map_map] at hsymbols
  rw [hnodup.count]
  refine if_congr ?_ rfl rfl
  rw [List.mem_map]
  constructor
  · rintro ⟨g, hg, heq⟩
    obtain ⟨hmem, hs⟩ := mem_liveFrames.mp hg
    rwa [h.eq_of_symbol hf hmem (Event.called.inj heq).symm]
  · exact fun hs => ⟨f, mem_liveFrames.mpr ⟨hf, hs⟩, rfl⟩

/-- A disposal settles all entries. -/
theorem Built.dispose_balances (h : Built markers origin owner sm plan c b k n)
    (hcarries : Carries sm m) (haway : StaysAway m sm.moveNext.symbol r) {steps depth : Nat}
    {w w' : World (Recorded σ)} {s : Int} {res : Except Failure Value}
    (hw : Balanced sm (Frame.preorderAll c.children) r s w)
    (hcall : recordedWithin m sm.moveNext.symbol r steps (depth + 2) sm.dispose.symbol (some r) []
      w = some (res, w')) :
    Balanced sm (Frame.preorderAll c.children) r stateFinished w' := by
  obtain ⟨v, hpresent, hlog, rfl⟩ := h.dispose_recorded hcarries haway hw.reads hcall
  refine ⟨.put_self hpresent, fun f hf => ?_⟩
  have hfinished : stateFinished ∉ f.liveStates := fun hs =>
    h.finished_outside (Frame.liveStates_of_preorderAll hf hs)
  have hreached : (Event.called sm.dispose.symbol :: (liveFrames c.children s).map fun g =>
      Event.called g.cleanup.symbol).count (.reached (entryOf sm f)) = 0 :=
    List.count_eq_zero.mpr (by simp)
  have hcalled : (Event.called sm.dispose.symbol :: (liveFrames c.children s).map fun g =>
      Event.called g.cleanup.symbol).count (.called f.cleanup.symbol) =
        if s ∈ f.liveStates then 1 else 0 := by
    rw [List.count_cons_of_ne, h.count_liveFrames s hf]
    exact fun heq => (h.cleanup_ne hf).2 (Event.called.inj heq).symm
  rw [World.log_put, hlog, List.count_append, List.count_append, hreached, hcalled,
    if_neg hfinished, hw.count f hf]

end Machine

end Resumable.StateMachine
