import Resumable.Proofs.Session.Counted
import Resumable.Proofs.Session.Starting

/-!
# Each entry of a frame has one run of its finally

However a machine is resumed and disposed of, between any two calls each frame has been entered as
often as its finally has been called, and once more while it is live (`entries_settled`).  Inside a
call this is carried through the code that resumes (`Built.tracks_balance`), and past the handler
around it (`meets_guarding`), which settles what a failure has left open.
-/

set_option autoImplicit false

namespace Resumable.StateMachine

open Resumable.Symbol Resumable.Tree Resumable.Source Resumable.Lowering
open Resumable.Machine hiding Region Outcome Handler

variable {σ : Type}

/-! ## The handler that disposes of the machine -/

section Handler

variable {S : Setting σ} {Q : Config σ → Prop} {p : Option Provenance} {owner : TypeDecl}
  {dispose : Method} {inner : Block} {scope : Range} {pre : Config σ → Prop}

/-- The handler keeps what the disposal keeps. -/
theorem meets_faultHandler (hQ : Steadfast Q) (hplain : ∀ e, S.observer.element? e = none)
    {pc : Nat} (hnote : ∀ q, pc ≤ q → ∀ c, Q c → Q (S.observer.note q c))
    (hcall : ∀ c, Q c → ∀ z d,
      eval S.ctx (.call (.made p) (Made.this p owner) dispose []) c = some (z, d) → Q d)
    (behind : Nat) :
    (S.execCatches scope pc behind [faultHandler p owner dispose] .start).Meets Q
      ((Exits.steady Q (fun _ => False) True).Ends Q) := by
  have houtlasts : ∀ q n, pc ≤ q → S.Outlasts Q q n := fun q n hq i hi _ => hnote i (by omega)
  have hthrow : ∀ range q, pc ≤ q → Spec (.steady Q (fun _ => False) True) (fun _ _ => True)
      (labelsBlock (Made.block p [.throw (.made p) .absent])) Q Q
      (S.passBlock range q [] (Made.block p [.throw (.made p) .absent])) := fun range q hq =>
    .cons rfl (.leaf rfl Q (hnote q hq) (Spec.rethrow hQ trivial _)) .nil
  have hdisposal : Spec (.steady Q (fun _ => False) True) (fun _ _ => True)
      (labelsBlock (Made.block p [Made.callThis p owner dispose])) Q Q
      (S.passBlock scope (pc + 1) [] (Made.block p [Made.callThis p owner dispose])) :=
    .cons rfl (.expression (hplain _) Q (hnote _ (by omega)) (fun c v d hc hd => hcall c hc _ d hd)
      fun c f d hc hd => hcall c hc _ d hd) .nil
  have hbehind : pc ≤ behindCatches (pc + 1) (Made.block p [Made.callThis p owner dispose]) [] := by
    unfold behindCatches behindBody
    omega
  have hclean : ∀ range, (S.rounds range [] (labelsBlock (Made.block p [.throw (.made p) .absent]))
      (S.passBlock range
        (behindCatches (pc + 1) (Made.block p [Made.callThis p owner dispose]) []) []
        (Made.block p [.throw (.made p) .absent])) .start).Meets Q
          ((Exits.steady Q (fun _ => False) True).Ends Q) := fun range =>
    (hthrow range _ hbehind).rounds (fun _ _ _ _ _ => trivial)
      (fun _ _ _ hl => absurd hl List.not_mem_nil) .start rfl
  exact Spec.handlers hQ (houtlasts _ _ (Nat.le_refl _)) (fun _ _ _ _ => trivial)
    (.cons rfl (.tried hQ (houtlasts _ _ (Nat.le_succ _)) (fun _ _ _ _ => trivial) hdisposal
      (.still (by rw [Setting.execCatches])) hclean (fun _ _ _ _ => trivial)
      fun _ => hthrow scope _ hbehind) .nil) (.still (by rw [Setting.execCatches])) .start rfl

/-- What the code inside the handler and the disposal keep, the body keeps. -/
theorem meets_guarding (hQ : Steadfast Q) (hplain : ∀ e, S.observer.element? e = none)
    (hnote : ∀ q, sizeBlock inner ≤ q → ∀ c, Q c → Q (S.observer.note q c))
    (hcall : ∀ c, Q c → ∀ z d,
      eval S.ctx (.call (.made p) (Made.this p owner) dispose []) c = some (z, d) → Q d)
    (hinner : (S.rounds scope [] (labelsBlock inner) (S.passBlock scope 0 [] inner) .start).Meets
      pre fun _ d => Q d) :
    (S.execBody scope (guarding p owner dispose inner) .start).Meets pre fun _ d => Q d := by
  obtain ⟨held, hheld⟩ : ∃ held : Machine.Handler, handlersAt (behindBody 0 inner)
      [faultHandler p owner dispose] = [held] := ⟨_, rfl⟩
  have hhandler : (S.execCatches scope (behindBody 0 inner)
      (behindTry 0 inner [faultHandler p owner dispose] .absent) [faultHandler p owner dispose]
      .start).Meets Q ((Exits.steady Q (fun _ => False) True).Ends Q) :=
    meets_faultHandler hQ hplain (fun q hq => hnote q (by unfold behindBody at hq; omega)) hcall _
  have hrounds : (S.rounds scope [] (labelsBlock inner) (S.passBlock scope 0 [] inner) .start).Meets
      pre fun o d => Q d ∧ ∀ q l, o = .jump q l → l ∉ labelsBlock inner := by
    refine fun c hc o d hd => ⟨hinner c hc o d hd, ?_⟩
    rintro q l rfl
    exact (Setting.rounds_jump hd).1
  -- A jump leaves the body, so it makes no other round.
  have hpart : (S.exec scope 0 [] (.try (.made p) inner [faultHandler p owner dispose] .absent)
      .start).Meets pre fun o d => Q d ∧ ∀ q l, o = .jump q l → l ∉ labelsBlock inner := by
    rw [Setting.exec_try_start, hheld]
    refine hrounds.andThen fun o => ?_
    cases o with
    | normal =>
      rintro c ⟨hc, -⟩ o d hd
      cases hd
      refine ⟨hQ (S.observer.note (0 + sizeBlock inner) c) _ rfl rfl (hnote _ (by omega) c hc), ?_⟩
      rintro q l ⟨⟩
    | fail q f =>
      rintro c ⟨hc, -⟩ o d hd
      have hend := hhandler (c.handle scope q f held) (hQ c _ rfl rfl hc) o d hd
      cases o with
      | jump q l => exact hend.1.elim
      | ret q v | suspend q v => exact hend.elim
      | normal | fail q f =>
        refine ⟨hend, ?_⟩
        rintro q l ⟨⟩
      | stop result =>
        refine ⟨hend.2, ?_⟩
        rintro q l ⟨⟩
    | jump | ret | suspend | stop => exact .done fun c hc => hc
  have hpass : S.passBlock scope 0 [] (guarding p owner dispose inner) .start =
      S.exec scope 0 [] (.try (.made p) inner [faultHandler p owner dispose] .absent) .start := by
    rw [guarding, Made.block, Setting.passBlock, Setting.pass_singleton rfl]
  have hend : ∀ c, pre c → ∀ o d, S.rounds scope [] (labelsBlock (guarding p owner dispose inner))
      (S.passBlock scope 0 [] (guarding p owner dispose inner)) .start c = some (o, d) → Q d := by
    intro c hc o d hd
    rw [Setting.rounds_eq, hpass] at hd
    obtain ⟨o', d', hd', hagain⟩ := Flow.andThen_eq_some.mp hd
    obtain ⟨hout, hjump⟩ := hpart c hc o' d' hd'
    cases o' with
    | jump q l =>
      have hleaves : l ∉ labelsBlock (guarding p owner dispose inner) := by
        rw [labelsBlock_guarding]
        exact hjump q l rfl
      rw [Setting.again, Entry.staying?_eq_none.mpr ⟨hleaves, List.not_mem_nil⟩] at hagain
      cases hagain
      exact hout
    | _ =>
      cases hagain
      exact hout
  intro c hc o d hd
  rcases Flow.onNormal_eq_some.mp hd with ⟨d', hd', hret⟩ | ⟨hd', -⟩
  · cases hret
    refine hnote _ ?_ d' (hend c hc _ d' hd')
    simp only [guarding, Made.block, sizeBlock, sizeStmts, sizeStmt]
    omega
  · exact hend c hc o d hd'

end Handler

/-! ## Resuming -/

/-- What is known of the world in each phase: entries and runs balance in the state, and where the
element of a suspension has been stored, the frames that are live in it are live already. -/
def Balancing (sm : StateMachine) (frames : List Frame) (r : Ref) :
    Phase → World (Recorded σ) → Prop
  | .inState s, w | .given s, w => Balanced sm frames r s w
  | .stored st s, w =>
    Balanced sm frames r st w ∧ ∀ f ∈ frames, s ∈ f.liveStates ↔ st ∈ f.liveStates

section Machine

variable {markers : Bool} {origin : MethodBody} {owner : TypeDecl} {sm : StateMachine} {plan : Plan}
  {c : Contents} {b : Block} {k n : Nat} {m : Machine σ} {r : Ref}

/-- What the method that resumes is executed with in a recorded call. -/
def recordedSetting (m : Machine σ) (sm : StateMachine) (r : Ref) (steps depth : Nat) :
    Setting (Recorded σ) :=
  .ofBody ⟨m.recording, recordedWithin m sm.moveNext.symbol r steps depth, sm.moveNext.symbol⟩
    Machine.recorder sm.moveNext.symbol sm.moveNext.body

theorem Built.label_entry (h : Built markers origin owner sm plan c b k n) (steps depth : Nat)
    {f : Frame} (hf : f ∈ Frame.preorderAll c.children) :
    (recordedSetting m sm r steps depth).label (some f.entry) = entryOf sm f + 1 := by
  show ((flattenBlock 0 sm.moveNext.body).labels.lookup (some f.entry)).getD 0 = _
  rw [(h.entry hf).1]
  rfl

/-- The steps of the method that resumes carry the balance over. -/
theorem Built.tracks_balance (h : Built markers origin owner sm plan c b k n)
    (hcarries : Carries sm m) (haway : StaysAway m sm.moveNext.symbol r) (steps depth : Nat) :
    Tracks (recordedSetting m sm r steps (depth + 1)) plan owner c (ElementOf b) r
      (Balancing sm (Frame.preorderAll c.children) r) (Frame.preorderAll c.children) := by
  have huser : ∀ e, OfUser owner e → ∀ s, (eval (recordedSetting m sm r steps (depth + 1)).ctx
      e).Keeps r (Balanced sm (Frame.preorderAll c.children) r s) := fun e he s => by
    refine eval_keeps (callHost_recorded_keeps haway (fun w w' hobject hlog hw =>
      hw.of_object hobject hlog) steps (depth + 1) sm.moveNext.symbol)
      (fun g v hg w hw => hw.put_of_ne ?_ v) he
    rw [h.state_eq]
    exact hg
  have hstate := h.state
  exact
    { plain := fun e => rfl
      note := fun p hp φ d hd => by
        have hother : ∀ f ∈ Frame.preorderAll c.children,
            Event.reached p ≠ .reached (entryOf sm f) ∧
              Event.reached p ≠ .called f.cleanup.symbol := fun f hf => by
          refine ⟨fun heq => hp f hf ?_, by rintro ⟨⟩⟩
          rw [h.label_entry steps (depth + 1) hf, Event.reached.inj heq]
        refine ⟨hd.this, ?_⟩
        have hw := hd.world
        cases φ with
        | inState s | given s => exact Balanced.note hw hother
        | stored st s => exact ⟨hw.1.note hother, hw.2⟩
      user := huser
      reads := fun s w hw => by
        rw [← hstate]
        exact hw.reads
      enter := fun hlevel hf p hp d hd => by
        rw [h.label_entry steps (depth + 1) (hlevel.mem hf)] at hp
        obtain rfl := Nat.succ.inj hp
        rw [← hstate]
        exact ⟨hd.this, h.enter_balances hlevel hf hd.world⟩
      own := fun hlevel hf =>
        (h.cleanable_recorded hcarries haway steps depth _ (hlevel.mem hf)).own
      cleanup := fun hlevel hf w z v hw hcall =>
        h.cleanup_balances hcarries haway hlevel hf hw hcall
      store := fun hlevel hs e _ he d hd v d' hv => by
        have hcurrent : plan.current ≠ sm.state := hstate ▸ h.distinct
        exact ⟨(huser e he _ d hd _ d' hv).world.put_of_ne hcurrent v, fun f hf =>
          hlevel.suspension_live h.contents_nodup hf hs⟩
      suspend := fun st s w hw => by
        rw [← hstate]
        exact hw.1.put_state hw.2
      resume := fun hlevel hs w hw => by
        rw [← hstate]
        exact Balanced.put_state hw fun f hf =>
          (hlevel.suspension_live h.contents_nodup hf hs).symm }

/-- A disposal of the instance keeps that entries and runs balance in some state. -/
theorem Built.eval_dispose_balances (h : Built markers origin owner sm plan c b k n)
    (hcarries : Carries sm m) (haway : StaysAway m sm.moveNext.symbol r) {steps depth : Nat}
    {p : Option Provenance} {d d' : Config (Recorded σ)} {z : Except Failure Value}
    (hd : d.At r fun w => ∃ s, Balanced sm (Frame.preorderAll c.children) r s w)
    (heval : eval (recordedSetting m sm r steps (depth + 2)).ctx
      (.call (.made p) (Made.this p plan.state.owner) sm.dispose.symbol []) d = some (z, d')) :
    d'.At r fun w => ∃ s, Balanced sm (Frame.preorderAll c.children) r s w := by
  rw [eval_callThis hd.this (by rw [h.disposeSymbol]; rfl)] at heval
  obtain ⟨⟨z', v⟩, hcall, heq⟩ := Option.map_eq_some_iff.mp heval
  cases heq
  obtain ⟨s, hs⟩ := hd.world
  exact ⟨hd.this, _, h.dispose_balances hcarries haway hs hcall⟩

/-- However the method that resumes ends, entries and runs balance. -/
theorem Built.execBody_balances (h : Built markers origin owner sm plan c b k n)
    (hcarries : Carries sm m) (haway : StaysAway m sm.moveNext.symbol r) (steps depth : Nat)
    (scope : Range) (s : Int) :
    ((recordedSetting m sm r steps (depth + 2)).execBody scope sm.moveNext.body .start).Meets
      (fun d => d.At r (Balanced sm (Frame.preorderAll c.children) r s))
      fun _ d => d.At r fun w => ∃ s, Balanced sm (Frame.preorderAll c.children) r s w := by
  obtain ⟨T, invalid, start, b', hresumes⟩ := h.resumes
  have hbody : sm.moveNext.body = guarding plan.provenance plan.state.owner sm.dispose.symbol
      (guardedBody plan c invalid start b') := by
    rw [hresumes.body, moveNextBody_eq, h.disposeSymbol, guarding]
  have hexecutable := h.executable sm.moveNext List.mem_cons_self
  rw [hbody] at hexecutable
  have hinner := executable_of_guarding (by rintro ⟨⟩) hexecutable
  have H : Tracks (recordedSetting m sm r steps (depth + 2)) plan owner c (ElementOf b) r
      (Balancing sm (Frame.preorderAll c.children) r) (Frame.preorderAll c.children) :=
    h.tracks_balance hcarries haway steps (depth + 1)
  have hlabelled : Labelled (recordedSetting m sm r steps (depth + 2))
      (flattenBlock 0 (guardedBody plan c invalid start b')).labels := by
    rw [recordedSetting, hbody, Setting.ofBody_guarding]
    exact (hinner.placed _ _ _).label
  have hentries := imageBlock_entries hresumes.image 4 (labelled_guardedBody hlabelled)
  have hsize : 4 + sizeBlock b' < sizeBlock (guardedBody plan c invalid start b') := by
    simp only [guardedBody, Made.block, sizeBlock, sizeStmts, sizeStmt, Made.label, Made.callHost,
      Plan.setState, assignState, Made.assign, Plan.returnBool]
    omega
  -- Outside of every frame none is live.
  have hnone : ∀ {s s' : Int}, s ∉ Frame.liveStatesAll c.children →
      s' ∉ Frame.liveStatesAll c.children → ∀ w : World (Recorded σ),
      Balanced sm (Frame.preorderAll c.children) r s w →
        Balanced sm (Frame.preorderAll c.children) r s' (w.put r plan.state (.int s')) := by
    intro s s' hs hs' w hw
    rw [← h.state]
    exact hw.put_state fun f hf => iff_of_false
      (fun hmem => hs' (Frame.liveStates_of_preorderAll hf hmem))
      fun hmem => hs (Frame.liveStates_of_preorderAll hf hmem)
  have hrunning := (List.nodup_cons.mp h.states_nodup).1
  have htrack : ((recordedSetting m sm r steps (depth + 2)).rounds scope []
      (labelsBlock (guardedBody plan c invalid start b'))
      ((recordedSetting m sm r steps (depth + 2)).passBlock scope 0 []
        (guardedBody plan c invalid start b')) .start).Meets
      (fun d => d.At r (Balanced sm (Frame.preorderAll c.children) r s))
      ((endsOf T r (Balancing sm (Frame.preorderAll c.children) r) (fun _ => True) false invalid
        start c).Ends fun _ => False) :=
    track_guardedBody H hresumes.functional hresumes.exit hresumes.invalid hresumes.start
      hresumes.image h.user trivial (fun hstrict => absurd hstrict Bool.false_ne_true) hinner.nodup
      hlabelled (fun f hf => hf) (hnone h.created_outside hrunning)
      (hnone hrunning h.finished_outside) scope s
  rw [hbody]
  refine meets_guarding (steadfast_at _ _) H.plain (fun q hq d hd => ?_)
    (fun d hd z d' => h.eval_dispose_balances hcarries haway hd)
    (htrack.mono (fun d hd => hd) fun o d hd => ?_)
  · obtain ⟨s', hs'⟩ := hd.world
    have hnoted := H.note q (fun f hf heq => by
      have := hentries f hf
      omega) (.inState s') d ⟨hd.this, hs'⟩
    exact ⟨hnoted.this, s', hnoted.world⟩
  · have hat : ∀ {s'}, d.At r (Balanced sm (Frame.preorderAll c.children) r s') →
        d.At r fun w => ∃ s, Balanced sm (Frame.preorderAll c.children) r s w :=
      fun hd => ⟨hd.this, _, hd.world⟩
    cases o with
    | normal | suspend q v => exact hd.elim
    | jump q l =>
      rcases hd with ⟨-, s', hd⟩ | ⟨-, hd⟩ | ⟨s', -, hd⟩
      all_goals exact hat hd
    | ret q v =>
      rcases hd with ⟨-, s', -, hd⟩ | ⟨-, hd⟩
      all_goals exact hat hd
    | fail q f =>
      obtain ⟨s', hd⟩ := hd
      exact hat hd
    | stop result =>
      obtain ⟨-, s', hd⟩ := hd
      exact hat hd

/-- A recorded call that resumes leaves entries and runs balanced. -/
theorem Built.moveNext_balances (h : Built markers origin owner sm plan c b k n)
    (hcarries : Carries sm m) (haway : StaysAway m sm.moveNext.symbol r) {steps depth : Nat}
    {w w' : World (Recorded σ)} {s : Int} {res : Except Failure Value}
    (hw : Balanced sm (Frame.preorderAll c.children) r s w)
    (hcall : recordedWithin m sm.moveNext.symbol r steps (depth + 3) sm.moveNext.symbol (some r) []
      w = some (res, w')) :
    ∃ s', Balanced sm (Frame.preorderAll c.children) r s' w' := by
  have hexecutable := h.executable sm.moveNext List.mem_cons_self
  rw [recordedWithin_succ (hcarries.routine List.mem_cons_self hexecutable), if_pos rfl] at hcall
  obtain ⟨⟨z, d⟩, hrun, heq⟩ := Option.map_eq_some_iff.mp hcall
  cases heq
  obtain ⟨o, d', ho, hclose⟩ := (run_iff_execBody hexecutable .start rfl _ _).mp ⟨steps, hrun⟩
  obtain ⟨hnormal, hjump⟩ := hexecutable.execBody_ne rfl ho
  obtain ⟨z', d'', hclose', -, hworld⟩ := Setting.close_result _ _ _ hnormal hjump d'
  cases hclose.symm.trans hclose'
  have hnoted : Balanced sm (Frame.preorderAll c.children) r s
      (w.note (.called sm.moveNext.symbol)) := hw.note fun f hf => by
    refine ⟨by rintro ⟨⟩, fun heq => (h.cleanup_ne hf).1 (Event.called.inj heq).symm⟩
  have hend := h.execBody_balances hcarries haway steps depth _ s _ ⟨rfl, hnoted⟩ o d' ho
  rw [hworld]
  exact hend.world

end Machine

end Resumable.StateMachine

namespace Resumable.Session

open Resumable.Machine Resumable.Symbol Resumable.Tree Resumable.Source Resumable.Lowering
open Resumable.StateMachine

variable {σ : Type}

/-! ## Recorded calls -/

/-- Make the call, and record what is done to the instance. -/
def Call.record (m : Machine σ) (steps : Nat) (e : Enumerator) (c : Call) :
    Exec (Recorded σ) (Option Bool) := fun w =>
  (recordedWithin m e.machine.moveNext.symbol e.object steps maxDepth (c.symbol e.machine)
    (some e.object) [] w).map fun p => (c.outcome p.1, p.2)

/-- Make calls one after the other, and record what is done to the instance. -/
def Call.recordAll (m : Machine σ) (steps : Nat) (e : Enumerator) : List Call →
    World (Recorded σ) → Option (List (Except Failure (Option Bool) × World (Recorded σ)))
  | [], _ => some []
  | c :: rest, w => do
    let (result, w) ← c.record m steps e w
    let others ← Call.recordAll m steps e rest w
    return (result, w) :: others

/-- A recorded call is the call itself, with a record. -/
theorem Call.record_erase (m : Machine σ) (steps : Nat) (e : Enumerator) (c : Call) :
    Exec.Erases (c.run m steps e) (c.record m steps e) := by
  intro w
  rw [Call.run_apply, Call.record, Machine.call,
    callWithin_erase m e.machine.moveNext.symbol e.object, Option.map_map, Option.map_map]
  rfl

theorem Call.recordAll_erase (m : Machine σ) (steps : Nat) (e : Enumerator) (calls : List Call)
    (w : World (Recorded σ)) : Call.runAll m steps e calls w.erase =
      (Call.recordAll m steps e calls w).map (List.map unrecorded) := by
  induction calls generalizing w with
  | nil => rfl
  | cons c rest ih =>
    rw [Call.runAll, Call.recordAll, Call.record_erase m steps e c w]
    cases c.record m steps e w with
    | none => rfl
    | some x =>
      obtain ⟨result, v⟩ := x
      show (Call.runAll m steps e rest v.erase).bind _ = _
      rw [ih v]
      show _ = ((Call.recordAll m steps e rest v).bind _).map _
      cases Call.recordAll m steps e rest v <;> rfl

section Calls

variable {m : Machine σ} {r : Ref} {markers : Bool} {origin : MethodBody} {owner : TypeDecl}
  {sm : StateMachine} {plan : Plan} {c : Contents} {b : Block} {k n : Nat}

/-- Each call leaves entries and runs balanced. -/
theorem Call.record_balances (h : Built markers origin owner sm plan c b k n)
    (hcarries : Carries sm m) (haway : StaysAway m sm.moveNext.symbol r) {steps : Nat}
    {w w' : World (Recorded σ)} {s : Int} {call : Call} {res : Except Failure (Option Bool)}
    (hw : Balanced sm (Frame.preorderAll c.children) r s w)
    (hrun : call.record m steps ⟨sm, r⟩ w = some (res, w')) :
    ∃ s', Balanced sm (Frame.preorderAll c.children) r s' w' := by
  obtain ⟨⟨z, v⟩, hcall, heq⟩ := Option.map_eq_some_iff.mp hrun
  cases heq
  cases call with
  | moveNext =>
    have hresume : recordedWithin m sm.moveNext.symbol r steps (maxDepth - 3 + 3) sm.moveNext.symbol
      (some r) [] w = some (z, v) := hcall
    exact h.moveNext_balances hcarries haway hw hresume
  | dispose =>
    have hdispose : recordedWithin m sm.moveNext.symbol r steps (maxDepth - 2 + 2) sm.dispose.symbol
      (some r) [] w = some (z, v) := hcall
    exact ⟨_, h.dispose_balances hcarries haway hw hdispose⟩

/-- So do calls that follow each other. -/
theorem Call.recordAll_balances (h : Built markers origin owner sm plan c b k n)
    (hcarries : Carries sm m) (haway : StaysAway m sm.moveNext.symbol r) {steps : Nat} :
    ∀ {calls : List Call} {w : World (Recorded σ)} {s : Int}
      {results : List (Except Failure (Option Bool) × World (Recorded σ))},
      Balanced sm (Frame.preorderAll c.children) r s w →
      Call.recordAll m steps ⟨sm, r⟩ calls w = some results →
      ∀ v ∈ w :: results.map Prod.snd, ∃ s, Balanced sm (Frame.preorderAll c.children) r s v := by
  intro calls
  induction calls with
  | nil =>
    intro w s results hw hrun v hv
    cases hrun
    exact ⟨s, List.mem_singleton.mp hv ▸ hw⟩
  | cons call rest ih =>
    intro w s results hw hrun v hv
    rw [Call.recordAll] at hrun
    obtain ⟨⟨res, i⟩, hcall, hrun⟩ := Option.bind_eq_some_iff.mp hrun
    obtain ⟨others, hothers, heq⟩ := Option.bind_eq_some_iff.mp hrun
    cases heq
    rcases List.mem_cons.mp hv with rfl | hv
    · exact ⟨s, hw⟩
    · obtain ⟨s', hs'⟩ := Call.record_balances h hcarries haway hw hcall
      exact ih hs' hothers v hv

end Calls

/-- Each entry of a frame is settled by one call of its finally.  The instruction at `entryOf` is
the one that sets the state of a frame where control comes to it from outside, directly before the
label by which it is resumed.  If no host method comes back to the instance, then behind the start
and behind each of the calls that follow it, every frame has been entered as often as its finally
has been called, and once more if it is live in the state: no matter which calls these are, and which
of them, of the host methods and of the finallys fail.  In particular both numbers are the same once
the instance is finished.  The calls are those of the plain machine, with a record. -/
theorem entries_settled {file source : String} {program : Program}
    (hread : read file source = .ok program) {m : MethodBody} (hm : m ∈ program.methods)
    {markers : Bool} {sm : StateMachine} (hlower : lowerMethod markers m = .ok (.machine sm))
    {machine loaded : Machine σ} {args : List Value} {w₀ w : World σ} {e : Enumerator}
    (hstart : Enumerator.start machine w₀ sm args = .ok (e, loaded, w))
    (haway : StaysAway loaded sm.moveNext.symbol e.object) :
    let frames := Frame.preorderAll (framesOf markers m)
    (∃ p routine, loaded.routine sm.moveNext.symbol = .ok routine ∧ ∀ f ∈ frames,
      (flattenBlock 0 sm.moveNext.body).labels.lookup (some f.entry) = some (entryOf sm f + 1) ∧
      routine.instrs[entryOf sm f]? = some (.exec (stateAssignment p sm.state f.state))) ∧
    ∀ steps calls,
      Call.runAll loaded steps e calls w =
        (Call.recordAll loaded steps e calls w.recording).map (List.map unrecorded) ∧
      ∀ results, Call.recordAll loaded steps e calls w.recording = some results →
        ∀ v ∈ w.recording :: results.map Prod.snd, ∃ s, v.Reads e.object sm.state (.int s) ∧
          (∀ f ∈ frames, v.log.count (.reached (entryOf sm f)) =
            v.log.count (.called f.cleanup.symbol) + if s ∈ f.liveStates then 1 else 0) ∧
          (s = stateFinished → ∀ f ∈ frames, v.log.count (.reached (entryOf sm f)) =
            v.log.count (.called f.cleanup.symbol)) := by
  intro frames
  obtain ⟨plan, b, k, n, hbuilt⟩ := built_of_lowered hread hm hlower
  obtain ⟨rfl, rfl, hcreated⟩ := start_created (state_notMem_params hread hm hlower) hstart
  have hcarries := carries_load hbuilt machine
  have hexecutable := hbuilt.executable sm.moveNext List.mem_cons_self
  have hbegin : Balanced sm frames (newest w₀ sm).object stateCreated w.recording := by
    refine ⟨⟨hcreated.present, hcreated.value⟩, fun f hf => ?_⟩
    rw [if_neg fun hs => hbuilt.created_outside (Frame.liveStates_of_preorderAll hf hs)]
    rfl
  refine ⟨⟨plan.provenance, _, hcarries.routine List.mem_cons_self hexecutable, fun f hf => ?_⟩,
    fun steps calls => ⟨Call.recordAll_erase _ steps _ calls w.recording,
      fun results hrun v hv => ?_⟩⟩
  · obtain ⟨hlabel, hinstr⟩ := hbuilt.entry hf
    refine ⟨hlabel, ?_⟩
    have hless := (List.getElem?_eq_some_iff.mp hinstr).1
    rw [routineOf_instrs ⟨machine, machine.call 0, sm.moveNext.symbol⟩ .silent, bodyFragment,
      Fragment.append_instrs, List.getElem?_append_left hless, hinstr]
    rfl
  · obtain ⟨s, hs⟩ := Call.recordAll_balances hbuilt hcarries haway hbegin hrun v hv
    refine ⟨s, hs.reads, hs.count, ?_⟩
    rintro rfl f hf
    exact hs.settled hf fun hmem =>
      hbuilt.finished_outside (Frame.liveStates_of_preorderAll hf hmem)

theorem staysAway_throwing (bodies : List MethodBody) (watched : Method) (r : Ref) :
    StaysAway (Machine.load { hosts := throwing } bodies) watched r := by
  intro name host hhost args s method this args' s' hreply
  cases hhost
  cases hreply

/-- Resuming twice and disposing where every host method throws: behind the first call both frames
are entered and none is settled, and the failures of their finallys do not keep either from being
settled once. -/
theorem entries_settled_nested : ∃ program m sm e loaded w results,
    read "" nestedSource = .ok program ∧ m ∈ program.methods ∧
    lowerMethod true m = .ok (.machine sm) ∧
    Enumerator.start { hosts := throwing } { hosts := [] } sm [] = .ok (e, loaded, w) ∧
    Call.recordAll loaded 100 e [.moveNext, .moveNext, .dispose] w.recording = some results ∧
    results.map (fun x => (e.state x.2, (Frame.preorderAll (framesOf true m)).map fun f =>
      (x.2.log.count (.reached (entryOf sm f)), x.2.log.count (.called f.cleanup.symbol)))) =
        [(1, [(1, 0), (1, 0)]), (-2, [(1, 1), (1, 1)]), (-2, [(1, 1), (1, 1)])] ∧
    ∀ v ∈ w.recording :: results.map Prod.snd, ∃ s, v.Reads e.object sm.state (.int s) ∧
      (∀ f ∈ Frame.preorderAll (framesOf true m), v.log.count (.reached (entryOf sm f)) =
        v.log.count (.called f.cleanup.symbol) + if s ∈ f.liveStates then 1 else 0) ∧
      (s = stateFinished → ∀ f ∈ Frame.preorderAll (framesOf true m),
        v.log.count (.reached (entryOf sm f)) = v.log.count (.called f.cleanup.symbol)) := by
  have hfact : ((sample true nestedSource).bind fun x =>
      (Enumerator.start { hosts := throwing } { hosts := [] } x.2 []).toOption.bind fun y =>
        (Call.recordAll y.2.1 100 y.1 [.moveNext, .moveNext, .dispose] y.2.2.recording).map
          fun results => results.map fun z => (y.1.state z.2,
            (Frame.preorderAll (framesOf true x.1)).map fun f =>
              (z.2.log.count (.reached (entryOf x.2 f)),
                z.2.log.count (.called f.cleanup.symbol)))) =
      some [(1, [(1, 0), (1, 0)]), (-2, [(1, 1), (1, 1)]), (-2, [(1, 1), (1, 1)])] := by
    rw [sample, show nestedSource = .ofList _ from append_ofList rfl rfl, read_ofList]
    decide +kernel
  obtain ⟨⟨m, sm⟩, hsample, hrest⟩ := Option.bind_eq_some_iff.mp hfact
  obtain ⟨program, hread, hm, hlower⟩ := sample_eq_some hsample
  obtain ⟨⟨e, loaded, w⟩, hstart, hrest⟩ := Option.bind_eq_some_iff.mp hrest
  obtain ⟨results, hcalls, hcounts⟩ := Option.map_eq_some_iff.mp hrest
  dsimp only at hstart hcalls hcounts
  cases hresult : Enumerator.start ({ hosts := throwing } : Machine (List Value)) { hosts := [] } sm
      [] with
  | error t =>
    rw [hresult] at hstart
    cases hstart
  | ok x =>
    rw [hresult] at hstart
    cases hstart
    have hloaded := hresult
    rw [start_eq] at hloaded
    split at hloaded
    · cases hloaded
      have hsettled := entries_settled hread hm hlower hresult
        (staysAway_throwing sm.methods sm.moveNext.symbol _)
      exact ⟨program, m, sm, _, _, _, results, hread, hm, hlower, hresult, hcalls, hcounts,
        (hsettled.2 100 _).2 results hcalls⟩
    · cases hloaded

end Resumable.Session
