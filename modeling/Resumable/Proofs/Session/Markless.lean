import Resumable.Proofs.Session.Kindred

/-!
# Programs without markers

A program does the same with markers and without them (`calls_ignore_markers`,
`runs_ignore_markers`), if they do not matter to it (`IndifferentToMarkers`).  They do matter to a
method that jumps from inside a try to a label before it (`runs_differ_backwards`): without markers
the label has the position of the try, and the jump does not leave the try.
-/

set_option autoImplicit false

/-! ## What is lowered without throws of what is held -/

namespace Resumable.StateMachine

open Resumable.Symbol Resumable.Tree Resumable.Lowering

mutual

/-- Nothing is thrown again when a machine is disposed of. -/
theorem rethrows_disposeFrame (plan : Plan) : ∀ f : Frame,
    rethrowsStmt (disposeFrame plan f) = false
  | .mk state entry cleanup suspensions [] => by
    simp [disposeFrame, rethrowsStmt, rethrowsBlock, rethrowsStmts, Made.block, callCleanup,
      Made.callThis]
  | .mk state entry cleanup suspensions (c :: cs) => by
    simp [disposeFrame, rethrowsStmt, rethrowsBlock, rethrowsStmts, rethrowsCatches, Made.block,
      callCleanup, Made.callThis, rethrows_disposeFrame plan c, rethrows_disposeFrames plan cs]

theorem rethrows_disposeFrames (plan : Plan) : ∀ fs : List Frame,
    rethrowsStmts (disposeFrames plan fs) = false
  | [] => rfl
  | f :: rest => by
    rw [disposeFrames, rethrowsStmts, rethrows_disposeFrame plan f, rethrows_disposeFrames plan rest]
    rfl

end

theorem rethrows_disposeBody (plan : Plan) (fs : List Frame) :
    rethrowsBlock (disposeBody plan fs) = false := by
  simp [disposeBody, Made.block, rethrowsBlock, rethrowsStmts, rethrowsStmt, rethrowsCatches,
    rethrows_disposeFrames, Plan.setState, assignState, Made.assign]

mutual

/-- If nothing is thrown again in a statement, nothing is in the finallys of its frames. -/
theorem rethrows_cleanups_stmt {c : Block} : ∀ {s : Stmt}, rethrowsStmt s = false →
    c ∈ cleanupsStmt s → rethrowsBlock c = false
  | .block b, hs, hc => rethrows_cleanups_block (b := b) hs hc
  | .list _ ss, hs, hc => @rethrows_cleanups_stmts c ss hs hc
  | .if _ _ t f, hs, hc => by
    simp only [rethrowsStmt, Bool.or_eq_false_iff] at hs
    rcases List.mem_append.mp hc with hc | hc
    · exact rethrows_cleanups_stmt hs.1 hc
    · exact rethrows_cleanups_stmt hs.2 hc
  | .while _ _ body _ _, hs, hc => rethrows_cleanups_stmt (s := body) hs hc
  | .try _ body catches cleanup, hs, hc => by
    simp only [rethrowsStmt, Bool.or_eq_false_iff] at hs
    obtain ⟨⟨hbody, hcatches⟩, hcleanup⟩ := hs
    rw [cleanupsStmt] at hc
    split at hc
    · rcases List.mem_cons.mp hc with rfl | hc
      · exact hcleanup
      · exact rethrows_cleanups_block hbody hc
    · rcases List.mem_append.mp hc with hc | hc
      · rcases List.mem_append.mp hc with hc | hc
        · exact rethrows_cleanups_block hbody hc
        · exact rethrows_cleanups_catches hcatches hc
      · exact rethrows_cleanups_block hcleanup hc
  | .absent, _, hc | .sequencePoint .., _, hc | .noOp .., _, hc | .localDeclaration .., _, hc
  | .expression .., _, hc | .return .., _, hc | .yieldReturn .., _, hc | .yieldBreak .., _, hc
  | .throw .., _, hc | .break .., _, hc | .continue .., _, hc | .label .., _, hc | .goto .., _, hc
  | .conditionalGoto .., _, hc | .dispatch .., _, hc | .foreign .., _, hc => nomatch hc

theorem rethrows_cleanups_stmts {c : Block} : ∀ {ss : List Stmt}, rethrowsStmts ss = false →
    c ∈ cleanupsStmts ss → rethrowsBlock c = false
  | [], _, hc => nomatch hc
  | s :: rest, hss, hc => by
    simp only [rethrowsStmts, Bool.or_eq_false_iff] at hss
    rcases List.mem_append.mp hc with hc | hc
    · exact rethrows_cleanups_stmt hss.1 hc
    · exact rethrows_cleanups_stmts hss.2 hc

theorem rethrows_cleanups_block {c : Block} : ∀ {b : Block}, rethrowsBlock b = false →
    c ∈ cleanupsBlock b → rethrowsBlock c = false
  | .absent, _, hc => nomatch hc
  | .mk _ _ ss, hb, hc => @rethrows_cleanups_stmts c ss hb hc

theorem rethrows_cleanups_catches {c : Block} : ∀ {cs : List Catch}, rethrowsCatches cs = false →
    c ∈ cleanupsCatches cs → rethrowsBlock c = false
  | [], _, hc => nomatch hc
  | .mk _ _ body :: rest, hcs, hc => by
    simp only [rethrowsCatches, Bool.or_eq_false_iff] at hcs
    rcases List.mem_append.mp hc with hc | hc
    · exact rethrows_cleanups_block hcs.1 hc
    · exact rethrows_cleanups_catches hcs.2 hc

end

/-- The method of a finally throws nothing again if the finally does not. -/
theorem rethrows_extracted {owner : TypeDecl} {field : Field} {cleanup : Block} {f : Frame}
    (hf : Extracted owner field cleanup f) (hcleanup : rethrowsBlock cleanup = false) :
    rethrowsBlock f.cleanup.body = false := by
  obtain ⟨name, parent, hmethod⟩ := hf
  rw [hmethod]
  cases cleanup with
  | absent => rfl
  | mk o locals ss => exact hcleanup

end Resumable.StateMachine

namespace Resumable.Session

open Resumable.Machine Resumable.Symbol Resumable.Tree Resumable.Source Resumable.Lowering
open Resumable.StateMachine

section Lowered

variable {file source : String} {program : Program} (hread : read file source = .ok program)
  {m : MethodBody} (hm : m ∈ program.methods) {markers : Bool} {l : Lowered}
  (hlower : lowerMethod markers m = .ok l)

include hread hm hlower

/-- What has been lowered can be executed. -/
theorem executable_of_lowered : ∀ x ∈ l.bodies, Executable x.body := by
  cases l with
  | plain y =>
    intro x hx
    obtain rfl := List.mem_singleton.mp hx
    obtain ⟨-, hwalked, hverify⟩ := walked_of_plain hread hm hlower
    exact executable_of_walked hwalked hverify
  | machine sm =>
    obtain ⟨plan, b, k, n, hbuilt⟩ := built_of_lowered hread hm hlower
    exact hbuilt.executable

/-- If a method throws nothing again, what it has been lowered to does not either, but for the handler
that disposes of a machine. -/
theorem inert_of_lowered (hrethrow : rethrowsBlock m.body = false)
    (hunmarkable : ∀ x ∈ l.bodies, unmarkableBlock [] [] x.body = true) :
    ∀ x ∈ l.bodies, Inert x.body := by
  intro x hx
  have hx' := hunmarkable x hx
  have hbare : ∀ {before : Block}, rethrowsBlock before = false →
      WalkedBlock markers before x.body → Inert x.body := fun hbefore hwalked =>
    .bare (settledBlock_rethrows (walkedBlock_settled (.inr hbefore) hwalked)) hx'
  cases l with
  | plain y =>
    obtain rfl := List.mem_singleton.mp hx
    exact hbare hrethrow (walked_of_plain hread hm hlower).2.1
  | machine sm =>
    obtain ⟨plan, b, k, n, hbuilt⟩ := built_of_lowered hread hm hlower
    rcases List.mem_cons.mp hx with rfl | hx
    · obtain ⟨inner, hbody, hpresent, hagain, -⟩ := @Built.moveNext_guarding Unit _ _ _ _ _ _ _ _ _ hbuilt
      rw [hbody] at hx' ⊢
      refine .guarding _ _ (by rw [hbuilt.disposeSymbol]; rfl) hpresent (hagain hrethrow) ?_
      simp only [guarding, Made.block, unmarkableBlock, unmarkableStmts, unmarkableStmt,
        Bool.and_eq_true] at hx'
      exact hx'.1.1.1.2
    · rcases List.mem_cons.mp hx with rfl | hx
      · exact hbare (rethrows_disposeBody plan _) hbuilt.dispose
      · obtain ⟨f, hf, -, hwalked⟩ := hbuilt.frame_of_cleanup hx
        obtain ⟨cleanup, hcleanup, hextracted⟩ := hbuilt.extracted f hf
        have hsettled := settledBlock_rethrows (hbuilt.settled false (.inr hrethrow))
        exact hbare (rethrows_extracted hextracted (rethrows_cleanups_block hsettled hcleanup)) hwalked

end Lowered

/-- Lists that a function maps to the same are related one by one. -/
theorem forall₂_of_map_eq {α β : Type} {f : α → β} {R : α → α → Prop} : ∀ {xs ys : List α},
    xs.map f = ys.map f → (∀ x ∈ xs, ∀ y ∈ ys, f x = f y → R x y) → List.Forall₂ R xs ys
  | [], [], _, _ => .nil
  | [], _ :: _, h, _ | _ :: _, [], h, _ => nomatch h
  | x :: xs, y :: ys, h, hR => by
    obtain ⟨hfirst, hrest⟩ := List.cons.inj h
    exact .cons (hR x List.mem_cons_self y List.mem_cons_self hfirst)
      (forall₂_of_map_eq hrest fun a ha b hb =>
        hR a (List.mem_cons_of_mem x ha) b (List.mem_cons_of_mem y hb))

/-! ## Programs -/

/-- Markers do not matter to the program: all of its methods can be lowered with markers, none of them
throws anything again, no jump leaves a finally, and no jump goes from inside a try to a label that
only markers separate from the try. -/
structure IndifferentToMarkers (program : Program) : Prop where
  lowered : ∀ m ∈ program.methods, ∃ l, lowerMethod true m = .ok l
  rethrows : ∀ m ∈ program.methods, rethrowsBlock m.body = false
  unmarkable : ∀ markers, ∀ x ∈ (LoweredProgram.ofMethods markers false program.methods).bodies,
    unmarkableBlock [] [] x.body = true

instance (program : Program) : Decidable (IndifferentToMarkers program) :=
  decidable_of_iff ((∀ m ∈ program.methods, (lowerMethod true m).toOption.isSome = true) ∧
      (∀ m ∈ program.methods, rethrowsBlock m.body = false) ∧
      ∀ markers, ∀ x ∈ (LoweredProgram.ofMethods markers false program.methods).bodies,
        unmarkableBlock [] [] x.body = true) <| by
    have hlowered : ∀ m, (lowerMethod true m).toOption.isSome = true ↔
        ∃ l, lowerMethod true m = .ok l := by
      intro m
      cases lowerMethod true m <;> simp [Except.toOption]
    simp only [hlowered]
    exact ⟨fun ⟨h, h', h''⟩ => ⟨h, h', h''⟩, fun ⟨h, h', h''⟩ => ⟨h, h', h''⟩⟩

/-- What a method is lowered to is among the bodies of the program. -/
theorem mem_bodies {program : Program} {m : MethodBody} (hm : m ∈ program.methods) {markers : Bool}
    {l : Lowered} (hlower : lowerMethod markers m = .ok l) {x : MethodBody} (hx : x ∈ l.bodies) :
    x ∈ (LoweredProgram.ofMethods markers false program.methods).bodies :=
  List.mem_flatMap.mpr ⟨some l, mem_results.mpr ⟨m, hm, hlower⟩, hx⟩

/-- The method is lowered to counterparts with markers and without. -/
theorem IndifferentToMarkers.counterparts {file source : String} {program : Program}
    (hread : read file source = .ok program) (h : IndifferentToMarkers program) {m : MethodBody}
    (hm : m ∈ program.methods) : ∃ debug release, lowerMethod true m = .ok debug ∧
      lowerMethod false m = .ok release ∧ Counterparts debug release := by
  obtain ⟨debug, hdebug⟩ := h.lowered m hm
  obtain ⟨release, hrelease, hunmark, -⟩ := release_is_debug_unmarked hdebug
  have hinert := inert_of_lowered hread hm hdebug (h.rethrows m hm) fun x hx =>
    h.unmarkable true x (mem_bodies hm hdebug hx)
  have hinert' := inert_of_lowered hread hm hrelease (h.rethrows m hm) fun x hx =>
    h.unmarkable false x (mem_bodies hm hrelease hx)
  have hbodies : debug.bodies.map MethodBody.unmark = release.bodies.map MethodBody.unmark := by
    rw [← bodies_unmark, ← bodies_unmark, hunmark]
  refine ⟨debug, release, hdebug, hrelease, hunmark.symm, forall₂_of_map_eq hbodies ?_⟩
  intro x hx y hy hxy
  obtain ⟨hsymbol, hbody⟩ := MethodBody.mk.inj hxy
  exact ⟨hsymbol, executable_of_lowered hread hm hdebug x hx,
    executable_of_lowered hread hm hrelease y hy, hinert x hx, hinert' y hy, hbody⟩

/-- Two lowered programs of which the only difference are markers that do not matter. -/
structure Correspond (p p' : LoweredProgram) : Prop where
  bodies : List.Forall₂ SameButMarkers p.bodies p'.bodies
  result : ∀ name, Option.Rel Counterparts (p.result? name) (p'.result? name)

theorem Correspond.symm {p p' : LoweredProgram} (h : Correspond p p') : Correspond p' p where
  bodies := (h.bodies.imp fun _ _ => SameButMarkers.symm).flip
  result name := by
    have hresult := h.result name
    revert hresult
    generalize p.result? name = r
    generalize p'.result? name = r'
    rintro (h | _)
    · exact .some h.symm
    · exact .none

/-- The program lowered with markers and without them. -/
theorem IndifferentToMarkers.correspond {file source : String} {program : Program}
    (hread : read file source = .ok program) (h : IndifferentToMarkers program) :
    Correspond (LoweredProgram.ofMethods true false program.methods)
      (LoweredProgram.ofMethods false false program.methods) := by
  have hmethod : ∀ m ∈ program.methods,
      Option.Rel Counterparts (outcomeOf true m).result? (outcomeOf false m).result? := by
    intro m hm
    obtain ⟨debug, release, hdebug, hrelease, hsame⟩ := h.counterparts hread hm
    rw [outcomeOf, outcomeOf, hdebug, hrelease]
    exact .some hsame
  constructor
  · have hresults : List.Forall₂ (Option.Rel Counterparts)
        (LoweredProgram.ofMethods true false program.methods).results
        (LoweredProgram.ofMethods false false program.methods).results := by
      simp only [LoweredProgram.results, LoweredProgram.ofMethods, List.map_map,
        List.forall₂_map_left_iff, List.forall₂_map_right_iff]
      exact List.forall₂_same.mpr hmethod
    refine List.rel_flatMap hresults fun r r' hr => ?_
    cases hr with
    | some h => exact h.bodies
    | none => exact .nil
  · intro name
    have hfind : ∀ markers, (LoweredProgram.ofMethods markers false program.methods).result? name =
        (program.methods.find? fun m => m.symbol.name == name).bind
          fun m => (outcomeOf markers m).result? := by
      intro markers
      simp only [LoweredProgram.result?, LoweredProgram.ofMethods, List.find?_map, Option.bind_map]
      rfl
    rw [hfind, hfind]
    cases hm : program.methods.find? fun m => m.symbol.name == name with
    | none => exact .none
    | some m => exact hmethod m (List.mem_of_find?_eq_some hm)

/-- A run of a method of the one program goes as it does in the other. -/
theorem Correspond.runMethod {σ : Type} {p p' : LoweredProgram} (h : Correspond p p')
    {hosts : List Method} {name : String} {o : RunOptions} {overrides : Hosts σ} {initial : σ}
    {steps : Nat} {x : Option (Trace × σ)}
    (hrun : runMethod p hosts name o overrides initial steps = some x) :
    ∃ steps, runMethod p' hosts name o overrides initial steps = some x := by
  unfold Session.runMethod at hrun ⊢
  have hresult := h.result name
  generalize p.result? name = r at hresult hrun
  generalize p'.result? name = r' at hresult
  cases hresult with
  | none => exact ⟨0, hrun⟩
  | some hl =>
    obtain ⟨⟨observation, w⟩, hobserve, heq⟩ := Option.bind_eq_some_iff.mp hrun
    obtain ⟨n, hn⟩ := observe_attains ((Kindred.blank _).load h.bodies) hl steps o _ _ hobserve
    exact ⟨n, Option.bind_eq_some_iff.mpr ⟨(observation, w), hn n (Nat.le_refl n), heq⟩⟩

/-- A program that is indifferent to markers does the same with markers and without them.  Every call
of a method, and every row of calls of an instance of a state machine, ends on a machine with the one
if and only if it does on a machine with the other, with the same results and the same worlds, which
are the objects and what the host methods keep of their calls. -/
theorem calls_ignore_markers {file source : String} {program : Program}
    (hread : read file source = .ok program) (h : IndifferentToMarkers program) {σ : Type}
    (hosts : Hosts σ) :
    let machine := fun markers => Machine.load { hosts }
      (LoweredProgram.ofMethods markers false program.methods).bodies
    (∀ (method : Method) (this : Option Ref) (args : List Value) (w : World σ)
      (z : Except Failure Value × World σ),
      (∃ steps, (machine true).call steps method this args w = some z) ↔
        ∃ steps, (machine false).call steps method this args w = some z) ∧
    ∀ m ∈ program.methods, ∀ sm, lowerMethod true m = .ok (.machine sm) →
      ∃ sm', lowerMethod false m = .ok (.machine sm') ∧ sm.unmark = sm'.unmark ∧
        ∀ (r : Ref) (calls : List Call) (w : World σ)
          (results : List (Except Failure (Option Bool) × World σ)),
          (∃ steps, Call.runAll (machine true) steps ⟨sm, r⟩ calls w = some results) ↔
            ∃ steps, Call.runAll (machine false) steps ⟨sm', r⟩ calls w = some results := by
  intro machine
  have hkindred : Kindred (machine true) (machine false) :=
    (Kindred.blank hosts).load (h.correspond hread).bodies
  refine ⟨fun method this args w z => ⟨?_, ?_⟩, fun m hm sm hdebug => ?_⟩
  · rintro ⟨steps, hz⟩
    obtain ⟨n, hn⟩ := hkindred.call_attained steps method this args w z hz
    exact ⟨n, hn n (Nat.le_refl n)⟩
  · rintro ⟨steps, hz⟩
    obtain ⟨n, hn⟩ := hkindred.symm.call_attained steps method this args w z hz
    exact ⟨n, hn n (Nat.le_refl n)⟩
  · obtain ⟨release, hrelease, hunmark, -⟩ := release_is_debug_unmarked hdebug
    cases release with
    | plain x => cases hunmark
    | machine sm' =>
      have hsm := Lowered.machine.inj hunmark.symm
      refine ⟨sm', hrelease, hsm, fun r calls w results => ⟨?_, ?_⟩⟩
      · rintro ⟨steps, hrun⟩
        obtain ⟨n, hn⟩ := Call.runAll_attains hkindred hsm r steps calls hrun
        exact ⟨n, hn n (Nat.le_refl n)⟩
      · rintro ⟨steps, hrun⟩
        obtain ⟨n, hn⟩ := Call.runAll_attains hkindred.symm hsm.symm r steps calls hrun
        exact ⟨n, hn n (Nat.le_refl n)⟩

/-- What a run of a method shows does not depend on markers either: its elements or its value, its
failure, the state that it ends in, and the calls of host methods with their arguments. -/
theorem runs_ignore_markers {file source : String} {program : Program}
    (hread : read file source = .ok program) (h : IndifferentToMarkers program) {σ : Type}
    (hosts : List Method) (name : String) (o : RunOptions) (overrides : Hosts σ) (initial : σ)
    (x : Option (Trace × σ)) :
    (∃ steps, runMethod (LoweredProgram.ofMethods true false program.methods) hosts name o overrides
        initial steps = some x) ↔
      ∃ steps, runMethod (LoweredProgram.ofMethods false false program.methods) hosts name o
        overrides initial steps = some x :=
  ⟨fun ⟨_, hrun⟩ => (h.correspond hread).runMethod hrun,
    fun ⟨_, hrun⟩ => (h.correspond hread).symm.runMethod hrun⟩

/-- An iterator with a jump out of two tries, and a method with a loop around a try. -/
def indifferentSource : String :=
  "class C \x7b extern void F(int n); iterator int M(int n) \x7b var i int = 0; again: try \x7b " ++
    "while (i < n) \x7b try \x7b i = i + 1; if (i == 2) goto again; yield return i; \x7d finally \x7b " ++
    "F(i); \x7d \x7d \x7d finally \x7b F(n); \x7d \x7d int N(int n) \x7b while (n > 0) \x7b try \x7b " ++
    "if (n == 2) break; n = n - 1; \x7d finally \x7b F(n); \x7d \x7d return n; \x7d \x7d"

theorem runs_ignore_markers_nested : ∃ program, read "" indifferentSource = .ok program ∧
    IndifferentToMarkers program ∧ ∃ x : Trace × Unit,
      (x.1.observation.items.length, x.1.hostCalls.length) = (2, 5) ∧
      ∃ steps, runMethod (LoweredProgram.ofMethods false false program.methods) program.hosts "M"
        { args := [.int 3] } (fun _ => none) () steps = some (some x) := by
  have hfact : ((read "" indifferentSource).toOption.bind fun p =>
      (runMethod (LoweredProgram.ofMethods true false p.methods) p.hosts "M" { args := [.int 3] }
        (fun _ => none) () 100).bind fun x => x.map fun x =>
          (decide (IndifferentToMarkers p), x.1.observation.items.length, x.1.hostCalls.length)) =
      some (true, 2, 5) := by
    rw [show indifferentSource = .ofList _ from
      append_ofList (append_ofList (append_ofList rfl rfl) rfl) rfl, read_ofList]
    decide +kernel
  obtain ⟨program, hprogram, hfact⟩ := Option.bind_eq_some_iff.mp hfact
  obtain ⟨x, hrun, hfact⟩ := Option.bind_eq_some_iff.mp hfact
  obtain ⟨x, rfl, heq⟩ := Option.map_eq_some_iff.mp hfact
  obtain ⟨hindifferent, hcounts⟩ := Prod.mk.inj heq
  have hread := read_of_toOption hprogram
  have h := of_decide_eq_true hindifferent
  exact ⟨program, hread, h, x, hcounts,
    (runs_ignore_markers hread h _ _ _ _ _ _).mp ⟨100, hrun⟩⟩

/-- A method that jumps from inside a try to a label before it. -/
def backSource : String :=
  "class C \x7b extern void F(); void M() \x7b var i int = 0; L: \x7b try \x7b i = i + 1; " ++
    "if (i < 3) goto L; \x7d finally \x7b F(); \x7d \x7d \x7d \x7d"

/-- The method is not indifferent to markers: with them, each jump runs the finally, and without them
none does. -/
theorem runs_differ_backwards : ∃ program, read "" backSource = .ok program ∧
    ¬ IndifferentToMarkers program ∧ ∀ markers, ∃ x : Trace × Unit,
      runMethod (LoweredProgram.ofMethods markers false program.methods) program.hosts "M" {}
        (fun _ => none) () 100 = some (some x) ∧
      x.1.hostCalls.length = if markers then 3 else 1 := by
  have hfact : ((read "" backSource).toOption.map fun p => (decide (IndifferentToMarkers p),
      [true, false].map fun markers =>
        (runMethod (LoweredProgram.ofMethods markers false p.methods) p.hosts "M" {}
          (fun _ => none) () 100).map (Option.map fun x => x.1.hostCalls.length))) =
      some (false, [some (some 3), some (some 1)]) := by
    rw [show backSource = .ofList _ from append_ofList rfl rfl, read_ofList]
    decide +kernel
  obtain ⟨program, hprogram, heq⟩ := Option.map_eq_some_iff.mp hfact
  obtain ⟨hdiffers, hruns⟩ := Prod.mk.inj heq
  have hcount : ∀ {markers : Bool} {n : Nat},
      (runMethod (LoweredProgram.ofMethods markers false program.methods) program.hosts "M" {}
        (fun _ => none) () 100).map (Option.map fun x => x.1.hostCalls.length) = some (some n) →
      ∃ x : Trace × Unit,
        runMethod (LoweredProgram.ofMethods markers false program.methods) program.hosts "M" {}
          (fun _ => none) () 100 = some (some x) ∧ x.1.hostCalls.length = n := by
    intro markers n h
    obtain ⟨_, hrun, hx⟩ := Option.map_eq_some_iff.mp h
    obtain ⟨x, rfl, hcalls⟩ := Option.map_eq_some_iff.mp hx
    exact ⟨x, hrun, hcalls⟩
  obtain ⟨hdebug, hrest⟩ := List.cons.inj hruns
  refine ⟨program, read_of_toOption hprogram, of_decide_eq_false hdiffers, fun markers => ?_⟩
  cases markers with
  | true => exact hcount hdebug
  | false => exact hcount (List.cons.inj hrest).1

end Resumable.Session
