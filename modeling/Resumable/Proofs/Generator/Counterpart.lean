import Resumable.Proofs.Generator.Copied
import Resumable.Proofs.Generator.Reference
import Resumable.Proofs.Session.Resumption

/-!
# The machine of a generator

The lowered body of a resumable method and what the machine of the method has in the place of it
(`counterpart_of_lowered`).
-/

set_option autoImplicit false

namespace Resumable.StateMachine

open Resumable.Symbol Resumable.Tree Resumable.Source Resumable.Lowering
open Resumable.Machine hiding Region Outcome Handler

/-! ## Methods of finallys -/

section Settled

variable {markers again : Bool} {c : Block}

mutual

theorem settled_cleanups_stmt : ∀ {s : Stmt}, Settled markers again s → c ∈ cleanupsStmt s →
    SettledBlock markers again c
  | .block b, hs, hc => settled_cleanups_block (b := b) hs hc
  | .list _ ss, hs, hc => @settled_cleanups_stmts ss hs hc
  | .try _ body catches cleanup, ⟨hbody, hcatches, hcleanup, _⟩, hc => by
    have hlast : c ∈ cleanupsBlock cleanup → SettledBlock markers again c := fun hc =>
      settled_cleanups_block (hcleanup.resolve_left fun h => by
        rw [h] at hc
        cases hc) hc
    rw [cleanupsStmt] at hc
    split at hc
    · rename_i hframed
      rcases List.mem_cons.mp hc with rfl | hc
      · exact hcleanup.resolve_left (framed_iff.mp hframed).1
      · exact settled_cleanups_block hbody hc
    · rcases List.mem_append.mp hc with hc | hc
      · rcases List.mem_append.mp hc with hc | hc
        · exact settled_cleanups_block hbody hc
        · exact settled_cleanups_catches hcatches hc
      · exact hlast hc
  | .sequencePoint .., _, hc | .expression .., _, hc | .return .., _, hc | .yieldReturn .., _, hc
  | .yieldBreak .., _, hc | .throw .., _, hc | .label .., _, hc | .goto .., _, hc
  | .conditionalGoto .., _, hc | .dispatch .., _, hc => nomatch hc
  | .absent, hs, _ | .noOp .., hs, _ | .localDeclaration .., hs, _ | .if .., hs, _
  | .while .., hs, _ | .break .., hs, _ | .continue .., hs, _ | .foreign .., hs, _ => hs.elim

theorem settled_cleanups_stmts : ∀ {ss : List Stmt}, SettledAll markers again ss →
    c ∈ cleanupsStmts ss → SettledBlock markers again c
  | [], _, hc => nomatch hc
  | s :: rest, hss, hc => by
    rcases List.mem_append.mp hc with hc | hc
    · exact settled_cleanups_stmt hss.1 hc
    · exact settled_cleanups_stmts hss.2 hc

/-- If a block is as lowering leaves it, the finallys of its frames are. -/
theorem settled_cleanups_block : ∀ {b : Block}, SettledBlock markers again b → c ∈ cleanupsBlock b →
    SettledBlock markers again c
  | .absent, hb, _ => hb.elim
  | .mk _ _ ss, hb, hc => @settled_cleanups_stmts ss hb.2 hc

theorem settled_cleanups_catches : ∀ {cs : List Catch}, SettledCatches markers again cs →
    c ∈ cleanupsCatches cs → SettledBlock markers again c
  | [], _, hc => nomatch hc
  | .mk .. :: _, hcs, hc => by
    rcases List.mem_append.mp hc with hc | hc
    · exact settled_cleanups_block hcs.1 hc
    · exact settled_cleanups_catches hcs.2 hc

end

end Settled

/-- Lowering has left the methods of finallys as they were extracted. -/
theorem Built.cleanup_body {markers : Bool} {origin : MethodBody} {owner : TypeDecl}
    {sm : StateMachine} {plan : Plan} {c : Contents} {b : Block} {k n : Nat}
    (h : Built markers origin owner sm plan c b k n) {f : Frame}
    (hf : f ∈ Frame.preorderAll c.children) :
    ∃ x ∈ sm.methods, x.symbol = f.cleanup.symbol ∧ x.body = f.cleanup.body := by
  obtain ⟨x, hx, hsymbol, hwalked⟩ := h.cleanup_mem hf
  obtain ⟨cleanup, hcleanup, name, parent, heq⟩ := h.extracted f hf
  have hsettled := settled_cleanups_block (h.settled true (.inl rfl)) hcleanup
  have hbody : SettledBlock markers true f.cleanup.body := by
    rw [heq]
    cases cleanup with
    | absent => exact hsettled.elim
    | mk o ls ss => exact ⟨hsettled.1, trivial, hsettled.2⟩
  exact ⟨x, hx, hsymbol, settledBlock_walked hbody hwalked⟩

/-! ## What the machine is made of -/

/-- Where the variables of a method are in its machine. -/
def houseOf (m : MethodBody) (plan : Plan) (last : Hoisted) : House :=
  ⟨m.symbol.params, last, plan.state, plan.current⟩

/-- Jumps outside of every frame: to the labels of the body that stand there, and to its end. -/
def outermost (body : Block) (exit : Label) : Jumps := fun l k =>
  k = l ∧ (l ∈ looseBlock body ∨ l = some exit)

/-- The lowered body `w` of a method, which `made` labels are in, and the machine that is made of it:
the code `b'` stands in the place of the body, with the contents `c`. -/
structure Counterpart (m : MethodBody) (sm : StateMachine) (w : Block) (made : Nat) (plan : Plan)
    (last : Hoisted) (c : Contents) (invalid start : Label) (b' : Block) : Prop where
  ready : ReadyBlock (BoundIn m.symbol.params) w
  nodup : (labelsBlock w).Nodup
  earlier : ∀ l ∈ labelsBlock w, Earlier made l
  targets : ∀ l ∈ targetsBlock w, l ∈ labelsBlock w
  sound : (houseOf m plan last).Sound
  params : sm.params = last.params
  exit : plan.exit = .generated "exit" (made + 1 : Nat)
  body : sm.moveNext.body =
    moveNextBody plan (.dispose (machineType m.symbol)) c invalid start b'
  copies : CopiesBlock (houseOf m plan last) plan plan.exit w (outermost w plan.exit) [] stateRunning
    0 [] c b'

/-- What the conversion makes of a block outside of every frame. -/
theorem Built.emits_leaving {markers : Bool} {origin : MethodBody} {owner : TypeDecl} {sm : StateMachine}
    {plan : Plan} {c : Contents} {b : Block} {k n : Nat}
    (h : Built markers origin owner sm plan c b k n) : ∃ invalid start b',
      sm.moveNext.body = moveNextBody plan (.dispose owner) c invalid start b' ∧
      EmitsBlock plan (Leaving plan.owners) Layer.Single [] b c b' := by
  obtain ⟨invalid, start, b', scopes', i, j, hconvert, hbody⟩ := h.converts
  have hemitting : Emitting plan stateRunning c (convertBlock plan b) fun layers b' =>
      EmitsBlock plan (Leaving plan.owners) Layer.Single layers b c b' :=
    convertBlock_emits h.prepared.ready h.prepared.contents
  obtain ⟨routes, outer, hscopes, hgrown, hlinked, -, hemits⟩ :=
    hemitting {} [] [] i b' scopes' j ⟨fun r hr => (nomatch hr), trivial⟩
      (fun s hs => by
        obtain rfl := List.mem_singleton.mp hs
        exact List.nodup_nil)
      (by rw [Contents.append_nil]; exact hconvert)
  refine ⟨invalid, start, b', hbody, hemits [] ?_⟩
  subst hscopes
  cases outer with
  | nil => rfl
  | cons => exact hgrown.2.2.2.elim

variable {file source : String} {program : Program} {m : MethodBody} {markers : Bool}
  {sm : StateMachine}

/-- The variables of the method have fields, which the start gives the arguments. -/
theorem houseOf_sound {w b : Block} {last : Hoisted} (hall : HoistedAll m w b last)
    (hbound : BoundMethod m) {plan : Plan} (hstate : plan.state = stateField (machineType m.symbol))
    (hcurrent : plan.current = currentField (machineType m.symbol) m.symbol) :
    (houseOf m plan last).Sound where
  named := by
    rw [houseOf, hstate, hcurrent]
    exact hall.named
  length := by
    have hlength := congrArg List.length hall.types
    simpa [houseOf] using hlength
  ordinals := hbound.ordinals

/-- In the place of the lowered body of a method whose tries are disciplined the machine has what
stands for the generator, if no jump inside of an extracted try goes directly before it. -/
theorem counterpart_of_lowered (hread : read file source = .ok program)
    (hm : m ∈ program.methods) (hlower : lowerMethod markers m = .ok (.machine sm))
    (hrethrow : rethrowsBlock m.body = false)
    (hdisciplined : ∀ r ∈ regionsBlock [] m.body, r.Disciplined) {w : Block} {made : Nat}
    (hwalk : walkBlock markers m.body 0 = (.ok w, made)) (hrestarts : restartsBlock [] w = false) :
    ∃ plan last b n invalid start b',
      Built markers m (machineType m.symbol) sm plan (contentsOf markers m) b made n ∧
      Counterpart m sm w made plan last (contentsOf markers m) invalid start b' := by
  have hbound := bound_methods hread hm
  have hscoped := scoped_methods hread hm
  have hwalked := walkedBlock_of_ok hwalk
  obtain ⟨w', k', hwalk', hlaid, hverify⟩ := walkBody_ok hbound markers
  cases hwalk'.symm.trans hwalk
  obtain ⟨hnodup, hearlier, -⟩ := walkBody_labels hbound hlaid hverify
  obtain ⟨hverified, hlabels, htargets⟩ := verify_block_iff.mp hverify
  rw [(landingsBlock_of_verified hverified).1] at hearlier
  obtain ⟨i, hblock⟩ := hbound.bound
  have hiterator : m.symbol.isIterator = true := by
    cases hiterator : m.symbol.isIterator with
    | true => rfl
    | false =>
      rw [lowerMethod_of_walk hiterator hwalk] at hlower
      split at hlower <;> cases hlower
  have hrepresentable := (iterator_lowers_iff hread hm hiterator markers).1.mp ⟨sm, hlower⟩
  obtain ⟨plan, w', b, k', n, hwalk', hprepares, hbuilt⟩ := built_of_walked hread hm hlower
  cases hwalk.symm.trans hwalk'
  obtain ⟨first, last, a, hdeclare, hhoist, hanalyze, hplan⟩ := id hprepares
  have hall := hoistedAll_of_walked hscoped hbound hwalked hdeclare hhoist
  obtain ⟨invalid, start, b', hbody, hemits⟩ := hbuilt.emits_leaving
  obtain ⟨h, h', hmoved⟩ := hall.moved
  have hready := readyBlock_walked hblock hwalked
  obtain ⟨_, hdeclare', hhoused, -⟩ := declareMembers_ok (machineType m.symbol) hbound.ordinals
  cases hdeclare.symm.trans hdeclare'
  obtain ⟨_, _, hhoist', hhoused', -, -⟩ := hoistBlock_ok hready hhoused
  cases hhoist.symm.trans hhoist'
  obtain ⟨-, hextracted⟩ := analyzeBlock_cleanups (fun _ => soundExpr_of_machine)
    (stateField (machineType m.symbol)) hbuilt.prepared.ready _ _ _ _ _ _ hhoused'.within hanalyze
  have hframing : Framing (machineType m.symbol) plan.state stateRunning (statesAround [])
      (cleanupsBlock b) (contentsOf markers m) := by
    refine ⟨?_, hbuilt.rooted, hbuilt.contents_nodup⟩
    rw [hbuilt.planned]
    exact hextracted
  have hown : ownBlock b = ownBlock w := (movedBlock_places hmoved).own
  have hexit := hbuilt.prepared.exit
  have hunplaced : some plan.exit ∉ labelsBlock w := fun hl =>
    (hexit ▸ hearlier _ hl).not_made ((Numbered.single (by decide) (by decide)).numbered _
      List.mem_cons_self)
  have hreturn : .return ∉ exitsBlock w := by
    rw [walkedBlock_exits hwalked]
    exact ((representable_iff hbound).mp hrepresentable).1
  have hdeclared := walkedBlock_tally declarations_fair hwalked
  have hhandlers : ∀ l, (l, false) ∈ declarations.block w → last.locals.lookup l = none := by
    intro l hl
    rw [← Option.not_isSome_iff_eq_none, hall.known, mem_blockLocals]
    intro hblockLocal
    cases List.inj_on_of_nodup_map hscoped.nodup hblockLocal (hdeclared.mem_iff.mp hl) rfl
  have hguarded := (guardedBlock_walked hwalked).mpr ((representable_iff hbound).mp hrepresentable).2.1
  have hheeds : HeedsBlock (fun l => l ∈ looseBlock w ∨ l = some plan.exit) w :=
    (heeds_walked hbound hrepresentable hdisciplined hwalked).mono fun _ => .inl
  have howned : ∀ l, l ∈ looseBlock w ∨ l = some plan.exit →
      plan.owners.lookup l = some stateRunning := fun l hl => by
    rw [hbuilt.prepared.owners, hown]
    exact hl.symm.imp_right loose_ownBlock
  refine ⟨plan, last, b, n, invalid, start, b', hbuilt, hready, hlabels, hearlier,
    fun l hl => (htargets l hl).1, houseOf_sound hall hbound hbuilt.planned (by rw [hplan]),
    params_of_lowered hlower hwalk hdeclare hhoist, hexit, hbody, ?_⟩
  refine copies_block _ hmoved hbuilt.prepared.ready hemits hbuilt.prepared.contents hframing hguarded
    (walkedBlock_settled (.inr hrethrow) hwalked) hheeds hrestarts ?_
  exact {
    unreturned := hreturn
    quiet := .inl rfl
    state := fun _ => rfl
    ends := fun _ => .inr rfl
    exit := ⟨List.not_mem_nil, hunplaced⟩
    jumps := fun l _ hl k hk => ⟨hk.eq, hl⟩
    direct := fun l _ k hk => hk.eq
    apart := fun l hl s hs => by
      rw [howned l hl, ne_eq, Option.some.injEq]
      rintro rfl
      exact (List.nodup_cons.mp hbuilt.contents_nodup).1 hs
    handlers := hhandlers
    strays := fun v hv => by
      obtain ⟨l, hl, hv, -⟩ := homeless_block hall.housing v hv
      rw [hall.closed] at hl
      exact absurd hl List.not_mem_nil }

end Resumable.StateMachine
