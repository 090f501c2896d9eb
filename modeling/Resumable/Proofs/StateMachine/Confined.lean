import Resumable.Proofs.StateMachine.Acceptance
import Resumable.Proofs.StateMachine.Mirror

/-!
# The code of a state machine

A state machine consists of code of its own: its methods belong to its type, and so do the fields
that they touch and the methods that they call on the instance (`confined_of_lowered`).  Lowering
the methods keeps this, and so does flattening them.
-/

set_option autoImplicit false

namespace Resumable.StateMachine

open Resumable.Symbol Resumable.Tree Resumable.Source Resumable.Lowering

variable {P : Expr → Prop}

/-! ## Lowering -/

/-- A try with handlers or a finally is split into tries that have one of them. -/
theorem formed_splitTry {body cleanup : Block} {catches : List Catch} (o : Origin)
    (hbody : FormedBlock P body) (hcatches : FormedCatches P catches)
    (hcleanup : cleanup = .absent ∨ FormedBlock P cleanup)
    (hform : catches ≠ [] ∨ cleanup ≠ .absent) : Formed P (splitTry o body catches cleanup) := by
  unfold splitTry
  split
  · rename_i hboth
    have hpresent : cleanup ≠ .absent := by
      rintro rfl
      simp [Block.isAbsent] at hboth
    have hcaught : catches ≠ [] := by
      rintro rfl
      simp at hboth
    exact ⟨⟨.inl rfl, ⟨hbody, hcatches, .inl rfl, .inl hcaught⟩, trivial⟩, trivial, hcleanup,
      .inr hpresent⟩
  · exact ⟨hbody, hcatches, hcleanup, hform⟩

mutual

theorem formed_walked {markers : Bool} : ∀ {s : Stmt} {s' : Option Stmt}, Formed P s →
    WalkedStmt markers s s' → FormedAll P s'.toList
  | .block b, _, h, ⟨_, hb, rfl⟩ => ⟨formedBlock_walked (b := b) h hb, trivial⟩
  | .list _ ss, _, h, ⟨_, hss, rfl⟩ => ⟨@formedAll_walked markers ss _ h hss, trivial⟩
  | .sequencePoint .., _, _, rfl | .yieldBreak _, _, _, rfl | .label .., _, _, rfl
  | .goto .., _, _, rfl => ⟨trivial, trivial⟩
  | .expression .., _, h, ⟨_, rfl⟩ | .yieldReturn .., _, h, ⟨_, rfl⟩
  | .conditionalGoto .., _, h, ⟨_, rfl⟩ | .dispatch .., _, h, ⟨_, rfl⟩
  | .return .., _, h, ⟨_, rfl⟩ | .throw .., _, h, ⟨_, rfl⟩ => ⟨h, trivial⟩
  | .if .., _, ⟨hc, ht, _⟩, ⟨_, _, _, hwalk, .inl ⟨_, rfl⟩⟩ => by
    simpa [FormedAll, formedAll_append, Formed, branch, Made.gotoUnless, Made.label, hc] using
      formed_walked ht hwalk
  | .if .., _, ⟨hc, ht, hf⟩, ⟨_, _, _, hwalk, .inr ⟨_, _, hwalk', rfl⟩⟩ => by
    have hleft := formed_walked ht hwalk
    rcases hf with rfl | hf
    · exact hwalk'.elim
    · simpa [FormedAll, formedAll_append, Formed, branches, Made.gotoUnless, Made.label, Made.goto,
        hc, hleft] using formed_walked hf hwalk'
  | .try o .., _, ⟨hbody, hcatches, hcleanup, hform⟩, ⟨_, _, _, hwalk, hwalk', hwalk'', rfl⟩ => by
    refine ⟨formed_splitTry o (formedBlock_walked hbody hwalk)
      (formedCatches_walked hcatches hwalk') ?_ ?_, trivial⟩
    · rcases hwalk'' with ⟨-, rfl⟩ | hwalk''
      · exact .inl rfl
      · rcases hcleanup with rfl | hcleanup
        · exact hwalk''.elim
        · exact .inr (formedBlock_walked hcleanup hwalk'')
    · refine hform.imp (fun hne => mt (walkedCatches_empty hwalk').mp hne) fun hne => ?_
      rcases hwalk'' with ⟨h, -⟩ | hwalk''
      · exact absurd h hne
      · exact hwalk''.present
  | .absent, _, h, _ | .noOp .., _, h, _ | .localDeclaration .., _, h, _ | .while .., _, h, _
  | .break .., _, h, _ | .continue .., _, h, _ | .foreign .., _, h, _ => h.elim

theorem formedAll_walked {markers : Bool} : ∀ {ss ss' : List Stmt}, FormedAll P ss →
    WalkedStmts markers ss ss' → FormedAll P ss'
  | [], _, _, rfl => trivial
  | _ :: _, _, ⟨hs, hrest⟩, ⟨_, _, hwalk, hwalk', rfl⟩ => by
    rw [formedAll_append]
    exact ⟨formed_walked hs hwalk, formedAll_walked hrest hwalk'⟩

theorem formedBlock_walked {markers : Bool} : ∀ {b b' : Block}, FormedBlock P b →
    WalkedBlock markers b b' → FormedBlock P b'
  | .absent, _, h, _ => h.elim
  | .mk .., _, ⟨hbraces, hss⟩, ⟨_, hwalk, .inl ⟨_, rfl⟩⟩ => ⟨hbraces, formedAll_walked hss hwalk⟩
  | .mk .., _, ⟨_, hss⟩, ⟨_, hwalk, .inr ⟨_, _, _, _, rfl⟩⟩ => by
    refine ⟨.inl rfl, ?_⟩
    have hformed := formedAll_walked hss hwalk
    unfold markBlock
    split <;> simpa [FormedAll, formedAll_append, Formed, Made.sequencePoint] using hformed

theorem formedCatches_walked {markers : Bool} : ∀ {cs cs' : List Catch}, FormedCatches P cs →
    WalkedCatches markers cs cs' → FormedCatches P cs'
  | [], _, _, rfl => trivial
  | .mk .. :: _, _, ⟨hbody, hrest⟩, ⟨_, _, hwalk, hwalk', rfl⟩ =>
    ⟨formedBlock_walked hbody hwalk, formedCatches_walked hrest hwalk'⟩

end

end Resumable.StateMachine

namespace Resumable.Machine

open Resumable.Symbol Resumable.Tree Resumable.StateMachine

variable {P : Expr → Prop}

/-! ## Flattening -/

/-- The expressions of every instruction of the fragment have the property. -/
def Fragment.Holds (P : Expr → Prop) (p : Fragment) : Prop := ∀ i ∈ p.instrs, i.Holds P

theorem Fragment.Holds.one {i : Instr Target} (h : i.Holds P) : Holds P (.one i) := by
  intro j hj
  rw [List.mem_singleton.mp hj]
  exact h

theorem Fragment.Holds.append {a b : Fragment} (ha : Holds P a) (hb : Holds P b) :
    Holds P (a ++ b) := fun i hi => (List.mem_append.mp hi).elim (ha i) (hb i)

theorem Fragment.Holds.empty (labels : List (Option Label × Nat)) (regions : List Machine.Region) :
    Holds P ⟨[], labels, regions⟩ := fun _ hi => nomatch hi

mutual

theorem holds_flattenStmt : ∀ {s : Stmt} (pc : Nat), Formed P s →
    Fragment.Holds P (flattenStmt pc s)
  | .block b, pc, h => holds_flattenBlock (b := b) pc h
  | .list _ ss, pc, h => @holds_flattenStmts ss pc h
  | .sequencePoint .., _, _ | .goto .., _, _ | .yieldBreak _, _, _ | .yieldReturn .., _, _
  | .if .., _, _ => .one trivial
  | .label .., _, _ => .empty _ _
  | .expression .., _, h | .return .., _, h | .conditionalGoto .., _, h | .dispatch .., _, h =>
    .one h
  | .throw _ e, _, h => by
    refine .one ?_
    rcases h with rfl | h
    · trivial
    · cases e with
      | absent => trivial
      | _ => exact h
  | .try _ body catches cleanup, pc, ⟨hbody, hcatches, hcleanup, _⟩ => by
    have hlast : ∀ pc, Fragment.Holds P (flattenCleanup pc cleanup) := by
      intro pc
      rcases hcleanup with rfl | hcleanup
      · exact .empty [] []
      · exact holds_flattenCleanup pc hcleanup
    rw [flattenStmt]
    refine .append (.append (.append (.append ?_ (holds_flattenBlock pc hbody)) (.one ?_))
      (holds_flattenCatches _ _ hcatches)) (hlast _)
    · exact .empty [] _
    · trivial
  | .absent, _, h | .noOp .., _, h | .localDeclaration .., _, h | .while .., _, h
  | .break .., _, h | .continue .., _, h | .foreign .., _, h => h.elim

theorem holds_flattenStmts : ∀ {ss : List Stmt} (pc : Nat), FormedAll P ss →
    Fragment.Holds P (flattenStmts pc ss)
  | [], _, _ => .empty _ _
  | _ :: _, pc, h => (holds_flattenStmt pc h.1).append (holds_flattenStmts _ h.2)

theorem holds_flattenBlock : ∀ {b : Block} (pc : Nat), FormedBlock P b →
    Fragment.Holds P (flattenBlock pc b)
  | .absent, _, h => h.elim
  | .mk _ _ ss, pc, h => @holds_flattenStmts ss pc h.2

theorem holds_flattenCleanup : ∀ {b : Block} (pc : Nat), FormedBlock P b →
    Fragment.Holds P (flattenCleanup pc b)
  | .absent, _, h => h.elim
  | .mk _ _ ss, pc, h => (@holds_flattenStmts ss pc h.2).append (.one trivial)

theorem holds_flattenCatches : ∀ {cs : List Catch} (pc behind : Nat), FormedCatches P cs →
    Fragment.Holds P (flattenCatches pc behind cs)
  | [], _, _, _ => .empty _ _
  | .mk _ _ body :: rest, pc, behind, h => by
    rw [flattenCatches]
    refine .append (.append (.append (.append (.one ?_) (holds_flattenBlock _ h.1)) (.one ?_))
      (.one ?_)) (holds_flattenCatches _ _ h.2)
    all_goals trivial

end

/-- The routine of a method has the expressions of its body. -/
theorem holds_flatten {m : MethodBody} (h : FormedBlock P m.body) {r : Routine}
    (hflatten : flatten m = .ok r) : r.Holds P := by
  obtain ⟨symbol, body⟩ := m
  have hfragment : Fragment.Holds P (flattenBlock 0 body ++ .one (.return .absent)) :=
    (holds_flattenBlock 0 h).append (.one (.inl rfl))
  have hinstr : ∀ {p : Fragment} {i : Instr Target}, i.Holds P → (p.resolveInstr i).Holds P := by
    intro p i hi
    cases i <;> exact hi
  cases body with
  | absent => exact h.elim
  | mk o locals ss =>
    have hroutine : ∃ p : Fragment, Fragment.Holds P p ∧
        r.instrs = (p.instrs.map p.resolveInstr).toArray := by
      refine ⟨_, hfragment, ?_⟩
      simp only [flatten, Fragment.routine, bind, Except.bind] at hflatten
      split at hflatten
      · cases hflatten
      · split at hflatten
        · cases hflatten
        · split at hflatten
          · cases hflatten
          · cases hflatten
            rfl
    obtain ⟨p, hp, hr⟩ := hroutine
    intro pc i hi
    rw [hr, List.getElem?_toArray, List.getElem?_map] at hi
    obtain ⟨j, hj, rfl⟩ := Option.map_eq_some_iff.mp hi
    exact hinstr (hp j (List.mem_of_getElem? hj))

end Resumable.Machine

namespace Resumable.StateMachine

open Resumable.Symbol Resumable.Tree Resumable.Source Resumable.Lowering
open Resumable.Report (Violation)

/-! ## Machines -/

/-- The methods of the machine belong to its type, and they are made of code of their own: they
touch fields of the instance and call methods of the machine or host methods. -/
structure Confined (sm : StateMachine) : Prop where
  owner : ∀ x ∈ sm.methods, x.symbol.owner = some sm.state.owner
  body : ∀ x ∈ sm.methods, FormedBlock (OfMachine sm.state.owner) x.body

theorem walkCleanups_mem {markers : Bool} : ∀ {fs : List Frame} {ms : List MethodBody} {n m : Nat},
    (fs.mapM fun f => do
        let body ← walkBlock markers f.cleanup.body
        return { symbol := f.cleanup.symbol, body : MethodBody } : Lower (List MethodBody)) n =
      (.ok ms, m) →
    ∀ x ∈ ms, ∃ f ∈ fs, x.symbol = f.cleanup.symbol ∧ WalkedBlock markers f.cleanup.body x.body
  | [], ms, n, m, h, x, hx => by
    obtain ⟨rfl, -⟩ := Lower.pure_ok.mp h
    cases hx
  | f :: rest, ms, n, m, h, x, hx => by
    rw [List.mapM_cons] at h
    obtain ⟨y, k, hy, h⟩ := Lower.bind_ok.mp h
    obtain ⟨ys, k', hys, h⟩ := Lower.bind_ok.mp h
    obtain ⟨rfl, -⟩ := Lower.pure_ok.mp h
    obtain ⟨b, i, hwalk, hy⟩ := Lower.bind_ok.mp hy
    obtain ⟨rfl, -⟩ := Lower.pure_ok.mp hy
    rcases List.mem_cons.mp hx with rfl | hx
    · exact ⟨f, List.mem_cons_self, rfl, walkedBlock_of_ok hwalk⟩
    · obtain ⟨g, hg, hx⟩ := walkCleanups_mem hys x hx
      exact ⟨g, List.mem_cons_of_mem _ hg, hx⟩

theorem confined_of_assemble {owner : TypeDecl} {markers : Bool} {plan : Plan} {c : Contents}
    {b : Block} {k n m : Nat} (h : Prepared owner plan c b k n)
    (hextracted : ∀ f ∈ Frame.preorderAll c.children, ∃ cleanup ∈ cleanupsBlock b,
      Extracted owner (stateField owner) cleanup f)
    {hoisted : Hoisted} {members : MemberList} {sm : StateMachine}
    (hassemble : assemble markers plan owner hoisted members c b n = (.ok sm, m)) :
    sm.state.owner = owner ∧ Confined sm := by
  have hdispose : (Method.dispose owner).owner = some owner := rfl
  have howners := ownerOf_extracted hextracted
  obtain ⟨moveNext, n₁, hmove, hrest⟩ := Lower.bind_ok.mp hassemble
  obtain ⟨b₂, n₂, hwalk, hrest⟩ := Lower.bind_ok.mp hrest
  obtain ⟨b₃, n₃, hwalk', hrest⟩ := Lower.bind_ok.mp hrest
  obtain ⟨ms, n₄, hcleanups, hrest⟩ := Lower.bind_ok.mp hrest
  obtain ⟨rfl, -⟩ := Lower.pure_ok.mp hrest
  have hstate : plan.state.owner = owner := h.fitting.state
  -- Each method is what lowering makes of a body that is made of the machine's own code.
  have hall : ∀ x ∈ (⟨.moveNext owner, b₂⟩ :: ⟨.dispose owner, b₃⟩ :: ms : List MethodBody),
      x.symbol.owner = some owner ∧ FormedBlock (OfMachine owner) x.body := by
    intro x hx
    rcases List.mem_cons.mp hx with rfl | hx
    · have hformed := ((buildMoveNext_iff h markers hdispose).2 moveNext n₁ hmove).1
      exact ⟨rfl, formedBlock_walked hformed (walkedBlock_of_ok hwalk)⟩
    · rcases List.mem_cons.mp hx with rfl | hx
      · have hformed : FormedBlock (OfMachine owner) (disposeBody plan c.children) :=
          ⟨.inl rfl, (unmarked_disposeBody h.fitting howners).formed⟩
        exact ⟨rfl, formedBlock_walked hformed (walkedBlock_of_ok hwalk')⟩
      · obtain ⟨f, hf, hsymbol, hwalked⟩ := walkCleanups_mem hcleanups x hx
        obtain ⟨cleanup, hcleanup, hf'⟩ := hextracted f hf
        have hready := (torn_block h.ready h.guarded hcleanup).ready
        have hfield : (stateField owner).owner = owner := rfl
        refine ⟨?_, formedBlock_walked (formed_extracted hfield hf' hready) hwalked⟩
        rw [hsymbol]
        exact howners f hf
  refine ⟨hstate, ?_, ?_⟩
  · intro x hx
    exact hstate ▸ (hall x hx).1
  · intro x hx
    exact hstate ▸ (hall x hx).2

/-- The machine of a resumable method has a type of its own and code of its own. -/
theorem confined_of_lowered {file source : String} {program : Program}
    (hread : read file source = .ok program) {m : MethodBody} (hm : m ∈ program.methods)
    {markers : Bool} {sm : StateMachine} (hlower : lowerMethod markers m = .ok (.machine sm)) :
    sm.state.owner = .stateMachine m.symbol.name m.symbol.locations ∧ Confined sm := by
  have hbound := bound_methods hread hm
  obtain ⟨b, k, hwalk, hlaid, hverify⟩ := walkBody_ok hbound markers
  obtain ⟨hnodup, hearlier, -⟩ := walkBody_labels hbound hlaid hverify
  obtain ⟨n, hblock⟩ := hbound.bound
  have hready := readyBlock_walked hblock (walkedBlock_of_ok hwalk)
  cases hiterator : m.symbol.isIterator with
  | false =>
    rw [lowerMethod_of_walk hiterator hwalk] at hlower
    split at hlower <;> cases hlower
  | true =>
    rw [lowerMethod_of_build hiterator hwalk hverify] at hlower
    cases hrepresentable : checkRepresentable m.symbol b with
    | error e =>
      rw [build_error hiterator hbound.ordinals hrepresentable] at hlower
      cases hlower
    | ok u =>
      obtain ⟨plan, h, members, c, b', i, hbuild, -, hprepared, -, -, hextracted, -⟩ :=
        build_eq_assemble hiterator hbound.ordinals hready hnodup hearlier hrepresentable markers
          (.stateMachine m.symbol.name m.symbol.locations)
      rw [hbuild] at hlower
      cases hassemble : assemble markers plan (.stateMachine m.symbol.name m.symbol.locations) h
          members c b' i with
      | mk result j =>
        rw [hassemble] at hlower
        cases result with
        | error e => cases hlower
        | ok machine =>
          dsimp only at hlower
          cases hcheck : machine.methods.forM checkMade with
          | error fault =>
            rw [hcheck] at hlower
            cases hlower
          | ok u =>
            rw [hcheck] at hlower
            cases hlower
            obtain ⟨howner, hconfined⟩ := confined_of_assemble hprepared hextracted hassemble
            exact ⟨howner, hconfined.owner, hconfined.body⟩

end Resumable.StateMachine
