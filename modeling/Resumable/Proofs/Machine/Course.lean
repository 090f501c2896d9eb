import Resumable.Proofs.Machine.Passing

/-!
# The course of a run

The moments that a run of a whole routine comes to in its own code (`Comes`).  A run that returns
comes to an instruction which returns (`Comes.returns`).  Of two statements of a lowered body that
stand directly behind each other, without a label between them, control comes to the second one only
from the first one (`Comes.before`): the sites of a body stand in the order of their positions
(`ordered_block`), and where an instruction that is no statement goes on, or a handler starts, there
is no statement directly before (`joined_block`).
-/

set_option autoImplicit false

namespace Resumable.Machine

open Resumable.Symbol Resumable.Tree

variable {σ : Type}

/-! ## The order of sites -/

namespace Site

/-- The position behind a site; a label takes up none. -/
def next (x : Site) : Nat := if x.item.instr?.isSome then x.pc + 1 else x.pc

theorem next_of_placed {x : Site} (h : x.item.instr?.isSome = true) : x.next = x.pc + 1 := if_pos h

end Site

/-- The sites stand between two positions, each of them behind those before it. -/
structure Ordered (xs : List Site) (start stop : Nat) : Prop where
  between : ∀ x ∈ xs, start ≤ x.pc ∧ x.next ≤ stop
  pairwise : xs.Pairwise fun x y => x.next ≤ y.pc

namespace Ordered

variable {xs ys : List Site} {start middle stop : Nat}

theorem nil : Ordered [] start stop := ⟨List.forall_mem_nil _, .nil⟩

theorem one {x : Site} (hstart : start ≤ x.pc) (hstop : x.next ≤ stop) : Ordered [x] start stop :=
  ⟨List.forall_mem_singleton.mpr ⟨hstart, hstop⟩, List.pairwise_singleton _ _⟩

theorem append (h : Ordered xs start middle) (h' : Ordered ys middle stop) (hstart : start ≤ middle)
    (hstop : middle ≤ stop) : Ordered (xs ++ ys) start stop := by
  refine ⟨fun x hx => ?_, List.pairwise_append.mpr ⟨h.pairwise, h'.pairwise, fun x hx y hy => ?_⟩⟩
  · rcases List.mem_append.mp hx with hx | hx
    · have := h.between x hx
      omega
    · have := h'.between x hx
      omega
  · exact Nat.le_trans (h.between x hx).2 (h'.between y hy).1

end Ordered

mutual

theorem ordered_stmt (around : List Part) (pc : Nat) : ∀ s : Stmt,
    Ordered (sitesStmt around pc s) pc (pc + sizeStmt s)
  | .block b => ordered_block around pc b
  | .list _ ss => ordered_stmts around pc ss
  | .label .. => .one (Nat.le_refl _) (Nat.le_refl _)
  | .try o body catches cleanup => by
    let t : TryAt := ⟨pc, body, catches, cleanup⟩
    have hsize : pc + sizeStmt (.try o body catches cleanup) =
        behindCatches pc body catches + sizeCleanup cleanup := by
      simp only [sizeStmt, behindCatches, behindBody]
      omega
    have hexit : Ordered [⟨pc + sizeBlock body, .exit t.behind, .guarded t :: around⟩]
        (pc + sizeBlock body) (behindBody pc body) := .one (Nat.le_refl _) (Nat.le_refl _)
    have hguarded := (ordered_block (.guarded t :: around) pc body).append hexit
      (Nat.le_add_right _ _) (Nat.le_succ _)
    have hcatches := hguarded.append (ordered_catches around t.behind _ catches)
      (Nat.le_succ_of_le (Nat.le_add_right _ _)) (Nat.le_add_right _ _)
    rw [hsize]
    exact hcatches.append (ordered_cleanup around _ cleanup)
      (Nat.le_trans (Nat.le_succ_of_le (Nat.le_add_right _ _)) (Nat.le_add_right _ _))
      (Nat.le_add_right _ _)
  | .absent | .sequencePoint .. | .noOp .. | .localDeclaration .. | .expression .. | .return ..
  | .yieldReturn .. | .yieldBreak .. | .throw .. | .if .. | .while .. | .break .. | .continue ..
  | .goto .. | .conditionalGoto .. | .dispatch .. | .foreign .. => by
    rw [sitesStmt_leaf rfl]
    exact .one (Nat.le_refl _) (Nat.le_refl _)

theorem ordered_stmts (around : List Part) (pc : Nat) : ∀ ss : List Stmt,
    Ordered (sitesStmts around pc ss) pc (pc + sizeStmts ss)
  | [] => .nil
  | s :: rest => by
    rw [sizeStmts, ← Nat.add_assoc]
    exact (ordered_stmt around pc s).append (ordered_stmts around _ rest) (Nat.le_add_right _ _)
      (Nat.le_add_right _ _)

/-- The sites of a block stand in the order of their positions. -/
theorem ordered_block (around : List Part) (pc : Nat) : ∀ b : Block,
    Ordered (sitesBlock around pc b) pc (pc + sizeBlock b)
  | .absent => .nil
  | .mk _ _ ss => ordered_stmts around pc ss

theorem ordered_cleanup (around : List Part) (pc : Nat) : ∀ b : Block,
    Ordered (sitesCleanup around pc b) pc (pc + sizeCleanup b)
  | .absent => .nil
  | .mk _ _ ss => .append (ordered_stmts _ pc ss) (.one (Nat.le_refl _) (Nat.le_refl _))
      (Nat.le_add_right _ _) (Nat.le_succ _)

theorem ordered_catches (around : List Part) (behind pc : Nat) : ∀ cs : List Catch,
    Ordered (sitesCatches around behind pc cs) pc (pc + sizeCatches cs)
  | [] => .nil
  | .mk o target body :: rest => by
    let part : Part := .handler ⟨⟨pc, pc + sizeBlock body + 1⟩, target⟩
    have henter : Ordered [⟨pc, .enterCatch, around⟩] pc (pc + 1) :=
      .one (Nat.le_refl _) (Nat.le_refl _)
    have hend : Ordered [⟨pc + sizeBlock body + 1, .endCatch, around⟩] (pc + 1 + sizeBlock body)
        (pc + sizeBlock body + 2) := .one (by dsimp only; omega) (Nat.le_refl _)
    have hexit : Ordered [⟨pc + sizeBlock body + 2, .exitCatch behind, around⟩]
        (pc + sizeBlock body + 2) (pc + sizeBlock body + 3) := .one (Nat.le_refl _) (Nat.le_refl _)
    have hbody := (ordered_block (part :: around) (pc + 1) body).append
      (hend.append hexit (by omega) (Nat.le_succ _)) (Nat.le_add_right _ _) (by omega)
    have hrest := ordered_catches around behind (pc + sizeBlock body + 3) rest
    have hsize : pc + sizeCatches (.mk o target body :: rest) =
        pc + sizeBlock body + 3 + sizeCatches rest := by
      simp only [sizeCatches]
      omega
    rw [hsize]
    exact ((henter.append hbody (Nat.le_succ _) (by omega)).append hrest (by omega)
      (Nat.le_add_right _ _))

end

/-! ## Where control joins the code -/

/-- Behind an instruction that is no statement. -/
def Joins (xs : List Site) (p : Nat) : Prop :=
  ∃ y ∈ xs, y.pc + 1 = p ∧ y.item.instr?.isSome = true ∧ ∀ s, y.item ≠ .stmt s

theorem Joins.mono {xs ys : List Site} {p : Nat} (h : Joins xs p) (hsub : ∀ x ∈ xs, x ∈ ys) :
    Joins ys p := by
  obtain ⟨y, hy, hrest⟩ := h
  exact ⟨y, hsub y hy, hrest⟩

/-- Where an item goes on that completes a try block or a handler. -/
def Item.exits : Item → List Nat
  | exit behind | exitCatch behind => [behind]
  | _ => []

/-- The sites go on, and the handlers of the tries start, behind instructions that are no
statements. -/
structure Joined (xs : List Site) (ts : List TryAt) : Prop where
  exits : ∀ x ∈ xs, ∀ p ∈ x.item.exits, Joins xs p
  handlers : ∀ t ∈ ts, ∀ h ∈ t.region.handlers, Joins xs h.body.start

theorem Joined.append {xs ys : List Site} {ts us : List TryAt} (h : Joined xs ts)
    (h' : Joined ys us) : Joined (xs ++ ys) (ts ++ us) := by
  have hleft : ∀ {p}, Joins xs p → Joins (xs ++ ys) p := fun hp =>
    hp.mono fun x => List.mem_append_left ys
  have hright : ∀ {p}, Joins ys p → Joins (xs ++ ys) p := fun hp =>
    hp.mono fun x => List.mem_append_right xs
  refine ⟨fun x hx p hp => ?_, fun t ht g hg => ?_⟩
  · rcases List.mem_append.mp hx with hx | hx
    · exact hleft (h.exits x hx p hp)
    · exact hright (h'.exits x hx p hp)
  · rcases List.mem_append.mp ht with ht | ht
    · exact hleft (h.handlers t ht g hg)
    · exact hright (h'.handlers t ht g hg)

/-- Handlers start behind the instruction that enters them. -/
theorem joins_handler (around : List Part) (behind : Nat) : ∀ {cs : List Catch} {pc : Nat},
    ∀ h ∈ handlersAt pc cs, Joins (sitesCatches around behind pc cs) h.body.start
  | .mk o target body :: rest, pc, h, hh => by
    rcases List.mem_cons.mp hh with rfl | hh
    · exact ⟨⟨pc, .enterCatch, around⟩, by simp [sitesCatches], rfl, rfl, nofun⟩
    · exact (joins_handler around behind h hh).mono fun x => List.mem_append_right _

/-- The last instruction of handlers, if there are any, is no statement. -/
theorem joins_catches (around : List Part) (behind : Nat) : ∀ {cs : List Catch} {pc : Nat},
    cs ≠ [] → Joins (sitesCatches around behind pc cs) (pc + sizeCatches cs)
  | [.mk o target body], pc, _ => by
    refine ⟨⟨pc + sizeBlock body + 2, .exitCatch behind, around⟩, by simp [sitesCatches], ?_, rfl,
      nofun⟩
    simp only [sizeCatches]
    omega
  | .mk o target body :: second :: rest, pc, _ => by
    have hrest := @joins_catches around behind (second :: rest) (pc + sizeBlock body + 3)
      (List.cons_ne_nil _ _)
    have hsize : pc + sizeBlock body + 3 + sizeCatches (second :: rest) =
        pc + sizeCatches (.mk o target body :: second :: rest) := by
      rw [sizeCatches.eq_def (_ :: _ :: _)]
      dsimp only
      omega
    rw [← hsize]
    exact hrest.mono fun x => List.mem_append_right _

/-- The last instruction of a try is no statement. -/
theorem joins_try (around : List Part) (pc : Nat) (o : Origin) (body : Block)
    (catches : List Catch) (cleanup : Block) :
    Joins (sitesStmt around pc (.try o body catches cleanup)) (behindTry pc body catches cleanup) := by
  rw [sitesStmt]
  cases cleanup with
  | mk o' ls ss =>
    exact ⟨⟨behindCatches pc body catches + sizeStmts ss, .endFinally, _⟩,
      List.mem_append_right _ (List.mem_append_right _ (List.mem_singleton_self _)), rfl, rfl, nofun⟩
  | absent =>
    cases catches with
    | nil =>
      exact ⟨⟨pc + sizeBlock body, .exit _, _⟩, List.mem_append_left _ (List.mem_append_left _
        (List.mem_append_right _ (List.mem_singleton_self _))), rfl, rfl, nofun⟩
    | cons first rest =>
      exact (joins_catches around _ (List.cons_ne_nil _ _)).mono fun x hx =>
        List.mem_append_left _ (List.mem_append_right _ hx)

mutual

theorem joined_stmt (around : List Part) (pc : Nat) : ∀ s : Stmt,
    Joined (sitesStmt around pc s) (triesStmt pc s)
  | .block b => joined_block around pc b
  | .list _ ss => joined_stmts around pc ss
  | .label .. => ⟨by simp [sitesStmt, Item.exits], nofun⟩
  | .try o body catches cleanup => by
    let t : TryAt := ⟨pc, body, catches, cleanup⟩
    have hwhole := joins_try around pc o body catches cleanup
    have hbody := joined_block (.guarded t :: around) pc body
    obtain ⟨hexits, hhandlers⟩ := joined_catches around t.behind (behindBody pc body) catches
    have hcleanup := joined_cleanup around (behindCatches pc body catches) cleanup
    let whole : Stmt := .try o body catches cleanup
    have hinBody : ∀ {p}, Joins (sitesBlock (.guarded t :: around) pc body) p →
        Joins (sitesStmt around pc whole) p := fun h =>
      h.mono fun x hx => List.mem_append_left _ (List.mem_append_left _ (List.mem_append_left _ hx))
    have hinCatches : ∀ {p}, Joins (sitesCatches around t.behind (behindBody pc body) catches) p →
        Joins (sitesStmt around pc whole) p := fun h =>
      h.mono fun x hx => List.mem_append_left _ (List.mem_append_right _ hx)
    have hinCleanup : ∀ {p}, Joins (sitesCleanup around (behindCatches pc body catches) cleanup) p →
        Joins (sitesStmt around pc whole) p := fun h => h.mono fun x => List.mem_append_right _
    refine ⟨fun x hx p hp => ?_, fun u hu h hh => ?_⟩
    · simp only [sitesStmt, List.mem_append, List.mem_singleton] at hx
      rcases hx with ((hx | rfl) | hx) | hx
      · exact hinBody (hbody.exits x hx p hp)
      · obtain rfl := List.mem_singleton.mp hp
        exact hwhole
      · rcases hexits x hx p hp with rfl | hjoins
        · exact hwhole
        · exact hinCatches hjoins
      · exact hinCleanup (hcleanup.exits x hx p hp)
    · simp only [triesStmt, List.mem_cons, List.mem_append] at hu
      rcases hu with rfl | (hu | hu) | hu
      · exact hinCatches (joins_handler around t.behind h hh)
      · exact hinBody (hbody.handlers u hu h hh)
      · exact hinCatches (hhandlers u hu h hh)
      · exact hinCleanup (hcleanup.handlers u hu h hh)
  | .absent | .sequencePoint .. | .noOp .. | .localDeclaration .. | .expression .. | .return ..
  | .yieldReturn .. | .yieldBreak .. | .throw .. | .if .. | .while .. | .break .. | .continue ..
  | .goto .. | .conditionalGoto .. | .dispatch .. | .foreign .. => by
    rw [sitesStmt_leaf rfl]
    exact ⟨by simp [Item.exits], nofun⟩

theorem joined_stmts (around : List Part) (pc : Nat) : ∀ ss : List Stmt,
    Joined (sitesStmts around pc ss) (triesStmts pc ss)
  | [] => ⟨nofun, nofun⟩
  | s :: rest => (joined_stmt around pc s).append (joined_stmts around _ rest)

/-- Where the instructions of a block that are no statements go on, and where its handlers start,
there is no statement directly before. -/
theorem joined_block (around : List Part) (pc : Nat) : ∀ b : Block,
    Joined (sitesBlock around pc b) (triesBlock pc b)
  | .absent => ⟨nofun, nofun⟩
  | .mk _ _ ss => joined_stmts around pc ss

theorem joined_cleanup (around : List Part) (pc : Nat) : ∀ b : Block,
    Joined (sitesCleanup around pc b) (triesBlock pc b)
  | .absent => ⟨nofun, nofun⟩
  | .mk _ _ ss => by
    have hend : Joined [⟨pc + sizeStmts ss, .endFinally,
        .cleanup ⟨pc, pc + sizeStmts ss + 1⟩ :: around⟩] [] := ⟨by simp [Item.exits], nofun⟩
    have h := (joined_stmts (.cleanup ⟨pc, pc + sizeStmts ss + 1⟩ :: around) pc ss).append hend
    rwa [List.append_nil] at h

theorem joined_catches (around : List Part) (behind pc : Nat) : ∀ cs : List Catch,
    (∀ x ∈ sitesCatches around behind pc cs, ∀ p ∈ x.item.exits, p = behind ∨
      Joins (sitesCatches around behind pc cs) p) ∧
    ∀ t ∈ triesCatches pc cs, ∀ h ∈ t.region.handlers,
      Joins (sitesCatches around behind pc cs) h.body.start
  | [] => ⟨nofun, nofun⟩
  | .mk o target body :: rest => by
    let part : Part := .handler ⟨⟨pc, pc + sizeBlock body + 1⟩, target⟩
    have hbody := joined_block (part :: around) (pc + 1) body
    obtain ⟨hexits, hhandlers⟩ := joined_catches around behind (pc + sizeBlock body + 3) rest
    have hinBody : ∀ {p}, Joins (sitesBlock (part :: around) (pc + 1) body) p →
        Joins (sitesCatches around behind pc (.mk o target body :: rest)) p := fun h =>
      h.mono fun x hx => List.mem_append_left _ (List.mem_cons_of_mem _ (List.mem_append_left _ hx))
    have hinRest : ∀ {p}, Joins (sitesCatches around behind (pc + sizeBlock body + 3) rest) p →
        Joins (sitesCatches around behind pc (.mk o target body :: rest)) p := fun h =>
      h.mono fun x => List.mem_append_right _
    refine ⟨fun x hx p hp => ?_, fun u hu h hh => ?_⟩
    · simp only [sitesCatches, List.mem_append, List.mem_cons, List.not_mem_nil, or_false] at hx
      rcases hx with (rfl | hx | rfl | rfl) | hx
      · cases hp
      · exact .inr (hinBody (hbody.exits x hx p hp))
      · cases hp
      · exact .inl (List.mem_singleton.mp hp)
      · exact (hexits x hx p hp).imp_right hinRest
    · rcases List.mem_append.mp hu with hu | hu
      · exact hinBody (hbody.handlers u hu h hh)
      · exact hinRest (hhandlers u hu h hh)

end

/-! ## Statements directly behind each other -/

section Pair

variable {b : Block} {q : Nat} {s t : Stmt} {parts parts' : List Part}

/-- A site is before the two, one of them, or behind them. -/
theorem site_around (h : [⟨q, .stmt s, parts⟩, ⟨q + 1, .stmt t, parts'⟩] <:+: sitesBlock [] 0 b)
    (ht : isLeaf t = true) {z : Site} (hz : z ∈ sitesBlock [] 0 b) :
    z.next ≤ q ∨ z = ⟨q, .stmt s, parts⟩ ∨ z = ⟨q + 1, .stmt t, parts'⟩ ∨ q + 2 ≤ z.pc := by
  obtain ⟨before, behind, hsites⟩ := h
  have hordered := (ordered_block [] 0 b).pairwise
  rw [← hsites] at hordered hz
  have hplaced : (Item.stmt t).instr?.isSome = true := by rw [instr?_leaf ht]; rfl
  obtain ⟨hleft, -, hright⟩ := List.pairwise_append.mp hordered
  obtain ⟨-, -, hbefore⟩ := List.pairwise_append.mp hleft
  simp only [List.mem_append, List.mem_cons, List.not_mem_nil, or_false] at hz
  rcases hz with (hz | rfl | rfl) | hz
  · exact .inl (hbefore z hz _ List.mem_cons_self)
  · exact .inr (.inl rfl)
  · exact .inr (.inr (.inl rfl))
  · have hpc := hright _ (List.mem_append_right before (List.mem_cons_of_mem _ List.mem_cons_self)) z hz
    rw [Site.next_of_placed hplaced] at hpc
    exact .inr (.inr (.inr hpc))

/-- Control does not join the code between them. -/
theorem not_joins (h : [⟨q, .stmt s, parts⟩, ⟨q + 1, .stmt t, parts'⟩] <:+: sitesBlock [] 0 b)
    (ht : isLeaf t = true) : ¬ Joins (sitesBlock [] 0 b) (q + 1) := by
  rintro ⟨y, hy, hpc, hplaced, hitem⟩
  rcases site_around h ht hy with hnext | rfl | rfl | hpc'
  · rw [Site.next_of_placed hplaced] at hnext
    omega
  · exact hitem s rfl
  · exact hitem t rfl
  · omega

/-- Nothing but the first statement goes on at the second one. -/
theorem eq_of_reach (h : [⟨q, .stmt s, parts⟩, ⟨q + 1, .stmt t, parts'⟩] <:+: sitesBlock [] 0 b)
    (ht : isLeaf t = true) {z : Site} (hz : z ∈ sitesBlock [] 0 b) (hreach : q + 1 ∈ z.reach) :
    z = ⟨q, .stmt s, parts⟩ := by
  have hfalls : z.item.instr?.isSome = true → z.pc = q → z = ⟨q, .stmt s, parts⟩ := by
    intro hplaced hpc
    rcases site_around h ht hz with hnext | rfl | rfl | hpc'
    · rw [Site.next_of_placed hplaced] at hnext
      omega
    · rfl
    · dsimp only at hpc
      omega
    · omega
  obtain ⟨pc, item, around⟩ := z
  cases item with
  | exit behind | exitCatch behind =>
    obtain rfl := List.mem_singleton.mp hreach
    exact absurd ((joined_block [] 0 b).exits _ hz _ (List.mem_singleton_self _))
      (not_joins h ht)
  | enterCatch | endCatch => exact hfalls rfl (Nat.succ.inj (List.mem_singleton.mp hreach)).symm
  | endFinally => cases hreach
  | stmt u =>
    rcases simple_of_placesBlock (mem_placesBlock_of_site hz) with hu | ⟨o, l, hlabel⟩
    · rw [reach_leaf hu] at hreach
      exact hfalls (by rw [instr?_leaf hu]; rfl) (Nat.succ.inj (List.mem_singleton.mp hreach)).symm
    · obtain rfl : u = .label o l := hlabel
      obtain rfl : q + 1 = pc := List.mem_singleton.mp hreach
      -- A label between the two would stand before the second one and behind the first one.
      rcases site_around h ht hz with hnext | heq | heq | hpc
      · exact absurd hnext (Nat.not_succ_le_self q)
      · simp at heq
      · cases heq
        cases ht
      · dsimp only at hpc
        omega

/-- A handler of the regions around an instruction starts where control joins the code. -/
theorem joins_of_handles {method : Method} {scope : Range} {pc p : Nat}
    (h : Handles ((routineOf method b).regionsAt pc scope) p) : Joins (sitesBlock [] 0 b) p := by
  obtain ⟨g, hg, handler, hh, rfl⟩ := h
  obtain ⟨u, hu, rfl, -⟩ := mem_regionsAt.mp hg
  exact (joined_block [] 0 b).handlers u hu handler hh

end Pair

/-! ## Runs -/

/-- A run of the whole routine that begins with the configuration `start` and so many steps comes, in
its own steps, to the instruction at the position with the configuration and some steps left. -/
inductive Comes (ctx : Context σ) (r : Routine) (start : Config σ) (steps : Nat) :
    Nat → Nat → Config σ → Prop where
  | start : Comes ctx r start steps steps 0 start
  | next {left pc pc' : Nat} {i : Instr Nat} {c d : Config σ}
    (h : Comes ctx r start steps (left + 1) pc c) (hi : r.instrs[pc]? = some i)
    (hstep : step ctx r (finallysWithin ctx r left) r.range pc i c = some (.ok (.goto pc'), d)) :
    Comes ctx r start steps left pc' d

namespace Comes

variable {ctx : Context σ} {r : Routine} {start c d : Config σ} {steps left pc : Nat}

/-- What the run comes to from there is what it comes to. -/
theorem run_eq (h : Comes ctx r start steps left pc c) :
    run ctx r steps r.range 0 start = run ctx r left r.range pc c := by
  induction h with
  | start => rfl
  | next _ hi hstep ih =>
    have hcovers : r.range.covers _ = true :=
      Range.covers_eq_true.mpr ⟨Nat.zero_le _, (Array.getElem?_eq_some_iff.mp hi).1⟩
    rw [ih, run_succ hcovers hi, Act.bind_apply, hstep]

/-- A run that returns comes to an instruction that returns. -/
theorem returns (h : Comes ctx r start steps left pc c) {v : Value}
    (hrun : run ctx r left r.range pc c = some (.ok (.returned v), d)) :
    ∃ left' q e c', Comes ctx r start steps (left' + 1) q c' ∧ r.instrs[q]? = some (.return e) ∧
      step ctx r (finallysWithin ctx r left') r.range q (.return e) c' = some (.ok (.return v), d) := by
  induction left generalizing pc c with
  | zero => cases hrun
  | succ left ih =>
    cases hfound : (if r.range.covers pc = true then r.instrs[pc]? else none) with
    | none =>
      rw [run, hfound] at hrun
      cases hrun
    | some i =>
      obtain ⟨hcovers, hi⟩ := Option.ite_none_right_eq_some.mp hfound
      rw [run_succ hcovers hi, Act.bind_apply] at hrun
      cases hstep : step ctx r (finallysWithin ctx r left) r.range pc i c with
      | none => simp [hstep] at hrun
      | some ended =>
        obtain ⟨result, e⟩ := ended
        rw [hstep] at hrun
        cases result with
        | error f => cases hrun
        | ok next =>
          cases next with
          | goto p => exact ih (h.next hi hstep) hrun
          | endFinally => cases hrun
          | «return» v =>
            cases hrun
            cases step_follows _ _ _ _ _ _ _ _ _ hstep with
            | returns e v he =>
              subst he
              exact ⟨left, pc, e, c, h, hi, hstep⟩

variable {b : Block} {method : Method} {q : Nat} {s t : Stmt} {parts parts' : List Part}

/-- Control comes to a statement that stands directly behind another one only from there. -/
theorem before (hb : Executable b)
    (hpair : [⟨q, .stmt s, parts⟩, ⟨q + 1, .stmt t, parts'⟩] <:+: sitesBlock [] 0 b)
    (hs : isLeaf s = true) (ht : isLeaf t = true)
    (h : Comes ctx (routineOf method b) start steps left (q + 1) d) :
    ∃ c, Comes ctx (routineOf method b) start steps (left + 1) q c ∧
      step ctx (routineOf method b) (finallysWithin ctx (routineOf method b) left)
        (routineOf method b).range q ((leafInstr s).map (bodyFragment b).resolve) c =
          some (.ok (.goto (q + 1)), d) := by
  cases h with
  | @next _ pc _ i c _ h hi hstep =>
    have hsite : ∀ {z : Site}, z ∈ sitesBlock [] 0 b → q + 1 ∈ z.reach →
        z = ⟨q, .stmt s, parts⟩ := fun hz hreach => eq_of_reach hpair ht hz hreach
    have hgoes : i.falls = true ∧ q + 1 = pc + 1 ∨ q + 1 ∈ i.targets → pc = q := by
      intro htarget
      rcases site_of_instr hi with ⟨-, rfl⟩ | ⟨x, hx, rfl, j, hj, rfl⟩
      · rcases htarget with ⟨hfalls, -⟩ | htarget
        · cases hfalls
        · cases htarget
      · rw [Instr.falls_map] at htarget
        obtain ⟨y, hy, hreach, rfl | ⟨l, -, hlabel⟩⟩ := hb.reached hx hj htarget
        · rw [hsite hy hreach]
        · obtain rfl := hsite hy hreach
          cases s with
          | label => cases hs
          | _ => cases hlabel
    have hpc : pc = q := by
      cases step_follows _ _ _ _ _ _ _ _ _ hstep with
      | falls hfalls => rfl
      | jumps htarget => exact hgoes (.inr htarget)
      | handled hhandles => exact absurd (joins_of_handles hhandles) (not_joins hpair ht)
    subst hpc
    have hinstr := instr_of_site method (hpair.mem List.mem_cons_self) (instr?_leaf hs)
    obtain rfl := Option.some.inj (hinstr.symm.trans hi)
    exact ⟨c, h, hstep⟩

/-- Control comes to a statement that stands directly behind an expression only from there, when the
expression has been evaluated. -/
theorem evaluated (hb : Executable b) {o : Origin} {e : Expr}
    (hpair : [⟨q, .stmt (.expression o e), parts⟩, ⟨q + 1, .stmt t, parts'⟩] <:+: sitesBlock [] 0 b)
    (ht : isLeaf t = true) (h : Comes ctx (routineOf method b) start steps left (q + 1) d) :
    (routineOf method b).instrs[q]? = some (.exec e) ∧
      ∃ c v, Comes ctx (routineOf method b) start steps (left + 1) q c ∧
        eval ctx e c = some (.ok v, d) := by
  obtain ⟨c, hc, hstep⟩ := h.before hb hpair rfl ht
  refine ⟨instr_of_site method (hpair.mem List.mem_cons_self) rfl, c, ?_⟩
  change step ctx _ _ _ q (.exec e) c = _ at hstep
  rw [step, Act.attempt_bind_apply] at hstep
  obtain ⟨⟨result, d'⟩, heval, hrest⟩ := Option.bind_eq_some_iff.mp hstep
  cases result with
  | ok v =>
    cases hrest
    exact ⟨v, hc, heval⟩
  | error f =>
    cases raised_follows (i := .rethrow) f _ _ _ hrest with
    | falls hfalls => cases hfalls
    | jumps htarget => cases htarget
    | handled hhandles => exact absurd (joins_of_handles hhandles) (not_joins hpair ht)

end Comes

end Resumable.Machine
