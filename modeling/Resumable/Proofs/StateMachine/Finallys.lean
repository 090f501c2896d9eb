import Resumable.Proofs.Lowering.Settled
import Resumable.Proofs.StateMachine.Carried

/-!
# Jumps into finallys

A jump enters a finally if it stands outside of it and its label inside (`Region.Unentered`).  Said
along the tree: each label stands outside or inside of the finallys (`openStmt`, `shutStmt`), and the
jumps outside of them go to labels outside (`Leads`).  Lowering keeps this, since the labels that it
makes are on the same side as the jumps to them (`Placed`).
-/

set_option autoImplicit false

namespace Resumable.StateMachine

open Resumable.Symbol Resumable.Tree Resumable.Source Resumable.Lowering

/-- No jump goes into the finally of the try from outside of it. -/
def Region.Unentered (r : Region) : Prop :=
  ∀ j ∈ r.outside ++ leapsBlock r.body ++ leapsCatches r.catches, j.target ∉ landingsBlock r.cleanup

instance (r : Region) : Decidable r.Unentered := inferInstanceAs (Decidable (∀ _ ∈ _, _))

/-! ## Labels outside and inside of finallys -/

mutual

/-- The labels of a statement that stand outside of its finallys. -/
def openStmt : Stmt → List (Option Label)
  | .block b => openBlock b
  | .list _ ss => openStmts ss
  | .label _ l => [l]
  | .if _ _ t f => openStmt t ++ openStmt f
  | .while _ _ body exit again => again :: openStmt body ++ [exit]
  | .try _ body catches _ => openBlock body ++ openCatches catches
  | _ => []

/-- The labels of statements that stand outside of their finallys. -/
def openStmts : List Stmt → List (Option Label)
  | [] => []
  | s :: rest => openStmt s ++ openStmts rest

/-- The labels of a block that stand outside of its finallys. -/
def openBlock : Block → List (Option Label)
  | .absent => []
  | .mk _ _ ss => openStmts ss

/-- The labels of handlers that stand outside of their finallys. -/
def openCatches : List Catch → List (Option Label)
  | [] => []
  | .mk _ _ body :: rest => openBlock body ++ openCatches rest

end

mutual

/-- The labels of a statement that stand inside of its finallys. -/
def shutStmt : Stmt → List (Option Label)
  | .block b => shutBlock b
  | .list _ ss => shutStmts ss
  | .if _ _ t f => shutStmt t ++ shutStmt f
  | .while _ _ body _ _ => shutStmt body
  | .try _ body catches cleanup => shutBlock body ++ shutCatches catches ++ landingsBlock cleanup
  | _ => []

/-- The labels of statements that stand inside of their finallys. -/
def shutStmts : List Stmt → List (Option Label)
  | [] => []
  | s :: rest => shutStmt s ++ shutStmts rest

/-- The labels of a block that stand inside of its finallys. -/
def shutBlock : Block → List (Option Label)
  | .absent => []
  | .mk _ _ ss => shutStmts ss

/-- The labels of handlers that stand inside of their finallys. -/
def shutCatches : List Catch → List (Option Label)
  | [] => []
  | .mk _ _ body :: rest => shutBlock body ++ shutCatches rest

end

mutual

/-- The jumps of the statement that stand outside of its finallys go to free labels. -/
def Leads (free : Option Label → Prop) : Stmt → Prop
  | .block b => LeadsBlock free b
  | .list _ ss => LeadsAll free ss
  | .goto _ l | .conditionalGoto _ _ _ l | .break _ l | .continue _ l => free l
  | .dispatch _ _ cases l => ∀ k ∈ cases.map DispatchCase.label ++ [l], free k
  | .if _ _ t f => Leads free t ∧ Leads free f
  | .while _ _ body _ _ => Leads free body
  | .try _ body catches _ => LeadsBlock free body ∧ LeadsCatches free catches
  | _ => True

/-- The jumps of the statements outside of their finallys go to free labels. -/
def LeadsAll (free : Option Label → Prop) : List Stmt → Prop
  | [] => True
  | s :: rest => Leads free s ∧ LeadsAll free rest

/-- The jumps of the block outside of its finallys go to free labels. -/
def LeadsBlock (free : Option Label → Prop) : Block → Prop
  | .absent => True
  | .mk _ _ ss => LeadsAll free ss

/-- The jumps of the handlers outside of their finallys go to free labels. -/
def LeadsCatches (free : Option Label → Prop) : List Catch → Prop
  | [] => True
  | .mk _ _ body :: rest => LeadsBlock free body ∧ LeadsCatches free rest

end

mutual

/-- More labels may be free. -/
theorem Leads.mono {free free' : Option Label → Prop} (hfree : ∀ l, free l → free' l) :
    ∀ {s : Stmt}, Leads free s → Leads free' s
  | .block b, h => LeadsBlock.mono hfree (b := b) h
  | .list _ ss, h => @LeadsAll.mono free free' hfree ss h
  | .goto _ l, h | .conditionalGoto _ _ _ l, h | .break _ l, h | .continue _ l, h => hfree l h
  | .dispatch .., h => fun k hk => hfree k (h k hk)
  | .if .., h => ⟨h.1.mono hfree, h.2.mono hfree⟩
  | .while _ _ body _ _, h => Leads.mono hfree (s := body) h
  | .try .., h => ⟨h.1.mono hfree, LeadsCatches.mono hfree h.2⟩
  | .absent, _ | .noOp .., _ | .localDeclaration .., _ | .expression .., _ | .return .., _
  | .throw .., _ | .sequencePoint .., _ | .yieldReturn .., _ | .yieldBreak _, _ | .label .., _
  | .foreign .., _ => trivial

theorem LeadsAll.mono {free free' : Option Label → Prop} (hfree : ∀ l, free l → free' l) :
    ∀ {ss : List Stmt}, LeadsAll free ss → LeadsAll free' ss
  | [], _ => trivial
  | _ :: _, h => ⟨h.1.mono hfree, LeadsAll.mono hfree h.2⟩

theorem LeadsBlock.mono {free free' : Option Label → Prop} (hfree : ∀ l, free l → free' l) :
    ∀ {b : Block}, LeadsBlock free b → LeadsBlock free' b
  | .absent, _ => trivial
  | .mk _ _ ss, h => @LeadsAll.mono free free' hfree ss h

theorem LeadsCatches.mono {free free' : Option Label → Prop} (hfree : ∀ l, free l → free' l) :
    ∀ {cs : List Catch}, LeadsCatches free cs → LeadsCatches free' cs
  | [], _ => trivial
  | .mk .. :: _, h => ⟨h.1.mono hfree, LeadsCatches.mono hfree h.2⟩

end

mutual

/-- Each label stands outside or inside of the finallys. -/
theorem landings_open : ∀ s : Stmt, (landingsStmt s).Perm (openStmt s ++ shutStmt s)
  | .block b => landingsBlock_open b
  | .list _ ss => landingsStmts_open ss
  | .if _ _ t f => by
    refine List.perm_iff_count.mpr fun l => ?_
    have ht := (landings_open t).count_eq l
    have hf := (landings_open f).count_eq l
    simp only [landingsStmt, openStmt, shutStmt, List.count_append] at ht hf ⊢
    omega
  | .while _ _ body _ _ => by
    refine List.perm_iff_count.mpr fun l => ?_
    have hbody := (landings_open body).count_eq l
    simp only [landingsStmt, openStmt, shutStmt, List.count_append, List.count_cons,
      List.count_nil] at hbody ⊢
    omega
  | .try _ body catches cleanup => by
    refine List.perm_iff_count.mpr fun l => ?_
    have hbody := (landingsBlock_open body).count_eq l
    have hcatches := (landingsCatches_open catches).count_eq l
    simp only [landingsStmt, openStmt, shutStmt, List.count_append] at hbody hcatches ⊢
    omega
  | .absent | .sequencePoint .. | .noOp .. | .localDeclaration .. | .expression .. | .return ..
  | .yieldReturn .. | .yieldBreak .. | .throw .. | .break .. | .continue .. | .label .. | .goto ..
  | .conditionalGoto .. | .dispatch .. | .foreign .. => by
    simp [landingsStmt, openStmt, shutStmt]

theorem landingsStmts_open :
    ∀ ss : List Stmt, (landingsStmts ss).Perm (openStmts ss ++ shutStmts ss)
  | [] => .nil
  | s :: rest => by
    refine List.perm_iff_count.mpr fun l => ?_
    have hs := (landings_open s).count_eq l
    have hrest := (landingsStmts_open rest).count_eq l
    simp only [landingsStmts, openStmts, shutStmts, List.count_append] at hs hrest ⊢
    omega

theorem landingsBlock_open : ∀ b : Block, (landingsBlock b).Perm (openBlock b ++ shutBlock b)
  | .absent => .nil
  | .mk _ _ ss => landingsStmts_open ss

theorem landingsCatches_open :
    ∀ cs : List Catch, (landingsCatches cs).Perm (openCatches cs ++ shutCatches cs)
  | [] => .nil
  | .mk _ _ body :: rest => by
    refine List.perm_iff_count.mpr fun l => ?_
    have hbody := (landingsBlock_open body).count_eq l
    have hrest := (landingsCatches_open rest).count_eq l
    simp only [landingsCatches, openCatches, shutCatches, List.count_append] at hbody hrest ⊢
    omega

end

theorem mem_landings_open {l : Option Label} (b : Block) :
    l ∈ landingsBlock b ↔ l ∈ openBlock b ∨ l ∈ shutBlock b := by
  rw [(landingsBlock_open b).mem_iff, List.mem_append]

/-! ## Tries that are not entered -/

/-- For a part of a body with the labels `shut` inside of its finallys and the jumps `leaps`: if no
finally is entered, the jumps around the part do not go into its finallys, and its own jumps lead to
the labels that they are said to go to. -/
structure Sheltered (shut : List (Option Label)) (leaps : List Leap)
    (leads : (Option Label → Prop) → Prop) (regions : List Leap → List Region) : Prop where
  apart : ∀ A, (∀ r ∈ regions A, r.Unentered) → ∀ j ∈ A, j.target ∉ shut
  leads : ∀ A free, (∀ r ∈ regions A, r.Unentered) →
    (∀ j ∈ leaps, free j.target ∨ j.target ∈ shut) → leads free

namespace Sheltered

variable {shut shut' : List (Option Label)} {leaps leaps' : List Leap}
  {leads leads' : (Option Label → Prop) → Prop} {regions regions' : List Leap → List Region}

/-- A part without tries. -/
theorem plain (h : ∀ free, (∀ j ∈ leaps, free j.target) → leads free) :
    Sheltered [] leaps leads fun _ => [] where
  apart _ _ _ _ := List.not_mem_nil
  leads _ free _ hleaps := h free fun j hj => (hleaps j hj).resolve_right List.not_mem_nil

/-- One part after another: the jumps of each are outside of the other. -/
theorem append (h : Sheltered shut leaps leads regions)
    (h' : Sheltered shut' leaps' leads' regions') :
    Sheltered (shut ++ shut') (leaps ++ leaps') (fun free => leads free ∧ leads' free)
      fun A => regions (A ++ leaps') ++ regions' (A ++ leaps) where
  apart A hall j hj := by
    rw [forall_mem_append] at hall
    rw [List.mem_append, not_or]
    exact ⟨h.apart _ hall.1 j (List.mem_append_left _ hj),
      h'.apart _ hall.2 j (List.mem_append_left _ hj)⟩
  leads A free hall hleaps := by
    rw [forall_mem_append] at hall hleaps
    have hone : ∀ j ∈ leaps, j.target ∉ shut' := fun j hj =>
      h'.apart _ hall.2 j (List.mem_append_right _ hj)
    have htwo : ∀ j ∈ leaps', j.target ∉ shut := fun j hj =>
      h.apart _ hall.1 j (List.mem_append_right _ hj)
    refine ⟨h.leads _ free hall.1 fun j hj => ?_, h'.leads _ free hall.2 fun j hj => ?_⟩
    · exact (hleaps.1 j hj).imp id fun hin => (List.mem_append.mp hin).resolve_right (hone j hj)
    · exact (hleaps.2 j hj).imp id fun hin => (List.mem_append.mp hin).resolve_left (htwo j hj)

end Sheltered

mutual

theorem sheltered_stmt : ∀ s : Stmt,
    Sheltered (shutStmt s) (leapsStmt s) (fun free => Leads free s) (regionsStmt · s)
  | .block b => sheltered_block b
  | .list _ ss => sheltered_stmts ss
  | .if _ _ t f => (sheltered_stmt t).append (sheltered_stmt f)
  | .while _ _ body _ _ => sheltered_stmt body
  | .try _ body catches cleanup => by
    have hbody := sheltered_block body
    have hcatches := sheltered_catches catches
    refine ⟨fun A hall j hj => ?_, fun A free hall hleaps => ?_⟩
    all_goals
      rw [regionsStmt, List.forall_mem_cons, forall_mem_append, forall_mem_append] at hall
      obtain ⟨hself, ⟨hfirst, hmiddle⟩, -⟩ := hall
    · simp only [shutStmt, List.mem_append, not_or]
      exact ⟨⟨hbody.apart _ hfirst j (by simp [hj]), hcatches.apart _ hmiddle j (by simp [hj])⟩,
        hself j (by simp [hj])⟩
    · simp only [leapsStmt, shutStmt, List.mem_append] at hleaps
      refine ⟨hbody.leads _ free hfirst fun j hj => ?_, hcatches.leads _ free hmiddle fun j hj => ?_⟩
      · have hnot : j.target ∉ shutCatches catches := hcatches.apart _ hmiddle j (by simp [hj])
        have hnot' : j.target ∉ landingsBlock cleanup := hself j (by simp [hj])
        exact (hleaps j (.inl (.inl hj))).imp id fun h => (h.resolve_right hnot').resolve_right hnot
      · have hnot : j.target ∉ shutBlock body := hbody.apart _ hfirst j (by simp [hj])
        have hnot' : j.target ∉ landingsBlock cleanup := hself j (by simp [hj])
        exact (hleaps j (.inl (.inr hj))).imp id fun h => (h.resolve_right hnot').resolve_left hnot
  | .goto .. | .conditionalGoto .. | .break .. | .continue .. =>
    .plain fun free h => h _ List.mem_cons_self
  | .dispatch .. => .plain fun free h k hk => h ⟨k, false⟩ (List.mem_map_of_mem hk)
  | .absent | .sequencePoint .. | .noOp .. | .localDeclaration .. | .expression .. | .return ..
  | .yieldReturn .. | .yieldBreak .. | .throw .. | .label .. | .foreign .. =>
    .plain fun _ _ => trivial

theorem sheltered_stmts : ∀ ss : List Stmt,
    Sheltered (shutStmts ss) (leapsStmts ss) (fun free => LeadsAll free ss) (regionsStmts · ss)
  | [] => .plain fun _ _ => trivial
  | s :: rest => (sheltered_stmt s).append (sheltered_stmts rest)

/-- If no finally of a block is entered, its jumps outside of them lead to labels outside. -/
theorem sheltered_block : ∀ b : Block,
    Sheltered (shutBlock b) (leapsBlock b) (fun free => LeadsBlock free b) (regionsBlock · b)
  | .absent => .plain fun _ _ => trivial
  | .mk _ _ ss => sheltered_stmts ss

theorem sheltered_catches : ∀ cs : List Catch,
    Sheltered (shutCatches cs) (leapsCatches cs) (fun free => LeadsCatches free cs)
      (regionsCatches · cs)
  | [] => .plain fun _ _ => trivial
  | .mk _ _ body :: rest => (sheltered_block body).append (sheltered_catches rest)

end

/-! ## Lowered parts -/

theorem openStmts_append (a b : List Stmt) : openStmts (a ++ b) = openStmts a ++ openStmts b := by
  induction a with
  | nil => rfl
  | cons s rest ih => simp only [List.cons_append, openStmts, ih, List.append_assoc]

theorem shutStmts_append (a b : List Stmt) : shutStmts (a ++ b) = shutStmts a ++ shutStmts b := by
  induction a with
  | nil => rfl
  | cons s rest ih => simp only [List.cons_append, shutStmts, ih, List.append_assoc]

theorem leadsAll_append (free : Option Label → Prop) (a b : List Stmt) :
    LeadsAll free (a ++ b) ↔ LeadsAll free a ∧ LeadsAll free b := by
  induction a with
  | nil => simp [LeadsAll]
  | cons s rest ih => simp only [List.cons_append, LeadsAll, ih, and_assoc]

theorem openStmts_catches (cs : List Catch) :
    openStmts (cs.map fun c => .block c.body) = openCatches cs := by
  induction cs with
  | nil => rfl
  | cons c rest ih =>
    obtain ⟨o, l, body⟩ := c
    rw [List.map_cons, openStmts, ih, openCatches]
    rfl

theorem shutStmts_catches (cs : List Catch) :
    shutStmts (cs.map fun c => .block c.body) = shutCatches cs := by
  induction cs with
  | nil => rfl
  | cons c rest ih =>
    obtain ⟨o, l, body⟩ := c
    rw [List.map_cons, shutStmts, ih, shutCatches]
    rfl

theorem leadsAll_catches (free : Option Label → Prop) (cs : List Catch) :
    LeadsAll free (cs.map fun c => .block c.body) ↔ LeadsCatches free cs := by
  induction cs with
  | nil => rfl
  | cons c rest ih =>
    obtain ⟨o, l, body⟩ := c
    rw [List.map_cons, LeadsAll, ih, LeadsCatches]
    rfl

theorem open_splitTry (o : Origin) (body cleanup : Block) (catches : List Catch) :
    openStmt (splitTry o body catches cleanup) = openBlock body ++ openCatches catches := by
  unfold splitTry
  split <;> simp [openStmt, Made.block, openBlock, openStmts, openCatches]

theorem shut_splitTry (o : Origin) (body cleanup : Block) (catches : List Catch) :
    shutStmt (splitTry o body catches cleanup) =
      shutBlock body ++ shutCatches catches ++ landingsBlock cleanup := by
  unfold splitTry
  split <;> simp [shutStmt, Made.block, shutBlock, shutStmts, shutCatches, landingsBlock]

theorem leads_splitTry (free : Option Label → Prop) (o : Origin) (body cleanup : Block)
    (catches : List Catch) : Leads free (splitTry o body catches cleanup) ↔
      LeadsBlock free body ∧ LeadsCatches free catches := by
  unfold splitTry
  split <;> simp [Leads, Made.block, LeadsBlock, LeadsAll, LeadsCatches]

/-- Lowered statements in the place of a part of a tree: its labels are where they were, and its
jumps lead where they led and to the labels beside them. -/
structure Placed (opened shut : List (Option Label)) (leads : (Option Label → Prop) → Prop)
    (ts : List Stmt) : Prop where
  opened : ∀ l ∈ opened, l ∈ openStmts ts
  shut : ∀ l ∈ shut, l ∈ shutStmts ts
  leads : ∀ free, leads free → (∀ l ∈ openStmts ts, free l) → LeadsAll free ts

namespace Placed

variable {opened opened' shut shut' : List (Option Label)}
  {leads leads' : (Option Label → Prop) → Prop} {ts ts' : List Stmt}

theorem nil : Placed [] [] leads [] := ⟨fun _ hl => hl, fun _ hl => hl, fun _ _ _ => trivial⟩

theorem append (h : Placed opened shut leads ts) (h' : Placed opened' shut' leads' ts') :
    Placed (opened ++ opened') (shut ++ shut') (fun free => leads free ∧ leads' free)
      (ts ++ ts') where
  opened l hl := by
    rw [openStmts_append, List.mem_append]
    exact (List.mem_append.mp hl).imp (h.opened l) (h'.opened l)
  shut l hl := by
    rw [shutStmts_append, List.mem_append]
    exact (List.mem_append.mp hl).imp (h.shut l) (h'.shut l)
  leads free hleads hfree := by
    rw [openStmts_append, forall_mem_append] at hfree
    rw [leadsAll_append]
    exact ⟨h.leads free hleads.1 hfree.1, h'.leads free hleads.2 hfree.2⟩

/-- A statement that keeps its label and its jump. -/
theorem leaf {s : Stmt} (hopen : openStmt s = opened)
    (hleads : ∀ free, leads free → Leads free s) : Placed opened [] leads [s] where
  opened l hl := by simpa [openStmts, hopen] using hl
  shut _ hl := nomatch hl
  leads free h _ := ⟨hleads free h, trivial⟩

/-- Statements that are put into one with the same labels and jumps. -/
theorem into (h : Placed opened shut leads ts) {s : Stmt} (hopen : openStmt s = openStmts ts)
    (hshut : shutStmt s = shutStmts ts) (hleads : ∀ free, LeadsAll free ts → Leads free s) :
    Placed opened shut leads [s] where
  opened l hl := by simpa [openStmts, hopen] using h.opened l hl
  shut l hl := by simpa [shutStmts, hshut] using h.shut l hl
  leads free hfree hopened := by
    refine ⟨hleads free (h.leads free hfree ?_), trivial⟩
    simpa [openStmts, hopen] using hopened

/-- The markers of a block. -/
theorem marked (h : Placed opened shut leads ts) (p : Provenance) :
    Placed opened shut leads (markBlock p ts) := by
  have hmarker : ∀ place, Placed [] [] (fun _ => True) [Made.sequencePoint p place] := fun _ =>
    .leaf rfl fun _ _ => trivial
  have hopened := (hmarker p.openBrace).append h
  have hclosed := hopened.append (hmarker p.closeBrace)
  unfold markBlock
  split
  · simpa using hopened
  · simpa using hclosed

/-- Statements with labels between them, and jumps to these. -/
theorem joined (h : Placed opened shut leads ts) (o : Origin) (made : List (Option Label))
    (us : List Stmt) (hopen : ∀ l, l ∈ openStmts us ↔ l ∈ openStmts ts ∨ l ∈ made)
    (hshut : shutStmts us = shutStmts ts)
    (hleads : ∀ free, LeadsAll free ts → (∀ l ∈ made, free l) → LeadsAll free us) :
    Placed (opened ++ made) shut leads [.list o us] := by
  have hus : Placed (opened ++ made) shut leads us := by
    refine ⟨fun l hl => ?_, fun l hl => hshut ▸ h.shut l hl, fun free hfree hopened => ?_⟩
    · exact (hopen l).mpr ((List.mem_append.mp hl).imp (h.opened l) id)
    · exact hleads free (h.leads free hfree fun l hl => hopened l ((hopen l).mpr (.inl hl)))
        fun l hl => hopened l ((hopen l).mpr (.inr hl))
  exact hus.into rfl rfl fun _ hall => hall

theorem fewer (h : Placed opened shut leads ts) (hopened : ∀ l ∈ opened', l ∈ opened) :
    Placed opened' shut leads ts :=
  ⟨fun l hl => h.opened l (hopened l hl), h.shut, h.leads⟩

theorem branch {t : Option Stmt} (h : Placed opened shut leads t.toList) (o : Origin) (x : Expr)
    (done : Label) : Placed opened shut leads [Lowering.branch o x t done] := by
  refine (h.joined o [some done] _ (fun l => ?_) ?_ fun free hfree hmade => ?_).fewer
    fun l hl => List.mem_append_left _ hl
  · simp [openStmts, openStmts_append, openStmt, Made.gotoUnless, Made.label]
  · simp [shutStmts, shutStmts_append, shutStmt, Made.gotoUnless, Made.label]
  · simpa [LeadsAll, leadsAll_append, Leads, Made.gotoUnless, Made.label, hfree] using hmade

theorem branches {t f : Option Stmt} (h : Placed opened shut leads t.toList)
    (h' : Placed opened' shut' leads' f.toList) (o : Origin) (x : Expr) (otherwise done : Label) :
    Placed (opened ++ opened') (shut ++ shut') (fun free => leads free ∧ leads' free)
      [Lowering.branches o x t f otherwise done] := by
  refine ((h.append h').joined o [some otherwise, some done] _ (fun l => ?_) ?_
    fun free hfree hmade => ?_).fewer fun l hl => List.mem_append_left _ hl
  · simp only [openStmts, openStmts_append, openStmt, Made.gotoUnless, Made.label, Made.goto,
      List.mem_append, List.mem_cons, List.not_mem_nil]
    grind
  · simp [shutStmts, shutStmts_append, shutStmt, Made.gotoUnless, Made.label, Made.goto]
  · rw [leadsAll_append] at hfree
    simpa [LeadsAll, leadsAll_append, Leads, Made.gotoUnless, Made.label, Made.goto, hfree]
      using hmade

theorem looped {body : Option Stmt} (h : Placed opened shut leads body.toList) (o : Origin)
    (x : Expr) (exit again : Label) :
    Placed (some again :: opened ++ [some exit]) shut leads
      [Lowering.loop o x body exit again] := by
  refine (h.joined o [some again, some exit] _ (fun l => ?_) ?_ fun free hfree hmade => ?_).fewer
    fun l hl => ?_
  · simp only [openStmts, openStmts_append, openStmt, Made.gotoUnless, Made.label, Made.goto,
      List.mem_append, List.mem_cons, List.not_mem_nil, List.cons_append]
    grind
  · simp [shutStmts, shutStmts_append, shutStmt, Made.gotoUnless, Made.label, Made.goto]
  · simpa [LeadsAll, leadsAll_append, Leads, Made.gotoUnless, Made.label, Made.goto, hfree,
      and_comm] using hmade
  · simp only [List.mem_append, List.mem_cons] at hl ⊢
    grind

/-- A try whose finally keeps its labels. -/
theorem tried {body cleanup : Block} {catches : List Catch} (o : Origin)
    (h : Placed opened shut leads ([.block body] ++ catches.map fun c => .block c.body))
    {kept : List (Option Label)} (hkept : ∀ l ∈ kept, l ∈ landingsBlock cleanup) :
    Placed opened (shut ++ kept) leads [splitTry o body catches cleanup] := by
  have hopen : openStmts ([.block body] ++ catches.map fun c => .block c.body) =
      openStmts [splitTry o body catches cleanup] := by
    simp [openStmts_catches, openStmts, openStmt, open_splitTry]
  refine ⟨hopen ▸ h.opened, fun l hl => ?_, fun free hfree hopened => ⟨?_, trivial⟩⟩
  · rw [shutStmts, shut_splitTry, shutStmts, List.append_nil, List.mem_append]
    refine (List.mem_append.mp hl).imp (fun hl => ?_) (hkept l)
    simpa [shutStmts_append, shutStmts_catches, shutStmts, shutStmt] using h.shut l hl
  · rw [leads_splitTry]
    simpa [leadsAll_append, leadsAll_catches, LeadsAll, Leads] using
      h.leads free hfree (hopen ▸ hopened)

end Placed

mutual

theorem placed_stmt {markers : Bool} : ∀ {s : Stmt} {s' : Option Stmt}, WalkedStmt markers s s' →
    Placed (openStmt s) (shutStmt s) (fun free => Leads free s) s'.toList
  | .block b, _, ⟨b', hb, rfl⟩ => placed_block hb
  | .list o ss, _, ⟨ss', hss, rfl⟩ => (placed_stmts hss).into rfl rfl fun _ h => h
  | .noOp o, _, rfl => by
    unfold emptyBlock
    split
    · exact Placed.nil.into rfl rfl fun _ h => h
    · exact (Placed.leaf (s := Made.sequencePoint o.provenance o.span) rfl fun _ _ => trivial).into
        rfl rfl fun _ h => h
  | .localDeclaration .., _, .inl ⟨_, rfl⟩ => .nil
  | .localDeclaration .., _, .inr ⟨_, rfl⟩ | .sequencePoint .., _, rfl | .yieldBreak _, _, rfl
  | .label .., _, rfl | .expression .., _, ⟨_, rfl⟩ | .return .., _, ⟨_, rfl⟩
  | .throw .., _, ⟨_, rfl⟩ | .yieldReturn .., _, ⟨_, rfl⟩ => .leaf rfl fun _ _ => trivial
  | .break .., _, rfl | .continue .., _, rfl | .goto .., _, rfl
  | .conditionalGoto .., _, ⟨_, rfl⟩ | .dispatch .., _, ⟨_, rfl⟩ => .leaf rfl fun _ h => h
  | .if o x t f, _, ⟨_, t', done, ht, .inl ⟨hf, rfl⟩⟩ => by
    subst hf
    simpa [openStmt, shutStmt, Leads] using (placed_stmt ht).branch o x done
  | .if o x t f, _, ⟨_, t', done, ht, .inr ⟨f', otherwise, hf, rfl⟩⟩ =>
    (placed_stmt ht).branches (placed_stmt hf) o x otherwise done
  | .while o x body exit again, _, ⟨_, body', _, _, hbody, hexit, hagain, rfl⟩ => by
    subst hexit hagain
    exact (placed_stmt (s := body) hbody).looped o x _ _
  | .try o body catches cleanup, _, ⟨body', catches', cleanup', hbody, hcatches, hcleanup, rfl⟩ => by
    have hkept : ∀ l ∈ landingsBlock cleanup, l ∈ landingsBlock cleanup' := by
      rcases hcleanup with ⟨rfl, rfl⟩ | hcleanup
      · exact fun l hl => hl
      · have hplaced := placed_block hcleanup
        intro l hl
        rw [mem_landings_open] at hl ⊢
        refine hl.imp (fun hl => ?_) fun hl => ?_
        · simpa [openStmts, openStmt] using hplaced.opened l hl
        · simpa [shutStmts, shutStmt] using hplaced.shut l hl
    exact ((placed_block hbody).append (placed_catches hcatches)).tried o hkept
  | .absent, _, h | .foreign .., _, h => h.elim

theorem placed_stmts {markers : Bool} : ∀ {ss ss' : List Stmt}, WalkedStmts markers ss ss' →
    Placed (openStmts ss) (shutStmts ss) (fun free => LeadsAll free ss) ss'
  | [], _, rfl => .nil
  | _ :: _, _, ⟨_, _, hs, hrest, rfl⟩ => (placed_stmt hs).append (placed_stmts hrest)

/-- Lowering keeps where the labels of a block are, and where its jumps lead. -/
theorem placed_block {markers : Bool} : ∀ {b b' : Block}, WalkedBlock markers b b' →
    Placed (openBlock b) (shutBlock b) (fun free => LeadsBlock free b) [.block b']
  | .absent, _, h => h.elim
  | .mk _ _ _, _, ⟨_, hss, .inl ⟨_, rfl⟩⟩ => (placed_stmts hss).into rfl rfl fun _ h => h
  | .mk _ _ _, _, ⟨_, hss, .inr ⟨_, p, _, _, rfl⟩⟩ =>
    ((placed_stmts hss).marked p).into rfl rfl fun _ h => h

theorem placed_catches {markers : Bool} : ∀ {cs cs' : List Catch}, WalkedCatches markers cs cs' →
    Placed (openCatches cs) (shutCatches cs) (fun free => LeadsCatches free cs)
      (cs'.map fun c => .block c.body)
  | [], _, rfl => .nil
  | .mk .. :: _, _, ⟨_, _, hbody, hrest, rfl⟩ => (placed_block hbody).append (placed_catches hrest)

end

/-- If no finally of a method is entered, the jumps of its lowered body that stand outside of the
finallys lead to labels outside of them. -/
theorem leads_walked {m : MethodBody} (hm : BoundMethod m)
    (hunentered : ∀ r ∈ regionsBlock [] m.body, r.Unentered) {markers : Bool} {b : Block}
    (hwalked : WalkedBlock markers m.body b) : LeadsBlock (· ∈ openBlock b) b := by
  have hplaced := placed_block hwalked
  have hopen : openStmts [.block b] = openBlock b := by simp [openStmts, openStmt]
  have hleads : LeadsBlock (· ∈ openBlock b) m.body := by
    refine (sheltered_block m.body).leads [] _ hunentered fun j hj => ?_
    rcases (mem_landings_open m.body).mp (hm.targets j hj) with hin | hin
    · exact .inl (hopen ▸ hplaced.opened _ hin)
    · exact .inr hin
  exact (hplaced.leads _ hleads fun l hl => hopen ▸ hl).1

/-! ## Orderly bodies -/

mutual

/-- The lowered statement throws nothing again, its jumps outside of finallys go to free labels, and
no label in a finally is free. -/
def Orderly (free : Option Label → Prop) : Stmt → Prop
  | .block b => OrderlyBlock free b
  | .list _ ss => OrderlyAll free ss
  | .goto _ l | .conditionalGoto _ _ _ l => free l
  | .throw _ e => e ≠ .absent
  | .try _ body catches cleanup => OrderlyBlock free body ∧ OrderlyCatches free catches ∧
    ∀ l ∈ landingsBlock cleanup, ¬ free l
  | _ => True

/-- The statements are orderly. -/
def OrderlyAll (free : Option Label → Prop) : List Stmt → Prop
  | [] => True
  | s :: rest => Orderly free s ∧ OrderlyAll free rest

/-- The block is orderly. -/
def OrderlyBlock (free : Option Label → Prop) : Block → Prop
  | .absent => True
  | .mk _ _ ss => OrderlyAll free ss

/-- The handlers are orderly. -/
def OrderlyCatches (free : Option Label → Prop) : List Catch → Prop
  | [] => True
  | .mk _ _ body :: rest => OrderlyBlock free body ∧ OrderlyCatches free rest

end

section Orderly

variable {free : Option Label → Prop} {markers : Bool}

mutual

theorem orderly_of_leads : ∀ {s : Stmt}, Settled markers false s → Leads free s →
    (∀ l ∈ shutStmt s, ¬ free l) → Orderly free s
  | .block b, hs, hleads, hshut => orderlyBlock_of_leads (b := b) hs hleads hshut
  | .list _ ss, hs, hleads, hshut => @orderlyAll_of_leads ss hs hleads hshut
  | .goto .., _, hleads, _ | .conditionalGoto .., _, hleads, _ => hleads
  | .throw .., hs, _, _ => hs.resolve_left Bool.false_ne_true
  | .try _ body catches cleanup, ⟨hbody, hcatches, _⟩, hleads, hshut => by
    rw [shutStmt, forall_mem_append, forall_mem_append] at hshut
    exact ⟨orderlyBlock_of_leads hbody hleads.1 hshut.1.1,
      orderlyCatches_of_leads hcatches hleads.2 hshut.1.2, hshut.2⟩
  | .sequencePoint .., _, _, _ | .expression .., _, _, _ | .return .., _, _, _
  | .yieldReturn .., _, _, _ | .yieldBreak _, _, _, _ | .label .., _, _, _
  | .dispatch .., _, _, _ => trivial
  | .absent, hs, _, _ | .noOp .., hs, _, _ | .localDeclaration .., hs, _, _ | .if .., hs, _, _
  | .while .., hs, _, _ | .break .., hs, _, _ | .continue .., hs, _, _
  | .foreign .., hs, _, _ => hs.elim

theorem orderlyAll_of_leads : ∀ {ss : List Stmt}, SettledAll markers false ss → LeadsAll free ss →
    (∀ l ∈ shutStmts ss, ¬ free l) → OrderlyAll free ss
  | [], _, _, _ => trivial
  | _ :: _, hss, hleads, hshut => by
    rw [shutStmts, forall_mem_append] at hshut
    exact ⟨orderly_of_leads hss.1 hleads.1 hshut.1, orderlyAll_of_leads hss.2 hleads.2 hshut.2⟩

/-- A lowered block is orderly if it throws nothing again and its jumps lead to free labels. -/
theorem orderlyBlock_of_leads : ∀ {b : Block}, SettledBlock markers false b → LeadsBlock free b →
    (∀ l ∈ shutBlock b, ¬ free l) → OrderlyBlock free b
  | .absent, hb, _, _ => hb.elim
  | .mk _ _ ss, hb, hleads, hshut => @orderlyAll_of_leads ss hb.2 hleads hshut

theorem orderlyCatches_of_leads : ∀ {cs : List Catch}, SettledCatches markers false cs →
    LeadsCatches free cs → (∀ l ∈ shutCatches cs, ¬ free l) → OrderlyCatches free cs
  | [], _, _, _ => trivial
  | .mk .. :: _, hcs, hleads, hshut => by
    rw [shutCatches, forall_mem_append] at hshut
    exact ⟨orderlyBlock_of_leads hcs.1 hleads.1 hshut.1,
      orderlyCatches_of_leads hcs.2 hleads.2 hshut.2⟩

end

end Orderly

end Resumable.StateMachine
