import Resumable.Proofs.Session.Tracking

/-!
# Where frames are entered

A frame is entered by the instruction that sets its state, which stands directly before its label
(`imageBlock_enters`).  Where the machine resumes inside the frame, it goes to the label and passes
this instruction by.
-/

set_option autoImplicit false

namespace Resumable.StateMachine

open Resumable.Symbol Resumable.Tree Resumable.Source Resumable.Lowering
open Resumable.Machine hiding Region Outcome Handler

/-- In the code that begins at `pc`, the instruction that sets the state of the frame stands
directly before the label of the frame. -/
def EntersFrame (plan : Plan) (f : Frame) (pc : Nat) (code : Fragment) : Prop :=
  ∃ p, (some f.entry, pc + p + 1) ∈ code.labels ∧
    code.instrs[p]? = some (.exec (stateAssignment plan.provenance plan.state f.state))

section Enters

variable {plan : Plan} {f : Frame} {pc : Nat}

theorem EntersFrame.append_left {a : Fragment} (h : EntersFrame plan f pc a) (b : Fragment) :
    EntersFrame plan f pc (a ++ b) := by
  obtain ⟨p, hlabel, hinstr⟩ := h
  obtain ⟨hlt, -⟩ := List.getElem?_eq_some_iff.mp hinstr
  exact ⟨p, List.mem_append_left _ hlabel, (List.getElem?_append_left hlt).trans hinstr⟩

theorem EntersFrame.append_right {b : Fragment} {n : Nat} (h : EntersFrame plan f (pc + n) b)
    {a : Fragment} (ha : a.instrs.length = n) : EntersFrame plan f pc (a ++ b) := by
  obtain ⟨p, hlabel, hinstr⟩ := h
  subst ha
  refine ⟨a.instrs.length + p, List.mem_append_right _ ?_, ?_⟩
  · rwa [← Nat.add_assoc]
  · rw [Fragment.append_instrs, List.getElem?_append_right (Nat.le_add_right _ _),
      Nat.add_sub_cancel_left, hinstr]

/-- The code of a frame: two instructions, the code inside it, and the call of its finally. -/
theorem flatten_region (plan : Plan) (o body : Origin) (f : Frame) (start : Label) (b' : Block)
    (ways : List Stmt) (pc : Nat) :
    flattenStmt pc (region plan o body f start b'.statements ways) =
      (.one (.exec (stateAssignment plan.provenance plan.state f.state)) ++
        ({ labels := [(some f.entry, pc + 1)] } ++ (flattenStmt (pc + 1) (.dispatch
          (.made o.provenance) plan.stateRef (Contents.resumeCases ⟨f.suspensions, f.children⟩)
          (some start)) ++ { labels := [(some start, pc + 2)] }))) ++
      (flattenBlock (pc + 2) b' ++
        flattenStmts (pc + 2 + sizeBlock b') (callCleanup o.provenance f :: ways)) := by
  have hblock : flattenBlock (pc + 2) b' = flattenStmts (pc + 2) b'.statements := by
    cases b' <;> rfl
  have hsize : pc + 2 + sizeBlock b' = pc + 1 + 0 + sizeStmt (.block (.mk body.asGenerated []
      (.dispatch (.made o.provenance) plan.stateRef
        (Contents.resumeCases ⟨f.suspensions, f.children⟩) (some start) ::
          Made.label o.provenance start :: b'.statements))) := by
    rw [← Block.sizeBlock_statements]
    simp only [sizeStmt, sizeBlock, sizeStmts, Made.label]
    omega
  rw [hblock, hsize]
  simp only [Fragment.append_assoc]
  rfl

/-- A frame is entered at the first instruction of its code, and the frames inside it are entered
behind that. -/
theorem enters_region (plan : Plan) (o body : Origin) (f : Frame) (start : Label) (b' : Block)
    (ways : List Stmt) (pc : Nat) :
    EntersFrame plan f pc (flattenStmt pc (region plan o body f start b'.statements ways)) ∧
      ∀ g, EntersFrame plan g (pc + 2) (flattenBlock (pc + 2) b') →
        EntersFrame plan g pc (flattenStmt pc (region plan o body f start b'.statements ways)) := by
  rw [flatten_region]
  exact ⟨.append_left ⟨0, by simp, rfl⟩ _, fun g hg => .append_right (hg.append_left _) rfl⟩

end Enters

section Image

variable {plan : Plan} {T : Table} {element : Int → Expr → Prop}

mutual

theorem image_enters : ∀ {s : Stmt} {frame : Int} {c : Contents} {t : Stmt},
    Image plan T element frame s c t → ∀ pc, ∀ f ∈ Frame.preorderAll c.children,
      EntersFrame plan f pc (flattenStmt pc t)
  | .block b, _, _, _, ⟨_, h, rfl⟩ => imageBlock_enters (b := b) h
  | .list _ ss, frame, c, _, ⟨ts, h, rfl⟩ => @imageAll_enters ss frame c ts h
  | .yieldReturn .., _, _, _, ⟨_, rfl, _⟩ | .yieldBreak _, _, _, _, ⟨rfl, _⟩
  | .goto .., _, _, _, ⟨rfl, _⟩ | .conditionalGoto .., _, _, _, ⟨rfl, _⟩
  | .label .., _, _, _, ⟨rfl, _⟩ | .sequencePoint .., _, _, _, ⟨rfl, _⟩
  | .expression .., _, _, _, ⟨rfl, _⟩ | .throw .., _, _, _, ⟨rfl, _⟩ =>
    fun _ f hf => nomatch hf
  | .try .., _, _, _, h => by
    rw [Image] at h
    split at h
    · obtain ⟨f, start, b', ways, rfl, -, -, himage, -, rfl⟩ := h
      intro pc g hg
      obtain ⟨hself, hinside⟩ := enters_region plan _ _ f start b' ways pc
      rw [Frame.preorderAll, Frame.preorderAll, List.append_nil, Frame.preorder_eq,
        List.mem_cons] at hg
      rcases hg with rfl | hg
      · exact hself
      · exact hinside g (imageBlock_enters himage (pc + 2) g hg)
    · obtain ⟨rfl, -⟩ := h
      exact fun _ f hf => nomatch hf
  | .absent, _, _, _, h | .noOp .., _, _, _, h | .localDeclaration .., _, _, _, h
  | .return .., _, _, _, h | .if .., _, _, _, h | .while .., _, _, _, h | .break .., _, _, _, h
  | .continue .., _, _, _, h | .dispatch .., _, _, _, h | .foreign .., _, _, _, h => h.elim

theorem imageAll_enters : ∀ {ss : List Stmt} {frame : Int} {c : Contents} {ts : List Stmt},
    ImageAll plan T element frame ss c ts → ∀ pc, ∀ f ∈ Frame.preorderAll c.children,
      EntersFrame plan f pc (flattenStmts pc ts)
  | [], _, _, _, ⟨rfl, _⟩ => fun _ f hf => nomatch hf
  | _ :: _, _, _, _, ⟨_, _, t, ts, h, h', rfl, rfl⟩ => by
    intro pc f hf
    rw [Contents.append, Frame.preorderAll_append, List.mem_append] at hf
    rw [flattenStmts]
    rcases hf with hf | hf
    · exact (image_enters h pc f hf).append_left _
    · exact (imageAll_enters h' (pc + sizeStmt t) f hf).append_right (fits_stmt pc t).length

/-- Each frame of a body is entered in the image of the body. -/
theorem imageBlock_enters : ∀ {b : Block} {frame : Int} {c : Contents} {b' : Block},
    ImageBlock plan T element frame b c b' → ∀ pc, ∀ f ∈ Frame.preorderAll c.children,
      EntersFrame plan f pc (flattenBlock pc b')
  | .absent, _, _, _, h => h.elim
  | .mk _ _ ss, frame, c, _, ⟨ts, h, rfl⟩ => @imageAll_enters ss frame c ts h

end

end Image

end Resumable.StateMachine
