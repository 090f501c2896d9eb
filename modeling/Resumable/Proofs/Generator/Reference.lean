import Mathlib.Data.List.Nodup
import Resumable.Proofs.Machine.Call
import Resumable.Proofs.Machine.Flow
import Resumable.Proofs.StateMachine.Bodies
import Resumable.Session.Enumerator

/-!
# Generators

The lowered body of a resumable method as a program of its own, in which a suspension gives out its
element and goes on behind it, and an end of the elements is a jump to the end of the body
(`generatorBody`).  An observer knows the elements (`Observer.elements`), so a run of the body rests
at each of them, and what a generator answers to so many requests can be told from its runs
(`generate`), as it can for an enumerator (`Enumerator.answers`).
-/

set_option autoImplicit false

namespace Resumable.StateMachine

open Resumable.Symbol Resumable.Tree Resumable.Source Resumable.Lowering
open Resumable.Machine hiding Region Outcome

/-! ## The body of a generator -/

/-- An assignment of the value to nothing, which gives it out. -/
def givenOut (e : Expr) : Expr := .assignment {} .absent e

/-- The label behind the suspension with the number; `base` labels were made before them. -/
def yieldLabel (base : Nat) (i : Int) : Label := .generated "yield" (base + i)

mutual

/-- The statement as a part of a generator that ends at `exit`; `k` suspensions stand before it. -/
def emitStmt (exit : Label) (base k : Nat) : Stmt → Stmt
  | .block b => .block (emitBlock exit base k b)
  | .list o ss => .list o (emitStmts exit base k ss)
  | .yieldReturn o e =>
    .list o [.expression o (givenOut e), .label o (some (yieldLabel base (k + 1 : Nat)))]
  | .yieldBreak o => .goto o (some exit)
  | .try o body catches cleanup =>
    .try o (emitBlock exit base k body)
      (emitCatches exit base (k + (elementsBlock body).length) catches)
      (emitBlock exit base (k + ((elementsBlock body).length + (elementsCatches catches).length))
        cleanup)
  | s => s

/-- The statements as a part of a generator. -/
def emitStmts (exit : Label) (base k : Nat) : List Stmt → List Stmt
  | [] => []
  | s :: rest =>
    emitStmt exit base k s :: emitStmts exit base (k + (elementsStmt s).length) rest

/-- The block as a part of a generator. -/
def emitBlock (exit : Label) (base k : Nat) : Block → Block
  | .absent => .absent
  | .mk o locals ss => .mk o locals (emitStmts exit base k ss)

/-- The handlers as a part of a generator. -/
def emitCatches (exit : Label) (base k : Nat) : List Catch → List Catch
  | [] => []
  | .mk o l body :: rest =>
    .mk o l (emitBlock exit base k body) ::
      emitCatches exit base (k + (elementsBlock body).length) rest

end

/-- A lowered body as a generator, with the end of the body behind it; `made` labels are in it. -/
def generatorOf (made : Nat) (body : Block) : Block :=
  let exit := Label.generated "exit" (made + 1 : Nat)
  .mk {} [] [.block (emitBlock exit (made + 1) 0 body), .label {} (some exit)]

/-- The lowered body of a method, and how many labels are in it. -/
def walkedBody (markers : Bool) (m : MethodBody) : Block × Nat :=
  match (walkBlock markers m.body).outcome with
  | (.ok body, made) => (body, made)
  | (.error _, made) => (.absent, made)

/-- The body of the generator that a resumable method stands for. -/
def generatorBody (markers : Bool) (m : MethodBody) : Block :=
  generatorOf (walkedBody markers m).2 (walkedBody markers m).1

/-! ## Labels directly before extracted tries -/

mutual

/-- Whether a jump inside of an extracted try of the statement goes to a label directly before the try;
the labels in `near` stand directly before the statement. -/
def restartsStmt (near : List (Option Label)) : Stmt → Bool
  | .block b => restartsBlock near b
  | .list _ ss => restartsStmts near ss
  | .try _ body catches cleanup =>
    (if framed body cleanup then (targetsBlock body).any (near.contains ·) || restartsBlock [] body
      else restartsBlock near body) || (restartsCatches catches || restartsBlock [] cleanup)
  | _ => false

/-- Whether one inside of an extracted try of the statements does. -/
def restartsStmts (near : List (Option Label)) : List Stmt → Bool
  | [] => false
  | s :: rest => restartsStmt near s || restartsStmts (follow near s) rest

/-- Whether one inside of an extracted try of the block does. -/
def restartsBlock (near : List (Option Label)) : Block → Bool
  | .absent => false
  | .mk _ _ ss => restartsStmts near ss

/-- Whether one inside of an extracted try of the handlers does. -/
def restartsCatches : List Catch → Bool
  | [] => false
  | .mk _ _ body :: rest => restartsBlock [] body || restartsCatches rest

end

end Resumable.StateMachine

namespace Resumable.Machine

open Resumable.Symbol Resumable.Tree

variable {σ : Type}

/-- The observer that knows the elements of generators. -/
def Observer.elements : Observer σ where
  element?
    | .assignment _ .absent e => some e
    | _ => none

end Resumable.Machine

namespace Resumable.Session

open Resumable.Symbol Resumable.Tree Resumable.StateMachine
open Resumable.Machine hiding Region Outcome

variable {σ : Type}

/-! ## Answers -/

/-- What comes of a request for the next element. -/
inductive Answer where
  | element (v : Value)
  /-- There are no more elements. -/
  | done
  | failed (f : Failure)
  deriving DecidableEq, Repr, Inhabited

/-- The answers of a generator to `n` requests, or fewer if it comes to an end, each with what the host
methods keep by then.  It goes on at `pc`, and each run gets `steps` steps. -/
def generate (m : Machine σ) (steps : Nat) (r : Routine) :
    Nat → Nat → Config σ → Option (List (Answer × σ))
  | 0, _, _ => some []
  | n + 1, pc, c => do
    let (result, c) ←
      Observer.elements.run (contextWithin m steps (maxDepth - 1) r.method) r steps r.range pc c
    match result with
    | .ok (.suspended v next) => do
      let rest ← generate m steps r n next c
      return (.element v, c.world.hosts) :: rest
    | .ok _ => return [(.done, c.world.hosts)]
    | .error f => return [(.failed f, c.world.hosts)]

/-- The answers of an enumerator in the same way. -/
def Enumerator.answers (m : Machine σ) (steps : Nat) (e : Enumerator) :
    Nat → World σ → Option (List (Answer × σ))
  | 0, _ => some []
  | n + 1, w => do
    let (result, w) ← e.moveNext m steps w
    match result with
    | .ok true => do
      let rest ← Enumerator.answers m steps e n w
      return (.element (e.current w), w.hosts) :: rest
    | .ok false => return [(.done, w.hosts)]
    | .error f => return [(.failed f, w.hosts)]

/-- The failures are the same, or they have the same reasons in another order. -/
def Same (f g : Failure) : Prop :=
  g = f ∨ ∃ xs ys, f = .aggregate xs ∧ g = .aggregate ys ∧ ys.Perm xs

/-- The answers are the same, if those of failures are. -/
def Answer.Alike : Answer → Answer → Prop
  | .failed f, .failed g => Same f g
  | a, b => b = a

end Resumable.Session

namespace Resumable.StateMachine

open Resumable.Symbol Resumable.Tree Resumable.Source Resumable.Lowering
open Resumable.Machine hiding Region Outcome

/-! ## Labels of a generator -/

variable {exit : Label} {base : Nat}

/-- The labels behind the `n` suspensions before which `k` others stand. -/
def yieldLabels (base k n : Nat) : List (Option Label) :=
  (List.range' (k + 1) n).map fun i : Nat => some (yieldLabel base i)

theorem yieldLabels_append (k n n' : Nat) :
    yieldLabels base k (n + n') = yieldLabels base k n ++ yieldLabels base (k + n) n' := by
  rw [yieldLabels, ← List.range'_append_1, List.map_append, yieldLabels, yieldLabels,
    Nat.add_right_comm]

/-- The labels of a part and those behind its suspensions. -/
theorem perm_yields {xs ys as bs : List (Option Label)} {k n n' : Nat}
    (h : xs.Perm (as ++ yieldLabels base k n)) (h' : ys.Perm (bs ++ yieldLabels base (k + n) n')) :
    (xs ++ ys).Perm (as ++ bs ++ yieldLabels base k (n + n')) := by
  rw [yieldLabels_append]
  refine (h.append h').trans ?_
  simp only [List.append_assoc]
  exact (List.perm_append_comm_assoc _ _ _).append_left as

mutual

theorem labels_emitStmt (k : Nat) : ∀ s : Stmt, (labelsStmt (emitStmt exit base k s)).Perm
    (labelsStmt s ++ yieldLabels base k (elementsStmt s).length)
  | .block b => labels_emitBlock k b
  | .list _ ss => labels_emitStmts k ss
  | .try _ body catches cleanup => by
    simp only [emitStmt, labelsStmt, elementsStmt, List.length_append]
    exact perm_yields (perm_yields (labels_emitBlock k body) (labels_emitCatches _ catches))
      (labels_emitBlock _ cleanup)
  | .yieldReturn .. => by
    simp [emitStmt, labelsStmt, labelsStmts, elementsStmt, yieldLabels]
  | .yieldBreak _ | .absent | .noOp .. | .localDeclaration .. | .if .. | .while .. | .break ..
  | .continue .. | .foreign .. | .label .. | .sequencePoint .. | .expression .. | .return ..
  | .throw .. | .goto .. | .conditionalGoto .. | .dispatch .. => by
    simp [emitStmt, labelsStmt, elementsStmt, yieldLabels]

theorem labels_emitStmts (k : Nat) : ∀ ss : List Stmt, (labelsStmts (emitStmts exit base k ss)).Perm
    (labelsStmts ss ++ yieldLabels base k (elementsStmts ss).length)
  | [] => by simp [emitStmts, labelsStmts, elementsStmts, yieldLabels]
  | s :: rest => by
    simp only [emitStmts, labelsStmts, elementsStmts, List.length_append]
    exact perm_yields (labels_emitStmt k s) (labels_emitStmts _ rest)

/-- A part of a generator has the labels of the part of the body, and one behind each suspension. -/
theorem labels_emitBlock (k : Nat) : ∀ b : Block, (labelsBlock (emitBlock exit base k b)).Perm
    (labelsBlock b ++ yieldLabels base k (elementsBlock b).length)
  | .absent => by simp [emitBlock, labelsBlock, elementsBlock, yieldLabels]
  | .mk _ _ ss => labels_emitStmts k ss

theorem labels_emitCatches (k : Nat) : ∀ cs : List Catch,
    (labelsCatches (emitCatches exit base k cs)).Perm
      (labelsCatches cs ++ yieldLabels base k (elementsCatches cs).length)
  | [] => by simp [emitCatches, labelsCatches, elementsCatches, yieldLabels]
  | .mk _ _ body :: rest => by
    simp only [emitCatches, labelsCatches, elementsCatches, List.length_append]
    exact perm_yields (labels_emitBlock k body) (labels_emitCatches _ rest)

end

/-! ## Generators can be executed -/

mutual

theorem targets_emitStmt (k : Nat) : ∀ s : Stmt, ∀ l ∈ targetsStmt (emitStmt exit base k s),
    l ∈ targetsStmt s ∨ l = some exit
  | .block b => targets_emitBlock k b
  | .list _ ss => targets_emitStmts k ss
  | .try _ body catches cleanup => by
    intro l hl
    simp only [emitStmt, targetsStmt, List.mem_append] at hl ⊢
    rcases hl with (hl | hl) | hl
    · exact (targets_emitBlock k body l hl).imp_left fun h => .inl (.inl h)
    · exact (targets_emitCatches _ catches l hl).imp_left fun h => .inl (.inr h)
    · exact (targets_emitBlock _ cleanup l hl).imp_left .inr
  | .yieldBreak _ => by simp [emitStmt, targetsStmt]
  | .yieldReturn .. => by simp [emitStmt, targetsStmt, targetsStmts]
  | .absent | .noOp .. | .localDeclaration .. | .if .. | .while .. | .break .. | .continue ..
  | .foreign .. | .label .. | .sequencePoint .. | .expression .. | .return .. | .throw .. | .goto ..
  | .conditionalGoto .. | .dispatch .. => fun _ hl => .inl hl

theorem targets_emitStmts (k : Nat) : ∀ ss : List Stmt,
    ∀ l ∈ targetsStmts (emitStmts exit base k ss), l ∈ targetsStmts ss ∨ l = some exit
  | [] => fun _ hl => .inl hl
  | s :: rest => by
    intro l hl
    simp only [emitStmts, targetsStmts, List.mem_append] at hl ⊢
    rcases hl with hl | hl
    · exact (targets_emitStmt k s l hl).imp_left .inl
    · exact (targets_emitStmts _ rest l hl).imp_left .inr

/-- A part of a generator jumps where the part of the body does, and to the end. -/
theorem targets_emitBlock (k : Nat) : ∀ b : Block, ∀ l ∈ targetsBlock (emitBlock exit base k b),
    l ∈ targetsBlock b ∨ l = some exit
  | .absent => fun _ hl => .inl hl
  | .mk _ _ ss => targets_emitStmts k ss

theorem targets_emitCatches (k : Nat) : ∀ cs : List Catch,
    ∀ l ∈ targetsCatches (emitCatches exit base k cs), l ∈ targetsCatches cs ∨ l = some exit
  | [] => fun _ hl => .inl hl
  | .mk _ _ body :: rest => by
    intro l hl
    simp only [emitCatches, targetsCatches, List.mem_append] at hl ⊢
    rcases hl with hl | hl
    · exact (targets_emitBlock k body l hl).imp_left .inl
    · exact (targets_emitCatches _ rest l hl).imp_left .inr

end

section Lowered

variable {P : Expr → Prop}

mutual

theorem lowered_emitStmt (k : Nat) : ∀ {s : Stmt}, Ready P s →
    loweredStmt (emitStmt exit base k s) = true
  | .block b, h => lowered_emitBlock k (b := b) h
  | .list _ ss, h => @lowered_emitStmts k ss h
  | .try _ body catches cleanup, ⟨hbody, hcatches, hcleanup, _⟩ => by
    simp only [emitStmt, loweredStmt, Bool.and_eq_true]
    refine ⟨⟨lowered_emitBlock k hbody, lowered_emitCatches _ hcatches⟩, ?_⟩
    rcases hcleanup with rfl | hcleanup
    · rfl
    · exact lowered_emitBlock _ hcleanup
  | .sequencePoint .., _ | .expression .., _ | .return .., _ | .yieldReturn .., _ | .yieldBreak _, _
  | .throw .., _ | .label .., _ | .goto .., _ | .conditionalGoto .., _ => rfl
  | .absent, h | .noOp .., h | .localDeclaration .., h | .if .., h | .while .., h | .break .., h
  | .continue .., h | .dispatch .., h | .foreign .., h => h.elim

theorem lowered_emitStmts (k : Nat) : ∀ {ss : List Stmt}, ReadyAll P ss →
    loweredStmts (emitStmts exit base k ss) = true
  | [], _ => rfl
  | _ :: _, h => by
    simp only [emitStmts, loweredStmts, Bool.and_eq_true]
    exact ⟨lowered_emitStmt k h.1, lowered_emitStmts _ h.2⟩

/-- A part of a generator has the lowered form. -/
theorem lowered_emitBlock (k : Nat) : ∀ {b : Block}, ReadyBlock P b →
    loweredBlock (emitBlock exit base k b) = true
  | .absent, h => h.elim
  | .mk _ _ ss, h => @lowered_emitStmts k ss h.2

theorem lowered_emitCatches (k : Nat) : ∀ {cs : List Catch}, ReadyCatches P cs →
    loweredCatches (emitCatches exit base k cs) = true
  | [], _ => rfl
  | .mk .. :: _, h => by
    simp only [emitCatches, loweredCatches, Bool.and_eq_true]
    exact ⟨lowered_emitBlock k h.1, lowered_emitCatches _ h.2⟩

end

/-- The labels behind suspensions are made behind those that are there. -/
theorem numbered_yieldLabels (base k n : Nat) :
    Numbered (base + k) (base + k + n) (yieldLabels base k n) where
  le := Nat.le_add_right _ _
  nodup := by
    refine List.Nodup.map (fun i j hij => ?_) List.nodup_range'
    simp only [yieldLabel, Option.some.injEq, Label.generated.injEq, true_and] at hij
    omega
  numbered l hl := by
    obtain ⟨i, hi, rfl⟩ := List.mem_map.mp hl
    obtain ⟨h, h'⟩ := List.mem_range'_1.mp hi
    refine ⟨"yield", base + i, by simp [yieldLabel], by omega, by omega, by decide, by decide⟩

/-- A body in the lowered form whose labels were made before and whose jumps go to them is one that
can be executed, as a generator. -/
theorem executable_generatorOf {made : Nat} {body : Block} (hready : ReadyBlock P body)
    (hnodup : (labelsBlock body).Nodup) (hearlier : ∀ l ∈ labelsBlock body, Earlier made l)
    (htargets : ∀ l ∈ targetsBlock body, l ∈ labelsBlock body) :
    Executable (generatorOf made body) := by
  have hperm : (labelsBlock (emitBlock (.generated "exit" (made + 1 : Nat)) (made + 1) 0 body)).Perm
      (labelsBlock body ++ yieldLabels (made + 1) 0 (elementsBlock body).length) :=
    labels_emitBlock 0 body
  have hexit : Numbered made (made + 1) [some (.generated "exit" (made + 1 : Nat))] :=
    .single (by decide) (by decide)
  have hyields := numbered_yieldLabels (made + 1) 0 (elementsBlock body).length
  have hlabels : (labelsBlock (generatorOf made body)).Perm (labelsBlock body ++
      ([some (.generated "exit" (made + 1 : Nat))] ++
        yieldLabels (made + 1) 0 (elementsBlock body).length)) := by
    simp only [generatorOf, labelsBlock, labelsStmts, labelsStmt, List.append_nil]
    refine (hperm.append_right _).trans ?_
    rw [List.append_assoc]
    exact List.perm_append_comm.append_left _
  refine ⟨by simp [generatorOf], ?_, ?_, ?_⟩
  · simp only [generatorOf, loweredBlock, loweredStmts, loweredStmt, Bool.and_true]
    exact lowered_emitBlock 0 hready
  · rw [hlabels.nodup_iff]
    exact nodup_of_numbered hnodup hearlier (hexit.append hyields)
  · intro l hl
    have hl' : l ∈ targetsBlock body ∨ l = some (.generated "exit" (made + 1 : Nat)) := by
      have hmem : l ∈ targetsBlock
          (emitBlock (.generated "exit" (made + 1 : Nat)) (made + 1) 0 body) := by
        simpa [generatorOf, targetsBlock, targetsStmts, targetsStmt] using hl
      exact targets_emitBlock 0 body l hmem
    rw [hlabels.mem_iff, List.mem_append, List.mem_append]
    rcases hl' with hl' | rfl
    · have hmem := htargets l hl'
      exact ⟨.inl hmem, (hearlier l hmem).ne_none⟩
    · simp

end Lowered

end Resumable.StateMachine
