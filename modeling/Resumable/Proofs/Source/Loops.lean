import Resumable.Proofs.Source.Resolution

/-!
# Jumps of loops

Loops are numbered in the order in which they begin, and their labels carry their numbers.  A break
or continue goes to a loop around it, so the numbers tell that it does not go from one part of a
body into another.
-/

set_option autoImplicit false

namespace Resumable.Source

open Resumable.Symbol Resumable.Tree

/-- The labels and jumps of a part of a body in which the loops with the numbers behind `n` up to `m`
begin: labels of loops carry these numbers, and jumps of loops go to them or to the loop around. -/
structure Looped (loop : Option (Label × Label)) (n m : Nat) (landings : List (Option Label))
    (leaps : List Leap) : Prop where
  le : n ≤ m
  placed : ∀ l ∈ landings, (∃ name, l = some (.user name)) ∨ LoopLabel n m l
  jumps : ∀ j ∈ leaps, j.ofLoop = true → Leaves loop j.target ∨ LoopLabel n m j.target

theorem LoopLabel.mono {n n' m m' : Nat} {l : Option Label} (h : LoopLabel n m l) (hn : n' ≤ n)
    (hm : m ≤ m') : LoopLabel n' m' l := by
  obtain ⟨k, hlow, hhigh, hk⟩ := h
  exact ⟨k, by omega, by omega, hk⟩

theorem LoopLabel.not_behind {n m k j : Nat} {l : Option Label} (h : LoopLabel n m l)
    (hle : m ≤ k) : ¬ LoopLabel k j l := by
  obtain ⟨a, -, hhigh, ha⟩ := h
  rintro ⟨b, hlow, -, hb⟩
  rcases ha with rfl | rfl <;> simp at hb <;> omega

namespace Looped

variable {loop : Option (Label × Label)} {n m k : Nat} {ls ls' : List (Option Label)}
  {js js' : List Leap}

theorem leaf (hplaced : ∀ l ∈ ls, ∃ name, l = some (.user name))
    (hjumps : ∀ j ∈ js, j.ofLoop = true → Leaves loop j.target) : Looped loop n n ls js where
  le := Nat.le_refl n
  placed l hl := .inl (hplaced l hl)
  jumps j hj hof := .inl (hjumps j hj hof)

theorem still : Looped loop n n [] [] :=
  leaf (fun _ h => nomatch h) fun _ h => nomatch h

theorem append (h : Looped loop n k ls js) (h' : Looped loop k m ls' js') :
    Looped loop n m (ls ++ ls') (js ++ js') where
  le := Nat.le_trans h.le h'.le
  placed l hl := by
    rcases List.mem_append.mp hl with hl | hl
    · exact (h.placed l hl).imp id fun hlabel => hlabel.mono (Nat.le_refl n) h'.le
    · exact (h'.placed l hl).imp id fun hlabel => hlabel.mono h.le (Nat.le_refl m)
  jumps j hj hof := by
    rcases List.mem_append.mp hj with hj | hj
    · exact (h.jumps j hj hof).imp id fun hlabel => hlabel.mono (Nat.le_refl n) h'.le
    · exact (h'.jumps j hj hof).imp id fun hlabel => hlabel.mono h.le (Nat.le_refl m)

theorem around (h : Looped (some (.generated "break" (n + 1 : Nat),
    .generated "continue" (n + 1 : Nat))) (n + 1) m ls js) :
    Looped loop n m (some (.generated "continue" (n + 1 : Nat)) :: ls ++
      [some (.generated "break" (n + 1 : Nat))]) js where
  le := by have := h.le; omega
  placed l hl := by
    have hle := h.le
    have hcase : l = some (.generated "continue" (n + 1 : Nat)) ∨ l ∈ ls ∨
        l = some (.generated "break" (n + 1 : Nat)) := by simpa using hl
    rcases hcase with rfl | hl | rfl
    · exact .inr ⟨n + 1, by omega, by omega, .inr rfl⟩
    · exact (h.placed l hl).imp id fun hlabel => hlabel.mono (by omega) (Nat.le_refl m)
    · exact .inr ⟨n + 1, by omega, by omega, .inl rfl⟩
  jumps j hj hof := by
    have hle := h.le
    right
    rcases h.jumps j hj hof with ⟨x, hx, hj⟩ | hlabel
    · cases hx
      exact ⟨n + 1, by omega, by omega, hj⟩
    · exact hlabel.mono (by omega) (Nat.le_refl m)

end Looped

mutual

theorem looped_stmt {params : List Param} : ∀ {s : Stmt} {loop : Option (Label × Label)}
    {n m : Nat}, BoundStmt params loop n s m → Looped loop n m (landingsStmt s) (leapsStmt s)
  | .block b, _, _, _, h => looped_block (b := b) h
  | .noOp _, _, _, _, rfl | .yieldBreak _, _, _, _, rfl => .still
  | .localDeclaration .., _, _, _, ⟨_, rfl⟩ | .expression .., _, _, _, ⟨_, rfl⟩
  | .return .., _, _, _, ⟨_, rfl⟩ | .throw .., _, _, _, ⟨_, rfl⟩
  | .yieldReturn .., _, _, _, ⟨_, rfl⟩ => .still
  | .goto .., _, _, _, ⟨_, rfl⟩ => .leaf (fun _ h => nomatch h) fun j hj hof => by
    rw [List.mem_singleton.mp hj] at hof
    cases hof
  | .label .., _, _, _, ⟨hname, rfl⟩ => .leaf (fun l hl => List.mem_singleton.mp hl ▸ hname)
    fun _ h => nomatch h
  | .break .., _, _, _, ⟨⟨x, hx, hl⟩, rfl⟩ => .leaf (fun _ h => nomatch h) fun j hj _ => by
    rw [List.mem_singleton.mp hj]
    exact ⟨x, hx, .inl hl⟩
  | .continue .., _, _, _, ⟨⟨x, hx, hl⟩, rfl⟩ => .leaf (fun _ h => nomatch h) fun j hj _ => by
    rw [List.mem_singleton.mp hj]
    exact ⟨x, hx, .inr hl⟩
  | .if _ _ t f, _, _, _, ⟨_, k, ht, hf⟩ => by
    rcases hf with ⟨rfl, rfl⟩ | hf
    · exact (looped_stmt ht).append .still
    · exact (looped_stmt ht).append (looped_stmt hf)
  | .while .., _, _, _, ⟨_, hexit, hagain, hbody⟩ => by
    rw [landingsStmt, hexit, hagain]
    exact (looped_stmt hbody).around
  | .try _ body catches cleanup, _, _, _, ⟨k, j, hbody, hcatches, hcleanup, _⟩ => by
    have hinner := (looped_block hbody).append (looped_catches hcatches)
    rcases hcleanup with ⟨rfl, rfl⟩ | hcleanup
    · exact hinner.append .still
    · exact hinner.append (looped_block hcleanup)
  | .absent, _, _, _, h | .list .., _, _, _, h | .sequencePoint .., _, _, _, h
  | .conditionalGoto .., _, _, _, h | .dispatch .., _, _, _, h | .foreign .., _, _, _, h => h.elim

theorem looped_stmts {params : List Param} : ∀ {ss : List Stmt} {loop : Option (Label × Label)}
    {n m : Nat}, BoundStmts params loop n ss m → Looped loop n m (landingsStmts ss) (leapsStmts ss)
  | [], _, _, _, rfl => .still
  | _ :: _, _, _, _, ⟨_, hs, hrest⟩ => (looped_stmt hs).append (looped_stmts hrest)

theorem looped_block {params : List Param} : ∀ {b : Block} {loop : Option (Label × Label)}
    {n m : Nat}, BoundBlock params loop n b m → Looped loop n m (landingsBlock b) (leapsBlock b)
  | .absent, _, _, _, h => h.elim
  | .mk .., _, _, _, ⟨_, hss⟩ => looped_stmts hss

theorem looped_catches {params : List Param} : ∀ {cs : List Catch}
    {loop : Option (Label × Label)} {n m : Nat}, BoundCatches params loop n cs m →
    Looped loop n m (landingsCatches cs) (leapsCatches cs)
  | [], _, _, _, rfl => .still
  | .mk .. :: _, _, _, _, ⟨_, hbody, hrest⟩ => (looped_block hbody).append (looped_catches hrest)

end

/-- The jumps of loops go to loops with other numbers than those behind `n` up to `m`. -/
def Elsewhere (n m : Nat) (leaps : List Leap) : Prop :=
  ∀ j ∈ leaps, j.ofLoop = true → ∃ a b, LoopLabel a b j.target ∧ (b ≤ n ∨ m ≤ a)

/-- The loop around, if there is one, has a number up to `n`. -/
def Around (loop : Option (Label × Label)) (n : Nat) : Prop := ∀ l, Leaves loop l → LoopLabel 0 n l

theorem Around.mono {loop : Option (Label × Label)} {n m : Nat} (h : Around loop n) (hle : n ≤ m) :
    Around loop m :=
  fun l hl => (h l hl).mono (Nat.le_refl 0) hle

theorem Around.new {n : Nat} : Around (some (.generated "break" (n + 1 : Nat),
    .generated "continue" (n + 1 : Nat))) (n + 1) := by
  rintro l ⟨x, hx, hl⟩
  cases hx
  exact ⟨n + 1, by omega, by omega, hl⟩

namespace Elsewhere

variable {n m a b : Nat} {js js' : List Leap} {loop : Option (Label × Label)}
  {ls : List (Option Label)}

theorem mono (h : Elsewhere n m js) (hn : n ≤ a) (hm : b ≤ m) : Elsewhere a b js := by
  intro j hj hof
  obtain ⟨c, d, hlabel, hapart⟩ := h j hj hof
  exact ⟨c, d, hlabel, by omega⟩

theorem append (h : Elsewhere n m js) (h' : Elsewhere n m js') : Elsewhere n m (js ++ js') := by
  intro j hj hof
  rcases List.mem_append.mp hj with hj | hj
  · exact h j hj hof
  · exact h' j hj hof

/-- The jumps of one part go around or into it, and so not into another part. -/
theorem of_looped (h : Looped loop a b ls js) (haround : Around loop n)
    (hapart : b ≤ n ∨ m ≤ a) : Elsewhere n m js := by
  intro j hj hof
  rcases h.jumps j hj hof with hl | hl
  · exact ⟨0, n, haround _ hl, .inl (Nat.le_refl n)⟩
  · exact ⟨a, b, hl, hapart⟩

theorem not_mem (h : Elsewhere n m js) (hlooped : Looped loop n m ls js') {j : Leap} (hj : j ∈ js)
    (hof : j.ofLoop = true) : j.target ∉ ls := by
  intro hin
  obtain ⟨a, b, hlabel, hapart⟩ := h j hj hof
  rcases hlooped.placed _ hin with ⟨name, hname⟩ | hown
  · obtain ⟨k, -, -, hk⟩ := hlabel
    rw [hname] at hk
    simp at hk
  · rcases hapart with hle | hle
    · exact hlabel.not_behind hle hown
    · exact hown.not_behind hle hlabel

end Elsewhere

end Resumable.Source
