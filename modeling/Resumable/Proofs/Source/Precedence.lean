import Resumable.Source.Precedence

/-!
# The grammar of operators

The grammar gives operators six levels and reads operators of one level from the left
(`OperatorTree.Ordered`).  Of all trees that read as a list of operands and operators, one alone
obeys it, and climbing makes that one (`climb_iff_ordered`).
-/

set_option autoImplicit false

namespace Resumable.Source

open Resumable.Tree

/-! ## Levels -/

/-- The operators of the grammar, those that bind least first. -/
def levels : List (List BinaryOp) :=
  [[.or], [.and], [.eq, .ne], [.lt, .le, .gt, .ge], [.add, .sub], [.mul, .div, .mod]]

/-- How many levels bind less than the operator. -/
def level (op : BinaryOp) : Nat := levels.findIdx fun ops => op ∈ ops

/-- Climbing counts the levels from one. -/
theorem precedence_eq {op : BinaryOp} (h : op ∈ BinaryOp.all) : op.precedence = level op + 1 := by
  revert op
  decide

/-! ## Trees over operands -/

/-- A tree of operators over operands, which are not looked into. -/
inductive OperatorTree where
  | leaf (operand : Expr)
  | node (op : BinaryOp) (left right : OperatorTree)

namespace OperatorTree

/-- The tree as an expression. -/
def toExpr (origin : Origin) : OperatorTree → Expr
  | leaf operand => operand
  | node op left right => .binary origin op (left.toExpr origin) (right.toExpr origin)

/-- The first operand of a tree, and each operator with the operand after it, from left to right. -/
def reading : OperatorTree → Expr × List (BinaryOp × Expr)
  | leaf operand => (operand, [])
  | node op left right =>
    (left.reading.1, left.reading.2 ++ (op, right.reading.1) :: right.reading.2)

/-- The level of the operator at the root. -/
def rootLevel? : OperatorTree → Option Nat
  | leaf _ => none
  | node op _ _ => some (level op)

/-- The grammar of operators: an operator at the root of a left subtree binds as tightly as the one
above it or tighter, an operator at the root of a right subtree binds tighter. -/
def Ordered : OperatorTree → Prop
  | leaf _ => True
  | node op left right =>
    (∀ k ∈ left.rootLevel?, level op ≤ k) ∧ (∀ k ∈ right.rootLevel?, level op < k) ∧
      left.Ordered ∧ right.Ordered

instance decidableOrdered : ∀ t : OperatorTree, Decidable t.Ordered
  | leaf _ => inferInstanceAs (Decidable True)
  | node _ left right =>
    have := decidableOrdered left
    have := decidableOrdered right
    inferInstanceAs (Decidable (_ ∧ _ ∧ _ ∧ _))

/-! ## One tree for each reading -/

/-- No operator of an ordered tree binds less than the one at its root. -/
theorem Ordered.least {t : OperatorTree} (h : t.Ordered) {n : Nat}
    (hroot : ∀ k ∈ t.rootLevel?, n ≤ k) : ∀ x ∈ t.reading.2, n ≤ level x.1 := by
  induction t generalizing n with
  | leaf => exact fun x hx => nomatch hx
  | node op left right hleft hright =>
    obtain ⟨hl, hr, hol, hor⟩ := h
    have hn : n ≤ level op := hroot _ rfl
    intro x hx
    rcases List.mem_append.mp hx with hx | hx
    · exact hleft hol (fun k hk => Nat.le_trans hn (hl k hk)) x hx
    rcases List.mem_cons.mp hx with rfl | hx
    · exact hn
    · exact hright hor (fun k hk => Nat.le_trans hn (Nat.le_of_lt (hr k hk))) x hx

/-- An operator with no weaker one before it and only stronger ones behind it is the only such
operator of a list. -/
theorem split_unique {a b a' b' : List (BinaryOp × Expr)} {x x' : BinaryOp × Expr}
    (h : a ++ x :: b = a' ++ x' :: b') (ha : ∀ y ∈ a, level x.1 ≤ level y.1)
    (hb : ∀ y ∈ b, level x.1 < level y.1) (ha' : ∀ y ∈ a', level x'.1 ≤ level y.1)
    (hb' : ∀ y ∈ b', level x'.1 < level y.1) : a = a' ∧ x = x' ∧ b = b' := by
  rcases List.append_eq_append_iff.mp h with ⟨c, rfl, hc⟩ | ⟨c, rfl, hc⟩
  · cases c with
    | nil =>
      obtain ⟨rfl, rfl⟩ := List.cons.inj hc
      simp
    | cons y c =>
      obtain ⟨rfl, rfl⟩ := List.cons.inj hc
      have hweaker := ha' x (by simp)
      have hstronger := hb x' (by simp)
      omega
  · cases c with
    | nil =>
      obtain ⟨rfl, rfl⟩ := List.cons.inj hc
      simp
    | cons y c =>
      obtain ⟨rfl, rfl⟩ := List.cons.inj hc
      have hweaker := ha x' (by simp)
      have hstronger := hb' x (by simp)
      omega

/-- Two ordered trees that read the same are the same tree. -/
theorem Ordered.unique {t u : OperatorTree} (ht : t.Ordered) (hu : u.Ordered)
    (h : t.reading = u.reading) : t = u := by
  induction t generalizing u with
  | leaf e =>
    cases u with
    | leaf e' => rw [show e = e' from congrArg Prod.fst h]
    | node op left right =>
      have hnil : [] = left.reading.2 ++ (op, right.reading.1) :: right.reading.2 :=
        congrArg Prod.snd h
      simp at hnil
  | node op left right hleft hright =>
    cases u with
    | leaf e =>
      have hnil : left.reading.2 ++ (op, right.reading.1) :: right.reading.2 = [] :=
        congrArg Prod.snd h
      simp at hnil
    | node op' left' right' =>
      obtain ⟨hl, hr, hol, hor⟩ := ht
      obtain ⟨hl', hr', hol', hor'⟩ := hu
      obtain ⟨hfirst, hrest⟩ := Prod.mk.inj h
      obtain ⟨hbefore, hroot, hbehind⟩ := split_unique hrest (hol.least hl) (hor.least hr)
        (hol'.least hl') (hor'.least hr')
      obtain ⟨rfl, hmiddle⟩ := Prod.mk.inj hroot
      rw [hleft hol hol' (Prod.ext hfirst hbefore), hright hor hor' (Prod.ext hmiddle hbehind)]

end OperatorTree

/-! ## Climbing -/

/-- What climbing from a tree makes of the operators behind it: it folds some of them in and leaves
others, the first of which does not bind tighter than `least`. -/
structure Climbs (least : Nat) (left t : OperatorTree) (rest rest' : List (BinaryOp × Expr)) :
    Prop where
  ordered : t.Ordered
  first : t.reading.1 = left.reading.1
  operators : t.reading.2 ++ rest' = left.reading.2 ++ rest
  root : ∀ k ∈ t.rootLevel?, least ≤ k
  stops : ∀ x ∈ rest'.head?, x.1.precedence ≤ least
  remains : rest' <:+ rest

/-- Enough steps make an ordered tree, if the tree on the left is ordered and may stand to the left
of the first operator. -/
theorem climb_climbs (origin : Origin) : ∀ (steps least : Nat) (left : OperatorTree)
    (rest : List (BinaryOp × Expr)), rest.length ≤ steps → (∀ x ∈ rest, x.1 ∈ BinaryOp.all) →
    left.Ordered → (∀ k ∈ left.rootLevel?, least ≤ k) →
    (∀ x ∈ rest.head?, ∀ k ∈ left.rootLevel?, level x.1 ≤ k) →
    ∃ t rest', climb origin steps least (left.toExpr origin) rest = (t.toExpr origin, rest') ∧
      Climbs least left t rest rest'
  | steps, least, left, [], _, _, hleft, hroot, _ => by
    refine ⟨left, [], ?_, hleft, rfl, rfl, hroot, by simp, List.suffix_rfl⟩
    cases steps <;> rfl
  | steps + 1, least, left, (op, operand) :: rest, hsteps, hall, hleft, hroot, hfits => by
    have hlevel : op.precedence = level op + 1 := precedence_eq (hall _ List.mem_cons_self)
    have hrest : ∀ x ∈ rest, x.1 ∈ BinaryOp.all := fun x hx => hall x (List.mem_cons_of_mem _ hx)
    unfold climb
    split
    · rename_i hle
      refine ⟨left, _, rfl, hleft, rfl, rfl, hroot, ?_, List.suffix_rfl⟩
      rintro _ ⟨⟩
      exact hle
    · rename_i hgt
      have hsteps : rest.length ≤ steps := Nat.le_of_succ_le_succ hsteps
      obtain ⟨right, behind, hright, hclimbs⟩ := climb_climbs origin steps op.precedence
        (.leaf operand) rest hsteps hrest trivial nofun nofun
      rw [show climb origin steps op.precedence operand rest = _ from hright]
      have hbehind : ∀ x ∈ behind, x.1 ∈ BinaryOp.all :=
        fun x hx => hrest x (hclimbs.remains.subset hx)
      have hnode : (OperatorTree.node op left right).Ordered := by
        refine ⟨fun k hk => hfits _ rfl k hk, fun k hk => ?_, hleft, hclimbs.ordered⟩
        have hroot := hclimbs.root k hk
        omega
      -- What the climb on the right leaves may stand behind the operator with both its sides.
      have hfits' : ∀ x ∈ behind.head?, level x.1 ≤ level op := by
        intro x hx
        have hstops := hclimbs.stops x hx
        have hlevel' := precedence_eq (hbehind x (List.mem_of_mem_head? hx))
        omega
      obtain ⟨t, rest', ht, hfolds⟩ := climb_climbs origin steps least (.node op left right) behind
        (Nat.le_trans hclimbs.remains.length_le hsteps) hbehind hnode
        (by
          rintro _ ⟨⟩
          omega)
        (by
          rintro x hx _ ⟨⟩
          exact hfits' x hx)
      refine ⟨t, rest', ht, hfolds.ordered, hfolds.first, ?_, hfolds.root, hfolds.stops,
        (hfolds.remains.trans hclimbs.remains).trans (List.suffix_cons _ _)⟩
      have hoperators : right.reading.2 ++ behind = rest := hclimbs.operators
      have hoperand : right.reading.1 = operand := hclimbs.first
      rw [hfolds.operators, OperatorTree.reading, hoperand, ← hoperators]
      simp

/-- **Operators are read by the grammar.**  Climbing from the first operand over any list of
operators with their operands uses up the whole list.  It gives a tree that reads as this list and
obeys the grammar, and this is the only one: any tree that does both is the same tree. -/
theorem climb_iff_ordered (origin : Origin) (first : Expr) (rest : List (BinaryOp × Expr))
    (hops : ∀ x ∈ rest, x.1 ∈ BinaryOp.all) :
    ∃ t : OperatorTree, climb origin rest.length 0 first rest = (t.toExpr origin, []) ∧
      operatorTree origin first rest = t.toExpr origin ∧
      ∀ u : OperatorTree, u.reading = (first, rest) ∧ u.Ordered ↔ u = t := by
  obtain ⟨t, behind, ht, hclimbs⟩ := climb_climbs origin rest.length 0 (.leaf first) rest
    (Nat.le_refl _) hops trivial nofun nofun
  obtain rfl : behind = [] := by
    cases behind with
    | nil => rfl
    | cons x behind =>
      have hstops := hclimbs.stops x rfl
      rw [precedence_eq (hops x (hclimbs.remains.subset List.mem_cons_self))] at hstops
      exact absurd hstops (Nat.not_succ_le_zero _)
  have hreading : t.reading = (first, rest) := by
    refine Prod.ext hclimbs.first ?_
    rw [← List.append_nil t.reading.2]
    exact hclimbs.operators
  refine ⟨t, ht, congrArg Prod.fst ht, fun u => ⟨?_, ?_⟩⟩
  · rintro ⟨hu, hordered⟩
    exact hordered.unique hclimbs.ordered (hu.trans hreading.symm)
  · rintro rfl
    exact ⟨hreading, hclimbs.ordered⟩

/-- Operators that go up and down through the levels, `0 - 1 * 2 + 3 < 4 && 5 || 6 == 7 % 8`,
behind the first operand. -/
def windingOperators : List (BinaryOp × Expr) :=
  let operand (n : Int) : Expr := .literal {} (.int n) (some .int)
  [(.sub, operand 1), (.mul, operand 2), (.add, operand 3), (.lt, operand 4), (.and, operand 5),
    (.or, operand 6), (.eq, operand 7), (.mod, operand 8)]

/-- The tree of these operators. -/
def windingTree : OperatorTree :=
  let operand (n : Int) : OperatorTree := .leaf (.literal {} (.int n) (some .int))
  let sum : OperatorTree :=
    .node .add (.node .sub (operand 0) (.node .mul (operand 1) (operand 2))) (operand 3)
  .node .or (.node .and (.node .lt sum (operand 4)) (operand 5))
    (.node .eq (operand 6) (.node .mod (operand 7) (operand 8)))

theorem climb_iff_ordered_winding : (∀ x ∈ windingOperators, x.1 ∈ BinaryOp.all) ∧
    operatorTree {} (.literal {} (.int 0) (some .int)) windingOperators = windingTree.toExpr {} := by
  have hops : ∀ x ∈ windingOperators, x.1 ∈ BinaryOp.all := by decide
  obtain ⟨t, -, htree, honly⟩ := climb_iff_ordered {} (.literal {} (.int 0) (some .int)) _ hops
  have hwinding : windingTree = t := (honly windingTree).mp ⟨rfl, by decide⟩
  exact ⟨hops, by rw [htree, hwinding]⟩

end Resumable.Source
