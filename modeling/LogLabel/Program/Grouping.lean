import LogLabel.Program.Operator

set_option autoImplicit false

/-!
# Grouping of binary operators

A flat chain `x₀ op₁ x₁ op₂ x₂ …` is grouped into a binary tree by precedence
climbing. The operands are of any type, so the same grouping serves operands
that are programs and operands that are addresses of planted nodes.
-/

namespace LogLabel.Program

/-- A binary tree of operators over operands of type `α`. -/
inductive Grouping (α : Type) where
  | leaf (operand : α)
  | branch (operator : String) (left right : Grouping α)
deriving DecidableEq

namespace Grouping

variable {α β : Type}

/-- Least binding power that the right operand of an operator accepts. -/
def rightFloor (operator : String) : Nat :=
  if Operator.isRightAssociative operator then Operator.precedence operator
  else Operator.precedence operator + 1

/-- Extends `left` by the operators at the front of the chain that bind at least as tightly as
`floor`; returns the tree and the rest of the chain. -/
def climb : Nat → Nat → Grouping α → List (String × α) → Grouping α × List (String × α)
  | 0, _, left, chain => (left, chain)
  | _ + 1, _, left, [] => (left, [])
  | fuel + 1, floor, left, (operator, operand) :: chain =>
      if Operator.precedence operator < floor then (left, (operator, operand) :: chain)
      else
        let (right, chain) := climb fuel (rightFloor operator) (.leaf operand) chain
        climb fuel floor (.branch operator left right) chain

/-- Groups the chain that starts with `first`. Each step of `climb` shortens the chain, so its
length bounds the depth. -/
def ofChain (first : α) (chain : List (String × α)) : Grouping α :=
  (climb (chain.length + 1) 1 (.leaf first) chain).1

/-- Collapses a tree bottom-up. -/
def fold (f : String → α → α → α) : Grouping α → α
  | .leaf a => a
  | .branch op l r => f op (l.fold f) (r.fold f)

/-- Collapses a tree bottom-up and from left to right while a state is threaded. -/
def foldState {σ : Type} (f : String → α → α → σ → α × σ) : Grouping α → σ → α × σ
  | .leaf a, s => (a, s)
  | .branch op l r, s =>
      let (a, s) := l.foldState f s
      let (b, s) := r.foldState f s
      f op a b s

end Grouping

end LogLabel.Program
