import LogLabel.Program.Parts
import LogLabel.Proofs.Peg.Shapes

set_option autoImplicit false

/-!
# Parts that the grammar yields

The grammar and the table of known parts are two descriptions of one language: whatever the
bodies of the rules capture, `Rule.takes` accepts.

* `Rule.inPlace r`: the rules that are captured in the place of a rule.
* `Rule.Stands r names`: one of them is captured.
* `Rule.takes_of_fillings`: a rule whose body repeats no part takes what its body yields, by going
  through all lists of parts.
* `Rule.takes_of_yields`: what the body of a rule yields is taken by the rule.
* `Rule.Holds`: the parts are taken, and none of them is a whole program.
* `grammar_forms`: so every capture of the grammar has parts that its rule holds.
-/

namespace LogLabel.Program

open Peg (Expr)
open Peg.Expr (seqs Yields fillings)

namespace Rule

/-! ## Rules in their places -/

/-- The rules that are captured in the place of a rule: those that a silent rule chooses from, and
otherwise the rule itself. -/
def inPlace : Rule → List Rule
  | .statement =>
      [.block, .emptyStmt, .varDecl, .functionDecl, .classDecl, .returnStmt, .throwStmt, .breakStmt,
        .continueStmt, .ifStmt, .whileStmt, .labeledStmt, .exprStmt]
  | .assignment => [.arrowFunction, .yieldExpr, .assignExpr, .conditional]
  | .primary =>
      [.number, .string, .boolean, .nullLiteral, .thisLiteral, .functionExpr, .classExpr, .array,
        .object, .placeholder, .identifier, .paren]
  | r => [r]

/-- One rule is captured in the place of the given one. -/
def Stands (r : Rule) (names : List Rule) : Prop := ∃ n ∈ r.inPlace, names = [n]

theorem inPlace_self {r : Rule} (hform : (define r).form ≠ .silent) : r ∈ r.inPlace := by
  cases r with
  | statement => exact absurd rfl hform
  | assignment => exact absurd rfl hform
  | primary => exact absurd rfl hform
  | _ => exact List.mem_singleton.2 rfl

variable {names : List Rule} {e : Part} {p : Rule → Bool} {r : Rule}

/-- All rules that an expression yields have a property that the rules in the places it names have. -/
theorem all_of_yields (h : e.Yields Stands names)
    (hnames : e.names.all (fun r => r.inPlace.all p) = true) : names.all p = true := by
  rw [List.all_eq_true] at hnames ⊢
  refine h.forall_mem fun r hr ns hns n hn => ?_
  obtain ⟨m, hm, rfl⟩ := hns
  obtain rfl := List.mem_singleton.1 hn
  exact List.all_eq_true.1 (hnames r hr) n hm

/-- A rule takes what its body yields if it takes all of the finitely many lists of parts. -/
theorem takes_of_fillings (h : (define r).body.Yields Stands names)
    (hall : ((define r).body.fillings inPlace).any (·.all r.takes) = true) :
    r.takes names = true := by
  obtain ⟨lists, hlists, hall⟩ := (Option.any_eq_true _ _).1 hall
  exact List.all_eq_true.1 hall names (h.mem_fillings (fun _ _ h => h) hlists)

/-- What a silent rule yields is captured in its place. -/
theorem stands_of_yields (hform : (define r).form = .silent)
    (h : (define r).body.Yields Stands names) : r.Stands names := by
  have hlists : (define r).body.fillings inPlace = some (r.inPlace.map fun n => [n]) := by
    cases r with
    | statement => rfl
    | assignment => rfl
    | primary => rfl
    | _ => cases hform
  obtain ⟨n, hn, heq⟩ := List.mem_map.1 (h.mem_fillings (fun _ _ h => h) hlists)
  exact ⟨n, hn, heq.symm⟩

/-! ## Lists of parts -/

theorem takes_program (h : (define .program).body.Yields Stands names) :
    Rule.program.takes names = true := by
  have hparts : names.all (fun n => n = .endOfInput || n.isStatementPart) = true :=
    all_of_yields h (by decide)
  change (names.filter (· ≠ .endOfInput)).all isStatementPart = true
  rw [List.all_filter]
  exact List.all_eq_true.2 fun n hn => by simpa using List.all_eq_true.1 hparts n hn

theorem takes_varDecl (h : (define .varDecl).body.Yields Stands names) :
    Rule.varDecl.takes names = true := by
  obtain ⟨_, rest, ⟨n, hn, rfl⟩, hrest, rfl⟩ := h
  obtain rfl := List.mem_singleton.1 hn
  exact all_of_yields hrest (by decide)

theorem takes_expression (h : (define .expression).body.Yields Stands names) :
    Rule.expression.takes names = true := by
  have hparts : names.all isExpressionPart = true := all_of_yields h (by decide)
  obtain ⟨_, _, ⟨n, -, rfl⟩, -, rfl⟩ := h
  exact hparts

/-! ## Operators -/

theorem arePrefixed_append {operators : List Rule} {operand : Rule}
    (hoperators : operators.all (· = .prefixOp) = true)
    (hoperand : operand.isExpressionPart = true) :
    arePrefixed (operators ++ [operand]) = true := by
  induction operators with
  | nil => exact hoperand
  | cons r operators ih =>
      rw [List.all_cons, Bool.and_eq_true, decide_eq_true_eq] at hoperators
      obtain ⟨rfl, hoperators⟩ := hoperators
      cases operators with
      | nil => exact hoperand
      | cons r operators => exact ih hoperators

theorem takes_unary (h : (define .unary).body.Yields Stands names) :
    Rule.unary.takes names = true := by
  obtain ⟨operators, _, hoperators, ⟨n, hn, rfl⟩, rfl⟩ := h
  obtain rfl := List.mem_singleton.1 hn
  exact arePrefixed_append (all_of_yields hoperators (by decide)) rfl

theorem areLinks_flatten {parts : List (List Rule)}
    (h : ∀ part ∈ parts, part = [.binaryOp, .unary]) : areLinks parts.flatten = true := by
  induction parts with
  | nil => rfl
  | cons part parts ih =>
      rw [List.forall_mem_cons] at h
      obtain ⟨rfl, h⟩ := h
      exact ih h

theorem takes_binary (h : (define .binary).body.Yields Stands names) :
    Rule.binary.takes names = true := by
  obtain ⟨_, _, ⟨n, hn, rfl⟩, ⟨parts, hparts, rfl⟩, rfl⟩ := h
  obtain rfl := List.mem_singleton.1 hn
  refine areLinks_flatten fun part hpart => ?_
  exact List.mem_singleton.1 ((hparts part hpart).mem_fillings (fun _ _ h => h) rfl)

/-- An operand with calls and accesses behind it. -/
theorem areSuffixed_of_yields {first second : Part} (h : (Expr.seq first second).Yields Stands names)
    (hfirst : (first.fillings inPlace).any (·.all isOperand) = true)
    (hsecond : second.names.all (fun r => r.inPlace.all isSuffixPart) = true) :
    areSuffixed names = true := by
  obtain ⟨left, right, hleft, hright, rfl⟩ := h
  obtain ⟨lists, hlists, hall⟩ := (Option.any_eq_true _ _).1 hfirst
  have hoperand := List.all_eq_true.1 hall left (hleft.mem_fillings (fun _ _ h => h) hlists)
  unfold isOperand at hoperand
  split at hoperand
  · exact Bool.and_eq_true_iff.2 ⟨hoperand, all_of_yields hright hsecond⟩
  · cases hoperand

/-! ## All rules -/

/-- What the body of a captured rule yields is taken by the rule. -/
theorem takes_of_yields (hform : (define r).form ≠ .silent) (hatomic : (define r).form ≠ .atomic)
    (h : (define r).body.Yields Stands names) : r.takes names = true := by
  cases r with
  | program => exact takes_program h
  | varDecl => exact takes_varDecl h
  | expression => exact takes_expression h
  | unary => exact takes_unary h
  | binary => exact takes_binary h
  | callMember => exact areSuffixed_of_yields h (by decide) (by decide)
  | newCallee => exact areSuffixed_of_yields h (by decide) (by decide)
  | block => exact all_of_yields h (by decide)
  | params => exact all_of_yields h (by decide)
  | classBody => exact all_of_yields h (by decide)
  | arguments => exact all_of_yields h (by decide)
  | array => exact all_of_yields h (by decide)
  | object => exact all_of_yields h (by decide)
  | statement => exact absurd rfl hform
  | assignment => exact absurd rfl hform
  | primary => exact absurd rfl hform
  | word w => exact absurd rfl hatomic
  | keyword => exact absurd rfl hatomic
  | _ => exact takes_of_fillings h (by decide +kernel)

/-- An atomic rule names no rule outside of look-aheads, and is taken without parts. -/
theorem takes_of_atomic (hform : (define r).form = .atomic) :
    (define r).body.names = [] ∧ r.takes [] = true := by
  revert hform
  cases r with
  | word w => cases w <;> decide
  | _ => decide

/-! ## Whole programs -/

/-- A whole program stands in no place of the grammar. -/
theorem program_not_mem_inPlace (r : Rule) :
    (define r).body.names.all (fun r => r.inPlace.all (· ≠ .program)) = true := by
  cases r with
  | word w => cases w <;> decide
  | _ => decide

/-- A whole program is part of no rule. -/
theorem program_not_mem_of_yields (h : (define r).body.Yields Stands names) :
    Rule.program ∉ names := by
  have hall := List.all_eq_true.1 (all_of_yields h (program_not_mem_inPlace r))
  exact fun hmem => of_decide_eq_true (hall _ hmem) rfl

/-- The rule takes parts of the given rules, and none of them is a whole program. -/
def Holds (r : Rule) (names : List Rule) : Prop := r.takes names = true ∧ Rule.program ∉ names

end Rule

/-- Every capture of the grammar has parts that its rule takes. -/
theorem grammar_forms : grammar.Forms Rule.Stands Rule.Holds where
  silent _ _ hform h := Rule.stands_of_yields hform h
  captured r hform := ⟨r, Rule.inPlace_self hform, rfl⟩
  atomic _ hform :=
    ⟨(Rule.takes_of_atomic hform).1, (Rule.takes_of_atomic hform).2, List.not_mem_nil⟩
  taken _ _ hform hatomic h :=
    ⟨Rule.takes_of_yields hform hatomic h, Rule.program_not_mem_of_yields h⟩

end LogLabel.Program
