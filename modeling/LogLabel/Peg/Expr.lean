set_option autoImplicit false

/-!
# Parsing expressions

A grammar is data: each rule has a form and a parsing expression. Choice is
ordered and repetition is greedy, so a text has at most one reading.

`Form` says how a rule treats blanks and whether it is captured. A plain rule
inherits the spacing of its caller; the other forms fix it for their body.
-/

namespace LogLabel.Peg

/-- A parsing expression over rules named by `ρ`. -/
inductive Expr (ρ : Type) where
  /-- The given characters. -/
  | text (chars : List Char)
  /-- One character of a class. -/
  | one (accepts : Char → Bool)
  /-- A rule of the grammar. -/
  | rule (name : ρ)
  /-- Two parts in a row, with blanks between them where spacing allows. -/
  | seq (first second : Expr ρ)
  /-- The first alternative that matches. -/
  | alt (first second : Expr ρ)
  /-- The expression or nothing. -/
  | opt (e : Expr ρ)
  /-- As many repetitions as possible, with blanks between them where spacing allows. -/
  | star (e : Expr ρ)
  /-- Further repetitions after at least one, each with the blanks before it. -/
  | further (e : Expr ρ)
  /-- Succeeds without moving where the expression matches. -/
  | present (e : Expr ρ)
  /-- Succeeds without moving where the expression does not match. -/
  | absent (e : Expr ρ)

namespace Expr

variable {ρ : Type}

/-- The characters of a string. -/
def lit (s : String) : Expr ρ := .text s.toList

/-- Any one character. -/
def any : Expr ρ := .one fun _ => true

/-- Parts in a row. -/
def seqs : List (Expr ρ) → Expr ρ
  | [] => .text []
  | [e] => e
  | e :: es => .seq e (seqs es)

/-- Ordered choice. An empty choice never matches. -/
def alts : List (Expr ρ) → Expr ρ
  | [] => .one fun _ => false
  | [e] => e
  | e :: es => .alt e (alts es)

/-- Ordered choice between strings. -/
def lits (ss : List String) : Expr ρ := alts (ss.map lit)

end Expr

/-- How a rule is matched. -/
inductive Form where
  /-- Captured, with the spacing of its caller. -/
  | plain
  /-- Matched in place of its name, without a capture. -/
  | silent
  /-- Captured as one piece: no blanks inside and no inner captures. -/
  | atomic
  /-- Captured with inner captures, but without blanks inside. -/
  | compound
  /-- Captured with inner captures and with blanks inside. -/
  | spaced
deriving DecidableEq

/-- Form and body of a rule. -/
structure RuleDef (ρ : Type) where
  form : Form
  body : Expr ρ

/-- A grammar: its rules, and what may be skipped between parts. -/
structure Grammar (ρ : Type) where
  define : ρ → RuleDef ρ
  blank : Expr ρ

end LogLabel.Peg
