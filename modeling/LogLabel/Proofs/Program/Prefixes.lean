import LogLabel.Program.Printer
import LogLabel.Proofs.Program.Blanks
import LogLabel.Proofs.Program.Reading

set_option autoImplicit false

/-!
# Chains of prefix operators

Printed prefix operators stand close together, and the grammar tries the long ones first. What keeps
them apart is decided by each printed operator and the text that follows it: two equal signs are
parted by a blank unless they are one operator, and a word is always followed by a blank. So a chain
of any length is read operator by operator, and none of them joins the next one or the operand.

* `prefixOperators`: the operators of the grammar; `HasPrefix cs`: one of them starts the text.
* `Apart op rest`: the operator ends before the rest of the text.
* `Ast.prefixed ops a`: an operand under a chain of prefix operators.
* `apart_prefixed`: every printed operator ends before what is printed behind it.
* `prefixes_read`: so the chain is read back as it was printed.
-/

namespace LogLabel.Program

open Peg (Capture Cursor Gaze Settles Spacing run)
open Peg.Expr (lits)
open Rule (gap isBlankChar isIdentChar ref wordEnd)
open Ast (isWordOperator startsWithSign unaryGap wrap)

/-! ## Prefix operators of the grammar -/

/-- The prefix operators that are written with signs, in the order in which they are tried. -/
def signOperators : List String := ["++", "--", "!", "~", "+", "-"]

/-- The prefix operators that are written with letters. -/
def wordOperators : List String := ["typeof", "void", "delete", "await"]

/-- The prefix operators. -/
def prefixOperators : List String := signOperators ++ wordOperators

/-- Prefix operators with gaps behind them, as they stand before the operand of a unary expression. -/
def prefixesPart : Rule.Part := .star (.seq (ref .prefixOp) gap)

example : Rule.define .prefixOp =
    ⟨.atomic, .alt (lits signOperators) (.seq (lits wordOperators) wordEnd)⟩ := rfl

example : Rule.define .unary = ⟨.compound, .seq prefixesPart (ref .suffixed)⟩ := rfl

/-- A prefix operator stands at the front of the text; behind one that is written with letters no
further character of a name follows. -/
def HasPrefix (cs : List Char) : Prop :=
  ∃ op ∈ prefixOperators, op.toList <+: cs ∧
    (isWordOperator op = true → (cs.drop op.toList.length).head?.any isIdentChar = false)

instance (cs : List Char) : Decidable (HasPrefix cs) :=
  inferInstanceAs (Decidable (∃ op ∈ prefixOperators, _ ∧ _))

/-- The operator ends before the rest of the text: a word goes on with no character of a name, and a
single sign is not followed by the same sign. -/
def Apart (op : String) (rest : List Char) : Prop :=
  (isWordOperator op = true → rest.head?.any isIdentChar = false) ∧
    (op = "+" ∨ op = "-" → ¬ op.toList <+: rest)

theorem isWordOperator_of_mem_signOperators :
    ∀ op ∈ signOperators, isWordOperator op = false := by decide

theorem isWordOperator_of_mem_wordOperators :
    ∀ op ∈ wordOperators, isWordOperator op = true := by decide

theorem distinguished_wordOperators : Peg.Distinguished isIdentChar wordOperators where
  chars := by
    have hall : ∀ word ∈ wordOperators, word.toList.all isIdentChar = true := by decide
    exact fun word hword => List.all_eq_true.1 (hall word hword)
  order := by decide

/-- No prefix operator starts with a blank or a comment. -/
theorem afterGap_append {op : String} (hop : op ∈ prefixOperators) (cs : List Char) :
    afterGap (op.toList ++ cs) = op.toList ++ cs := by
  have hchar : ∀ op ∈ prefixOperators, ∃ x xs, op.toList = x :: xs ∧
      isBlankChar x = false ∧ x ≠ '/' := by
    intro op hop
    simp only [prefixOperators, signOperators, wordOperators, List.cons_append, List.nil_append,
      List.mem_cons, List.not_mem_nil, or_false] at hop
    rcases hop with rfl | rfl | rfl | rfl | rfl | rfl | rfl | rfl | rfl | rfl
    all_goals exact ⟨_, _, rfl, by decide, by decide⟩
  obtain ⟨x, xs, hlist, hblank, hslash⟩ := hchar op hop
  rw [hlist, List.cons_append]
  exact afterGap_cons hblank hslash

/-- Where a prefix operator stands, there is no gap. -/
theorem afterGap_of_hasPrefix {cs : List Char} (h : HasPrefix cs) : afterGap cs = cs := by
  obtain ⟨op, hop, ⟨rest, rfl⟩, -⟩ := h
  exact afterGap_append hop rest

section Runs

variable {spacing : Spacing} {gaze : Gaze} {cs rest : List Char} {op : String} {reach : Nat}

/-- An operator of signs is read, since no longer one that is tried before it is there. -/
theorem settles_sign (hop : op ∈ signOperators) (h : op = "+" ∨ op = "-" → ¬ op.toList <+: rest)
    (offset : Nat) :
    Settles grammar spacing gaze (lits signOperators) ⟨op.toList ++ rest, offset⟩ reach
      (.matched ⟨rest, offset + String.utf8Len op.toList⟩ [] reach) := by
  have hsplit : ∃ before after, signOperators = before ++ op :: after ∧
      ∀ early ∈ before, ¬ early.toList <+: op.toList ++ rest := by
    simp only [signOperators, List.mem_cons, List.not_mem_nil, or_false] at hop
    rcases hop with rfl | rfl | rfl | rfl | rfl | rfl
    · exact ⟨[], _, rfl, by simp⟩
    · exact ⟨["++"], _, rfl, by simp⟩
    · exact ⟨["++", "--"], _, rfl, by simp⟩
    · exact ⟨["++", "--", "!"], _, rfl, by simp⟩
    · have hnext := h (.inl rfl)
      exact ⟨["++", "--", "!", "~"], _, rfl, by simpa using hnext⟩
    · have hnext := h (.inr rfl)
      exact ⟨["++", "--", "!", "~", "+"], _, rfl, by simpa using hnext⟩
  obtain ⟨before, after, hsplit, hbefore⟩ := hsplit
  rw [hsplit]
  exact .choice hbefore offset

/-- An operator of letters is read, since the word ends with it. -/
theorem settles_word (hop : op ∈ wordOperators) (h : rest.head?.any isIdentChar = false)
    (hspacing : spacing ≠ .free) (offset : Nat) :
    Settles grammar spacing gaze (.seq (lits wordOperators) wordEnd) ⟨op.toList ++ rest, offset⟩ reach
      (.matched ⟨rest, offset + String.utf8Len op.toList⟩ [] reach) := by
  have hchars := distinguished_wordOperators.chars op hop
  have hend : rest.takeWhile isIdentChar = [] ∧ rest.dropWhile isIdentChar = rest := by
    cases rest with
    | nil => exact ⟨rfl, rfl⟩
    | cons x rest =>
        have hx : isIdentChar x = false := h
        simp [hx]
  have htake : (op.toList ++ rest).takeWhile isIdentChar = op.toList := by
    rw [List.takeWhile_append_of_pos hchars, hend.1, List.append_nil]
  have hdrop : (op.toList ++ rest).dropWhile isIdentChar = rest := by
    rw [List.dropWhile_append_of_pos hchars, hend.2]
  have hread : Settles grammar spacing gaze (.seq (lits wordOperators) wordEnd)
      ⟨op.toList ++ rest, offset⟩ reach
      (.matched ⟨(op.toList ++ rest).dropWhile isIdentChar,
        offset + String.utf8Len ((op.toList ++ rest).takeWhile isIdentChar)⟩ [] reach) := by
    apply Settles.word distinguished_wordOperators hspacing
    rwa [htake, String.ofList_toList]
  rwa [htake, hdrop] at hread

/-- An operator that ends before the rest of the text is read and captured. -/
theorem settles_prefixOp (hop : op ∈ prefixOperators) (h : Apart op rest) (offset reach : Nat) :
    ∃ reach', Settles grammar .tight .consuming (ref .prefixOp) ⟨op.toList ++ rest, offset⟩ reach
      (.matched ⟨rest, offset + String.utf8Len op.toList⟩
        [.mk .prefixOp offset (offset + String.utf8Len op.toList) (op.toList ++ rest) []] reach') := by
  rcases List.mem_append.1 hop with hsign | hword
  · exact Settles.rule (by decide) (.left (settles_sign hsign h.2 offset))
  · have hletters : ∀ sign ∈ signOperators, ¬ sign.toList <+: op.toList ++ rest := by
      simp only [wordOperators, List.mem_cons, List.not_mem_nil, or_false] at hword
      rcases hword with rfl | rfl | rfl | rfl <;> simp [signOperators]
    have hend := h.1 (isWordOperator_of_mem_wordOperators op hword)
    exact Settles.rule (by decide)
      (.right (.choice_failed hletters offset) (settles_word hword hend (by decide) offset))

/-- Where no prefix operator stands, none is read. -/
theorem settles_prefixOp_failed (h : ¬ HasPrefix cs) (offset reach : Nat) :
    ∃ reach', Settles grammar .tight .consuming (ref .prefixOp) ⟨cs, offset⟩ reach
      (.failed reach') := by
  have hsigns : ∀ sign ∈ signOperators, ¬ sign.toList <+: cs := by
    intro sign hsign hthere
    apply h
    refine ⟨sign, List.mem_append_left _ hsign, hthere, fun hword => ?_⟩
    rw [isWordOperator_of_mem_signOperators sign hsign] at hword
    cases hword
  have hwords : String.ofList (cs.takeWhile isIdentChar) ∉ wordOperators := by
    intro hword
    apply h
    refine ⟨_, List.mem_append_right _ hword, ?_, fun _ => ?_⟩
    · rw [String.toList_ofList]
      exact List.takeWhile_prefix _
    · have hdrop : cs.drop (cs.takeWhile isIdentChar).length = cs.dropWhile isIdentChar := by
        calc
          cs.drop (cs.takeWhile isIdentChar).length
              = (cs.takeWhile isIdentChar ++ cs.dropWhile isIdentChar).drop
                (cs.takeWhile isIdentChar).length := by rw [List.takeWhile_append_dropWhile]
          _ = cs.dropWhile isIdentChar := List.drop_left
      have hnext := List.head?_dropWhile_not isIdentChar cs
      rw [String.toList_ofList, hdrop]
      cases hhead : (cs.dropWhile isIdentChar).head? with
      | none => rfl
      | some x =>
          rw [hhead] at hnext
          exact hnext
  exact Settles.rule_failed (by decide)
    (.right (.choice_failed hsigns offset)
      (.word_failed distinguished_wordOperators (by decide) hwords offset))

end Runs

/-! ## Printed chains -/

namespace Ast

variable {ι : Type}

/-- The node of a prefix operator: an update, or a unary operation. -/
def prefixNode (note : ι) (op : String) (argument : Ast ι) : Ast ι :=
  .node note (if op = "++" ∨ op = "--" then .update op .before argument else .unary op argument)

/-- An operand under a chain of prefix operators, the outermost one first. -/
def prefixed : List (ι × String) → Ast ι → Ast ι
  | [], operand => operand
  | (note, op) :: ops, operand => prefixNode note op (prefixed ops operand)

/-- The text of a node where it is the operand of a prefix operator. -/
def unaryText (depth : Nat) (a : Ast ι) : String :=
  wrap (Power.rank .unary) a (printBare depth a)

/-- What is printed between a prefix operator and its operand. -/
def prefixGap (op : String) (argument : Ast ι) : String :=
  if op = "++" ∨ op = "--" then "" else unaryGap op argument

theorem unaryText_prefixNode (depth : Nat) (note : ι) (op : String) (argument : Ast ι) :
    (prefixNode note op argument).unaryText depth
      = op ++ prefixGap op argument ++ argument.unaryText depth := by
  -- The node binds as its position asks for, so no parentheses are put around it.
  unfold prefixNode prefixGap
  split
  · rw [unaryText, wrap, if_neg (by simp [rank]), printBare, String.append_empty, unaryText]
  · rw [unaryText, wrap, if_neg (by simp [rank]), printBare, unaryText]

theorem startsWithSign_prefixNode (sign : String) (note : ι) (op : String) (argument : Ast ι) :
    startsWithSign sign (prefixNode note op argument) = sign.toList.isPrefixOf op.toList := by
  unfold prefixNode
  split <;> rfl

/-- At most one blank is printed between a prefix operator and its operand. -/
theorem prefixGap_cases (op : String) (argument : Ast ι) :
    prefixGap op argument = "" ∨ prefixGap op argument = " " := by
  unfold prefixGap unaryGap
  split
  · exact .inl rfl
  · split
    · exact .inr rfl
    · split
      · exact .inr rfl
      · exact .inl rfl

end Ast

section Chains

variable {ι : Type} {depth : Nat} {operand : Ast ι} {rest : String}

/-- A blank between an operator and its operand belongs to the gap. -/
theorem afterGap_prefixGap (op : String) (argument : Ast ι) (cs : List Char) :
    afterGap ((Ast.prefixGap op argument).toList ++ cs) = afterGap cs := by
  rcases Ast.prefixGap_cases op argument with hgap | hgap
  · rw [hgap]
    rfl
  · rw [hgap]
    exact afterGap_space cs

/-- The text of an operand without prefix operators starts with no sign of one. -/
theorem not_prefix_of_operand {sign : String} (hsign : sign ∈ signOperators) {cs : List Char}
    (h : ¬ HasPrefix (afterGap cs)) : ¬ sign.toList <+: cs := by
  rintro ⟨later, rfl⟩
  apply h
  rw [afterGap_append (List.mem_append_left _ hsign)]
  refine ⟨sign, List.mem_append_left _ hsign, List.prefix_append _ _, fun hword => ?_⟩
  rw [isWordOperator_of_mem_signOperators sign hsign] at hword
  cases hword

/-- A single sign behind which no blank is printed is not followed by itself. -/
theorem not_prefix_of_startsWithSign {sign : String} (hsign : sign = "+" ∨ sign = "-")
    {ops : List (ι × String)} (hops : ∀ op ∈ ops, op.2 ∈ prefixOperators)
    (hoperand : ¬ HasPrefix (afterGap (operand.unaryText depth ++ rest).toList))
    (h : startsWithSign sign (Ast.prefixed ops operand) = false) :
    ¬ sign.toList <+: ((Ast.prefixed ops operand).unaryText depth ++ rest).toList := by
  cases ops with
  | nil =>
      apply not_prefix_of_operand _ hoperand
      rcases hsign with rfl | rfl <;> decide
  | cons link ops =>
      obtain ⟨note, op⟩ := link
      have hop := hops (note, op) List.mem_cons_self
      rw [Ast.prefixed, Ast.startsWithSign_prefixNode] at h
      rw [Ast.prefixed, Ast.unaryText_prefixNode]
      simp only [String.toList_append, List.append_assoc]
      intro hthere
      -- The sign is no longer than the next operator, so it would be a beginning of it.
      have hlength : sign.toList.length ≤ op.toList.length := by
        have hone : sign.toList.length = 1 := by
          rcases hsign with rfl | rfl <;> rfl
        have hpos : ∀ op ∈ prefixOperators, 1 ≤ op.toList.length := by decide
        rw [hone]
        exact hpos op hop
      have hnext := List.prefix_of_prefix_length_le hthere (List.prefix_append _ _) hlength
      rw [List.isPrefixOf_iff_prefix.2 hnext] at h
      cases h

/-- Every printed prefix operator ends before what is printed behind it. -/
theorem apart_prefixed {op : String} (hop : op ∈ prefixOperators) {ops : List (ι × String)}
    (hops : ∀ op ∈ ops, op.2 ∈ prefixOperators)
    (hoperand : ¬ HasPrefix (afterGap (operand.unaryText depth ++ rest).toList)) :
    Apart op ((Ast.prefixGap op (Ast.prefixed ops operand)).toList
      ++ ((Ast.prefixed ops operand).unaryText depth ++ rest).toList) := by
  constructor
  · intro hword
    have hgap : Ast.prefixGap op (Ast.prefixed ops operand) = " " := by
      have hupdate : ¬ (op = "++" ∨ op = "--") := by
        rintro (rfl | rfl) <;> cases hword
      rw [Ast.prefixGap, if_neg hupdate, unaryGap, if_pos hword]
    rw [hgap]
    rfl
  · intro hsign
    have hgap : Ast.prefixGap op (Ast.prefixed ops operand)
        = if startsWithSign op (Ast.prefixed ops operand) then " " else "" := by
      rw [Ast.prefixGap, unaryGap]
      rcases hsign with rfl | rfl <;> rfl
    rw [hgap]
    cases hstarts : startsWithSign op (Ast.prefixed ops operand) with
    | true =>
        rcases hsign with rfl | rfl <;> simp
    | false => exact not_prefix_of_startsWithSign hsign hops hoperand hstarts

/-! ## Chains that are read back -/

/-- A printed chain starts with an operator, so there is no gap before it. -/
theorem afterGap_prefixed {op : String} (hop : op ∈ prefixOperators) (note : ι)
    (ops : List (ι × String)) :
    afterGap ((Ast.prefixed ((note, op) :: ops) operand).unaryText depth ++ rest).toList
      = ((Ast.prefixed ((note, op) :: ops) operand).unaryText depth ++ rest).toList := by
  rw [Ast.prefixed, Ast.unaryText_prefixNode]
  simp only [String.toList_append, List.append_assoc]
  exact afterGap_append hop _

/-- One operator of the chain is read, with the gap behind it. -/
theorem settles_link {op : String} (hop : op ∈ prefixOperators) {ops : List (ι × String)}
    (hops : ∀ op ∈ ops, op.2 ∈ prefixOperators)
    (hoperand : ¬ HasPrefix (afterGap (operand.unaryText depth ++ rest).toList)) (note : ι)
    (offset reach : Nat) :
    ∃ offset' capture reach', Settles grammar .tight .consuming (.seq (ref .prefixOp) gap)
        ⟨((Ast.prefixed ((note, op) :: ops) operand).unaryText depth ++ rest).toList, offset⟩ reach
        (.matched ⟨afterGap ((Ast.prefixed ops operand).unaryText depth ++ rest).toList, offset'⟩
          [capture] reach') ∧
      capture.name = .prefixOp ∧ capture.text = op := by
  obtain ⟨reach', hread⟩ := settles_prefixOp hop (apart_prefixed hop hops hoperand) offset reach
  have hspacing : Spacing.tight ≠ .free := by decide
  obtain ⟨offset', hgap⟩ := settles_gap hspacing
    ((Ast.prefixGap op (Ast.prefixed ops operand)).toList
      ++ ((Ast.prefixed ops operand).unaryText depth ++ rest).toList)
    (offset + String.utf8Len op.toList)
  rw [afterGap_prefixGap] at hgap
  have htext : ((Ast.prefixed ((note, op) :: ops) operand).unaryText depth ++ rest).toList
      = op.toList ++ ((Ast.prefixGap op (Ast.prefixed ops operand)).toList
        ++ ((Ast.prefixed ops operand).unaryText depth ++ rest).toList) := by
    rw [Ast.prefixed, Ast.unaryText_prefixNode]
    simp only [String.toList_append, List.append_assoc]
  rw [htext]
  refine ⟨offset', _, reach', .seq hspacing hread hgap, rfl, ?_⟩
  rw [Capture.text, Nat.add_sub_cancel_left, Peg.Capture.takeBytes_append, String.ofList_toList]

/-- A chain of operators and the blanks behind them are read, whatever was read before them. -/
theorem settles_chain {ops : List (ι × String)} (hops : ∀ op ∈ ops, op.2 ∈ prefixOperators)
    (hoperand : ¬ HasPrefix (afterGap (operand.unaryText depth ++ rest).toList)) :
    ∀ offset reach, ∃ offset' captures reach',
      Settles grammar .tight .consuming (.further (.seq (ref .prefixOp) gap))
        ⟨afterGap ((Ast.prefixed ops operand).unaryText depth ++ rest).toList, offset⟩ reach
        (.matched ⟨afterGap (operand.unaryText depth ++ rest).toList, offset'⟩ captures reach') ∧
      captures.map Capture.text = ops.map Prod.snd ∧
      ∀ capture ∈ captures, capture.name = .prefixOp := by
  -- By induction on the operators: the first one is read by itself, and so are the others.
  induction ops with
  | nil =>
      intro offset reach
      obtain ⟨reach', hfailed⟩ := settles_prefixOp_failed hoperand offset reach
      refine ⟨offset, [], reach', ?_, rfl, by simp⟩
      exact .further_nil (by decide) (.seq_failed hfailed)
  | cons link ops ih =>
      obtain ⟨note, op⟩ := link
      obtain ⟨hop, hlater⟩ := List.forall_mem_cons.1 hops
      intro offset reach
      obtain ⟨offset₁, capture, reach₁, hlink, hname, htext⟩ :=
        settles_link hop hlater hoperand note offset reach
      obtain ⟨offset₂, captures, reach₂, hchain, htexts, hnames⟩ := ih hlater offset₁ reach₁
      rw [afterGap_prefixed hop]
      refine ⟨offset₂, [capture] ++ captures, reach₂, .further_cons (by decide) hlink hchain, ?_, ?_⟩
      · rw [List.map_append, htexts, List.map_singleton, htext]
        rfl
      · exact List.forall_mem_append.2 ⟨by simpa using hname, hnames⟩

/-- A chain of prefix operators is read back as it was printed: as many operators, in their order and
each with its own text, and behind them the text of the operand, with the gap at its front left out
if there is an operator before it. -/
theorem prefixes_read (ops : List (ι × String)) (operand : Ast ι) (depth : Nat) (rest : String)
    (offset reach fuel : Nat) (hops : ∀ op ∈ ops, op.2 ∈ prefixOperators)
    (hoperand : ¬ HasPrefix (afterGap (operand.unaryText depth ++ rest).toList))
    (hfuel : matchDepth ((Ast.prefixed ops operand).unaryText depth ++ rest).toList.length ≤ fuel) :
    ∃ c captures reach',
      run grammar fuel .tight .consuming prefixesPart
        ⟨((Ast.prefixed ops operand).unaryText depth ++ rest).toList, offset⟩ reach
        = .matched c captures reach' ∧
      captures.map Capture.text = ops.map Prod.snd ∧
      (∀ capture ∈ captures, capture.name = .prefixOp) ∧
      c.rest = if ops.isEmpty then (operand.unaryText depth ++ rest).toList
        else afterGap (operand.unaryText depth ++ rest).toList := by
  have hanswered : run grammar fuel .tight .consuming prefixesPart
      ⟨((Ast.prefixed ops operand).unaryText depth ++ rest).toList, offset⟩ reach
      ≠ .exhausted := by
    apply Peg.run_ne_exhausted grammar_gauged (by decide)
    exact affords_of_matchDepth_le (by decide) hfuel
  cases ops with
  | nil =>
      have hnone : ¬ HasPrefix (operand.unaryText depth ++ rest).toList := by
        intro h
        rw [afterGap_of_hasPrefix h] at hoperand
        exact hoperand h
      obtain ⟨reach', hfailed⟩ := settles_prefixOp_failed hnone offset reach
      have hstar : Settles grammar .tight .consuming prefixesPart
          ⟨(operand.unaryText depth ++ rest).toList, offset⟩ reach
          (.matched ⟨(operand.unaryText depth ++ rest).toList, offset⟩ [] reach') :=
        .star (by decide) (.further_nil (by decide) (.seq_failed hfailed))
      exact ⟨_, [], reach', hstar.run_eq hanswered, rfl, by simp, rfl⟩
  | cons link ops =>
      obtain ⟨note, op⟩ := link
      obtain ⟨offset', captures, reach', hchain, htexts, hnames⟩ :=
        settles_chain hops hoperand offset reach
      rw [afterGap_prefixed (hops (note, op) List.mem_cons_self)] at hchain
      have hstar := Settles.star (by decide) hchain
      exact ⟨_, captures, reach', hstar.run_eq hanswered, htexts, hnames, rfl⟩

end Chains

/-- Signs that would join, signs that do not, and a word. -/
def mixedChain : List (Unit × String) :=
  [((), "-"), ((), "--"), ((), "typeof"), ((), "+"), ((), "++"), ((), "+"), ((), "+")]

theorem prefixes_read_mixed :
    (∀ op ∈ mixedChain, op.2 ∈ prefixOperators) ∧
    (Ast.prefixed mixedChain (.node () (.ident "x"))).unaryText 0 = "- --typeof + +++ +x" ∧
    ¬ HasPrefix (afterGap "x;".toList) ∧
    ∃ c captures reach,
      run grammar (matchDepth 21) .tight .consuming prefixesPart ⟨"- --typeof + +++ +x;".toList, 0⟩ 0
        = .matched c captures reach ∧
      captures.map Capture.text = ["-", "--", "typeof", "+", "++", "+", "+"] ∧
      (∀ capture ∈ captures, capture.name = .prefixOp) ∧
      c.rest = "x;".toList := by
  have hops : ∀ op ∈ mixedChain, op.2 ∈ prefixOperators := by decide
  have htext : (Ast.prefixed mixedChain (.node () (.ident "x"))).unaryText 0
      = "- --typeof + +++ +x" := by decide +kernel
  have hfront : afterGap "x;".toList = "x;".toList := afterGap_cons (by decide) (by decide)
  have hoperand : ¬ HasPrefix (afterGap "x;".toList) := by
    rw [hfront]
    decide
  have hread := prefixes_read mixedChain (.node () (.ident "x")) 0 ";" 0 0 (matchDepth 21) hops
    hoperand (by rw [htext]; decide)
  rw [htext] at hread
  obtain ⟨c, captures, reach, hrun, htexts, hnames, hrest⟩ := hread
  refine ⟨hops, htext, hoperand, c, captures, reach, hrun, htexts, hnames, ?_⟩
  rw [hrest]
  exact hfront

end LogLabel.Program
