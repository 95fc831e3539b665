import LogLabel.Proofs.Peg.Effort
import LogLabel.Proofs.Program.Reading

set_option autoImplicit false

/-!
# Matching a text comes to an end

The layers of the rules say more than that a text is matched with the fuel it is given. A rule that
is entered again inside of itself stands behind a character that was read since, every repetition
reads a character each time, and the calls that a text can cause are bounded by its length alone.

* `startOf`: the task that a text is matched by.
* `length_lt_of_rule_returns`: no rule comes back to itself before a character is read.
* `IsRepeated`, `length_lt_of_isRepeated`: nothing that is repeated, blanks included, matches the
  empty text.
* `matching_ends`: so the fuel that a length gets is enough for every text of it, more fuel
  changes nothing, and the calls are bounded by it as well.
-/

namespace LogLabel.Program

open Peg (Capture Cursor Expr Gaze Spacing)

/-- The program at the start of a text. -/
def startOf (text : String) : Peg.Task Rule :=
  ⟨.free, .consuming, .rule .program, ⟨text.toList, 0⟩, 0⟩

theorem isSteady_rule (name : Rule) : (Expr.rule name).isSteady gauge 512 = true := by
  cases name with
  | word w => cases w <;> decide
  | _ => decide

/-- No rule comes back to itself before a character is read. -/
theorem length_lt_of_rule_returns {name : Rule} {t t' : Peg.Task Rule}
    (h : Relation.TransGen (Peg.Task.Enters grammar) t t') (ht : t.expr = .rule name)
    (ht' : t'.expr = .rule name) : t'.cursor.rest.length < t.cursor.rest.length := by
  refine Peg.Task.length_lt_of_returns grammar_gauged ?_ h (ht'.trans ht.symm)
  rw [ht]
  exact isSteady_rule name

/-- What is repeated in the body of a rule, or between two parts of a body. -/
def IsRepeated (e : Expr Rule) : Prop :=
  e ∈ (Expr.star grammar.blank).repeated ∨ ∃ name, e ∈ (grammar.define name).body.repeated

/-- Nothing that is repeated matches the empty text. -/
theorem length_lt_of_isRepeated {e : Expr Rule} (he : IsRepeated e) {fuel : Nat} {spacing : Spacing}
    {gaze : Gaze} {c c' : Cursor} {reach reach' : Nat} {captures : List (Capture Rule)}
    (h : Peg.run grammar fuel spacing gaze e c reach = .matched c' captures reach') :
    c'.rest.length < c.rest.length := by
  rcases he with he | ⟨name, he⟩
  · exact Peg.length_lt_of_mem_repeated grammar_gauged grammar_gauged.gapSteady he h
  · exact Peg.length_lt_of_mem_repeated grammar_gauged (grammar_gauged.isSteady name) he h

/-- Matching ends. No rule comes back to itself before a character is read, and nothing that is
repeated matches the empty text. So the fuel that the length of a text gets is enough for it, the
calls are bounded by that length whatever fuel a run has, and a run that was answered is answered
the same with more fuel. -/
theorem matching_ends :
    (∀ name t t', Relation.TransGen (Peg.Task.Enters grammar) t t' → t.expr = .rule name →
      t'.expr = .rule name → t'.cursor.rest.length < t.cursor.rest.length) ∧
    (∀ e, IsRepeated e → ∀ fuel spacing gaze c reach c' captures reach',
      Peg.run grammar fuel spacing gaze e c reach = .matched c' captures reach' →
      c'.rest.length < c.rest.length) ∧
    ∀ text,
      matchText text ≠ .exhausted ∧
      (∀ fuel, matchDepth text.toList.length ≤ fuel →
        (startOf text).outcome grammar fuel = matchText text) ∧
      (∀ fuel, (startOf text).effort grammar fuel ≤ 4 ^ matchDepth text.toList.length) ∧
      ∀ fuel fuel', fuel ≤ fuel' → (startOf text).outcome grammar fuel ≠ .exhausted →
        (startOf text).outcome grammar fuel' = (startOf text).outcome grammar fuel := by
  refine ⟨fun _ _ _ => length_lt_of_rule_returns, ?_, fun text => ?_⟩
  · intro e he fuel spacing gaze c reach c' captures reach' h
    exact length_lt_of_isRepeated he h
  · have hne := matchText_ne_exhausted text
    refine ⟨hne, fun fuel hfuel => ?_, fun fuel => ?_, fun fuel fuel' hle hanswered => ?_⟩
    · exact Peg.Task.outcome_eq_of_le (t := startOf text) hfuel hne
    · exact Peg.Task.effort_le grammar_gauged (isSteady_rule .program) (affords_matchDepth text)
    · exact Peg.Task.outcome_eq_of_le hle hanswered

/-- A block inside of a block: the rule is entered again behind the first brace. -/
theorem block_returns :
    Relation.TransGen (Peg.Task.Enters grammar)
      ⟨.free, .consuming, .rule .block, ⟨"\x7b\x7b\x7d\x7d".toList, 0⟩, 0⟩
      ⟨.free, .consuming, .rule .block, ⟨"\x7b\x7d\x7d".toList, 1⟩, 0⟩ := by
  refine .head ⟨0, List.mem_cons_self⟩ ?_
  -- The brace is matched first, and no blanks stand behind it.
  refine .head ⟨9, Peg.Plan.mem_entered_enter.2 (.inr (.inr ⟨⟨"\x7b\x7d\x7d".toList, 1⟩, [], 0, rfl,
    Peg.Plan.mem_entered_enter.2 (.inr (.inr
      ⟨⟨"\x7b\x7d\x7d".toList, 1⟩, [], 0, rfl, List.mem_cons_self⟩))⟩))⟩ ?_
  refine .head ⟨0, List.mem_cons_self⟩ ?_
  refine .head ⟨0, List.mem_cons_self⟩ ?_
  refine .head ⟨0, List.mem_cons_self⟩ ?_
  exact .single ⟨0, List.mem_cons_self⟩

theorem matching_ends_nested_block :
    "\x7b\x7d\x7d".toList.length < "\x7b\x7b\x7d\x7d".toList.length ∧
    IsRepeated (.rule .statement) ∧
    (∃ c captures reach,
      Peg.run grammar 9 .free .consuming (.rule .statement) ⟨[';'], 0⟩ 0
          = .matched c captures reach ∧
        c.rest.length < 1) ∧
    (startOf ";").outcome grammar 1025 = matchText ";" ∧
    (startOf ";").effort grammar 1025 ≤ 4 ^ matchDepth ";".toList.length := by
  obtain ⟨hreturns, hrepeated, htext⟩ := matching_ends
  have hstatement : IsRepeated (.rule .statement) := .inr ⟨.program, List.mem_cons_self⟩
  have hmatch : Peg.run grammar 9 .free .consuming (.rule .statement) ⟨[';'], 0⟩ 0
      = .matched ⟨[], 1⟩ [.mk .emptyStmt 0 1 [';'] []] 0 := rfl
  obtain ⟨-, henough, heffort, -⟩ := htext ";"
  exact ⟨hreturns _ _ _ block_returns rfl rfl, hstatement,
    ⟨_, _, _, hmatch, hrepeated _ hstatement _ _ _ _ _ _ _ _ hmatch⟩, henough 1025 (by decide),
    heffort 1025⟩

end LogLabel.Program
