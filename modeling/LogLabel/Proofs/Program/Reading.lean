import LogLabel.Proofs.Peg.Depth
import LogLabel.Proofs.Program.Building

set_option autoImplicit false

/-!
# Texts that are read and texts that are refused

Reading has three ways to fail: the text is no program, a template slot stands in a source file,
or the reader itself breaks down. The last one never happens, for two reasons. Matching ends,
because no rule of the grammar comes back to itself before a character is read. And what was
matched can be built, because the builder knows every rule in every place where the grammar puts
it.

* `Rule.height`, `gauge`, `grammar_gauged`: the rules in layers, each above the rules that it can
  enter before a character is read.
* `matchText_ne_exhausted`: matching ends for every text.
* `slotsOf`: the template slots of a capture, from left to right.
* `permit`: what was read in a mode, given the slots that were met.
* `Piece.ofCapture_of_formed`, `bodyOf_of_matches`: whatever the grammar captures is built, and
  the mode matters for the first slot only.
* `parse_ok_or_refused`: so a text gives a tree or a parse error, in both modes.
-/

namespace LogLabel.Program

open Peg (Capture Cursor Gauge Matches)
open List (Forall₂)

/-! ## Layers of rules -/

/-- The layer of a rule. A rule stands above the rules that its body can start with. -/
def Rule.height : Rule → Nat
  | .program => 200
  | .statement => 190
  | .exprStmt => 170
  | .expression | .yieldArgument => 160
  | .assignment => 150
  | .conditional => 140
  | .binary => 130
  | .unary => 120
  | .suffixed | .assignExpr => 110
  | .callMember => 100
  | .newCallee => 90
  | .primary | .arrowFunction | .method | .property => 80
  | .arrowParams => 70
  | .identifier => 50
  | .keyword => 45
  | r => if r.isToken then 20 else 60

/-- The layers of the rules. Only a program and the end of the text may be empty. -/
def gauge : Gauge Rule where
  mayBeEmpty r := r = .program || r = .endOfInput
  height := Rule.height
  gap := 10

/-- No rule comes back to itself before a character is read. -/
theorem grammar_gauged : grammar.Gauged gauge 512 where
  mayBeEmpty r := by
    cases r with
    | word w => cases w <;> decide
    | keyword => decide +kernel
    | _ => decide
  height r := by
    cases r with
    | word w => cases w <;> decide
    | keyword => decide +kernel
    | _ => decide
  isSteady r := by
    cases r with
    | word w => cases w <;> decide
    | keyword => decide +kernel
    | _ => decide
  gapHeight := by decide
  gapSteady := by decide

/-- The fuel that a length gets pays for every expression that is not too high, on a text of that
length. -/
theorem affords_of_matchDepth_le {e : Rule.Part} (hheight : e.height gauge ≤ 512) {c : Peg.Cursor}
    {fuel : Nat} (h : matchDepth c.rest.length ≤ fuel) : Peg.Affords gauge 512 fuel e c := by
  rw [matchDepth] at h
  rw [Peg.Affords]
  omega

/-- The fuel that a length gets pays for a program of that length. -/
theorem affords_matchDepth (text : String) :
    Peg.Affords gauge 512 (matchDepth text.toList.length) (.rule .program) ⟨text.toList, 0⟩ := by
  apply affords_of_matchDepth_le
  · decide
  · exact Nat.le_refl _

/-- Matching ends for every text. -/
theorem matchText_ne_exhausted (text : String) : matchText text ≠ .exhausted :=
  Peg.run_ne_exhausted grammar_gauged rfl (affords_matchDepth text)

/-! ## Slots among captures -/

mutual

/-- The spans of the template slots of a capture, from left to right. -/
def slotsOf : Capture Rule → List Span
  | .mk rule start stop _ inner => if rule = .placeholder then [⟨start, stop⟩] else slotsOfAll inner

/-- The spans of the template slots of several captures. -/
def slotsOfAll : List (Capture Rule) → List Span
  | [] => []
  | c :: cs => slotsOf c ++ slotsOfAll cs

end

/-- What is read in a mode: in a source file the first template slot is refused. -/
def permit {α : Type} (mode : Mode) (slots : List Span) (a : α) : Except Diagnostic α :=
  match mode, slots with
  | .source, span :: _ => .error ⟨.strayPlaceholder, some span⟩
  | _, _ => .ok a

section Permit

variable {α β : Type}

@[simp] theorem permit_template (slots : List Span) (a : α) : permit .template slots a = .ok a := by
  cases slots <;> rfl

@[simp] theorem permit_nil (mode : Mode) (a : α) : permit mode [] a = .ok a := by
  cases mode <;> rfl

theorem permit_cases (mode : Mode) (slots : List Span) (a : α) :
    permit mode slots a = .ok a ∨
      ∃ span, permit mode slots a = .error ⟨.strayPlaceholder, some span⟩ := by
  unfold permit
  split
  · exact Or.inr ⟨_, rfl⟩
  · exact Or.inl rfl

@[simp] theorem permit_source_cons (span : Span) (slots : List Span) (a : α) :
    permit .source (span :: slots) a = .error ⟨.strayPlaceholder, some span⟩ := rfl

/-- A source file has no slots. -/
theorem permit_source_eq_ok_iff {slots : List Span} {a b : α} :
    permit .source slots a = .ok b ↔ slots = [] ∧ a = b := by
  cases slots <;> simp

/-- What comes after a refusal is not looked at. -/
theorem permit_bind (mode : Mode) (left right : List Span) (a : α) (f : α → β) :
    (permit mode left a).bind (fun a => permit mode right (f a))
      = permit mode (left ++ right) (f a) := by
  cases mode with
  | template => simp [Except.bind]
  | source =>
      cases left with
      | nil => rfl
      | cons span left => rfl

theorem permit_map (mode : Mode) (slots : List Span) (a : α) (f : α → β) :
    (permit mode slots a).map f = permit mode slots (f a) := by
  cases mode with
  | template => simp [Except.map]
  | source =>
      cases slots with
      | nil => rfl
      | cons span slots => rfl

end Permit

/-! ## Captured programs -/

namespace Piece

theorem ofCaptures_eq_bind (mode : Mode) (c : Capture Rule) (cs : List (Capture Rule)) :
    ofCaptures mode (c :: cs)
      = (ofCapture mode c).bind fun p => (ofCaptures mode cs).map (p :: ·) := by
  rw [ofCaptures]
  cases ofCapture mode c with
  | error d => rfl
  | ok p => cases ofCaptures mode cs <;> rfl

/-- Captures that are built one by one are built together. -/
theorem ofCaptures_of_forall {cs : List (Capture Rule)}
    (h : ∀ c ∈ cs, ∃ p, (∀ mode, ofCapture mode c = permit mode (slotsOf c) p) ∧ Fits c.name p ∧
      p.slots = slotsOf c) :
    ∃ ps, (∀ mode, ofCaptures mode cs = permit mode (slotsOfAll cs) ps) ∧
      Forall₂ Fits (cs.map Capture.name) ps ∧ ps.flatMap slots = slotsOfAll cs := by
  induction cs with
  | nil => exact ⟨[], fun mode => (permit_nil mode _).symm, .nil, rfl⟩
  | cons c cs ih =>
      rw [List.forall_mem_cons] at h
      obtain ⟨⟨p, hp, hfit, hslots⟩, h⟩ := h
      obtain ⟨ps, hps, hfits, hslots'⟩ := ih h
      refine ⟨p :: ps, fun mode => ?_, .cons hfit hfits, ?_⟩
      · simp only [ofCaptures_eq_bind, hp, hps, permit_map, permit_bind, slotsOfAll]
      · rw [List.flatMap_cons, hslots, hslots', slotsOfAll]

/-- A slot is built as a node of its own span. -/
theorem assemble_placeholder {names : List Rule} {ps : List Piece} {span : Span}
    {text : Unit → String} (htakes : Rule.placeholder.takes names = true)
    (h : Forall₂ Fits names ps) :
    ∃ name, assemble .placeholder span text ps = some (.draft (.node span (.placeholder name))) := by
  simp only [Rule.takes] at htakes
  split at htakes
  · obtain _ | ⟨⟨_, name, rfl⟩, _ | _⟩ := h
    exact ⟨name, rfl⟩
  · cases htakes

/-- A capture whose parts are taken at every depth makes up a piece that fits its rule and has its
slots. -/
theorem ofCapture_of_formed {c : Capture Rule} (h : c.Formed Rule.Holds) :
    c.name ≠ .program → ∃ p, (∀ mode, ofCapture mode c = permit mode (slotsOf c) p) ∧
      Fits c.name p ∧ p.slots = slotsOf c := by
  induction h with
  | @mk name start stop input inner holds _ ih =>
      intro hname
      obtain ⟨ps, hps, hfits, hslots⟩ := ofCaptures_of_forall fun c hc => ih c hc fun h =>
        holds.2 (h ▸ List.mem_map_of_mem hc)
      by_cases hslot : name = .placeholder
      · -- A source file is refused here, before the name of the slot is looked at.
        subst hslot
        obtain ⟨label, hlabel⟩ := assemble_placeholder holds.1 hfits
        refine ⟨.draft (.node ⟨start, stop⟩ (.placeholder label)), fun mode => ?_, ⟨_, rfl⟩, ?_⟩
        · rw [ofCapture, slotsOf, if_pos rfl]
          cases mode with
          | source => rw [if_pos ⟨rfl, rfl⟩]; rfl
          | template =>
              rw [if_neg (by simp), if_pos holds.1, hps, permit_template]
              dsimp only
              rw [hlabel]
              rfl
        · rw [slotsOf, if_pos rfl]
          rfl
      · obtain ⟨p, hp, hfit, hkept⟩ : Built name ⟨start, stop⟩
            (fun _ => (Capture.mk name start stop input []).text) ps :=
          built_of_takes holds.1 hname hfits
        refine ⟨p, fun mode => ?_, hfit, ?_⟩
        · rw [ofCapture, if_neg (fun h => hslot h.2), if_pos holds.1, hps, slotsOf, if_neg hslot]
          cases mode with
          | template => rw [permit_template, permit_template]; exact congrArg complete hp
          | source =>
              cases slotsOfAll inner with
              | nil => exact congrArg complete hp
              | cons span spans => rfl
        · rw [slotsOf, if_neg hslot, hkept hslot, hslots]

end Piece

/-- The statements of a captured program can be read, up to its first slot. -/
theorem bodyOf_of_formed {start stop : Nat} {input : List Char} {inner : List (Capture Rule)}
    (h : (Capture.mk Rule.program start stop input inner).Formed Rule.Holds) :
    ∃ body : List Draft,
      ∀ mode, bodyOf mode [.mk .program start stop input inner]
        = permit mode (body.flatMap Draft.placeholders) body := by
  obtain ⟨holds, hparts⟩ := h
  obtain ⟨ps, hps, hfits, hslots⟩ := Piece.ofCaptures_of_forall fun c hc =>
    Piece.ofCapture_of_formed (hparts c hc) fun h => holds.2 (h ▸ List.mem_map_of_mem hc)
  have hkept := Piece.forall₂_filter (f := (· ≠ .endOfInput)) (g := (!·.isToken .endOfInput))
    (fun r p hp => by rw [hp.isToken_endOfInput_eq, decide_not]) hfits
  obtain ⟨body, hbody⟩ := Piece.exists_mapM (f := Piece.draft?)
    (Piece.forall_of_fits hkept holds.1 fun _ _ hr hp => hp.statement hr)
  have hlisted : body.flatMap Draft.placeholders = slotsOfAll inner := by
    rw [← Piece.slots_mapM hbody, ← hslots]
    refine Piece.slots_filter (fun p hp => ?_) ps
    cases p with
    | token r s t => exact Piece.slots_token r s t
    | _ => cases hp
  refine ⟨body, fun mode => ?_⟩
  rw [bodyOf, if_pos holds.1, hps, hlisted]
  cases mode with
  | template => rw [permit_template, permit_template]; exact congrArg Piece.complete hbody
  | source =>
      cases slotsOfAll inner with
      | nil => exact congrArg Piece.complete hbody
      | cons span spans => rfl

/-- Whatever the grammar captures as a program is built, up to its first slot. -/
theorem bodyOf_of_matches {c c' : Cursor} {captures : List (Capture Rule)}
    (h : Matches grammar .consuming .free (.rule .program) c c' captures) :
    ∃ body : List Draft,
      ∀ mode, bodyOf mode captures = permit mode (body.flatMap Draft.placeholders) body := by
  have hformed := (h.formed grammar_forms (by decide)).2
  cases h with
  | silent form _ => cases form
  | captured _ _ _ => exact bodyOf_of_formed (hformed _ (List.mem_singleton.2 rfl))
  | hidden unshown _ => cases unshown

/-- A text that matches is a list of statements, up to its first slot, and any other one is
malformed. -/
theorem draftsIn_cases (text : String) :
    (∃ body : List Draft,
      ∀ mode, draftsIn mode text = permit mode (body.flatMap Draft.placeholders) body) ∨
    ∃ reach, matchText text = .failed reach ∧
      ∀ mode, draftsIn mode text = .error ⟨.malformedProgram, some ⟨reach, reach⟩⟩ := by
  unfold draftsIn
  cases hmatch : matchText text with
  | exhausted => exact absurd hmatch (matchText_ne_exhausted text)
  | failed reach => exact Or.inr ⟨reach, rfl, fun _ => rfl⟩
  | matched c captures reach => exact Or.inl (bodyOf_of_matches (Peg.matches_of_run hmatch))

/-- The statements of a source file have no slots. -/
theorem placeholders_of_draftsIn {text : String} {body : List Draft}
    (h : draftsIn .source text = .ok body) : body.flatMap Draft.placeholders = [] := by
  obtain ⟨body', hbody⟩ | ⟨reach, -, herror⟩ := draftsIn_cases text
  · rw [hbody, permit_source_eq_ok_iff] at h
    obtain ⟨hslots, rfl⟩ := h
    exact hslots
  · rw [herror] at h
    cases h

/-! ## Every text -/

/-- Every text gives a tree or a parse error, in both modes, and every capture that the grammar can
make of a program is built or refused for a template slot: no part that the builder asks for is
missing, and it meets no rule that it does not know in its place. -/
theorem parse_ok_or_refused :
    (∀ (mode : Mode) (text : String),
      (∃ t, parse mode text = .ok t) ∨ ∃ d, parse mode text = .error d ∧ d.category = .parse) ∧
    ∀ (c c' : Cursor) (captures : List (Capture Rule)),
      Matches grammar .consuming .free (.rule .program) c c' captures →
      (∃ body, bodyOf .template captures = .ok body) ∧
      ((∃ body, bodyOf .source captures = .ok body) ∨
        ∃ d, bodyOf .source captures = .error d ∧ d.category = .parse) := by
  refine ⟨fun mode text => ?_, fun c c' captures h => ?_⟩
  · unfold parse
    obtain ⟨body, hbody⟩ | ⟨reach, -, herror⟩ := draftsIn_cases text
    · rw [hbody]
      obtain hok | ⟨span, herror⟩ := permit_cases mode (body.flatMap Draft.placeholders) body
      · exact Or.inl ⟨_, by rw [hok]; rfl⟩
      · exact Or.inr ⟨_, by rw [herror]; rfl, rfl⟩
    · rw [herror]
      exact Or.inr ⟨_, rfl, rfl⟩
  · obtain ⟨body, hbody⟩ := bodyOf_of_matches h
    refine ⟨⟨body, by rw [hbody, permit_template]⟩, ?_⟩
    rw [hbody]
    obtain hok | ⟨span, herror⟩ := permit_cases .source (body.flatMap Draft.placeholders) body
    · exact Or.inl ⟨body, hok⟩
    · exact Or.inr ⟨_, herror, rfl⟩

/-- A class with an accessor under a computed key is captured and built. -/
theorem parse_ok_or_refused_class :
    ∃ c captures reach,
      matchText "class A extends b.c \x7b static get [x]() \x7b return 1 \x7d \x7d"
        = .matched c captures reach ∧ ∃ body, bodyOf .template captures = .ok body := by
  have hread : (draftsIn .template
      "class A extends b.c \x7b static get [x]() \x7b return 1 \x7d \x7d").toOption.isSome = true := by
    decide +kernel
  rw [draftsIn] at hread
  cases hmatch : matchText "class A extends b.c \x7b static get [x]() \x7b return 1 \x7d \x7d" with
  | exhausted => rw [hmatch] at hread; cases hread
  | failed reach => rw [hmatch] at hread; cases hread
  | matched c captures reach =>
      exact ⟨c, captures, reach, rfl,
        (parse_ok_or_refused.2 _ _ _ (Peg.matches_of_run hmatch)).1⟩

end LogLabel.Program
