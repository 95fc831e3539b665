import LogLabel.Peg.Expr

set_option autoImplicit false

/-!
# Matching

`run` evaluates a parsing expression at a cursor. Its depth is bounded by a fuel
argument, and running out of fuel is an outcome of its own, apart from failure.

Besides the captures a match reports how far it looked: the greatest offset at
which a captured rule was noted as a failure. A rule is noted where it fails, and
inside a negative look-ahead where it succeeds; nothing is noted inside an atomic
rule.
-/

namespace LogLabel.Peg

/-- Treatment of blanks and inner rules while a body is matched. -/
inductive Spacing where
  /-- Blanks may stand between parts, and rules are captured. -/
  | free
  /-- No blanks between parts, but rules are captured. -/
  | tight
  /-- No blanks between parts, and rules are neither captured nor noted. -/
  | closed
deriving DecidableEq

/-- Kind of look-ahead in which an expression is matched. -/
inductive Gaze where
  | consuming
  | positive
  | negative
deriving DecidableEq

/-- The gaze inside a look-ahead that asks for a match. -/
def Gaze.affirm : Gaze → Gaze
  | .negative => .negative
  | _ => .positive

/-- The gaze inside a look-ahead that asks for no match. -/
def Gaze.deny : Gaze → Gaze
  | .negative => .positive
  | _ => .negative

/-- The spacing under which the body of a rule is matched. -/
def Form.inside (f : Form) (caller : Spacing) : Spacing :=
  match f with
  | .plain => caller
  | .silent => caller
  | .atomic => .closed
  | .compound => .tight
  | .spaced => .free

/-- The spacing that decides whether the rule itself is captured and noted. -/
def Form.outside (f : Form) (caller : Spacing) : Spacing :=
  match f with
  | .compound => .tight
  | .spaced => .free
  | _ => caller

/-- A place in the text: what is left of it, and the byte offset. -/
structure Cursor where
  rest : List Char
  offset : Nat

/-- The cursor after a given text, if the text is there. -/
def Cursor.eat (c : Cursor) : List Char → Option Cursor
  | [] => some c
  | x :: xs =>
      match c.rest with
      | [] => none
      | y :: rest => if x = y then Cursor.eat ⟨rest, c.offset + y.utf8Size⟩ xs else none

/-- A matched rule: its byte range, the text from its start on, and the rules captured inside. -/
inductive Capture (ρ : Type) where
  | mk (name : ρ) (start stop : Nat) (input : List Char) (inner : List (Capture ρ))

/-- Outcome of a match. -/
inductive Outcome (ρ : Type) where
  /-- The fuel was used up. -/
  | exhausted
  /-- No match; `reach` is the greatest offset of a noted rule. -/
  | failed (reach : Nat)
  /-- A match up to `cursor`. -/
  | matched (cursor : Cursor) (captures : List (Capture ρ)) (reach : Nat)

variable {ρ : Type}

/-- The reach after a rule that starts at `start` was noted, if it is to be noted. -/
def note (noted : Bool) (start reach : Nat) : Nat :=
  if noted then max reach start else reach

/-- What stands between two parts: blanks where spacing allows them, and nothing elsewhere. -/
def between (spacing : Spacing) (c : Cursor) (reach : Nat) (blanks : Unit → Outcome ρ) : Outcome ρ :=
  match spacing with
  | .free => blanks ()
  | _ => .matched c [] reach

/-- Matches an expression at a cursor. -/
def run (g : Grammar ρ) : Nat → Spacing → Gaze → Expr ρ → Cursor → Nat → Outcome ρ
  | 0, _, _, _, _, _ => .exhausted
  | fuel + 1, spacing, gaze, e, c, reach =>
    match e with
    | .text chars =>
        match c.eat chars with
        | some c => .matched c [] reach
        | none => .failed reach
    | .one accepts =>
        match c.rest with
        | [] => .failed reach
        | x :: rest =>
            if accepts x then .matched ⟨rest, c.offset + x.utf8Size⟩ [] reach else .failed reach
    | .rule name =>
        let d := g.define name
        match d.form with
        | .silent => run g fuel spacing gaze d.body c reach
        | form =>
            let visible := form.outside spacing ≠ .closed
            match run g fuel (form.inside spacing) gaze d.body c reach with
            | .exhausted => .exhausted
            | .failed reach => .failed (note (visible && gaze ≠ .negative) c.offset reach)
            | .matched c' inner reach =>
                .matched c'
                  (if visible && gaze = .consuming then
                    [.mk name c.offset c'.offset c.rest inner] else [])
                  (note (visible && gaze = .negative) c.offset reach)
    | .seq first second =>
        match run g fuel spacing gaze first c reach with
        | .exhausted => .exhausted
        | .failed reach => .failed reach
        | .matched c₁ captures₁ reach =>
            match between spacing c₁ reach fun _ =>
                run g fuel .closed gaze (.star g.blank) c₁ reach with
            | .exhausted => .exhausted
            | .failed reach => .failed reach
            | .matched c₂ _ reach =>
                match run g fuel spacing gaze second c₂ reach with
                | .exhausted => .exhausted
                | .failed reach => .failed reach
                | .matched c₃ captures₃ reach => .matched c₃ (captures₁ ++ captures₃) reach
    | .alt first second =>
        match run g fuel spacing gaze first c reach with
        | .failed reach => run g fuel spacing gaze second c reach
        | outcome => outcome
    | .opt e =>
        match run g fuel spacing gaze e c reach with
        | .failed reach => .matched c [] reach
        | outcome => outcome
    | .star e =>
        match run g fuel spacing gaze e c reach with
        | .exhausted => .exhausted
        | .failed reach => .matched c [] reach
        | .matched c₁ captures₁ reach =>
            match run g fuel spacing gaze (.further e) c₁ reach with
            | .matched c₂ captures₂ reach => .matched c₂ (captures₁ ++ captures₂) reach
            | outcome => outcome
    | .further e =>
        match between spacing c reach fun _ =>
            run g fuel .closed gaze (.star g.blank) c reach with
        | .exhausted => .exhausted
        | .failed reach => .matched c [] reach
        | .matched c₁ _ reach =>
            match run g fuel spacing gaze e c₁ reach with
            | .exhausted => .exhausted
            | .failed reach => .matched c [] reach
            | .matched c₂ captures₂ reach =>
                match run g fuel spacing gaze (.further e) c₂ reach with
                | .matched c₃ captures₃ reach => .matched c₃ (captures₂ ++ captures₃) reach
                | outcome => outcome
    | .present e =>
        match run g fuel spacing gaze.affirm e c reach with
        | .matched _ _ reach => .matched c [] reach
        | outcome => outcome
    | .absent e =>
        match run g fuel spacing gaze.deny e c reach with
        | .exhausted => .exhausted
        | .failed reach => .matched c [] reach
        | .matched _ _ reach => .failed reach

namespace Capture

/-- The rule that was captured. -/
def name : Capture ρ → ρ
  | .mk name _ _ _ _ => name

/-- The characters at the front of a text that fill `bytes` bytes. -/
def takeBytes : Nat → List Char → List Char
  | _, [] => []
  | bytes, c :: cs =>
      if bytes = 0 then [] else c :: takeBytes (bytes - c.utf8Size) cs

/-- The text a captured rule covers. -/
def text : Capture ρ → String
  | .mk _ start stop input _ => String.ofList (takeBytes (stop - start) input)

end Capture

end LogLabel.Peg
