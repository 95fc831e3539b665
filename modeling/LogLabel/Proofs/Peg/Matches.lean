import LogLabel.Peg.Match

set_option autoImplicit false

/-!
# Matches as a relation

What `run` does when it succeeds, without its fuel and without the reach it notes. One
constructor stands for each way in which an operator can match, so that a property of all
matches is proved by one induction over the relation.

* `Grammar.gap g spacing`: the expression that is skipped between two parts.
* `Form.shows f spacing gaze`: whether a rule of that form makes a capture.
* `Matches g spacing gaze e c c' captures`: the expression matches from `c` to `c'`.
* `matches_of_run`: every match of `run` is one of the relation.
-/

namespace LogLabel.Peg

variable {ρ : Type}

/-- What is skipped between two parts: blanks where spacing allows them, and nothing elsewhere. -/
def Grammar.gap (g : Grammar ρ) : Spacing → Expr ρ
  | .free => .star g.blank
  | _ => .text []

/-- Whether a rule makes a capture: not in a look-ahead, and not in an atomic rule unless its form
fixes the spacing. -/
def Form.shows (f : Form) (spacing : Spacing) (gaze : Gaze) : Bool :=
  f.outside spacing ≠ .closed && gaze = .consuming

/-- The expression matches from one cursor to another, with the given captures. That a choice or a
repetition takes the first way that succeeds is left out. -/
inductive Matches (g : Grammar ρ) (gaze : Gaze) :
    Spacing → Expr ρ → Cursor → Cursor → List (Capture ρ) → Prop
  | text {spacing : Spacing} {chars : List Char} {c c' : Cursor} (h : c.eat chars = some c') :
      Matches g gaze spacing (.text chars) c c' []
  | one {spacing : Spacing} {accepts : Char → Bool} {x : Char} {rest : List Char} {offset : Nat}
      (h : accepts x = true) :
      Matches g gaze spacing (.one accepts) ⟨x :: rest, offset⟩ ⟨rest, offset + x.utf8Size⟩ []
  | silent {spacing : Spacing} {name : ρ} {c c' : Cursor} {captures : List (Capture ρ)}
      (form : (g.define name).form = .silent)
      (body : Matches g gaze spacing (g.define name).body c c' captures) :
      Matches g gaze spacing (.rule name) c c' captures
  | captured {spacing : Spacing} {name : ρ} {c c' : Cursor} {inner : List (Capture ρ)}
      (form : (g.define name).form ≠ .silent)
      (shown : (g.define name).form.shows spacing gaze = true)
      (body : Matches g gaze ((g.define name).form.inside spacing) (g.define name).body c c' inner) :
      Matches g gaze spacing (.rule name) c c' [.mk name c.offset c'.offset c.rest inner]
  | hidden {spacing : Spacing} {name : ρ} {c c' : Cursor} {inner : List (Capture ρ)}
      (unshown : (g.define name).form.shows spacing gaze = false)
      (body : Matches g gaze ((g.define name).form.inside spacing) (g.define name).body c c' inner) :
      Matches g gaze spacing (.rule name) c c' []
  | seq {spacing : Spacing} {first second : Expr ρ} {c c₁ c₂ c₃ : Cursor}
      {captures₁ blanks captures₃ : List (Capture ρ)}
      (left : Matches g gaze spacing first c c₁ captures₁)
      (gap : Matches g gaze .closed (g.gap spacing) c₁ c₂ blanks)
      (right : Matches g gaze spacing second c₂ c₃ captures₃) :
      Matches g gaze spacing (.seq first second) c c₃ (captures₁ ++ captures₃)
  | left {spacing : Spacing} {first second : Expr ρ} {c c' : Cursor} {captures : List (Capture ρ)}
      (h : Matches g gaze spacing first c c' captures) :
      Matches g gaze spacing (.alt first second) c c' captures
  | right {spacing : Spacing} {first second : Expr ρ} {c c' : Cursor} {captures : List (Capture ρ)}
      (h : Matches g gaze spacing second c c' captures) :
      Matches g gaze spacing (.alt first second) c c' captures
  | given {spacing : Spacing} {e : Expr ρ} {c c' : Cursor} {captures : List (Capture ρ)}
      (h : Matches g gaze spacing e c c' captures) : Matches g gaze spacing (.opt e) c c' captures
  | omitted {spacing : Spacing} {e : Expr ρ} {c : Cursor} : Matches g gaze spacing (.opt e) c c []
  | starNil {spacing : Spacing} {e : Expr ρ} {c : Cursor} : Matches g gaze spacing (.star e) c c []
  | starCons {spacing : Spacing} {e : Expr ρ} {c c₁ c₂ : Cursor}
      {captures₁ captures₂ : List (Capture ρ)} (head : Matches g gaze spacing e c c₁ captures₁)
      (tail : Matches g gaze spacing (.further e) c₁ c₂ captures₂) :
      Matches g gaze spacing (.star e) c c₂ (captures₁ ++ captures₂)
  | furtherNil {spacing : Spacing} {e : Expr ρ} {c : Cursor} :
      Matches g gaze spacing (.further e) c c []
  | furtherCons {spacing : Spacing} {e : Expr ρ} {c c₁ c₂ c₃ : Cursor}
      {blanks captures₂ captures₃ : List (Capture ρ)}
      (gap : Matches g gaze .closed (g.gap spacing) c c₁ blanks)
      (head : Matches g gaze spacing e c₁ c₂ captures₂)
      (tail : Matches g gaze spacing (.further e) c₂ c₃ captures₃) :
      Matches g gaze spacing (.further e) c c₃ (captures₂ ++ captures₃)
  | present {spacing : Spacing} {e : Expr ρ} {c : Cursor} : Matches g gaze spacing (.present e) c c []
  | absent {spacing : Spacing} {e : Expr ρ} {c : Cursor} : Matches g gaze spacing (.absent e) c c []

variable {g : Grammar ρ} {gaze : Gaze}

/-- What is skipped between two parts matches as an expression. -/
theorem matches_gap {spacing : Spacing} {c c' : Cursor} {reach reach' : Nat}
    {captures : List (Capture ρ)} {blanks : Unit → Outcome ρ}
    (hblanks : blanks () = .matched c' captures reach' →
      Matches g gaze .closed (.star g.blank) c c' captures)
    (h : between spacing c reach blanks = .matched c' captures reach') :
    Matches g gaze .closed (g.gap spacing) c c' captures := by
  cases spacing with
  | free => exact hblanks h
  | tight =>
      cases h
      exact .text rfl
  | closed =>
      cases h
      exact .text rfl

/-- Every match of a run is one of the relation. -/
theorem matches_of_run :
    ∀ {fuel : Nat} {spacing : Spacing} {e : Expr ρ} {c c' : Cursor} {reach reach' : Nat}
      {captures : List (Capture ρ)},
      run g fuel spacing gaze e c reach = .matched c' captures reach' →
      Matches g gaze spacing e c c' captures := by
  intro fuel
  -- By induction on the fuel: a rule has its body run with less, and a body may be of any size.
  induction fuel with
  | zero => intro _ _ _ _ _ _ _ h; cases h
  | succ fuel ih =>
      intro spacing e c c' reach reach' captures h
      cases e with
      | text chars =>
          rw [run] at h
          split at h <;> cases h
          exact .text ‹_›
      | one accepts =>
          obtain ⟨rest, offset⟩ := c
          rw [run] at h
          cases rest with
          | nil => cases h
          | cons x rest =>
              dsimp only at h
              split at h <;> cases h
              exact .one ‹_›
      | rule name =>
          rw [run] at h
          dsimp only at h
          split at h
          -- A silent rule passes the captures of its body on. The others make one capture of them, or
          -- none inside of a look-ahead or an atomic rule.
          · next hform => exact .silent hform (ih h)
          · next hform =>
              split at h
              · cases h
              · cases h
              · next hbody =>
                  cases h
                  split
                  · next hshown => exact .captured hform hshown (ih hbody)
                  · next hshown => exact .hidden (Bool.eq_false_iff.2 hshown) (ih hbody)
      | seq first second =>
          rw [run] at h
          split at h
          · cases h
          · cases h
          · next hfirst =>
              split at h
              · cases h
              · cases h
              · next hgap =>
                  split at h <;> cases h
                  next hsecond => exact .seq (ih hfirst) (matches_gap ih hgap) (ih hsecond)
      | alt first second =>
          rw [run] at h
          split at h
          · exact .right (ih h)
          · exact .left (ih h)
      | opt e =>
          rw [run] at h
          split at h
          · cases h
            exact .omitted
          · exact .given (ih h)
      | star e =>
          rw [run] at h
          split at h
          · cases h
          · cases h
            exact .starNil
          · next hhead =>
              split at h
              · next htail =>
                  cases h
                  exact .starCons (ih hhead) (ih htail)
              · next hother => exact absurd h (hother _ _ _)
      | further e =>
          -- The repetition ends where the gap fails or no item follows it, and goes back to before it.
          rw [run] at h
          split at h
          · cases h
          · cases h
            exact .furtherNil
          · next hgap =>
              split at h
              · cases h
              · cases h
                exact .furtherNil
              · next hhead =>
                  split at h
                  · next htail =>
                      cases h
                      exact .furtherCons (matches_gap ih hgap) (ih hhead) (ih htail)
                  · next hother => exact absurd h (hother _ _ _)
      | present e =>
          rw [run] at h
          split at h
          · cases h
            exact .present
          · next hother => exact absurd h (hother _ _ _)
      | absent e =>
          rw [run] at h
          split at h <;> cases h
          exact .absent

end LogLabel.Peg
