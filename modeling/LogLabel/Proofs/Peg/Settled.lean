import LogLabel.Proofs.Peg.Plan

set_option autoImplicit false

/-!
# Outcomes for all fuel

What `run` answers once it has fuel enough, operator by operator, where no blanks are skipped
between two parts. With these an expression is shown to match a given text: it takes the choices
that the operators take, and the fuel is never counted.

* `Settles g spacing gaze e c reach outcome`: from some fuel on a run has the outcome.
* `Settles.run_eq`: then it has this outcome with any fuel that is enough for an answer.
-/

namespace LogLabel.Peg

variable {ρ : Type} {g : Grammar ρ} {spacing : Spacing} {gaze : Gaze} {e first second : Expr ρ}
  {c c₁ c₂ : Cursor} {captures captures₁ captures₂ : List (Capture ρ)} {reach reach₁ reach₂ : Nat}
  {outcome : Outcome ρ}

/-- From some fuel on a run has the outcome. -/
def Settles (g : Grammar ρ) (spacing : Spacing) (gaze : Gaze) (e : Expr ρ) (c : Cursor) (reach : Nat)
    (outcome : Outcome ρ) : Prop :=
  ∃ enough, ∀ fuel, enough ≤ fuel → run g fuel spacing gaze e c reach = outcome

/-- Nothing is skipped where blanks are not allowed. -/
theorem between_of_ne_free {blanks : Unit → Outcome ρ} (h : spacing ≠ .free) :
    between spacing c reach blanks = .matched c [] reach := by
  cases spacing with
  | free => exact absurd rfl h
  | tight => rfl
  | closed => rfl

namespace Settles

/-- An operator that enters its parts with one unit less. -/
theorem of_succ (h : ∃ enough, ∀ fuel, enough ≤ fuel →
      run g (fuel + 1) spacing gaze e c reach = outcome) :
    Settles g spacing gaze e c reach outcome := by
  obtain ⟨enough, henough⟩ := h
  refine ⟨enough + 1, fun fuel hfuel => ?_⟩
  obtain ⟨fuel, rfl⟩ := Nat.exists_eq_add_of_le' hfuel
  exact henough _ (Nat.le_add_left _ _)

/-- Fuel enough for both of two runs. -/
theorem both {e₁ e₂ : Expr ρ} {o₁ o₂ : Outcome ρ} (h₁ : Settles g spacing gaze e₁ c₁ reach₁ o₁)
    (h₂ : Settles g spacing gaze e₂ c₂ reach₂ o₂) :
    ∃ enough, ∀ fuel, enough ≤ fuel →
      run g fuel spacing gaze e₁ c₁ reach₁ = o₁ ∧ run g fuel spacing gaze e₂ c₂ reach₂ = o₂ := by
  obtain ⟨enough₁, henough₁⟩ := h₁
  obtain ⟨enough₂, henough₂⟩ := h₂
  exact ⟨max enough₁ enough₂, fun fuel hfuel => ⟨henough₁ fuel (by omega), henough₂ fuel (by omega)⟩⟩

/-- A run that is answered has the outcome. -/
theorem run_eq {fuel : Nat} (h : Settles g spacing gaze e c reach outcome)
    (hanswered : run g fuel spacing gaze e c reach ≠ .exhausted) :
    run g fuel spacing gaze e c reach = outcome := by
  obtain ⟨enough, henough⟩ := h
  have hmore := Task.outcome_eq_of_le (t := ⟨spacing, gaze, e, c, reach⟩)
    (Nat.le_max_left fuel enough) hanswered
  exact hmore.symm.trans (henough _ (Nat.le_max_right fuel enough))

theorem text {chars : List Char} (h : c.eat chars = some c₁) :
    Settles g spacing gaze (.text chars) c reach (.matched c₁ [] reach) :=
  of_succ ⟨0, fun fuel _ => by rw [run, h]⟩

theorem text_failed {chars : List Char} (h : c.eat chars = none) :
    Settles g spacing gaze (.text chars) c reach (.failed reach) :=
  of_succ ⟨0, fun fuel _ => by rw [run, h]⟩

theorem one {accepts : Char → Bool} {x : Char} {rest : List Char} {offset : Nat}
    (h : accepts x = true) :
    Settles g spacing gaze (.one accepts) ⟨x :: rest, offset⟩ reach
      (.matched ⟨rest, offset + x.utf8Size⟩ [] reach) :=
  of_succ ⟨0, fun fuel _ => by simp only [run, h, if_true]⟩

theorem one_failed {accepts : Char → Bool} {x : Char} {rest : List Char} {offset : Nat}
    (h : accepts x = false) :
    Settles g spacing gaze (.one accepts) ⟨x :: rest, offset⟩ reach (.failed reach) :=
  of_succ ⟨0, fun fuel _ => by simp [run, h]⟩

theorem one_nil {accepts : Char → Bool} {offset : Nat} :
    Settles g spacing gaze (.one accepts) ⟨[], offset⟩ reach (.failed reach) :=
  of_succ ⟨0, fun fuel _ => by simp [run]⟩

theorem seq (hspacing : spacing ≠ .free)
    (hfirst : Settles g spacing gaze first c reach (.matched c₁ captures₁ reach₁))
    (hsecond : Settles g spacing gaze second c₁ reach₁ (.matched c₂ captures₂ reach₂)) :
    Settles g spacing gaze (.seq first second) c reach
      (.matched c₂ (captures₁ ++ captures₂) reach₂) := by
  obtain ⟨enough, henough⟩ := hfirst.both hsecond
  refine of_succ ⟨enough, fun fuel hfuel => ?_⟩
  obtain ⟨hone, htwo⟩ := henough fuel hfuel
  simp only [run, hone, between_of_ne_free hspacing, htwo]

theorem seq_failed (hfirst : Settles g spacing gaze first c reach (.failed reach₁)) :
    Settles g spacing gaze (.seq first second) c reach (.failed reach₁) := by
  obtain ⟨enough, henough⟩ := hfirst
  exact of_succ ⟨enough, fun fuel hfuel => by simp only [run, henough fuel hfuel]⟩

theorem seq_failed_later (hspacing : spacing ≠ .free)
    (hfirst : Settles g spacing gaze first c reach (.matched c₁ captures₁ reach₁))
    (hsecond : Settles g spacing gaze second c₁ reach₁ (.failed reach₂)) :
    Settles g spacing gaze (.seq first second) c reach (.failed reach₂) := by
  obtain ⟨enough, henough⟩ := hfirst.both hsecond
  refine of_succ ⟨enough, fun fuel hfuel => ?_⟩
  obtain ⟨hone, htwo⟩ := henough fuel hfuel
  simp only [run, hone, between_of_ne_free hspacing, htwo]

theorem left (h : Settles g spacing gaze first c reach (.matched c₁ captures reach₁)) :
    Settles g spacing gaze (.alt first second) c reach (.matched c₁ captures reach₁) := by
  obtain ⟨enough, henough⟩ := h
  exact of_succ ⟨enough, fun fuel hfuel => by simp only [run, henough fuel hfuel]⟩

theorem right (hfirst : Settles g spacing gaze first c reach (.failed reach₁))
    (hsecond : Settles g spacing gaze second c reach₁ outcome) :
    Settles g spacing gaze (.alt first second) c reach outcome := by
  obtain ⟨enough, henough⟩ := hfirst.both hsecond
  refine of_succ ⟨enough, fun fuel hfuel => ?_⟩
  obtain ⟨hone, htwo⟩ := henough fuel hfuel
  simp only [run, hone, htwo]

theorem further_nil (hspacing : spacing ≠ .free)
    (h : Settles g spacing gaze e c reach (.failed reach₁)) :
    Settles g spacing gaze (.further e) c reach (.matched c [] reach₁) := by
  obtain ⟨enough, henough⟩ := h
  refine of_succ ⟨enough, fun fuel hfuel => ?_⟩
  simp only [run, between_of_ne_free hspacing, henough fuel hfuel]

theorem further_cons (hspacing : spacing ≠ .free)
    (hhead : Settles g spacing gaze e c reach (.matched c₁ captures₁ reach₁))
    (htail : Settles g spacing gaze (.further e) c₁ reach₁ (.matched c₂ captures₂ reach₂)) :
    Settles g spacing gaze (.further e) c reach (.matched c₂ (captures₁ ++ captures₂) reach₂) := by
  obtain ⟨enough, henough⟩ := hhead.both htail
  refine of_succ ⟨enough, fun fuel hfuel => ?_⟩
  obtain ⟨hone, htwo⟩ := henough fuel hfuel
  simp only [run, between_of_ne_free hspacing, hone, htwo]

/-- Where no blanks are skipped, the first repetition is like the further ones. -/
theorem star (hspacing : spacing ≠ .free) (h : Settles g spacing gaze (.further e) c reach outcome) :
    Settles g spacing gaze (.star e) c reach outcome := by
  obtain ⟨enough, henough⟩ := h
  refine ⟨enough, fun fuel hfuel => ?_⟩
  rw [← henough fuel hfuel]
  cases fuel with
  | zero => rfl
  | succ fuel => simp only [run, between_of_ne_free hspacing]

theorem absent (h : Settles g spacing gaze.deny e c reach (.failed reach₁)) :
    Settles g spacing gaze (.absent e) c reach (.matched c [] reach₁) := by
  obtain ⟨enough, henough⟩ := h
  exact of_succ ⟨enough, fun fuel hfuel => by simp only [run, henough fuel hfuel]⟩

theorem absent_failed (h : Settles g spacing gaze.deny e c reach (.matched c₁ captures reach₁)) :
    Settles g spacing gaze (.absent e) c reach (.failed reach₁) := by
  obtain ⟨enough, henough⟩ := h
  exact of_succ ⟨enough, fun fuel hfuel => by simp only [run, henough fuel hfuel]⟩

/-- A rule ends where its body does, and makes a capture if it shows. -/
theorem rule {name : ρ} (hform : (g.define name).form ≠ .silent)
    (hbody : Settles g ((g.define name).form.inside spacing) gaze (g.define name).body c reach
      (.matched c₁ captures reach₁)) :
    ∃ reach', Settles g spacing gaze (.rule name) c reach
      (.matched c₁ (if (g.define name).form.shows spacing gaze then
        [.mk name c.offset c₁.offset c.rest captures] else []) reach') := by
  obtain ⟨enough, henough⟩ := hbody
  refine ⟨note ((g.define name).form.outside spacing ≠ .closed && gaze = .negative) c.offset reach₁,
    of_succ ⟨enough, fun fuel hfuel => ?_⟩⟩
  rw [run]
  split
  · next h => exact absurd h hform
  · simp only [henough fuel hfuel]
    rfl

/-- A rule fails where its body does. -/
theorem rule_failed {name : ρ} (hform : (g.define name).form ≠ .silent)
    (hbody : Settles g ((g.define name).form.inside spacing) gaze (g.define name).body c reach
      (.failed reach₁)) :
    ∃ reach', Settles g spacing gaze (.rule name) c reach (.failed reach') := by
  obtain ⟨enough, henough⟩ := hbody
  refine ⟨note ((g.define name).form.outside spacing ≠ .closed && gaze ≠ .negative) c.offset reach₁,
    of_succ ⟨enough, fun fuel hfuel => ?_⟩⟩
  rw [run]
  split
  · next h => exact absurd h hform
  · simp only [henough fuel hfuel]

end Settles

end LogLabel.Peg
