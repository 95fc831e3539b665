import LogLabel.Proofs.Peg.Plan

set_option autoImplicit false

/-!
# Origins of captures

A match as a relation forgets what a look-ahead has refused and how far a repetition went. What is
known of a rule by its own run is known of its captures all the same: each of them, at any depth,
was made by a run of the body of its rule at the place where it starts.

* `Capture.Made g`: the capture was made by a run, and so were those inside of it.
* `Plan.Yields answer P`: what a plan captures has the property, if what its tasks capture does.
* `made_of_run`: the captures of a match were made.
-/

namespace LogLabel.Peg

variable {ρ : Type} {g : Grammar ρ}

/-- The capture was made by a run of the body of its rule, and so were those inside of it. -/
inductive Capture.Made (g : Grammar ρ) : Capture ρ → Prop
  | mk {name : ρ} {start stop : Nat} {input : List Char} {inner : List (Capture ρ)}
      {fuel reach reach' : Nat} {spacing : Spacing} {gaze : Gaze} {c : Cursor}
      (body : run g fuel ((g.define name).form.inside spacing) gaze (g.define name).body
        ⟨input, start⟩ reach = .matched c inner reach')
      (ends : c.offset = stop) (parts : ∀ capture ∈ inner, Made g capture) :
      Made g (.mk name start stop input inner)

/-! ## Captures of a plan -/

/-- What a plan captures has the property, if what the tasks in it capture does. -/
def Plan.Yields (answer : Task ρ → Outcome ρ) (P : Capture ρ → Prop) : Plan ρ → Prop
  | .failed _ => True
  | .matched _ captures _ => ∀ capture ∈ captures, P capture
  | .enter t onFailed onMatched =>
      (∀ reach, (onFailed reach).Yields answer P) ∧
        ∀ c captures reach, answer t = .matched c captures reach →
          (∀ capture ∈ captures, P capture) → (onMatched c captures reach).Yields answer P

theorem Plan.Yields.of_outcome {answer : Task ρ → Outcome ρ} {P : Capture ρ → Prop} {p : Plan ρ}
    (h : p.Yields answer P)
    (hanswer : ∀ t c captures reach, answer t = .matched c captures reach →
      ∀ capture ∈ captures, P capture)
    {c : Cursor} {captures : List (Capture ρ)} {reach : Nat}
    (houtcome : p.outcome answer = .matched c captures reach) :
    ∀ capture ∈ captures, P capture := by
  induction p with
  | failed reach₁ => cases houtcome
  | matched c₁ captures₁ reach₁ =>
      cases houtcome
      exact h
  | enter t onFailed onMatched ihfailed ihmatched =>
      obtain ⟨hfailed, hmatched⟩ := h
      rw [outcome] at houtcome
      cases hfirst : answer t with
      | exhausted =>
          rw [hfirst] at houtcome
          cases houtcome
      | failed reach₁ =>
          rw [hfirst] at houtcome
          exact ihfailed reach₁ (hfailed reach₁) houtcome
      | matched c₁ captures₁ reach₁ =>
          rw [hfirst] at houtcome
          have hcaptures := hanswer t c₁ captures₁ reach₁ hfirst
          exact ihmatched c₁ captures₁ reach₁ (hmatched c₁ captures₁ reach₁ hfirst hcaptures) houtcome

namespace Task

variable {t : Task ρ} {fuel : Nat}

/-- The blanks that are skipped leave no captures. -/
theorem yields_skip {P : Capture ρ → Prop} {c : Cursor} {reach : Nat} {onFailed : Nat → Plan ρ}
    {next : Cursor → Nat → Plan ρ} {answer : Task ρ → Outcome ρ}
    (hfailed : ∀ reach, (onFailed reach).Yields answer P)
    (hnext : ∀ c reach, (next c reach).Yields answer P) :
    (t.skip g c reach onFailed next).Yields answer P := by
  unfold skip
  split
  · exact ⟨hfailed, fun c _ reach _ _ => hnext c reach⟩
  · exact hnext c reach

/-- A rule makes its capture of the run of its body. The other operators put the captures of their
parts together, or drop them. -/
theorem yields_plan (g : Grammar ρ) (fuel : Nat) (t : Task ρ) :
    (t.plan g).Yields (outcome g fuel) (Capture.Made g) := by
  obtain ⟨spacing, gaze, e, c, reach⟩ := t
  cases e with
  | text chars =>
      simp only [plan]
      split <;> simp [Plan.Yields]
  | one accepts =>
      simp only [plan]
      split
      · trivial
      · split <;> simp [Plan.Yields]
  | rule name =>
      simp only [plan]
      split
      · exact ⟨fun _ => trivial, fun _ _ _ _ hbody => hbody⟩
      · refine ⟨fun _ => trivial, fun c' inner reach' hbody hinner capture hcapture => ?_⟩
        split at hcapture
        · obtain rfl := List.mem_singleton.1 hcapture
          exact .mk hbody rfl hinner
        · cases hcapture
  | seq first second =>
      refine ⟨fun _ => trivial, fun c₁ captures₁ reach₁ _ hfirst => ?_⟩
      apply yields_skip
      · exact fun _ => trivial
      · intro c₂ reach₂
        exact ⟨fun _ => trivial,
          fun _ _ _ _ hsecond => List.forall_mem_append.2 ⟨hfirst, hsecond⟩⟩
  | alt first second =>
      refine ⟨fun reach₁ => ⟨fun _ => trivial, ?_⟩, ?_⟩
      · exact fun _ _ _ _ hsecond => hsecond
      · exact fun _ _ _ _ hfirst => hfirst
  | opt e => exact ⟨fun _ => by simp [Plan.Yields], fun _ _ _ _ hitem => hitem⟩
  | star e =>
      refine ⟨fun _ => by simp [Plan.Yields], fun c₁ captures₁ reach₁ _ hhead => ?_⟩
      exact ⟨fun _ => trivial, fun _ _ _ _ htail => List.forall_mem_append.2 ⟨hhead, htail⟩⟩
  | further e =>
      apply yields_skip
      · intro reach₁
        simp [Plan.Yields]
      · intro c₁ reach₁
        refine ⟨fun _ => by simp [Plan.Yields], fun c₂ captures₂ reach₂ _ hhead => ?_⟩
        exact ⟨fun _ => trivial, fun _ _ _ _ htail => List.forall_mem_append.2 ⟨hhead, htail⟩⟩
  | present e => exact ⟨fun _ => trivial, fun _ _ _ _ _ => by simp [Plan.Yields]⟩
  | absent e => exact ⟨fun _ => by simp [Plan.Yields], fun _ _ _ _ _ => trivial⟩

theorem made_of_outcome {c : Cursor} {captures : List (Capture ρ)} {reach : Nat}
    (h : t.outcome g fuel = .matched c captures reach) : ∀ capture ∈ captures, capture.Made g := by
  induction fuel generalizing t c captures reach with
  | zero => cases h
  | succ fuel ih =>
      rw [outcome_succ] at h
      exact (yields_plan g fuel t).of_outcome (fun _ _ _ _ hanswer => ih hanswer) h

end Task

/-- The captures of a match were made by runs of their rules. -/
theorem made_of_run {fuel : Nat} {spacing : Spacing} {gaze : Gaze} {e : Expr ρ} {c c' : Cursor}
    {reach reach' : Nat} {captures : List (Capture ρ)}
    (h : run g fuel spacing gaze e c reach = .matched c' captures reach') :
    ∀ capture ∈ captures, capture.Made g :=
  Task.made_of_outcome (t := ⟨spacing, gaze, e, c, reach⟩) h

/-- Where the body of a rule matches, the rule does. -/
theorem run_rule {name : ρ} (hform : (g.define name).form ≠ .silent) {fuel : Nat} {spacing : Spacing}
    {gaze : Gaze} {c c' : Cursor} {reach reach' : Nat} {inner : List (Capture ρ)}
    (hbody : run g fuel ((g.define name).form.inside spacing) gaze (g.define name).body c reach
      = .matched c' inner reach') :
    ∃ captures reach'', run g (fuel + 1) spacing gaze (.rule name) c reach
      = .matched c' captures reach'' := by
  rw [run]
  split
  · next hsilent => exact absurd hsilent hform
  · rw [hbody]
    exact ⟨_, _, rfl⟩

end LogLabel.Peg
