import LogLabel.Proofs.Peg.Matches

set_option autoImplicit false

/-!
# What a run enters

With one unit of fuel a run does little: it has other expressions matched, one after the other, and
goes on by what each of them answers. What it does is written down here as a plan, apart from the
fuel that the others get. A run is its plan carried out, so that what holds of all plans, by an
induction with three cases, holds of a run of any operator.

* `Task`: an expression with all that a run of it is told; `Task.outcome`: what the run answers.
* `Plan`, `Task.plan`: what a run does with one unit of fuel.
* `Plan.entered`: the tasks on the way through a plan; `Plan.All`, `Plan.Within`: what is shown of
  them along the plan, a property of each and how many they are.
* `Task.outcome_succ`: a run carries out its plan, with one unit less for the tasks in it.
* `Task.entered g fuel t`: the tasks that a run of `t` enters, in order; there are at most three.
* `Task.outcome_ne_exhausted_of_entered`: a run gives up only where one of them does.
* `Task.outcome_eq_of_le`: more fuel changes no answer.
-/

namespace LogLabel.Peg

variable {ρ : Type}

/-- An expression to be matched at a cursor. -/
structure Task (ρ : Type) where
  spacing : Spacing
  gaze : Gaze
  expr : Expr ρ
  cursor : Cursor
  reach : Nat

/-- What a run of the task answers. -/
def Task.outcome (g : Grammar ρ) (fuel : Nat) (t : Task ρ) : Outcome ρ :=
  run g fuel t.spacing t.gaze t.expr t.cursor t.reach

/-- What a run does with one unit of fuel. -/
inductive Plan (ρ : Type) where
  | failed (reach : Nat)
  | matched (cursor : Cursor) (captures : List (Capture ρ)) (reach : Nat)
  /-- A task is run first, and its answer decides what is done then. If it gives up, the plan is
  given up. -/
  | enter (t : Task ρ) (onFailed : Nat → Plan ρ)
      (onMatched : Cursor → List (Capture ρ) → Nat → Plan ρ)

namespace Plan

/-- What comes of a plan, given what the tasks in it answer. -/
def outcome (answer : Task ρ → Outcome ρ) : Plan ρ → Outcome ρ
  | .failed reach => .failed reach
  | .matched c captures reach => .matched c captures reach
  | .enter t onFailed onMatched =>
      match answer t with
      | .exhausted => .exhausted
      | .failed reach => (onFailed reach).outcome answer
      | .matched c captures reach => (onMatched c captures reach).outcome answer

/-- The tasks that are entered on the way through a plan. -/
def entered (answer : Task ρ → Outcome ρ) : Plan ρ → List (Task ρ)
  | .failed _ => []
  | .matched _ _ _ => []
  | .enter t onFailed onMatched =>
      t :: match answer t with
        | .exhausted => []
        | .failed reach => (onFailed reach).entered answer
        | .matched c captures reach => (onMatched c captures reach).entered answer

/-- Whether at most `n` tasks are entered, whatever they answer. -/
def Within : Plan ρ → Nat → Prop
  | .failed _, _ => True
  | .matched _ _ _, _ => True
  | .enter _ _ _, 0 => False
  | .enter _ onFailed onMatched, n + 1 =>
      (∀ reach, (onFailed reach).Within n) ∧
        ∀ c captures reach, (onMatched c captures reach).Within n

/-- A property of every task that is entered on the way through a plan. -/
def All (answer : Task ρ → Outcome ρ) (P : Task ρ → Prop) : Plan ρ → Prop
  | .failed _ => True
  | .matched _ _ _ => True
  | .enter t onFailed onMatched =>
      P t ∧
        (∀ reach, answer t = .failed reach → (onFailed reach).All answer P) ∧
        ∀ c captures reach, answer t = .matched c captures reach →
          (onMatched c captures reach).All answer P

section Outcome

variable {answer answer' : Task ρ → Outcome ρ} {p : Plan ρ} {t t' : Task ρ}
  {onFailed : Nat → Plan ρ} {onMatched : Cursor → List (Capture ρ) → Nat → Plan ρ}

/-- A task that is entered is the first one, or it is entered after the answer of that one. -/
theorem mem_entered_enter : t' ∈ (Plan.enter t onFailed onMatched).entered answer ↔
    t' = t ∨
    (∃ reach, answer t = .failed reach ∧ t' ∈ (onFailed reach).entered answer) ∨
    ∃ c captures reach, answer t = .matched c captures reach ∧
      t' ∈ (onMatched c captures reach).entered answer := by
  rw [entered, List.mem_cons]
  cases answer t <;> simp [and_assoc]

/-- A property that is shown along a plan holds of all that is entered. -/
theorem All.of_mem_entered {P : Task ρ → Prop} (h : p.All answer P) (ht : t ∈ p.entered answer) :
    P t := by
  induction p with
  | failed reach => cases ht
  | matched c captures reach => cases ht
  | enter t' onFailed onMatched ihfailed ihmatched =>
      obtain ⟨hfirst, hfailed, hmatched⟩ := h
      rcases mem_entered_enter.1 ht with
        rfl | ⟨reach, hanswer, ht⟩ | ⟨c, captures, reach, hanswer, ht⟩
      · exact hfirst
      · exact ihfailed reach (hfailed reach hanswer) ht
      · exact ihmatched c captures reach (hmatched c captures reach hanswer) ht

theorem length_entered_le {n : Nat} (h : p.Within n) : (p.entered answer).length ≤ n := by
  induction p generalizing n with
  | failed reach => exact Nat.zero_le n
  | matched c captures reach => exact Nat.zero_le n
  | enter t onFailed onMatched ihfailed ihmatched =>
      cases n with
      | zero => exact h.elim
      | succ n =>
          obtain ⟨hfailed, hmatched⟩ := h
          rw [entered, List.length_cons]
          refine Nat.succ_le_succ ?_
          cases answer t with
          | exhausted => exact Nat.zero_le n
          | failed reach => exact ihfailed reach (hfailed reach)
          | matched c captures reach => exact ihmatched c captures reach (hmatched c captures reach)

/-- A plan gives up only where a task in it does. -/
theorem outcome_ne_exhausted (h : ∀ t ∈ p.entered answer, answer t ≠ .exhausted) :
    p.outcome answer ≠ .exhausted := by
  induction p with
  | failed reach => exact fun heq => by cases heq
  | matched c captures reach => exact fun heq => by cases heq
  | enter t onFailed onMatched ihfailed ihmatched =>
      rw [entered] at h
      obtain ⟨hfirst, hlater⟩ := List.forall_mem_cons.1 h
      rw [outcome]
      cases hanswer : answer t with
      | exhausted => exact absurd hanswer hfirst
      | failed reach =>
          rw [hanswer] at hlater
          exact ihfailed reach hlater
      | matched c captures reach =>
          rw [hanswer] at hlater
          exact ihmatched c captures reach hlater

/-- A plan gives up where a task in it does. -/
theorem outcome_eq_exhausted (ht : t ∈ p.entered answer) (h : answer t = .exhausted) :
    p.outcome answer = .exhausted := by
  induction p with
  | failed reach => cases ht
  | matched c captures reach => cases ht
  | enter t' onFailed onMatched ihfailed ihmatched =>
      rw [outcome]
      rcases mem_entered_enter.1 ht with
        rfl | ⟨reach, hanswer, ht⟩ | ⟨c, captures, reach, hanswer, ht⟩
      · rw [h]
      · rw [hanswer]
        exact ihfailed reach ht
      · rw [hanswer]
        exact ihmatched c captures reach ht

/-- What comes of a plan depends on nothing but the answers of the tasks that are entered. -/
theorem outcome_congr (h : ∀ t ∈ p.entered answer, answer' t = answer t) :
    p.outcome answer' = p.outcome answer := by
  induction p with
  | failed reach => rfl
  | matched c captures reach => rfl
  | enter t onFailed onMatched ihfailed ihmatched =>
      rw [entered] at h
      obtain ⟨hfirst, hlater⟩ := List.forall_mem_cons.1 h
      rw [outcome, outcome, hfirst]
      cases hanswer : answer t with
      | exhausted => rfl
      | failed reach =>
          rw [hanswer] at hlater
          exact ihfailed reach hlater
      | matched c captures reach =>
          rw [hanswer] at hlater
          exact ihmatched c captures reach hlater

end Outcome

end Plan

namespace Task

/-- Another expression at another cursor. -/
def move (t : Task ρ) (e : Expr ρ) (c : Cursor) (reach : Nat) : Task ρ :=
  { t with expr := e, cursor := c, reach := reach }

/-- Blanks are skipped before the next part, where spacing allows them. -/
def skip (g : Grammar ρ) (t : Task ρ) (c : Cursor) (reach : Nat) (onFailed : Nat → Plan ρ)
    (next : Cursor → Nat → Plan ρ) : Plan ρ :=
  match t.spacing with
  | .free =>
      .enter ⟨.closed, t.gaze, .star g.blank, c, reach⟩ onFailed fun c _ reach => next c reach
  | _ => next c reach

/-- What a run of the task does. -/
def plan (g : Grammar ρ) (t : Task ρ) : Plan ρ :=
  match t.expr with
  | .text chars =>
      match t.cursor.eat chars with
      | some c => .matched c [] t.reach
      | none => .failed t.reach
  | .one accepts =>
      match t.cursor.rest with
      | [] => .failed t.reach
      | x :: rest =>
          if accepts x then .matched ⟨rest, t.cursor.offset + x.utf8Size⟩ [] t.reach
          else .failed t.reach
  | .rule name =>
      let d := g.define name
      match d.form with
      | .silent => .enter { t with expr := d.body } .failed .matched
      | form =>
          let visible := form.outside t.spacing ≠ .closed
          .enter { t with spacing := form.inside t.spacing, expr := d.body }
            (fun reach => .failed (note (visible && t.gaze ≠ .negative) t.cursor.offset reach))
            fun c inner reach =>
              .matched c
                (if visible && t.gaze = .consuming then
                  [.mk name t.cursor.offset c.offset t.cursor.rest inner] else [])
                (note (visible && t.gaze = .negative) t.cursor.offset reach)
  | .seq first second =>
      .enter { t with expr := first } .failed fun c₁ captures₁ reach =>
        t.skip g c₁ reach .failed fun c₂ reach =>
          .enter (t.move second c₂ reach) .failed fun c₃ captures₃ reach =>
            .matched c₃ (captures₁ ++ captures₃) reach
  | .alt first second =>
      .enter { t with expr := first }
        (fun reach => .enter (t.move second t.cursor reach) .failed .matched) .matched
  | .opt e => .enter { t with expr := e } (.matched t.cursor []) .matched
  | .star e =>
      .enter { t with expr := e } (.matched t.cursor []) fun c₁ captures₁ reach =>
        .enter (t.move (.further e) c₁ reach) .failed fun c₂ captures₂ reach =>
          .matched c₂ (captures₁ ++ captures₂) reach
  | .further e =>
      t.skip g t.cursor t.reach (.matched t.cursor []) fun c₁ reach =>
        .enter (t.move e c₁ reach) (.matched t.cursor []) fun c₂ captures₂ reach =>
          .enter (t.move (.further e) c₂ reach) .failed fun c₃ captures₃ reach =>
            .matched c₃ (captures₂ ++ captures₃) reach
  | .present e =>
      .enter { t with gaze := t.gaze.affirm, expr := e } .failed fun _ _ reach =>
        .matched t.cursor [] reach
  | .absent e =>
      .enter { t with gaze := t.gaze.deny, expr := e } (.matched t.cursor []) fun _ _ reach =>
        .failed reach

section Run

variable {g : Grammar ρ} {fuel fuel' : Nat} {t t' : Task ρ}

/-- Skipping blanks is what a run does between two parts. -/
theorem outcome_skip (c : Cursor) (reach : Nat) (onFailed : Nat → Plan ρ)
    (next : Cursor → Nat → Plan ρ) :
    (t.skip g c reach onFailed next).outcome (outcome g fuel) =
      match between t.spacing c reach fun _ =>
          run g fuel .closed t.gaze (.star g.blank) c reach with
      | .exhausted => .exhausted
      | .failed reach => (onFailed reach).outcome (outcome g fuel)
      | .matched c _ reach => (next c reach).outcome (outcome g fuel) := by
  obtain ⟨spacing, gaze, e, c₀, reach₀⟩ := t
  cases spacing with
  | free => simp only [skip, between, Plan.outcome, outcome]
  | tight => rfl
  | closed => rfl

/-- A run carries out its plan, with one unit of fuel less for the tasks in it. -/
theorem outcome_succ : t.outcome g (fuel + 1) = (t.plan g).outcome (outcome g fuel) := by
  obtain ⟨spacing, gaze, e, c, reach⟩ := t
  -- Both sides have the same tasks run, in the same order. They are compared for each answer.
  cases e with
  | text chars =>
      simp only [outcome, plan, run]
      cases c.eat chars <;> rfl
  | one accepts =>
      obtain ⟨rest, offset⟩ := c
      simp only [outcome, plan, run]
      cases rest with
      | nil => rfl
      | cons x rest =>
          dsimp only
          split <;> rfl
  | rule name =>
      simp only [outcome, plan, run]
      cases (g.define name).form <;> simp only [Plan.outcome, outcome]
      all_goals cases run g fuel _ gaze (g.define name).body c reach <;> rfl
  | seq first second =>
      simp only [outcome, plan, run, Plan.outcome, outcome_skip]
      cases run g fuel spacing gaze first c reach with
      | exhausted => rfl
      | failed reach₁ => rfl
      | matched c₁ captures₁ reach₁ =>
          dsimp only
          cases between spacing c₁ reach₁ fun _ =>
              run g fuel .closed gaze (.star g.blank) c₁ reach₁ with
          | exhausted => rfl
          | failed reach₂ => rfl
          | matched c₂ blanks reach₂ =>
              cases hsecond : run g fuel spacing gaze second c₂ reach₂ <;> simp only [move, hsecond]
  | alt first second =>
      simp only [outcome, plan, run, Plan.outcome]
      cases run g fuel spacing gaze first c reach with
      | exhausted => rfl
      | failed reach₁ =>
          cases hsecond : run g fuel spacing gaze second c reach₁ <;> simp only [move, hsecond]
      | matched c₁ captures₁ reach₁ => rfl
  | opt e =>
      cases hitem : run g fuel spacing gaze e c reach <;>
        simp only [outcome, plan, run, Plan.outcome, hitem]
  | star e =>
      simp only [outcome, plan, run, Plan.outcome]
      cases run g fuel spacing gaze e c reach with
      | exhausted => rfl
      | failed reach₁ => rfl
      | matched c₁ captures₁ reach₁ =>
          cases htail : run g fuel spacing gaze (.further e) c₁ reach₁ <;> simp only [move, htail]
  | further e =>
      simp only [outcome, plan, run, Plan.outcome, outcome_skip]
      cases between spacing c reach fun _ => run g fuel .closed gaze (.star g.blank) c reach with
      | exhausted => rfl
      | failed reach₁ => rfl
      | matched c₁ blanks reach₁ =>
          cases hitem : run g fuel spacing gaze e c₁ reach₁ with
          | exhausted => simp only [move, hitem]
          | failed reach₂ => simp only [move, hitem]
          | matched c₂ captures₂ reach₂ =>
              cases htail : run g fuel spacing gaze (.further e) c₂ reach₂ <;>
                simp only [move, hitem, htail]
  | present e =>
      cases hitem : run g fuel spacing gaze.affirm e c reach <;>
        simp only [outcome, plan, run, Plan.outcome, hitem]
  | absent e =>
      cases hitem : run g fuel spacing gaze.deny e c reach <;>
        simp only [outcome, plan, run, Plan.outcome, hitem]

/-- The tasks that a run enters, in order, if each of them has the given fuel. -/
def entered (g : Grammar ρ) (fuel : Nat) (t : Task ρ) : List (Task ρ) :=
  (t.plan g).entered (outcome g fuel)

/-- A run comes to an end if all that it enters does. -/
theorem outcome_ne_exhausted_of_entered
    (h : ∀ t' ∈ t.entered g fuel, t'.outcome g fuel ≠ .exhausted) :
    t.outcome g (fuel + 1) ≠ .exhausted := by
  rw [outcome_succ]
  exact Plan.outcome_ne_exhausted h

/-- More fuel changes no answer. -/
theorem outcome_eq_of_le (hle : fuel ≤ fuel') (h : t.outcome g fuel ≠ .exhausted) :
    t.outcome g fuel' = t.outcome g fuel := by
  -- By induction on the smaller fuel. No task that is entered gave up, or the run would have too.
  induction fuel generalizing fuel' t with
  | zero => exact absurd rfl h
  | succ fuel ih =>
      obtain ⟨fuel', rfl⟩ := Nat.exists_eq_add_of_le' (Nat.lt_of_lt_of_le fuel.succ_pos hle)
      rw [outcome_succ] at h ⊢
      rw [outcome_succ]
      refine Plan.outcome_congr fun t' ht' => ih (Nat.le_of_succ_le_succ hle) fun hgivenUp => ?_
      exact h (Plan.outcome_eq_exhausted ht' hgivenUp)

theorem plan_within (g : Grammar ρ) (t : Task ρ) : (t.plan g).Within 3 := by
  obtain ⟨spacing, gaze, e, c, reach⟩ := t
  cases e with
  | text chars =>
      simp only [plan]
      split <;> trivial
  | one accepts =>
      simp only [plan]
      split
      · trivial
      · split <;> trivial
  | rule name =>
      simp only [plan]
      split <;> exact ⟨fun _ => trivial, fun _ _ _ => trivial⟩
  -- Only in a sequence and in the tail of a repetition blanks are skipped.
  | seq first second => cases spacing <;> simp [plan, skip, Plan.Within]
  | further e => cases spacing <;> simp [plan, skip, Plan.Within]
  | _ => simp [plan, Plan.Within]

/-- A run enters at most three tasks. -/
theorem length_entered_le (g : Grammar ρ) (fuel : Nat) (t : Task ρ) :
    (t.entered g fuel).length ≤ 3 :=
  Plan.length_entered_le (plan_within g t)

end Run

end Task

end LogLabel.Peg
