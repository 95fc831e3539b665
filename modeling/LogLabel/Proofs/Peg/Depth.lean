import LogLabel.Proofs.Peg.Plan
import LogLabel.Proofs.Peg.Spans

set_option autoImplicit false

/-!
# Depth of matching

Matching ends when no rule can come back to itself without a character being read, and no
repeated expression matches nothing. Both are decided by numbers: every rule has a height above
the heights of the rules that it can enter before a character is read.

* `Gauge`: for each rule, whether it may match nothing, and its height.
* `Expr.mayBeEmpty`, `Expr.height`: the same for expressions.
* `Expr.isSteady`: repeated expressions read a character, and all heights stay below a bound.
* `Matches.length_lt`: an expression that may not be empty reads a character.
* `Task.IsBelow`, `Task.of_mem_entered`: what a run enters stands lower, or behind a character.
* `run_ne_exhausted`: with the height of the expression and the bound for each character as
  fuel, a run comes to an end.
-/

namespace LogLabel.Peg

variable {ρ : Type}

/-- What is known of the rules of a grammar before a text is matched. -/
structure Gauge (ρ : Type) where
  /-- Whether a rule may match nothing. -/
  mayBeEmpty : ρ → Bool
  /-- Expressions that are entered, one inside of the other, before a character is read. -/
  height : ρ → Nat
  /-- The height of what is skipped between two parts. -/
  gap : Nat

namespace Expr

/-- Whether an expression may match nothing. -/
def mayBeEmpty (m : Gauge ρ) : Expr ρ → Bool
  | .text chars => chars.isEmpty
  | .one _ => false
  | .rule name => m.mayBeEmpty name
  | .seq first second => first.mayBeEmpty m && second.mayBeEmpty m
  | .alt first second => first.mayBeEmpty m || second.mayBeEmpty m
  | .opt _ => true
  | .star _ => true
  | .further _ => true
  | .present _ => true
  | .absent _ => true

/-- Expressions that are entered, one inside of the other, before a character is read. The second
part of a sequence counts only if the first one may be empty, and the tail of a repetition never
does. -/
def height (m : Gauge ρ) : Expr ρ → Nat
  | .text _ => 1
  | .one _ => 1
  | .rule name => m.height name
  | .seq first second =>
      1 + max (first.height m) (if first.mayBeEmpty m then max m.gap (second.height m) else 0)
  | .alt first second => 1 + max (first.height m) (second.height m)
  | .opt e => 1 + e.height m
  | .star e => 1 + e.height m
  | .further e => 1 + max m.gap (e.height m)
  | .present e => 1 + e.height m
  | .absent e => 1 + e.height m

/-- Whether every repeated expression reads a character, and every height is at most `bound`. -/
def isSteady (m : Gauge ρ) (bound : Nat) (e : Expr ρ) : Bool :=
  decide (e.height m ≤ bound) &&
    match e with
    | .text _ => true
    | .one _ => true
    | .rule _ => true
    | .seq first second => first.isSteady m bound && second.isSteady m bound
    | .alt first second => first.isSteady m bound && second.isSteady m bound
    | .opt e => e.isSteady m bound
    | .star e =>
        !e.mayBeEmpty m && decide ((Expr.further e).height m ≤ bound) && e.isSteady m bound
    | .further e => !e.mayBeEmpty m && e.isSteady m bound
    | .present e => e.isSteady m bound
    | .absent e => e.isSteady m bound

theorem height_le_of_isSteady {m : Gauge ρ} {bound : Nat} {e : Expr ρ}
    (h : e.isSteady m bound = true) : e.height m ≤ bound := by
  unfold isSteady at h
  exact of_decide_eq_true (Bool.and_eq_true_iff.1 h).1

/-- The tail of a steady repetition is steady. -/
theorem isSteady_further {m : Gauge ρ} {bound : Nat} {e : Expr ρ}
    (h : (Expr.star e).isSteady m bound = true) : (Expr.further e).isSteady m bound = true := by
  simp only [isSteady, Bool.and_eq_true] at h ⊢
  exact ⟨h.2.1.2, h.2.1.1, h.2.2⟩

/-- The expressions that are repeated somewhere in an expression. -/
def repeated : Expr ρ → List (Expr ρ)
  | .text _ => []
  | .one _ => []
  | .rule _ => []
  | .seq first second => first.repeated ++ second.repeated
  | .alt first second => first.repeated ++ second.repeated
  | .opt e => e.repeated
  | .star e => e :: e.repeated
  | .further e => e :: e.repeated
  | .present e => e.repeated
  | .absent e => e.repeated

/-- What is repeated in a steady expression may not be empty. -/
theorem mayBeEmpty_of_mem_repeated {m : Gauge ρ} {bound : Nat} {e e' : Expr ρ}
    (h : e.isSteady m bound = true) (he' : e' ∈ e.repeated) : e'.mayBeEmpty m = false := by
  induction e with
  | text _ => cases he'
  | one _ => cases he'
  | rule _ => cases he'
  | seq first second ihfirst ihsecond =>
      simp only [isSteady, Bool.and_eq_true] at h
      exact (List.mem_append.1 he').elim (ihfirst h.2.1) (ihsecond h.2.2)
  | alt first second ihfirst ihsecond =>
      simp only [isSteady, Bool.and_eq_true] at h
      exact (List.mem_append.1 he').elim (ihfirst h.2.1) (ihsecond h.2.2)
  | star e ih =>
      simp only [isSteady, Bool.and_eq_true, Bool.not_eq_true'] at h
      rcases List.mem_cons.1 he' with rfl | he'
      · exact h.2.1.1
      · exact ih h.2.2 he'
  | further e ih =>
      simp only [isSteady, Bool.and_eq_true, Bool.not_eq_true'] at h
      rcases List.mem_cons.1 he' with rfl | he'
      · exact h.2.1
      · exact ih h.2.2 he'
  | opt e ih =>
      simp only [isSteady, Bool.and_eq_true] at h
      exact ih h.2 he'
  | present e ih =>
      simp only [isSteady, Bool.and_eq_true] at h
      exact ih h.2 he'
  | absent e ih =>
      simp only [isSteady, Bool.and_eq_true] at h
      exact ih h.2 he'

end Expr

/-- The gauge fits a grammar: it agrees with the bodies of the rules, and all of them are steady. -/
structure Grammar.Gauged (g : Grammar ρ) (m : Gauge ρ) (bound : Nat) : Prop where
  mayBeEmpty : ∀ name, (g.define name).body.mayBeEmpty m = true → m.mayBeEmpty name = true
  height : ∀ name, (g.define name).body.height m < m.height name
  isSteady : ∀ name, (g.define name).body.isSteady m bound = true
  gapHeight : (Expr.star g.blank).height m ≤ m.gap
  gapSteady : (Expr.star g.blank).isSteady m bound = true

variable {g : Grammar ρ} {m : Gauge ρ} {bound : Nat}

/-! ## Characters that are read -/

theorem Matches.length_le {gaze : Gaze} {spacing : Spacing} {e : Expr ρ} {c c' : Cursor}
    {captures : List (Capture ρ)} (h : Matches g gaze spacing e c c' captures) :
    c'.rest.length ≤ c.rest.length := by
  obtain ⟨word, hword⟩ := h.passes.after
  rw [hword.rest_eq, List.length_append]
  exact Nat.le_add_left _ _

/-- An expression that may not be empty reads a character. -/
theorem Matches.length_lt (hg : g.Gauged m bound) {gaze : Gaze} {spacing : Spacing} {e : Expr ρ}
    {c c' : Cursor} {captures : List (Capture ρ)} (h : Matches g gaze spacing e c c' captures) :
    e.mayBeEmpty m = false → c'.rest.length < c.rest.length := by
  have hrule : ∀ {name : ρ}, m.mayBeEmpty name = false →
      (g.define name).body.mayBeEmpty m = false := by
    intro name hname
    rw [Bool.eq_false_iff] at hname ⊢
    exact fun hbody => hname (hg.mayBeEmpty name hbody)
  induction h with
  | @text _ chars c c' h =>
      intro hempty
      have hword := Cursor.after_eat h
      cases chars with
      | nil => cases hempty
      | cons x chars =>
          rw [hword.rest_eq, List.cons_append, List.length_cons, List.length_append]
          omega
  | one _ => exact fun _ => Nat.lt_succ_self _
  | silent _ _ ih => exact fun hname => ih (hrule hname)
  | captured _ _ _ ih => exact fun hname => ih (hrule hname)
  | hidden _ _ ih => exact fun hname => ih (hrule hname)
  | seq left gap right ihleft _ ihright =>
      intro hempty
      rw [Expr.mayBeEmpty, Bool.and_eq_false_iff] at hempty
      have hgap := gap.length_le
      rcases hempty with hempty | hempty
      · have hleft := ihleft hempty
        have hright := right.length_le
        omega
      · have hleft := left.length_le
        have hright := ihright hempty
        omega
  | left _ ih =>
      intro hempty
      rw [Expr.mayBeEmpty, Bool.or_eq_false_iff] at hempty
      exact ih hempty.1
  | right _ ih =>
      intro hempty
      rw [Expr.mayBeEmpty, Bool.or_eq_false_iff] at hempty
      exact ih hempty.2
  -- The other operators may be empty.
  | _ => exact fun hempty => by cases hempty

/-! ## Fuel -/

/-- Fuel pays for an expression: its height, and the bound for each character that is left. -/
def Affords (m : Gauge ρ) (bound fuel : Nat) (e : Expr ρ) (c : Cursor) : Prop :=
  e.height m + bound * c.rest.length ≤ fuel

section Affords

variable {fuel : Nat} {e e' : Expr ρ} {c c' : Cursor}

/-- A part that is lower is paid for with one unit less. -/
theorem Affords.lower (h : Affords m bound (fuel + 1) e c) (hheight : e'.height m < e.height m)
    (hlength : c'.rest.length ≤ c.rest.length) : Affords m bound fuel e' c' := by
  have hrest : bound * c'.rest.length ≤ bound * c.rest.length := Nat.mul_le_mul_left bound hlength
  unfold Affords at h ⊢
  omega

/-- Once a character is read, every part within the bound is paid for with one unit less. -/
theorem Affords.later (h : Affords m bound (fuel + 1) e c) (hpos : 0 < e.height m)
    (hheight : e'.height m ≤ bound) (hlength : c'.rest.length < c.rest.length) :
    Affords m bound fuel e' c' := by
  have hrest : bound * (c'.rest.length + 1) ≤ bound * c.rest.length :=
    Nat.mul_le_mul_left bound hlength
  rw [Nat.mul_succ] at hrest
  unfold Affords at h ⊢
  omega

end Affords

theorem Grammar.Gauged.height_pos (hg : g.Gauged m bound) (e : Expr ρ) : 0 < e.height m := by
  cases e with
  | rule name => exact Nat.lt_of_le_of_lt (Nat.zero_le _) (hg.height name)
  | _ => simp only [Expr.height]; omega

/-! ## Tasks that are entered -/

namespace Task

/-- A task with less left of the text, or with no more left of it and a lower expression. -/
def IsBelow (m : Gauge ρ) (t' t : Task ρ) : Prop :=
  t'.cursor.rest.length < t.cursor.rest.length ∨
    t'.cursor.rest.length ≤ t.cursor.rest.length ∧ t'.expr.height m < t.expr.height m

section Below

variable {fuel : Nat} {t t' t'' : Task ρ}

theorem IsBelow.trans (h : t''.IsBelow m t') (h' : t'.IsBelow m t) : t''.IsBelow m t := by
  unfold IsBelow at h h' ⊢
  omega

/-- Fuel that pays for a task pays with one unit less for every steady task below it. -/
theorem IsBelow.affords (hg : g.Gauged m bound) (h : t'.IsBelow m t)
    (hsteady : t'.expr.isSteady m bound = true)
    (hfuel : Affords m bound (fuel + 1) t.expr t.cursor) :
    Affords m bound fuel t'.expr t'.cursor := by
  rcases h with hlength | ⟨hlength, hheight⟩
  · exact hfuel.later (hg.height_pos _) (Expr.height_le_of_isSteady hsteady) hlength
  · exact hfuel.lower hheight hlength

/-- Where blanks are skipped, they are entered at the cursor, and what comes next is entered no
earlier. -/
theorem all_skip {P : Task ρ → Prop} {c : Cursor} {reach : Nat} {onFailed : Nat → Plan ρ}
    {next : Cursor → Nat → Plan ρ}
    (hblanks : ∀ spacing gaze, P ⟨spacing, gaze, .star g.blank, c, reach⟩)
    (hfailed : ∀ reach, (onFailed reach).All (outcome g fuel) P)
    (hnext : ∀ c' reach, c'.rest.length ≤ c.rest.length → (next c' reach).All (outcome g fuel) P) :
    (t.skip g c reach onFailed next).All (outcome g fuel) P := by
  obtain ⟨spacing, gaze, e, c₀, reach₀⟩ := t
  cases spacing with
  | free =>
      refine ⟨hblanks _ _, fun reach _ => hfailed reach, fun c' _ reach hrun => ?_⟩
      exact hnext c' reach (matches_of_run hrun).length_le
  | tight => exact hnext c reach (Nat.le_refl _)
  | closed => exact hnext c reach (Nat.le_refl _)

/-- What a run of a steady task enters is steady, and it is below the task: it stands lower, or
behind a character. -/
theorem all_entered (hg : g.Gauged m bound) (hsteady : t.expr.isSteady m bound = true) :
    (t.plan g).All (outcome g fuel) fun t' => t'.expr.isSteady m bound = true ∧ t'.IsBelow m t := by
  have hgap := hg.gapHeight
  obtain ⟨spacing, gaze, e, c, reach⟩ := t
  unfold plan
  cases e with
  | text chars =>
      dsimp only
      split <;> trivial
  | one accepts =>
      dsimp only
      split
      · trivial
      · split <;> trivial
  | rule name =>
      have hbody := hg.isSteady name
      have hheight := hg.height name
      dsimp only
      split
      all_goals exact ⟨⟨hbody, .inr ⟨Nat.le_refl _, hheight⟩⟩, fun _ _ => trivial,
        fun _ _ _ _ => trivial⟩
  | seq first second =>
      simp only [Expr.isSteady, Bool.and_eq_true] at hsteady
      obtain ⟨-, hfirst, hsecond⟩ := hsteady
      refine ⟨⟨hfirst, .inr ⟨Nat.le_refl _, ?_⟩⟩, fun _ _ => trivial,
        fun c₁ captures₁ reach₁ hrun => ?_⟩
      · simp only [Expr.height]
        omega
      · have hmatch := matches_of_run hrun
        -- Behind the first part a character was read, or the other parts stand lower.
        have hbelow : ∀ {t' : Task ρ}, t'.cursor.rest.length ≤ c₁.rest.length →
            t'.expr.height m ≤ max m.gap (second.height m) →
            t'.IsBelow m ⟨spacing, gaze, .seq first second, c, reach⟩ := by
          intro t' hlength hheight
          cases hempty : first.mayBeEmpty m with
          | true =>
              refine .inr ⟨Nat.le_trans hlength hmatch.length_le, ?_⟩
              simp only [Expr.height, hempty, if_true]
              omega
          | false => exact .inl (Nat.lt_of_le_of_lt hlength (hmatch.length_lt hg hempty))
        refine all_skip (fun _ _ => ⟨hg.gapSteady, hbelow (Nat.le_refl _) ?_⟩) (fun _ => trivial)
          fun c₂ reach₂ hlength => ⟨⟨hsecond, hbelow hlength (Nat.le_max_right _ _)⟩,
            fun _ _ => trivial, fun _ _ _ _ => trivial⟩
        exact Nat.le_trans hgap (Nat.le_max_left _ _)
  | alt first second =>
      simp only [Expr.isSteady, Bool.and_eq_true] at hsteady
      obtain ⟨-, hfirst, hsecond⟩ := hsteady
      refine ⟨⟨hfirst, .inr ⟨Nat.le_refl _, ?_⟩⟩, fun _ _ => ⟨⟨hsecond, .inr ⟨Nat.le_refl _, ?_⟩⟩,
        fun _ _ => trivial, fun _ _ _ _ => trivial⟩, fun _ _ _ _ => trivial⟩
      · simp only [Expr.height]
        omega
      · simp only [move, Expr.height]
        omega
  | star e =>
      -- The tail comes behind an item, and an item reads a character.
      have hfurther := Expr.isSteady_further hsteady
      simp only [Expr.isSteady, Bool.and_eq_true, Bool.not_eq_true'] at hsteady
      obtain ⟨-, ⟨hempty, -⟩, hitem⟩ := hsteady
      refine ⟨⟨hitem, .inr ⟨Nat.le_refl _, ?_⟩⟩, fun _ _ => trivial,
        fun c₁ captures₁ reach₁ hrun => ?_⟩
      · simp only [Expr.height]
        omega
      · have hread := (matches_of_run hrun).length_lt hg hempty
        exact ⟨⟨hfurther, .inl hread⟩, fun _ _ => trivial, fun _ _ _ _ => trivial⟩
  | further e =>
      -- The blanks and the item stand lower, and the next tail comes behind an item.
      have hfurther := hsteady
      simp only [Expr.isSteady, Bool.and_eq_true, Bool.not_eq_true'] at hsteady
      obtain ⟨-, hempty, hitem⟩ := hsteady
      refine all_skip (fun _ _ => ⟨hg.gapSteady, .inr ⟨Nat.le_refl _, ?_⟩⟩) (fun _ => trivial)
        fun c₁ reach₁ hlength => ⟨⟨hitem, .inr ⟨hlength, ?_⟩⟩, fun _ _ => trivial,
          fun c₂ captures₂ reach₂ hrun => ?_⟩
      · simp only [Expr.height] at hgap ⊢
        omega
      · simp only [move, Expr.height]
        omega
      · have hread := (matches_of_run hrun).length_lt hg hempty
        exact ⟨⟨hfurther, .inl (Nat.lt_of_lt_of_le hread hlength)⟩, fun _ _ => trivial,
          fun _ _ _ _ => trivial⟩
  | opt e =>
      simp only [Expr.isSteady, Bool.and_eq_true] at hsteady
      refine ⟨⟨hsteady.2, .inr ⟨Nat.le_refl _, ?_⟩⟩, fun _ _ => trivial, fun _ _ _ _ => trivial⟩
      simp only [Expr.height]
      omega
  | present e =>
      simp only [Expr.isSteady, Bool.and_eq_true] at hsteady
      refine ⟨⟨hsteady.2, .inr ⟨Nat.le_refl _, ?_⟩⟩, fun _ _ => trivial, fun _ _ _ _ => trivial⟩
      simp only [Expr.height]
      omega
  | absent e =>
      simp only [Expr.isSteady, Bool.and_eq_true] at hsteady
      refine ⟨⟨hsteady.2, .inr ⟨Nat.le_refl _, ?_⟩⟩, fun _ _ => trivial, fun _ _ _ _ => trivial⟩
      simp only [Expr.height]
      omega

/-- The same of each task that is entered. -/
theorem of_mem_entered (hg : g.Gauged m bound) (hsteady : t.expr.isSteady m bound = true)
    (ht' : t' ∈ t.entered g fuel) : t'.expr.isSteady m bound = true ∧ t'.IsBelow m t :=
  (all_entered hg hsteady).of_mem_entered ht'

end Below

/-! ## Runs that come to an end -/

/-- A run of a steady task that the fuel pays for comes to an end. -/
theorem outcome_ne_exhausted (hg : g.Gauged m bound) {fuel : Nat} {t : Task ρ}
    (hsteady : t.expr.isSteady m bound = true) (hfuel : Affords m bound fuel t.expr t.cursor) :
    t.outcome g fuel ≠ .exhausted := by
  -- By induction on the fuel: what is entered is below the task, and so one unit less pays for it.
  induction fuel generalizing t with
  | zero =>
      have hpos := hg.height_pos t.expr
      unfold Affords at hfuel
      omega
  | succ fuel ih =>
      refine outcome_ne_exhausted_of_entered fun t' ht' => ?_
      obtain ⟨hsteady', hbelow⟩ := of_mem_entered hg hsteady ht'
      exact ih hsteady' (hbelow.affords hg hsteady' hfuel)

end Task

/-- A run of a steady expression that the fuel pays for comes to an end. -/
theorem run_ne_exhausted (hg : g.Gauged m bound) {fuel : Nat} {spacing : Spacing} {gaze : Gaze}
    {e : Expr ρ} {c : Cursor} {reach : Nat} (hsteady : e.isSteady m bound = true)
    (hfuel : Affords m bound fuel e c) : run g fuel spacing gaze e c reach ≠ .exhausted :=
  Task.outcome_ne_exhausted (t := ⟨spacing, gaze, e, c, reach⟩) hg hsteady hfuel

end LogLabel.Peg
