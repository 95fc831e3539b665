import LogLabel.Proofs.Peg.Depth
import Mathlib

set_option autoImplicit false

/-!
# Effort of matching

Fuel bounds how deep a run goes, and not how long it takes: a choice tries one alternative after
the other, and each of them may go as deep. Here all calls are counted, and the tasks that are
entered are followed over any number of calls.

* `Task.Enters`: a run of the one task calls for the other.
* `Task.length_lt_of_returns`: a run that comes back to an expression has read a character.
* `Task.effort`: the calls that a run makes.
* `Task.effort_le`: they are bounded by the fuel that pays for the task, whatever fuel is given.
* `length_lt_of_mem_repeated`: what is repeated in a steady expression reads a character.
-/

namespace LogLabel.Peg

variable {ρ : Type} {g : Grammar ρ} {m : Gauge ρ} {bound : Nat}

namespace Task

/-! ## Coming back -/

/-- A run of the one task, with some fuel, enters the other. -/
def Enters (g : Grammar ρ) (t t' : Task ρ) : Prop :=
  ∃ fuel, t' ∈ t.entered g fuel

variable {t t' : Task ρ}

/-- Whatever a run of a steady task comes to is steady and below the task. -/
theorem of_transGen_enters (hg : g.Gauged m bound) (hsteady : t.expr.isSteady m bound = true)
    (h : Relation.TransGen (Enters g) t t') :
    t'.expr.isSteady m bound = true ∧ t'.IsBelow m t := by
  induction h with
  | single henters =>
      obtain ⟨fuel, ht'⟩ := henters
      exact of_mem_entered hg hsteady ht'
  | tail _ henters ih =>
      obtain ⟨fuel, ht'⟩ := henters
      obtain ⟨hsteady', hbelow'⟩ := of_mem_entered hg ih.1 ht'
      exact ⟨hsteady', hbelow'.trans ih.2⟩

/-- A run that comes back to an expression has read a character in between. -/
theorem length_lt_of_returns (hg : g.Gauged m bound) (hsteady : t.expr.isSteady m bound = true)
    (h : Relation.TransGen (Enters g) t t') (hexpr : t'.expr = t.expr) :
    t'.cursor.rest.length < t.cursor.rest.length := by
  obtain ⟨-, hlength | ⟨-, hheight⟩⟩ := of_transGen_enters hg hsteady h
  · exact hlength
  · rw [hexpr] at hheight
    exact absurd hheight (Nat.lt_irrefl _)

/-! ## Counting calls -/

/-- The calls that a run makes, its own among them. -/
def effort (g : Grammar ρ) : Nat → Task ρ → Nat
  | 0, _ => 1
  | fuel + 1, t => 1 + ((t.entered g fuel).map (effort g fuel)).sum

theorem effort_succ (g : Grammar ρ) (fuel : Nat) (t : Task ρ) :
    t.effort g (fuel + 1) = 1 + ((t.entered g fuel).map (effort g fuel)).sum := rfl

/-- The calls are bounded by the fuel `n` that pays for a steady task, whatever fuel is given: each
call makes at most three more, and these are paid for with one unit less. -/
theorem effort_le (hg : g.Gauged m bound) {n fuel : Nat} (hsteady : t.expr.isSteady m bound = true)
    (hn : Affords m bound n t.expr t.cursor) : t.effort g fuel ≤ 4 ^ n := by
  -- By induction on the fuel that pays. The fuel of the run may be anything.
  induction n generalizing fuel t with
  | zero =>
      have hpos := hg.height_pos t.expr
      unfold Affords at hn
      omega
  | succ n ih =>
      have hone : 1 ≤ 4 ^ n := Nat.one_le_pow _ _ (by decide)
      cases fuel with
      | zero => exact Nat.one_le_pow _ _ (by decide)
      | succ fuel =>
          have hcall : ∀ calls ∈ (t.entered g fuel).map (effort g fuel), calls ≤ 4 ^ n := by
            intro calls hcalls
            obtain ⟨t', ht', rfl⟩ := List.mem_map.1 hcalls
            obtain ⟨hsteady', hbelow⟩ := of_mem_entered hg hsteady ht'
            exact ih hsteady' (hbelow.affords hg hsteady' hn)
          have hcalls := List.sum_le_card_nsmul _ _ hcall
          rw [List.length_map, smul_eq_mul] at hcalls
          have hthree := Nat.mul_le_mul_right (4 ^ n) (length_entered_le g fuel t)
          rw [effort_succ, Nat.pow_succ]
          omega

end Task

/-- What is repeated in a steady expression reads a character wherever it matches. -/
theorem length_lt_of_mem_repeated (hg : g.Gauged m bound) {e e' : Expr ρ}
    (hsteady : e.isSteady m bound = true) (he' : e' ∈ e.repeated) {fuel : Nat} {spacing : Spacing}
    {gaze : Gaze} {c c' : Cursor} {reach reach' : Nat} {captures : List (Capture ρ)}
    (h : run g fuel spacing gaze e' c reach = .matched c' captures reach') :
    c'.rest.length < c.rest.length :=
  (matches_of_run h).length_lt hg (Expr.mayBeEmpty_of_mem_repeated hsteady he')

end LogLabel.Peg
