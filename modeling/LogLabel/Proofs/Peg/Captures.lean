import LogLabel.Proofs.Peg.Matches

set_option autoImplicit false

/-!
# Nesting of captures

Which rules can be captured inside of which is decided by the bodies of the rules, whatever
the text is. A relation `allowed` between rules that contains what every body names, with
silent rules replaced by what their bodies name, holds between every captured rule and the
rules captured directly inside of it.

* `Expr.names` lists the rules that an expression names outside of look-aheads.
* `Grammar.Nests g allowed`: the bodies of the grammar name allowed rules only.
* `Matches.nested`: then every capture of a match is nested as `allowed` says.
-/

namespace LogLabel.Peg

variable {ρ : Type}

/-- The rules that an expression names. Nothing is captured in a look-ahead. -/
def Expr.names : Expr ρ → List ρ
  | .text _ => []
  | .one _ => []
  | .rule name => [name]
  | .seq first second => first.names ++ second.names
  | .alt first second => first.names ++ second.names
  | .opt e => e.names
  | .star e => e.names
  | .further e => e.names
  | .present _ => []
  | .absent _ => []

/-- In every captured rule only rules are captured that are allowed there. -/
inductive Capture.Nested (allowed : ρ → ρ → Prop) : Capture ρ → Prop
  | mk {name : ρ} {start stop : Nat} {input : List Char} {inner : List (Capture ρ)}
      (names : ∀ c ∈ inner, allowed name c.name) (parts : ∀ c ∈ inner, Nested allowed c) :
      Nested allowed (.mk name start stop input inner)

/-- The rules `S` contain what is captured in the place of the silent ones among them. -/
def Grammar.Closed (g : Grammar ρ) (S : ρ → Prop) : Prop :=
  ∀ r, S r → (g.define r).form = .silent → ∀ n ∈ (g.define r).body.names, S n

/-- The bodies of the grammar name allowed rules only. -/
structure Grammar.Nests (g : Grammar ρ) (allowed : ρ → ρ → Prop) : Prop where
  names : ∀ r, ∀ n ∈ (g.define r).body.names, allowed r n
  closed : ∀ r, g.Closed (allowed r)

/-- What a match captures is named by the expression, and nested as the grammar says. -/
theorem Matches.nested {g : Grammar ρ} {allowed : ρ → ρ → Prop} (hg : g.Nests allowed) {gaze : Gaze}
    {spacing : Spacing} {e : Expr ρ} {c c' : Cursor} {captures : List (Capture ρ)}
    (h : Matches g gaze spacing e c c' captures) :
    ∀ {S : ρ → Prop}, g.Closed S → (∀ n ∈ e.names, S n) →
      ∀ cap ∈ captures, S cap.name ∧ cap.Nested allowed := by
  induction h with
  | text _ => simp
  | one _ => simp
  | silent form _ ih =>
      intro S hS hnames
      exact ih hS (hS _ (hnames _ (List.mem_singleton.2 rfl)) form)
  | @captured _ name _ _ inner _ _ _ ih =>
      intro S hS hnames cap hcap
      obtain rfl := List.mem_singleton.1 hcap
      have hinner := ih (hg.closed name) (hg.names name)
      exact ⟨hnames name (List.mem_singleton.2 rfl),
        .mk (fun d hd => (hinner d hd).1) fun d hd => (hinner d hd).2⟩
  | hidden _ _ _ => simp
  | seq _ _ _ ihleft _ ihright =>
      intro S hS hnames
      refine List.forall_mem_append.2 ⟨ihleft hS ?_, ihright hS ?_⟩
      · exact fun n hn => hnames n (List.mem_append_left _ hn)
      · exact fun n hn => hnames n (List.mem_append_right _ hn)
  | left _ ih => exact fun hS hnames => ih hS fun n hn => hnames n (List.mem_append_left _ hn)
  | right _ ih => exact fun hS hnames => ih hS fun n hn => hnames n (List.mem_append_right _ hn)
  | given _ ih => exact ih
  | omitted => simp
  | starNil => simp
  | starCons _ _ ihhead ihtail =>
      exact fun hS hnames => List.forall_mem_append.2 ⟨ihhead hS hnames, ihtail hS hnames⟩
  | furtherNil => simp
  | furtherCons _ _ _ _ ihhead ihtail =>
      exact fun hS hnames => List.forall_mem_append.2 ⟨ihhead hS hnames, ihtail hS hnames⟩
  | present => simp
  | absent => simp

end LogLabel.Peg
