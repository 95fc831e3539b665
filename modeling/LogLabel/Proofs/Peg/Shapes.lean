import LogLabel.Proofs.Peg.Captures

set_option autoImplicit false

/-!
# Shapes of captures

Which rules are captured directly inside of a rule, and in which order, is described by the body
of the rule, whatever the text is.

* `Expr.Yields item e names`: the expression can capture rules of these names, where `item`
  says what a rule of the grammar captures in its place.
* `Expr.fillings inPlace e`: those lists, one by one, for an expression that repeats no rule.
* `Capture.Formed takes c`: at every depth the rules captured inside of a rule are a list that
  `takes` holds of.
* `Grammar.Forms g item takes`: what the bodies of the rules yield is taken.
* `Matches.formed`: then every capture of a match is formed.
-/

namespace LogLabel.Peg

variable {ρ : Type}

/-- The lists of rules that an expression can capture, given those of a rule in its place. -/
def Expr.Yields (item : ρ → List ρ → Prop) : Expr ρ → List ρ → Prop
  | .text _, names => names = []
  | .one _, names => names = []
  | .rule name, names => item name names
  | .seq first second, names =>
      ∃ left right, first.Yields item left ∧ second.Yields item right ∧ names = left ++ right
  | .alt first second, names => first.Yields item names ∨ second.Yields item names
  | .opt e, names => names = [] ∨ e.Yields item names
  | .star e, names => ∃ parts : List (List ρ), (∀ p ∈ parts, e.Yields item p) ∧ names = parts.flatten
  | .further e, names =>
      ∃ parts : List (List ρ), (∀ p ∈ parts, e.Yields item p) ∧ names = parts.flatten
  | .present _, names => names = []
  | .absent _, names => names = []

section Yields

variable {item : ρ → List ρ → Prop} {e : Expr ρ} {names : List ρ}

/-- What holds of the rules that are captured in the place of a named rule holds of all of them. -/
theorem Expr.Yields.forall_mem {P : ρ → Prop} (h : e.Yields item names) :
    (∀ r ∈ e.names, ∀ ns, item r ns → ∀ n ∈ ns, P n) → ∀ n ∈ names, P n := by
  induction e generalizing names with
  | text _ => cases h; simp
  | one _ => cases h; simp
  | rule r => exact fun hitem => hitem r (List.mem_singleton.2 rfl) names h
  | seq first second ihfirst ihsecond =>
      intro hitem
      obtain ⟨left, right, hleft, hright, rfl⟩ := h
      rw [Expr.names, List.forall_mem_append] at hitem
      exact List.forall_mem_append.2 ⟨ihfirst hleft hitem.1, ihsecond hright hitem.2⟩
  | alt first second ihfirst ihsecond =>
      intro hitem
      rw [Expr.names, List.forall_mem_append] at hitem
      rcases h with h | h
      · exact ihfirst h hitem.1
      · exact ihsecond h hitem.2
  | opt e ih =>
      rcases h with rfl | h
      · simp
      · exact ih h
  | star e ih =>
      intro hitem n hn
      obtain ⟨parts, hparts, rfl⟩ := h
      obtain ⟨part, hpart, hn⟩ := List.mem_flatten.1 hn
      exact ih (hparts part hpart) hitem n hn
  | further e ih =>
      intro hitem n hn
      obtain ⟨parts, hparts, rfl⟩ := h
      obtain ⟨part, hpart, hn⟩ := List.mem_flatten.1 hn
      exact ih (hparts part hpart) hitem n hn
  | present _ => cases h; simp
  | absent _ => cases h; simp

/-- An expression that names no rule yields nothing. -/
theorem Expr.Yields.eq_nil (h : e.Yields item names) (hnames : e.names = []) : names = [] := by
  refine List.eq_nil_iff_forall_not_mem.2 (h.forall_mem fun r hr => ?_)
  rw [hnames] at hr
  cases hr

/-- The lists of rules that an expression can capture, when nothing that is captured is repeated. -/
def Expr.fillings (inPlace : ρ → List ρ) : Expr ρ → Option (List (List ρ))
  | .rule name => some ((inPlace name).map fun n => [n])
  | .seq first second =>
      match first.fillings inPlace, second.fillings inPlace with
      | some lefts, some rights => some (lefts.flatMap fun left => rights.map (left ++ ·))
      | _, _ => none
  | .alt first second =>
      match first.fillings inPlace, second.fillings inPlace with
      | some lefts, some rights => some (lefts ++ rights)
      | _, _ => none
  | .opt e => (e.fillings inPlace).map ([] :: ·)
  | .star e => if e.names.isEmpty then some [[]] else none
  | .further e => if e.names.isEmpty then some [[]] else none
  | _ => some [[]]

/-- Repeating what captures nothing captures nothing. -/
theorem Expr.flatten_eq_nil {parts : List (List ρ)} (hnames : e.names.isEmpty = true)
    (hparts : ∀ p ∈ parts, e.Yields item p) : parts.flatten = [] :=
  List.flatten_eq_nil_iff.2 fun p hp => (hparts p hp).eq_nil (List.isEmpty_iff.1 hnames)

/-- Every list that is captured is one of the fillings. -/
theorem Expr.Yields.mem_fillings {inPlace : ρ → List ρ} {lists : List (List ρ)}
    (hitem : ∀ r ns, item r ns → ∃ n ∈ inPlace r, ns = [n]) (h : e.Yields item names)
    (hlists : e.fillings inPlace = some lists) : names ∈ lists := by
  induction e generalizing names lists with
  | text _ => cases h; cases hlists; exact List.mem_singleton.2 rfl
  | one _ => cases h; cases hlists; exact List.mem_singleton.2 rfl
  | rule r =>
      cases hlists
      obtain ⟨n, hn, rfl⟩ := hitem r names h
      exact List.mem_map.2 ⟨n, hn, rfl⟩
  | seq first second ihfirst ihsecond =>
      obtain ⟨left, right, hleft, hright, rfl⟩ := h
      rw [Expr.fillings] at hlists
      split at hlists
      · next lefts rights hlefts hrights =>
          cases hlists
          exact List.mem_flatMap.2 ⟨left, ihfirst hleft hlefts,
            List.mem_map.2 ⟨right, ihsecond hright hrights, rfl⟩⟩
      · cases hlists
  | alt first second ihfirst ihsecond =>
      rw [Expr.fillings] at hlists
      split at hlists
      · next lefts rights hlefts hrights =>
          cases hlists
          rcases h with h | h
          · exact List.mem_append_left _ (ihfirst h hlefts)
          · exact List.mem_append_right _ (ihsecond h hrights)
      · cases hlists
  | opt e ih =>
      obtain ⟨rest, hrest, rfl⟩ := Option.map_eq_some_iff.1 hlists
      rcases h with rfl | h
      · exact List.mem_cons_self
      · exact List.mem_cons_of_mem _ (ih h hrest)
  | star e _ =>
      obtain ⟨parts, hparts, rfl⟩ := h
      rw [Expr.fillings] at hlists
      split at hlists
      · next hnames =>
          cases hlists
          exact List.mem_singleton.2 (Expr.flatten_eq_nil hnames hparts)
      · cases hlists
  | further e _ =>
      obtain ⟨parts, hparts, rfl⟩ := h
      rw [Expr.fillings] at hlists
      split at hlists
      · next hnames =>
          cases hlists
          exact List.mem_singleton.2 (Expr.flatten_eq_nil hnames hparts)
      · cases hlists
  | present _ => cases h; cases hlists; exact List.mem_singleton.2 rfl
  | absent _ => cases h; cases hlists; exact List.mem_singleton.2 rfl

end Yields

/-- At every depth the rules captured inside of a rule are a list that the rule takes. -/
inductive Capture.Formed (takes : ρ → List ρ → Prop) : Capture ρ → Prop
  | mk {name : ρ} {start stop : Nat} {input : List Char} {inner : List (Capture ρ)}
      (names : takes name (inner.map Capture.name)) (parts : ∀ c ∈ inner, Formed takes c) :
      Formed takes (.mk name start stop input inner)

/-- What the bodies of the rules yield is taken, and what silent rules yield is captured in their
place. Nothing is captured inside of an atomic rule. -/
structure Grammar.Forms (g : Grammar ρ) (item : ρ → List ρ → Prop) (takes : ρ → List ρ → Prop) :
    Prop where
  silent : ∀ name names, (g.define name).form = .silent → (g.define name).body.Yields item names →
    item name names
  captured : ∀ name, (g.define name).form ≠ .silent → item name [name]
  atomic : ∀ name, (g.define name).form = .atomic →
    (g.define name).body.names = [] ∧ takes name []
  taken : ∀ name names, (g.define name).form ≠ .silent → (g.define name).form ≠ .atomic →
    (g.define name).body.Yields item names → takes name names

variable {g : Grammar ρ} {item takes : ρ → List ρ → Prop}

/-- An expression that names no rule captures nothing. -/
theorem Matches.captures_eq_nil {gaze : Gaze} {spacing : Spacing} {e : Expr ρ} {c c' : Cursor}
    {captures : List (Capture ρ)} (h : Matches g gaze spacing e c c' captures)
    (hnames : e.names = []) : captures = [] := by
  have hnests : g.Nests fun _ _ => True := ⟨fun _ _ _ => trivial, fun _ _ _ _ _ _ => trivial⟩
  have hnone := h.nested hnests (S := fun _ => False) (fun _ h => h.elim) (by simp [hnames])
  exact List.eq_nil_iff_forall_not_mem.2 fun c hc => (hnone c hc).1

/-- Outside of look-aheads and atomic rules every rule is captured. -/
theorem Form.shows_of_ne_closed {spacing : Spacing} (f : Form) (h : spacing ≠ .closed) :
    f.shows spacing .consuming = true := by
  cases f with
  | compound => rfl
  | spaced => rfl
  | _ => exact Bool.and_eq_true_iff.2 ⟨decide_eq_true h, rfl⟩

theorem Form.inside_ne_closed {spacing : Spacing} {f : Form} (hf : f ≠ .atomic)
    (h : spacing ≠ .closed) : f.inside spacing ≠ .closed := by
  cases f with
  | atomic => exact absurd rfl hf
  | compound => exact fun h => by cases h
  | spaced => exact fun h => by cases h
  | _ => exact h

/-- What a match captures is yielded by the expression, and formed as the grammar says. -/
theorem Matches.formed (hg : g.Forms item takes) {spacing : Spacing} {e : Expr ρ} {c c' : Cursor}
    {captures : List (Capture ρ)} (h : Matches g .consuming spacing e c c' captures) :
    spacing ≠ .closed →
      e.Yields item (captures.map Capture.name) ∧ ∀ cap ∈ captures, cap.Formed takes := by
  induction h with
  | text _ => exact fun _ => ⟨rfl, by simp⟩
  | one _ => exact fun _ => ⟨rfl, by simp⟩
  | silent form _ ih =>
      intro hspacing
      obtain ⟨hnames, hparts⟩ := ih hspacing
      exact ⟨hg.silent _ _ form hnames, hparts⟩
  | @captured spacing name c c' inner form _ body ih =>
      intro hspacing
      refine ⟨hg.captured name form, fun cap hcap => ?_⟩
      obtain rfl := List.mem_singleton.1 hcap
      by_cases hatomic : (g.define name).form = .atomic
      · obtain ⟨hnames, htakes⟩ := hg.atomic name hatomic
        obtain rfl := body.captures_eq_nil hnames
        exact .mk htakes (by simp)
      · obtain ⟨hnames, hparts⟩ := ih (Form.inside_ne_closed hatomic hspacing)
        exact .mk (hg.taken name _ form hatomic hnames) hparts
  | hidden unshown _ _ =>
      intro hspacing
      rw [Form.shows_of_ne_closed _ hspacing] at unshown
      cases unshown
  | seq _ _ _ ihleft _ ihright =>
      intro hspacing
      obtain ⟨hleft, hparts⟩ := ihleft hspacing
      obtain ⟨hright, hparts'⟩ := ihright hspacing
      exact ⟨⟨_, _, hleft, hright, List.map_append⟩, List.forall_mem_append.2 ⟨hparts, hparts'⟩⟩
  | left _ ih =>
      intro hspacing
      exact ⟨Or.inl (ih hspacing).1, (ih hspacing).2⟩
  | right _ ih =>
      intro hspacing
      exact ⟨Or.inr (ih hspacing).1, (ih hspacing).2⟩
  | given _ ih =>
      intro hspacing
      exact ⟨Or.inr (ih hspacing).1, (ih hspacing).2⟩
  | omitted => exact fun _ => ⟨Or.inl rfl, by simp⟩
  | starNil => exact fun _ => ⟨⟨[], by simp, rfl⟩, by simp⟩
  | starCons _ _ ihhead ihtail =>
      intro hspacing
      obtain ⟨hhead, hparts⟩ := ihhead hspacing
      obtain ⟨⟨rest, hrest, hflatten⟩, hparts'⟩ := ihtail hspacing
      refine ⟨⟨_ :: rest, List.forall_mem_cons.2 ⟨hhead, hrest⟩, ?_⟩,
        List.forall_mem_append.2 ⟨hparts, hparts'⟩⟩
      rw [List.map_append, hflatten, List.flatten_cons]
  | furtherNil => exact fun _ => ⟨⟨[], by simp, rfl⟩, by simp⟩
  | furtherCons _ _ _ _ ihhead ihtail =>
      intro hspacing
      obtain ⟨hhead, hparts⟩ := ihhead hspacing
      obtain ⟨⟨rest, hrest, hflatten⟩, hparts'⟩ := ihtail hspacing
      refine ⟨⟨_ :: rest, List.forall_mem_cons.2 ⟨hhead, hrest⟩, ?_⟩,
        List.forall_mem_append.2 ⟨hparts, hparts'⟩⟩
      rw [List.map_append, hflatten, List.flatten_cons]
  | present => exact fun _ => ⟨rfl, by simp⟩
  | absent => exact fun _ => ⟨rfl, by simp⟩

end LogLabel.Peg
