import LogLabel.Proofs.Expansion.Success

set_option autoImplicit false

/-!
# The labels that log a statement

An expression statement can stand below several labels of log statements. The pass logs it
once, for the label that owns it. This is the innermost label around it, unless that label
is itself the body of another one: the search through the body of a label enters the body
also when it is a label, so then the outer one of the two is the owner.

* `Expansion.Structural.owner` is the owner among the nodes around a statement.
* `Expansion.Structural.Governs`: how the site of a place depends on the nodes around it.
* `Expansion.logged_by_owner`: a successful pass without stripping turns every expression
  statement below a label into a log statement of its owner.
-/

namespace LogLabel

open Program (Ast Kind NodeId Span Tree)

namespace Expansion

namespace Structural

open Purity (harmless harmless_node harmless_children)

variable {ι : Type}

/-- The label of a log statement that has the given nodes around it as its body. -/
def directLabel (bs : List (Ast ι)) : Option (Ast ι) := bs.head?.filter isLabel

/-- The label that logs an expression statement below the given nodes, the nearest first: the
innermost label, or the label whose body the innermost one is. -/
def owner : List (Ast ι) → Option (Ast ι)
  | [] => none
  | l :: bs => if isLabel l then some ((directLabel bs).getD l) else owner bs

theorem owner_of_label {l : Ast ι} (h : isLabel l = true) (bs : List (Ast ι)) :
    owner (l :: bs) = some ((directLabel bs).getD l) := if_pos h

theorem owner_of_not_label {l : Ast ι} (h : isLabel l = false) (bs : List (Ast ι)) :
    owner (l :: bs) = owner bs := if_neg (by rw [h]; exact Bool.false_ne_true)

theorem directLabel_of_label {l : Ast ι} (h : isLabel l = true) (bs : List (Ast ι)) :
    directLabel (l :: bs) = some l := by
  simp [directLabel, h]

theorem directLabel_of_not_label {l : Ast ι} (h : isLabel l = false) (bs : List (Ast ι)) :
    directLabel (l :: bs) = none := by
  simp [directLabel, h]

/-- A statement below a label has an owner. -/
theorem exists_owner : ∀ {bs : List (Ast ι)}, (∃ l ∈ bs, isLabel l = true) → ∃ l, owner bs = some l := by
  intro bs
  induction bs with
  | nil => simp
  | cons b bs ih =>
      rintro ⟨l, hl, hlabel⟩
      cases hb : isLabel b with
      | true => exact ⟨_, owner_of_label hb bs⟩
      | false =>
          rw [owner_of_not_label hb]
          rcases List.mem_cons.1 hl with rfl | hl
          · rw [hb] at hlabel
            cases hlabel
          · exact ih ⟨l, hl, hlabel⟩

variable {c : ExpansionContext} {lines : List Nat} {inList : Bool} {place : Place} {s : Span}
  {site : Site} {a body e x : Ast Span} {cs xs : List (Ast Span)}

/-- The site says what the label does and where it stands. -/
def Carries (lines : List Nat) (site : Site) (l : Ast Span) : Prop :=
  (∃ name body, l.kind = .labeled name body ∧ label? name = some (site.level, site.values)) ∧
    site.line = lineOf lines l.note

/-- The site of a place is that of the label which owns the statements of `a`, below the nodes `cs`.
A label is not entered from the nodes around it, but from the label whose body it is. -/
def Governs (lines : List Nat) (place : Place) (cs : List (Ast Span)) (a : Ast Span) : Prop :=
  Option.Rel (Carries lines) place.site (if isLabel a then directLabel cs else owner cs)

theorem enter_site (place : Place) (a : Ast Span) :
    (place.enter a).site = if isLabel a then none else place.site := by
  unfold Place.enter
  split <;> rfl

/-- The parts of a node that is no label. -/
theorem Governs.part (h : Governs lines place cs a) (ha : isLabel a = false) (b : Ast Span) :
    Governs lines (place.enter b) (a :: cs) b := by
  rw [Governs, ha, if_neg Bool.false_ne_true] at h
  rw [Governs, enter_site, directLabel_of_not_label ha, owner_of_not_label ha]
  cases isLabel b with
  | true => exact .none
  | false => exact h

/-- The body of a label is entered from the owner of its statements. -/
theorem Governs.enterBody {name : String} {meaning : Level × Bool}
    (h : Governs lines place cs (.node s (.labeled name body))) (hmeaning : label? name = some meaning) :
    Governs lines
      ⟨place.path, some ((place.enter body).site.getD (place.siteOf lines s meaning))⟩
      (.node s (.labeled name body) :: cs) body := by
  have hlabel : isLabel (Ast.node s (.labeled name body)) = true := by
    change known name = true
    rw [known_of_label?, hmeaning]
    rfl
  have hown : Carries lines (place.siteOf lines s meaning) (.node s (.labeled name body)) :=
    ⟨⟨name, body, rfl, hmeaning⟩, rfl⟩
  rw [Governs, hlabel, if_pos rfl] at h
  rw [Governs, enter_site, directLabel_of_label hlabel, owner_of_label hlabel]
  -- A body that is a label is owned by this one; else the site around it stays, if there is one.
  cases isLabel body with
  | true => exact .some hown
  | false =>
      rw [if_neg Bool.false_ne_true, if_neg Bool.false_ne_true]
      generalize place.site = o, directLabel cs = d at h
      cases h with
      | none => exact .some hown
      | some hcarries => exact .some hcarries

/-- A log statement of the expression `x` for the label `l` is in one of the programs. -/
def LoggedFor (c : ExpansionContext) (lines : List Nat) (x : Ast Span) (s : Span) (l : Ast Span)
    (xs : List (Ast Span)) : Prop :=
  ∃ site, Carries lines site l ∧ ∃ y ∈ xs, (logStatement c site x s).Part y

theorem LoggedFor.mono {l : Ast Span} {ys : List (Ast Span)} (h : LoggedFor c lines x s l ys)
    (hsub : ∀ y ∈ ys, ∃ z ∈ xs, y.Part z) : LoggedFor c lines x s l xs := by
  obtain ⟨site, hsite, y, hy, hpart⟩ := h
  obtain ⟨z, hz, hyz⟩ := hsub y hy
  exact ⟨site, hsite, z, hz, hpart.trans hyz⟩

/-- An expression statement at its place. -/
theorem loggedFor_here {l : Ast Span} (hgoverns : Governs lines place cs e)
    (hx : e.kind = .expression x) (howner : owner cs = some l)
    (h : Expands c lines inList place e xs) : LoggedFor c lines x e.note l xs := by
  obtain ⟨i, k⟩ := e
  obtain rfl : k = .expression x := hx
  have hrel : Option.Rel (Carries lines) place.site (some l) := by
    rw [← howner]
    exact hgoverns
  obtain ⟨site, hsite, hcarries⟩ : ∃ site, place.site = some site ∧ Carries lines site l := by
    generalize place.site = o at hrel
    cases hrel with
    | some hcarries => exact ⟨_, rfl, hcarries⟩
  cases h.outcome with
  | @logged site' _ hsite' =>
      obtain rfl : site' = site := Option.some.inj (hsite'.symm.trans hsite)
      exact ⟨site', hcarries, _, List.mem_singleton.2 rfl, .self⟩
  | parts _ hplain _ =>
      rcases hplain with hplain | hplain
      · rw [hplain] at hsite
        cases hsite
      · cases hplain

/-- Every expression statement of a sorted program that has an owner becomes a log statement of the
owner. As for the jumps of a program, what is in a region was searched for forbidden constructs. -/
theorem loggedFor_owner (hstrip : c.strip = none) (hx : e.kind = .expression x) {l : Ast Span}
    (a : Ast Span) :
    ∀ (b : Bool) (bs cs : List (Ast Span)), a.wellSorted b = true → e.At a bs →
      owner (bs ++ cs) = some l →
      (∀ inList place xs, Governs lines place cs a →
        (place.site.isSome = true → harmless known a = true) →
        Expands c lines inList place a xs → LoggedFor c lines x e.note l xs) ∧
      ∀ inList label place xs, Governs lines place cs a → breaches a = [] →
        Unwraps c lines inList label place a xs → LoggedFor c lines x e.note l xs := by
  induction a using Ast.induction with
  | node s k ih =>
      intro b bs cs hsorted hat howner
      have hchildren := ((Ast.wellSorted_node b s k).1 hsorted).2
      -- The statement is the node itself, or it is in one of the parts, which has an outcome of its own.
      have hexpands : ∀ inList place xs, Governs lines place cs (.node s k) →
          (place.site.isSome = true → harmless known (.node s k) = true) →
          Expands c lines inList place (.node s k) xs → LoggedFor c lines x e.note l xs := by
        intro inList place xs hgoverns hharmless h
        cases hat with
        | here => exact loggedFor_here hgoverns hx howner h
        | @inside _ d bs hd hat =>
            rw [List.append_assoc, List.singleton_append] at howner
            cases h.outcome with
            | @logged site y hsite =>
                -- The statement would be inside of an expression that was searched.
                exfalso
                obtain rfl := List.mem_singleton.1 hd
                have hy : harmless known d = true :=
                  harmless_children (hharmless (by rw [hsite]; rfl)) rfl d (List.mem_singleton.2 rfl)
                have hstatement := (Purity.harmless_part hat.part
                  (Ast.wellSorted_expression hsorted .self rfl) hy).1
                rw [hx] at hstatement
                cases hstatement
            | stripped _ hstripped =>
                rw [strips, hstrip] at hstripped
                cases hstripped
            | label hmeaning hpure hbody =>
                obtain rfl := List.mem_singleton.1 hd
                exact (ih d hd _ bs _ (hchildren d hd) hat howner).2 _ _ _ _
                  (hgoverns.enterBody hmeaning) hpure hbody
            | parts hlabel _ hall =>
                obtain ⟨ys, hys, hexpand⟩ := hall.of_mem d hd
                have hinside : Governs lines (place.inside lines s k) cs (.node s k) := hgoverns
                have hlogged := (ih d hd _ bs _ (hchildren d hd) hat howner).1 _ _ _
                  (hinside.part hlabel d) (fun hsite => ?_) hexpand
                · refine hlogged.mono fun y hy => ⟨_, List.mem_singleton.2 rfl, .of_mem ?_⟩
                  rw [Ast.kind_node, hall.children_refill]
                  exact hys hy
                · have hplace : (place.inside lines s k).site.isSome = true := isSome_of_enter hsite
                  exact harmless_children (hharmless hplace) hlabel d hd
      refine ⟨hexpands, fun inList label place xs hgoverns hpure h => ?_⟩
      obtain ⟨hconstruct, hparts⟩ := (breaches_eq_nil _).1 hpure
      have hpart : isLabel (Ast.node s k) = false → ∀ d ∈ k.children, ∀ bs, e.At d bs →
          owner (bs ++ .node s k :: cs) = some l → ∀ inList ys,
          Expands c lines inList (place.enter d) d ys → LoggedFor c lines x e.note l ys :=
        fun hlabel d hd bs hat howner inList ys hexpand =>
          (ih d hd _ bs _ (hchildren d hd) hat howner).1 _ _ _ (hgoverns.part hlabel d)
            (fun _ => hparts d hd) hexpand
      cases h.outcome with
      | nothing hk =>
          cases hat with
          | here =>
              rw [Ast.kind_node] at hx
              rw [hx] at hk
              cases hk
          | inside hd _ =>
              rw [Ast.kind_node, hk] at hd
              exact absurd hd List.not_mem_nil
      | single he =>
          cases hat with
          | here => cases hx
          | @inside _ d bs hd hat =>
              rw [List.append_assoc, List.singleton_append] at howner
              obtain rfl := List.mem_singleton.1 hd
              exact hpart rfl d hd bs hat howner _ _ he
      | @block es ys hall =>
          cases hat with
          | here => cases hx
          | @inside _ d bs hd hat =>
              rw [List.append_assoc, List.singleton_append] at howner
              obtain ⟨zs, hzs, hexpand⟩ := hall.of_mem d hd
              have hlogged := hpart rfl d hd bs hat howner _ _ hexpand
              cases inList with
              | true => exact hlogged.mono fun y hy => ⟨y, hzs hy, .self⟩
              | false =>
                  exact hlogged.mono fun y hy => ⟨_, List.mem_singleton.2 rfl, .of_mem (hzs hy)⟩
      | other hk =>
          exact hexpands _ _ _ hgoverns
            (fun _ => (harmless_node s k).2 (Or.inr ⟨hconstruct, hparts⟩)) hk

end Structural

/-! ## Logged statements of rewritten programs -/

open Structural (isLabel owner Carries logStatement)

/-- Every expression statement of a text that stands below a label of a log statement has an owner, and
a successful pass that strips nothing turns it into a log statement with the level, the values and the
line of its owner. -/
theorem logged_by_owner {text : String} {t : Tree} (hparse : Program.parse .source text = .ok t)
    {c : ExpansionContext} (hc : c.table = LabelTable.defaults) (hstrip : c.strip = none)
    {session : Session} (hrun : run c t = .ok session) {e x : Ast Span} {bs : List (Ast Span)}
    (hat : e.At (t.program.mapNotes t.span) bs) (hx : e.kind = .expression x)
    (hbelow : ∃ l ∈ bs, isLabel l = true) :
    ∃ l site, owner bs = some l ∧ Carries t.lineStarts site l ∧
      (logStatement c site x e.note).Part (session.tree.program.mapNotes session.tree.span) := by
  obtain ⟨l, howner⟩ := Structural.exists_owner hbelow
  have hexpands := expands_of_run hparse hc hrun
  have hsorted := Program.parse_wellSorted hparse
  rw [← Ast.wellSorted_mapNotes t.span] at hsorted
  have hgoverns : Structural.Governs t.lineStarts ⟨[], none⟩ [] (t.program.mapNotes t.span) := by
    rw [Structural.Governs]
    split <;> exact .none
  obtain ⟨site, hsite, y, hy, hpart⟩ := (Structural.loggedFor_owner hstrip hx _ _ bs [] hsorted hat
    (by rw [List.append_nil, howner])).1 false ⟨[], none⟩ _ hgoverns
    (fun h => absurd h Bool.false_ne_true) hexpands
  obtain rfl := List.mem_singleton.1 hy
  exact ⟨l, site, howner, hsite, hpart⟩

/-- A program of one expression statement below two labels, one the body of the other. -/
def isNestedLabel (outer inner : String) : Ast Span → Bool
  | .node _ (.program [.node _ (.labeled l (.node _ (.labeled l' (.node _ (.expression _)))))]) =>
      l == outer && l' == inner
  | _ => false

theorem exists_of_isNestedLabel {outer inner : String} {a : Ast Span}
    (h : isNestedLabel outer inner a = true) :
    ∃ s₀ s₁ s₂ s₃ x, a = .node s₀ (.program
      [.node s₁ (.labeled outer (.node s₂ (.labeled inner (.node s₃ (.expression x)))))]) := by
  unfold isNestedLabel at h
  split at h
  · next s₀ s₁ l s₂ l' s₃ x =>
      rw [Bool.and_eq_true, beq_iff_eq, beq_iff_eq] at h
      obtain ⟨rfl, rfl⟩ := h
      exact ⟨s₀, s₁, s₂, s₃, x, rfl⟩
  · cases h

/-- A statement below a label that is the body of another one is logged for the outer one: the inner
one, around the statement, is not its owner. -/
theorem logged_by_owner_nested :
    ∃ (t : Tree) (session : Session), Program.parse .source "debug:info:a" = .ok t ∧
      run plainContext t = .ok session ∧ ∃ s₀ s₁ s₂ s₃ x site,
        t.program.mapNotes t.span = .node s₀ (.program
          [.node s₁ (.labeled "debug" (.node s₂ (.labeled "info" (.node s₃ (.expression x)))))]) ∧
        site.level = .debug ∧ (logStatement plainContext site x s₃).Part
          (session.tree.program.mapNotes session.tree.span) := by
  have hseen : observe plainContext
      (fun t _ => isNestedLabel "debug" "info" (t.program.mapNotes t.span)) "debug:info:a"
      = some true := by decide +kernel
  obtain ⟨t, session, hparse, hrun, hshape⟩ := exists_of_observe hseen
  obtain ⟨s₀, s₁, s₂, s₃, x, hprogram⟩ := exists_of_isNestedLabel hshape
  have hat : (Ast.node s₃ (.expression x)).At (t.program.mapNotes t.span)
      ([] ++ [.node s₂ (.labeled "info" (.node s₃ (.expression x)))]
        ++ [.node s₁ (.labeled "debug" (.node s₂ (.labeled "info" (.node s₃ (.expression x)))))]
        ++ [t.program.mapNotes t.span]) := by
    refine .inside (c := .node s₁ (.labeled "debug" _)) ?_ (.inside (List.mem_singleton.2 rfl)
      (.inside (List.mem_singleton.2 rfl) .here))
    rw [hprogram]
    exact List.mem_singleton.2 rfl
  have hinner : isLabel (Ast.node s₂ (.labeled "info" (.node s₃ (.expression x)))) = true := by
    change Structural.known "info" = true
    decide +kernel
  have houter : isLabel (Ast.node s₁ (.labeled "debug" (.node s₂ (.labeled "info"
      (.node s₃ (.expression x)))))) = true := by
    change Structural.known "debug" = true
    decide +kernel
  obtain ⟨l, site, howner, ⟨⟨name, body, hkind, hmeaning⟩, -⟩, hpart⟩ :=
    logged_by_owner hparse rfl rfl hrun hat rfl ⟨_, List.mem_cons_self, hinner⟩
  refine ⟨t, session, hparse, hrun, s₀, s₁, s₂, s₃, x, site, hprogram, ?_, hpart⟩
  rw [List.nil_append, List.singleton_append, List.cons_append, Structural.owner_of_label hinner,
    List.singleton_append, Structural.directLabel_of_label houter] at howner
  obtain rfl := Option.some.inj howner
  obtain ⟨rfl, -⟩ := Kind.labeled.inj hkind
  have hdebug : Structural.label? "debug" = some (.debug, true) := by decide +kernel
  rw [hdebug] at hmeaning
  exact (congrArg Prod.fst (Option.some.inj hmeaning)).symm

end Expansion

end LogLabel
