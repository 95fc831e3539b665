import LogLabel.Proofs.Expansion.Visit
import LogLabel.Proofs.Program.Sorts

set_option autoImplicit false

/-!
# Programs without labels of log statements

A statement that was made in the pass is not visited, but the statements of a made block are
when the block is the whole body of a label: the block is unwrapped then. So what they are
decides whether the pass expands its own output.

* `Ast.Plain known a`: no statement of `a` is labeled with a known name.
* `Template.filled_plain`: a template that is plain is plain with plain programs in its slots.
* `LabelTable.Tame`: the templates that are blocks are plain. This is decided by looking at
  the table.
* `Expansion.Made.plain_of_block`: with such a table the made blocks are plain.
-/

namespace LogLabel

open Program (Ast Kind NodeId Span Tree)

/-! ## Plain programs -/

/-- No statement of a program is labeled with a known name. -/
def Program.Ast.Plain {ι : Type} (known : String → Bool) (a : Ast ι) : Prop :=
  ∀ d : Ast ι, d.Part a → Purity.isKnownLabel known d.kind = false

namespace Program.Ast.Plain

variable {ι κ : Type} {known : String → Bool} {a b : Ast ι}

theorem part (h : a.Plain known) (hb : b.Part a) : b.Plain known :=
  fun d hd => h d (hd.trans hb)

theorem node_iff {i : ι} {k : Kind (Ast ι)} :
    (Ast.node i k).Plain known
      ↔ Purity.isKnownLabel known k = false ∧ ∀ c ∈ k.children, c.Plain known := by
  constructor
  · intro h
    exact ⟨h _ .self, fun c hc => h.part (.of_mem hc)⟩
  · rintro ⟨hk, hparts⟩ d hd
    cases hd with
    | self => exact hk
    | inside hc hd => exact hparts _ hc d hd

theorem expression {x : Ast ι} (h : x.Plain known) (ha : a.kind = .expression x) : a.Plain known := by
  obtain ⟨i, k⟩ := a
  obtain rfl : k = .expression x := ha
  refine node_iff.2 ⟨rfl, fun c hc => ?_⟩
  obtain rfl := List.mem_singleton.1 hc
  exact h

theorem mapNotes_iff (f : ι → κ) (a : Ast ι) : (a.mapNotes f).Plain known ↔ a.Plain known := by
  induction a using Ast.induction with
  | node i k ih =>
      rw [Ast.mapNotes_node, node_iff, node_iff, Expansion.isKnownLabel_map, Kind.children_map]
      simp only [List.forall_mem_map]
      constructor
      · rintro ⟨hk, hparts⟩
        exact ⟨hk, fun c hc => (ih c hc).1 (hparts c hc)⟩
      · rintro ⟨hk, hparts⟩
        exact ⟨hk, fun c hc => (ih c hc).2 (hparts c hc)⟩

/-- Whether no statement of a program is labeled with a known name. -/
def check (known : String → Bool) : Ast ι → Bool :=
  Ast.fold fun _ k => !Purity.isKnownLabel known k && k.children.all fun plain => plain

theorem check_iff (a : Ast ι) : check known a = true ↔ a.Plain known := by
  induction a using Ast.induction with
  | node i k ih =>
      rw [check, Ast.fold_node, Expansion.isKnownLabel_map, Kind.children_map, node_iff,
        Bool.and_eq_true, Bool.not_eq_true', List.all_map, List.all_eq_true]
      constructor
      · rintro ⟨hk, hparts⟩
        exact ⟨hk, fun c hc => (ih c hc).1 (hparts c hc)⟩
      · rintro ⟨hk, hparts⟩
        exact ⟨hk, fun c hc => (ih c hc).2 (hparts c hc)⟩

instance (known : String → Bool) (a : Ast ι) : Decidable (a.Plain known) :=
  decidable_of_iff _ (check_iff a)

/-- A program without statements has no labels. -/
theorem of_no_statement (h : ∀ d : Ast ι, d.Part a → d.kind.isStatement = false) :
    a.Plain known := by
  intro d hd
  have hstatement := h d hd
  cases hk : d.kind with
  | labeled label body => rw [hk] at hstatement; cases hstatement
  | _ => rfl

end Program.Ast.Plain

/-! ## Filled templates -/

namespace Template

variable {known : String → Bool} {v : Values} {s : Span}

/-- Two layers of one form: they differ in their parts only, which may be more or fewer where content
is spliced in. -/
inductive SameForm {α β : Type} : Kind α → Kind β → Prop
  | mapped (f : α → β) (k : Kind α) : SameForm k (k.map f)
  | call (callee : α) (callee' : β) (as : List α) (as' : List β) :
      SameForm (.call callee as) (.call callee' as')
  | newExpr (callee : α) (callee' : β) (as : List α) (as' : List β) :
      SameForm (.newExpr callee as) (.newExpr callee' as')
  | array (as : List α) (as' : List β) : SameForm (.array as) (.array as')

namespace SameForm

variable {α β : Type} {k : Kind α} {k' : Kind β}

theorem isKnownLabel_eq (h : SameForm k k') (known : String → Bool) :
    Purity.isKnownLabel known k' = Purity.isKnownLabel known k := by
  cases h with
  | mapped f => exact Expansion.isKnownLabel_map known f k
  | _ => rfl

theorem isBlock_eq (h : SameForm k k') : k'.isBlock = k.isBlock := by
  cases h with
  | mapped f => cases k <;> rfl
  | _ => rfl

theorem isStatement_eq (h : SameForm k k') : k'.isStatement = k.isStatement := by
  cases h with
  | mapped f => exact Kind.isStatement_map f k
  | _ => rfl

theorem inside_eq (h : SameForm k k') (b : Bool) : k'.inside b = k.inside b := by
  cases h with
  | mapped f => exact Kind.inside_map f b k
  | _ => rfl

end SameForm

/-- A filled layer has the form of the layer. Its parts are filled parts of the layer, and content. -/
theorem exists_of_filled {i : Span} {k : Kind (Ast Span)} (h : ∀ name, k ≠ .placeholder name) :
    ∃ k' : Kind (Ast Span), filled v s (.node i k) = .node s k' ∧ SameForm k k' ∧
      ∀ c ∈ k'.children, c ∈ v.content ∨ ∃ d ∈ k.children, c = filled v s d := by
  have hspliced : ∀ as : List (Ast Span), ∀ c ∈ spliced v (as.map (filler v s)),
      c ∈ v.content ∨ ∃ d ∈ as, c = filled v s d := by
    intro as c hc
    obtain ⟨part, hpart, hc⟩ := List.mem_flatMap.1 hc
    obtain ⟨d, hd, rfl⟩ := List.mem_map.1 hpart
    split at hc
    · exact Or.inl hc
    · exact Or.inr ⟨d, hd, List.mem_singleton.1 hc⟩
  have hcall : ∀ (callee : Ast Span) (arguments : List (Ast Span)),
      ∀ c ∈ filled v s callee :: spliced v (arguments.map (filler v s)),
      c ∈ v.content ∨ ∃ d ∈ callee :: arguments, c = filled v s d := by
    intro callee arguments c hc
    rcases List.mem_cons.1 hc with rfl | hc
    · exact Or.inr ⟨callee, List.mem_cons_self, rfl⟩
    · exact (hspliced arguments c hc).imp_right fun ⟨d, hd, h⟩ => ⟨d, List.mem_cons_of_mem _ hd, h⟩
  rw [filled, filler_node]
  -- Content is spliced into argument lists and array literals only.
  cases hk : isSlotted k with
  | false =>
      have hslotted : isSlotted (k.map (filler v s)) = false := by
        rw [← hk]
        cases k <;> rfl
      refine ⟨k.map (filled v s), ?_, .mapped _ k, fun c hc => ?_⟩
      · simp only [filledLayer_eq_map v s hslotted, Kind.map_map]
        rfl
      · rw [Kind.children_map, List.mem_map] at hc
        obtain ⟨d, hd, rfl⟩ := hc
        exact Or.inr ⟨d, hd, rfl⟩
  | true =>
      cases k with
      | placeholder name => exact absurd rfl (h name)
      | call callee arguments => exact ⟨_, rfl, .call _ _ _ _, hcall callee arguments⟩
      | newExpr callee arguments => exact ⟨_, rfl, .newExpr _ _ _ _, hcall callee arguments⟩
      | array elements => exact ⟨_, rfl, .array _ _, hspliced elements⟩
      | _ => cases hk

theorem slotValue_plain (hcontent : ∀ x ∈ v.content, x.Plain known)
    (hmetadata : v.metadata.Plain known) (name : String) : (slotValue v s name).Plain known := by
  unfold slotValue
  split
  · exact Ast.Plain.node_iff.2 ⟨rfl, by simp [Kind.children]⟩
  · exact hmetadata
  · exact Ast.Plain.node_iff.2 ⟨rfl, hcontent⟩
  · exact Ast.Plain.node_iff.2 ⟨rfl, by simp [Kind.children]⟩

/-- A plain template with plain programs in its slots is plain. -/
theorem filled_plain (hcontent : ∀ x ∈ v.content, x.Plain known)
    (hmetadata : v.metadata.Plain known) {a : Ast Span} :
    a.Plain known → (filled v s a).Plain known := by
  induction a using Ast.induction with
  | node i k ih =>
      intro h
      obtain ⟨hk, hparts⟩ := Ast.Plain.node_iff.1 h
      by_cases hslot : ∃ name, k = .placeholder name
      · obtain ⟨name, rfl⟩ := hslot
        exact slotValue_plain hcontent hmetadata name
      · obtain ⟨k', heq, hform, hchildren⟩ := exists_of_filled fun name hname => hslot ⟨name, hname⟩
        rw [heq, Ast.Plain.node_iff, hform.isKnownLabel_eq]
        refine ⟨hk, fun c hc => ?_⟩
        rcases hchildren c hc with hc | ⟨d, hd, rfl⟩
        · exact hcontent c hc
        · exact ih d hd (hparts d hd)

/-- A filled template is a block if the template is one. -/
theorem isBlock_filled (hmetadata : v.metadata.kind.isBlock = false) (a : Ast Span) :
    (filled v s a).kind.isBlock = a.kind.isBlock := by
  cases a with
  | node i k =>
      by_cases hslot : ∃ name, k = .placeholder name
      · obtain ⟨name, rfl⟩ := hslot
        have hvalue : (slotValue v s name).kind.isBlock = false := by
          unfold slotValue
          split
          · rfl
          · exact hmetadata
          · rfl
          · rfl
        exact hvalue
      · obtain ⟨k', heq, hform, -⟩ := exists_of_filled fun name hname => hslot ⟨name, hname⟩
        rw [heq]
        exact hform.isBlock_eq

end Template

/-! ## Made blocks -/

/-- A synthesizer that makes no block with a statement labeled with a known name. -/
def Synthesizer.Tame (known : String → Bool) : Synthesizer → Prop
  | .template form => form.body.kind.isBlock = true → form.body.Plain known
  | _ => True

/-- No template of a table that is a block has a statement labeled with a name of the table. -/
def LabelTable.Tame (table : LabelTable) : Prop := table.Only (Synthesizer.Tame table.contains)

instance (known : String → Bool) : DecidablePred (Synthesizer.Tame known)
  | .template form =>
      inferInstanceAs (Decidable (form.body.kind.isBlock = true → form.body.Plain known))
  | .builtin _ _ => .isTrue trivial
  | .native _ => .isTrue trivial

instance (table : LabelTable) : Decidable table.Tame :=
  inferInstanceAs (Decidable (∀ entry ∈ table.entries, Synthesizer.Tame table.contains entry.2))

theorem Synthesizer.recordOf_plain {known : String → Bool} (m : Metadata) (s : Span) :
    (recordOf m s).Plain known := by
  simp [recordOf, Program.Tree.recordEntry, Ast.Plain.node_iff, Kind.children, Program.Key.children,
    Purity.isKnownLabel]

/-- A made block is what the synthesizer writes: nothing was put around it. -/
theorem Expansion.Made.written_of_block {c : ExpansionContext} {s : Synthesizer} {m : Metadata}
    {t t' : Tree} {e made x : Ast NodeId} (h : Made c s m t t' e made) (hx : e.kind = .expression x)
    (hblock : made.kind.isBlock = true) :
    s.written c.logFunction m (x.mapNotes t.span).logged (t.span e.note)
      = some (made.mapNotes t'.span) ∧ (made.mapNotes t'.span).kind.isBlock = true := by
  obtain ⟨y, hy, hspans, -⟩ := h.written x hx
  have hkind : (made.mapNotes t'.span).kind.isBlock = true := by
    rw [Ast.kind_mapNotes, ← hblock]
    cases made.kind <;> rfl
  refine ⟨?_, hkind⟩
  rw [hspans] at hkind ⊢
  unfold Ast.asStatement at hkind ⊢
  split
  · exact hy
  · next hstatement =>
      rw [if_neg hstatement] at hkind
      cases hkind

/-- With a tame table, a made block has no label of a log statement if the logged expression has
none. -/
theorem Expansion.Made.plain_of_block {c : ExpansionContext} {s : Synthesizer} {m : Metadata}
    {t t' : Tree} {e made x : Ast NodeId} {label : String} (h : Made c s m t t' e made)
    (htame : c.table.Tame) (hs : c.table.get? label = some s) (hx : e.kind = .expression x)
    (hplain : x.Plain c.known) (hblock : made.kind.isBlock = true) : made.Plain c.known := by
  obtain ⟨hwritten, hkind⟩ := h.written_of_block hx hblock
  rw [← Ast.Plain.mapNotes_iff t'.span]
  generalize made.mapNotes t'.span = y at hwritten hkind
  cases s with
  | builtin level values =>
      obtain rfl := Option.some.inj hwritten
      cases hkind
  | template form =>
      obtain rfl := Option.some.inj hwritten
      have hcontent : ∀ d ∈ (x.mapNotes t.span).logged, d.Plain c.known := fun d hd =>
        ((Ast.Plain.mapNotes_iff t.span x).2 hplain).part (Ast.logged_part hd)
      apply Template.filled_plain hcontent (Synthesizer.recordOf_plain m _)
      apply (htame.get? hs : Synthesizer.Tame c.known (.template form))
      rw [← hkind]
      exact (Template.isBlock_filled rfl form.body).symm
  | native make => cases hwritten

end LogLabel
