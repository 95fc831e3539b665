import LogLabel.Proofs.Program.Reading

set_option autoImplicit false

/-!
# Sources and templates

The two modes of reading match a text by one grammar and build it in one way. They differ at a
template slot only, which a source file must not have. So a source file is a template without
slots, and what a source file is refused for, beyond being no program, is its first slot.

* `parse_cases`: the tree of a text in both modes, or the place where it stops being a program.
* `Tree.Leads t first`: the slot stands in front of all others.
* `Tree.leads_of_slots`: the slot that was stored first does.
* `parse_modes_agree`: the two modes compared, over every text.
-/

namespace LogLabel.Program

/-- A text is a tree, up to its first slot, whose slots stand in the text in order. Any other text
is malformed in both modes. -/
theorem parse_cases (text : String) :
    (∃ t : Tree, InOrder Span.Between 0 text.utf8ByteSize t.slotSpans ∧
      ∀ mode, parse mode text = permit mode t.slotSpans t) ∨
    ∃ reach, matchText text = .failed reach ∧
      ∀ mode, parse mode text = .error ⟨.malformedProgram, some ⟨reach, reach⟩⟩ := by
  unfold parse
  obtain ⟨body, hbody⟩ | ⟨reach, hmatch, herror⟩ := draftsIn_cases text
  · have htemplate : draftsIn .template text = .ok body := by rw [hbody, permit_template]
    refine Or.inl ⟨Draft.plantProgram text body, ?_, fun mode => ?_⟩
    · rw [Draft.slotSpans_plantProgram]
      exact Draft.inOrder_flatMap (draftsIn_within htemplate) fun d _ => d.inOrder_placeholders
    · rw [hbody, permit_map, Draft.slotSpans_plantProgram]
  · exact Or.inr ⟨reach, hmatch, fun mode => by rw [herror]; rfl⟩

namespace Tree

variable {t : Tree} {first : NodeId} {rest : List NodeId}

/-- A slot that stands in front of all other slots. -/
structure Leads (t : Tree) (first : NodeId) : Prop where
  slot : ∃ name, t.kind first = .placeholder name
  front : ∀ j name, t.kind j = .placeholder name → j ≠ first →
    (t.span first).stop ≤ (t.span j).start

/-- A tree has no slots exactly when none of its nodes is one. -/
theorem slotSpans_eq_nil_iff : t.slotSpans = [] ↔ ∀ i name, t.kind i ≠ .placeholder name := by
  rw [slotSpans, List.map_eq_nil_iff, List.eq_nil_iff_forall_not_mem]
  refine forall_congr' fun i => ?_
  rw [mem_slots, not_exists]

/-- The first of slots in order leads them. -/
theorem leads_of_slots {lo hi : Nat} (hslots : t.slots = first :: rest)
    (horder : InOrder Span.Between lo hi t.slotSpans) : t.Leads first := by
  refine ⟨mem_slots.1 (hslots ▸ List.mem_cons_self), fun j name hj hne => ?_⟩
  have hmem : j ∈ first :: rest := hslots ▸ mem_slots.2 ⟨name, hj⟩
  have hpairs : t.slotSpans.Pairwise fun s s' => s.stop ≤ s'.start :=
    horder.pairwise (fun s _ => s.widens_between) fun hs hs' => Nat.le_trans hs.2.2 hs'.1
  rw [slotSpans, hslots, List.map_cons] at hpairs
  exact (List.pairwise_cons.1 hpairs).1 _ (List.mem_map_of_mem (List.mem_of_ne_of_mem hne hmem))

end Tree

variable {text : String} {t : Tree} {d : Diagnostic}

/-- A source is a template without slots. -/
theorem parse_source_iff : parse .source text = .ok t ↔
    parse .template text = .ok t ∧ ∀ i name, t.kind i ≠ .placeholder name := by
  obtain ⟨t', -, hparse⟩ | ⟨reach, -, herror⟩ := parse_cases text
  · rw [hparse, hparse, permit_template, permit_source_eq_ok_iff, Except.ok.injEq,
      ← Tree.slotSpans_eq_nil_iff]
    constructor
    · rintro ⟨hslots, rfl⟩
      exact ⟨rfl, hslots⟩
    · rintro ⟨rfl, hslots⟩
      exact ⟨hslots, rfl⟩
  · rw [herror, herror]
    constructor
    · intro h
      cases h
    · rintro ⟨h, -⟩
      cases h

/-- A text that the grammar rejects is refused in both modes at one place. -/
theorem parse_of_failed {reach : Nat} (hmatch : matchText text = .failed reach) (mode : Mode) :
    parse mode text = .error ⟨.malformedProgram, some ⟨reach, reach⟩⟩ := by
  unfold parse draftsIn
  rw [hmatch]
  rfl

/-- A template is refused by the grammar only. -/
theorem failed_of_parse_template (h : parse .template text = .error d) :
    ∃ reach, matchText text = .failed reach := by
  obtain ⟨t', -, hparse⟩ | ⟨reach, hmatch, -⟩ := parse_cases text
  · rw [hparse, permit_template] at h
    cases h
  · exact ⟨reach, hmatch⟩

/-- A template with slots is no source, because of the slot that comes first. -/
theorem parse_source_of_slot (h : parse .template text = .ok t)
    (hslot : ∃ i name, t.kind i = .placeholder name) :
    ∃ first, t.Leads first ∧
      parse .source text = .error ⟨.strayPlaceholder, some (t.span first)⟩ := by
  obtain ⟨t', horder, hparse⟩ | ⟨reach, -, herror⟩ := parse_cases text
  · rw [hparse, permit_template, Except.ok.injEq] at h
    subst h
    obtain ⟨i, hi⟩ := hslot
    obtain ⟨first, rest, hslots⟩ :=
      List.exists_cons_of_ne_nil (List.ne_nil_of_mem (Tree.mem_slots.2 hi))
    refine ⟨first, Tree.leads_of_slots hslots horder, ?_⟩
    rw [hparse, Tree.slotSpans, hslots, List.map_cons, permit_source_cons]
  · rw [herror] at h
    cases h

/-- **The two modes of reading.** A text is a source with some tree exactly when it is a template
with that tree and the tree has no slot. A text that the grammar rejects is refused in both modes at
the same place, and no text is refused as a template for any other reason. A template with slots is
refused as a source at the slot that comes first in the text. -/
theorem parse_modes_agree (text : String) :
    (∀ t, parse .source text = .ok t ↔
      parse .template text = .ok t ∧ ∀ i name, t.kind i ≠ .placeholder name) ∧
    (∀ reach, matchText text = .failed reach →
      ∀ mode, parse mode text = .error ⟨.malformedProgram, some ⟨reach, reach⟩⟩) ∧
    (∀ d, parse .template text = .error d →
      (∃ reach, matchText text = .failed reach) ∧ parse .source text = .error d) ∧
    ∀ t, parse .template text = .ok t → (∃ i name, t.kind i = .placeholder name) →
      ∃ first d, t.Leads first ∧ parse .source text = .error d ∧
        d.category = .parse ∧ d.cause = .strayPlaceholder ∧ d.span = some (t.span first) := by
  refine ⟨fun t => parse_source_iff, fun reach hmatch mode => parse_of_failed hmatch mode,
    fun d h => ?_, fun t h hslot => ?_⟩
  · obtain ⟨reach, hmatch⟩ := failed_of_parse_template h
    rw [parse_of_failed hmatch] at h
    exact ⟨⟨reach, hmatch⟩, (parse_of_failed hmatch .source).trans h⟩
  · obtain ⟨first, hleads, hrefused⟩ := parse_source_of_slot h hslot
    exact ⟨first, _, hleads, hrefused, rfl, rfl, rfl⟩

/-- Slots in an argument and in a computed key. -/
theorem parse_modes_agree_two_slots :
    ∃ t first d, parse .template "f(%%a%%, \x7b [%%b%%]: 1 \x7d)" = .ok t ∧
      t.slotSpans = [⟨2, 7⟩, ⟨12, 17⟩] ∧ t.Leads first ∧
      parse .source "f(%%a%%, \x7b [%%b%%]: 1 \x7d)" = .error d ∧ d.category = .parse ∧
      d.span = some (t.span first) := by
  have hread : ((parse .template "f(%%a%%, \x7b [%%b%%]: 1 \x7d)").toOption.map Tree.slotSpans)
      = some [⟨2, 7⟩, ⟨12, 17⟩] := by decide +kernel
  obtain ⟨t, ht, hspans⟩ := Option.map_eq_some_iff.1 hread
  have hparse := eq_ok_of_toOption ht
  have hslot : ∃ i name, t.kind i = .placeholder name := by
    by_contra hnone
    push Not at hnone
    rw [Tree.slotSpans_eq_nil_iff.2 hnone] at hspans
    cases hspans
  obtain ⟨first, d, hleads, hsource, hcategory, -, hspan⟩ :=
    (parse_modes_agree _).2.2.2 t hparse hslot
  exact ⟨t, first, d, hparse, hspans, hleads, hsource, hcategory, hspan⟩

end LogLabel.Program
