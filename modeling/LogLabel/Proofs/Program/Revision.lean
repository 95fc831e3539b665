import LogLabel.Proofs.Program.Edit
import LogLabel.Proofs.Program.Storing

set_option autoImplicit false

/-!
# Revisions of held programs

An edit of a held program takes place below one of its nodes. This module carries what is
known of the edit there to the whole program.

* `Ast.Part`: the parts of a program at any depth; `Ast.At e a bs`: the part `e` stands in `a`
  below the nodes `bs`; `Ast.graft` puts another program in the place of a part.
* `Tree.Revised t t' a a'`: on the way from `t` to `t'` the program `a` became `a'`, and
  nothing outside of it has changed. Revisions compose (`Tree.Revised.trans`), and a
  revision of a part is a revision of the whole (`Tree.Revised.graft`).
* `Tree.Replaced.revised`: a replacement is a revision of the layer that has the part.
-/

namespace LogLabel.Program

namespace Ast

variable {ι : Type}

/-- `b` stands in `a`: as the whole of it, or below one of its parts. -/
inductive Part (b : Ast ι) : Ast ι → Prop
  | self : Part b b
  | inside {a c : Ast ι} (hc : c ∈ a.kind.children) (h : Part b c) : Part b a

namespace Part

variable {a b c : Ast ι}

theorem trans (h : Part c b) (h' : Part b a) : Part c a := by
  induction h' with
  | self => exact h
  | inside hd _ ih => exact .inside hd ih

theorem of_mem (h : c ∈ a.kind.children) : Part c a := .inside h .self

theorem notes_subset (h : Part b a) : b.notes ⊆ a.notes := by
  induction h with
  | self => exact fun i hi => hi
  | inside hc _ ih => exact fun i hi => notes_subset_of_mem hc (ih hi)

/-- A part that is not the whole is a direct part of some part. -/
theorem eq_or_parent (h : Part b a) :
    b = a ∨ ∃ (q : ι) (k : Kind (Ast ι)), Part (.node q k) a ∧ b ∈ k.children := by
  induction h with
  | self => exact Or.inl rfl
  | @inside a c hc _ ih =>
      rcases ih with rfl | ⟨q, k, hp, hb⟩
      · exact Or.inr ⟨a.note, a.kind, by cases a; exact .self, hc⟩
      · exact Or.inr ⟨q, k, .inside hc hp, hb⟩

theorem exists_of_mem : ∀ {a : Ast ι} {i : ι}, i ∈ a.notes → ∃ b, Part b a ∧ b.note = i := by
  intro a
  induction a using Ast.induction with
  | node j k ih =>
      intro i hi
      rw [notes_node, List.mem_cons, List.mem_flatMap] at hi
      rcases hi with rfl | ⟨c, hc, hi⟩
      · exact ⟨_, .self, rfl⟩
      · obtain ⟨b, hb, hbi⟩ := ih c hc hi
        exact ⟨b, .inside hc hb, hbi⟩

theorem nodup (h : Part b a) (ha : a.notes.Nodup) : b.notes.Nodup := by
  induction h with
  | self => exact ha
  | @inside a c hc _ ih =>
      rw [notes_eq, List.nodup_cons, List.nodup_flatMap] at ha
      exact ih (ha.2.1 c hc)

end Part

/-- The program `e` stands in `a`, below the given nodes of `a`, the nearest first. -/
inductive At (e : Ast ι) : Ast ι → List (Ast ι) → Prop
  | here : At e e []
  | inside {a c : Ast ι} {bs : List (Ast ι)} (hc : c ∈ a.kind.children) (h : At e c bs) :
      At e a (bs ++ [a])

theorem At.part {e a : Ast ι} {bs : List (Ast ι)} (h : At e a bs) : e.Part a := by
  induction h with
  | here => exact .self
  | inside hc _ ih => exact .inside hc ih

theorem At.eq_of_nil {e a : Ast ι} (h : At e a []) : e = a := by
  generalize hbs : ([] : List (Ast ι)) = bs at h
  cases h with
  | here => rfl
  | inside _ _ => simp at hbs

theorem Part.exists_at {e a : Ast ι} (h : Part e a) : ∃ bs : List (Ast ι), At e a bs := by
  induction h with
  | self => exact ⟨[], .here⟩
  | inside hc _ ih =>
      obtain ⟨bs, hbs⟩ := ih
      exact ⟨_, .inside hc hbs⟩

/-! ## Grafting -/

/-- The program with the part at `p` replaced by `b`. -/
def graft (a : Ast NodeId) (p : NodeId) (b : Ast NodeId) : Ast NodeId :=
  a.fold fun i k => if i = p then b else .node i k

theorem graft_node (p i : NodeId) (b : Ast NodeId) (k : Kind (Ast NodeId)) :
    (Ast.node i k).graft p b = if i = p then b else .node i (k.map fun c => c.graft p b) :=
  fold_node _ i k

theorem graft_eq_self {p : NodeId} {b : Ast NodeId} (a : Ast NodeId) :
    p ∉ a.notes → a.graft p b = a := by
  induction a using Ast.induction with
  | node i k ih =>
      intro hp
      rw [notes_node, List.mem_cons, not_or] at hp
      have hparts : ∀ c ∈ k.children, c.graft p b = c := fun c hc =>
        ih c hc fun hmem => hp.2 (List.mem_flatMap.2 ⟨c, hc, hmem⟩)
      rw [graft_node, if_neg (Ne.symm hp.1), Kind.map_congr hparts, Kind.map_id]

theorem graft_top {a b : Ast NodeId} : a.graft a.note b = b := by
  cases a with
  | node i k => rw [graft_node, note_node, if_pos rfl]

theorem note_graft {p : NodeId} {b : Ast NodeId} (hb : b.note = p) (a : Ast NodeId) :
    (a.graft p b).note = a.note := by
  cases a with
  | node i k =>
      rw [graft_node]
      split
      · next h => rw [hb, note_node, h]
      · rfl

section Grafting

variable {q : NodeId} {k : Kind (Ast NodeId)} {b b' c m x : Ast NodeId}
  {before after : List (Ast NodeId)}

/-- Grafting below one part of a layer leaves its siblings as they are. -/
theorem children_map_graft (h : (Ast.node q k).notes.Nodup) (hk : k.children = before ++ c :: after)
    (hb : b.note ∈ c.notes) :
    (k.map fun d => d.graft b.note b').children = before ++ [c.graft b.note b'] ++ after := by
  have hkeep : ∀ l : List (Ast NodeId), (∀ d ∈ l, d ∈ before ++ after) →
      (l.map fun d => d.graft b.note b') = l := by
    intro l hl
    have hsame : ∀ d ∈ l, d.graft b.note b' = d := by
      intro d hd
      refine graft_eq_self d fun hmem => ?_
      exact (Tree.sibling_ne h hk (List.mem_flatMap.2 ⟨d, hl d hd, hmem⟩)).2 hb
    rw [List.map_congr_left hsame, List.map_id']
  rw [Kind.children_map, hk, List.map_append, List.map_cons,
    hkeep before fun d hd => List.mem_append_left _ hd,
    hkeep after fun d hd => List.mem_append_right _ hd]
  simp

/-- Grafting into a part, and the part into the whole. -/
theorem graft_graft {a : Ast NodeId} (hb : b.Part a) (ha : a.notes.Nodup) (hc : c.note ∈ b.notes) :
    a.graft b.note (b.graft c.note m) = a.graft c.note m := by
  induction hb with
  | self => rw [graft_top]
  | @inside a d hd hbd ih =>
      cases a with
      | node q k =>
          rw [kind_node] at hd
          have hq := Tree.layer_not_mem_part ha hd
          have hbd' : b.notes ⊆ d.notes := hbd.notes_subset
          have hqb : q ≠ b.note := fun he => hq (he ▸ hbd' b.note_mem_notes)
          have hqc : q ≠ c.note := fun he => hq (he ▸ hbd' hc)
          rw [graft_node, graft_node, if_neg hqb, if_neg hqc]
          congr 1
          obtain ⟨before, after, hk⟩ := List.append_of_mem hd
          refine Kind.map_congr fun e he => ?_
          rw [hk, List.mem_append, List.mem_cons, ← or_assoc, or_comm (a := e ∈ before),
            or_assoc] at he
          rcases he with rfl | he
          · exact ih ((Part.of_mem (a := .node q k) hd).nodup ha)
          · have hout : ∀ i ∈ b.notes, i ∉ e.notes := fun i hi hmem =>
              (Tree.sibling_ne ha hk (List.mem_flatMap.2 ⟨e, List.mem_append.2 he, hmem⟩)).2 (hbd' hi)
            rw [graft_eq_self e (hout _ b.note_mem_notes), graft_eq_self e (hout _ hc)]

/-- What was grafted is a part. -/
theorem Part.graft_self {a : Ast NodeId} (hb : b.Part a) (ha : a.notes.Nodup) :
    b'.Part (a.graft b.note b') := by
  induction hb with
  | self =>
      rw [graft_top]
      exact .self
  | @inside a d hd hbd ih =>
      cases a with
      | node q k =>
          have hbd' : b.note ∈ d.notes := hbd.notes_subset b.note_mem_notes
          have hqb : q ≠ b.note := fun he => Tree.layer_not_mem_part ha hd (he ▸ hbd')
          obtain ⟨before, after, hk⟩ := List.append_of_mem (show d ∈ k.children from hd)
          rw [graft_node, if_neg hqb]
          refine .inside (c := d.graft b.note b') ?_ (ih ((Part.of_mem hd).nodup ha))
          rw [kind_node, children_map_graft ha hk hbd']
          simp

/-- The parts that stay: those that do not contain the grafted place, and, where they are inside of
it, are in what was grafted too. -/
theorem Part.graft {a : Ast NodeId} (hb : b.Part a) (ha : a.notes.Nodup) (hx : x.Part a)
    (hout : b.note ∉ x.notes) (hin : x.Part b → x.Part b') : x.Part (a.graft b.note b') := by
  induction hb with
  | self =>
      rw [graft_top]
      exact hin hx
  | @inside a d hd hbd ih =>
      cases a with
      | node q k =>
          have hbd' : b.note ∈ d.notes := hbd.notes_subset b.note_mem_notes
          have hqb : q ≠ b.note := fun he => Tree.layer_not_mem_part ha hd (he ▸ hbd')
          obtain ⟨before, after, hk⟩ := List.append_of_mem (show d ∈ k.children from hd)
          rw [graft_node, if_neg hqb]
          cases hx with
          | self => exact absurd (notes_subset_of_mem hd hbd') hout
          | @inside _ e he hxe =>
              rw [kind_node, hk, List.mem_append, List.mem_cons] at he
              have hchildren : (k.map fun d => d.graft b.note b').children
                  = before ++ [d.graft b.note b'] ++ after := children_map_graft ha hk hbd'
              rcases he with he | rfl | he
              · refine .inside (c := e) ?_ hxe
                rw [kind_node, hchildren]
                simp [he]
              · refine .inside (c := e.graft b.note b') ?_ (ih ((Part.of_mem hd).nodup ha) hxe)
                rw [kind_node, hchildren]
                simp
              · refine .inside (c := e) ?_ hxe
                rw [kind_node, hchildren]
                simp [he]

/-- The nodes after grafting: those that were grafted, and those that were outside of the place. -/
theorem Part.mem_notes_graft {a : Ast NodeId} (hb : b.Part a) (ha : a.notes.Nodup) {i : NodeId}
    (hi : i ∈ (a.graft b.note b').notes) : i ∈ b'.notes ∨ i ∈ a.notes ∧ i ∉ b.notes := by
  induction hb with
  | self =>
      rw [graft_top] at hi
      exact Or.inl hi
  | @inside a d hd hbd ih =>
      cases a with
      | node q k =>
          have hbd' : b.notes ⊆ d.notes := hbd.notes_subset
          have hq := Tree.layer_not_mem_part ha hd
          have hqb : q ≠ b.note := fun he => hq (he ▸ hbd' b.note_mem_notes)
          obtain ⟨before, after, hk⟩ := List.append_of_mem (show d ∈ k.children from hd)
          have hsibling : i ∈ (before ++ after).flatMap notes → i ∈ (Ast.node q k).notes ∧ i ∉ b.notes :=
            fun hi => ⟨Tree.mem_notes_of_sibling hk hi,
              fun hmem => (Tree.sibling_ne ha hk hi).2 (hbd' hmem)⟩
          rw [graft_node, if_neg hqb, notes_node, children_map_graft ha hk (hbd' b.note_mem_notes)] at hi
          simp only [List.mem_cons, List.flatMap_append, List.flatMap_singleton, List.mem_append] at hi
          rcases hi with rfl | (hi | hi) | hi
          · exact Or.inr ⟨by simp, fun hmem => hq (hbd' hmem)⟩
          · exact Or.inr (hsibling (by simp [List.flatMap_append, hi]))
          · rcases ih ((Part.of_mem hd).nodup ha) hi with hi | ⟨hi, hib⟩
            · exact Or.inl hi
            · exact Or.inr ⟨notes_subset_of_mem hd hi, hib⟩
          · exact Or.inr (hsibling (by simp [List.flatMap_append, hi]))

end Grafting

end Ast

namespace Tree

variable {t t' t'' : Tree} {a a' a'' b b' : Ast NodeId}

theorem Held.of_part (h : t.Held a) (hb : b.Part a) : t.Held b := by
  induction hb with
  | self => exact h
  | inside hc _ ih => exact ih (h.part hc)

/-- Parts of a held program at the same address are the same. -/
theorem Held.part_unique (h : t.Held a) (hb : b.Part a) (hb' : b'.Part a) (he : b.note = b'.note) :
    b = b' := by
  rw [← (h.of_part hb).reading_eq, ← (h.of_part hb').reading_eq, he]

/-! ## Grafting into a held program -/

/-- A program stays held when a part of it is replaced by what is held in its place. The other nodes of
the program have kept their kinds and parents, and none of them is in what was put in. -/
theorem held_graft (hb : b.Part a) (h : t.Held a) (hsize : t.size ≤ t'.size) (hheld : t'.Held b')
    (hnote : b'.note = b.note) (htop : t'.parent b.note = t.parent b.note)
    (hframe : ∀ i ∈ a.notes, i ∉ b.notes → t'.kind i = t.kind i ∧ t'.parent i = t.parent i)
    (horigin : ∀ i ∈ b'.notes, i ∈ b.notes ∨ i ∉ a.notes) :
    t'.Held (a.graft b.note b') ∧ t'.parent a.note = t.parent a.note := by
  induction hb with
  | self =>
      rw [Ast.graft_top]
      exact ⟨hheld, htop⟩
  | @inside a c hc hbc ih =>
      have hca : c.notes ⊆ a.notes := Ast.notes_subset_of_mem hc
      obtain ⟨hpart, hctop⟩ := ih (h.part hc) (fun i hi => hframe i (hca hi)) fun i hi =>
        (horigin i hi).imp_right fun hne hmem => hne (hca hmem)
      cases a with
      | node q k =>
          rw [Ast.kind_node] at hc
          obtain ⟨before, after, hk⟩ := List.append_of_mem hc
          have hbc' : b.notes ⊆ c.notes := hbc.notes_subset
          have hq : q ∉ b.notes := fun hmem => layer_not_mem_part h.nodup hc (hbc' hmem)
          have hqb : q ≠ b.note := fun he => hq (he ▸ b.note_mem_notes)
          have hsame := hframe q (by simp) hq
          have hchildren : (k.map fun d => d.graft b.note b').children
              = before ++ [c.graft b.note b'] ++ after :=
            Ast.children_map_graft h.nodup hk (hbc' b.note_mem_notes)
          have hkind : (k.map fun d => d.graft b.note b').map Ast.note = k.map Ast.note := by
            rw [Kind.map_map]
            exact Kind.map_congr fun d _ => Ast.note_graft hnote d
          rw [Ast.graft_node, if_neg hqb]
          refine ⟨held_of_parts (h.toOpen c) hk hchildren hsize ?_ ?_ ?_ ?_ ?_, hsame.2⟩
          · rw [hkind, hsame.1]
            exact h.holds.kind_eq
          · intro s hs
            obtain rfl := List.mem_singleton.1 hs
            refine ⟨hpart.holds, ?_⟩
            rw [Ast.note_graft hnote, hctop]
            exact h.holds.parent_eq hc
          · simpa using hpart.nodup
          · -- What came in is neither the layer nor in one of the siblings.
            rw [List.flatMap_singleton]
            intro i hi
            have hplace : i ∈ c.notes ∨ i ∉ (Ast.node q k).notes := by
              rcases hbc.mem_notes_graft (h.part hc).nodup hi with hi | ⟨hi, -⟩
              · exact (horigin i hi).imp_left fun hmem => hbc' hmem
              · exact Or.inl hi
            rcases hplace with hmem | hne
            · refine ⟨?_, fun hsib => (sibling_ne h.nodup hk hsib).2 hmem⟩
              rintro rfl
              exact layer_not_mem_part h.nodup hc hmem
            · refine ⟨?_, fun hsib => hne (mem_notes_of_sibling hk hsib)⟩
              rintro rfl
              exact hne (by simp)
          · intro i hi
            exact hframe i (mem_notes_of_sibling hk hi) fun hmem =>
              (sibling_ne h.nodup hk hi).2 (hbc' hmem)

/-! ## Revisions -/

/-- On the way from `t` to `t'` the held program `a` became `a'`. Nothing outside of it has changed,
and what it has got is new. -/
structure Revised (t t' : Tree) (a a' : Ast NodeId) : Prop extends Grows t t' where
  held : t'.Held a'
  note_eq : a'.note = a.note
  top : t'.parent a.note = t.parent a.note
  frame : ∀ i : NodeId, i.index < t.size → i ∉ a.notes →
    t'.kind i = t.kind i ∧ t'.parent i = t.parent i
  origin : ∀ i ∈ a'.notes, i ∈ a.notes ∨ t.size ≤ i.index
  outline_eq : a'.kind.outline = a.kind.outline

namespace Revised

theorem refl (h : t.Held a) : Revised t t a a :=
  ⟨Grows.refl t, h, rfl, rfl, fun _ _ _ => ⟨rfl, rfl⟩, fun _ hi => Or.inl hi, rfl⟩

theorem trans (h : Revised t t' a a') (h' : Revised t' t'' a' a'') : Revised t t'' a a'' where
  toGrows := h.toGrows.trans h'.toGrows
  held := h'.held
  note_eq := h'.note_eq.trans h.note_eq
  top := by
    have htop := h'.top
    rw [h.note_eq] at htop
    exact htop.trans h.top
  frame := by
    intro i hi hne
    have hne' : i ∉ a'.notes := fun hmem =>
      (h.origin i hmem).elim hne fun hge => Nat.not_lt.2 hge hi
    obtain ⟨hkind, hparent⟩ := h.frame i hi hne
    obtain ⟨hkind', hparent'⟩ := h'.frame i (Nat.lt_of_lt_of_le hi h.size_le) hne'
    exact ⟨hkind'.trans hkind, hparent'.trans hparent⟩
  origin := by
    intro i hi
    rcases h'.origin i hi with hi | hi
    · exact h.origin i hi
    · exact Or.inr (Nat.le_trans h.size_le hi)
  outline_eq := h'.outline_eq.trans h.outline_eq

theorem isProgram_eq (h : Revised t t' a a') : a'.kind.isProgram = a.kind.isProgram := by
  rw [← Kind.isProgram_outline, h.outline_eq, Kind.isProgram_outline]

/-- A revision of a part is a revision of the whole. -/
theorem graft (hb : b.Part a) (h : t.Held a) (hr : Revised t t' b b') :
    Revised t t' a (a.graft b.note b') := by
  have hstored := h.holds.stored
  have hba := hb.notes_subset
  obtain ⟨hheld, htop⟩ := held_graft hb h hr.size_le hr.held hr.note_eq hr.top
    (fun i hi => hr.frame i (hstored i hi))
    fun i hi => (hr.origin i hi).imp_right fun hge hmem => Nat.not_lt.2 hge (hstored i hmem)
  refine ⟨hr.toGrows, hheld, Ast.note_graft hr.note_eq a, htop, ?_, ?_, ?_⟩
  · exact fun i hi hne => hr.frame i hi fun hmem => hne (hba hmem)
  · intro i hi
    rcases hb.mem_notes_graft h.nodup hi with hi | ⟨hi, -⟩
    · exact (hr.origin i hi).imp_left fun hmem => hba hmem
    · exact Or.inl hi
  · cases hb with
    | self =>
        rw [Ast.graft_top]
        exact hr.outline_eq
    | @inside _ c hc hbc =>
        cases a with
        | node q k =>
            have hq := layer_not_mem_part h.nodup hc
            have hqb : q ≠ b.note := fun he => hq (he ▸ hbc.notes_subset b.note_mem_notes)
            rw [Ast.graft_node, if_neg hqb]
            exact k.outline_map _

end Revised

/-! ## Replacements as revisions -/

section Replacement

variable {t₁ : Tree} {q : NodeId} {k : Kind (Ast NodeId)} {c m : Ast NodeId}
  {rs : List (Ast NodeId)} {moved : List NodeId}

/-- A held layer is still open at a part from the inside of which nodes are moved. -/
theorem Held.open_of_extends (h : t.Held (.node q k)) (hc : c ∈ k.children)
    (hext : Extends moved t t₁) (hmoved : ∀ i ∈ moved, i ∈ c.inner) : Open t₁ q k c := by
  have hstored : ∀ i ∈ (Ast.node q k).notes, i.index < t.size := h.holds.stored
  have hmem : ∀ d ∈ k.children, ∀ i ∈ d.notes, i ∈ (Ast.node q k).notes := fun d hd i hi =>
    Ast.notes_subset_of_mem (a := .node q k) hd hi
  have hapart : ∀ d ∈ k.children, d ≠ c → ∀ i ∈ d.notes, i ∉ moved := by
    intro d hd hne i hi hi'
    have hnodup := h.nodup
    rw [Ast.notes_node, List.nodup_cons] at hnodup
    exact hne (eq_of_nodup_flatMap hnodup.2 hd hc hi (Ast.mem_notes_of_inner (hmoved i hi')))
  refine ⟨?_, ?_, ?_, ?_, h.nodup⟩
  · rw [hext.kind_eq q (hstored q (by simp))]
    exact h.holds.kind_eq
  · intro d hd
    have hlt := hstored _ (hmem d hd _ d.note_mem_notes)
    rw [hext.parent_eq d.note hlt ?_]
    · exact h.holds.parent_eq hd
    · by_cases hdc : d = c
      · subst hdc
        exact fun hi => (h.part hd).note_not_mem_inner (hmoved _ hi)
      · exact hapart d hd hdc _ d.note_mem_notes
  · intro d hd hne
    exact hext.holds (h.holds.part hd) fun i hi => hapart d hd hne i (Ast.mem_notes_of_inner hi)
  · intro i hi
    exact Nat.lt_of_lt_of_le (hstored i hi) hext.size_le

/-- A replacement is a revision of the layer that has the part. The replacements may have been stored
before, with nodes moved from inside the part. -/
theorem Replaced.revised (h : t.Held (.node q k)) (hc : c ∈ k.children)
    (hext : Extends moved t t₁) (hmoved : ∀ i ∈ moved, i ∈ c.inner)
    (hrs : ∀ i ∈ rs.flatMap Ast.notes, i ∈ c.inner ∨ t.size ≤ i.index)
    (hr : Replaced t₁ t' q k c rs) :
    Revised t t' (.node q k) (.node q (k.swap c.note rs (t₁.gathered rs))) := by
  have hcsub : c.notes ⊆ (Ast.node q k).notes := Ast.notes_subset_of_mem (a := .node q k) hc
  have hinner : ∀ i ∈ c.inner, i ∈ (Ast.node q k).notes := fun i hi =>
    hcsub (Ast.mem_notes_of_inner hi)
  have hqlt : q.index < t.size := h.holds.note_stored
  have hq : q ∉ moved := fun hmem =>
    layer_not_mem_part h.nodup hc (Ast.mem_notes_of_inner (hmoved q hmem))
  refine ⟨hext.toGrows.trans hr.toGrows, hr.held, rfl, ?_, ?_, ?_, ?_⟩
  · exact hr.top.trans (hext.parent_eq q hqlt hq)
  · intro i hi hne
    have hmem : i ∉ moved := fun hmem => hne (hinner i (hmoved i hmem))
    have hnew : i ∉ rs.flatMap Ast.notes := fun hmem =>
      (hrs i hmem).elim (fun hi => hne (hinner i hi)) fun hge => Nat.not_lt.2 hge hi
    obtain ⟨hkind, hparent⟩ := hr.frame i (Nat.lt_of_lt_of_le hi hext.size_le) hne hnew
    exact ⟨hkind.trans (hext.kind_eq i hi), hparent.trans (hext.parent_eq i hi hmem)⟩
  · intro i hi
    rcases mem_notes_swap h.nodup hc hi with hi | hi | hi
    · exact Or.inl hi
    · exact (hrs i hi).imp_left (hinner i)
    · exact Or.inr (Nat.le_trans hext.size_le hi)
  · exact Kind.outline_swap

/-- Putting one program in the place of a part is grafting it there. -/
theorem graft_child (h : (Ast.node q k).notes.Nodup) (hc : c ∈ k.children) :
    (Ast.node q k).graft c.note m = .node q (k.swap c.note [m] m) := by
  have hq : q ≠ c.note := fun he => layer_not_mem_part h hc (he ▸ c.note_mem_notes)
  have hnodup := h
  rw [Ast.notes_node, List.nodup_cons] at hnodup
  have hparts : ∀ d ∈ k.children, d.graft c.note m = if d.note = c.note then m else d := by
    intro d hd
    by_cases hdc : d = c
    · rw [hdc, Ast.graft_top, if_pos rfl]
    · have hout : c.note ∉ d.notes := fun hmem =>
        hdc (eq_of_nodup_flatMap hnodup.2 hd hc hmem c.note_mem_notes)
      have hdn : d.note ≠ c.note := fun he => hout (he ▸ d.note_mem_notes)
      rw [Ast.graft_eq_self d hout, if_neg hdn]
  rw [Ast.graft_node, if_neg hq, Kind.map_congr hparts, Kind.swap_single]

/-- Replacing a proper part of a held program by one program, which may have been stored before with
nodes moved from inside the part. -/
theorem replace_revised (h : t.Held a) (hc : c.Part a) (hne : c ≠ a) (hext : Extends moved t t₁)
    (hmoved : ∀ i ∈ moved, i ∈ c.inner) (hm : t₁.Held m)
    (horigin : ∀ i ∈ m.notes, i ∈ c.inner ∨ t.size ≤ i.index) :
    ∃ t', t₁.replace c.note m.note = .ok t' ∧ Grows t₁ t' ∧
      Revised t t' a (a.graft c.note m) := by
  obtain ⟨q, k, hlayer, hck⟩ := hc.eq_or_parent.resolve_left hne
  have hheld := h.of_part hlayer
  have hstored : ∀ i ∈ (Ast.node q k).notes, i.index < t.size := hheld.holds.stored
  have horigin' : ∀ i ∈ [m].flatMap Ast.notes, i ∈ c.inner ∨ t.size ≤ i.index := by
    simpa using horigin
  have hholds : ∀ r ∈ [m], t₁.Holds r := by simpa using hm.holds
  obtain ⟨t', hok, hreplaced⟩ := replaceWithMany_open (hheld.open_of_extends hck hext hmoved) hck
    hholds (by simpa using hm.nodup)
    fun i hi => (horigin' i hi).imp_right fun hge hmem => Nat.not_lt.2 hge (hstored i hmem)
  have hrevised := hreplaced.revised hheld hck hext hmoved horigin'
  rw [gathered, ← graft_child hheld.nodup hck] at hrevised
  refine ⟨t', hok, hreplaced.toGrows, ?_⟩
  have hwhole := hrevised.graft hlayer h
  rw [Ast.note_node] at hwhole
  have hmem : c.note ∈ (Ast.node q k).notes :=
    Ast.notes_subset_of_mem (a := .node q k) hck c.note_mem_notes
  have hgraft := Ast.graft_graft (m := m) hlayer h.nodup hmem
  rw [Ast.note_node] at hgraft
  rwa [hgraft] at hwhole

end Replacement

end Tree

end LogLabel.Program
