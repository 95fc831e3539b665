import LogLabel.Proofs.Expansion.Marks
import LogLabel.Proofs.Program.Ancestry

set_option autoImplicit false

/-!
# The scopes around a program

The metadata of a label are found by walking outward in the arena. While a program is
revised, the walk from it goes on as before, because the nodes outside of it keep their
kinds and parents.

* `Tree.Around t a path`: the scopes on the walk from the program `a`, its own included, are
  `path`. It is kept by revisions (`Tree.Around.revised`) and extended by the entered part
  (`Tree.Around.part`).
* `Expansion.metadataOf_path`, `Expansion.shouldStrip_eq`: what the metadata of a label say.
-/

namespace LogLabel

open Program (Ast Kind NodeId Span Tree)
open Program.Tree (Held Revised)

namespace Program.Tree

/-! ## Scopes -/

theorem scopeName?_eq (t : Tree) (i : NodeId) :
    Metadata.scopeName? t i = Expansion.Structural.scopeName? (t.lineOf i) (t.kind i) := by
  unfold Metadata.scopeName?
  cases t.kind i with
  | method key _ _ => cases key <;> rfl
  | classDef name _ _ declared => cases declared <;> rfl
  | _ => rfl

theorem scopeName?_map {α β : Type} (f : α → β) (line : Nat) (k : Kind α) :
    Expansion.Structural.scopeName? line (k.map f) = Expansion.Structural.scopeName? line k := by
  cases k with
  | method key _ _ => cases key <;> rfl
  | classDef name _ _ declared => cases declared <;> rfl
  | _ => rfl

theorem scopeName?_outline {α : Type} (line : Nat) (k : Kind α) :
    Expansion.Structural.scopeName? line k.outline = Expansion.Structural.scopeName? line k := by
  cases hk : k.isList with
  | false => rw [Kind.outline_of_not_isList hk, scopeName?_map]
  | true => cases k <;> first | rfl | simp [Kind.isList, Kind.isProgram, Kind.isBlock] at hk

/-- The scopes around a held program, and the one that it is itself, from the outermost on. -/
def Around (t : Tree) (a : Ast NodeId) (path : List String) : Prop :=
  ∃ l : List NodeId, Chain t a.note l ∧ l.Nodup ∧ (∀ i ∈ l, i ∉ a.notes) ∧
    ((a.note :: l).filterMap (Metadata.scopeName? t)).reverse = path

namespace Around

variable {t t' : Tree} {a a' b : Ast NodeId} {path : List String}

theorem part (h : Around t a path) (ha : t.Held a) (hb : b ∈ a.kind.children) :
    Around t b (path ++ (Metadata.scopeName? t b.note).toList) := by
  obtain ⟨l, hchain, hnodup, hapart, rfl⟩ := h
  have hba := Ast.notes_subset_of_mem hb
  refine ⟨a.note :: l, .step (ha.holds.parent_eq hb) ha.holds.note_stored hchain, ?_, ?_, ?_⟩
  · exact List.nodup_cons.2 ⟨fun hmem => hapart _ hmem a.note_mem_notes, hnodup⟩
  · intro i hi
    rcases List.mem_cons.1 hi with rfl | hi
    · exact fun hmem => ha.note_not_mem_inner (List.mem_flatMap.2 ⟨b, hb, hmem⟩)
    · exact fun hmem => hapart i hi (hba hmem)
  · rw [List.filterMap_cons]
    cases Metadata.scopeName? t b.note <;> simp

/-- The walk outward from a revised program is the same. -/
theorem revised (h : Around t a path) (ha : t.Held a) (hr : Revised t t' a a') :
    Around t' a' path := by
  obtain ⟨l, hchain, hnodup, hapart, rfl⟩ := h
  have hstored := hchain.stored
  have hframe : ∀ i ∈ l, t'.kind i = t.kind i ∧ t'.parent i = t.parent i := fun i hi =>
    hr.frame i (hstored i hi) (hapart i hi)
  have hscope : ∀ i ∈ a.note :: l, Metadata.scopeName? t' i = Metadata.scopeName? t i := by
    intro i hi
    rw [scopeName?_eq, scopeName?_eq]
    rcases List.mem_cons.1 hi with rfl | hi
    · have hkind := hr.held.holds.kind_eq
      rw [hr.note_eq] at hkind
      rw [hr.lineOf_eq ha.holds.note_stored, hkind, ha.holds.kind_eq, scopeName?_map, scopeName?_map,
        ← scopeName?_outline, hr.outline_eq, scopeName?_outline]
    · rw [hr.lineOf_eq (hstored i hi), (hframe i hi).1]
  refine ⟨l, ?_, hnodup, fun i hi hmem => ?_, ?_⟩
  · rw [hr.note_eq]
    refine hchain.congr hr.size_le fun j hj => ?_
    rcases List.mem_cons.1 hj with rfl | hj
    · exact hr.top
    · exact (hframe j hj).2
  · rcases hr.origin i hmem with hmem | hge
    · exact hapart i hi hmem
    · exact Nat.not_lt.2 hge (hstored i hi)
  · rw [hr.note_eq, List.filterMap_congr hscope]

/-- The scopes around a part of the program. -/
theorem ancestors (h : Around t a path) (ha : t.Held a) (hb : b ∈ a.kind.children) :
    ((t.ancestors b.note).filterMap (Metadata.scopeName? t)).reverse = path := by
  obtain ⟨l, hchain, hnodup, hapart, rfl⟩ := h
  have hlength : (a.note :: l).length ≤ t.size := by
    refine length_le_of_stored ?_ ?_
    · exact List.nodup_cons.2 ⟨fun hmem => hapart _ hmem a.note_mem_notes, hnodup⟩
    · intro i hi
      rcases List.mem_cons.1 hi with rfl | hi
      · exact ha.holds.note_stored
      · exact hchain.stored i hi
  have hwalk : Chain t b.note (a.note :: l) :=
    .step (ha.holds.parent_eq hb) ha.holds.note_stored hchain
  rw [Tree.ancestors, hwalk.outward_eq _ hlength]

end Around

end Program.Tree

namespace Expansion

open Program.Tree (Around)

variable {c : ExpansionContext} {session : Session} {a b : Ast NodeId} {path : List String}

theorem metadataOf_path (h : Around session.tree a path) (ha : session.tree.Held a)
    (hb : b ∈ a.kind.children) : (metadataOf c session b.note).parentPath = path := h.ancestors ha hb

/-- Whether a label is stripped depends on the scopes around it. -/
theorem shouldStrip_eq (h : Around session.tree a path) (ha : session.tree.Held a)
    (hb : b ∈ a.kind.children) (label : String) :
    shouldStrip c.strip c.environment label (metadataOf c session b.note)
      = Structural.strips c label path := by
  have hcontext : (metadataOf c session b.note).context = ":".intercalate path := by
    rw [Metadata.context, metadataOf_path h ha hb]
  unfold shouldStrip Structural.strips
  rw [hcontext]
  rfl

end Expansion

end LogLabel
