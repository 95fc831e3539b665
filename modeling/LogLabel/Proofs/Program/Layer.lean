import LogLabel.Program.Ast
import Mathlib.Data.List.Basic
import Mathlib.Logic.IsEmpty.Basic

set_option autoImplicit false

/-!
# Layers and nested programs

The functions on `Kind` treat its thirty-eight forms one by one. This module reduces
all of them to the list of parts, so that nothing after it looks at the forms again.

* `Kind.fill` puts given parts into the slots of a layer in source order. A layer is
  its shape together with its parts (`Kind.fill_children`), replacing the parts is
  filling the shape (`Kind.fill_children_map`), and threading a state through a layer is
  threading it through the list of its parts (`Kind.mapState_eq`).
* `Ast.induction` is the induction over nested programs with one hypothesis for each
  part, and `Ast.fold_node` the one equation of the recursion over them. `Ast.para` is the recursion
  that sees the parts beside their results.
* `Ast.notes` lists the notes of a program, a node before its parts.
* `Ast.exists_pairs`: two programs that differ in their notes only are one program with both
  notes.
-/

namespace LogLabel.Program

variable {α β γ σ ι κ : Type}

/-! ## Layers -/

namespace Kind

/-- Takes the next value of a list that stands for the parts still to come. -/
def next [Inhabited β] (_ : α) (parts : List β) : β × List β := (parts.headD default, parts.tail)

/-- The layer of the same shape whose parts are the given ones, in source order. -/
def fill [Inhabited β] (k : Kind α) (parts : List β) : Kind β := (k.mapState next parts).1

theorem mapStateList_next [Inhabited β] :
    ∀ (as : List α) (parts : List β), as.length ≤ parts.length →
      mapStateList next as parts = (parts.take as.length, parts.drop as.length) := by
  intro as
  induction as with
  | nil => intro parts _; simp [mapStateList]
  | cons a as ih =>
      intro parts h
      cases parts with
      | nil => simp at h
      | cons b parts =>
          simp only [List.length_cons, Nat.add_le_add_iff_right] at h
          simp [mapStateList, next, ih parts h]

theorem mapStateList_next_append [Inhabited β] (as : List α) (parts rest : List β)
    (h : parts.length = as.length) : mapStateList next as (parts ++ rest) = (parts, rest) := by
  rw [mapStateList_next as (parts ++ rest) (by simp; omega)]
  simp [← h]

theorem mapStateList_next_self [Inhabited β] (as : List α) (parts : List β)
    (h : parts.length = as.length) : mapStateList next as parts = (parts, []) := by
  simpa using mapStateList_next_append as parts [] h

theorem length_mapStateList (f : α → σ → β × σ) :
    ∀ (as : List α) (s : σ), (mapStateList f as s).1.length = as.length := by
  intro as
  induction as with
  | nil => intro s; rfl
  | cons a as ih => intro s; simp [mapStateList, ih]

theorem mapStateList_append (f : α → σ → β × σ) :
    ∀ (as bs : List α) (s : σ),
      mapStateList f (as ++ bs) s
        = ((mapStateList f as s).1 ++ (mapStateList f bs (mapStateList f as s).2).1,
          (mapStateList f bs (mapStateList f as s).2).2) := by
  intro as
  induction as with
  | nil => intro bs s; rfl
  | cons a as ih => intro bs s; simp [mapStateList, ih]

theorem mapStateList_map {γ : Type} (g : γ → α) (f : α → σ → β × σ) :
    ∀ (cs : List γ) (s : σ), mapStateList f (cs.map g) s = mapStateList (fun c => f (g c)) cs s := by
  intro cs
  induction cs with
  | nil => intro s; rfl
  | cons c cs ih => intro s; simp [mapStateList, ih]

theorem mapStateOption_eq [Inhabited β] (f : α → σ → β × σ) (o : Option α) (s : σ) :
    mapStateOption f o s
      = (o.map fun _ => (mapStateList f o.toList s).1.headD default,
          (mapStateList f o.toList s).2) := by
  cases o <;> rfl

theorem mapState_key_eq [Inhabited β] (f : α → σ → β × σ) (k : Key α) (s : σ) :
    k.mapState f s
      = (k.map fun _ => (mapStateList f k.children s).1.headD default,
          (mapStateList f k.children s).2) := by
  cases k <;> rfl

/-- Threading a state through a layer is threading it through the list of its parts. -/
theorem mapState_eq [Inhabited β] (f : α → σ → β × σ) (k : Kind α) (s : σ) :
    k.mapState f s
      = (k.fill (mapStateList f k.children s).1, (mapStateList f k.children s).2) := by
  have hnext : ∀ (as : List α) (s : σ) (rest : List β),
      mapStateList next as ((mapStateList f as s).1 ++ rest) = ((mapStateList f as s).1, rest) :=
    fun as s rest => mapStateList_next_append as _ rest (length_mapStateList f as s)
  have hself : ∀ (as : List α) (s : σ),
      mapStateList next as (mapStateList f as s).1 = ((mapStateList f as s).1, []) :=
    fun as s => mapStateList_next_self as _ (length_mapStateList f as s)
  cases k <;>
    simp [mapState, fill, children, mapStateList, mapStateList_append, mapStateOption_eq,
      mapState_key_eq, hnext, hself, next]

@[simp] theorem children_map (f : α → β) (k : Kind α) :
    (k.map f).children = k.children.map f := by
  have hkey : ∀ k : Key α, (k.map f).children = k.children.map f := by
    intro k
    cases k <;> rfl
  cases k <;> simp [map, children, hkey, Option.toList_map]

theorem fill_children_map [Inhabited β] (f : α → β) (k : Kind α) :
    k.fill (k.children.map f) = k.map f := by
  have hself : ∀ as : List α, mapStateList next as (as.map f) = (as.map f, []) :=
    fun as => mapStateList_next_self as _ (by simp)
  have hoption : ∀ (o : Option α) (rest : List β),
      mapStateOption next o (o.toList.map f ++ rest) = (o.map f, rest) := by
    intro o rest
    cases o <;> rfl
  have hkey : ∀ (k : Key α) (rest : List β),
      k.mapState next (k.children.map f ++ rest) = (k.map f, rest) := by
    intro k rest
    cases k <;> rfl
  have hoption' := fun o => hoption o []
  have hkey' := fun k => hkey k []
  simp only [List.append_nil] at hoption' hkey'
  cases k <;> simp [fill, mapState, map, children, hself, hoption, hkey, hoption', hkey', next]

theorem fill_map [Inhabited γ] (f : α → β) (k : Kind α) (parts : List γ) :
    (k.map f).fill parts = k.fill parts := by
  have hlist : ∀ (as : List α) (parts : List γ),
      mapStateList next (as.map f) parts = mapStateList next as parts := by
    intro as
    induction as with
    | nil => intro parts; rfl
    | cons a as ih => intro parts; simp [mapStateList, next, ih]
  have hoption : ∀ (o : Option α) (parts : List γ),
      mapStateOption next (o.map f) parts = mapStateOption next o parts := by
    intro o parts
    cases o <;> rfl
  have hkey : ∀ (k : Key α) (parts : List γ),
      (k.map f).mapState next parts = k.mapState next parts := by
    intro k parts
    cases k <;> rfl
  cases k <;> simp [fill, mapState, map, hlist, hoption, hkey, next]

theorem map_id (k : Kind α) : k.map (fun a => a) = k := by
  have hkey : ∀ k : Key α, k.map (fun a => a) = k := by
    intro k
    cases k <;> rfl
  cases k <;> simp [map, hkey]

/-- A layer is its shape together with its parts. -/
theorem fill_children [Inhabited α] (k : Kind α) : k.fill k.children = k := by
  have h := fill_children_map (fun a => a) k
  rwa [List.map_id', map_id] at h

theorem children_mapState (f : α → σ → β × σ) (k : Kind α) (s : σ) :
    (k.mapState f s).1.children = (mapStateList f k.children s).1 := by
  have hoption : ∀ (o : Option α) (s : σ),
      (mapStateOption f o s).1.toList = (mapStateList f o.toList s).1
        ∧ (mapStateOption f o s).2 = (mapStateList f o.toList s).2 := by
    intro o s
    cases o <;> exact ⟨rfl, rfl⟩
  have hkey : ∀ (k : Key α) (s : σ),
      (k.mapState f s).1.children = (mapStateList f k.children s).1
        ∧ (k.mapState f s).2 = (mapStateList f k.children s).2 := by
    intro k s
    cases k <;> exact ⟨rfl, rfl⟩
  cases k <;>
    simp [mapState, children, mapStateList, mapStateList_append, hoption, hkey]

theorem children_fill [Inhabited β] (k : Kind α) (parts : List β)
    (h : parts.length = k.children.length) : (k.fill parts).children = parts := by
  rw [fill, children_mapState, mapStateList_next_self _ _ h]

theorem map_congr {f g : α → β} {k : Kind α} (h : ∀ a ∈ k.children, f a = g a) :
    k.map f = k.map g := by
  rcases isEmpty_or_nonempty α with hα | ⟨⟨a⟩⟩
  · have hfg : f = g := funext fun a => hα.elim a
    rw [hfg]
  · have : Inhabited β := ⟨f a⟩
    rw [← fill_children_map f, ← fill_children_map g, List.map_congr_left h]

theorem map_map (f : α → β) (g : β → γ) (k : Kind α) :
    (k.map f).map g = k.map fun a => g (f a) := by
  have hkey : ∀ k : Key α, (k.map f).map g = k.map fun a => g (f a) := by
    intro k
    cases k <;> rfl
  cases k <;> simp [map, hkey, Function.comp_def]

theorem fill_mapState [Inhabited γ] (f : α → σ → β × σ) (k : Kind α) (s : σ) (parts : List γ) :
    (k.mapState f s).1.fill parts = k.fill parts := by
  have hlist : ∀ (as : List α) (s : σ) (parts : List γ),
      mapStateList next (mapStateList f as s).1 parts = mapStateList next as parts := by
    intro as
    induction as with
    | nil => intro s parts; rfl
    | cons a as ih => intro s parts; simp [mapStateList, next, ih]
  have hoption : ∀ (o : Option α) (s : σ) (parts : List γ),
      mapStateOption next (mapStateOption f o s).1 parts = mapStateOption next o parts := by
    intro o s parts
    cases o <;> rfl
  have hkey : ∀ (k : Key α) (s : σ) (parts : List γ),
      (k.mapState f s).1.mapState next parts = k.mapState next parts := by
    intro k s parts
    cases k <;> rfl
  cases k <;> simp [fill, mapState, hlist, hoption, hkey, next]

theorem fill_fill [Inhabited β] [Inhabited γ] (k : Kind α) (parts : List β) (parts' : List γ) :
    (k.fill parts).fill parts' = k.fill parts' :=
  fill_mapState next k parts parts'

theorem map_fill [Inhabited β] [Inhabited γ] (g : β → γ) (k : Kind α) (parts : List β)
    (h : parts.length = k.children.length) : (k.fill parts).map g = k.fill (parts.map g) := by
  rw [← fill_children_map, children_fill k parts h, fill_fill]

end Kind

/-! ## Nested programs -/

namespace Ast

instance [Inhabited ι] : Inhabited (Ast ι) := ⟨.node default .empty⟩

theorem foldList_eq_map (f : ι → Kind β → β) : ∀ as : List (Ast ι), foldList f as = as.map (fold f)
  | [] => rfl
  | a :: as => by rw [foldList, foldList_eq_map f as, List.map_cons]

theorem foldKind_eq_map (f : ι → Kind β → β) (k : Kind (Ast ι)) : foldKind f k = k.map (fold f) := by
  have hoption : ∀ o : Option (Ast ι), foldOption f o = o.map (fold f) := by
    intro o
    cases o <;> simp [foldOption]
  have hkey : ∀ k : Key (Ast ι), foldKey f k = k.map (fold f) := by
    intro k
    cases k <;> simp [foldKey, Key.map]
  cases k <;> simp [foldKind, Kind.map, foldList_eq_map, hoption, hkey]

/-- The recursion over nested programs: a step on the results of the parts. -/
theorem fold_node (f : ι → Kind β → β) (i : ι) (k : Kind (Ast ι)) :
    fold f (.node i k) = f i (k.map (fold f)) := by
  rw [fold, foldKind_eq_map]

/-- Induction over nested programs, with one hypothesis for each direct part. -/
@[elab_as_elim] theorem induction {P : Ast ι → Prop}
    (node : ∀ (i : ι) (k : Kind (Ast ι)), (∀ c ∈ k.children, P c) → P (.node i k)) (a : Ast ι) :
    P a := by
  refine @Ast.rec ι P (fun k => ∀ c ∈ k.children, P c) (fun as => ∀ c ∈ as, P c)
    (fun o => ∀ c ∈ o.toList, P c) (fun k => ∀ c ∈ k.children, P c) node ?_ ?_ ?_ ?_ ?_ ?_ ?_ ?_ ?_
    ?_ ?_ ?_ ?_ ?_ ?_ ?_ ?_ ?_ ?_ ?_ ?_ ?_ ?_ ?_ ?_ ?_ ?_ ?_ ?_ ?_ ?_ ?_ ?_ ?_ ?_ ?_ ?_ ?_ ?_ ?_ ?_
    ?_ ?_ ?_ ?_ a
  all_goals simp +contextual [Kind.children, Key.children, or_imp]

@[simp] theorem note_node (i : ι) (k : Kind (Ast ι)) : (Ast.node i k).note = i := rfl

@[simp] theorem kind_node (i : ι) (k : Kind (Ast ι)) : (Ast.node i k).kind = k := rfl

@[simp] theorem mapNotes_node (f : ι → κ) (i : ι) (k : Kind (Ast ι)) :
    (Ast.node i k).mapNotes f = .node (f i) (k.map (mapNotes f)) :=
  fold_node _ i k

@[simp] theorem note_mapNotes (f : ι → κ) (a : Ast ι) : (a.mapNotes f).note = f a.note := by
  cases a with
  | node i k => simp

@[simp] theorem kind_mapNotes (f : ι → κ) (a : Ast ι) :
    (a.mapNotes f).kind = a.kind.map (mapNotes f) := by
  cases a with
  | node i k => simp

theorem mapNotes_mapNotes {μ : Type} (f : ι → κ) (g : κ → μ) (a : Ast ι) :
    (a.mapNotes f).mapNotes g = a.mapNotes fun i => g (f i) := by
  induction a using Ast.induction with
  | node i k ih =>
      simp only [mapNotes_node, Kind.map_map]
      rw [Kind.map_congr ih]

theorem mapNotes_id (a : Ast ι) : a.mapNotes (fun i => i) = a := by
  induction a using Ast.induction with
  | node i k ih => rw [mapNotes_node, Kind.map_congr ih, Kind.map_id]

/-- Bottom-up evaluation in which `f` sees the parts of a node beside their results. -/
def para (f : ι → Kind (Ast ι × β) → β) (a : Ast ι) : β :=
  (a.fold fun i (k : Kind (Ast ι × β)) => (Ast.node i (k.map Prod.fst), f i k)).2

theorem para_node (f : ι → Kind (Ast ι × β) → β) (i : ι) (k : Kind (Ast ι)) :
    (Ast.node i k).para f = f i (k.map fun a => (a, a.para f)) := by
  have hpair : ∀ a : Ast ι, a.fold (fun i (k : Kind (Ast ι × β)) =>
      (Ast.node i (k.map Prod.fst), f i k)) = (a, a.para f) := by
    intro a
    refine Prod.ext ?_ rfl
    induction a using Ast.induction with
    | node i k ih =>
        rw [fold_node, Kind.map_map, Kind.map_congr ih, Kind.map_id]
  rw [para, fold_node, Kind.map_congr fun a _ => hpair a]

/-- The notes of a node and its parts, given those of the parts. -/
def notesStep (i : ι) (k : Kind (List ι)) : List ι := i :: k.children.flatten

/-- The notes of a program, a node before its parts and the parts in source order. -/
def notes : Ast ι → List ι := fold notesStep

@[simp] theorem notes_node (i : ι) (k : Kind (Ast ι)) :
    (Ast.node i k).notes = i :: k.children.flatMap notes := by
  simp [notes, fold_node, notesStep, List.flatMap_def]

theorem notes_eq (a : Ast ι) : a.notes = a.note :: a.kind.children.flatMap notes := by
  cases a with
  | node i k => simp

@[simp] theorem note_mem_notes (a : Ast ι) : a.note ∈ a.notes := by
  rw [notes_eq]
  exact List.mem_cons_self

theorem notes_subset_of_mem {a c : Ast ι} (h : c ∈ a.kind.children) : c.notes ⊆ a.notes := by
  intro i hi
  rw [notes_eq]
  exact List.mem_cons_of_mem _ (List.mem_flatMap.2 ⟨c, h, hi⟩)

theorem mapNotes_congr {f g : ι → κ} (a : Ast ι) :
    (∀ i ∈ a.notes, f i = g i) → a.mapNotes f = a.mapNotes g := by
  induction a using Ast.induction with
  | node i k ih =>
      intro h
      have hparts : ∀ c ∈ k.children, c.mapNotes f = c.mapNotes g := by
        intro c hc
        exact ih c hc fun j hj => h j (notes_subset_of_mem (a := .node i k) hc hj)
      rw [mapNotes_node, mapNotes_node, h i (by simp), Kind.map_congr hparts]

@[simp] theorem notes_mapNotes (f : ι → κ) (a : Ast ι) : (a.mapNotes f).notes = a.notes.map f := by
  induction a using Ast.induction with
  | node i k ih =>
      simp only [mapNotes_node, notes_node, Kind.children_map, List.map_cons, List.flatMap_map,
        List.map_flatMap]
      rw [List.flatMap_congr ih]

/-! ## Two notes on each node -/

/-- Lists of programs of the same forms, one by one. -/
theorem exists_pairs_list {as : List (Ast ι)} :
    ∀ {bs : List (Ast κ)}, as.map bare = bs.map bare →
      (∀ a ∈ as, ∀ b : Ast κ, a.bare = b.bare →
        ∃ d : Ast (ι × κ), d.mapNotes Prod.fst = a ∧ d.mapNotes Prod.snd = b) →
      ∃ ds : List (Ast (ι × κ)), ds.map (mapNotes Prod.fst) = as ∧
        ds.map (mapNotes Prod.snd) = bs := by
  induction as with
  | nil =>
      intro bs h _
      cases bs with
      | nil => exact ⟨[], rfl, rfl⟩
      | cons b bs => cases h
  | cons a as ih =>
      intro bs h hparts
      cases bs with
      | nil => cases h
      | cons b bs =>
          obtain ⟨hhead, htail⟩ := List.cons.inj h
          obtain ⟨d, hfst, hsnd⟩ := hparts a List.mem_cons_self b hhead
          obtain ⟨ds, hfsts, hsnds⟩ := ih htail fun c hc => hparts c (List.mem_cons_of_mem _ hc)
          exact ⟨d :: ds, by rw [List.map_cons, hfst, hfsts], by rw [List.map_cons, hsnd, hsnds]⟩

/-- Two programs that differ in their notes only are one program with two notes on each node. -/
theorem exists_pairs (a : Ast ι) :
    ∀ b : Ast κ, a.bare = b.bare →
      ∃ d : Ast (ι × κ), d.mapNotes Prod.fst = a ∧ d.mapNotes Prod.snd = b := by
  induction a using Ast.induction with
  | node i k ih =>
      rintro ⟨j, k'⟩ h
      have : Inhabited ι := ⟨i⟩
      have : Inhabited κ := ⟨j⟩
      rw [bare, bare, mapNotes_node, mapNotes_node] at h
      have hkind : k.map bare = k'.map bare := (Ast.node.inj h).2
      have hchildren := congrArg Kind.children hkind
      rw [Kind.children_map, Kind.children_map] at hchildren
      obtain ⟨ds, hfst, hsnd⟩ := exists_pairs_list hchildren ih
      have hlength : ds.length = k.children.length := by rw [← hfst, List.length_map]
      -- The two layers have one shape, so either of them may be filled.
      have hshape : k.fill k'.children = k' := by
        rw [← Kind.fill_map bare, hkind, Kind.fill_map, Kind.fill_children]
      refine ⟨.node (i, j) (k.fill ds), ?_, ?_⟩
      · rw [mapNotes_node, Kind.map_fill _ _ _ hlength, hfst, Kind.fill_children]
      · rw [mapNotes_node, Kind.map_fill _ _ _ hlength, hsnd, hshape]

end Ast

end LogLabel.Program
