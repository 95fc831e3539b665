import LogLabel.Template
import LogLabel.Proofs.Program.Planting

set_option autoImplicit false

/-!
# Filled templates

Filling a template uses each bound node itself at most once and copies it on every later
use. So whatever the template is, the result is one program made of new nodes and of bound
programs that occur once, and without addresses it is the template with values in its slots.

* `Template.filled` is a template with programs in its slots.
* `Template.Ready span bound t`: the bound programs are held by `t` and share no address.
* `Template.Composed s bound copy xs`: how a copying is put together, step by step. What holds
  of every copying of a template is proved by induction over it.
* `Template.Uses bound used taken used'`: on the way from `used` to `used'` the bound
  programs `taken` were used for the first time.
* `Template.fill_stored`: what filling a template leaves.
-/

namespace LogLabel.Template

open Program (Ast Kind NodeId Span Tree)
open Program.Tree (Stored Extends)

/-! ## Templates with values -/

/-- Values of the slots as programs. -/
structure Values where
  logFunction : String
  content : List (Ast Span)
  metadata : Ast Span

/-- A part of a template with its slots filled, and whether it is the content slot. -/
structure Filled where
  isContent : Bool
  program : Ast Span

/-- A list of parts, with the content in place of its slot. -/
def spliced (v : Values) (parts : List Filled) : List (Ast Span) :=
  parts.flatMap fun part => if part.isContent then v.content else [part.program]

/-- The value of a slot that stands alone. -/
def slotValue (v : Values) (s : Span) (name : String) : Ast Span :=
  match Slot.ofName? name with
  | some .logFunction => .node s (.ident v.logFunction)
  | some .metadata => v.metadata
  | some .content => .node s (.array v.content)
  | none => .node s (.ident name)

/-- A layer over filled parts. -/
def filledLayer (v : Values) (s : Span) : Kind Filled → Ast Span
  | .placeholder name => slotValue v s name
  | .call callee arguments => .node s (.call callee.program (spliced v arguments))
  | .newExpr callee arguments => .node s (.newExpr callee.program (spliced v arguments))
  | .array elements => .node s (.array (spliced v elements))
  | kind => .node s (kind.map Filled.program)

/-- A program with its slots filled, and whether it is the content slot. -/
def filler (v : Values) (s : Span) : Ast Span → Filled :=
  Ast.fold fun _ kind => ⟨isContentSlot kind, filledLayer v s kind⟩

/-- A program with its slots filled; all nodes but those of the values have the span `s`. -/
def filled (v : Values) (s : Span) (a : Ast Span) : Ast Span := (filler v s a).program

theorem filler_node (v : Values) (s i : Span) (k : Kind (Ast Span)) :
    filler v s (.node i k) = ⟨isContentSlot k, filledLayer v s (k.map (filler v s))⟩ := by
  have hslot : isContentSlot (k.map (filler v s)) = isContentSlot k := by cases k <;> rfl
  rw [← hslot]
  exact Ast.fold_node _ i k

/-! ## Copying

A copying of parts stores their programs and gives their addresses. How a template is copied is put
together from four steps, whatever the template is. -/

/-- A copying of one part as one of several parts. -/
def single (copy : Filling → NodeId × Filling) (f : Filling) : List NodeId × Filling :=
  ([(copy f).1], (copy f).2)

/-- A layer that is built over `n` parts. -/
structure IsLayer (n : Nat) (build : {α : Type} → [Inhabited α] → List α → Kind α) : Prop where
  children_eq : ∀ {α : Type} [Inhabited α] (as : List α), as.length = n → (build as).children = as
  map_eq : ∀ {α β : Type} [Inhabited α] [Inhabited β] (g : α → β) (as : List α), as.length = n →
    (build as).map g = build (as.map g)

/-- The copying is put together from uses of bound programs and from layers with the span `s`. With
the bound programs read under `g` it stores the programs `xs g`. -/
inductive Composed (s : Span) (bound : List (Ast NodeId)) :
    (Filling → List NodeId × Filling) → ((NodeId → Span) → List (Ast Span)) → Prop
  | nothing : Composed s bound (fun f => ([], f)) fun _ => []
  | take {b : Ast NodeId} (mem : b ∈ bound) :
      Composed s bound (single (take b.note)) fun g => [b.mapNotes g]
  | append {copy copy' : Filling → List NodeId × Filling} {xs ys : (NodeId → Span) → List (Ast Span)}
      (first : Composed s bound copy xs) (second : Composed s bound copy' ys) :
      Composed s bound (fun f => ((copy f).1 ++ (copy' (copy f).2).1, (copy' (copy f).2).2))
        fun g => xs g ++ ys g
  | layer {copy : Filling → List NodeId × Filling} {xs : (NodeId → Span) → List (Ast Span)}
      {build : {α : Type} → [Inhabited α] → List α → Kind α} (parts : Composed s bound copy xs)
      (isLayer : ∀ g, IsLayer (xs g).length build)
      (noSlot : ∀ (as : List NodeId) (slot : String), build as ≠ .placeholder slot) :
      Composed s bound (single fun f => store (build (copy f).1) s (copy f).2)
        fun g => [.node s (build (xs g))]

namespace Composed

variable {s : Span} {bound : List (Ast NodeId)}

/-- Copying parts from left to right. -/
theorem list {α β : Type} {copy : β → Filling → NodeId × Filling} {part : α → β}
    {x : (NodeId → Span) → α → Ast Span} :
    ∀ as : List α, (∀ a ∈ as, Composed s bound (single (copy (part a))) fun g => [x g a]) →
      Composed s bound (Kind.mapStateList copy (as.map part)) fun g => as.map (x g) := by
  intro as
  induction as with
  | nil => exact fun _ => .nothing
  | cons a as ih =>
      intro h
      exact (h a List.mem_cons_self).append (ih fun b hb => h b (List.mem_cons_of_mem _ hb))

/-- Storing a node without parts. -/
theorem leaf (leaf : {α : Type} → Kind α) (hchildren : ∀ {α : Type}, (leaf : Kind α).children = [])
    (hmap : ∀ {α β : Type} (g : α → β), (leaf : Kind α).map g = leaf)
    (hslot : ∀ slot : String, (leaf : Kind NodeId) ≠ .placeholder slot) :
    Composed s bound (single (store leaf s)) fun _ => [.node s leaf] := by
  have hlayer : IsLayer 0 fun _ => leaf :=
    ⟨fun _ has => hchildren.trans (List.eq_nil_of_length_eq_zero has).symm, fun g _ _ => hmap g⟩
  exact Composed.nothing.layer (fun _ => hlayer) fun _ => hslot

end Composed

section Filling

/-- The values of the slots, with the nodes of the bound programs read under `g`. -/
def valuesOf (logFunction : String) (contents : List (Ast NodeId)) (record : Ast NodeId)
    (g : NodeId → Span) : Values :=
  ⟨logFunction, contents.map (Ast.mapNotes g), record.mapNotes g⟩

variable {s : Span} {name : String} {contents bound : List (Ast NodeId)} {record : Ast NodeId}
  {b : Bindings}

theorem composed_takeContent (hcontents : contents ⊆ bound) (hb : b.content = contents.map Ast.note) :
    Composed s bound (takeContent b) fun g => contents.map (Ast.mapNotes g) := by
  rw [takeContent, hb]
  exact Composed.list contents fun c hc => .take (hcontents hc)

/-- The bound programs are the ones that the bindings name. -/
structure Names (bound contents : List (Ast NodeId)) (record : Ast NodeId) (b : Bindings) : Prop where
  contents_subset : contents ⊆ bound
  record_mem : record ∈ bound
  content_eq : b.content = contents.map Ast.note
  metadata_eq : b.metadata = record.note

theorem isLayer_array (n : Nat) : IsLayer n fun as => Kind.array as :=
  ⟨fun _ _ => rfl, fun _ _ _ => rfl⟩

theorem composed_fillSlot (hb : Names bound contents record b) (slot : String) :
    Composed s bound (single (fillSlot b s slot))
      fun g => [slotValue (valuesOf b.logFunction contents record g) s slot] := by
  unfold fillSlot slotValue
  cases Slot.ofName? slot with
  | none => exact .leaf (.ident slot) rfl (fun _ => rfl) fun _ h => by cases h
  | some known =>
      cases known with
      | logFunction => exact .leaf (.ident b.logFunction) rfl (fun _ => rfl) fun _ h => by cases h
      | metadata =>
          rw [hb.metadata_eq]
          exact .take hb.record_mem
      | content =>
          exact (composed_takeContent hb.contents_subset hb.content_eq).layer
            (fun _ => isLayer_array _) fun _ _ h => by cases h

/-! ## Layers -/

theorem isContent_copier (b : Bindings) (v : Values) (s : Span) (a : Ast Span) :
    (copier b s a).isContent = (filler v s a).isContent := by
  cases a with
  | node i k =>
      rw [copier, Ast.fold_node, filler_node]
      cases k <;> rfl

/-- A part is copied as the same part with the values in its slots. -/
def Copied (s : Span) (bound contents : List (Ast NodeId)) (record : Ast NodeId) (b : Bindings)
    (a : Ast Span) : Prop :=
  Composed s bound (single (copier b s a).copy)
    fun g => [filled (valuesOf b.logFunction contents record g) s a]

/-- Copying a list of parts with the content spliced in. -/
theorem composed_copyList (hb : Names bound contents record b) :
    ∀ as : List (Ast Span), (∀ a ∈ as, Copied s bound contents record b a) →
      Composed s bound (copyList b (as.map (copier b s))) fun g =>
        spliced (valuesOf b.logFunction contents record g)
          (as.map (filler (valuesOf b.logFunction contents record g) s)) := by
  intro as
  induction as with
  | nil => exact fun _ => .nothing
  | cons a as ih =>
      intro h
      have hrest := ih fun d hd => h d (List.mem_cons_of_mem _ hd)
      have hcontent := fun v => isContent_copier b v s a
      simp only [List.map_cons, spliced, List.flatMap_cons]
      -- The slot of the content yields any number of parts, and every other program yields one.
      cases hslot : (copier b s a).isContent with
      | true =>
          have heq : copyList b (copier b s a :: as.map (copier b s)) = fun f =>
              ((takeContent b f).1 ++ (copyList b (as.map (copier b s)) (takeContent b f).2).1,
                (copyList b (as.map (copier b s)) (takeContent b f).2).2) := by
            funext f
            rw [copyList, hslot, if_pos rfl]
          simp only [heq, ← hcontent, hslot, if_true]
          exact (composed_takeContent hb.contents_subset hb.content_eq).append hrest
      | false =>
          have heq : copyList b (copier b s a :: as.map (copier b s)) = fun f =>
              ((single (copier b s a).copy f).1
                  ++ (copyList b (as.map (copier b s)) (single (copier b s a).copy f).2).1,
                (copyList b (as.map (copier b s)) (single (copier b s a).copy f).2).2) := by
            funext f
            rw [copyList, hslot]
            rfl
          simp only [heq, ← hcontent, hslot, Bool.false_eq_true, if_false]
          exact (h a List.mem_cons_self).append hrest

theorem isLayer_fill (k : Kind (Ast Span)) : IsLayer k.children.length fun as => k.fill as :=
  ⟨fun as has => Kind.children_fill k as has, fun g as has => Kind.map_fill g k as has⟩

/-- Whether a layer is a slot, or has a list into which content is spliced. -/
def isSlotted {α : Type} : Kind α → Bool
  | .placeholder _ | .call _ _ | .newExpr _ _ | .array _ => true
  | _ => false

theorem isSlotted_fill {α β : Type} [Inhabited β] (k : Kind α) (as : List β) :
    isSlotted (k.fill as) = isSlotted k := by
  cases k <;> rfl

theorem isSlotted_map {α β : Type} (f : α → β) (k : Kind α) :
    isSlotted (k.map f) = isSlotted k := by
  cases k <;> rfl

/-- Copying a layer part by part. -/
theorem composed_mapState (k : Kind (Ast Span)) (hslot : isSlotted k = false)
    (h : ∀ a ∈ k.children, Copied s bound contents record b a) :
    Composed s bound (single fun f => store ((k.map (copier b s)).mapState Copier.copy f).1 s
        ((k.map (copier b s)).mapState Copier.copy f).2)
      fun g => [.node s (k.map (filled (valuesOf b.logFunction contents record g) s))] := by
  have hparts := Composed.list k.children h
  have hform : ∀ g, IsLayer (k.children.map
      (filled (valuesOf b.logFunction contents record g) s)).length fun as => k.fill as := by
    intro g
    rw [List.length_map]
    exact isLayer_fill k
  have hlayer := hparts.layer hform fun as slot hname => by
    have hfill := isSlotted_fill k as
    rw [hname, hslot] at hfill
    cases hfill
  simp only [Kind.fill_children_map] at hlayer
  have heq : (fun f => store ((k.map (copier b s)).mapState Copier.copy f).1 s
        ((k.map (copier b s)).mapState Copier.copy f).2)
      = fun f => store (k.fill (Kind.mapStateList Copier.copy (k.children.map (copier b s)) f).1) s
        (Kind.mapStateList Copier.copy (k.children.map (copier b s)) f).2 := by
    funext f
    rw [Kind.mapState_eq, Kind.children_map, Kind.fill_map]
  rw [heq]
  exact hlayer

/-- The layer of a call over a callee and its arguments; nothing is called without a callee. -/
def callLayer {α : Type} (form : α → List α → Kind α) : List α → Kind α
  | [] => .empty
  | c :: as => form c as

/-- The layer of a call of either form over its callee and its arguments. -/
theorem composed_call (hb : Names bound contents record b) {callee : Ast Span}
    {arguments : List (Ast Span)} (hcallee : Copied s bound contents record b callee)
    (harguments : ∀ a ∈ arguments, Copied s bound contents record b a)
    (form : {α : Type} → α → List α → Kind α)
    (hmap : ∀ {α β : Type} (f : α → β) (c : α) (as : List α),
      (form c as).map f = form (f c) (as.map f))
    (hchildren : ∀ {α : Type} (c : α) (as : List α), (form c as).children = c :: as)
    (hslot : ∀ (c : NodeId) (as : List NodeId) (slot : String), form c as ≠ .placeholder slot) :
    Composed s bound (single fun f =>
      store (form ((copier b s callee).copy f).1
          (copyList b (arguments.map (copier b s)) ((copier b s callee).copy f).2).1) s
        (copyList b (arguments.map (copier b s)) ((copier b s callee).copy f).2).2)
      fun g => [.node s (form (filled (valuesOf b.logFunction contents record g) s callee)
        (spliced (valuesOf b.logFunction contents record g)
          (arguments.map (filler (valuesOf b.logFunction contents record g) s))))] := by
  have hparts := hcallee.append (composed_copyList hb arguments harguments)
  have hlayer : ∀ x : Ast Span, ∀ xs : List (Ast Span),
      IsLayer ([x] ++ xs).length fun as => callLayer form as := by
    intro x xs
    constructor
    · intro α _ as has
      cases as with
      | nil => simp at has
      | cons a as => exact hchildren a as
    · intro α β _ _ g as has
      cases as with
      | nil => simp at has
      | cons a as => exact hmap g a as
  refine hparts.layer (fun g => hlayer _ _) fun as slot => ?_
  cases as with
  | nil => exact fun h => by cases h
  | cons a as => exact hslot a as slot

/-- Any layer without content to splice is copied part by part. -/
theorem copyLayer_eq_mapState (b : Bindings) (s : Span) {k : Kind Copier} (h : isSlotted k = false) :
    copyLayer b s k = fun f =>
      store (k.mapState Copier.copy f).1 s (k.mapState Copier.copy f).2 := by
  funext f
  cases k <;> first | rfl | cases h

theorem filledLayer_eq_map (v : Values) (s : Span) {k : Kind Filled} (h : isSlotted k = false) :
    filledLayer v s k = .node s (k.map Filled.program) := by
  cases k <;> first | rfl | cases h

theorem composed_copyLayer (hb : Names bound contents record b) (k : Kind (Ast Span))
    (h : ∀ a ∈ k.children, Copied s bound contents record b a) :
    Composed s bound (single (copyLayer b s (k.map (copier b s)))) fun g =>
      [filledLayer (valuesOf b.logFunction contents record g) s
        (k.map (filler (valuesOf b.logFunction contents record g) s))] := by
  cases hslotted : isSlotted k with
  | true =>
      cases k with
      | placeholder slot => exact composed_fillSlot hb slot
      | call callee arguments =>
          exact composed_call hb (h callee List.mem_cons_self)
            (fun a ha => h a (List.mem_cons_of_mem _ ha)) Kind.call (fun _ _ _ => rfl)
            (fun _ _ => rfl) fun _ _ _ h => by cases h
      | newExpr callee arguments =>
          exact composed_call hb (h callee List.mem_cons_self)
            (fun a ha => h a (List.mem_cons_of_mem _ ha)) Kind.newExpr (fun _ _ _ => rfl)
            (fun _ _ => rfl) fun _ _ _ h => by cases h
      | array elements =>
          exact (composed_copyList hb elements h).layer (fun _ => isLayer_array _)
            fun _ _ h => by cases h
      | _ => cases hslotted
  | false =>
      have hfilled : ∀ v : Values, filledLayer v s (k.map (filler v s))
          = .node s (k.map (filled v s)) := by
        intro v
        rw [filledLayer_eq_map v s (by rw [isSlotted_map, hslotted]), Kind.map_map]
        rfl
      rw [copyLayer_eq_mapState b s (by rw [isSlotted_map, hslotted])]
      simp only [hfilled]
      exact composed_mapState k hslotted h

/-- The copying of a template is composed, and stores the template with the values in its slots. -/
theorem composed_copier (hb : Names bound contents record b) (a : Ast Span) :
    Copied s bound contents record b a := by
  induction a using Ast.induction with
  | node i k ih =>
      have hnode : (copier b s (.node i k)).copy = copyLayer b s (k.map (copier b s)) := by
        rw [copier, Ast.fold_node]
      rw [Copied, hnode]
      simp only [filled, filler_node]
      exact composed_copyLayer hb k ih

end Filling

/-! ## Bound programs -/

/-- The bound programs are held with the given spans, and share no address. -/
structure Ready (span : NodeId → Span) (bound : List (Ast NodeId)) (t : Tree) : Prop where
  held : ∀ b ∈ bound, t.Held b
  nodup : (bound.flatMap Ast.notes).Nodup
  spans : ∀ b ∈ bound, b.mapNotes t.span = b.mapNotes span

variable {span : NodeId → Span} {bound taken taken' : List (Ast NodeId)}
  {used used' used'' : List NodeId} {xs ys : List (Ast Span)}

/-- Moving the tops of bound programs leaves them held. -/
theorem Ready.extends {t t' : Tree} (h : Ready span bound t) (hsub : taken ⊆ bound)
    (hext : Extends (taken.map Ast.note) t t') : Ready span bound t' := by
  refine ⟨fun b hb => ⟨hext.holds (h.held b hb).holds fun i hi hmem => ?_, (h.held b hb).nodup⟩,
    h.nodup, fun b hb => ?_⟩
  · obtain ⟨d, hd, rfl⟩ := List.mem_map.1 hmem
    exact Tree.note_not_mem_inner_of_nodup h.nodup hb (hsub hd) hi
  · rw [hext.toGrows.mapNotes_span (h.held b hb).holds, h.spans b hb]

/-- The bound programs `taken` were used for the first time on the way from `used` to `used'`. -/
structure Uses (bound : List (Ast NodeId)) (used : List NodeId) (taken : List (Ast NodeId))
    (used' : List NodeId) : Prop where
  subset : taken ⊆ bound
  nodup : taken.Nodup
  unused : ∀ b ∈ taken, b.note ∉ used
  mem_iff : ∀ i, i ∈ used' ↔ i ∈ used ∨ i ∈ taken.map Ast.note

namespace Uses

theorem nil (bound : List (Ast NodeId)) (used : List NodeId) : Uses bound used [] used :=
  ⟨by simp, by simp, by simp, by simp⟩

theorem append (h : Uses bound used taken used') (h' : Uses bound used' taken' used'') :
    Uses bound used (taken ++ taken') used'' where
  subset := List.append_subset.2 ⟨h.subset, h'.subset⟩
  nodup := by
    rw [List.nodup_append]
    refine ⟨h.nodup, h'.nodup, ?_⟩
    rintro b hb _ hb' rfl
    exact h'.unused b hb' ((h.mem_iff _).2 (Or.inr (List.mem_map.2 ⟨b, hb, rfl⟩)))
  unused := by
    intro b hb
    rcases List.mem_append.1 hb with hb | hb
    · exact h.unused b hb
    · exact fun hmem => h'.unused b hb ((h.mem_iff _).2 (Or.inl hmem))
  mem_iff := by
    intro i
    rw [h'.mem_iff, h.mem_iff, List.map_append, List.mem_append, or_assoc]

/-- Programs that were used once each share no address. -/
theorem flatMap_nodup (h : Uses bound used taken used') (hbound : (bound.flatMap Ast.notes).Nodup) :
    (taken.flatMap Ast.notes).Nodup := by
  rw [List.nodup_flatMap]
  refine ⟨fun b hb => (List.nodup_flatMap.1 hbound).1 b (h.subset hb), ?_⟩
  refine h.nodup.imp_of_mem fun {b d} hb hd hne => ?_
  intro i hi hi'
  exact hne (Tree.eq_of_nodup_flatMap hbound (h.subset hb) (h.subset hd) hi hi')

end Uses

/-! ## What a copying leaves

`Copies span bound copy xs`: on every filling, `copy` stores the programs `xs`, made of new nodes and
of bound programs that were not used before. -/

/-- What a copying of several parts leaves. -/
def Copies (span : NodeId → Span) (bound : List (Ast NodeId))
    (copy : Filling → List NodeId × Filling) (xs : List (Ast Span)) : Prop :=
  ∀ f : Filling, Ready span bound f.tree →
    ∃ taken as : List (Ast NodeId), as.map Ast.note = (copy f).1 ∧
      Stored f.tree (copy f).2.tree taken as xs ∧ Uses bound f.used taken (copy f).2.used

namespace Copies

theorem nothing (span : NodeId → Span) (bound : List (Ast NodeId)) :
    Copies span bound (fun f => ([], f)) [] :=
  fun f _ => ⟨[], [], rfl, .nil f.tree, .nil bound f.used⟩

theorem append {copy copy' : Filling → List NodeId × Filling} (h : Copies span bound copy xs)
    (h' : Copies span bound copy' ys) :
    Copies span bound (fun f => ((copy f).1 ++ (copy' (copy f).2).1, (copy' (copy f).2).2))
      (xs ++ ys) := by
  intro f hf
  obtain ⟨taken, as, has, hstored, huses⟩ := h f hf
  -- The bound programs are still there, though the first copying may have moved their tops.
  have hf' := hf.extends huses.subset hstored.growth
  obtain ⟨taken', bs, hbs, hstored', huses'⟩ := h' (copy f).2 hf'
  have hall := huses.append huses'
  refine ⟨taken ++ taken', as ++ bs, by simp [has, hbs], ?_, hall⟩
  have hnodup := hall.flatMap_nodup hf.nodup
  rw [List.flatMap_append, List.nodup_append] at hnodup
  exact hstored.append hstored' (fun b hb => (hf.held b (huses'.subset hb)).holds)
    fun i hi hi' => hnodup.2.2 i hi i hi' rfl

/-- Storing a layer over all the copied parts. -/
theorem covered {copy : Filling → List NodeId × Filling} (h : Copies span bound copy xs) (s : Span)
    {build : {α : Type} → [Inhabited α] → List α → Kind α} (hbuild : IsLayer xs.length build) :
    Copies span bound (single fun f => store (build (copy f).1) s (copy f).2) [.node s (build xs)] := by
  intro f hf
  obtain ⟨taken, as, has, hstored, huses⟩ := h f hf
  have hlength : as.length = xs.length := by rw [← hstored.spans, List.length_map]
  have hover := Stored.covered s (k := build as) (by rwa [hbuild.children_eq as hlength])
  rw [hbuild.map_eq _ as hlength, hbuild.map_eq _ as hlength, has, hstored.spans] at hover
  exact ⟨taken, _, rfl, hover, huses⟩

end Copies

/-- Using a bound node: itself the first time, and a copy later. -/
theorem copies_take {b : Ast NodeId} (hb : b ∈ bound) :
    Copies span bound (single (take b.note)) [b.mapNotes span] := by
  intro f hf
  have hheld := hf.held b hb
  by_cases hmem : b.note ∈ f.used
  · have htake : take b.note f
        = ((f.tree.clone b.note).1, { f with tree := (f.tree.clone b.note).2 }) := by
      rw [take, if_pos hmem]
    obtain ⟨a, ha, hstored⟩ := ((f.tree.reading b.note).mapNotes f.tree.span).plant_stored f.tree
    rw [hheld.reading_eq, hf.spans b hb] at ha hstored
    rw [single, htake, Tree.clone, hheld.reading_eq, hf.spans b hb]
    exact ⟨[], [a], by rw [List.map_singleton, ha], hstored, .nil bound f.used⟩
  · have htake : take b.note f = (b.note, { f with used := b.note :: f.used }) := by
      rw [take, if_neg hmem]
    have hself : Stored f.tree f.tree [b] [b] [b.mapNotes span] := by
      rw [← hf.spans b hb]
      exact .self (by simpa using hheld.holds) (by simpa using hheld.nodup)
    rw [single, htake]
    refine ⟨[b], [b], rfl, hself, by simpa using hb, by simp, by simpa using hmem, fun i => ?_⟩
    simp [or_comm]

/-- What is composed copies the programs with the spans of the bound ones. -/
theorem Composed.copies {s : Span} {copy : Filling → List NodeId × Filling}
    {xs : (NodeId → Span) → List (Ast Span)} (h : Composed s bound copy xs) (span : NodeId → Span) :
    Copies span bound copy (xs span) := by
  induction h with
  | nothing => exact .nothing span bound
  | take mem => exact copies_take mem
  | append _ _ ihfirst ihsecond => exact ihfirst.append ihsecond
  | layer _ isLayer _ ih => exact ih.covered s (isLayer span)

/-- The bindings name bound programs, whose readings are the values. -/
structure Binds (span : NodeId → Span) (bound : List (Ast NodeId)) (b : Bindings) (v : Values) :
    Prop where
  logFunction : v.logFunction = b.logFunction
  content : ∃ contents : List (Ast NodeId), contents ⊆ bound ∧ b.content = contents.map Ast.note ∧
    v.content = contents.map (Ast.mapNotes span)
  metadata : ∃ record ∈ bound, b.metadata = record.note ∧ v.metadata = record.mapNotes span

/-- Filling a template stores the template with the values in its slots, made of new nodes and of
bound programs that are used once each. -/
theorem fill_stored {b : Bindings} {v : Values} (hb : Binds span bound b v) (s : Span) (a : Ast Span) {t : Tree}
    (h : Ready span bound t) :
    ∃ (taken : List (Ast NodeId)) (m : Ast NodeId), m.note = (fill b s a t).1 ∧
      Stored t (fill b s a t).2 taken [m] [filled v s a] ∧ taken ⊆ bound := by
  obtain ⟨contents, hcontents, hcontent, hvalue⟩ := hb.content
  obtain ⟨record, hrecord, hmetadata, hrecordValue⟩ := hb.metadata
  have hv : valuesOf b.logFunction contents record span = v := by
    rw [valuesOf, ← hb.logFunction, ← hvalue, ← hrecordValue]
  have hcopied := composed_copier (s := s) ⟨hcontents, hrecord, hcontent, hmetadata⟩ a
  obtain ⟨taken, ms, hms, hstored, huses⟩ := hcopied.copies span ⟨t, []⟩ h
  rw [hv] at hstored
  obtain ⟨m, rfl, hm⟩ := List.map_eq_singleton_iff.1 hms
  exact ⟨taken, m, hm, hstored, huses.subset⟩

end LogLabel.Template
