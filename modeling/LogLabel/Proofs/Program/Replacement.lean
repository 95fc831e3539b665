import LogLabel.Proofs.Program.Linked

set_option autoImplicit false

/-!
# Replacing a node of a linked tree

`Tree.replaceWithMany` puts nodes in the place of another one. Here its whole effect is said, for
any tree in which the links agree.

* `Ast.splice`: the program with a part replaced, wherever it stands.
* `Tree.Outside t target`: the nodes that are reached from the root without passing `target`.
* `Tree.replaceWithMany_frame`: what a replacement leaves as it is, whatever the links are.
* `Tree.replaceWithMany_linked`: a replacement succeeds, splices the program, and leaves the links in
  agreement. The replacements may still be listed as parts of the replaced program.
-/

namespace LogLabel.Program

/-! ## Splicing a program -/

namespace Kind

variable {p : NodeId} {rs : List (Ast NodeId)} {one : Ast NodeId} {k : Kind (Ast NodeId)}

theorem swap_eq_self (h : ∀ c ∈ k.children, c.note ≠ p) : k.swap p rs one = k := by
  cases hlist : k.isList with
  | true =>
      cases k with
      | program body => exact congrArg Kind.program (flatMap_swap_eq_self h)
      | block body => exact congrArg Kind.block (flatMap_swap_eq_self h)
      | _ => cases hlist
  | false =>
      rw [swap_of_not_isList hlist, map_congr fun c hc => if_neg (h c hc), map_id]

/-- What is done to the replaced part before it is replaced does not count. -/
theorem swap_map {f : Ast NodeId → Ast NodeId}
    (hf : ∀ c ∈ k.children, (f c).note = c.note ∧ (c.note ≠ p → f c = c)) :
    (k.map f).swap p rs one = k.swap p rs one := by
  cases hlist : k.isList with
  | true =>
      have hbody : ∀ body : List (Ast NodeId), (∀ c ∈ body, c ∈ k.children) →
          ((body.map f).flatMap fun c => if c.note = p then rs else [c]) =
            body.flatMap fun c => if c.note = p then rs else [c] := by
        intro body hbody
        rw [List.flatMap_map]
        refine List.flatMap_congr fun c hc => ?_
        obtain ⟨hnote, hsame⟩ := hf c (hbody c hc)
        rw [hnote]
        split
        · rfl
        · next hne => rw [hsame hne]
      cases k with
      | program body => exact congrArg Kind.program (hbody body fun _ h => h)
      | block body => exact congrArg Kind.block (hbody body fun _ h => h)
      | _ => cases hlist
  | false =>
      rw [swap_of_not_isList (by rw [isList_map, hlist]), swap_of_not_isList hlist, map_map]
      refine map_congr fun c hc => ?_
      obtain ⟨hnote, hsame⟩ := hf c hc
      rw [hnote]
      split
      · rfl
      · next hne => exact hsame hne

end Kind

namespace Ast

/-- The program with the part at `p` replaced, in a statement list by `rs` and in any other slot by
`one`. -/
def splice (a : Ast NodeId) (p : NodeId) (rs : List (Ast NodeId)) (one : Ast NodeId) : Ast NodeId :=
  a.fold fun i k => .node i (k.swap p rs one)

section Splicing

variable {p q : NodeId} {rs : List (Ast NodeId)} {one a c : Ast NodeId} {k : Kind (Ast NodeId)}

theorem splice_node (i : NodeId) (k : Kind (Ast NodeId)) :
    (Ast.node i k).splice p rs one =
      .node i ((k.map fun c => c.splice p rs one).swap p rs one) :=
  fold_node _ i k

theorem note_splice (a : Ast NodeId) : (a.splice p rs one).note = a.note := by
  cases a with
  | node i k => rw [splice_node, note_node, note_node]

theorem splice_eq_self (a : Ast NodeId) : p ∉ a.inner → a.splice p rs one = a := by
  induction a using Ast.induction with
  | node i k ih =>
      intro hp
      have hout : ∀ c ∈ k.children, p ∉ c.notes := fun c hc hmem =>
        hp (List.mem_flatMap.2 ⟨c, hc, hmem⟩)
      have hparts : ∀ c ∈ k.children, c.splice p rs one = c := fun c hc =>
        ih c hc fun hmem => hout c hc (mem_notes_of_inner hmem)
      rw [splice_node, Kind.map_congr hparts, Kind.map_id, Kind.swap_eq_self]
      rintro c hc rfl
      exact hout c hc c.note_mem_notes

theorem Part.inner_subset {b : Ast NodeId} (h : b.Part a) : b.inner ⊆ a.inner := by
  cases h with
  | self => exact fun _ hi => hi
  | inside hc hbc =>
      exact fun i hi => List.mem_flatMap.2 ⟨_, hc, hbc.notes_subset (mem_notes_of_inner hi)⟩

/-- Splicing changes the one layer that has the part. -/
theorem splice_eq_graft (hlayer : (Ast.node q k).Part a) (ha : a.notes.Nodup) (hc : c ∈ k.children) :
    a.splice c.note rs one = a.graft q (.node q (k.swap c.note rs one)) := by
  -- The part stands once in the program, so that the swap does nothing in any other layer.
  induction hlayer with
  | self =>
      have hnodup := ha
      rw [notes_node, List.nodup_cons] at hnodup
      have htop := graft_top (a := .node q k) (b := .node q (k.swap c.note rs one))
      rw [note_node] at htop
      rw [htop, splice_node, Kind.swap_map fun d hd => ⟨note_splice d, fun hne => ?_⟩]
      refine splice_eq_self d fun hmem => hne ?_
      rw [Tree.eq_of_nodup_flatMap hnodup.2 hd hc (mem_notes_of_inner hmem) c.note_mem_notes]
  | @inside a d hd hlayer ih =>
      cases a with
      | node i kind =>
          rw [kind_node] at hd
          have hnodup := ha
          rw [notes_node, List.nodup_cons] at hnodup
          have hdnodup := (Part.of_mem (a := .node i kind) hd).nodup ha
          have hq : q ∈ d.notes := hlayer.notes_subset (Ast.node q k).note_mem_notes
          have hqi : i ≠ q := fun he => hnodup.1 (List.mem_flatMap.2 ⟨d, hd, he ▸ hq⟩)
          have hcd : c.note ∈ d.inner :=
            hlayer.inner_subset (List.mem_flatMap.2 ⟨c, hc, c.note_mem_notes⟩)
          -- The layer that has the part is inside of `d`, and nothing of it is in another part.
          have hother : ∀ e ∈ kind.children, ∀ j ∈ d.notes, j ∈ e.notes → e = d :=
            fun e he j hjd hje => Tree.eq_of_nodup_flatMap hnodup.2 he hd hje hjd
          have hparts : ∀ e ∈ kind.children,
              e.splice c.note rs one = e.graft q (.node q (k.swap c.note rs one)) := by
            intro e he
            by_cases hed : e = d
            · rw [hed, ih hdnodup]
            · rw [splice_eq_self e fun hmem =>
                  hed (hother e he _ (mem_notes_of_inner hcd) (mem_notes_of_inner hmem)),
                graft_eq_self e fun hmem => hed (hother e he q hq hmem)]
          rw [splice_node, graft_node, if_neg hqi, ← Kind.map_congr hparts, Kind.swap_eq_self]
          rw [Kind.children_map, List.forall_mem_map]
          intro e he hnote
          rw [note_splice] at hnote
          obtain rfl := hother e he c.note (mem_notes_of_inner hcd) (hnote ▸ e.note_mem_notes)
          rw [notes_eq_cons, List.nodup_cons] at hdnodup
          exact hdnodup.1 (hnote ▸ hcd)

end Splicing

end Ast

namespace Tree

variable {t t' : Tree} {target p : NodeId} {rs : List NodeId}

/-! ## What a replacement leaves as it is -/

/-- One node for several: besides a new node, only parents of the several have changed. -/
theorem gather_frame (span : Span) (rs : List NodeId) {i : NodeId} (hi : i.index < t.size) :
    (t.gather span rs).2.kind i = t.kind i ∧
      (i ∉ rs → i ≠ (t.gather span rs).1 ∧ (t.gather span rs).2.parent i = t.parent i) := by
  have hnew : i ≠ ⟨t.size⟩ := by
    rintro rfl
    exact Nat.lt_irrefl _ hi
  have hlayer : ∀ k : Kind NodeId, (∀ j ∈ k.children, j ∈ rs) →
      (t.alloc k span).2.kind i = t.kind i ∧
        (i ∉ rs → i ≠ (t.alloc k span).1 ∧ (t.alloc k span).2.parent i = t.parent i) := by
    intro k hk
    rw [kind_alloc, if_neg hnew, parent_alloc, if_neg hnew]
    exact ⟨rfl, fun hrs => ⟨hnew, if_neg fun h => hrs (hk i h.1)⟩⟩
  match rs with
  | [] => exact hlayer .empty fun j hj => by cases hj
  | [r] => exact ⟨rfl, fun hrs => ⟨fun he => hrs (List.mem_singleton.2 he), rfl⟩⟩
  | r :: r' :: rs => exact hlayer (.block (r :: r' :: rs)) fun j hj => hj

/-- A replacement changes the kind of the parent, and the parents of the replaced node and of the
replacements. -/
theorem replaceWithMany_frame (hp : t.parent target = some p)
    (h : t.replaceWithMany target rs = .ok t') {i : NodeId} (hi : i.index < t.size) :
    (i ≠ p → t'.kind i = t.kind i) ∧ (i ≠ target → i ∉ rs → t'.parent i = t.parent i) := by
  rw [replaceWithMany, hp] at h
  cases hsplice : spliceKind? target rs (t.kind p) with
  | some kind =>
      simp only [hsplice] at h
      obtain rfl := Except.ok.inj h
      refine ⟨fun hne => ?_, fun hne hrs => ?_⟩
      · rw [kind_setParent, kind_adopt, kind_putKind, if_neg fun h => hne h.1]
      · rw [parent_setParent, if_neg fun h => hne h.1, parent_adopt, if_neg fun h => hrs h.1,
          parent_putKind]
  | none =>
      simp only [hsplice] at h
      obtain ⟨hkind, hparent⟩ := gather_frame (t.span target) rs hi
      rw [replaceSlot] at h
      split at h
      · obtain rfl := Except.ok.inj h
        refine ⟨fun hne => ?_, fun hne hrs => ?_⟩
        · rw [kind_setParent, kind_setParent, kind_putKind, if_neg fun h => hne h.1, hkind]
        · obtain ⟨hone, hparent⟩ := hparent hrs
          rw [parent_setParent, if_neg fun h => hne h.1, parent_setParent, if_neg fun h => hone h.1,
            parent_putKind, hparent]
      · cases h

/-! ## Replacements in a linked tree -/

/-- The nodes that are reached from the root without passing `target`. -/
inductive Outside (t : Tree) (target : NodeId) : NodeId → Prop
  | root (hne : t.root ≠ target) : Outside t target t.root
  | part {p i : NodeId} (h : Outside t target p) (hi : i ∈ (t.kind p).children) (hne : i ≠ target) :
      Outside t target i

/-- A node is reached from the root past `target` or through it. -/
theorem Reachable.outside_or_below {i : NodeId} (h : t.Reachable i) :
    t.Outside target i ∨ t.Below target i := by
  induction h with
  | root =>
      by_cases hroot : t.root = target
      · exact Or.inr (hroot ▸ .top)
      · exact Or.inl (.root hroot)
  | @part p i _ hi ih =>
      by_cases hne : i = target
      · exact Or.inr (hne ▸ .top)
      · exact ih.imp (fun h => .part h hi hne) fun h => .part h hi

/-- Linked nodes are reached with their top node or not at all. -/
theorem LinkedBelow.reachable {top i : NodeId} (h : t.LinkedBelow top) (ht : t.WellLinked)
    (hi : t.Below top i) (hreach : t.Reachable i) : t.Reachable top := by
  induction hi with
  | top => exact hreach
  | @part p i hp hi ih =>
      have hparent := h.parent_eq p hp i hi
      cases hreach with
      | root =>
          rw [ht.root_parent] at hparent
          cases hparent
      | part hp' hi' =>
          rw [ht.parent_eq _ hp' _ hi'] at hparent
          exact ih (Option.some.inj hparent ▸ hp')

/-- What stands below a reachable node, or below a linked one, is held. -/
theorem WellLinked.held (ht : t.WellLinked) {r : NodeId} (hr : t.Reachable r ∨ t.LinkedBelow r) :
    t.Held (t.reading r) := by
  rcases hr with hr | hr
  · have hrooted := wellLinked_iff.1 ht
    obtain ⟨b, hb, rfl⟩ := hrooted.exists_part hr
    have hheld := hrooted.toHeld.of_part hb
    rwa [hheld.reading_eq]
  · exact hr.held

/-- A replacement stands inside of the replaced program, or none of its nodes is in the tree. -/
theorem Rooted.place_of_below {a c : Ast NodeId} {r i : NodeId} (h : t.Rooted a) (hc : c.Part a)
    (hlinked : t.Reachable r ∨ t.LinkedBelow r) (hcontain : ¬ t.Below r c.note)
    (houtside : ¬ t.Outside c.note r) (hi : t.Below r i) : i ∈ c.inner ∨ i ∉ a.notes := by
  refine or_iff_not_imp_right.2 fun hmem => ?_
  rw [not_not, h.toHeld.mem_notes_iff, h.root_eq, below_root_iff] at hmem
  have hr : t.Reachable r := hlinked.elim id fun hr => hr.reachable h.wellLinked hi hmem
  have hrc : t.Below c.note r := hr.outside_or_below.resolve_left houtside
  have hic : i ∈ c.notes := (h.toHeld.of_part hc).mem_notes_iff.2 (hrc.trans hi)
  rw [Ast.notes_eq_cons, List.mem_cons] at hic
  refine hic.resolve_left ?_
  rintro rfl
  exact hcontain hi

/-- What a replacement in one layer leaves is held from the root on. -/
theorem Rooted.splice {a c : Ast NodeId} {q : NodeId} {k : Kind (Ast NodeId)}
    {rs : List (Ast NodeId)} (h : t.Rooted a) (hlayer : (Ast.node q k).Part a) (hc : c ∈ k.children)
    (hplace : ∀ i ∈ rs.flatMap Ast.notes, i ∈ c.inner ∨ i ∉ a.notes)
    (hr : Replaced t t' q k c rs) (hroot : t'.parent t.root = none) :
    t'.Rooted (a.splice c.note rs (t.gathered rs)) := by
  have hnodup := h.nodup
  have hheld := h.toHeld.of_part hlayer
  have hcinner : ∀ i ∈ c.inner, i ∈ (Ast.node q k).notes := fun i hi =>
    Ast.notes_subset_of_mem (a := .node q k) hc (Ast.mem_notes_of_inner hi)
  have hframe : ∀ i ∈ a.notes, i ∉ (Ast.node q k).notes →
      t'.kind i = t.kind i ∧ t'.parent i = t.parent i := by
    intro i hi hne
    refine hr.frame i (h.holds.stored i hi) hne fun hmem => ?_
    exact (hplace i hmem).elim (fun hmem => hne (hcinner i hmem)) fun hout => hout hi
  have horigin : ∀ i ∈ (Ast.node q (k.swap c.note rs (t.gathered rs))).notes,
      i ∈ (Ast.node q k).notes ∨ i ∉ a.notes := by
    intro i hi
    rcases mem_notes_swap hheld.nodup hc hi with hi | hi | hi
    · exact Or.inl hi
    · exact (hplace i hi).imp_left (hcinner i)
    · exact Or.inr fun hmem => Nat.not_lt.2 hi (h.holds.stored i hmem)
  have hnew := (held_graft hlayer h.toHeld hr.size_le hr.held rfl hr.top hframe horigin).1
  have hnote : (a.graft q (.node q (k.swap c.note rs (t.gathered rs)))).note = a.note :=
    Ast.note_graft (Ast.note_node q _) a
  rw [Ast.splice_eq_graft hlayer hnodup hc]
  exact ⟨hnew, by rw [hnote, h.root_eq, hr.root_eq], by rw [hr.root_eq, hroot]⟩

/-- Replacing a reachable node of a linked tree. The replacements are nodes of the tree or stand
apart from it, they share no node and do not contain the replaced node, and none of them is reached
past it. Then the replacement succeeds; the program is spliced at the node; the links agree again,
and the node is detached. Of the other nodes, only the parent has got another kind and only the
replacements have got another parent. -/
theorem replaceWithMany_linked (ht : t.WellLinked) (htarget : t.Reachable target)
    (hroot : target ≠ t.root) (hlinked : ∀ r ∈ rs, t.Reachable r ∨ t.LinkedBelow r)
    (hdisjoint : rs.Pairwise fun r r' => ∀ i, t.Below r i → ¬ t.Below r' i)
    (hcontain : ∀ r ∈ rs, ¬ t.Below r target) (houtside : ∀ r ∈ rs, ¬ t.Outside target r) :
    ∃ t', t.replaceWithMany target rs = .ok t' ∧
      t'.program = t.program.splice target (rs.map t.reading) (t.gathered (rs.map t.reading)) ∧
      t'.WellLinked ∧ t'.parent target = none ∧ ¬ t'.Reachable target ∧
      ∀ i : NodeId, i.index < t.size → t'.span i = t.span i ∧
        (t.parent target ≠ some i → t'.kind i = t.kind i) ∧
        (i ≠ target → i ∉ rs → t'.parent i = t.parent i) := by
  have hrooted := wellLinked_iff.1 ht
  obtain ⟨c, hc, rfl⟩ := hrooted.exists_part htarget
  have hne : c ≠ t.program := by
    rintro rfl
    exact hroot hrooted.root_eq
  obtain ⟨q, k, hlayer, hck⟩ := hc.eq_or_parent.resolve_left hne
  have hheld := hrooted.toHeld.of_part hlayer
  have hparent : t.parent c.note = some q := hheld.holds.parent_eq hck
  -- The replacements are the tops of programs that the tree holds, with the nodes below them.
  have hreplacements : ∀ r ∈ rs, t.Held (t.reading r) := fun r hr => ht.held (hlinked r hr)
  have hbelow : ∀ r ∈ rs, ∀ i, i ∈ (t.reading r).notes ↔ t.Below r i := fun r hr i => by
    rw [(hreplacements r hr).mem_notes_iff, note_reading]
  have hnotes : (rs.map t.reading).map Ast.note = rs := by
    have hsame : Ast.note ∘ t.reading = id := funext note_reading
    rw [List.map_map, hsame, List.map_id]
  have hnodup : ((rs.map t.reading).flatMap Ast.notes).Nodup := by
    rw [List.nodup_flatMap, List.forall_mem_map, List.pairwise_map]
    refine ⟨fun r hr => (hreplacements r hr).nodup, hdisjoint.imp_of_mem fun {r r'} hr hr' h => ?_⟩
    exact fun i hi hi' => h i ((hbelow r hr i).1 hi) ((hbelow r' hr' i).1 hi')
  have hplace : ∀ i ∈ (rs.map t.reading).flatMap Ast.notes, i ∈ c.inner ∨ i ∉ t.program.notes := by
    intro i hi
    rw [List.flatMap_map, List.mem_flatMap] at hi
    obtain ⟨r, hr, hi⟩ := hi
    exact hrooted.place_of_below hc (hlinked r hr) (hcontain r hr) (houtside r hr)
      ((hbelow r hr i).1 hi)
  obtain ⟨t', hok, hreplaced⟩ := replaceWithMany_open (hheld.toOpen c) hck
    (List.forall_mem_map.2 fun r hr => (hreplacements r hr).holds) hnodup
    fun i hi => (hplace i hi).imp_right fun hout hmem => hout (hlayer.notes_subset hmem)
  rw [hnotes] at hok
  have hframe := fun i hi => replaceWithMany_frame hparent hok (i := i) hi
  -- The root is not replaced, and it is no replacement, since it is reached past the node.
  have hrootless : t'.parent t.root = none := by
    have hstored := ht.stored _ .root
    rw [(hframe t.root hstored).2 (Ne.symm hroot) fun hmem => houtside _ hmem (.root (Ne.symm hroot)),
      ht.root_parent]
  have hrooted' := hrooted.splice hlayer hck hplace hreplaced hrootless
  refine ⟨t', hok, hrooted'.program_eq, hrooted'.wellLinked, hreplaced.detached, fun hreach => ?_,
    fun i hi => ⟨hreplaced.span_eq i hi, fun hne => (hframe i hi).1 ?_, (hframe i hi).2⟩⟩
  · obtain ⟨slot, ⟨hslot, hget⟩, -⟩ :=
      hrooted'.wellLinked.one_slot _ hreach (by rwa [hreplaced.root_eq])
    have hparent' := hrooted'.wellLinked.parent_eq _ hslot _ (List.mem_of_getElem? hget)
    rw [hreplaced.detached] at hparent'
    cases hparent'
  · rintro rfl
    exact hne hparent

/-- The tree of a label over a block of two empty statements. -/
def labelTree : Tree where
  nodes := #[⟨.program [⟨1⟩], ⟨0, 9⟩, none⟩, ⟨.labeled "info" ⟨2⟩, ⟨0, 9⟩, some ⟨0⟩⟩,
    ⟨.block [⟨3⟩, ⟨4⟩], ⟨5, 9⟩, some ⟨1⟩⟩, ⟨.empty, ⟨6, 7⟩, some ⟨2⟩⟩, ⟨.empty, ⟨7, 8⟩, some ⟨2⟩⟩]
  root := ⟨0⟩
  lineStarts := [0]

/-- The statements of the block take the place of the label that they are below. -/
theorem replaceWithMany_linked_unwrapped :
    labelTree.WellLinked ∧ labelTree.Reachable ⟨1⟩ ∧
      ∃ t', labelTree.replaceWithMany ⟨1⟩ [⟨3⟩, ⟨4⟩] = .ok t' ∧
        t'.program = .node ⟨0⟩ (.program [.node ⟨3⟩ .empty, .node ⟨4⟩ .empty]) ∧
        t'.WellLinked ∧ t'.parent ⟨1⟩ = none := by
  have hempty : ∀ i : NodeId, i = ⟨3⟩ ∨ i = ⟨4⟩ → labelTree.kind i = .empty := by
    rintro i (rfl | rfl) <;> rfl
  have hleaf : ∀ i : NodeId, i = ⟨3⟩ ∨ i = ⟨4⟩ → labelTree.Holds (.node i .empty) := by
    intro i hi
    refine .node ?_ (hempty i hi) (by simp [Kind.children]) (by simp [Kind.children])
    rcases hi with rfl | rfl <;> decide
  have hblock : labelTree.Holds (.node ⟨2⟩ (.block [.node ⟨3⟩ .empty, .node ⟨4⟩ .empty])) :=
    .node (by decide) rfl (by simp [Kind.children]; decide) (by simp [Kind.children, hleaf])
  have hlabel : labelTree.Holds (.node ⟨1⟩
      (.labeled "info" (.node ⟨2⟩ (.block [.node ⟨3⟩ .empty, .node ⟨4⟩ .empty])))) :=
    .node (by decide) rfl (by simp [Kind.children]; decide) (by simpa [Kind.children] using hblock)
  have hprogram : labelTree.Holds (.node ⟨0⟩ (.program [.node ⟨1⟩
      (.labeled "info" (.node ⟨2⟩ (.block [.node ⟨3⟩ .empty, .node ⟨4⟩ .empty])))])) :=
    .node (by decide) rfl (by simp [Kind.children]; decide) (by simpa [Kind.children] using hlabel)
  have hrooted : labelTree.Rooted _ := ⟨⟨hprogram, by decide⟩, rfl, rfl⟩
  have htarget : labelTree.Reachable ⟨1⟩ := .part .root List.mem_cons_self
  have hinside : labelTree.Reachable ⟨2⟩ := .part htarget List.mem_cons_self
  -- Nothing stands below an empty statement, and nothing but the root is reached past the label.
  have hbelow : ∀ r i : NodeId, r = ⟨3⟩ ∨ r = ⟨4⟩ → labelTree.Below r i → i = r := by
    intro r i hr h
    induction h with
    | top => rfl
    | part _ hi ih =>
        rw [ih, hempty r hr] at hi
        cases hi
  have houtside : ∀ i : NodeId, labelTree.Outside ⟨1⟩ i → i = ⟨0⟩ := by
    intro i h
    induction h with
    | root _ => rfl
    | part _ hi hne ih =>
        rw [ih] at hi
        exact absurd (List.mem_singleton.1 hi) hne
  have hmem : ∀ r ∈ [(⟨3⟩ : NodeId), ⟨4⟩], r = ⟨3⟩ ∨ r = ⟨4⟩ := by simp
  obtain ⟨t', hok, hprogram', hlinked, hdetached, -, -⟩ :=
    replaceWithMany_linked hrooted.wellLinked htarget (by decide)
      (fun r hr => Or.inl (.part hinside hr : labelTree.Reachable r))
      (List.pairwise_pair.2 fun i h h' => by
        rw [hbelow _ i (Or.inl rfl) h] at h'
        exact absurd (hbelow _ _ (Or.inr rfl) h') (by decide))
      (fun r hr h => by
        rw [← hbelow r _ (hmem r hr) h] at hr
        exact absurd hr (by decide))
      (fun r hr h => by
        rw [houtside r h] at hr
        exact absurd hr (by decide))
  rw [hrooted.program_eq] at hprogram'
  exact ⟨hrooted.wellLinked, htarget, t', hok, hprogram', hlinked, hdetached⟩

end Tree

end LogLabel.Program
