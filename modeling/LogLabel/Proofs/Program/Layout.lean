import LogLabel.Proofs.Peg.Spans
import LogLabel.Proofs.Program.Sorts

set_option autoImplicit false

/-!
# Layout of programs in their text

The parts of a program that was read stand in the text in the order of their list, inside of
the span of the node that has them. Spans come from captured rules and from the ends of
operands, operators and suffixes, and parentheses leave no node behind, so the span of a
part may be smaller than the place that was read for it.

* `InOrder P lo hi as`: the items stand one behind the other between `lo` and `hi`.
* `Ast.Within span lo hi a` and `Draft.Within lo hi d`: the program stands there, with its
  parts in order inside of every node.
* `Draft.within_resolve`: grouping the operators of a chain keeps the operands in place.
* `Piece.assembleParts_lies`: every rule makes a piece of its span from pieces in order.
* `draftsIn_within`: the statements of a text stand in it in order.
-/

namespace LogLabel.Program

open Peg (Capture Laid)

/-! ## Items in order -/

section InOrder

variable {α β : Type}

/-- The items stand one behind the other between `lo` and `hi`, each one with `P` between the
bounds it is given. -/
def InOrder (P : Nat → Nat → α → Prop) (lo hi : Nat) : List α → Prop
  | [] => lo ≤ hi
  | a :: as => ∃ mid, lo ≤ mid ∧ P lo mid a ∧ InOrder P mid hi as

/-- An item keeps its place between wider bounds. -/
def Widens (P : Nat → Nat → α → Prop) (a : α) : Prop :=
  ∀ {lo hi lo' hi' : Nat}, lo' ≤ lo → hi ≤ hi' → P lo hi a → P lo' hi' a

namespace InOrder

variable {P : Nat → Nat → α → Prop} {Q : Nat → Nat → β → Prop} {lo mid hi lo' hi' : Nat}
  {as bs : List α}

theorem le (h : InOrder P lo hi as) : lo ≤ hi := by
  induction as generalizing lo with
  | nil => exact h
  | cons a as ih =>
      obtain ⟨mid, hmid, -, hrest⟩ := h
      exact Nat.le_trans hmid (ih hrest)

theorem singleton {a : α} (hle : lo ≤ hi) (h : P lo hi a) : InOrder P lo hi [a] :=
  ⟨hi, hle, h, Nat.le_refl hi⟩

theorem widen (h : InOrder P lo hi as) (hP : ∀ a ∈ as, Widens P a) (hlo : lo' ≤ lo)
    (hhi : hi ≤ hi') : InOrder P lo' hi' as := by
  induction as generalizing lo lo' with
  | nil => exact Nat.le_trans hlo (Nat.le_trans h hhi)
  | cons a as ih =>
      obtain ⟨mid, hmid, ha, hrest⟩ := h
      refine ⟨mid, Nat.le_trans hlo hmid, hP a List.mem_cons_self hlo (Nat.le_refl mid) ha, ?_⟩
      exact ih hrest (fun b hb => hP b (List.mem_cons_of_mem _ hb)) (Nat.le_refl mid)

theorem of_append (h : InOrder P lo hi (as ++ bs)) :
    ∃ mid, InOrder P lo mid as ∧ InOrder P mid hi bs := by
  induction as generalizing lo with
  | nil => exact ⟨lo, Nat.le_refl lo, h⟩
  | cons a as ih =>
      obtain ⟨mid, hmid, ha, hrest⟩ := h
      obtain ⟨mid', has, hbs⟩ := ih hrest
      exact ⟨mid', ⟨mid, hmid, ha, has⟩, hbs⟩

theorem map_iff {f : β → α} {cs : List β} :
    InOrder P lo hi (cs.map f) ↔ InOrder (fun lo hi c => P lo hi (f c)) lo hi cs := by
  induction cs generalizing lo with
  | nil => exact Iff.rfl
  | cons c cs ih => exact exists_congr fun mid => and_congr_right fun _ => and_congr_right fun _ => ih

theorem imp {P' : Nat → Nat → α → Prop} (h : InOrder P lo hi as)
    (hP : ∀ a ∈ as, ∀ lo hi, P lo hi a → P' lo hi a) : InOrder P' lo hi as := by
  induction as generalizing lo with
  | nil => exact h
  | cons a as ih =>
      obtain ⟨mid, hmid, ha, hrest⟩ := h
      exact ⟨mid, hmid, hP a List.mem_cons_self lo mid ha,
        ih hrest fun b hb => hP b (List.mem_cons_of_mem _ hb)⟩

section Widens

variable (hP : ∀ a, Widens P a)

include hP

theorem append (h : InOrder P lo mid as) (h' : InOrder P mid hi bs) : InOrder P lo hi (as ++ bs) := by
  induction as generalizing lo with
  | nil => exact h'.widen (fun b _ => hP b) h (Nat.le_refl hi)
  | cons a as ih =>
      obtain ⟨mid', hmid', ha, hrest⟩ := h
      exact ⟨mid', hmid', ha, ih hrest⟩

/-- Items may be left out. -/
theorem sublist (h : InOrder P lo hi as) (hsub : bs.Sublist as) : InOrder P lo hi bs := by
  induction hsub generalizing lo with
  | slnil => exact h
  | cons a _ ih =>
      obtain ⟨mid, hmid, -, hrest⟩ := h
      exact (ih hrest).widen (fun b _ => hP b) hmid (Nat.le_refl hi)
  | cons_cons a _ ih =>
      obtain ⟨mid, hmid, ha, hrest⟩ := h
      exact ⟨mid, hmid, ha, ih hrest⟩

/-- Every item may be replaced by items in order. -/
theorem flatMap {f : β → List α} {cs : List β} (h : InOrder Q lo hi cs)
    (hf : ∀ c lo hi, Q lo hi c → InOrder P lo hi (f c)) : InOrder P lo hi (cs.flatMap f) := by
  induction cs generalizing lo with
  | nil => exact h
  | cons c cs ih =>
      obtain ⟨mid, -, hc, hrest⟩ := h
      rw [List.flatMap_cons]
      exact append hP (hf c lo mid hc) (ih hrest)

theorem of_mem (h : InOrder P lo hi as) {a : α} (ha : a ∈ as) : P lo hi a := by
  obtain ⟨mid, hmid, hP', hle⟩ := sublist hP h (List.singleton_sublist.2 ha)
  exact hP a (Nat.le_refl lo) hle hP'

/-- A relation that holds across every place between two items. -/
theorem pairwise {R : α → α → Prop} (h : InOrder P lo hi as)
    (hR : ∀ {lo mid hi a b}, P lo mid a → P mid hi b → R a b) : as.Pairwise R := by
  induction as generalizing lo with
  | nil => exact .nil
  | cons a as ih =>
      obtain ⟨mid, -, ha, hrest⟩ := h
      exact .cons (fun b hb => hR ha (of_mem hP hrest hb)) (ih hrest)

end Widens

end InOrder

end InOrder

/-! ## Operands of a chain -/

namespace Grouping

variable {α β : Type}

theorem leaves_map (f : α → β) (x : Grouping α) : (x.map f).leaves = x.leaves.map f := by
  induction x with
  | leaf a => rfl
  | branch op l r ihl ihr => rw [map, leaves, ihl, ihr, leaves, List.map_append]

/-- Climbing with fuel for the whole chain stops at its end, or at an operator that binds less
tightly than the floor. -/
theorem climb_rest :
    ∀ (fuel floor : Nat) (left : Grouping α) (chain : List (String × α)), chain.length < fuel →
      (climb fuel floor left chain).2 <:+ chain ∧
        ∀ link ∈ (climb fuel floor left chain).2.head?, Operator.precedence link.1 < floor := by
  intro fuel
  induction fuel with
  | zero => intro floor left chain h; exact absurd h (Nat.not_lt_zero _)
  | succ fuel ih =>
      intro floor left chain h
      cases chain with
      | nil => exact ⟨List.suffix_refl _, by simp [climb]⟩
      | cons link chain =>
          obtain ⟨op, operand⟩ := link
          have hlength : chain.length < fuel := Nat.lt_of_succ_lt_succ h
          simp only [climb]
          split
          · next hfloor =>
              refine ⟨List.suffix_refl _, fun link hlink => ?_⟩
              obtain rfl : (op, operand) = link := Option.some.inj hlink
              exact hfloor
          · -- The operand on the right takes what binds more tightly, and climbing goes on with what
            -- is left of the chain, which the fuel still covers.
            obtain ⟨hright, -⟩ := ih (rightFloor op) (.leaf operand) chain hlength
            generalize climb fuel (rightFloor op) (.leaf operand) chain = right at hright ⊢
            obtain ⟨hsuffix, hstop⟩ := ih floor (.branch op left right.1) right.2
              (Nat.lt_of_le_of_lt hright.length_le hlength)
            exact ⟨(hsuffix.trans hright).trans (List.suffix_cons _ _), hstop⟩

/-- A chain of known operators is grouped as a whole. -/
theorem leaves_ofChain {first : α} {chain : List (String × α)}
    (h : ∀ link ∈ chain, 0 < Operator.precedence link.1) :
    (ofChain first chain).leaves = first :: chain.map Prod.snd := by
  obtain ⟨hsuffix, hstop⟩ :=
    climb_rest (chain.length + 1) 1 (.leaf first) chain (Nat.lt_succ_self _)
  have hleaves := leaves_climb (chain.length + 1) 1 (.leaf first) chain
  cases hrest : (climb (chain.length + 1) 1 (.leaf first) chain).2 with
  | nil =>
      rw [hrest, List.map_nil, List.append_nil] at hleaves
      exact hleaves
  | cons link links =>
      -- What is left would begin with an operator below the lowest floor.
      rw [hrest] at hsuffix hstop
      have hknown := h link (hsuffix.subset List.mem_cons_self)
      exact absurd (hstop link rfl) (Nat.not_lt.2 hknown)

end Grouping

/-! ## Programs between two offsets -/

variable {ι : Type}

/-- A node between two offsets, given when its parts are. -/
def withinStep (s : Span) (k : Kind (Nat → Nat → Prop)) (lo hi : Nat) : Prop :=
  lo ≤ s.start ∧ s.stop ≤ hi ∧ InOrder (fun lo hi part => part lo hi) s.start s.stop k.children

/-- A chain between two offsets, given when its operands are: they stand in order, and the operators
are known ones. -/
def withinChain (first : Nat → Nat → Prop) (rest : List (String × (Nat → Nat → Prop)))
    (lo hi : Nat) : Prop :=
  InOrder (fun lo hi operand => operand lo hi) lo hi (first :: rest.map Prod.snd) ∧
    ∀ link ∈ rest, 0 < Operator.precedence link.1

/-- The program stands between `lo` and `hi`, and in every node the parts stand in order inside of
the span of the node. -/
def Ast.Within (span : ι → Span) (lo hi : Nat) (a : Ast ι) : Prop :=
  a.fold (fun i => withinStep (span i)) lo hi

/-- The same for the program of a draft. -/
def Draft.Within (lo hi : Nat) (d : Draft) : Prop := d.fold withinStep withinChain lo hi

theorem withinStep_map {α : Type} (f : α → Nat → Nat → Prop) (s : Span) (k : Kind α) (lo hi : Nat) :
    withinStep s (k.map f) lo hi
      ↔ lo ≤ s.start ∧ s.stop ≤ hi ∧
        InOrder (fun lo hi c => f c lo hi) s.start s.stop k.children := by
  rw [withinStep, Kind.children_map, InOrder.map_iff]

namespace Ast

variable {span : ι → Span} {lo hi : Nat}

theorem within_node (i : ι) (k : Kind (Ast ι)) :
    (Ast.node i k).Within span lo hi
      ↔ lo ≤ (span i).start ∧ (span i).stop ≤ hi ∧
        InOrder (Ast.Within span) (span i).start (span i).stop k.children := by
  rw [Within, fold_node]
  exact withinStep_map (fun c lo hi => c.Within span lo hi) (span i) k lo hi

theorem within_iff (a : Ast ι) :
    a.Within span lo hi
      ↔ lo ≤ (span a.note).start ∧ (span a.note).stop ≤ hi ∧
        InOrder (Ast.Within span) (span a.note).start (span a.note).stop a.kind.children := by
  cases a with
  | node i k => exact within_node i k

theorem widens_within (a : Ast ι) : Widens (Ast.Within span) a := by
  intro lo hi lo' hi' hlo hhi h
  rw [within_iff] at h ⊢
  exact ⟨Nat.le_trans hlo h.1, Nat.le_trans h.2.1 hhi, h.2.2⟩

theorem Within.le {a : Ast ι} (h : a.Within span lo hi) : lo ≤ hi := by
  rw [within_iff] at h
  exact Nat.le_trans h.1 (Nat.le_trans h.2.2.le h.2.1)

theorem within_mapNotes {κ : Type} (f : κ → ι) (a : Ast κ) :
    ∀ {lo hi : Nat}, (a.mapNotes f).Within span lo hi ↔ a.Within (fun i => span (f i)) lo hi := by
  induction a using Ast.induction with
  | node i k ih =>
      intro lo hi
      rw [mapNotes_node, within_node, within_node, Kind.children_map, InOrder.map_iff]
      refine and_congr_right fun _ => and_congr_right fun _ => ⟨fun h => ?_, fun h => ?_⟩
      · exact h.imp fun c hc _ _ => (ih c hc).1
      · exact h.imp fun c hc _ _ => (ih c hc).2

/-- Every part of a program stands where the program does. -/
theorem Within.part {a e : Ast ι} (he : e.Part a) :
    ∀ {lo hi : Nat}, a.Within span lo hi → e.Within span lo hi := by
  induction he with
  | self => exact id
  | @inside a c hc _ ih =>
      intro lo hi h
      rw [within_iff] at h
      exact ih (widens_within c h.1 h.2.1 (h.2.2.of_mem widens_within hc))

end Ast

namespace Draft

variable {lo hi : Nat}

theorem within_node (s : Span) (k : Kind Draft) :
    (Draft.node s k).Within lo hi
      ↔ lo ≤ s.start ∧ s.stop ≤ hi ∧ InOrder Draft.Within s.start s.stop k.children := by
  rw [Within, fold_node]
  exact withinStep_map (fun c lo hi => c.Within lo hi) s k lo hi

theorem within_chain (s : Span) (first : Draft) (rest : List (String × Draft)) :
    (Draft.chain s first rest).Within lo hi
      ↔ InOrder Draft.Within lo hi (first :: rest.map Prod.snd) ∧
        ∀ link ∈ rest, 0 < Operator.precedence link.1 := by
  have hoperands : InOrder (fun lo hi operand => operand lo hi) lo hi
      ((first :: rest.map Prod.snd).map fun d lo hi => d.Within lo hi)
        ↔ InOrder Draft.Within lo hi (first :: rest.map Prod.snd) := InOrder.map_iff
  rw [List.map_cons, List.map_map] at hoperands
  rw [Within, fold_chain, withinChain, List.map_map, List.forall_mem_map]
  exact and_congr_left fun _ => hoperands

/-- What holds of the first operand and of the operands behind the operators. -/
theorem forall_operand {C : Draft → Prop} {first : Draft} {rest : List (String × Draft)}
    (hfirst : C first) (hrest : ∀ link ∈ rest, C link.2) : ∀ d ∈ first :: rest.map Prod.snd, C d := by
  rw [List.forall_mem_cons, List.forall_mem_map]
  exact ⟨hfirst, hrest⟩

theorem widens_within (d : Draft) : Widens Draft.Within d := by
  induction d using Draft.induction with
  | node s k _ =>
      intro lo hi lo' hi' hlo hhi h
      rw [within_node] at h ⊢
      exact ⟨Nat.le_trans hlo h.1, Nat.le_trans h.2.1 hhi, h.2.2⟩
  | chain s first rest ihfirst ihrest =>
      intro lo hi lo' hi' hlo hhi h
      rw [within_chain] at h ⊢
      exact ⟨h.1.widen (forall_operand ihfirst ihrest) hlo hhi, h.2⟩

theorem Within.le {d : Draft} (h : d.Within lo hi) : lo ≤ hi := by
  cases d with
  | node s k =>
      rw [within_node] at h
      exact Nat.le_trans h.1 (Nat.le_trans h.2.2.le h.2.1)
  | chain s first rest =>
      rw [within_chain] at h
      exact h.1.le

/-- A node without parts. -/
theorem within_leaf {s : Span} {k : Kind Draft} (hparts : k.children = []) (hlo : lo ≤ s.start)
    (hle : s.start ≤ s.stop) (hhi : s.stop ≤ hi) : (Draft.node s k).Within lo hi := by
  rw [within_node, hparts]
  exact ⟨hlo, hhi, hle⟩

/-- Joining operands that stand in order along a tree of operators. -/
theorem within_join (g : Grouping (Ast Span)) :
    ∀ {lo hi : Nat}, InOrder (Ast.Within id) lo hi g.leaves → (g.fold join).Within id lo hi := by
  induction g with
  | leaf a =>
      rintro lo hi ⟨mid, -, ha, hle⟩
      exact a.widens_within (Nat.le_refl lo) hle ha
  | branch op l r ihl ihr =>
      intro lo hi h
      obtain ⟨mid, hl, hr⟩ := InOrder.of_append h
      have hleft := (Ast.within_iff _).1 (ihl hl)
      have hright := (Ast.within_iff _).1 (ihr hr)
      -- The span of the join begins and ends where its operands do, so each of them stands between
      -- that end and the place between them.
      have hleft' : (l.fold join).Within id (l.fold join).note.start mid :=
        (Ast.within_iff _).2 ⟨Nat.le_refl _, hleft.2⟩
      have hright' : (r.fold join).Within id mid (r.fold join).note.stop :=
        (Ast.within_iff _).2 ⟨hright.1, Nat.le_refl _, hright.2.2⟩
      rw [Grouping.fold, join, Ast.within_node]
      exact ⟨hleft.1, hright.2.1, mid, hleft'.le, hleft', _, hright'.le, hright', Nat.le_refl _⟩

/-- Grouping the operators of chains keeps the operands in place. -/
theorem within_resolve (d : Draft) :
    ∀ {lo hi : Nat}, d.Within lo hi → d.resolve.Within id lo hi := by
  induction d using Draft.induction with
  | node s k ih =>
      intro lo hi h
      rw [within_node] at h
      rw [resolve_node, Ast.within_node, Kind.children_map, InOrder.map_iff]
      exact ⟨h.1, h.2.1, h.2.2.imp fun c hc _ _ => ih c hc⟩
  | chain s first rest ihfirst ihrest =>
      intro lo hi h
      rw [within_chain] at h
      have hoperand : ∀ d ∈ first :: rest.map Prod.snd, ∀ {lo hi : Nat}, d.Within lo hi →
          d.resolve.Within id lo hi := forall_operand ihfirst ihrest
      rw [resolve_chain, Grouping.ofChain_map]
      refine within_join _ ?_
      rw [Grouping.leaves_map, Grouping.leaves_ofChain h.2, InOrder.map_iff]
      exact h.1.imp fun d hd _ _ => hoperand d hd

end Draft

/-! ## Pieces between two offsets -/

namespace Piece

/-- The piece stands between `lo` and `hi`, with its drafts in order, and an operator of a chain is a
known one. -/
def Lies (lo hi : Nat) : Piece → Prop
  | .token rule s text =>
      lo ≤ s.start ∧ s.start ≤ s.stop ∧ s.stop ≤ hi ∧
        (rule = .binaryOp → 0 < Operator.precedence text)
  | .draft d => d.Within lo hi
  | .names _ => lo ≤ hi
  | .superclass d => d.Within lo hi
  | .computed d => d.Within lo hi
  | .arguments stop ds => InOrder Draft.Within lo stop ds ∧ stop ≤ hi
  | .dot stop _ => lo ≤ stop ∧ stop ≤ hi
  | .index stop d => d.Within lo stop ∧ stop ≤ hi

variable {p : Piece} {lo hi start : Nat} {span : Span} {ps : List Piece} {d d' : Draft}

theorem widens_lies (p : Piece) : Widens Lies p := by
  intro lo hi lo' hi' hlo hhi h
  cases p with
  | token rule s text =>
      exact ⟨Nat.le_trans hlo h.1, h.2.1, Nat.le_trans h.2.2.1 hhi, h.2.2.2⟩
  | draft d => exact d.widens_within hlo hhi h
  | names ns => exact Nat.le_trans hlo (Nat.le_trans h hhi)
  | superclass d => exact d.widens_within hlo hhi h
  | computed d => exact d.widens_within hlo hhi h
  | arguments stop ds =>
      exact ⟨h.1.widen (fun d _ => d.widens_within) hlo (Nat.le_refl _), Nat.le_trans h.2 hhi⟩
  | dot stop name => exact ⟨Nat.le_trans hlo h.1, Nat.le_trans h.2 hhi⟩
  | index stop d => exact ⟨d.widens_within hlo (Nat.le_refl _) h.1, Nat.le_trans h.2 hhi⟩

/-- The draft of a piece stands where the piece does. -/
theorem Lies.draft? (h : p.Lies lo hi) (hd : p.draft? = some d) : d.Within lo hi := by
  unfold Piece.draft? at hd
  split at hd <;> cases hd
  case h_1 => exact h
  case h_3 s t =>
    unfold stringKind
    split <;> exact Draft.within_leaf rfl h.1 h.2.1 h.2.2.1
  all_goals exact Draft.within_leaf rfl h.1 h.2.1 h.2.2.1

theorem Lies.le (h : p.Lies lo hi) : lo ≤ hi := by
  cases p with
  | token rule s text => exact Nat.le_trans h.1 (Nat.le_trans h.2.1 h.2.2.1)
  | draft d => exact Draft.Within.le h
  | names ns => exact h
  | superclass d => exact Draft.Within.le h
  | computed d => exact Draft.Within.le h
  | arguments stop ds => exact Nat.le_trans h.1.le h.2
  | dot stop name => exact Nat.le_trans h.1 h.2
  | index stop d => exact Nat.le_trans h.1.le h.2

/-- The drafts of a piece stand in order where the piece does. -/
theorem Lies.parts (h : p.Lies lo hi) : InOrder Draft.Within lo hi p.parts := by
  cases hd : p.draft? with
  | some d =>
      rw [parts_of_draft? hd]
      exact .singleton h.le (h.draft? hd)
  | none =>
      cases p with
      | draft d => cases hd
      | superclass d => exact .singleton h.le h
      | computed d => exact .singleton h.le h
      | arguments stop ds => exact h.1.widen (fun d _ => d.widens_within) (Nat.le_refl _) h.2
      | index stop d =>
          exact .singleton h.le (d.widens_within (Nat.le_refl _) h.2 h.1)
      -- The text of a token that makes no draft, such as an operator, still takes up its place.
      | token rule s text =>
          rw [parts_token, hd]
          exact h.le
      | names ns => exact h.le
      | dot stop name => exact h.le

/-- The operands of a chain stand in order, and its operators are known ones. -/
theorem within_links? {links : List (String × Draft)} (hps : InOrder Lies lo hi ps)
    (h : links? ps = some links) :
    InOrder Draft.Within lo hi (links.map Prod.snd) ∧
      ∀ link ∈ links, 0 < Operator.precedence link.1 := by
  fun_induction links? ps generalizing links lo with
  | case1 =>
      cases h
      exact ⟨hps, by simp⟩
  | case2 s op operand ps d ls hls hd ih =>
      cases h
      obtain ⟨mid, hmid, hop, mid', hmid', hoperand, hrest⟩ := hps
      obtain ⟨hoperands, hknown⟩ := ih hrest hls
      refine ⟨⟨mid', Nat.le_trans hmid hmid', ?_, hoperands⟩, ?_⟩
      · exact d.widens_within hmid (Nat.le_refl _) (hoperand.draft? hd)
      · exact List.forall_mem_cons.2 ⟨hop.2.2.2 rfl, hknown⟩
  | case3 => cases h
  | case4 => cases h

/-- Operators before an operand: each node begins at its operator and ends where the last piece may. -/
theorem within_prefixed? {stop : Nat} (hps : InOrder Lies lo stop ps)
    (h : prefixed? stop ps = some d) : d.Within lo stop := by
  fun_induction prefixed? stop ps generalizing d lo with
  | case1 => cases h
  | case2 p => exact (hps.of_mem widens_lies List.mem_cons_self).draft? h
  | case3 s op ps hne ih =>
      obtain ⟨e, he, rfl⟩ := Option.map_eq_some_iff.1 h
      obtain ⟨mid, -, hop, hrest⟩ := hps
      -- The operand stands behind the operator, and so behind the start of the node.
      have hoperand : e.Within s.start stop :=
        e.widens_within (Nat.le_trans hop.2.1 hop.2.2.1) (Nat.le_refl _) (ih hrest he)
      rw [Draft.within_node]
      refine ⟨hop.1, Nat.le_refl _, ?_⟩
      split <;> exact .singleton hoperand.le hoperand
  | case4 => cases h

/-- Calls and accesses behind an operand: each node begins where the first one does. -/
theorem within_suffixed? {mid : Nat} (hd : d.Within start mid) (hps : InOrder Lies mid hi ps)
    (h : suffixed? start d ps = some d') : d'.Within start hi := by
  -- What was made so far grows to the right: each suffix puts it into a node as its first part.
  fun_induction suffixed? start d ps generalizing mid with
  | case1 =>
      cases h
      exact d'.widens_within (Nat.le_refl _) hps hd
  | case2 d stop ds ps ih =>
      obtain ⟨mid', -, hargs, hrest⟩ := hps
      exact ih ((Draft.within_node _ _).2 ⟨Nat.le_refl _, hargs.2, mid, hd.le, hd, hargs.1⟩) hrest h
  | case3 d stop name ps ih =>
      obtain ⟨mid', -, hdot, hrest⟩ := hps
      exact ih ((Draft.within_node _ _).2 ⟨Nat.le_refl _, hdot.2, mid, hd.le, hd, hdot.1⟩) hrest h
  | case4 d stop e ps ih =>
      obtain ⟨mid', -, hindex, hrest⟩ := hps
      exact ih ((Draft.within_node _ _).2
        ⟨Nat.le_refl _, hindex.2, mid, hd.le, hd, .singleton hindex.1.le hindex.1⟩) hrest h
  | case5 => cases h

/-- Every rule makes a piece of its span from pieces in order. -/
theorem assembleParts_lies {rule : Rule} {text : Unit → String}
    (h : assembleParts rule span text ps = some p) (hps : InOrder Lies span.start span.stop ps)
    (htext : rule = .binaryOp → 0 < Operator.precedence (text ())) :
    p.Lies span.start span.stop := by
  have hparts : InOrder Draft.Within span.start span.stop (ps.flatMap parts) :=
    hps.flatMap Draft.widens_within fun _ _ _ => Lies.parts
  have hmem : ∀ q ∈ ps, q.Lies span.start span.stop := fun q hq => hps.of_mem widens_lies hq
  cases assembled_of_assembleParts h with
  | token => exact ⟨Nat.le_refl _, hps.le, Nat.le_refl _, htext⟩
  | names _ => exact hps.le
  | dot name => exact ⟨hps.le, Nat.le_refl _⟩
  | same _ hp => exact hmem p hp
  | layer _ hchildren _ =>
      exact (Draft.within_node _ _).2
        ⟨Nat.le_refl _, Nat.le_refl _, hparts.sublist Draft.widens_within hchildren⟩
  | @shorthand name _ =>
      have hvalue := Draft.within_leaf (k := .ident name) rfl (Nat.le_refl _) hps.le (Nat.le_refl _)
      exact (Draft.within_node _ _).2 ⟨Nat.le_refl _, Nat.le_refl _, .singleton hps.le hvalue⟩
  | superclass _ hq hd => exact (hmem _ hq).draft? hd
  | computed _ hq hd => exact (hmem _ hq).draft? hd
  | index _ hq hd => exact ⟨(hmem _ hq).draft? hd, Nat.le_refl _⟩
  | arguments _ hds => exact ⟨parts_of_mapM hds ▸ hparts, Nat.le_refl _⟩
  | @chain first rest d links _ hpieces hd hlinks =>
      subst hpieces
      obtain ⟨mid, hmid, hfirst, hrest⟩ := hps
      obtain ⟨hoperands, hknown⟩ := within_links? hrest hlinks
      cases links with
      -- An operand alone keeps its own span, which may be smaller than that of the rule.
      | nil => exact d.widens_within (Nat.le_refl _) hoperands (hfirst.draft? hd)
      | cons link links =>
          exact (Draft.within_chain _ _ _).2 ⟨⟨mid, hmid, hfirst.draft? hd, hoperands⟩, hknown⟩
  | prefixed _ hd => exact within_prefixed? hps hd
  | @suffixed first rest d d' _ hpieces hd hresult =>
      subst hpieces
      obtain ⟨mid, -, hfirst, hrest⟩ := hps
      exact within_suffixed? (hfirst.draft? hd) hrest hresult

theorem assemble_lies {rule : Rule} {text : Unit → String} (h : assemble rule span text ps = some p)
    (hps : InOrder Lies span.start span.stop ps)
    (htext : rule = .binaryOp → 0 < Operator.precedence (text ())) :
    p.Lies span.start span.stop :=
  assembleParts_lies h (hps.sublist widens_lies List.filter_sublist) htext

/-! ## Captures -/

/-- Every operator of the grammar is a known one. -/
theorem precedence_of_reads {start stop : Nat} {input : List Char}
    (h : Peg.Reads grammar .binaryOp start stop input) (inner : List (Capture Rule)) :
    0 < Operator.precedence (Capture.mk Rule.binaryOp start stop input inner).text := by
  have hknown : ∃ words, (Rule.define .binaryOp).body.spellings = some words ∧
      ∀ word ∈ words, 0 < Operator.precedence (String.ofList word) := ⟨_, rfl, by decide +kernel⟩
  obtain ⟨words, hwords, hknown⟩ := hknown
  obtain ⟨word, hword, htext⟩ := h.text_eq rfl hwords inner
  rw [htext]
  exact hknown word hword

/-- Captures in order make up pieces in order. -/
theorem ofCaptures_lies {mode : Mode} {cs : List (Capture Rule)} (hcs : Laid grammar lo hi cs) :
    ∀ {ps : List Piece}, ofCaptures mode cs = .ok ps → InOrder Lies lo hi ps := by
  induction hcs with
  | nil hle =>
      intro ps h
      cases h
      exact hle
  | @cons lo hi rule start stop input inner cs hlo hreads hinner hrest ihinner ihrest =>
      intro ps h
      obtain ⟨p, ps, rfl, hp, hps⟩ := ofCaptures_cons h
      obtain ⟨parts, hparts, hp⟩ := assemble_of_ofCapture hp
      have hlies : p.Lies start stop := by
        refine assemble_lies hp (ihinner hparts) ?_
        rintro rfl
        exact precedence_of_reads hreads []
      refine ⟨stop, Nat.le_trans hlo hlies.le, ?_, ihrest hps⟩
      exact p.widens_lies hlo (Nat.le_refl _) hlies

end Piece

/-! ## Programs that were read -/

/-- The statements of a text stand in it in order. -/
theorem draftsIn_within {mode : Mode} {text : String} {body : List Draft}
    (h : draftsIn mode text = .ok body) : InOrder Draft.Within 0 text.utf8ByteSize body := by
  obtain ⟨c, start, stop, input, inner, reach, ps, hmatch, hps, hbody⟩ := captures_of_draftsIn h
  have hpasses := (Peg.matches_of_run hmatch).passes
  obtain ⟨word, hafter⟩ := hpasses.after
  -- The match ends inside of the text.
  have hend : c.offset ≤ text.utf8ByteSize := by
    have hoffset : c.offset = 0 + String.utf8Len word := hafter.offset_eq
    have hrest : text.toList = word ++ c.rest := hafter.rest_eq
    rw [← String.ofList_toList (s := text), String.utf8ByteSize_ofList, hrest, String.utf8Len_append]
    omega
  cases hpasses.laid with
  | cons hlo _ hinner hrest =>
      have hpieces := (Piece.ofCaptures_lies hinner hps).sublist Piece.widens_lies
        (List.filter_sublist (p := (!·.isToken .endOfInput)))
      have hdrafts := hpieces.flatMap Draft.widens_within fun _ _ _ => Piece.Lies.parts
      rw [Piece.parts_of_mapM hbody] at hdrafts
      exact hdrafts.widen (fun d _ => d.widens_within) hlo (Nat.le_trans hrest.le hend)

end LogLabel.Program
