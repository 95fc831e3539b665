import LogLabel.Proofs.Expansion.Content
import LogLabel.Proofs.Program.Linked
import LogLabel.Proofs.Program.Paths

set_option autoImplicit false

/-!
# Which violation is reported

The body of a label is searched for forbidden constructs, and the first one that is met is
reported.

* `Ast.mirrored`: the parts of a program, a node before its parts and the last part first.
* `Purity.Searched known body d`: the search of the body of a label looks at `d`.
* `Purity.search`: the search as a loop over a stack of nodes. It ends, and finds what the recursion
  finds (`Purity.search_body`).
* `Purity.check_reports`: a body is refused just if a forbidden construct is searched, and the
  reported one is the first of them in the mirrored order.
-/

namespace LogLabel

open Program (Ast Kind NodeId Span Tree)

/-! ## The mirrored order -/

namespace Program.Ast

variable {ι : Type}

/-- The parts of a program, a node before its parts and the parts of a node from the last to the
first. -/
def mirrored : Ast ι → List (Ast ι) :=
  para fun i k => .node i (k.map Prod.fst) :: k.children.reverse.flatMap Prod.snd

theorem mirrored_node (i : ι) (k : Kind (Ast ι)) :
    (Ast.node i k).mirrored = .node i k :: k.children.reverse.flatMap mirrored := by
  rw [mirrored, para_node, Kind.map_map, Kind.map_id, Kind.children_map, ← List.map_reverse,
    List.flatMap_map]

theorem mem_mirrored {d : Ast ι} (a : Ast ι) : d ∈ a.mirrored ↔ d.Part a := by
  induction a using Ast.induction with
  | node i k ih =>
      rw [mirrored_node, List.mem_cons, List.mem_flatMap]
      constructor
      · rintro (rfl | ⟨c, hc, hd⟩)
        · exact .self
        · have hc := List.mem_reverse.1 hc
          exact .inside hc ((ih c hc).1 hd)
      · intro hd
        cases hd with
        | self => exact Or.inl rfl
        | inside hc hd => exact Or.inr ⟨_, List.mem_reverse.2 hc, (ih _ hc).2 hd⟩

theorem nodup_mirrored {a : Ast ι} (h : a.notes.Nodup) : a.mirrored.Nodup := by
  -- The mirrored order lists the notes of the program in another order.
  have hperm : ∀ a : Ast ι, (a.mirrored.map note).Perm a.notes := by
    intro a
    induction a using Ast.induction with
    | node i k ih =>
        have hreverse := (List.reverse_perm k.children).flatMap_right mirrored
        rw [mirrored_node, notes_node, List.map_cons]
        refine .cons _ ((hreverse.map note).trans ?_)
        rw [List.map_flatMap]
        exact .flatMap_left _ ih
  exact .of_map note ((hperm a).nodup_iff.2 h)

/-- What comes later in the mirrored order stands inside of the earlier part, or before it in the
text. -/
theorem pairwise_mirrored {span : ι → Span} (a : Ast ι) :
    ∀ {lo hi : Nat}, a.Within span lo hi →
      a.mirrored.Pairwise fun d e => e.Part d ∨ (span e.note).stop ≤ (span d.note).start := by
  induction a using Ast.induction with
  | node i k ih =>
      intro lo hi h
      rw [within_iff] at h
      obtain ⟨-, -, hchildren⟩ := h
      rw [mirrored_node, List.pairwise_cons]
      refine ⟨fun e he => Or.inl ?_, ?_⟩
      · rw [← mem_mirrored, mirrored_node]
        exact List.mem_cons_of_mem _ he
      · rw [List.pairwise_flatMap, List.pairwise_reverse]
        refine ⟨fun c hc => ?_, hchildren.pairwise widens_within fun {lo mid hi c d} hc hd => ?_⟩
        · have hc := List.mem_reverse.1 hc
          exact ih c hc (hchildren.of_mem widens_within hc)
        · -- The earlier part of the node ends before the later one starts.
          intro x hx y hy
          have hx' := (within_iff x).1 (hd.part ((mem_mirrored d).1 hx))
          have hy' := (within_iff y).1 (hc.part ((mem_mirrored c).1 hy))
          exact Or.inr (Nat.le_trans hy'.2.1 hx'.1)

end Program.Ast

namespace Purity

variable {ι : Type} {known : String → Bool}

/-! ## The searched region -/

/-- The parts that the search of the body of a label looks at: the body, and below a part that it looks
at all parts but labels of log statements. -/
inductive Searched (known : String → Bool) (body : Ast ι) : Ast ι → Prop
  | body : Searched known body body
  | part {a d : Ast ι} (h : Searched known body a) (hd : d ∈ a.kind.children)
      (hlabel : isKnownLabel known d.kind = false) : Searched known body d

theorem Searched.trans {a b d : Ast ι} (h : Searched known a b) (h' : Searched known b d) :
    Searched known a d := by
  induction h' with
  | body => exact h
  | part _ hd hlabel ih => exact .part ih hd hlabel

/-- What is searched from a part on, in the order of the search: nothing below a known label. -/
def searchedFrom (known : String → Bool) : Ast ι → List (Ast ι) :=
  Ast.para fun i k =>
    if isKnownLabel known k then []
    else .node i (k.map Prod.fst) :: k.children.reverse.flatMap Prod.snd

/-- What is searched of the body of a label, in the order of the search. -/
def searchedIn (known : String → Bool) (body : Ast ι) : List (Ast ι) :=
  body :: body.kind.children.reverse.flatMap (searchedFrom known)

theorem searchedFrom_node (i : ι) (k : Kind (Ast ι)) :
    searchedFrom known (.node i k) =
      if isKnownLabel known k then [] else searchedIn known (.node i k) := by
  rw [searchedFrom, Ast.para_node, Expansion.isKnownLabel_map, Kind.map_map, Kind.map_id,
    Kind.children_map, ← List.map_reverse, List.flatMap_map]
  rfl

theorem searchedFrom_eq (a : Ast ι) :
    searchedFrom known a = if isKnownLabel known a.kind then [] else searchedIn known a := by
  cases a with
  | node i k => exact searchedFrom_node i k

theorem mem_searchedIn {body d : Ast ι} : d ∈ searchedIn known body ↔ Searched known body d := by
  have hfrom : ∀ a d : Ast ι, d ∈ searchedFrom known a →
      isKnownLabel known a.kind = false ∧ Searched known a d := by
    intro a
    induction a using Ast.induction with
    | node i k ih =>
        intro d hd
        rw [searchedFrom_node] at hd
        split at hd
        · cases hd
        · next hlabel =>
            refine ⟨by simpa using hlabel, ?_⟩
            rcases List.mem_cons.1 hd with rfl | hd
            · exact .body
            · obtain ⟨c, hc, hd⟩ := List.mem_flatMap.1 hd
              have hc := List.mem_reverse.1 hc
              obtain ⟨hclabel, hcd⟩ := ih c hc d hd
              exact .trans (.part .body hc hclabel) hcd
  constructor
  · intro hd
    rcases List.mem_cons.1 hd with rfl | hd
    · exact .body
    · obtain ⟨c, hc, hd⟩ := List.mem_flatMap.1 hd
      obtain ⟨hlabel, hcd⟩ := hfrom c d hd
      exact .trans (.part .body (List.mem_reverse.1 hc) hlabel) hcd
  · -- A searched part is listed, and with it all that is searched from it on.
    have hclosed : ∀ {a d : Ast ι}, Searched known a d →
        ∀ e ∈ searchedIn known d, e ∈ searchedIn known a := by
      intro a d h
      induction h with
      | body => exact fun e he => he
      | @part b d _ hd hlabel ih =>
          intro e he
          refine ih e (List.mem_cons_of_mem _ (List.mem_flatMap.2 ⟨d, List.mem_reverse.2 hd, ?_⟩))
          rwa [searchedFrom_eq, if_neg (by simpa using hlabel)]
    exact fun h => hclosed h d List.mem_cons_self

/-- The order of the search is the mirrored one, with what is not searched left out. -/
theorem searchedIn_sublist (a : Ast ι) : (searchedIn known a).Sublist a.mirrored := by
  induction a using Ast.induction with
  | node i k ih =>
      rw [Ast.mirrored_node]
      refine .cons_cons _ (List.Sublist.flatMap_right _ fun c hc => ?_)
      rw [searchedFrom_eq]
      split
      · exact List.nil_sublist _
      · exact ih c (List.mem_reverse.1 hc)

/-- A forbidden construct with the address of its node. -/
def violation? (d : Ast ι) : Option (ι × String) :=
  (construct? d.kind).map fun construct => (d.note, construct)

/-- The violations of a layer are its own one and those of its parts. -/
theorem violationsOf_map (g : Ast NodeId → List (NodeId × String)) (i : NodeId)
    (k : Kind (Ast NodeId)) :
    violationsOf i (k.map g) =
      (violation? (.node i k)).toList ++ k.children.reverse.flatMap g := by
  rw [violationsOf, Expansion.Structural.construct?_map, Kind.children_map, ← List.map_reverse,
    List.flatMap_def]
  rfl

theorem filterMap_searchedIn {body : Ast NodeId} :
    (searchedIn known body).filterMap violation? =
      (violation? body).toList ++
        body.kind.children.reverse.flatMap fun c => (searchedFrom known c).filterMap violation? := by
  rw [searchedIn, ← List.singleton_append, List.filterMap_append, List.filterMap_flatMap]
  congr 1

/-- The violations of a body are the forbidden constructs among what is searched. -/
theorem violations_eq_filterMap (body : Ast NodeId) :
    violations known body = (searchedIn known body).filterMap violation? := by
  have hfrom : ∀ a : Ast NodeId,
      a.fold (violationsStep known) = (searchedFrom known a).filterMap violation? := by
    intro a
    induction a using Ast.induction with
    | node i k ih =>
        rw [Ast.fold_node, violationsStep, Expansion.isKnownLabel_map, searchedFrom_node]
        split
        · rfl
        · rw [violationsOf_map, filterMap_searchedIn]
          exact congrArg _ (List.flatMap_congr fun c hc => ih c (List.mem_reverse.1 hc))
  cases body with
  | node i k =>
      rw [violations, Ast.foldKind_eq_map, Ast.note_node, Ast.kind_node, violationsOf_map,
        filterMap_searchedIn]
      exact congrArg _ (List.flatMap_congr fun c _ => hfrom c)

theorem violation?_eq_none_iff {d : Ast ι} : violation? d = none ↔ construct? d.kind = none :=
  Option.map_eq_none_iff

/-- The body of a label is accepted exactly when nothing that is searched is a forbidden construct. -/
theorem violations_eq_nil_iff_searched (body : Ast NodeId) :
    violations known body = [] ↔ ∀ d, Searched known body d → construct? d.kind = none := by
  rw [violations_eq_filterMap, List.filterMap_eq_nil_iff]
  exact forall_congr' fun d => by rw [mem_searchedIn, violation?_eq_none_iff]

/-- A body that was accepted has no violations. -/
theorem violations_eq_nil_of_check {t : Tree} {label filename : String} {body : Ast NodeId}
    (hbody : t.Held body) (h : check t known label filename body.note = .ok ()) :
    violations known body = [] := by
  rw [check, hbody.reading_eq] at h
  split at h
  · next hhead => exact List.head?_eq_none_iff.1 hhead
  · cases h

/-- All parts of a searched program without labels are searched. -/
theorem Searched.of_part {body a d : Ast ι} (h : Searched known body a) (hd : d.Part a) :
    (∀ c ∈ a.kind.children, ∀ e : Ast ι, e.Part c → isKnownLabel known e.kind = false) →
      Searched known body d := by
  induction hd with
  | self => exact fun _ => h
  | @inside a c hc _ ih =>
      intro hplain
      exact ih (.part h hc (hplain c hc c .self)) fun c' hc' e he => hplain c hc e (.inside hc' he)

/-! ## The search as a loop -/

/-- The search over a stack of nodes, the next one in front. A known label other than the body is
skipped, a forbidden construct is found, and any other node is replaced by its parts, the last one
in front. -/
def search (t : Tree) (known : String → Bool) (body : NodeId) :
    Nat → List NodeId → Option (Option (NodeId × String))
  | 0, _ => none
  | _ + 1, [] => some none
  | fuel + 1, id :: pending =>
      if id ≠ body ∧ isKnownLabel known (t.kind id) = true then search t known body fuel pending
      else
        match construct? (t.kind id) with
        | some construct => some (some (id, construct))
        | none => search t known body fuel ((t.kind id).children.reverse ++ pending)

/-- The loop goes through the nodes on the stack as the recursion goes through their programs. -/
theorem search_eq {t : Tree} {body : NodeId} {fuel : Nat} :
    ∀ {as : List (Ast NodeId)}, (∀ a ∈ as, t.Holds a) → body ∉ as.flatMap Ast.notes →
      (as.flatMap Ast.notes).length < fuel →
      search t known body fuel (as.map Ast.note) =
        some ((as.flatMap (searchedFrom known)).findSome? violation?) := by
  -- Each turn takes a node off the stack and puts at most its parts there, so that the stack holds
  -- fewer nodes of programs afterwards, and the fuel is enough.
  induction fuel with
  | zero => intro as _ _ hfuel; cases hfuel
  | succ fuel ih =>
      intro as hholds hbody hfuel
      cases as with
      | nil => rfl
      | cons a as =>
          obtain ⟨i, k⟩ := a
          have hkind : t.kind i = k.map Ast.note := (hholds _ List.mem_cons_self).kind_eq
          rw [List.flatMap_cons, List.mem_append, not_or, Ast.notes_node, List.mem_cons, not_or]
            at hbody
          rw [List.flatMap_cons, Ast.notes_node, List.cons_append, List.length_cons,
            List.length_append] at hfuel
          rw [List.map_cons, search, Ast.note_node, hkind, Expansion.isKnownLabel_map,
            Expansion.Structural.construct?_map, List.flatMap_cons, searchedFrom_node]
          -- The body is not on the stack any more, so that a known label is always skipped here.
          by_cases hlabel : isKnownLabel known k = true
          · rw [if_pos ⟨Ne.symm hbody.1.1, hlabel⟩, if_pos hlabel]
            exact ih (fun b hb => hholds b (List.mem_cons_of_mem _ hb)) hbody.2 (by omega)
          · rw [if_neg fun h => hlabel h.2, if_neg hlabel, searchedIn, List.cons_append,
              List.findSome?_cons]
            cases hconstruct : construct? k with
            | some construct => simp [violation?, hconstruct]
            | none =>
                have hnone : violation? (.node i k) = none := violation?_eq_none_iff.2 hconstruct
                have hstack : (k.map Ast.note).children.reverse ++ as.map Ast.note =
                    (k.children.reverse ++ as).map Ast.note := by
                  rw [Kind.children_map, ← List.map_reverse, ← List.map_append]
                have hperm := (List.reverse_perm k.children).flatMap_right Ast.notes
                rw [hnone, hstack, ih, List.flatMap_append]
                · rfl
                · intro b hb
                  rcases List.mem_append.1 hb with hb | hb
                  · exact (hholds _ List.mem_cons_self).part (List.mem_reverse.1 hb)
                  · exact hholds b (List.mem_cons_of_mem _ hb)
                · rw [List.flatMap_append, List.mem_append, hperm.mem_iff]
                  exact not_or.2 ⟨hbody.1.2, hbody.2⟩
                · rw [List.flatMap_append, List.length_append, hperm.length_eq]
                  omega

/-- The loop that starts with the body ends, and finds the first violation. -/
theorem search_body {t : Tree} {body : Ast NodeId} (h : t.Held body) :
    search t known body.note (t.size + 1) [body.note] = some (violations known body).head? := by
  have hkind : t.kind body.note = body.kind.map Ast.note := h.holds.kind_eq
  have hnodup := h.nodup
  rw [Ast.notes_eq_cons, List.nodup_cons] at hnodup
  have hlength := Tree.length_le_of_stored h.nodup h.holds.stored
  rw [Ast.notes_eq_cons, List.length_cons] at hlength
  have hperm := (List.reverse_perm body.kind.children).flatMap_right Ast.notes
  rw [violations_eq_filterMap, List.head?_filterMap, searchedIn, List.findSome?_cons, search,
    if_neg fun h => h.1 rfl, hkind, Expansion.Structural.construct?_map]
  cases hconstruct : construct? body.kind with
  | some construct => simp [violation?, hconstruct]
  | none =>
      have hnone : violation? body = none := violation?_eq_none_iff.2 hconstruct
      rw [hnone, List.append_nil, Kind.children_map, ← List.map_reverse]
      refine search_eq (fun c hc => h.holds.part (List.mem_reverse.1 hc)) ?_ ?_
      · rw [hperm.mem_iff]
        exact hnodup.1
      · rw [hperm.length_eq]
        exact hlength

/-! ## What is reported -/

/-- The first entry of a list with a value, in a longer list without repetition. -/
theorem exists_first_of_sublist {α β : Type} {f : α → Option β} {l l' : List α} {b : β}
    (h : l.Sublist l') (hnodup : l'.Nodup) (hb : l.findSome? f = some b) :
    ∃ before d after, l' = before ++ d :: after ∧ d ∈ l ∧ f d = some b ∧
      ∀ e ∈ before, e ∈ l → f e = none := by
  -- What the longer list has in addition is not in the shorter one, since nothing is repeated.
  induction h with
  | slnil => cases hb
  | @cons l l' x h ih =>
      rw [List.nodup_cons] at hnodup
      obtain ⟨before, d, after, rfl, hd, hfd, hbefore⟩ := ih hnodup.2 hb
      refine ⟨x :: before, d, after, rfl, hd, hfd, fun e he hel => ?_⟩
      rcases List.mem_cons.1 he with rfl | he
      · exact absurd (h.subset hel) hnodup.1
      · exact hbefore e he hel
  | @cons_cons l l' x h ih =>
      rw [List.nodup_cons] at hnodup
      rw [List.findSome?_cons] at hb
      cases hx : f x with
      | some c =>
          rw [hx] at hb
          obtain rfl := Option.some.inj hb
          exact ⟨[], x, l', rfl, List.mem_cons_self, hx, fun e he => by cases he⟩
      | none =>
          rw [hx] at hb
          obtain ⟨before, d, after, rfl, hd, hfd, hbefore⟩ := ih hnodup.2 hb
          refine ⟨x :: before, d, after, rfl, List.mem_cons_of_mem _ hd, hfd, fun e he hel => ?_⟩
          rcases List.mem_cons.1 he with rfl | he
          · exact hx
          · have hne : e ≠ x := fun heq => hnodup.1 (heq ▸ List.mem_append_left _ he)
            exact hbefore e he ((List.mem_cons.1 hel).resolve_left hne)

/-- The first violation is the first forbidden construct in the mirrored order among what is
searched. -/
theorem exists_first_violation {body : Ast NodeId} {i : NodeId} {construct : String}
    (hnodup : body.notes.Nodup) (h : (violations known body).head? = some (i, construct)) :
    ∃ before d after, body.mirrored = before ++ d :: after ∧ Searched known body d ∧ d.note = i ∧
      construct? d.kind = some construct ∧
      ∀ e ∈ before, Searched known body e → construct? e.kind = none := by
  rw [violations_eq_filterMap, List.head?_filterMap] at h
  obtain ⟨before, d, after, hsplit, hd, hviolation, hbefore⟩ :=
    exists_first_of_sublist (searchedIn_sublist body) (Ast.nodup_mirrored hnodup) h
  obtain ⟨construct', hconstruct, heq⟩ := Option.map_eq_some_iff.1 hviolation
  cases heq
  refine ⟨before, d, after, hsplit, mem_searchedIn.1 hd, rfl, hconstruct, fun e he hsearched => ?_⟩
  exact violation?_eq_none_iff.1 (hbefore e he (mem_searchedIn.2 hsearched))

/-- The check of the body of a label in a tree that was read. It is the loop over a stack of nodes.
It succeeds exactly when nothing that is searched is a forbidden construct. Otherwise it reports, at
its span and with its line and its name, the first forbidden construct in the mirrored order: any
other one stands inside of it or before it, and the span lies in that of the body. -/
theorem check_reports {mode : Program.Mode} {text : String} {t : Tree}
    (hparse : Program.parse mode text = .ok t) (known : String → Bool) (label filename : String)
    {body : NodeId} (hbody : body.index < t.size) :
    search t known body (t.size + 1) [body] = some (violations known (t.reading body)).head? ∧
    (check t known label filename body = .ok () ↔
      ∀ d, Searched known (t.reading body) d → construct? d.kind = none) ∧
    ∀ diagnostic, check t known label filename body = .error diagnostic →
      ∃ before d after construct, (t.reading body).mirrored = before ++ d :: after ∧
        Searched known (t.reading body) d ∧ construct? d.kind = some construct ∧
        (∀ e ∈ before, Searched known (t.reading body) e → construct? e.kind = none) ∧
        (∀ e, Searched known (t.reading body) e → construct? e.kind ≠ none →
          e.Part d ∨ (t.span e.note).stop ≤ (t.span d.note).start) ∧
        (t.span body).start ≤ (t.span d.note).start ∧ (t.span d.note).stop ≤ (t.span body).stop ∧
        diagnostic.span = some (t.span d.note) ∧
        diagnostic.cause = .sideEffect construct label filename (t.lineOf d.note) ∧
        diagnostic.cause.help = some (construct ++ " inside `" ++ label ++ ":` at " ++ filename ++
          ":" ++ toString (t.lineOf d.note)) := by
  obtain ⟨a, hrooted, hsize, -, hwithin⟩ := Program.parse_whole hparse
  obtain ⟨b, hb, rfl⟩ := Ast.Part.exists_of_mem (hrooted.toHeld.mem_notes_of_size_le hsize hbody)
  have hheld := hrooted.toHeld.of_part hb
  have hplace := hwithin.part hb
  rw [hheld.reading_eq, check, hheld.reading_eq]
  refine ⟨search_body hheld, ?_, fun diagnostic herror => ?_⟩
  · rw [← violations_eq_nil_iff_searched, ← List.head?_eq_none_iff]
    cases (violations known b).head? <;> simp
  · cases hhead : (violations known b).head? with
    | none => rw [hhead] at herror; cases herror
    | some found =>
        obtain ⟨i, construct⟩ := found
        rw [hhead] at herror
        obtain rfl := Except.error.inj herror
        obtain ⟨before, d, after, hsplit, hd, rfl, hconstruct, hbefore⟩ :=
          exists_first_violation hheld.nodup hhead
        have hpart : d.Part b := by
          rw [← Ast.mem_mirrored, hsplit]
          exact List.mem_append_right _ List.mem_cons_self
        have hself : b.Within t.span (t.span b.note).start (t.span b.note).stop :=
          (Ast.within_iff b).2 ⟨Nat.le_refl _, Nat.le_refl _, ((Ast.within_iff b).1 hplace).2.2⟩
        have hinside := (Ast.within_iff d).1 (hself.part hpart)
        have hpairwise := Ast.pairwise_mirrored b hplace
        rw [hsplit, List.pairwise_append, List.pairwise_cons] at hpairwise
        refine ⟨before, d, after, construct, hsplit, hd, hconstruct, hbefore, fun e he hforbidden => ?_,
          hinside.1, hinside.2.1, rfl, rfl, rfl⟩
        -- Another construct that is searched comes later in the mirrored order.
        have hmem : e ∈ before ++ d :: after :=
          hsplit ▸ (searchedIn_sublist b).subset (mem_searchedIn.2 he)
        rcases List.mem_append.1 hmem with hmem | hmem
        · exact absurd (hbefore e hmem he) hforbidden
        · rcases List.mem_cons.1 hmem with rfl | hmem
          · exact Or.inl .self
          · exact hpairwise.2.1.1 e hmem

/-- Of three assignments and updates the one in the label of another log statement is left out, and
the last one of the others is reported. -/
theorem check_reports_last :
    ∃ t, Program.parse .source "debug:{a=b;warn:{c++};f(d=e)}" = .ok t ∧ ∃ diagnostic d,
      check t Expansion.Structural.known "debug" "f.js" ⟨17⟩ = .error diagnostic ∧
      Searched Expansion.Structural.known (t.reading ⟨17⟩) d ∧ diagnostic.span = some ⟨24, 27⟩ ∧
      some (t.span d.note) = some ⟨24, 27⟩ ∧
      diagnostic.cause.help = some "assignment inside `debug:` at f.js:1" := by
  have hcomputed : (Program.parse .source "debug:{a=b;warn:{c++};f(d=e)}").toOption.map (fun t =>
      (t.size, match check t Expansion.Structural.known "debug" "f.js" ⟨17⟩ with
        | .ok _ => none
        | .error diagnostic => some (diagnostic.span, diagnostic.cause.help))) =
      some (19, some (some ⟨24, 27⟩, some "assignment inside `debug:` at f.js:1")) := by
    decide +kernel
  obtain ⟨t, ht, hcheck⟩ := Option.map_eq_some_iff.1 hcomputed
  have hparse := eq_ok_of_toOption ht
  obtain ⟨hsize, hcheck⟩ := Prod.mk.inj hcheck
  cases herror : check t Expansion.Structural.known "debug" "f.js" ⟨17⟩ with
  | ok _ => rw [herror] at hcheck; cases hcheck
  | error diagnostic =>
      rw [herror] at hcheck
      obtain ⟨hspan, hhelp⟩ := Prod.mk.inj (Option.some.inj hcheck)
      have hbody : (⟨17⟩ : NodeId).index < t.size := by
        rw [hsize]
        decide
      obtain ⟨-, -, hreports⟩ :=
        check_reports hparse Expansion.Structural.known "debug" "f.js" hbody
      obtain ⟨_, d, _, _, -, hd, -, -, -, -, -, hdspan, -, -⟩ := hreports diagnostic herror
      exact ⟨t, hparse, diagnostic, d, herror, hd, hspan, hdspan ▸ hspan, hhelp⟩

end Purity

end LogLabel
