import LogLabel.Proofs.Program.Planting

set_option autoImplicit false

/-!
# Names in a program

The names that stand in the nodes of a program: what it declares, what it jumps to, and what it
refers to. Keys are no such names, since a key may be any word.

* `Kind.names`: the names of one layer, which no change of its parts changes.
* `Ast.names` and `Draft.names`: the names of a whole program.
* `Ast.names_mapNotes`, `Draft.names_resolve`: other notes leave the names as they are, and grouping
  the operators of a chain adds none.
-/

namespace LogLabel.Program

variable {α β ι κ : Type}

/-- The names of one layer: an identifier, a label, the target of a jump, a declared variable, the
parameters of a function or method, and the name of a function or class. -/
def Kind.names : Kind α → List String
  | .labeled label _ => [label]
  | .declarator name _ => [name]
  | .breakStmt label => label.toList
  | .continueStmt label => label.toList
  | .function head _ => head.name.toList ++ head.params
  | .classDef name _ _ _ => name.toList
  | .method _ head _ => head.params
  | .ident name => [name]
  | _ => []

@[simp] theorem Kind.names_map (f : α → β) (k : Kind α) : (k.map f).names = k.names := by
  cases k <;> rfl

/-- The names of a layer before the names of its parts. -/
def namesStep (k : Kind (List String)) : List String := k.names ++ k.children.flatten

theorem namesStep_map (f : α → List String) (k : Kind α) :
    namesStep (k.map f) = k.names ++ k.children.flatMap f := by
  rw [namesStep, Kind.names_map, Kind.children_map, List.flatMap_def]

namespace Ast

/-- The names of a program. -/
def names (a : Ast ι) : List String := a.fold fun _ => namesStep

theorem names_node (i : ι) (k : Kind (Ast ι)) :
    (Ast.node i k).names = k.names ++ k.children.flatMap names := by
  rw [names, fold_node]
  exact namesStep_map names k

theorem names_mapNotes (f : ι → κ) (a : Ast ι) : (a.mapNotes f).names = a.names := by
  induction a using Ast.induction with
  | node i k ih =>
      rw [mapNotes_node, names_node, names_node, Kind.names_map, Kind.children_map,
        List.flatMap_map]
      congr 1
      exact List.flatMap_congr ih

end Ast

namespace Draft

/-- The names of the program of a draft. -/
def names (d : Draft) : List String :=
  d.fold (fun _ => namesStep) fun first rest => first ++ rest.flatMap Prod.snd

theorem names_node (s : Span) (k : Kind Draft) :
    (Draft.node s k).names = k.names ++ k.children.flatMap names := by
  rw [names, fold_node]
  exact namesStep_map names k

theorem names_chain (s : Span) (first : Draft) (rest : List (String × Draft)) :
    (Draft.chain s first rest).names = first.names ++ rest.flatMap fun link => link.2.names := by
  rw [names, fold_chain, List.flatMap_map]
  rfl

/-- A chain has the names of its operands. -/
theorem names_ofChain (first : Draft) (links : List (String × Draft)) :
    (ofChain first links).names = first.names ++ links.flatMap fun link => link.2.names := by
  cases links with
  | nil => simp [ofChain]
  | cons link links => exact names_chain _ first (link :: links)

/-- Joining operands along a tree of operators adds no names. -/
theorem names_join (g : Grouping (Ast Span)) : (g.fold join).names = g.leaves.flatMap Ast.names := by
  induction g with
  | leaf a => simp [Grouping.fold, Grouping.leaves]
  | branch op l r ihl ihr =>
      rw [Grouping.fold, join, Ast.names_node, Grouping.leaves, List.flatMap_append, ← ihl, ← ihr]
      simp [Kind.names, Kind.children]

/-- Grouping the operators of a draft adds no names. -/
theorem names_resolve (d : Draft) : d.resolve.names ⊆ d.names := by
  induction d using Draft.induction with
  | node s k ih =>
      rw [resolve_node, Ast.names_node, names_node, Kind.names_map, Kind.children_map,
        List.flatMap_map]
      intro name hname
      rcases List.mem_append.1 hname with hname | hname
      · exact List.mem_append_left _ hname
      · obtain ⟨c, hc, hname⟩ := List.mem_flatMap.1 hname
        exact List.mem_append_right _ (List.mem_flatMap.2 ⟨c, hc, ih c hc hname⟩)
  | chain s first rest ihfirst ihrest =>
      rw [resolve_chain, names_join, names_chain]
      intro name hname
      obtain ⟨a, ha, hname⟩ := List.mem_flatMap.1 hname
      -- An operand that the grouping reaches is the first one or one of the others.
      have hmem := Grouping.leaves_ofChain_subset _ _ ha
      rw [List.map_map] at hmem
      rcases List.mem_cons.1 hmem with rfl | hmem
      · exact List.mem_append_left _ (ihfirst hname)
      · obtain ⟨link, hlink, rfl⟩ := List.mem_map.1 hmem
        exact List.mem_append_right _ (List.mem_flatMap.2 ⟨link, hlink, ihrest link hlink hname⟩)

end Draft

end LogLabel.Program
