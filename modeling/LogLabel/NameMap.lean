set_option autoImplicit false

/-!
# Maps ordered by name

A finite map from names to values whose entries are listed in the order of the
names, by code points. Inserting under a name that is there replaces its value.
-/

namespace LogLabel

namespace NameMap

variable {α : Type}

/-- Whether entries are listed in the order of their names, each name once. -/
def Ordered (es : List (String × α)) : Prop := es.Pairwise fun e e' => e.1 < e'.1

/-- Puts an entry at its place in an ordered list of entries. -/
def insertEntry (name : String) (value : α) : List (String × α) → List (String × α)
  | [] => [(name, value)]
  | (n, v) :: es =>
      if name = n then (name, value) :: es
      else if name < n then (name, value) :: (n, v) :: es
      else (n, v) :: insertEntry name value es

theorem mem_of_mem_insertEntry {name : String} {value : α} {e : String × α} :
    ∀ {es : List (String × α)}, e ∈ insertEntry name value es → e = (name, value) ∨ e ∈ es
  | [], h => Or.inl (List.mem_singleton.1 h)
  | (n, v) :: es, h => by
      rw [insertEntry] at h
      split at h
      · exact (List.mem_cons.1 h).imp_right (List.mem_cons_of_mem _)
      · split at h
        · exact List.mem_cons.1 h
        · rcases List.mem_cons.1 h with rfl | h
          · exact Or.inr List.mem_cons_self
          · exact (mem_of_mem_insertEntry h).imp_right (List.mem_cons_of_mem _)

theorem ordered_insertEntry (name : String) (value : α) {es : List (String × α)}
    (h : Ordered es) : Ordered (insertEntry name value es) := by
  induction es with
  | nil => exact List.pairwise_singleton _ _
  | cons e es ih =>
      obtain ⟨hfirst, hrest⟩ := List.pairwise_cons.1 h
      rw [insertEntry]
      split
      · next heq => exact List.pairwise_cons.2 ⟨heq ▸ hfirst, hrest⟩
      · next hne =>
          split
          · next hlt =>
              refine List.pairwise_cons.2 ⟨fun e' he' => ?_, h⟩
              rcases List.mem_cons.1 he' with rfl | he'
              · exact hlt
              · exact String.lt_trans hlt (hfirst e' he')
          · next hle =>
              refine List.pairwise_cons.2 ⟨fun e' he' => ?_, ih hrest⟩
              rcases mem_of_mem_insertEntry he' with rfl | he'
              · exact String.not_le.1 fun hle' => hne (String.le_antisymm hle' hle)
              · exact hfirst e' he'

end NameMap

/-- A map from names, ordered by name. -/
structure NameMap (α : Type) where
  entries : List (String × α)
  ordered : NameMap.Ordered entries

namespace NameMap

variable {α : Type}

/-- The map without entries. -/
def empty : NameMap α := ⟨[], .nil⟩

/-- Puts a value under a name. -/
def insert (m : NameMap α) (name : String) (value : α) : NameMap α :=
  ⟨insertEntry name value m.entries, ordered_insertEntry name value m.ordered⟩

/-- The value under a name. -/
def get? (m : NameMap α) (name : String) : Option α := m.entries.lookup name

/-- Whether there is a value under a name. -/
def contains (m : NameMap α) (name : String) : Bool := (m.get? name).isSome

/-- The map of a list of entries, of which a later one replaces an earlier one. -/
def ofList (es : List (String × α)) : NameMap α :=
  es.foldl (fun m (name, value) => m.insert name value) empty

/-- Number of entries. -/
def size (m : NameMap α) : Nat := m.entries.length

/-- Whether there is no entry. -/
def isEmpty (m : NameMap α) : Bool := m.entries.isEmpty

end NameMap

end LogLabel
