import LogLabel.Metadata
import LogLabel.Proofs.Text.Pieces

set_option autoImplicit false

/-!
# What paths lead to

The pieces of a path, read from left to right onto a stack of names: this is what a path means
when nothing is looked up. The components of a path, joining and normalization are compared with
that reading.

* `IsName name`: what can stand between two separators as a name.
* `pieces_render`, `exists_pieces_join`: the pieces of a path that was written or joined.
* `components_render`, `components_join`: the same for components.
* `readPiece`, `evaluate stack path`: the reading of a path onto a stack.
* `IsCanonical path`: an absolute path with nothing left to remove.
* `SourceName.resolve_canonical`: a file is reported under the one canonical path to which its name
  leads from the base.
-/

namespace LogLabel.Path

/-- A name between two separators. -/
structure IsName (name : String) : Prop where
  ne_empty : name ≠ ""
  ne_current : name ≠ "."
  ne_parent : name ≠ ".."
  separator_not_mem : '/' ∉ name.toList

instance (name : String) : Decidable (IsName name) :=
  decidable_of_iff (name ≠ "" ∧ name ≠ "." ∧ name ≠ ".." ∧ '/' ∉ name.toList)
    ⟨fun ⟨hempty, hcurrent, hparent, hseparator⟩ => ⟨hempty, hcurrent, hparent, hseparator⟩,
      fun h => ⟨h.ne_empty, h.ne_current, h.ne_parent, h.separator_not_mem⟩⟩

/-- A name is none of the pieces that have a meaning of their own. -/
theorem IsName.piece {name : String} (h : IsName name) :
    name.toList ≠ [] ∧ name.toList ≠ ['.'] ∧ name.toList ≠ ['.', '.'] := by
  refine ⟨fun heq => h.ne_empty ?_, fun heq => h.ne_current ?_, fun heq => h.ne_parent ?_⟩ <;>
    rw [← String.ofList_toList (s := name), heq]

theorem isName_ofList {piece : List Char} (hempty : piece ≠ []) (hcurrent : piece ≠ ['.'])
    (hparent : piece ≠ ['.', '.']) (hseparator : '/' ∉ piece) : IsName (String.ofList piece) := by
  have hne : ∀ {text : String}, piece ≠ text.toList → String.ofList piece ≠ text := fun hne heq =>
    hne (by rw [← heq, String.toList_ofList])
  refine ⟨hne hempty, hne hcurrent, hne hparent, ?_⟩
  rw [String.toList_ofList]
  exact hseparator

/-! ## Pieces -/

theorem pieces_eq_splitOn (path : String) : pieces path = path.toList.splitOn '/' :=
  Text.split_eq_splitOn '/' path.toList

theorem pieces_ne_nil (path : String) : pieces path ≠ [] := by
  rw [pieces_eq_splitOn]
  exact List.splitOn_ne_nil '/' path.toList

theorem separator_not_mem_of_mem_pieces {path : String} {piece : List Char}
    (h : piece ∈ pieces path) : '/' ∉ piece := by
  rw [pieces_eq_splitOn] at h
  exact (Text.of_mem_splitOn h).1

theorem pieces_append (left right : String) :
    pieces (left ++ "/" ++ right) = pieces left ++ pieces right := by
  have htext : (left ++ "/" ++ right).toList = left.toList ++ '/' :: right.toList := by simp
  rw [pieces_eq_splitOn, htext, List.splitOn_append_cons_self, pieces_eq_splitOn, pieces_eq_splitOn]

/-- An absolute path has nothing before its first separator. -/
theorem head?_pieces_of_isAbsolute {path : String} (h : isAbsolute path = true) :
    (pieces path).head? = some [] := by
  obtain ⟨cs, hcs⟩ := List.head?_eq_some_iff.1 (of_decide_eq_true h)
  rw [pieces_eq_splitOn, hcs]
  rfl

theorem isAbsolute_append {left right : String} (h : left ≠ "") :
    isAbsolute (left ++ right) = isAbsolute left := by
  have hne : left.toList ≠ [] := fun hnil => h (String.toList_eq_nil_iff.1 hnil)
  rw [isAbsolute, isAbsolute, String.toList_append, List.head?_append_of_ne_nil _ hne]

/-- The pieces of a path below a base. A separator at the end of the base is not repeated. -/
theorem exists_pieces_join {base path : String} (hbase : base ≠ "")
    (hpath : isAbsolute path = false) :
    ∃ front, front ≠ [] ∧ (pieces base = front ∨ pieces base = front ++ [[]]) ∧
      pieces (join base path) = front ++ pieces path := by
  rw [join, hpath, if_neg Bool.false_ne_true]
  split
  · next hend =>
      -- The last piece of the base is empty, and the path comes in its place.
      obtain ⟨init, hinit⟩ := List.getLast?_eq_some_iff.1 (hend.resolve_left hbase)
      have hsplit : base = String.ofList init ++ "/" ++ "" := by
        rw [← String.toList_inj, hinit]
        simp
      refine ⟨pieces (String.ofList init), pieces_ne_nil _, Or.inr ?_, ?_⟩
      · rw [hsplit, pieces_append]
        rfl
      · rw [hsplit, String.append_empty, pieces_append]
  · exact ⟨pieces base, pieces_ne_nil base, Or.inl rfl, pieces_append base path⟩

theorem isAbsolute_join {base path : String} (hbase : base ≠ "") (hpath : isAbsolute path = false) :
    isAbsolute (join base path) = isAbsolute base := by
  rw [join, hpath, if_neg Bool.false_ne_true]
  split
  · exact isAbsolute_append hbase
  · rw [String.append_assoc]
    exact isAbsolute_append hbase

theorem join_of_isAbsolute {base path : String} (h : isAbsolute path = true) :
    join base path = path := by
  rw [join, if_pos h]

/-! ## Written names -/

section Render

variable {names : List String}

theorem pieces_render (hnames : ∀ name ∈ names, IsName name) (hne : names ≠ []) :
    pieces (render false names) = names.map String.toList := by
  have htext : (render false names).toList = ['/'].intercalate (names.map String.toList) := by
    rw [render, if_neg Bool.false_ne_true, String.empty_append, String.toList_intercalate]
    rfl
  rw [pieces_eq_splitOn, htext, List.splitOn_intercalate]
  · intro piece hpiece
    obtain ⟨name, hname, rfl⟩ := List.mem_map.1 hpiece
    exact (hnames name hname).separator_not_mem
  · exact fun hnil => hne (List.map_eq_nil_iff.1 hnil)

theorem render_true (names : List String) : render true names = "" ++ "/" ++ render false names := by
  simp only [render, if_true, Bool.false_eq_true, if_false, String.empty_append]

theorem isAbsolute_render_true (names : List String) : isAbsolute (render true names) = true := by
  rw [render_true, String.append_assoc, String.empty_append, isAbsolute_append (by decide)]
  rfl

theorem pieces_render_true (hnames : ∀ name ∈ names, IsName name) (hne : names ≠ []) :
    pieces (render true names) = [] :: names.map String.toList := by
  rw [render_true, pieces_append, pieces_render hnames hne]
  rfl

end Render

/-! ## Components -/

section Components

variable {path name : String} {names : List String}

theorem innerComponent?_of_isName (h : IsName name) :
    innerComponent? name.toList = some (.normal name) := by
  obtain ⟨hempty, hcurrent, hparent⟩ := h.piece
  rw [innerComponent?, if_neg hempty, if_neg hcurrent, if_neg hparent, String.ofList_toList]

theorem isName_of_innerComponent? {piece : List Char} (hpiece : '/' ∉ piece)
    (h : innerComponent? piece = some (.normal name)) : IsName name := by
  unfold innerComponent? at h
  split at h
  · cases h
  · next hempty =>
      split at h
      · cases h
      · next hcurrent =>
          split at h <;> cases h
          next hparent => exact isName_ofList hempty hcurrent hparent hpiece

/-- What the pieces of a path stand for follows the component that its start stands for. -/
theorem components_eq (path : String) :
    components path = (if isAbsolute path then [Component.root]
      else if (pieces path).head? = some ['.'] then [.current] else [])
        ++ (pieces path).filterMap innerComponent? := by
  simp only [components]
  split_ifs <;> rfl

/-- The ordinary components of a path are names. -/
theorem isName_of_mem_components (h : Component.normal name ∈ components path) : IsName name := by
  rw [components_eq, List.mem_append] at h
  rcases h with h | h
  · split_ifs at h <;> simp at h
  · obtain ⟨piece, hpiece, hname⟩ := List.mem_filterMap.1 h
    exact isName_of_innerComponent? (separator_not_mem_of_mem_pieces hpiece) hname

theorem filterMap_innerComponent? (hnames : ∀ name ∈ names, IsName name) :
    (names.map String.toList).filterMap innerComponent? = names.map .normal := by
  induction names with
  | nil => rfl
  | cons name names ih =>
      rw [List.forall_mem_cons] at hnames
      rw [List.map_cons, List.filterMap_cons, innerComponent?_of_isName hnames.1, ih hnames.2,
        List.map_cons]

/-- Written names do not start at the root. -/
theorem isAbsolute_render_false (hnames : ∀ name ∈ names, IsName name) :
    isAbsolute (render false names) = false := by
  cases names with
  | nil => rfl
  | cons name names =>
      rw [Bool.eq_false_iff]
      intro habsolute
      have hhead := head?_pieces_of_isAbsolute habsolute
      rw [pieces_render hnames (List.cons_ne_nil _ _), List.map_cons, List.head?_cons,
        Option.some.injEq] at hhead
      exact (hnames name List.mem_cons_self).piece.1 hhead

theorem components_render (hnames : ∀ name ∈ names, IsName name) :
    components (render false names) = names.map .normal := by
  by_cases hne : names = []
  · subst hne
    rfl
  · rw [components_eq, isAbsolute_render_false hnames, pieces_render hnames hne,
      filterMap_innerComponent? hnames, if_neg Bool.false_ne_true, if_neg, List.nil_append]
    obtain ⟨name, names, rfl⟩ := List.exists_cons_of_ne_nil hne
    rw [List.map_cons, List.head?_cons, Option.some.injEq]
    exact (hnames name List.mem_cons_self).piece.2.1

/-- Names below a base follow the components of the base. -/
theorem components_join (base : String) (hnames : ∀ name ∈ names, IsName name) (hne : names ≠ []) :
    components (join base (render false names)) = components base ++ names.map .normal := by
  have hrelative := isAbsolute_render_false hnames
  by_cases hbase : base = ""
  · subst hbase
    rw [join, hrelative, if_neg Bool.false_ne_true, if_pos (Or.inl rfl), String.empty_append,
      components_render hnames]
    rfl
  · obtain ⟨front, hfront, hpieces, hjoin⟩ := exists_pieces_join hbase hrelative
    have hhead : (pieces base).head? = front.head? := by
      rcases hpieces with heq | heq
      · rw [heq]
      · rw [heq, List.head?_append_of_ne_nil _ hfront]
    have hinner : (pieces base).filterMap innerComponent? = front.filterMap innerComponent? := by
      rcases hpieces with heq | heq
      · rw [heq]
      · rw [heq, List.filterMap_append]
        exact List.append_nil _
    rw [components_eq, components_eq, isAbsolute_join hbase hrelative, hjoin, hhead, hinner,
      List.head?_append_of_ne_nil _ hfront, List.filterMap_append, pieces_render hnames hne,
      filterMap_innerComponent? hnames, List.append_assoc]

end Components

/-! ## Names of files -/

section FileNames

variable {path name : String} {names : List String}

/-- A path ends in the name that its last piece is. -/
theorem fileName?_eq_some {piece : List Char} (hlast : (pieces path).getLast? = some piece)
    (hpiece : innerComponent? piece = some (.normal name)) : fileName? path = some name := by
  obtain ⟨init, hinit⟩ := List.getLast?_eq_some_iff.1 hlast
  rw [fileName?, components_eq, hinit, List.filterMap_append, ← List.append_assoc,
    List.filterMap_cons, hpiece, List.filterMap_nil, List.getLast?_concat]

theorem exists_of_plainNames? {cs : List Component} (h : plainNames? cs = some names) :
    ∀ name, name ∈ names ↔ Component.normal name ∈ cs := by
  induction cs generalizing names with
  | nil => cases h; simp
  | cons c cs ih =>
      cases c with
      | root => cases h
      | parent => cases h
      | current => simpa using ih h
      | normal first =>
          obtain ⟨rest, hrest, rfl⟩ := Option.map_eq_some_iff.1 h
          simp [ih hrest]

/-- A file goes below an output directory under names, at least one of them. -/
theorem exists_destination (h : fileName? path = some name) :
    ∃ names, names ≠ [] ∧ (∀ name ∈ names, IsName name) ∧ destination path = render false names := by
  have hmem : Component.normal name ∈ components path := by
    unfold fileName? at h
    split at h <;> cases h
    next hlast => exact List.mem_of_getLast? hlast
  unfold destination
  split
  · next names hnames =>
      have hiff := exists_of_plainNames? hnames
      exact ⟨names, List.ne_nil_of_mem ((hiff name).2 hmem),
        fun name hname => isName_of_mem_components ((hiff name).1 hname), rfl⟩
  -- A path with a root or a step up in it goes under its last name alone.
  · rw [h]
    refine ⟨[name], List.cons_ne_nil _ _, fun other hother => ?_, ?_⟩
    · rw [List.mem_singleton.1 hother]
      exact isName_of_mem_components hmem
    · simp [render]

end FileNames

/-! ## Reading onto a stack -/

/-- One more piece of a path, read onto a stack of names: an empty one and `.` stay where they are,
`..` takes the top away if there is one, and any other piece is a name that goes on top. -/
def readPiece (stack : List String) (piece : List Char) : List String :=
  if piece = [] ∨ piece = ['.'] then stack
  else if piece = ['.', '.'] then stack.tail
  else String.ofList piece :: stack

/-- The stack of names after a path is read onto it, the last one first. -/
def evaluate (stack : List String) (path : String) : List String :=
  (pieces path).foldl readPiece stack

section Evaluate

variable {stack names : List String}

theorem readPiece_of_isName {name : String} (h : IsName name) :
    readPiece stack name.toList = name :: stack := by
  obtain ⟨hempty, hcurrent, hparent⟩ := h.piece
  rw [readPiece, if_neg (not_or.2 ⟨hempty, hcurrent⟩), if_neg hparent, String.ofList_toList]

theorem isName_readPiece {piece : List Char} (hpiece : '/' ∉ piece)
    (hstack : ∀ name ∈ stack, IsName name) : ∀ name ∈ readPiece stack piece, IsName name := by
  unfold readPiece
  split
  · exact hstack
  · next hstays =>
      split
      · exact fun name hname => hstack name (List.mem_of_mem_tail hname)
      · next hup =>
          rw [not_or] at hstays
          exact List.forall_mem_cons.2 ⟨isName_ofList hstays.1 hstays.2 hup hpiece, hstack⟩

/-- Whatever is read onto a stack of names leaves a stack of names. -/
theorem isName_evaluate (path : String) (hstack : ∀ name ∈ stack, IsName name) :
    ∀ name ∈ evaluate stack path, IsName name := by
  have hpieces : ∀ piece ∈ pieces path, '/' ∉ piece := fun _ => separator_not_mem_of_mem_pieces
  unfold evaluate
  generalize pieces path = ps at hpieces
  induction ps generalizing stack with
  | nil => exact hstack
  | cons piece ps ih =>
      rw [List.forall_mem_cons] at hpieces
      exact ih (isName_readPiece hpieces.1 hstack) hpieces.2

/-- A path is read below its base. -/
theorem evaluate_join {base path : String} (hbase : base ≠ "") (hpath : isAbsolute path = false) :
    evaluate stack (join base path) = evaluate (evaluate stack base) path := by
  obtain ⟨front, -, hfront, hjoin⟩ := exists_pieces_join hbase hpath
  unfold evaluate
  rw [hjoin, List.foldl_append]
  rcases hfront with hfront | hfront
  · rw [hfront]
  · rw [hfront, List.foldl_append]
    rfl

/-- A path of names puts them on the stack. -/
theorem evaluate_render (hnames : ∀ name ∈ names, IsName name) :
    evaluate stack (render true names) = names.reverse ++ stack := by
  unfold evaluate
  by_cases hne : names = []
  · subst hne
    rfl
  · rw [pieces_render_true hnames hne, List.foldl_cons]
    clear hne
    change (names.map String.toList).foldl readPiece stack = names.reverse ++ stack
    induction names generalizing stack with
    | nil => rfl
    | cons name names ih =>
        rw [List.forall_mem_cons] at hnames
        rw [List.map_cons, List.foldl_cons, readPiece_of_isName hnames.1, ih hnames.2,
          List.reverse_cons, List.append_assoc, List.singleton_append]

end Evaluate

/-! ## Normalization -/

/-- Entering the components that the pieces stand for reads the pieces onto the stack of names. -/
theorem foldl_enter (absolute : Bool) (ps : List (List Char)) (stack : List String) :
    (ps.filterMap innerComponent?).foldl Place.enter ⟨absolute, stack.reverse⟩
      = ⟨absolute, (ps.foldl readPiece stack).reverse⟩ := by
  induction ps generalizing stack with
  | nil => rfl
  | cons piece ps ih =>
      rw [List.foldl_cons, List.filterMap_cons, ← ih]
      -- A piece without a component leaves the stack, and the others do to it what their component
      -- does to the place.
      unfold innerComponent? readPiece
      by_cases hempty : piece = []
      · simp only [hempty, if_true, true_or]
      · by_cases hcurrent : piece = ['.']
        · simp only [hcurrent, if_true, or_true, reduceCtorEq, if_false]
        · by_cases hparent : piece = ['.', '.']
          · subst hparent
            simp [Place.enter]
          · simp [hempty, hcurrent, hparent, Place.enter]

/-- An absolute path is normalized to the names that its reading leaves. -/
theorem normalize_of_isAbsolute {path : String} (h : isAbsolute path = true) :
    normalize path = render true (evaluate [] path).reverse := by
  have hplace : place path = ⟨true, (evaluate [] path).reverse⟩ := by
    rw [place, components, if_pos h, List.foldl_cons]
    exact foldl_enter true (pieces path) []
  rw [normalize, hplace]

/-- An absolute path with nothing left to remove: between its separators and behind the last one stand
names, unless it is the root. -/
structure IsCanonical (path : String) : Prop where
  absolute : isAbsolute path = true
  clean : path ≠ "/" → ∀ piece ∈ (pieces path).tail, piece ≠ [] ∧ piece ≠ ['.'] ∧ piece ≠ ['.', '.']
  ending : path ≠ "/" → path.toList.getLast? ≠ some '/'

/-- A path that ends in a separator has an empty piece behind it. -/
theorem nil_mem_tail_of_getLast? {path : String} (h : path.toList.getLast? = some '/') :
    [] ∈ (pieces path).tail := by
  obtain ⟨init, hinit⟩ := List.getLast?_eq_some_iff.1 h
  have hpath : path = String.ofList init ++ "/" ++ "" := by
    rw [← String.toList_inj, hinit]
    simp
  rw [hpath, pieces_append, List.tail_append_of_ne_nil (pieces_ne_nil _)]
  exact List.mem_append_right _ (List.mem_singleton.2 rfl)

/-- Names written from the root on make up a canonical path. -/
theorem isCanonical_render {names : List String} (hnames : ∀ name ∈ names, IsName name) :
    IsCanonical (render true names) := by
  have hclean : render true names ≠ "/" → ∀ piece ∈ (pieces (render true names)).tail,
      piece ≠ [] ∧ piece ≠ ['.'] ∧ piece ≠ ['.', '.'] := by
    intro hroot piece hpiece
    have hne : names ≠ [] := fun hnil => hroot (hnil ▸ rfl)
    rw [pieces_render_true hnames hne, List.tail_cons] at hpiece
    obtain ⟨name, hname, rfl⟩ := List.mem_map.1 hpiece
    exact (hnames name hname).piece
  exact ⟨isAbsolute_render_true names, hclean,
    fun hroot hend => (hclean hroot [] (nil_mem_tail_of_getLast? hend)).1 rfl⟩

end LogLabel.Path

namespace LogLabel.SourceName

open LogLabel.Path

theorem ne_empty_of_isAbsolute {path : String} (h : isAbsolute path = true) : path ≠ "" := by
  rintro rfl
  cases h

/-- The path of a file is the reading of its name below the base, which has no say where the name is
absolute. -/
theorem filepath_eq (filename : String) {base : String} (hbase : isAbsolute base = true) :
    (resolve filename base).filepath = render true (evaluate [] (join base filename)).reverse ∧
    evaluate [] (join base filename)
      = evaluate (if isAbsolute filename then [] else evaluate [] base) filename := by
  have hne := ne_empty_of_isAbsolute hbase
  cases hname : isAbsolute filename with
  | true =>
      have hjoin : join base filename = filename := join_of_isAbsolute hname
      rw [resolve, hjoin, normalize_of_isAbsolute hname]
      exact ⟨rfl, rfl⟩
  | false =>
      have habsolute := (isAbsolute_join hne hname).trans hbase
      exact ⟨normalize_of_isAbsolute habsolute, evaluate_join hne hname⟩

/-- A file is reported under a canonical path: the one to which its name leads from the base when both
are read onto a stack of names. Such a path stands for itself, whatever the base. -/
theorem resolve_canonical (filename base : String) (hbase : isAbsolute base = true) :
    IsCanonical (resolve filename base).filepath ∧
    (resolve filename base).filepath = render true (evaluate [] (join base filename)).reverse ∧
    evaluate [] (join base filename)
      = evaluate (if isAbsolute filename then [] else evaluate [] base) filename ∧
    ∀ base', isAbsolute base' = true →
      (resolve (resolve filename base).filepath base').filepath
        = (resolve filename base).filepath := by
  obtain ⟨hpath, hread⟩ := filepath_eq filename hbase
  have hnames : ∀ name ∈ (evaluate [] (join base filename)).reverse, IsName name := fun name hname =>
    isName_evaluate _ (fun _ hnone => by cases hnone) name (List.mem_reverse.1 hname)
  refine ⟨hpath ▸ isCanonical_render hnames, hpath, hread, fun base' hbase' => ?_⟩
  have habsolute : isAbsolute (resolve filename base).filepath = true :=
    hpath ▸ isAbsolute_render_true _
  rw [(filepath_eq _ hbase').1, join_of_isAbsolute habsolute, hpath, evaluate_render hnames,
    List.append_nil, List.reverse_reverse]

/-- A name that climbs above the root, with separators at its end. -/
theorem resolve_canonical_climbing :
    isAbsolute "/work/./app/" = true ∧
    (resolve "../../../src//./a/../b.js/" "/work/./app/").filepath = "/src/b.js" ∧
    IsCanonical (resolve "../../../src//./a/../b.js/" "/work/./app/").filepath := by
  obtain ⟨hcanonical, hpath, -⟩ :=
    resolve_canonical "../../../src//./a/../b.js/" "/work/./app/" rfl
  exact ⟨rfl, hpath.trans (by decide +kernel), hcanonical⟩

end LogLabel.SourceName
