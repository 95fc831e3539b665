import LogLabel.Synthesizer
import LogLabel.Proofs.Template

set_option autoImplicit false

/-!
# Made statements

What a synthesizer stores for a logged statement.

* `builtinCall` is the call of a built-in label as a nested program, and
  `addBuiltinCall_stored` says that this call is what is stored.
* `Synthesizer.written` is what a synthesizer makes of logged expressions, as a nested
  program, and `synthesize_stored` says that a synthesizer that is no native function always
  stores it, made of new nodes and of logged expressions that occur once.
* `LabelTable.Only` is a property of all synthesizers of a table; those of the built-in
  table are built in (`LabelTable.defaults_builtin`).
-/

namespace LogLabel

open Program (Ast Kind NodeId Span Tree)
open Program.Tree (Stored Extends Plants)

/-! ## Small programs -/

namespace Program.Tree

theorem plants_leaf (s : Span) (k : Kind Empty) :
    Plants (fun t => t.alloc (k.map Empty.elim) s) (.node s (k.map Empty.elim)) := by
  intro t
  have hchildren : k.children = [] := List.eq_nil_iff_forall_not_mem.2 fun e => e.elim
  have hover : Stored t _ [] [_] [_] := Stored.covered s (k := k.map Empty.elim)
    (by simpa [hchildren] using Stored.nil t)
  simp only [Kind.map_map] at hover
  have hsame : ∀ {β : Type} (f g : Empty → β), k.map f = k.map g := fun f g =>
    congrArg k.map (funext fun e => e.elim)
  rw [hsame _ Empty.elim, hsame (fun e => Ast.mapNotes _ (Empty.elim e)) Empty.elim] at hover
  exact ⟨_, rfl, hover⟩

theorem plants_ident (name : String) (s : Span) :
    Plants (fun t => t.addIdent name s) (.node s (.ident name)) := plants_leaf s (.ident name)

theorem plants_string (value : String) (s : Span) :
    Plants (fun t => t.addString value s) (.node s (.str value)) := plants_leaf s (.str value)

theorem plants_number (value : Nat) (s : Span) :
    Plants (fun t => t.addNumber value s) (.node s (.number (toString value))) :=
  plants_leaf s (.number (toString value))

theorem plants_bool (value : Bool) (s : Span) :
    Plants (fun t => t.addBool value s) (.node s (.bool value)) := plants_leaf s (.bool value)

/-- Stores an array over programs that are stored side by side. -/
theorem Stored.array {t t' : Tree} {bound as : List (Ast NodeId)} {xs : List (Ast Span)} (s : Span)
    (h : Stored t t' bound as xs) :
    ∃ (a : Ast NodeId) (t'' : Tree), t'.addArray (as.map Ast.note) s = (a.note, t'') ∧
      Stored t t'' bound [a] [.node s (.array xs)] := by
  have hover := Stored.covered s (k := .array as) h
  rw [Kind.map, Kind.map, h.spans] at hover
  exact ⟨_, _, rfl, hover⟩

theorem plants_strings (values : List String) (s : Span) :
    Plants (fun t => t.addStrings values s)
      (.node s (.array (values.map fun value => .node s (.str value)))) := by
  intro t
  obtain ⟨as, has, hstored⟩ := plants_list values (fun value _ => plants_string value s) t
  obtain ⟨a, t', ha, harray⟩ := hstored.array s
  have hstrings : t.addStrings values s = (a.note, t') := by
    rw [addStrings, ← ha, has]
  exact ⟨a, by simp only [hstrings], by simpa only [hstrings] using harray⟩

/-- A stored program after others. -/
theorem Stored.plant {t t' : Tree} {bound as : List (Ast NodeId)} {xs : List (Ast Span)}
    {p : Planting} {x : Ast Span} (h : Stored t t' bound as xs) (hp : Plants p x) :
    ∃ (a : Ast NodeId) (t'' : Tree), p t' = (a.note, t'') ∧
      Stored t t'' bound (as ++ [a]) (xs ++ [x]) := by
  obtain ⟨a, ha, hstored⟩ := hp t'
  exact ⟨a, (p t').2, by rw [ha], h.append_new hstored⟩

/-- An entry of a record with a plain key. -/
def recordEntry {ι : Type} (s : ι) (name : String) (value : Ast ι) : Ast ι :=
  .node s (.property (.named name) value false)

/-- Storing the entries of a record over their values, which stand side by side. -/
theorem stored_entries {t : Tree} {bound : List (Ast NodeId)} (s : Span) :
    ∀ (entries : List (String × Ast NodeId)) (t' : Tree) (done : List (Ast NodeId))
      (xs : List (Ast Span)), Stored t t' bound (done ++ entries.map Prod.snd) xs →
      ∃ ps : List (Ast NodeId),
        ps.map Ast.note = (Kind.mapStateList
          (fun (entry : String × NodeId) (t : Tree) =>
            t.alloc (.property (.named entry.1) entry.2 false) s)
          (entries.map fun e => (e.1, e.2.note)) t').1 ∧
        Stored t (Kind.mapStateList
          (fun (entry : String × NodeId) (t : Tree) =>
            t.alloc (.property (.named entry.1) entry.2 false) s)
          (entries.map fun e => (e.1, e.2.note)) t').2 bound (done ++ ps)
          (done.map (Ast.mapNotes t'.span)
            ++ entries.map fun e => recordEntry s e.1 (e.2.mapNotes t'.span)) := by
  intro entries
  induction entries with
  | nil =>
      intro t' done xs h
      refine ⟨[], rfl, ?_⟩
      have hspans := h.spans
      simp only [List.map_nil, List.append_nil] at h hspans ⊢
      rwa [← hspans] at h
  | cons e entries ih =>
      intro t' done xs h
      have hvalue : Stored t t' bound
          (done ++ (Kind.property (.named e.1) e.2 false).children ++ entries.map Prod.snd) xs := by
        simpa [Kind.children, Program.Key.children] using h
      have hlayer := hvalue.layer s
      have hgrows := Grows.alloc t' ((Kind.property (.named e.1) e.2 false).map Ast.note) s
      obtain ⟨ps, hps, hstored⟩ := ih _ _ _ hlayer
      refine ⟨.node ⟨t'.size⟩ (.property (.named e.1) e.2 false) :: ps, ?_, ?_⟩
      · rw [List.map_cons, hps]
        rfl
      · -- Spans do not change once a node is stored.
        have hdone : (done ++ [Ast.node ⟨t'.size⟩ (.property (.named e.1) e.2 false)]).map
            (Ast.mapNotes (t'.alloc ((Kind.property (.named e.1) e.2 false).map Ast.note) s).2.span)
            = done.map (Ast.mapNotes t'.span) ++ [recordEntry s e.1 (e.2.mapNotes t'.span)] := by
          have hspans := hlayer.spans
          rw [List.map_append] at hspans
          exact (List.append_inj hspans (by simp)).1
        have hrest : (entries.map fun d => recordEntry s d.1 (d.2.mapNotes
            (t'.alloc ((Kind.property (.named e.1) e.2 false).map Ast.note) s).2.span))
            = entries.map fun d => recordEntry s d.1 (d.2.mapNotes t'.span) := by
          refine List.map_congr_left fun d hd => ?_
          rw [hgrows.mapNotes_span (h.holds d.2 (by simp; exact Or.inr (Or.inr ⟨d.1, hd⟩)))]
        rw [hdone, hrest] at hstored
        simpa [Kind.mapStateList, Kind.map, Program.Key.map] using hstored

/-- Stores a record over the values of its entries. -/
theorem Stored.object {t t' : Tree} {bound : List (Ast NodeId)} {xs : List (Ast Span)} (s : Span)
    (entries : List (String × Ast NodeId)) (h : Stored t t' bound (entries.map Prod.snd) xs) :
    ∃ (a : Ast NodeId) (t'' : Tree),
      t'.addObject (entries.map fun e => (e.1, e.2.note)) s = (a.note, t'') ∧
      Stored t t'' bound [a]
        [.node s (.object (entries.map fun e => recordEntry s e.1 (e.2.mapNotes t'.span)))] := by
  obtain ⟨ps, hps, hstored⟩ := stored_entries s entries t' [] xs h
  have hstored' : Stored t _ bound (Kind.object ps).children _ := hstored
  have hover := hstored'.covered s
  have hspans : ps.map (Ast.mapNotes _) = _ := hstored.spans
  rw [Kind.map, Kind.map, hps, hspans] at hover
  exact ⟨_, _, rfl, hover⟩

end Program.Tree

namespace Synthesizer

open Program.Tree (recordEntry)

/-! ## Built-in labels -/

/-- The call that a built-in label makes of logged expressions. All its own nodes have the note
`s`. -/
def builtinCall {ι : Type} (level : Level) (values : Bool) (logFunction : String)
    (file : SourceName) (line : Nat) (path : List String) (content : List (Ast ι)) (s : ι) : Ast ι :=
  .node s (.call (.node s (.ident logFunction))
    [.node s (.object
      [recordEntry s "values" (.node s (.bool values)),
        recordEntry s "level" (.node s (.str level.name)),
        recordEntry s "filename" (.node s (.str file.filename)),
        recordEntry s "filepath" (.node s (.str file.filepath)),
        recordEntry s "content" (.node s (.array content)),
        recordEntry s "line" (.node s (.number (toString line))),
        recordEntry s "parentPath" (.node s (.array (path.map fun name => .node s (.str name))))])])

/-- The call of a built-in label at the place that metadata describe. -/
def callAt {ι : Type} (level : Level) (values : Bool) (logFunction : String) (m : Metadata)
    (content : List (Ast ι)) (s : ι) : Ast ι :=
  builtinCall level values logFunction ⟨m.filename, m.filepath⟩ m.line m.parentPath content s

/-- The call of a built-in label is stored over the logged expressions. -/
theorem addBuiltinCall_stored (level : Level) (values : Bool) {t : Tree} {site : LogSite}
    {contents : List (Ast NodeId)} (hcontent : site.content = contents.map Ast.note)
    (hholds : ∀ c ∈ contents, t.Holds c) (hnodup : (contents.flatMap Ast.notes).Nodup) :
    ∃ (a : Ast NodeId) (t' : Tree), addBuiltinCall level values t site = (a.note, t') ∧
      Stored t t' contents [a]
        [callAt level values site.logFunction site.metadata (contents.map (Ast.mapNotes t.span))
          site.span] := by
  obtain ⟨logFunction, content, m, s⟩ := site
  obtain rfl : content = contents.map Ast.note := hcontent
  -- The parts are stored one after the other; the logged expressions are bound by their array.
  obtain ⟨v, t₁, hv, hs⟩ := (Stored.nil t).plant (Tree.plants_bool values s)
  obtain ⟨l, t₂, hl, hs⟩ := hs.plant (Tree.plants_string level.name s)
  obtain ⟨fn, t₃, hfn, hs⟩ := hs.plant (Tree.plants_string m.filename s)
  obtain ⟨fp, t₄, hfp, hs⟩ := hs.plant (Tree.plants_string m.filepath s)
  have hholds' : ∀ c ∈ contents, t₄.Holds c := fun c hc => hs.growth.holds (hholds c hc) (by simp)
  have hcontents : contents.map (Ast.mapNotes t₄.span) = contents.map (Ast.mapNotes t.span) :=
    List.map_congr_left fun c hc => hs.growth.mapNotes_span (hholds c hc)
  obtain ⟨arr, t₅, harr, harray⟩ := (Stored.self hholds' hnodup).array s
  have hs := hs.append harray hholds (by simp)
  obtain ⟨ln, t₆, hln, hs⟩ := hs.plant (Tree.plants_number m.line s)
  obtain ⟨pp, t₇, hpp, hs⟩ := hs.plant (Tree.plants_strings m.parentPath s)
  have hspans := hs.spans
  obtain ⟨o, t₈, ho, hs⟩ := Stored.object s
    [("values", v), ("level", l), ("filename", fn), ("filepath", fp), ("content", arr),
      ("line", ln), ("parentPath", pp)] (by simpa using hs)
  obtain ⟨f, t₉, hf, hs⟩ := hs.plant (Tree.plants_ident logFunction s)
  have hspans' := hs.spans
  simp only [List.nil_append, List.cons_append, List.map_cons, List.map_nil, List.cons.injEq,
    and_true, hcontents] at hspans hspans'
  obtain ⟨hv', hl', hfn', hfp', harr', hln', hpp'⟩ := hspans
  have hcall : Stored t t₉ contents (Kind.call f [o]).children _ := hs.perm (List.Perm.swap o f [])
  have hs := hcall.covered s
  simp only [Kind.map, List.map_cons, List.map_nil, hspans'.1, hspans'.2, hv', hl', hfn', hfp', harr',
    hln', hpp'] at hs
  refine ⟨_, _, ?_, hs⟩
  simp only [List.map_cons, List.map_nil] at ho
  simp only [addBuiltinCall, hv, hl, hfn, hfp, harr, hln, hpp, ho, hf]
  rfl

/-! ## Templates -/

/-- The record that templates get as a nested program, all its nodes with the note `s`. -/
def recordOf {ι : Type} (m : Metadata) (s : ι) : Ast ι :=
  .node s (.object
    [recordEntry s "indent" (.node s (.number (toString m.indent))),
      recordEntry s "parentPath" (.node s (.array (m.parentPath.map fun name => .node s (.str name)))),
      recordEntry s "filename" (.node s (.str m.filename)),
      recordEntry s "filepath" (.node s (.str m.filepath)),
      recordEntry s "hasStartMessage" (.node s (.bool m.hasStartMessage)),
      recordEntry s "isStartMessage" (.node s (.bool m.isStartMessage)),
      recordEntry s "line" (.node s (.number (toString m.line)))])

/-- The record that templates get is stored as new nodes. -/
theorem addRecord_stored (m : Metadata) (t : Tree) (s : Span) :
    ∃ (a : Ast NodeId) (t' : Tree), m.addRecord t s = (a.note, t') ∧
      Stored t t' [] [a] [recordOf m s] := by
  obtain ⟨i, t₁, hi, hs⟩ := (Stored.nil t).plant (Tree.plants_number m.indent s)
  obtain ⟨pp, t₂, hpp, hs⟩ := hs.plant (Tree.plants_strings m.parentPath s)
  obtain ⟨fn, t₃, hfn, hs⟩ := hs.plant (Tree.plants_string m.filename s)
  obtain ⟨fp, t₄, hfp, hs⟩ := hs.plant (Tree.plants_string m.filepath s)
  obtain ⟨b, t₅, hb, hs⟩ := hs.plant (Tree.plants_bool m.hasStartMessage s)
  obtain ⟨c, t₆, hc, hs⟩ := hs.plant (Tree.plants_bool m.isStartMessage s)
  obtain ⟨ln, t₇, hln, hs⟩ := hs.plant (Tree.plants_number m.line s)
  have hspans := hs.spans
  obtain ⟨o, t₈, ho, hs⟩ := Stored.object s
    [("indent", i), ("parentPath", pp), ("filename", fn), ("filepath", fp),
      ("hasStartMessage", b), ("isStartMessage", c), ("line", ln)] (by simpa using hs)
  simp only [List.nil_append, List.cons_append, List.map_cons, List.map_nil, List.cons.injEq,
    and_true] at hspans
  obtain ⟨hi', hpp', hfn', hfp', hb', hc', hln'⟩ := hspans
  simp only [List.map_cons, List.map_nil, hi', hpp', hfn', hfp', hb', hc', hln'] at ho hs
  refine ⟨o, t₈, ?_, hs⟩
  simp only [Metadata.addRecord, hi, hpp, hfn, hfp, hb, hc, hln, ho]

/-- What a synthesizer makes of logged expressions; of a native function nothing is known. -/
def written (s : Synthesizer) (logFunction : String) (m : Metadata) (content : List (Ast Span))
    (span : Span) : Option (Ast Span) :=
  match s with
  | .builtin level values => some (callAt level values logFunction m content span)
  | .template form => some (Template.filled ⟨logFunction, content, recordOf m span⟩ span form.body)
  | .native _ => none

/-- A synthesizer that is no native function stores what it makes of the logged expressions. The result
consists of new nodes and of logged expressions. -/
theorem synthesize_stored {s : Synthesizer} (hs : ∀ make, s ≠ .native make) {t : Tree}
    {site : LogSite} {contents : List (Ast NodeId)} (hcontent : site.content = contents.map Ast.note)
    (hheld : ∀ c ∈ contents, t.Held c) (hnodup : (contents.flatMap Ast.notes).Nodup) :
    ∃ (a : Ast NodeId) (t' : Tree) (x : Ast Span),
      s.written site.logFunction site.metadata (contents.map (Ast.mapNotes t.span)) site.span = some x ∧
        s.synthesize t site = .ok (a.note, t') ∧ Stored t t' contents [a] [x] := by
  cases s with
  | builtin level values =>
      obtain ⟨a, t', ha, hstored⟩ :=
        addBuiltinCall_stored level values hcontent (fun c hc => (hheld c hc).holds) hnodup
      exact ⟨a, t', _, rfl, by rw [synthesize, ha], hstored⟩
  | template form =>
      obtain ⟨r, t₁, hr, hrecord⟩ := addRecord_stored site.metadata t site.span
      have hnew : ∀ i ∈ r.notes, t.size ≤ i.index := by simpa using hrecord.fresh
      have hold : ∀ i ∈ contents.flatMap Ast.notes, i.index < t.size := by
        intro i hi
        obtain ⟨c, hc, hi⟩ := List.mem_flatMap.1 hi
        exact (hheld c hc).holds.stored i hi
      -- The record is stored before the template is filled, so its nodes are new and none is in a
      -- content.
      have hready : Template.Ready t₁.span (contents ++ [r]) t₁ := by
        refine ⟨fun b hb => ?_, ?_, fun _ _ => rfl⟩
        · rcases List.mem_append.1 hb with hb | hb
          · exact ⟨hrecord.growth.holds (hheld b hb).holds (by simp), (hheld b hb).nodup⟩
          · obtain rfl := List.mem_singleton.1 hb
            exact ⟨hrecord.holds b (by simp), by simpa using hrecord.nodup⟩
        · rw [List.flatMap_append, List.nodup_append]
          refine ⟨hnodup, hrecord.nodup, ?_⟩
          rintro i hi _ hj rfl
          exact Nat.not_lt.2 (hrecord.fresh i hj) (hold i hi)
      have hbinds : Template.Binds t₁.span (contents ++ [r])
          ⟨site.logFunction, site.content, r.note⟩
          ⟨site.logFunction, contents.map (Ast.mapNotes t.span), recordOf site.metadata site.span⟩ := by
        refine ⟨rfl, ⟨contents, List.subset_append_left _ _, hcontent, ?_⟩, r, by simp, rfl, ?_⟩
        · exact List.map_congr_left fun c hc => (hrecord.growth.mapNotes_span (hheld c hc).holds).symm
        · exact (List.singleton_inj.1 hrecord.spans).symm
      -- What the copy takes is content or the record, and the record counts as new from the first
      -- tree on.
      obtain ⟨taken, m, hm, hstored, hsub⟩ :=
        Template.fill_stored hbinds site.span form.body hready
      refine ⟨m, _, _, rfl, ?_, hstored.rebase hrecord.growth fun b hb => ?_⟩
      · rw [synthesize, hr]
        simp only [Template.instantiate, hm]
      · rcases List.mem_append.1 (hsub hb) with hb | hb
        · exact Or.inl hb
        · obtain rfl := List.mem_singleton.1 hb
          exact Or.inr hnew
  | native make => exact absurd rfl (hs make)

end Synthesizer

/-- A program as a statement of the same span, if it is none. -/
def Program.Ast.asStatement (x : Ast Span) : Ast Span :=
  if x.kind.isStatement then x else .node x.note (.expression x)

/-- What is made becomes a statement. -/
theorem ensureStatement_stored {t t' : Tree} {bound : List (Ast NodeId)} {a : Ast NodeId}
    {x : Ast Span} (h : Stored t t' bound [a] [x]) :
    ∃ (m : Ast NodeId) (t'' : Tree), t'.ensureStatement a.note = (m.note, t'') ∧
      Stored t t'' bound [m] [x.asStatement] ∧
        (x.kind.isStatement = false → t.size ≤ m.note.index) := by
  have hx : a.mapNotes t'.span = x := List.singleton_inj.1 h.spans
  have hkind : (t'.kind a.note).isStatement = x.kind.isStatement := by
    rw [(h.holds a (by simp)).kind_eq, ← hx, Ast.kind_mapNotes]
    cases a.kind <;> rfl
  cases hs : x.kind.isStatement with
  | true =>
      refine ⟨a, t', by rw [Tree.ensureStatement, hkind, hs, if_pos rfl], ?_, fun h => by cases h⟩
      rwa [Ast.asStatement, hs, if_pos rfl]
  | false =>
      have hover := Stored.covered (t'.span a.note) (k := .expression a) h
      have hnote : t'.span a.note = x.note := by rw [← hx, Ast.note_mapNotes]
      refine ⟨.node ⟨t'.size⟩ (.expression a), (t'.alloc (.expression a.note) (t'.span a.note)).2, ?_,
        ?_, fun _ => h.growth.size_le⟩
      · rw [Tree.ensureStatement, hkind, hs]
        rfl
      · rw [Ast.asStatement, hs, if_neg Bool.false_ne_true, ← hnote, ← hx]
        exact hover

/-! ## Tables of labels -/

namespace LabelTable

variable {P Q : Synthesizer → Prop} {table : LabelTable}

/-- All synthesizers of a table have a property. -/
def Only (P : Synthesizer → Prop) (table : LabelTable) : Prop := ∀ entry ∈ table.entries, P entry.2

theorem Only.get? (h : Only P table) {label : String} {s : Synthesizer}
    (hs : table.get? label = some s) : P s := by
  obtain ⟨before, after, hentries, -⟩ := List.lookup_eq_some_iff.1 hs
  exact h (label, s) (by simp [hentries])

theorem Only.imp (h : Only P table) (himp : ∀ s, P s → Q s) : Only Q table :=
  fun entry hentry => himp entry.2 (h entry hentry)

theorem Only.insert (h : Only P table) {label : String} {s : Synthesizer} (hs : P s) :
    Only P (table.insert label s) := by
  intro entry hentry
  rcases NameMap.mem_of_mem_insertEntry hentry with rfl | hentry
  · exact hs
  · exact h entry hentry

theorem only_empty : Only P NameMap.empty := by
  intro entry hentry
  exact absurd hentry List.not_mem_nil

/-- The built-in table has built-in synthesizers only. -/
theorem defaults_builtin : Only (fun s => ∃ level values, s = .builtin level values) defaults := by
  have hfold : ∀ {P : Synthesizer → Prop} (es : List (String × Synthesizer)) (table : LabelTable),
      Only P table → (∀ e ∈ es, P e.2) → Only P (es.foldl (fun m e => m.insert e.1 e.2) table) := by
    intro P es
    induction es with
    | nil => intro table h _; exact h
    | cons e es ih =>
        intro table h hes
        exact ih _ (h.insert (hes e List.mem_cons_self)) fun d hd => hes d (List.mem_cons_of_mem _ hd)
  refine hfold _ NameMap.empty only_empty fun e he => ?_
  obtain ⟨level, -, he⟩ := List.mem_flatMap.1 he
  simp only [levelEntries, List.mem_cons, List.not_mem_nil, or_false] at he
  rcases he with rfl | rfl | rfl <;> exact ⟨_, _, rfl⟩

end LabelTable

end LogLabel
