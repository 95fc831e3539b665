import LogLabel.Proofs.Peg.Origins
import LogLabel.Proofs.Peg.Words
import LogLabel.Proofs.Program.Paths
import LogLabel.Proofs.Program.Reading

set_option autoImplicit false

/-!
# Identifiers

Which names a program can have. The identifier rule refuses the reserved words by a look-ahead, and
that look-ahead takes the first reserved word that starts the text. Since no reserved word stands
behind one of its beginnings, nothing but the reserved words themselves is refused.

* `IsName name`: what may be a name.
* `nameAt cs`: the longest run of name characters at the front of a text.
* `settles_identifier`, `settles_identifier_failed`: the identifier rule reads it, if it is a name.
* `Piece.mentions_subset`: a rule mentions what its parts mention, and the text of an identifier.
* `names_read`: so all names in a tree that was read are names, and no others are refused.
-/

namespace LogLabel.Program

open Peg (Capture Cursor Form Gaze Settles Spacing run)
open Rule (isIdentChar isIdentStart reservedWords)

/-! ## Names -/

/-- A name: some letters, digits, underscores and dollar signs of which the first one is no digit,
but no reserved word. -/
structure IsName (name : String) : Prop where
  nonempty : name ≠ ""
  chars : ∀ x ∈ name.toList, isIdentChar x = true
  first : ∀ x ∈ name.toList.head?, x.isDigit = false
  free : name ∉ reservedWords

/-- The longest run of name characters at the front of a text. -/
def nameAt (cs : List Char) : String := String.ofList (cs.takeWhile isIdentChar)

theorem isDigit_of_isAlpha {x : Char} (h : x.isAlpha = true) : x.isDigit = false := by
  have hletter : (65 ≤ x.val.toNat ∧ x.val.toNat ≤ 90) ∨ (97 ≤ x.val.toNat ∧ x.val.toNat ≤ 122) := by
    rcases Bool.or_eq_true_iff.1 h with hupper | hlower
    · exact .inl (of_decide_eq_true hupper)
    · obtain ⟨hlow, hhigh⟩ := Bool.and_eq_true_iff.1 hlower
      exact .inr ⟨of_decide_eq_true hlow, of_decide_eq_true hhigh⟩
  rw [← Bool.not_eq_true]
  intro hdigit
  obtain ⟨hlow, hhigh⟩ := Bool.and_eq_true_iff.1 hdigit
  have hlow : 48 ≤ x.val.toNat := of_decide_eq_true hlow
  have hhigh : x.val.toNat ≤ 57 := of_decide_eq_true hhigh
  omega

/-- A name starts with any of its characters but a digit. -/
theorem isIdentStart_iff (x : Char) :
    isIdentStart x = true ↔ isIdentChar x = true ∧ x.isDigit = false := by
  simp only [isIdentStart, isIdentChar, Char.isAlphanum, Bool.or_eq_true, beq_iff_eq]
  constructor
  · rintro ((hx | rfl) | rfl)
    · exact ⟨.inl (.inl (.inl hx)), isDigit_of_isAlpha hx⟩
    · exact ⟨.inl (.inr rfl), rfl⟩
    · exact ⟨.inr rfl, rfl⟩
  · rintro ⟨(((hx | hx) | hx) | hx), hdigit⟩
    · exact .inl (.inl hx)
    · rw [hdigit] at hx
      cases hx
    · exact .inl (.inr hx)
    · exact .inr hx

/-- No reserved word stands behind one of its beginnings. -/
theorem distinguished_reservedWords : Peg.Distinguished isIdentChar reservedWords where
  chars := by
    have hall : ∀ word ∈ reservedWords, word.toList.all isIdentChar = true := by decide +kernel
    exact fun word hword => List.all_eq_true.1 (hall word hword)
  order := by decide +kernel

/-! ## The identifier rule -/

section Rules

variable {cs : List Char}

theorem settles_keyword (h : nameAt cs ∈ reservedWords) (spacing : Spacing) (gaze : Gaze)
    (offset reach : Nat) :
    ∃ c captures reach', Settles grammar spacing gaze (.rule .keyword) ⟨cs, offset⟩ reach
      (.matched c captures reach') := by
  have hspacing : Spacing.closed ≠ .free := by decide
  exact ⟨_, _, Settles.rule (by decide)
    (Settles.word distinguished_reservedWords hspacing h offset)⟩

theorem settles_keyword_failed (h : nameAt cs ∉ reservedWords) (spacing : Spacing) (gaze : Gaze)
    (offset reach : Nat) :
    ∃ reach', Settles grammar spacing gaze (.rule .keyword) ⟨cs, offset⟩ reach (.failed reach') :=
  Settles.rule_failed (by decide)
    (Settles.word_failed distinguished_reservedWords (fun hfree => by cases hfree) h offset)

/-- A name is read up to its end. -/
theorem settles_identifier (h : IsName (nameAt cs)) (spacing : Spacing) (gaze : Gaze)
    (offset reach : Nat) :
    ∃ reach', Settles grammar spacing gaze (.rule .identifier) ⟨cs, offset⟩ reach
      (.matched ⟨cs.dropWhile isIdentChar, offset + (nameAt cs).utf8ByteSize⟩
        (if Form.atomic.shows spacing gaze then
          [.mk .identifier offset (offset + (nameAt cs).utf8ByteSize) cs []]
        else []) reach') := by
  obtain ⟨reach₁, hkeyword⟩ := settles_keyword_failed h.free .closed gaze.deny offset reach
  cases cs with
  | nil => exact absurd rfl h.nonempty
  | cons x cs =>
      have hx : isIdentChar x = true := by
        by_contra hx
        apply h.nonempty
        rw [nameAt, List.takeWhile_cons_of_neg hx]
      have hstart : isIdentStart x = true := by
        refine (isIdentStart_iff x).2 ⟨hx, h.first x ?_⟩
        rw [nameAt, String.toList_ofList, List.takeWhile_cons_of_pos hx]
        rfl
      have hbytes : offset + (nameAt (x :: cs)).utf8ByteSize
          = offset + x.utf8Size + String.utf8Len (cs.takeWhile isIdentChar) := by
        rw [nameAt, String.utf8ByteSize_ofList, List.takeWhile_cons_of_pos hx, String.utf8Len_cons]
        omega
      rw [hbytes, List.dropWhile_cons_of_pos hx]
      have hspacing : Spacing.closed ≠ .free := by decide
      exact Settles.rule (by decide)
        (.seq hspacing (.absent hkeyword)
          (.seq hspacing (.one hstart) (.star_one hspacing isIdentChar cs _)))

/-- What is no name is refused. -/
theorem settles_identifier_failed (h : ¬ IsName (nameAt cs)) (spacing : Spacing) (gaze : Gaze)
    (offset reach : Nat) :
    ∃ reach', Settles grammar spacing gaze (.rule .identifier) ⟨cs, offset⟩ reach
      (.failed reach') := by
  by_cases hreserved : nameAt cs ∈ reservedWords
  · obtain ⟨c, captures, reach₁, hkeyword⟩ :=
      settles_keyword hreserved .closed gaze.deny offset reach
    exact Settles.rule_failed (by decide) (.seq_failed (.absent_failed hkeyword))
  · obtain ⟨reach₁, hkeyword⟩ :=
      settles_keyword_failed hreserved .closed gaze.deny offset reach
    -- It is not reserved, so there is no character that a name could start with.
    have hstart : Settles grammar .closed gaze (.one isIdentStart) ⟨cs, offset⟩ reach₁
        (.failed reach₁) := by
      cases cs with
      | nil => exact .one_nil
      | cons x cs =>
          apply Settles.one_failed
          rw [← Bool.not_eq_true, isIdentStart_iff]
          rintro ⟨hx, hdigit⟩
          apply h
          have hlist : (nameAt (x :: cs)).toList = x :: cs.takeWhile isIdentChar := by
            rw [nameAt, String.toList_ofList, List.takeWhile_cons_of_pos hx]
          constructor
          · intro hempty
            rw [hempty] at hlist
            cases hlist
          · intro y hy
            rw [nameAt, String.toList_ofList] at hy
            exact List.mem_takeWhile_imp hy
          · intro y hy
            rw [hlist] at hy
            cases hy
            exact hdigit
          · exact hreserved
    exact Settles.rule_failed (by decide)
      (.seq_failed_later (fun hfree => by cases hfree) (.absent hkeyword) (.seq_failed hstart))

end Rules

/-- The fuel that a length gets pays for an identifier. -/
theorem identifier_ne_exhausted {c : Cursor} {fuel : Nat} (hfuel : matchDepth c.rest.length ≤ fuel)
    (spacing : Spacing) (gaze : Gaze) (reach : Nat) :
    run grammar fuel spacing gaze (.rule .identifier) c reach ≠ .exhausted := by
  apply Peg.run_ne_exhausted grammar_gauged rfl
  exact affords_of_matchDepth_le (by decide) hfuel

/-! ## Names of captures -/

/-- What the identifier rule has captured is a name, and the text of the capture. -/
theorem isName_of_run {fuel : Nat} {spacing : Spacing} {gaze : Gaze} {start reach reach' : Nat}
    {input : List Char} {c : Cursor} {captures inner : List (Capture Rule)} (name : Rule)
    (h : run grammar fuel spacing gaze (.rule .identifier) ⟨input, start⟩ reach
      = .matched c captures reach') :
    IsName (Capture.mk name start c.offset input inner).text := by
  have hanswered : run grammar fuel spacing gaze (.rule .identifier) ⟨input, start⟩ reach
      ≠ .exhausted := by
    rw [h]
    exact fun heq => by cases heq
  by_cases hname : IsName (nameAt input)
  · obtain ⟨reach₁, hsettles⟩ := settles_identifier hname spacing gaze start reach
    rw [hsettles.run_eq hanswered] at h
    cases h
    -- The capture covers as many bytes as the name has.
    have htext : (Capture.mk name start (start + (nameAt input).utf8ByteSize) input inner).text
        = nameAt input := by
      have htake := Peg.Capture.takeBytes_append (input.takeWhile isIdentChar)
        (input.dropWhile isIdentChar)
      rw [List.takeWhile_append_dropWhile] at htake
      rw [Capture.text, Nat.add_sub_cancel_left, nameAt, String.utf8ByteSize_ofList, htake]
    rw [htext]
    exact hname
  · obtain ⟨reach₁, hsettles⟩ := settles_identifier_failed hname spacing gaze start reach
    rw [hsettles.run_eq hanswered] at h
    cases h

namespace Piece

variable {p : Piece} {rule : Rule} {span : Span} {text : String} {ps : List Piece} {d d' : Draft}

/-- The rules whose text is a name. -/
def isNameRule (rule : Rule) : Bool := rule = .identifier || rule = .shorthand

theorem mentions_token_subset : (token rule span text).mentions ⊆
    if isNameRule rule then [text] else [] := by
  cases rule with
  | identifier => simp [isNameRule]
  | shorthand => simp [isNameRule]
  | string =>
      have hkind : (stringKind text : Kind Draft).names = [] ∧
          (stringKind text : Kind Draft).children = [] := by
        unfold stringKind
        split <;> exact ⟨rfl, rfl⟩
      simp [mentions, parts, draft?, Draft.names_node, hkind]
  | _ => simp [mentions, parts, draft?, Draft.names_node, Kind.names, Kind.children]

/-- The names of drafts are mentioned by the pieces that they are drafts of. -/
theorem names_parts_subset : (ps.flatMap parts).flatMap Draft.names ⊆ ps.flatMap mentions := by
  intro name hname
  obtain ⟨d, hd, hname⟩ := List.mem_flatMap.1 hname
  obtain ⟨q, hq, hd⟩ := List.mem_flatMap.1 hd
  have hmentioned := names_subset_mentions (List.mem_flatMap.2 ⟨d, hd, hname⟩)
  exact List.mem_flatMap.2 ⟨q, hq, hmentioned⟩

theorem mentions_subset_of_mem (h : p ∈ ps) : p.mentions ⊆ ps.flatMap mentions :=
  fun _ hname => List.mem_flatMap.2 ⟨p, h, hname⟩

theorem names_subset_of_draft? (h : p ∈ ps) (hd : p.draft? = some d) :
    d.names ⊆ ps.flatMap mentions :=
  mentions_of_draft? hd ▸ mentions_subset_of_mem h

/-- What some of the pieces mention, all of them do. -/
theorem subset_mentions_cons {ns : List String} (h : ns ⊆ ps.flatMap mentions) :
    ns ⊆ (p :: ps).flatMap mentions := by
  rw [List.flatMap_cons]
  exact List.Subset.trans h (List.subset_append_right _ _)

theorem names_links?_subset {links : List (String × Draft)} (h : links? ps = some links) :
    (links.flatMap fun link => link.2.names) ⊆ ps.flatMap mentions := by
  fun_induction links? ps generalizing links with
  | case1 =>
      cases h
      exact List.nil_subset _
  | case2 s op operand ps ls d hls hd ih =>
      cases h
      rw [List.flatMap_cons]
      refine List.append_subset.2 ⟨?_, ?_⟩
      · exact names_subset_of_draft? (List.mem_cons_of_mem _ List.mem_cons_self) hd
      · exact subset_mentions_cons (subset_mentions_cons (ih hls))
  | case3 => cases h
  | case4 => cases h

theorem names_prefixed?_subset {stop : Nat} (h : prefixed? stop ps = some d) :
    d.names ⊆ ps.flatMap mentions := by
  fun_induction prefixed? stop ps generalizing d with
  | case1 => cases h
  | case2 p => exact names_subset_of_draft? List.mem_cons_self h
  | case3 s op ps hps ih =>
      obtain ⟨e, he, rfl⟩ := Option.map_eq_some_iff.1 h
      have hoperand : e.names ⊆ (token .prefixOp s op :: ps).flatMap mentions :=
        subset_mentions_cons (ih he)
      rw [Draft.names_node]
      split <;> simpa [Kind.names, Kind.children] using hoperand
  | case4 => cases h

theorem names_suffixed?_subset {start : Nat} (h : suffixed? start d ps = some d') :
    d'.names ⊆ d.names ++ ps.flatMap mentions := by
  -- Each suffix makes a node over what was read before it, without a name of its own.
  fun_induction suffixed? start d ps with
  | case1 =>
      cases h
      simp
  | case2 d stop ds ps ih =>
      refine List.Subset.trans (ih h) ?_
      simp [Draft.names_node, Kind.names, Kind.children, mentions, parts]
  | case3 d stop name ps ih =>
      refine List.Subset.trans (ih h) ?_
      simp [Draft.names_node, Kind.names, Kind.children, Key.children, mentions, parts, draft?]
  | case4 d stop e ps ih =>
      refine List.Subset.trans (ih h) ?_
      simp [Draft.names_node, Kind.names, Kind.children, Key.children, mentions, parts]
  | case5 => cases h

/-- A rule mentions what its parts mention, and its text if that is a name. -/
theorem mentions_subset (h : Assembled rule span text ps p) :
    p.mentions ⊆ ps.flatMap mentions ++ if isNameRule rule then [text] else [] := by
  suffices hnames : p = token rule span text ∨ p.mentions ⊆ ps.flatMap mentions by
    rcases hnames with rfl | hnames
    · exact List.Subset.trans mentions_token_subset (List.subset_append_right _ _)
    · exact List.Subset.trans hnames (List.subset_append_left _ _)
  cases h with
  | token => exact .inl rfl
  | names hmentioned => exact .inr hmentioned
  | same _ hmem => exact .inr (mentions_subset_of_mem hmem)
  | @layer k _ hchildren hmentioned =>
      right
      rw [mentions_of_draft? rfl, Draft.names_node]
      refine List.append_subset.2 ⟨hmentioned, ?_⟩
      exact List.Subset.trans (hchildren.flatMap Draft.names).subset names_parts_subset
  | shorthand hmentioned =>
      right
      rw [mentions_of_draft? rfl, Draft.names_node]
      simpa [Kind.names, Kind.children, Key.children, Draft.names_node] using hmentioned
  | superclass _ hmem hd =>
      right
      simpa [mentions, parts] using names_subset_of_draft? hmem hd
  | computed _ hmem hd =>
      right
      simpa [mentions, parts] using names_subset_of_draft? hmem hd
  | index _ hmem hd =>
      right
      simpa [mentions, parts] using names_subset_of_draft? hmem hd
  | arguments _ hds =>
      right
      have hnames : (ps.flatMap parts).flatMap Draft.names ⊆ ps.flatMap mentions :=
        names_parts_subset
      rw [parts_of_mapM hds] at hnames
      exact hnames
  | dot name => exact .inr (List.nil_subset _)
  | @chain first rest d links _ hpieces hd hlinks =>
      subst hpieces
      right
      rw [mentions_of_draft? rfl, Draft.names_ofChain]
      refine List.append_subset.2 ⟨?_, ?_⟩
      · exact names_subset_of_draft? List.mem_cons_self hd
      · exact subset_mentions_cons (names_links?_subset hlinks)
  | prefixed _ hd =>
      right
      rw [mentions_of_draft? rfl]
      exact names_prefixed?_subset hd
  | @suffixed first rest d d' _ hpieces hd hresult =>
      subst hpieces
      right
      rw [mentions_of_draft? rfl, List.flatMap_cons, mentions_of_draft? hd]
      exact names_suffixed?_subset hresult

/-- All names that the piece of a capture mentions are names, since each was read by the identifier
rule. -/
theorem isName_of_ofCapture {mode : Mode} {c : Capture Rule} (hmade : c.Made grammar) :
    ∀ {p : Piece}, ofCapture mode c = .ok p → ∀ name ∈ p.mentions, IsName name := by
  induction hmade with
  | @mk rule start stop input inner fuel reach reach' spacing gaze c hbody hends _ ih =>
      subst hends
      intro p h name hname
      obtain ⟨ps, hinner, hassemble⟩ := assemble_of_ofCapture h
      have hnames := mentions_subset (assembled_of_assembleParts hassemble) hname
      rcases List.mem_append.1 hnames with hnames | hown
      · obtain ⟨q, hq, hname⟩ := List.mem_flatMap.1 hnames
        obtain ⟨x, hx, hxq⟩ := exists_of_ofCaptures hinner q (List.mem_filter.1 hq).1
        exact ih x hx hxq name hname
      · split at hown
        · next hrule =>
            obtain rfl := List.mem_singleton.1 hown
            rw [isNameRule, Bool.or_eq_true, decide_eq_true_eq, decide_eq_true_eq] at hrule
            rcases hrule with rfl | rfl
            · obtain ⟨captures, reach₁, hrun⟩ := Peg.run_rule (by decide) hbody
              exact isName_of_run .identifier hrun
            · exact isName_of_run .shorthand hbody
        · cases hown

end Piece

/-! ## Trees that were read -/

theorem isName_of_draftsIn {mode : Mode} {text : String} {body : List Draft}
    (h : draftsIn mode text = .ok body) : ∀ d ∈ body, ∀ name ∈ d.names, IsName name := by
  obtain ⟨c, start, stop, input, inner, reach, ps, hmatch, hps, hbody⟩ := captures_of_draftsIn h
  have hmade := Peg.made_of_run hmatch _ (List.mem_singleton.2 rfl)
  intro d hd name hname
  cases hmade with
  | mk _ _ hparts =>
      -- The draft is that of a piece, and the piece is that of a capture inside of the program.
      rw [← Piece.parts_of_mapM hbody] at hd
      obtain ⟨q, hq, hd⟩ := List.mem_flatMap.1 hd
      obtain ⟨x, hx, hxq⟩ := Piece.exists_of_ofCaptures hps q (List.mem_filter.1 hq).1
      apply Piece.isName_of_ofCapture (hparts x hx) hxq
      exact Piece.names_subset_mentions (List.mem_flatMap.2 ⟨d, hd, hname⟩)

/-- A part of a program has names of the program. -/
theorem Ast.Part.names_subset {ι : Type} {a b : Ast ι} (h : b.Part a) : b.kind.names ⊆ a.names := by
  induction h with
  | self =>
      cases b with
      | node i k =>
          rw [names_node]
          exact List.subset_append_left _ _
  | @inside a c hc _ ih =>
      cases a with
      | node i k =>
          rw [names_node]
          intro name hname
          exact List.mem_append_right _ (List.mem_flatMap.2 ⟨c, hc, ih hname⟩)

/-- Every name in the tree of a text is a name. -/
theorem isName_of_parse {mode : Mode} {text : String} {t : Tree} (h : parse mode text = .ok t)
    (id : NodeId) : ∀ name ∈ (t.kind id).names, IsName name := by
  obtain ⟨body, a, hdrafts, hrooted, hspans⟩ := parse_rooted h
  obtain ⟨b, hrooted', hsize, -⟩ := parse_whole h
  obtain rfl : b = a := hrooted'.program_eq.symm.trans hrooted.program_eq
  -- The program has the names of its statements.
  have hall : ∀ name ∈ b.names, IsName name := by
    rw [← Ast.names_mapNotes t.span, hspans, Ast.names_node]
    intro name hname
    have hmem : name ∈ (body.map Draft.resolve).flatMap Ast.names := hname
    rw [List.flatMap_map] at hmem
    obtain ⟨d, hd, hname⟩ := List.mem_flatMap.1 hmem
    exact isName_of_draftsIn hdrafts d hd name (d.names_resolve hname)
  intro name hname
  by_cases hid : id.index < t.size
  · obtain ⟨c, hc, rfl⟩ := Ast.Part.exists_of_mem (hrooted.toHeld.mem_notes_of_size_le hsize hid)
    rw [(hrooted.toHeld.of_part hc).holds.kind_eq, Kind.names_map] at hname
    exact hall name (hc.names_subset hname)
  · have hnone : t.node? id = none := Array.getElem?_eq_none (Nat.le_of_not_lt hid)
    rw [Tree.kind, hnone] at hname
    cases hname

/-- At every place of a text the identifier rule reads the longest run of name characters if that is
a name, and fails otherwise: if there is none, if it starts with a digit, or if it is reserved. And
in the tree of a text, whatever its mode, all names are such names. -/
theorem names_read :
    (∀ (c : Cursor) (spacing : Spacing) (gaze : Gaze) (reach fuel : Nat),
      matchDepth c.rest.length ≤ fuel →
      (IsName (nameAt c.rest) → ∃ reach',
        run grammar fuel spacing gaze (.rule .identifier) c reach =
          .matched ⟨c.rest.dropWhile isIdentChar, c.offset + (nameAt c.rest).utf8ByteSize⟩
            (if Form.atomic.shows spacing gaze then
              [.mk .identifier c.offset (c.offset + (nameAt c.rest).utf8ByteSize) c.rest []]
            else []) reach') ∧
      (¬ IsName (nameAt c.rest) → ∃ reach',
        run grammar fuel spacing gaze (.rule .identifier) c reach = .failed reach')) ∧
    ∀ (mode : Mode) (text : String) (t : Tree), parse mode text = .ok t →
      ∀ id, ∀ name ∈ (t.kind id).names, IsName name := by
  constructor
  · intro c spacing gaze reach fuel hfuel
    have hanswered := identifier_ne_exhausted hfuel spacing gaze reach
    constructor
    · intro hname
      obtain ⟨reach', hsettles⟩ := settles_identifier hname spacing gaze c.offset reach
      exact ⟨reach', hsettles.run_eq hanswered⟩
    · intro hname
      obtain ⟨reach', hsettles⟩ := settles_identifier_failed hname spacing gaze c.offset reach
      exact ⟨reach', hsettles.run_eq hanswered⟩
  · intro mode text t h id
    exact isName_of_parse h id

/-- A label that starts with a reserved word is a name, and the reserved word alone is none. -/
theorem names_read_doing :
    IsName "doing" ∧ ¬ IsName "do" ∧
    (∃ reach, run grammar (matchDepth 6) .tight .consuming (.rule .identifier)
      ⟨"doing:".toList, 0⟩ 0
        = .matched ⟨[':'], 5⟩ [.mk .identifier 0 5 "doing:".toList []] reach) ∧
    (∃ reach, run grammar (matchDepth 3) .tight .consuming (.rule .identifier)
      ⟨"do:".toList, 0⟩ 0 = .failed reach) ∧
    ∃ t : Tree, parse .source "doing: while (a) break doing;" = .ok t ∧
      (t.kind ⟨4⟩).names = ["doing"] ∧ ∀ name ∈ (t.kind ⟨4⟩).names, IsName name := by
  obtain ⟨hrule, htree⟩ := names_read
  have hfirst : ∀ x ∈ "doing".toList.head?, x.isDigit = false := by
    intro x hx
    cases hx
    rfl
  have hdoing : IsName "doing" :=
    ⟨by decide, List.all_eq_true.1 (by decide), hfirst, by decide⟩
  have hdo : ¬ IsName "do" := fun h => h.free (by decide)
  have hmatch := (hrule ⟨"doing:".toList, 0⟩ .tight .consuming 0 (matchDepth 6) (by decide)).1 hdoing
  have hfail := (hrule ⟨"do:".toList, 0⟩ .tight .consuming 0 (matchDepth 3) (by decide)).2 hdo
  have hok : (parse .source "doing: while (a) break doing;").toOption.map
      (fun t => (t.kind ⟨4⟩).names) = some ["doing"] := by
    decide +kernel
  obtain ⟨t, ht, hnames⟩ := Option.map_eq_some_iff.1 hok
  have hparse := eq_ok_of_toOption ht
  exact ⟨hdoing, hdo, hmatch, hfail, t, hparse, hnames, htree _ _ t hparse _⟩

end LogLabel.Program
