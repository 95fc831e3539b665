import LogLabel.Environment
import LogLabel.Proofs.Text.Lowercase

set_option autoImplicit false

/-!
# Entries of the exception lists

The text of a list is cut at separators: a comma with all the white space around it, found from
left to right. Trimming what is cut out makes this the same as cutting at the commas alone, so
the entries can be told without the search.

* `entriesOf value`: the entries of a text by its commas.
* `trimmed_splitEntries`: the two ways of cutting agree once the pieces are trimmed.
* `normalizeList_eq_entriesOf`: so the two lists of entries are equal, every entry has characters,
  and a text of commas and white space makes no exception.
-/

namespace LogLabel

open Text (isBlank trimChars lowerFrom BareEnds)

/-- The entries of a text: cut at every comma, trimmed, in lower case, without empty ones. -/
def entriesOf (value : String) : List String :=
  ((value.toList.splitOn ',').map fun piece => Text.lower (Text.trim (String.ofList piece)))
    |>.filter (· ≠ "")

/-! ## Separators -/

section Separators

variable {current cs rest : List Char}

/-- A separator is a comma between white space. -/
theorem exists_of_afterSeparator? (h : afterSeparator? cs = some rest) :
    ∃ before after, cs = before ++ ',' :: (after ++ rest) ∧
      (∀ c ∈ before, isBlank c = true) ∧ ∀ c ∈ after, isBlank c = true := by
  unfold afterSeparator? at h
  split at h
  · cases h
  · next c tail hcs =>
      split at h <;> cases h
      next hc =>
        subst hc
        refine ⟨cs.takeWhile isBlank, tail.takeWhile isBlank, ?_, ?_, ?_⟩
        · rw [List.takeWhile_append_dropWhile, ← hcs, List.takeWhile_append_dropWhile]
        · exact fun c => List.mem_takeWhile_imp
        · exact fun c => List.mem_takeWhile_imp

/-- Where a comma stands, a separator matches. -/
theorem ne_comma_of_afterSeparator? {c : Char} (h : afterSeparator? (c :: cs) = none) : c ≠ ',' := by
  rintro rfl
  unfold afterSeparator? at h
  cases h

theorem splitEntries_of_some {c : Char} (h : afterSeparator? (c :: cs) = some rest) :
    splitEntries current (c :: cs) = current.reverse :: splitEntries [] rest := by
  rw [splitEntries]
  split
  · next heq => rw [h] at heq; cases heq; rfl
  · next heq => rw [h] at heq; cases heq

theorem splitEntries_of_none {c : Char} (h : afterSeparator? (c :: cs) = none) :
    splitEntries current (c :: cs) = splitEntries (c :: current) cs := by
  rw [splitEntries]
  split
  · next heq => rw [h] at heq; cases heq
  · rfl

theorem comma_not_mem_of_blank (h : ∀ c ∈ cs, isBlank c = true) : ',' ∉ cs :=
  fun hmem => by cases h ',' hmem

/-- White space before a text is trimmed away from its first piece. -/
theorem trimmed_blank_append {blanks : List Char} (h : ∀ c ∈ blanks, isBlank c = true) :
    ((blanks ++ cs).splitOn ',').map trimChars = (cs.splitOn ',').map trimChars := by
  rw [Text.splitOn_append_of_not_mem (comma_not_mem_of_blank h)]
  cases cs.splitOn ',' with
  | nil => rfl
  | cons piece pieces =>
      rw [List.modifyHead_cons, List.map_cons, List.map_cons, Text.trimChars_blank_append h]

/-- Once they are trimmed, the pieces between separators are those between commas. -/
theorem trimmed_splitEntries (current cs : List Char) (hcurrent : ',' ∉ current) :
    (splitEntries current cs).map trimChars
      = ((current.reverse ++ cs).splitOn ',').map trimChars := by
  rw [← List.mem_reverse] at hcurrent
  -- Along the search for separators. Where one is found the two cuts differ by white space, which
  -- trimming takes away on both sides of them.
  induction current, cs using splitEntries.induct with
  | case1 current =>
      rw [splitEntries, List.append_nil, List.splitOn_eq_singleton hcurrent]
  | case2 current c cs rest hrest ih =>
      obtain ⟨before, after, hcs, hbefore, hafter⟩ := exists_of_afterSeparator? hrest
      have hfirst : ',' ∉ current.reverse ++ before := by
        rw [List.mem_append, not_or]
        exact ⟨hcurrent, comma_not_mem_of_blank hbefore⟩
      calc (splitEntries current (c :: cs)).map trimChars
          = trimChars current.reverse :: (rest.splitOn ',').map trimChars := by
            rw [splitEntries_of_some hrest, List.map_cons, ih List.not_mem_nil]
            rfl
        _ = trimChars (current.reverse ++ before)
              :: ((after ++ rest).splitOn ',').map trimChars := by
            rw [Text.trimChars_append_blank hbefore, trimmed_blank_append hafter]
        _ = ((current.reverse ++ (c :: cs)).splitOn ',').map trimChars := by
            rw [hcs, ← List.append_assoc, List.splitOn_append_cons_self,
              List.splitOn_eq_singleton hfirst]
            rfl
  | case3 current c cs hnone ih =>
      rw [splitEntries_of_none hnone, ih, List.reverse_cons, List.append_assoc, List.singleton_append]
      rw [List.reverse_cons, List.mem_append, List.mem_singleton, not_or]
      exact ⟨hcurrent, Ne.symm (ne_comma_of_afterSeparator? hnone)⟩

end Separators

/-! ## Entries -/

theorem normalizeList_some (value : String) : normalizeList (some value) = entriesOf value := by
  have htrimmed := trimmed_splitEntries [] value.toList List.not_mem_nil
  have hentries := congrArg (List.map fun cs => Text.lower (String.ofList cs)) htrimmed
  rw [List.map_map, List.map_map] at hentries
  simp only [normalizeList, entriesOf, Text.trim, String.toList_ofList]
  exact congrArg (List.filter (· ≠ "")) hentries

/-- An entry is the lower-case form of a trimmed piece between commas. -/
theorem exists_of_mem_entriesOf {value entry : String} (h : entry ∈ entriesOf value) :
    entry ≠ "" ∧ ∃ piece ∈ value.toList.splitOn ',',
      entry.toList = lowerFrom [] (trimChars piece) := by
  obtain ⟨hmem, hne⟩ := List.mem_filter.1 h
  obtain ⟨piece, hpiece, rfl⟩ := List.mem_map.1 hmem
  refine ⟨of_decide_eq_true hne, piece, hpiece, ?_⟩
  simp only [Text.lower, Text.trim, String.toList_ofList]

/-- Commas and white space have no entries. -/
theorem entriesOf_eq_nil {value : String}
    (h : ∀ c ∈ value.toList, c = ',' ∨ isBlank c = true) : entriesOf value = [] := by
  rw [List.eq_nil_iff_forall_not_mem]
  intro entry hentry
  obtain ⟨hne, piece, hpiece, htext⟩ := exists_of_mem_entriesOf hentry
  obtain ⟨hcomma, hmem⟩ := Text.of_mem_splitOn hpiece
  have hblank : ∀ c ∈ piece, isBlank c = true := fun c hc =>
    (h c (hmem c hc)).resolve_left fun heq => hcomma (heq ▸ hc)
  have htrim : trimChars piece = [] := by
    rw [← List.nil_append piece, Text.trimChars_append_blank hblank]
    rfl
  rw [htrim] at htext
  exact hne (String.toList_eq_nil_iff.1 htext)

/-- The entries of a list are those that its commas tell, in their order. Each one has characters,
none of them a comma, and no white space at its ends; and a text of commas and white space makes no
exception, in whichever of the three lists it stands. -/
theorem normalizeList_eq_entriesOf (value : String) :
    normalizeList (some value) = entriesOf value ∧
    (∀ entry ∈ normalizeList (some value),
      entry ≠ "" ∧ BareEnds entry.toList ∧ ',' ∉ entry.toList) ∧
    ((∀ c ∈ value.toList, c = ',' ∨ isBlank c = true) →
      normalizeList (some value) = [] ∧
      (∀ file level, Overrides.ofTexts (some value) file level = .ofTexts none file level) ∧
      (∀ context level, Overrides.ofTexts context (some value) level = .ofTexts context none level) ∧
      (∀ context file, Overrides.ofTexts context file (some value) = .ofTexts context file none) ∧
      ∀ context filename level,
        (Overrides.ofTexts (some value) (some value) (some value)).grants context filename level
          = false) := by
  rw [normalizeList_some]
  refine ⟨rfl, fun entry hentry => ?_, fun h => ?_⟩
  · obtain ⟨hne, piece, hpiece, htext⟩ := exists_of_mem_entriesOf hentry
    rw [htext]
    refine ⟨hne, (Text.bareEnds_trimChars piece).lower, fun hcomma => ?_⟩
    obtain ⟨hnot, -⟩ := Text.of_mem_splitOn hpiece
    exact hnot ((Text.trimChars_sublist piece).subset (Text.mem_of_isMark_lower hcomma rfl))
  · have hnone : normalizeList (some value) = normalizeList none := by
      rw [normalizeList_some, entriesOf_eq_nil h, normalizeList]
    refine ⟨entriesOf_eq_nil h, ?_⟩
    simp only [Overrides.ofTexts, hnone, implies_true, true_and]
    exact fun _ _ _ => rfl

/-- Two commas with an ideographic space between them. -/
theorem normalizeList_eq_entriesOf_commas :
    (∀ c ∈ " ,\u3000,".toList, c = ',' ∨ isBlank c = true) ∧
    normalizeList (some " ,\u3000,") = [] ∧
    ∀ context filename level,
      (Overrides.ofTexts (some " ,\u3000,") (some " ,\u3000,") (some " ,\u3000,")).grants
        context filename level = false := by
  have hmarks : ∀ c ∈ " ,\u3000,".toList, c = ',' ∨ isBlank c = true := by
    have hall : (" ,\u3000,".toList.all fun c => c == ',' || isBlank c) = true := by decide
    simpa only [List.all_eq_true, Bool.or_eq_true, beq_iff_eq] using hall
  obtain ⟨-, -, hnone⟩ := normalizeList_eq_entriesOf " ,\u3000,"
  obtain ⟨hnil, -, -, -, hgrants⟩ := hnone hmarks
  exact ⟨hmarks, hnil, hgrants⟩

end LogLabel
