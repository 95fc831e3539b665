import LogLabel.Proofs.Text.Pieces
import LogLabel.Text.Lowercase
import Mathlib.Data.List.Forall2

set_option autoImplicit false

/-!
# What lower-casing leaves alone

Lower-casing puts one or more characters in the place of each one. Nothing disappears, and no
white space and no comma comes from anything but itself.

* `isMark c`: white space or a comma.
* `LowerForm c piece`: `piece` may stand in the place of `c`.
* `lowerFrom_forms`: a text is lowered character by character, each one to such a form.
* `mem_of_isMark_lower`, `BareEnds.lower`: so a text without commas gets none, and a trimmed text
  stays trimmed.
-/

namespace LogLabel.Text

/-! ## Characters -/

/-- White space or a comma. -/
def isMark (c : Char) : Bool := isBlank c || c == ','

theorem isMark_of_isBlank {c : Char} (h : isBlank c = true) : isMark c = true := by
  rw [isMark, h, Bool.true_or]

/-- The ranges of the code points of marks. -/
def markRanges : List (Nat × Nat) :=
  [(9, 13), (0x20, 0x20), (0x2C, 0x2C), (0x85, 0x85), (0xA0, 0xA0), (0x1680, 0x1680),
    (0x2000, 0x200A), (0x2028, 0x2029), (0x202F, 0x202F), (0x205F, 0x205F), (0x3000, 0x3000)]

theorem inRanges_of_isMark {c : Char} (h : isMark c = true) : inRanges markRanges c.toNat = true := by
  have hcomma : (c == ',') = true → c.toNat = 0x2C := fun hc => beq_iff_eq.1 hc ▸ rfl
  rw [isMark, Bool.or_eq_true] at h
  replace h := h.imp_right hcomma
  simp only [isBlank, Bool.or_eq_true, Bool.and_eq_true, decide_eq_true_eq, beq_iff_eq] at h
  simp only [inRanges, markRanges, List.any_cons, List.any_nil, Bool.or_eq_true, Bool.and_eq_true,
    decide_eq_true_eq]
  omega

/-- Whether no mark lies between the first and the last code point that a run maps to. -/
def CaseRun.isClear (r : CaseRun) : Bool :=
  markRanges.all fun range => r.last + r.delta < range.1 || range.2 < r.first + r.delta

theorem isClear_lowerRuns : ∀ r ∈ lowerRuns, r.isClear = true := by
  decide +kernel

/-- A number is the code point of its character, or it is none and stands for the first one. -/
theorem toNat_ofNat_eq_or (n : Nat) : (Char.ofNat n).toNat = n ∨ (Char.ofNat n).toNat = 0 := by
  unfold Char.ofNat
  by_cases h : n.isValidChar
  · rw [dif_pos h]
    exact .inl rfl
  · rw [dif_neg h]
    exact .inr rfl

/-- A run of the table maps to no mark. -/
theorem isMark_ofNat_of_has {r : CaseRun} (hr : r ∈ lowerRuns) {n : Nat} (hn : r.has n = true) :
    isMark (Char.ofNat (n + r.delta).toNat) = false := by
  rw [Bool.eq_false_iff]
  intro hmark
  obtain ⟨range, hrange, hin⟩ := List.any_eq_true.1 (inRanges_of_isMark hmark)
  have hclear := List.all_eq_true.1 (isClear_lowerRuns r hr) range hrange
  have hpos : ∀ range ∈ markRanges, 0 < range.1 := by decide
  have hlo := hpos range hrange
  -- The first character, which stands for a number that is no code point, is no mark either.
  have hcode := toNat_ofNat_eq_or (n + r.delta).toNat
  simp only [CaseRun.has, Bool.and_eq_true, Bool.or_eq_true, decide_eq_true_eq] at hn hin hclear
  omega

/-- The characters of `piece` may stand in the place of `c`: there are some, and a mark among them is
`c` itself. -/
structure LowerForm (c : Char) (piece : List Char) : Prop where
  ne_nil : piece ≠ []
  eq_of_isMark : ∀ d ∈ piece, isMark d = true → d = c

theorem LowerForm.single {c d : Char} (h : isMark d = true → d = c) : LowerForm c [d] where
  ne_nil := List.cons_ne_nil _ _
  eq_of_isMark _ hd hmark := by
    obtain rfl := List.mem_singleton.1 hd
    exact h hmark

theorem lowerForm_lowerChar (c : Char) : LowerForm c (lowerChar c) := by
  have hlatin : ∀ n < 128, isMark (Char.ofNat n).toLower = true →
      (Char.ofNat n).toLower = Char.ofNat n := by decide
  have hdotted : ['i', '\u0307'].any isMark = false := by decide
  rw [lowerChar]
  split
  · next hc =>
      have hlower := hlatin c.toNat hc
      rw [Char.ofNat_toNat] at hlower
      exact .single hlower
  · split
    · exact ⟨List.cons_ne_nil _ _, fun d hd hmark => absurd hmark (List.any_eq_false.1 hdotted d hd)⟩
    · split
      · next r hr =>
          have hhas : r.has c.toNat = true := List.find?_some (p := fun r => CaseRun.has r c.toNat) hr
          have hno := isMark_ofNat_of_has (List.mem_of_find?_eq_some hr) hhas
          exact .single fun hmark => absurd hmark (Bool.eq_false_iff.1 hno)
      · exact .single fun _ => rfl

/-! ## Texts -/

/-- A text is lowered character by character. -/
theorem lowerFrom_forms (before cs : List Char) :
    ∃ pieces, List.Forall₂ LowerForm cs pieces ∧ lowerFrom before cs = pieces.flatten := by
  induction cs generalizing before with
  | nil => exact ⟨[], .nil, rfl⟩
  | cons c cs ih =>
      obtain ⟨pieces, hforms, heq⟩ := ih (c :: before)
      rw [lowerFrom, heq]
      refine ⟨_ :: pieces, .cons ?_ hforms, rfl⟩
      split
      · refine .single fun hmark => ?_
        split at hmark <;> cases hmark
      · exact lowerForm_lowerChar c

section Lower

variable {cs : List Char} {pieces : List (List Char)} {d : Char}

theorem LowerForm.exists_of_mem (h : List.Forall₂ LowerForm cs pieces) {piece : List Char}
    (hpiece : piece ∈ pieces) : ∃ c ∈ cs, LowerForm c piece := by
  induction h with
  | nil => cases hpiece
  | cons hform _ ih =>
      rcases List.mem_cons.1 hpiece with rfl | hpiece
      · exact ⟨_, List.mem_cons_self, hform⟩
      · obtain ⟨c, hc, hform⟩ := ih hpiece
        exact ⟨c, List.mem_cons_of_mem _ hc, hform⟩

/-- A mark of a lowered text was there before. -/
theorem mem_of_isMark_lower (hd : d ∈ lowerFrom [] cs) (hmark : isMark d = true) : d ∈ cs := by
  obtain ⟨pieces, hforms, heq⟩ := lowerFrom_forms [] cs
  rw [heq] at hd
  obtain ⟨piece, hpiece, hd⟩ := List.mem_flatten.1 hd
  obtain ⟨c, hc, hform⟩ := LowerForm.exists_of_mem hforms hpiece
  exact hform.eq_of_isMark d hd hmark ▸ hc

/-- The character that `pick` takes from the first form is no white space, if the first character is
none. -/
theorem LowerForm.findSome?_bare (h : List.Forall₂ LowerForm cs pieces)
    (hfirst : ∀ c, cs.head? = some c → isBlank c = false) {pick : List Char → Option Char}
    (hpick : ∀ piece ≠ [], ∃ d ∈ piece, pick piece = some d) :
    ∀ d, pieces.findSome? pick = some d → isBlank d = false := by
  intro d hd
  cases h with
  | nil => cases hd
  | @cons c piece _ _ hform _ =>
      obtain ⟨d', hmem, hd'⟩ := hpick piece hform.ne_nil
      rw [List.findSome?_cons, hd'] at hd
      cases hd
      rw [Bool.eq_false_iff]
      intro hblank
      obtain rfl := hform.eq_of_isMark _ hmem (isMark_of_isBlank hblank)
      exact Bool.eq_false_iff.1 (hfirst _ rfl) hblank

/-- A text with bare ends keeps them. -/
theorem BareEnds.lower (h : BareEnds cs) : BareEnds (lowerFrom [] cs) := by
  obtain ⟨pieces, hforms, heq⟩ := lowerFrom_forms [] cs
  rw [heq]
  refine ⟨?_, ?_⟩
  · rw [List.head?_flatten]
    refine LowerForm.findSome?_bare hforms h.first fun piece hne => ?_
    exact ⟨piece.head hne, List.head_mem hne, List.head?_eq_some_head hne⟩
  · rw [List.getLast?_flatten]
    refine LowerForm.findSome?_bare (List.forall₂_reverse_iff.2 hforms) ?_ fun piece hne => ?_
    · rw [List.head?_reverse]
      exact h.last
    · exact ⟨piece.getLast hne, List.getLast_mem hne, List.getLast?_eq_getLast_of_ne_nil hne⟩

end Lower

end LogLabel.Text
