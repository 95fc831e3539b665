import LogLabel.Text.Blank
import LogLabel.Text.Split
import Mathlib.Data.List.DropRight
import Mathlib.Data.List.TakeWhile

set_option autoImplicit false

/-!
# Pieces of a text

Cutting a text at a character, and trimming what is cut out.

* `split_eq_splitOn`: the pieces are those of `List.splitOn`, so that its laws are at hand.
* `splitOn_append_of_not_mem`: a text without the separator goes into the first piece.
* `BareEnds cs`: neither the first nor the last character is white space; `bareEnds_trimChars`:
  trimming brings this about.
* `trimChars_blank_append`, `trimChars_append_blank`: white space at an end is trimmed away.
-/

namespace LogLabel.Text

/-! ## Splitting -/

theorem split_eq_splitOn (separator : Char) (cs : List Char) :
    split separator cs = cs.splitOn separator := by
  induction cs with
  | nil => rfl
  | cons c cs ih =>
      simp only [split, ih, List.splitOn_cons_eq_if_modifyHead, beq_iff_eq]
      split
      · rfl
      · cases hsplit : cs.splitOn separator with
        | nil => exact absurd hsplit (List.splitOn_ne_nil separator cs)
        | cons piece pieces => rfl

section SplitOn

variable {separator : Char} {xs ys piece : List Char}

/-- A text without the separator goes into the first piece. -/
theorem splitOn_append_of_not_mem (h : separator ∉ xs) :
    (xs ++ ys).splitOn separator = (ys.splitOn separator).modifyHead (xs ++ ·) := by
  induction xs with
  | nil => cases hsplit : ys.splitOn separator <;> simp [hsplit]
  | cons x xs ih =>
      rw [List.mem_cons, not_or] at h
      rw [List.cons_append, List.splitOn_cons_eq_if_modifyHead, if_neg (by simpa using Ne.symm h.1),
        ih h.2, List.modifyHead_modifyHead]
      rfl

/-- The characters of a piece are those of the text other than the separator. -/
theorem of_mem_splitOn (h : piece ∈ xs.splitOn separator) :
    separator ∉ piece ∧ ∀ c ∈ piece, c ∈ xs := by
  induction xs generalizing piece with
  | nil =>
      obtain rfl : piece = [] := List.mem_singleton.1 h
      exact ⟨List.not_mem_nil, fun c hc => hc⟩
  | cons x xs ih =>
      simp only [List.splitOn_cons_eq_if_modifyHead, beq_iff_eq] at h
      split at h
      · rcases List.mem_cons.1 h with rfl | h
        · exact ⟨List.not_mem_nil, fun c hc => by cases hc⟩
        · exact ⟨(ih h).1, fun c hc => List.mem_cons_of_mem x ((ih h).2 c hc)⟩
      · next hx =>
          cases hsplit : xs.splitOn separator with
          | nil => exact absurd hsplit (List.splitOn_ne_nil separator xs)
          | cons first rest =>
              rw [hsplit] at h ih
              rcases List.mem_cons.1 h with rfl | h
              · obtain ⟨hfirst, hmem⟩ := ih List.mem_cons_self
                exact ⟨List.not_mem_cons_of_ne_of_not_mem (Ne.symm hx) hfirst, List.cons_subset_cons x hmem⟩
              · obtain ⟨hpiece, hmem⟩ := ih (List.mem_cons_of_mem _ h)
                exact ⟨hpiece, fun c hc => List.mem_cons_of_mem x (hmem c hc)⟩

end SplitOn

/-! ## Trimming -/

section Trimming

variable {cs blanks : List Char}

/-- Neither the first nor the last character is white space. -/
structure BareEnds (cs : List Char) : Prop where
  first : ∀ c, cs.head? = some c → isBlank c = false
  last : ∀ c, cs.getLast? = some c → isBlank c = false

theorem trimEndChars_eq_rdropWhile (cs : List Char) : trimEndChars cs = cs.rdropWhile isBlank := rfl

theorem trimChars_sublist (cs : List Char) : (trimChars cs).Sublist cs :=
  (List.rdropWhile_prefix isBlank (trimStartChars cs)).sublist.trans (List.dropWhile_sublist isBlank)

/-- What is trimmed has bare ends. -/
theorem bareEnds_trimChars (cs : List Char) : BareEnds (trimChars cs) where
  first c hc := by
    obtain ⟨blanks, hblanks⟩ := List.rdropWhile_prefix isBlank (trimStartChars cs)
    have hhead := List.head?_dropWhile_not isBlank cs
    rw [← trimStartChars, ← hblanks, List.head?_append] at hhead
    rw [trimChars, trimEndChars_eq_rdropWhile] at hc
    rw [hc] at hhead
    exact hhead
  last c hc := by
    obtain ⟨hne, rfl⟩ := List.mem_getLast?_eq_getLast hc
    exact Bool.eq_false_iff.2 (List.rdropWhile_last_not isBlank (trimStartChars cs) hne)

theorem trimChars_blank_append (hblanks : ∀ c ∈ blanks, isBlank c = true) :
    trimChars (blanks ++ cs) = trimChars cs := by
  rw [trimChars, trimStartChars, List.dropWhile_append_of_pos hblanks]
  rfl

theorem trimEndChars_append_blank (hblanks : ∀ c ∈ blanks, isBlank c = true) :
    trimEndChars (cs ++ blanks) = trimEndChars cs := by
  rw [trimEndChars, List.reverse_append, List.dropWhile_append_of_pos]
  · rfl
  · exact fun c hc => hblanks c (List.mem_reverse.1 hc)

theorem trimChars_append_blank (hblanks : ∀ c ∈ blanks, isBlank c = true) :
    trimChars (cs ++ blanks) = trimChars cs := by
  rw [trimChars, trimChars, trimStartChars, trimStartChars, List.dropWhile_append]
  split
  -- White space only: nothing is left, on either side.
  · next hempty =>
      rw [List.isEmpty_iff.1 hempty, List.dropWhile_eq_nil_iff.2 hblanks]
  · exact trimEndChars_append_blank hblanks

end Trimming

end LogLabel.Text
