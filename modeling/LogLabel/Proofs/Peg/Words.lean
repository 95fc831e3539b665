import LogLabel.Proofs.Peg.Settled
import LogLabel.Proofs.Peg.Spans
import Mathlib.Data.List.TakeWhile

set_option autoImplicit false

/-!
# Longest words

A word of a list is matched as the first alternative that starts the text, and it counts only
where no further character of a word follows. A choice that was taken is not taken back, so a word
behind one of its own beginnings would be missed. Where no word stands behind such a beginning, the
characters of words that the text starts with are read as a whole, or not at all.

* `Settles.star_one`: a repeated class reads as many of its characters as there are.
* `Settles.choice`, `Settles.choice_failed`: a choice between texts takes the first that is there.
* `Distinguished p words`: words of the class, none of them behind one of its beginnings.
* `Settles.word`, `Settles.word_failed`: the longest run of the class is one of the words, or none of
  them is matched.
-/

namespace LogLabel.Peg

open Peg.Expr (lit lits)

variable {ρ : Type} {g : Grammar ρ} {spacing : Spacing} {gaze : Gaze} {reach : Nat}

/-! ## Texts that are there -/

theorem Cursor.eat_append (word rest : List Char) :
    ∀ offset, (⟨word ++ rest, offset⟩ : Cursor).eat word
      = some ⟨rest, offset + String.utf8Len word⟩ := by
  induction word with
  | nil =>
      intro offset
      rfl
  | cons x word ih =>
      intro offset
      rw [List.cons_append, Cursor.eat]
      simp only [if_true]
      rw [ih, String.utf8Len_cons, Nat.add_assoc, Nat.add_comm x.utf8Size]

/-- A text that is eaten stands at the front. -/
theorem Cursor.prefix_of_eat {word : List Char} {c c' : Cursor} (h : c.eat word = some c') :
    word <+: c.rest := by
  rw [(Cursor.after_eat h).rest_eq]
  exact List.prefix_append _ _

/-- A text that does not stand at the front is not eaten. -/
theorem Cursor.eat_eq_none {word cs : List Char} (h : ¬ word <+: cs) (offset : Nat) :
    (⟨cs, offset⟩ : Cursor).eat word = none := by
  cases heat : (⟨cs, offset⟩ : Cursor).eat word with
  | none => rfl
  | some c => exact absurd (Cursor.prefix_of_eat heat) h

namespace Settles

/-! ## Repeated classes -/

theorem further_one (hspacing : spacing ≠ .free) (accepts : Char → Bool) (cs : List Char) :
    ∀ offset, Settles g spacing gaze (.further (.one accepts)) ⟨cs, offset⟩ reach
      (.matched ⟨cs.dropWhile accepts, offset + String.utf8Len (cs.takeWhile accepts)⟩ [] reach) := by
  induction cs with
  | nil =>
      intro offset
      exact .further_nil hspacing .one_nil
  | cons x cs ih =>
      intro offset
      cases hx : accepts x with
      | false =>
          rw [List.dropWhile_cons_of_neg (by simp [hx]), List.takeWhile_cons_of_neg (by simp [hx])]
          exact .further_nil hspacing (.one_failed hx)
      | true =>
          rw [List.dropWhile_cons_of_pos hx, List.takeWhile_cons_of_pos hx, String.utf8Len_cons,
            Nat.add_comm _ x.utf8Size, ← Nat.add_assoc]
          exact .further_cons hspacing (.one hx) (ih _)

/-- A repeated class reads as many of its characters as there are. -/
theorem star_one (hspacing : spacing ≠ .free) (accepts : Char → Bool) (cs : List Char)
    (offset : Nat) :
    Settles g spacing gaze (.star (.one accepts)) ⟨cs, offset⟩ reach
      (.matched ⟨cs.dropWhile accepts, offset + String.utf8Len (cs.takeWhile accepts)⟩ [] reach) :=
  .star hspacing (further_one hspacing accepts cs offset)

/-- No character of the class follows. -/
theorem boundary {accepts : Char → Bool} {cs : List Char}
    (h : ∀ x ∈ cs.head?, accepts x = false) (offset : Nat) :
    Settles g spacing gaze (.absent (.one accepts)) ⟨cs, offset⟩ reach
      (.matched ⟨cs, offset⟩ [] reach) := by
  cases cs with
  | nil => exact .absent .one_nil
  | cons x cs => exact .absent (.one_failed (h x rfl))

/-! ## Choice between texts -/

/-- A choice between texts takes the first of them that is there. -/
theorem choice {before after : List String} {word : String} {rest : List Char}
    (hbefore : ∀ early ∈ before, ¬ early.toList <+: word.toList ++ rest) (offset : Nat) :
    Settles g spacing gaze (lits (before ++ word :: after)) ⟨word.toList ++ rest, offset⟩ reach
      (.matched ⟨rest, offset + String.utf8Len word.toList⟩ [] reach) := by
  induction before with
  | nil =>
      have hword : Settles g spacing gaze (lit word) ⟨word.toList ++ rest, offset⟩ reach
          (.matched ⟨rest, offset + String.utf8Len word.toList⟩ [] reach) :=
        .text (Cursor.eat_append word.toList rest offset)
      cases after with
      | nil => exact hword
      | cons next after => exact .left hword
  | cons early before ih =>
      obtain ⟨hearly, hlater⟩ := List.forall_mem_cons.1 hbefore
      have hfailed : Settles g spacing gaze (lit early) ⟨word.toList ++ rest, offset⟩ reach
          (.failed reach) := .text_failed (Cursor.eat_eq_none hearly offset)
      cases before with
      | nil => exact .right hfailed (ih hlater)
      | cons next before => exact .right hfailed (ih hlater)

/-- A choice between texts fails if none of them is there. -/
theorem choice_failed {words : List String} {cs : List Char}
    (h : ∀ word ∈ words, ¬ word.toList <+: cs) (offset : Nat) :
    Settles g spacing gaze (lits words) ⟨cs, offset⟩ reach (.failed reach) := by
  induction words with
  | nil =>
      cases cs with
      | nil => exact .one_nil
      | cons x cs => exact .one_failed rfl
  | cons word words ih =>
      obtain ⟨hword, hlater⟩ := List.forall_mem_cons.1 h
      have hfailed : Settles g spacing gaze (lit word) ⟨cs, offset⟩ reach (.failed reach) :=
        .text_failed (Cursor.eat_eq_none hword offset)
      cases words with
      | nil => exact hfailed
      | cons next words => exact .right hfailed (ih hlater)

end Settles

/-! ## Whole words -/

/-- Words made of characters of the class, none of which stands behind one of its beginnings. -/
structure Distinguished (accepts : Char → Bool) (words : List String) : Prop where
  chars : ∀ word ∈ words, ∀ x ∈ word.toList, accepts x = true
  order : words.Pairwise fun early late => ¬ early.toList <+: late.toList

/-- A text of the class at the front is a part of the longest one. -/
theorem prefix_takeWhile {accepts : Char → Bool} {word cs : List Char} (h : word <+: cs)
    (hchars : ∀ x ∈ word, accepts x = true) : word <+: cs.takeWhile accepts := by
  obtain ⟨rest, rfl⟩ := h
  rw [List.takeWhile_append_of_pos hchars]
  exact List.prefix_append _ _

section Words

variable {accepts : Char → Bool} {words : List String}

namespace Distinguished

/-- A word that is there is the longest run of the class, or a beginning of it. -/
theorem prefix_longest (h : Distinguished accepts words) {word : String} (hword : word ∈ words)
    {cs : List Char} (hfront : word.toList <+: cs) : word.toList <+: cs.takeWhile accepts :=
  prefix_takeWhile hfront (h.chars word hword)

/-- No word before the one that is the longest run of the class is there. -/
theorem not_prefix_of_before (h : Distinguished accepts words) {before after : List String}
    {word : String} (hsplit : words = before ++ word :: after) {cs : List Char}
    (hlongest : cs.takeWhile accepts = word.toList) :
    ∀ early ∈ before, ¬ early.toList <+: cs := by
  subst hsplit
  intro early hearly hfront
  have horder := (List.pairwise_append.1 h.order).2.2 early hearly word List.mem_cons_self
  have hlong := h.prefix_longest (List.mem_append_left _ hearly) hfront
  rw [hlongest] at hlong
  exact horder hlong

end Distinguished

/-- The longest run of the class is one of the words: it is read. -/
theorem Settles.word (h : Distinguished accepts words) (hspacing : spacing ≠ .free)
    {cs : List Char} (hword : String.ofList (cs.takeWhile accepts) ∈ words) (offset : Nat) :
    Settles g spacing gaze (.seq (lits words) (.absent (.one accepts))) ⟨cs, offset⟩ reach
      (.matched ⟨cs.dropWhile accepts, offset + String.utf8Len (cs.takeWhile accepts)⟩ [] reach) := by
  obtain ⟨before, after, hsplit⟩ := List.append_of_mem hword
  have hlongest : cs.takeWhile accepts = (String.ofList (cs.takeWhile accepts)).toList :=
    String.toList_ofList.symm
  have hbefore := h.not_prefix_of_before hsplit hlongest
  generalize String.ofList (cs.takeWhile accepts) = word at hsplit hlongest
  have hinput : cs = word.toList ++ cs.dropWhile accepts := by
    rw [← hlongest, List.takeWhile_append_dropWhile]
  -- Behind the word no character of the class follows, since the word is the longest run.
  have hend : ∀ x ∈ (cs.dropWhile accepts).head?, accepts x = false := by
    intro x hx
    have := List.head?_dropWhile_not accepts cs
    rw [Option.mem_def.1 hx] at this
    exact this
  rw [hsplit, hlongest]
  generalize cs.dropWhile accepts = rest at hinput hend
  rw [hinput] at hbefore ⊢
  exact .seq hspacing (.choice hbefore offset) (.boundary hend _)

/-- The longest run of the class is none of the words: no word is read. -/
theorem Settles.word_failed (h : Distinguished accepts words) (hspacing : spacing ≠ .free)
    {cs : List Char} (hword : String.ofList (cs.takeWhile accepts) ∉ words) (offset : Nat) :
    Settles g spacing gaze (.seq (lits words) (.absent (.one accepts))) ⟨cs, offset⟩ reach
      (.failed reach) := by
  cases hfind : words.find? fun word => word.toList.isPrefixOf cs with
  | none =>
      apply Settles.seq_failed
      apply Settles.choice_failed
      intro word hmem hfront
      have := List.find?_eq_none.1 hfind word hmem
      exact this (List.isPrefixOf_iff_prefix.2 hfront)
  | some word =>
      obtain ⟨hfront, before, after, hsplit, hbefore⟩ := List.find?_eq_some_iff_append.1 hfind
      have hfront := List.isPrefixOf_iff_prefix.1 hfront
      have hmem : word ∈ words := by
        rw [hsplit]
        exact List.mem_append_right _ List.mem_cons_self
      -- The word is shorter than the longest run, so the run goes on behind it.
      obtain ⟨more, hmore⟩ := h.prefix_longest hmem hfront
      cases more with
      | nil =>
          rw [List.append_nil] at hmore
          rw [← hmore, String.ofList_toList] at hword
          exact absurd hmem hword
      | cons x more =>
          have hx : accepts x = true := by
            apply List.mem_takeWhile_imp (l := cs)
            rw [← hmore]
            exact List.mem_append_right _ List.mem_cons_self
          have hinput : cs = word.toList ++ x :: (more ++ cs.dropWhile accepts) := by
            conv_lhs => rw [← List.takeWhile_append_dropWhile (p := accepts) (l := cs), ← hmore]
            simp
          have hearly : ∀ early ∈ before, ¬ early.toList <+: cs := by
            intro early hearly hthere
            have := hbefore early hearly
            simp [List.isPrefixOf_iff_prefix.2 hthere] at this
          rw [hinput] at hearly
          rw [hsplit, hinput]
          exact .seq_failed_later hspacing (.choice hearly offset) (.absent_failed (.one hx))

end Words

end LogLabel.Peg
