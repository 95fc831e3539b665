import LogLabel.Program.Grammar
import LogLabel.Proofs.Peg.Words

set_option autoImplicit false

/-!
# Gaps between parts

What a gap reads: blanks and comments, as many as there are. A comment up to the end of the line
always ends, and a block comment that is never closed is no comment.

* `afterBlank cs`: what is left of a text behind the blank or the comment at its front.
* `afterGap cs`: what is left behind all of them.
* `settles_gap`: a gap ends there, and it never fails.
-/

namespace LogLabel.Program

open Peg (Cursor Gaze Settles Spacing)
open Peg.Expr (lit any)
open Rule (blank comment blockComment blockCommentRest gap isBlankChar)

/-! ## Blanks -/

/-- What follows the first end of a block comment. -/
def afterBlockEnd : List Char → Option (List Char)
  | [] => none
  | c :: cs => if ['*', '/'] <+: c :: cs then some cs.tail else afterBlockEnd cs

/-- What follows the blank or the comment at the front of a text, if there is one. -/
def afterBlank : List Char → Option (List Char)
  | [] => none
  | c :: cs =>
      if isBlankChar c then some cs
      else if ['/', '/'] <+: c :: cs then some (cs.tail.dropWhile (· != '\n'))
      else if ['/', '*'] <+: c :: cs then afterBlockEnd cs.tail
      else none

theorem length_lt_of_afterBlockEnd {cs rest : List Char} (h : afterBlockEnd cs = some rest) :
    rest.length < cs.length := by
  induction cs with
  | nil => cases h
  | cons c cs ih =>
      rw [afterBlockEnd] at h
      split at h
      · cases h
        simp only [List.length_tail, List.length_cons]
        omega
      · have := ih h
        rw [List.length_cons]
        omega

/-- The three ways in which there is a blank or a comment. -/
theorem afterBlank_cases {c : Char} {cs rest : List Char} (h : afterBlank (c :: cs) = some rest) :
    (isBlankChar c = true ∧ rest = cs) ∨
    (isBlankChar c = false ∧ ['/', '/'] <+: c :: cs ∧ rest = cs.tail.dropWhile (· != '\n')) ∨
    (isBlankChar c = false ∧ ¬ ['/', '/'] <+: c :: cs ∧ ['/', '*'] <+: c :: cs ∧
      afterBlockEnd cs.tail = some rest) := by
  rw [afterBlank] at h
  split at h
  · next hblank =>
      cases h
      exact .inl ⟨hblank, rfl⟩
  · next hblank =>
      rw [Bool.not_eq_true] at hblank
      split at h
      · next hline =>
          cases h
          exact .inr (.inl ⟨hblank, hline, rfl⟩)
      · next hline =>
          split at h
          · next hblock => exact .inr (.inr ⟨hblank, hline, hblock, h⟩)
          · cases h

/-- Where there is none, a block comment may still have been opened that is never closed. -/
theorem of_afterBlank_eq_none {c : Char} {cs : List Char} (h : afterBlank (c :: cs) = none) :
    isBlankChar c = false ∧ ¬ ['/', '/'] <+: c :: cs ∧
      (['/', '*'] <+: c :: cs → afterBlockEnd cs.tail = none) := by
  rw [afterBlank] at h
  split at h
  · cases h
  · next hblank =>
      split at h
      · cases h
      · next hline =>
          rw [Bool.not_eq_true] at hblank
          refine ⟨hblank, hline, fun hblock => ?_⟩
          rwa [if_pos hblock] at h

theorem length_lt_of_afterBlank {cs rest : List Char} (h : afterBlank cs = some rest) :
    rest.length < cs.length := by
  cases cs with
  | nil => cases h
  | cons c cs =>
      rw [List.length_cons]
      rcases afterBlank_cases h with ⟨-, rfl⟩ | ⟨-, -, rfl⟩ | ⟨-, -, -, hend⟩
      · exact Nat.lt_succ_self _
      · have hdrop := (List.dropWhile_sublist (l := cs.tail) fun c => c != '\n').length_le
        rw [List.length_tail] at hdrop
        omega
      · have hlength := length_lt_of_afterBlockEnd hend
        rw [List.length_tail] at hlength
        omega

/-- What is left of a text behind the blanks and comments at its front. -/
def afterGap (cs : List Char) : List Char :=
  match _h : afterBlank cs with
  | some rest => afterGap rest
  | none => cs
termination_by cs.length
decreasing_by exact length_lt_of_afterBlank _h

theorem afterGap_of_none {cs : List Char} (h : afterBlank cs = none) : afterGap cs = cs := by
  rw [afterGap]
  split
  · next hrest =>
      rw [h] at hrest
      cases hrest
  · rfl

theorem afterGap_of_some {cs rest : List Char} (h : afterBlank cs = some rest) :
    afterGap cs = afterGap rest := by
  rw [afterGap]
  split
  · next hrest =>
      rw [h] at hrest
      cases hrest
      rfl
  · next hnone =>
      rw [h] at hnone
      cases hnone

/-- A text that starts with none of the characters that a blank or a comment starts with. -/
theorem afterGap_cons {c : Char} {cs : List Char} (hblank : isBlankChar c = false) (hc : c ≠ '/') :
    afterGap (c :: cs) = c :: cs := by
  apply afterGap_of_none
  rw [afterBlank, if_neg (by simp [hblank]), if_neg, if_neg]
  · simp [hc.symm]
  · simp [hc.symm]

theorem afterGap_space (cs : List Char) : afterGap (' ' :: cs) = afterGap cs :=
  afterGap_of_some rfl

/-! ## Gaps of the grammar -/

section Runs

variable {spacing : Spacing} {gaze : Gaze} {cs rest : List Char} {reach : Nat}

/-- A character of a block comment. -/
theorem settles_inBlock (hspacing : spacing ≠ .free) {c : Char} (h : ¬ ['*', '/'] <+: c :: cs)
    (offset : Nat) :
    Settles grammar spacing gaze (.seq (.absent (lit "*/")) any) ⟨c :: cs, offset⟩ reach
      (.matched ⟨cs, offset + c.utf8Size⟩ [] reach) :=
  .seq hspacing (.absent (.text_failed (Cursor.eat_eq_none h offset))) (.one rfl)

/-- The inside of a block comment is read up to its end, and to the end of the text if it has none. -/
theorem settles_blockInside (hspacing : spacing ≠ .free) (cs : List Char) :
    ∀ offset, ∃ rest offset', Settles grammar spacing gaze
        (.further (.seq (.absent (lit "*/")) any)) ⟨cs, offset⟩ reach
        (.matched ⟨rest, offset'⟩ [] reach) ∧
      (afterBlockEnd cs = none → rest = []) ∧
      ∀ later, afterBlockEnd cs = some later → rest = '*' :: '/' :: later := by
  induction cs with
  | nil =>
      intro offset
      refine ⟨[], offset, ?_, fun _ => rfl, fun later h => by cases h⟩
      have hend : ¬ ['*', '/'] <+: ([] : List Char) := by simp
      exact .further_nil hspacing
        (.seq_failed_later hspacing (.absent (.text_failed (Cursor.eat_eq_none hend offset))) .one_nil)
  | cons c cs ih =>
      intro offset
      by_cases hend : ['*', '/'] <+: c :: cs
      · obtain ⟨later, hlater⟩ := hend
        have heat := Cursor.eat_append ['*', '/'] later offset
        rw [hlater] at heat
        refine ⟨c :: cs, offset, ?_, ?_, ?_⟩
        · exact .further_nil hspacing (.seq_failed (.absent_failed (.text heat)))
        · intro h
          rw [afterBlockEnd, if_pos ⟨later, hlater⟩] at h
          cases h
        · intro rest h
          rw [afterBlockEnd, if_pos ⟨later, hlater⟩] at h
          cases h
          rw [← hlater]
          cases hlater
          rfl
      · obtain ⟨rest, offset', hinside, hnone, hsome⟩ := ih (offset + c.utf8Size)
        refine ⟨rest, offset', ?_, ?_, ?_⟩
        · exact .further_cons hspacing (settles_inBlock hspacing hend offset) hinside
        · rw [afterBlockEnd, if_neg hend]
          exact hnone
        · rw [afterBlockEnd, if_neg hend]
          exact hsome

theorem settles_blockRest (hspacing : spacing ≠ .free) (h : afterBlockEnd cs = some rest)
    (offset : Nat) :
    ∃ offset', Settles grammar spacing gaze blockCommentRest ⟨cs, offset⟩ reach
      (.matched ⟨rest, offset'⟩ [] reach) := by
  obtain ⟨inside, offset', hinside, -, hsome⟩ := settles_blockInside hspacing cs offset
  obtain rfl := hsome rest h
  have heat := Cursor.eat_append ['*', '/'] rest offset'
  exact ⟨_, .seq hspacing (.star hspacing hinside) (.text heat)⟩

theorem settles_blockRest_failed (hspacing : spacing ≠ .free) (h : afterBlockEnd cs = none)
    (offset : Nat) :
    Settles grammar spacing gaze blockCommentRest ⟨cs, offset⟩ reach (.failed reach) := by
  obtain ⟨inside, offset', hinside, hnone, -⟩ := settles_blockInside hspacing cs offset
  obtain rfl := hnone h
  have hend : ¬ ['*', '/'] <+: ([] : List Char) := by simp
  exact .seq_failed_later hspacing (.star hspacing hinside)
    (.text_failed (Cursor.eat_eq_none hend offset'))

/-- The mark of a comment is there, and the text goes on behind it. -/
theorem eat_mark {mark : List Char} {x y : Char} (hmark : mark = [x, y]) {c : Char}
    (h : mark <+: c :: cs) (offset : Nat) :
    ∃ offset', (⟨c :: cs, offset⟩ : Cursor).eat mark = some ⟨cs.tail, offset'⟩ := by
  subst hmark
  obtain ⟨later, hlater⟩ := h
  have heat := Cursor.eat_append [x, y] later offset
  cases hlater
  exact ⟨_, heat⟩

/-- A blank or a comment is read. -/
theorem settles_blank (hspacing : spacing ≠ .free) (h : afterBlank cs = some rest) (offset : Nat) :
    ∃ offset', Settles grammar spacing gaze blank ⟨cs, offset⟩ reach
      (.matched ⟨rest, offset'⟩ [] reach) := by
  cases cs with
  | nil => cases h
  | cons c cs =>
      rcases afterBlank_cases h with
        ⟨hblank, rfl⟩ | ⟨hblank, hline, rfl⟩ | ⟨hblank, hline, hblock, hend⟩
      · exact ⟨_, .left (.one hblank)⟩
      · obtain ⟨offset', heat⟩ := eat_mark rfl hline offset
        exact ⟨_, .right (.one_failed hblank)
          (.left (.seq hspacing (.text heat) (.star_one hspacing (fun c => c != '\n') _ _)))⟩
      · obtain ⟨offset₁, heat⟩ := eat_mark rfl hblock offset
        obtain ⟨offset₂, hrest⟩ := settles_blockRest hspacing hend offset₁
        have hmark : Settles grammar spacing gaze (lit "//") ⟨c :: cs, offset⟩ reach
            (.failed reach) := .text_failed (Cursor.eat_eq_none hline offset)
        exact ⟨_, .right (.one_failed hblank)
          (.right (.seq_failed hmark) (.seq hspacing (.text heat) hrest))⟩

/-- Where no blank and no comment is, none is read. -/
theorem settles_blank_failed (hspacing : spacing ≠ .free) (h : afterBlank cs = none)
    (offset : Nat) :
    Settles grammar spacing gaze blank ⟨cs, offset⟩ reach (.failed reach) := by
  cases cs with
  | nil =>
      have hline : ¬ ['/', '/'] <+: ([] : List Char) := by simp
      have hblock : ¬ ['/', '*'] <+: ([] : List Char) := by simp
      exact .right .one_nil
        (.right (.seq_failed (.text_failed (Cursor.eat_eq_none hline offset)))
          (.seq_failed (.text_failed (Cursor.eat_eq_none hblock offset))))
  | cons c cs =>
      obtain ⟨hblank, hline, hopen⟩ := of_afterBlank_eq_none h
      have hmark : Settles grammar spacing gaze (lit "//") ⟨c :: cs, offset⟩ reach
          (.failed reach) := .text_failed (Cursor.eat_eq_none hline offset)
      refine .right (.one_failed hblank) (.right (.seq_failed hmark) ?_)
      by_cases hblock : ['/', '*'] <+: c :: cs
      · obtain ⟨offset₁, heat⟩ := eat_mark rfl hblock offset
        exact .seq_failed_later hspacing (.text heat)
          (settles_blockRest_failed hspacing (hopen hblock) offset₁)
      · exact .seq_failed (.text_failed (Cursor.eat_eq_none hblock offset))

/-- A gap reads all blanks and comments that are there. -/
theorem settles_gap (hspacing : spacing ≠ .free) (cs : List Char) (offset : Nat) :
    ∃ offset', Settles grammar spacing gaze gap ⟨cs, offset⟩ reach
      (.matched ⟨afterGap cs, offset'⟩ [] reach) := by
  suffices hfurther : ∃ offset', Settles grammar spacing gaze (.further blank) ⟨cs, offset⟩ reach
      (.matched ⟨afterGap cs, offset'⟩ [] reach) by
    obtain ⟨offset', hfurther⟩ := hfurther
    exact ⟨offset', .star hspacing hfurther⟩
  -- By induction on the text, in the way in which it is read.
  induction cs using afterGap.induct generalizing offset with
  | case1 cs rest h ih =>
      obtain ⟨offset₁, hblank⟩ := settles_blank hspacing h offset
      obtain ⟨offset₂, hlater⟩ := ih offset₁
      rw [afterGap_of_some h]
      exact ⟨offset₂, .further_cons hspacing hblank hlater⟩
  | case2 cs h =>
      rw [afterGap_of_none h]
      exact ⟨offset, .further_nil hspacing (settles_blank_failed hspacing h offset)⟩

end Runs

end LogLabel.Program
