import LogLabel.Proofs.Peg.Matches
import Mathlib.Data.String.Basic

set_option autoImplicit false

/-!
# Places of captures

A match moves over the text it reads and never back, so captures stand in the text in the
order in which they are listed, each one around the captures inside of it.

* `Cursor.After c word c'`: the cursor `c'` stands behind `word` from `c` on.
* `Laid g lo hi captures`: the captures stand between the offsets `lo` and `hi`, one behind
  the other at every depth, and each one was read by the body of its rule.
* `Matches.passes`: the captures of a match lie between its two cursors.
* `Expr.spellings` lists the words of an expression that is made of fixed texts;
  `Reads.text_eq`: a rule with such a body was captured with one of its words.
-/

namespace LogLabel.Peg

variable {ρ : Type}

/-! ## Cursors -/

/-- The cursor `c'` stands behind `word` from the cursor `c` on. -/
structure Cursor.After (c : Cursor) (word : List Char) (c' : Cursor) : Prop where
  rest_eq : c.rest = word ++ c'.rest
  offset_eq : c'.offset = c.offset + String.utf8Len word

namespace Cursor.After

variable {c c' c'' : Cursor} {word word' : List Char}

theorem refl (c : Cursor) : c.After [] c := ⟨rfl, rfl⟩

theorem trans (h : c.After word c') (h' : c'.After word' c'') : c.After (word ++ word') c'' where
  rest_eq := by rw [h.rest_eq, h'.rest_eq, List.append_assoc]
  offset_eq := by rw [h'.offset_eq, h.offset_eq, String.utf8Len_append, Nat.add_assoc]

theorem offset_le (h : c.After word c') : c.offset ≤ c'.offset :=
  h.offset_eq ▸ Nat.le_add_right _ _

/-- A cursor behind one character. -/
theorem cons (x : Char) (rest : List Char) (offset : Nat) :
    Cursor.After ⟨x :: rest, offset⟩ [x] ⟨rest, offset + x.utf8Size⟩ :=
  ⟨rfl, by simp⟩

end Cursor.After

theorem Cursor.after_eat {chars : List Char} :
    ∀ {c c' : Cursor}, c.eat chars = some c' → c.After chars c' := by
  induction chars with
  | nil =>
      intro c c' h
      cases h
      exact .refl c
  | cons x chars ih =>
      rintro ⟨rest, offset⟩ c' h
      rw [Cursor.eat] at h
      split at h
      · cases h
      · next y rest hrest =>
          obtain rfl : _ = y :: rest := hrest
          split at h
          · next hxy =>
              subst hxy
              exact (After.cons x rest offset).trans (ih h)
          · cases h

/-! ## Captures in a row -/

/-- The body of the rule matches the text `input` at the offset `start`, up to the offset `stop`. -/
def Reads (g : Grammar ρ) (name : ρ) (start stop : Nat) (input : List Char) : Prop :=
  ∃ (gaze : Gaze) (spacing : Spacing) (c : Cursor) (inner : List (Capture ρ)),
    Matches g gaze ((g.define name).form.inside spacing) (g.define name).body ⟨input, start⟩ c inner ∧
      c.offset = stop

/-- The captures stand between `lo` and `hi`, one behind the other at every depth, and each one was
read by the body of its rule. -/
inductive Laid (g : Grammar ρ) : Nat → Nat → List (Capture ρ) → Prop
  | nil {lo hi : Nat} : lo ≤ hi → Laid g lo hi []
  | cons {lo hi : Nat} {name : ρ} {start stop : Nat} {input : List Char}
      {inner captures : List (Capture ρ)} : lo ≤ start → Reads g name start stop input →
      Laid g start stop inner → Laid g stop hi captures →
      Laid g lo hi (.mk name start stop input inner :: captures)

namespace Laid

variable {g : Grammar ρ} {lo mid hi : Nat} {captures captures' : List (Capture ρ)}

theorem le (h : Laid g lo hi captures) : lo ≤ hi := by
  induction h with
  | nil hle => exact hle
  | cons hlo _ _ _ ihinner ihrest => exact Nat.le_trans hlo (Nat.le_trans ihinner ihrest)

theorem lower {lo' : Nat} (h : Laid g lo hi captures) (hle : lo' ≤ lo) : Laid g lo' hi captures := by
  cases h with
  | nil hle' => exact .nil (Nat.le_trans hle hle')
  | cons hlo hreads hinner hrest => exact .cons (Nat.le_trans hle hlo) hreads hinner hrest

theorem append (h : Laid g lo mid captures) (h' : Laid g mid hi captures') :
    Laid g lo hi (captures ++ captures') := by
  induction h with
  | nil hle => exact h'.lower hle
  | cons hlo hreads hinner _ _ ih => exact .cons hlo hreads hinner (ih h')

theorem singleton {name : ρ} {start stop : Nat} {input : List Char}
    (hreads : Reads g name start stop input) (h : Laid g start stop captures) :
    Laid g start stop [.mk name start stop input captures] :=
  .cons (Nat.le_refl _) hreads h (.nil (Nat.le_refl _))

end Laid

/-! ## Matches -/

/-- A way through the text from `c` to `c'` on which `captures` were made. -/
structure Passes (g : Grammar ρ) (c c' : Cursor) (captures : List (Capture ρ)) : Prop where
  after : ∃ word, c.After word c'
  laid : Laid g c.offset c'.offset captures

namespace Passes

variable {g : Grammar ρ} {c c' c'' : Cursor} {captures captures' : List (Capture ρ)}

theorem of_after {word : List Char} (h : c.After word c') : Passes g c c' [] :=
  ⟨⟨word, h⟩, .nil h.offset_le⟩

theorem refl (c : Cursor) : Passes g c c [] := of_after (.refl c)

theorem trans (h : Passes g c c' captures) (h' : Passes g c' c'' captures') :
    Passes g c c'' (captures ++ captures') := by
  obtain ⟨word, hword⟩ := h.after
  obtain ⟨word', hword'⟩ := h'.after
  exact ⟨⟨word ++ word', hword.trans hword'⟩, h.laid.append h'.laid⟩

/-- What is captured on the way may be dropped. -/
theorem forget (h : Passes g c c' captures) : Passes g c c' [] := by
  obtain ⟨word, hword⟩ := h.after
  exact of_after hword

end Passes

/-- The captures of a match lie between its two cursors. -/
theorem Matches.passes {g : Grammar ρ} {gaze : Gaze} {spacing : Spacing} {e : Expr ρ} {c c' : Cursor}
    {captures : List (Capture ρ)} (h : Matches g gaze spacing e c c' captures) :
    Passes g c c' captures := by
  induction h with
  | text h => exact .of_after (Cursor.after_eat h)
  | @one _ _ x rest offset _ => exact .of_after (.cons x rest offset)
  | silent _ _ ih => exact ih
  | captured _ _ body ih => exact ⟨ih.after, .singleton ⟨_, _, _, _, body, rfl⟩ ih.laid⟩
  | hidden _ _ ih => exact ih.forget
  | seq _ _ _ ihleft ihgap ihright => exact ihleft.trans (ihgap.forget.trans ihright)
  | left _ ih => exact ih
  | right _ ih => exact ih
  | given _ ih => exact ih
  | omitted => exact .refl _
  | starNil => exact .refl _
  | starCons _ _ ihhead ihtail => exact ihhead.trans ihtail
  | furtherNil => exact .refl _
  | furtherCons _ _ _ ihgap ihhead ihtail => exact ihgap.forget.trans (ihhead.trans ihtail)
  | present => exact .refl _
  | absent => exact .refl _

/-! ## Fixed texts -/

/-- The words an expression can read, if it is made of fixed texts; a look-ahead reads nothing. -/
def Expr.spellings : Expr ρ → Option (List (List Char))
  | .text chars => some [chars]
  | .seq first second =>
      match first.spellings, second.spellings with
      | some words, some words' => some (words.flatMap fun word => words'.map (word ++ ·))
      | _, _ => none
  | .alt first second =>
      match first.spellings, second.spellings with
      | some words, some words' => some (words ++ words')
      | _, _ => none
  | .present _ => some [[]]
  | .absent _ => some [[]]
  | _ => none

/-- Where no blanks are skipped, nothing is. -/
theorem Grammar.spellings_gap (g : Grammar ρ) {spacing : Spacing} (h : spacing ≠ .free) :
    (g.gap spacing).spellings = some [[]] := by
  cases spacing with
  | free => exact absurd rfl h
  | tight => rfl
  | closed => rfl

/-- Where no blanks are skipped, an expression of fixed texts reads one of its words. -/
theorem Matches.spelled {g : Grammar ρ} {gaze : Gaze} {spacing : Spacing} {e : Expr ρ} {c c' : Cursor}
    {captures : List (Capture ρ)} (h : Matches g gaze spacing e c c' captures) :
    spacing ≠ .free → ∀ {words : List (List Char)}, e.spellings = some words →
      ∃ word ∈ words, c.After word c' := by
  induction h with
  | @text _ chars _ _ h =>
      intro _ words hwords
      cases hwords
      exact ⟨chars, List.mem_singleton.2 rfl, Cursor.after_eat h⟩
  | seq _ _ _ ihleft ihgap ihright =>
      intro hspacing words hwords
      rw [Expr.spellings] at hwords
      split at hwords <;> cases hwords
      next ws ws' hws hws' =>
        obtain ⟨word, hword, hafter⟩ := ihleft hspacing hws
        obtain ⟨blanks, hblanks, hgap⟩ := ihgap (fun h => by cases h) (g.spellings_gap hspacing)
        obtain rfl := List.mem_singleton.1 hblanks
        obtain ⟨word', hword', hafter'⟩ := ihright hspacing hws'
        refine ⟨word ++ word', ?_, hafter.trans (hgap.trans hafter')⟩
        exact List.mem_flatMap.2 ⟨word, hword, List.mem_map.2 ⟨word', hword', rfl⟩⟩
  | left _ ih =>
      intro hspacing words hwords
      rw [Expr.spellings] at hwords
      split at hwords <;> cases hwords
      next ws ws' hws hws' =>
        obtain ⟨word, hword, hafter⟩ := ih hspacing hws
        exact ⟨word, List.mem_append_left _ hword, hafter⟩
  | right _ ih =>
      intro hspacing words hwords
      rw [Expr.spellings] at hwords
      split at hwords <;> cases hwords
      next ws ws' hws hws' =>
        obtain ⟨word, hword, hafter⟩ := ih hspacing hws'
        exact ⟨word, List.mem_append_right _ hword, hafter⟩
  | present =>
      intro _ words hwords
      cases hwords
      exact ⟨[], List.mem_singleton.2 rfl, .refl _⟩
  | absent =>
      intro _ words hwords
      cases hwords
      exact ⟨[], List.mem_singleton.2 rfl, .refl _⟩
  -- The other operators have no words.
  | _ =>
      intro _ words hwords
      cases hwords

theorem Capture.takeBytes_append (word rest : List Char) :
    takeBytes (String.utf8Len word) (word ++ rest) = word := by
  induction word with
  | nil => cases rest <;> rfl
  | cons x word ih =>
      have hne : String.utf8Len word + x.utf8Size ≠ 0 := by
        have := x.utf8Size_pos
        omega
      rw [List.cons_append, takeBytes, String.utf8Len_cons, if_neg hne, Nat.add_sub_cancel, ih]

/-- A match of a rule is one of its body. -/
theorem Matches.reads {g : Grammar ρ} {gaze : Gaze} {spacing : Spacing} {name : ρ} {c c' : Cursor}
    {captures : List (Capture ρ)} (h : Matches g gaze spacing (.rule name) c c' captures)
    (hform : (g.define name).form ≠ .silent) : Reads g name c.offset c'.offset c.rest := by
  cases h with
  | silent form _ => exact absurd form hform
  | captured _ _ body => exact ⟨gaze, spacing, c', _, body, rfl⟩
  | hidden _ body => exact ⟨gaze, spacing, c', _, body, rfl⟩

/-- An atomic rule of fixed texts is captured with one of its words as text. -/
theorem Reads.text_eq {g : Grammar ρ} {name : ρ} {start stop : Nat} {input : List Char}
    (h : Reads g name start stop input) (hform : (g.define name).form = .atomic)
    {words : List (List Char)} (hwords : (g.define name).body.spellings = some words)
    (inner : List (Capture ρ)) :
    ∃ word ∈ words, (Capture.mk name start stop input inner).text = String.ofList word := by
  obtain ⟨gaze, spacing, c, captures, hbody, rfl⟩ := h
  rw [hform] at hbody
  obtain ⟨word, hword, hafter⟩ := hbody.spelled (fun h => by cases h) hwords
  refine ⟨word, hword, ?_⟩
  have hinput : input = word ++ c.rest := hafter.rest_eq
  have hbytes : c.offset - start = String.utf8Len word := by
    have : c.offset = start + String.utf8Len word := hafter.offset_eq
    omega
  rw [Capture.text, hbytes, hinput, Capture.takeBytes_append]

end LogLabel.Peg
