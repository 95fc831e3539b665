import LogLabel.Program.Grammar
import LogLabel.Proofs.Peg.Settled
import LogLabel.Proofs.Peg.Spans
import LogLabel.Proofs.Text.Quoted

set_option autoImplicit false

/-!
# String literals

The string rule of the grammar between the writer and the decoder of literals.

* `IsStringLiteral raw`: the string rule reads `raw`, whatever stands around it.
* `decodeLiteral_accepted`: what the decoder makes of a literal that the string rule has read.
* `quote_accepted`: the string rule reads a quoted text up to its last quote, and the decoder
  gives the text back.
-/

namespace LogLabel.Program

open Peg (Capture Cursor Form Gaze Matches Settles Spacing run)
open Rule (apostrophe quotedWith)
open Text (Denotes Slips decodeLiteral quote quoteChar)

/-! ## The string rule -/

/-- The string rule reads the text, at some place with something behind it. -/
def IsStringLiteral (raw : String) : Prop :=
  ∃ (fuel : Nat) (spacing : Spacing) (gaze : Gaze) (rest : List Char) (offset reach : Nat)
    (c : Cursor) (captures : List (Capture Rule)) (reach' : Nat),
    run grammar fuel spacing gaze (.rule .string) ⟨raw.toList ++ rest, offset⟩ reach =
      .matched c captures reach' ∧ c.rest = rest

section Accepted

variable {gaze : Gaze} {spacing : Spacing} {c c' : Cursor} {captures : List (Capture Rule)}

/-- A string in given quotes starts and ends with one. -/
theorem after_of_quotedWith {q : Char}
    (h : Matches grammar gaze .closed (quotedWith q) c c' captures) :
    ∃ inside, c.After (q :: (inside ++ [q])) c' := by
  cases h with
  | seq opening gap rest =>
      cases opening with
      | text hopening =>
          cases gap with
          | text hgap =>
              cases rest with
              | seq inside gap' closing =>
                  cases gap' with
                  | text hgap' =>
                      cases closing with
                      | text hclosing =>
                          cases hgap
                          cases hgap'
                          obtain ⟨word, hword⟩ := inside.passes.after
                          exact ⟨word, ((Cursor.after_eat hopening).trans hword).trans
                            (Cursor.after_eat hclosing)⟩

/-- The string rule reads a text between two quotes of one kind. -/
theorem after_of_string (h : Matches grammar gaze spacing (.rule .string) c c' captures) :
    ∃ q inside, (q = '"' ∨ q = apostrophe) ∧ c.After (q :: (inside ++ [q])) c' := by
  have hbody : ∀ {inner : List (Capture Rule)},
      Matches grammar gaze .closed (.alt (quotedWith '"') (quotedWith apostrophe)) c c' inner →
      ∃ q inside, (q = '"' ∨ q = apostrophe) ∧ c.After (q :: (inside ++ [q])) c' := by
    intro inner hinner
    cases hinner with
    | left h =>
        obtain ⟨inside, hinside⟩ := after_of_quotedWith h
        exact ⟨'"', inside, .inl rfl, hinside⟩
    | right h =>
        obtain ⟨inside, hinside⟩ := after_of_quotedWith h
        exact ⟨apostrophe, inside, .inr rfl, hinside⟩
  cases h with
  | silent form _ => cases form
  | captured _ _ body => exact hbody body
  | hidden _ body => exact hbody body

theorem IsStringLiteral.exists_inside {raw : String} (h : IsStringLiteral raw) :
    ∃ q inside, (q = '"' ∨ q = apostrophe) ∧ raw = String.ofList (q :: (inside ++ [q])) := by
  obtain ⟨fuel, spacing, gaze, rest, offset, reach, c, captures, reach', hrun, rfl⟩ := h
  obtain ⟨q, inside, hq, hafter⟩ := after_of_string (Peg.matches_of_run hrun)
  refine ⟨q, inside, hq, ?_⟩
  rw [← List.append_cancel_right hafter.rest_eq, String.ofList_toList]

end Accepted

/-! ## Quoted texts -/

/-- A character that may stand in the given quotes without a backslash. -/
def standsIn (q x : Char) : Bool := x != q && x != '\\' && x != '\n'

/-- One item of a string: a backslash and any character, or a character that needs none. -/
inductive Item (q : Char) : List Char → Prop
  | escaped (x : Char) : Item q ['\\', x]
  | plain {x : Char} (stands : standsIn q x = true) : Item q [x]

/-- The text may stand inside of the quotes: it is made of items. -/
inductive Inside (q : Char) : List Char → Prop
  | nil : Inside q []
  | cons {item cs : List Char} (first : Item q item) (later : Inside q cs) : Inside q (item ++ cs)

/-- What a character is written as may stand inside of double quotes. -/
theorem Inside.quoteChar {c : Char} {cs : List Char} (h : Inside '"' cs) :
    Inside '"' (quoteChar c ++ cs) := by
  rw [Text.quoteChar]
  iterate 7
    split
    · exact .cons (.escaped _) h
  split
  · next hc =>
      have hdigit : ∀ {d : Nat}, d < 16 → standsIn '"' (Text.hexDigit d) = true := by
        intro d hd
        interval_cases d <;> rfl
      have hhigh := hdigit (d := c.toNat / 16) (by omega)
      have hlow := hdigit (d := c.toNat % 16) (by omega)
      have hzeros := Inside.cons (.plain (x := '0') rfl) (.cons (.plain (x := '0') rfl)
        (.cons (.plain hhigh) (.cons (.plain hlow) h)))
      have hescape := Inside.cons (.escaped 'u') hzeros
      exact hescape
  · next hquote hbackslash _ _ hfeed _ _ _ =>
      refine .cons (.plain ?_) h
      simp [standsIn, hquote, hbackslash, hfeed]

theorem inside_flatMap_quoteChar (value : List Char) : Inside '"' (value.flatMap quoteChar) := by
  induction value with
  | nil => exact .nil
  | cons c cs ih => exact ih.quoteChar

/-- The grammar of one item. -/
def itemPart (q : Char) : Rule.Part :=
  .alt (.seq (Peg.Expr.lit "\\") Peg.Expr.any) (.one (standsIn q))

section Runs

variable {q : Char} {gaze : Gaze} {reach : Nat} {item cs rest : List Char}

/-- A character other than the backslash does not start an escape. -/
theorem not_escape_of_ne {x : Char} {offset : Nat} (h : '\\' ≠ x) :
    Settles grammar .closed gaze (.seq (Peg.Expr.lit "\\") Peg.Expr.any) ⟨x :: rest, offset⟩ reach
      (.failed reach) := by
  apply Settles.seq_failed
  apply Settles.text_failed
  change (if '\\' = x then _ else none) = none
  rw [if_neg h]

theorem settles_item (h : Item q item) (offset : Nat) :
    Settles grammar .closed gaze (itemPart q) ⟨item ++ rest, offset⟩ reach
      (.matched ⟨rest, offset + String.utf8Len item⟩ [] reach) := by
  cases h with
  | escaped x =>
      have hbackslash : (⟨'\\' :: x :: rest, offset⟩ : Cursor).eat ['\\'] =
          some ⟨x :: rest, offset + '\\'.utf8Size⟩ := rfl
      have hbytes : offset + String.utf8Len ['\\', x] = offset + '\\'.utf8Size + x.utf8Size := by
        rw [String.utf8Len_cons, String.utf8Len_cons, String.utf8Len_nil]
        omega
      rw [hbytes]
      exact .left (.seq (by decide) (.text hbackslash) (.one rfl))
  | @plain x stands =>
      have hx : '\\' ≠ x := by
        rintro rfl
        simp [standsIn] at stands
      have hbytes : String.utf8Len [x] = x.utf8Size := by
        rw [String.utf8Len_cons, String.utf8Len_nil, Nat.zero_add]
      rw [hbytes]
      exact .right (not_escape_of_ne hx) (.one stands)

/-- No item of a string starts with the quote that closes it. -/
theorem settles_closing (hq : q ≠ '\\') (offset : Nat) :
    Settles grammar .closed gaze (itemPart q) ⟨q :: rest, offset⟩ reach (.failed reach) := by
  refine .right (not_escape_of_ne hq.symm) (.one_failed ?_)
  simp [standsIn]

/-- The inside of a string is read up to the closing quote. -/
theorem settles_further (hq : q ≠ '\\') (h : Inside q cs) :
    ∀ offset, Settles grammar .closed gaze (.further (itemPart q)) ⟨cs ++ q :: rest, offset⟩ reach
      (.matched ⟨q :: rest, offset + String.utf8Len cs⟩ [] reach) := by
  induction h with
  | nil => exact fun offset => .further_nil (by decide) (settles_closing hq offset)
  | cons first _ ih =>
      intro offset
      rw [List.append_assoc, String.utf8Len_append, ← Nat.add_assoc]
      exact .further_cons (by decide) (settles_item first offset) (ih _)

theorem settles_inside (hq : q ≠ '\\') (h : Inside q cs) (offset : Nat) :
    Settles grammar .closed gaze (.star (itemPart q)) ⟨cs ++ q :: rest, offset⟩ reach
      (.matched ⟨q :: rest, offset + String.utf8Len cs⟩ [] reach) :=
  .star (by decide) (settles_further hq h offset)

/-- A string is read from its first quote to its last one. -/
theorem settles_quotedWith (hq : q ≠ '\\') (h : Inside q cs) (offset : Nat) :
    Settles grammar .closed gaze (quotedWith q) ⟨q :: (cs ++ q :: rest), offset⟩ reach
      (.matched ⟨rest, offset + String.utf8Len (q :: (cs ++ [q]))⟩ [] reach) := by
  have hquote : ∀ (rest : List Char) (offset : Nat),
      (⟨q :: rest, offset⟩ : Cursor).eat [q] = some ⟨rest, offset + q.utf8Size⟩ := by
    intro rest offset
    change (if q = q then _ else none) = _
    rw [if_pos rfl]
    rfl
  have hbytes : offset + String.utf8Len (q :: (cs ++ [q])) =
      offset + q.utf8Size + String.utf8Len cs + q.utf8Size := by
    rw [String.utf8Len_cons, String.utf8Len_append, String.utf8Len_cons, String.utf8Len_nil]
    omega
  rw [hbytes]
  exact .seq (by decide) (.text (hquote _ _))
    (.seq (by decide) (settles_inside hq h _) (.text (hquote _ _)))

end Runs

/-! ## Literals that are read -/

/-- A literal that the string rule has read stands in quotes of one kind. It decodes to what the lax
reading of its inside denotes, and to nothing if that denotes nothing. So it decodes to what its
inside denotes strictly, if that is anything, and to nothing else if no number is written with a
slip. -/
theorem decodeLiteral_accepted {raw : String} (h : IsStringLiteral raw) :
    ∃ q inside, (q = '"' ∨ q = apostrophe) ∧ raw = String.ofList (q :: (inside ++ [q])) ∧
      (∀ value, decodeLiteral raw = some value ↔ Denotes true inside value.toList) ∧
      (decodeLiteral raw = none ↔ ¬ ∃ value, Denotes true inside value) ∧
      (∀ value, Denotes false inside value.toList → decodeLiteral raw = some value) ∧
      (¬ Slips inside → ∀ value,
        decodeLiteral raw = some value ↔ Denotes false inside value.toList) := by
  obtain ⟨q, inside, hq, rfl⟩ := h.exists_inside
  have hlax : ∀ value, decodeLiteral (String.ofList (q :: (inside ++ [q]))) = some value ↔
      Denotes true inside value.toList := fun _ => Text.decodeLiteral_eq_some_iff
  refine ⟨q, inside, hq, rfl, hlax, ?_, fun value hvalue => (hlax value).2 hvalue.mono, ?_⟩
  · rw [Option.eq_none_iff_forall_ne_some]
    constructor
    · rintro hnone ⟨value, hvalue⟩
      rw [← String.toList_ofList (l := value)] at hvalue
      exact hnone _ ((hlax _).2 hvalue)
    · exact fun hnone value hvalue => hnone ⟨value.toList, (hlax value).1 hvalue⟩
  · intro hslips value
    rw [hlax value]
    exact ⟨fun hvalue => Text.denotes_strict_of_lax hvalue hslips, Denotes.mono⟩

/-- A surrogate pair and a braced number, in single quotes. -/
def pairLiteral : String := "'\\ud83d\\uDE00\\u\x7b41\x7d'"

theorem decodeLiteral_accepted_pair :
    IsStringLiteral pairLiteral ∧
      ∃ q inside, pairLiteral = String.ofList (q :: (inside ++ [q])) ∧
        Denotes true inside [Char.ofNat 0x1F600, 'A'] := by
  have hliteral : IsStringLiteral pairLiteral := ⟨30, .free, .consuming, [], 0, 0, _, _, _, rfl, rfl⟩
  obtain ⟨q, inside, -, hraw, hlax, -⟩ := decodeLiteral_accepted hliteral
  exact ⟨hliteral, q, inside, hraw, (hlax (String.ofList [Char.ofNat 0x1F600, 'A'])).1 rfl⟩

/-- A plus sign before one digit passes for two digits: the escape is malformed, and the literal is
given a value all the same. -/
theorem signed_escape_decoded :
    IsStringLiteral "\"\\x+4\"" ∧ decodeLiteral "\"\\x+4\"" = some "\x04" ∧
      ¬ ∃ value, Denotes false "\\x+4".toList value := by
  refine ⟨⟨30, .free, .consuming, [], 0, 0, _, _, _, rfl, rfl⟩, rfl, ?_⟩
  rintro ⟨value, h⟩
  generalize hinside : "\\x+4".toList = inside at h
  cases h with
  | nil => cases hinside
  | plain notEscape _ =>
      cases hinside
      exact notEscape rfl
  | short escape _ =>
      cases hinside
      exact escape.simpleEscape_eq.1 rfl
  | byte length number _ =>
      obtain ⟨x, y, rfl⟩ := List.length_eq_two.1 length
      cases hinside
      cases number with
      | digits _ value =>
          obtain ⟨d, hd⟩ := value.exists_hexDigit '+' List.mem_cons_self
          exact hd.isNumeralChar.2 rfl
      | signed slip _ _ => cases slip
  | unicode _ _ => cases hinside

/-- The string rule reads a quoted text from its first quote to its last one, whatever follows it,
and decoding gives the text back. -/
theorem quote_accepted (value rest : String) (spacing : Spacing) (gaze : Gaze) (offset reach : Nat) :
    (∃ reach', Settles grammar spacing gaze (.rule .string)
      ⟨(quote value ++ rest).toList, offset⟩ reach
      (.matched ⟨rest.toList, offset + (quote value).utf8ByteSize⟩
        (if Form.atomic.shows spacing gaze then
          [.mk .string offset (offset + (quote value).utf8ByteSize) (quote value ++ rest).toList []]
        else []) reach')) ∧
      decodeLiteral (quote value) = some value := by
  have hraw : quote value = String.ofList ('"' :: (value.toList.flatMap quoteChar ++ ['"'])) := rfl
  constructor
  · have hinput : (quote value ++ rest).toList =
        '"' :: (value.toList.flatMap quoteChar ++ '"' :: rest.toList) := by
      rw [String.toList_append, hraw, String.toList_ofList, List.cons_append, List.append_assoc,
        List.singleton_append]
    have hbytes : (quote value).utf8ByteSize =
        String.utf8Len ('"' :: (value.toList.flatMap quoteChar ++ ['"'])) := by
      rw [hraw, String.utf8ByteSize_ofList]
    have hinside := inside_flatMap_quoteChar value.toList
    rw [hinput, hbytes]
    exact Settles.rule (fun h => by cases h) (settles_quotedWith (by decide) hinside offset).left
  · rw [hraw, Text.decodeLiteral_eq_some_iff]
    exact (Text.denotes_flatMap_quoteChar value.toList).mono

end LogLabel.Program
