import LogLabel.Text.Quoted
import Mathlib.Data.List.TakeWhile
import Mathlib.Data.Nat.Digits.Defs
import Mathlib.Tactic.IntervalCases

set_option autoImplicit false

/-!
# What a string literal denotes

The escapes of a literal as a relation between the text inside of the quotes and the text that
it denotes, beside the decoder that reads them one after the other.

* `Hexadecimal digits n`: the digits write `n` to the base sixteen.
* `Denotes lax inside value`: every escape of `inside` is well formed, every surrogate has its
  partner, and `value` is what the pieces denote in order. Well formed is meant strictly unless
  `lax` is set, which lets two slips pass: a plus sign before the digits of a number, and a
  braced number that the end of the text closes.
* `decodeChars_eq_some_iff`: the decoder finds exactly what the lax relation says.
* `denotes_strict_of_lax`: where no slip is written, the two readings are one.
* `denotes_quoteChar`: what `quote` writes for a text denotes that text.
-/

namespace LogLabel.Text

/-! ## Numbers -/

/-- The character is a hexadecimal digit with the value `d`. -/
def HexDigit (c : Char) (d : Nat) : Prop :=
  "0123456789abcdef".toList[d]? = some c ∨ "0123456789ABCDEF".toList[d]? = some c

/-- The digits write `n` to the base sixteen. -/
def Hexadecimal (digits : List Char) (n : Nat) : Prop :=
  ∃ ds : List Nat, List.Forall₂ HexDigit digits ds ∧ n = Nat.ofDigits 16 ds.reverse

theorem HexDigit.lt {c : Char} {d : Nat} (h : HexDigit c d) : d < 16 := by
  rcases h with h | h
  · exact (List.getElem?_eq_some_iff.1 h).1
  · exact (List.getElem?_eq_some_iff.1 h).1

theorem hexValue?_of_hexDigit {c : Char} {d : Nat} (h : HexDigit c d) : hexValue? c = some d := by
  have hd := h.lt
  unfold HexDigit at h
  interval_cases d <;> rcases h with h | h <;> cases h <;> rfl

/-- A property of characters holds between two bounds, if it holds at the numbers between them. -/
theorem char_between {lo hi : Char} {P : Char → Prop}
    (h : ∀ n, lo.toNat ≤ n → n ≤ hi.toNat → P (Char.ofNat n)) {c : Char} (hlo : lo ≤ c)
    (hhi : c ≤ hi) : P c := by
  rw [← Char.ofNat_toNat c]
  exact h c.toNat hlo hhi

theorem hexDigit_of_hexValue? {c : Char} {d : Nat} (h : hexValue? c = some d) : HexDigit c d := by
  rw [hexValue?] at h
  split at h
  · next hc =>
      cases h
      refine char_between (P := fun c => HexDigit c (c.toNat - 48)) (fun n hlo hhi => ?_) hc.1 hc.2
      change 48 ≤ n at hlo
      change n ≤ 57 at hhi
      interval_cases n <;> exact .inl rfl
  · split at h
    · next hc =>
        cases h
        refine char_between (P := fun c => HexDigit c (c.toNat - 87)) (fun n hlo hhi => ?_)
          hc.1 hc.2
        change 97 ≤ n at hlo
        change n ≤ 102 at hhi
        interval_cases n <;> exact .inl rfl
    · split at h
      · next hc =>
          cases h
          refine char_between (P := fun c => HexDigit c (c.toNat - 55)) (fun n hlo hhi => ?_)
            hc.1 hc.2
          change 65 ≤ n at hlo
          change n ≤ 70 at hhi
          interval_cases n <;> exact .inr rfl
      · cases h

theorem hexValue?_eq_some_iff {c : Char} {d : Nat} : hexValue? c = some d ↔ HexDigit c d :=
  ⟨hexDigit_of_hexValue?, hexValue?_of_hexDigit⟩

/-- Digits read after a value count below it. -/
theorem hexRun?_eq_some_iff {digits : List Char} {value n : Nat} :
    hexRun? value digits = some n ↔
      ∃ ds : List Nat, List.Forall₂ HexDigit digits ds ∧
        n = Nat.ofDigits 16 ds.reverse + 16 ^ ds.length * value := by
  induction digits generalizing value with
  | nil =>
      constructor
      · intro h
        cases h
        exact ⟨[], .nil, by simp⟩
      · rintro ⟨ds, hds, rfl⟩
        cases hds
        simp [hexRun?]
  | cons c cs ih =>
      have hstep : ∀ (d : Nat) (ds : List Nat),
          Nat.ofDigits 16 ds.reverse + 16 ^ ds.length * (16 * value + d) =
            Nat.ofDigits 16 (d :: ds).reverse + 16 ^ (d :: ds).length * value := by
        intro d ds
        rw [List.reverse_cons, Nat.ofDigits_append, List.length_reverse, Nat.ofDigits_singleton,
          List.length_cons]
        ring
      rw [hexRun?, Option.bind_eq_some_iff]
      constructor
      · rintro ⟨d, hd, h⟩
        obtain ⟨ds, hds, rfl⟩ := ih.1 h
        exact ⟨d :: ds, .cons (hexValue?_eq_some_iff.1 hd) hds, hstep d ds⟩
      · rintro ⟨ds, hds, rfl⟩
        cases hds with
        | @cons _ d _ ds hd hds =>
            exact ⟨d, hexValue?_eq_some_iff.2 hd, ih.2 ⟨ds, hds, (hstep d ds).symm⟩⟩

theorem hexRun?_zero_eq_some_iff {digits : List Char} {n : Nat} :
    hexRun? 0 digits = some n ↔ Hexadecimal digits n := by
  rw [hexRun?_eq_some_iff]
  simp only [Nat.mul_zero, Nat.add_zero, Hexadecimal]

/-- A number in digits. The lax reading takes a plus sign before them. -/
inductive Numeral (lax : Bool) : List Char → Nat → Prop
  | digits {digits : List Char} {n : Nat} (some : digits ≠ []) (value : Hexadecimal digits n) :
      Numeral lax digits n
  | signed {digits : List Char} {n : Nat} (slip : lax = true) (some : digits ≠ [])
      (value : Hexadecimal digits n) : Numeral lax ('+' :: digits) n

/-- What the decoder relies on in a character of a number: it fills one byte, and is no brace. -/
def IsNumeralChar (c : Char) : Prop := c.utf8Size = 1 ∧ c ≠ '\x7b' ∧ c ≠ '\x7d'

theorem HexDigit.isNumeralChar {c : Char} {d : Nat} (h : HexDigit c d) :
    IsNumeralChar c ∧ c ≠ '+' := by
  have hd := h.lt
  unfold HexDigit at h
  unfold IsNumeralChar
  interval_cases d <;> rcases h with h | h <;> cases h <;> decide

theorem Hexadecimal.exists_hexDigit {digits : List Char} {n : Nat} (h : Hexadecimal digits n) :
    ∀ c ∈ digits, ∃ d, HexDigit c d := by
  obtain ⟨ds, hds, -⟩ := h
  clear n
  induction hds with
  | nil => exact fun c hc => absurd hc List.not_mem_nil
  | @cons _ d _ _ hd _ ih =>
      intro c hc
      rcases List.mem_cons.1 hc with rfl | hc
      · exact ⟨d, hd⟩
      · exact ih c hc

namespace Numeral

variable {lax : Bool} {digits : List Char} {n : Nat}

theorem ne_nil (h : Numeral lax digits n) : digits ≠ [] := by
  cases h with
  | digits some _ => exact some
  | signed _ _ _ => exact List.cons_ne_nil _ _

theorem isNumeralChar (h : Numeral lax digits n) : ∀ c ∈ digits, IsNumeralChar c := by
  have hdigits : ∀ {digits : List Char}, Hexadecimal digits n → ∀ c ∈ digits, IsNumeralChar c := by
    intro digits h c hc
    obtain ⟨d, hd⟩ := h.exists_hexDigit c hc
    exact hd.isNumeralChar.1
  cases h with
  | digits _ value => exact hdigits value
  | signed _ _ value =>
      intro c hc
      rcases List.mem_cons.1 hc with rfl | hc
      · unfold IsNumeralChar
        decide
      · exact hdigits value c hc

/-- The characters before the closing brace are all of them. -/
theorem isOpen (h : Numeral lax digits n) : ∀ c ∈ digits, decide (c ≠ '\x7d') = true :=
  fun c hc => decide_eq_true (h.isNumeralChar c hc).2.2

/-- A number fills as many bytes as it has characters. -/
theorem byteLength_eq (h : Numeral lax digits n) : byteLength digits = digits.length := by
  have hchars := h.isNumeralChar
  clear h
  induction digits with
  | nil => rfl
  | cons c cs ih =>
      have hc := (hchars c List.mem_cons_self).1
      have hcs := ih fun x hx => hchars x (List.mem_cons_of_mem _ hx)
      rw [byteLength] at hcs ⊢
      rw [List.foldr_cons, hcs, hc, List.length_cons]
      exact Nat.add_comm _ _

theorem mono (h : Numeral false digits n) : Numeral lax digits n := by
  cases h with
  | digits some value => exact .digits some value
  | signed slip _ _ => cases slip

/-- A number without a plus sign in front is read alike in both ways. -/
theorem strict (h : Numeral lax digits n) (hsign : digits.head? ≠ some '+') :
    Numeral false digits n := by
  cases h with
  | digits some value => exact .digits some value
  | signed _ _ _ => exact absurd rfl hsign

end Numeral

theorem hexNumber?_eq_some_iff {digits : List Char} {n : Nat} :
    hexNumber? digits = some n ↔ Numeral true digits n := by
  have hplus : ∀ {cs : List Char}, ¬ Hexadecimal ('+' :: cs) n := by
    intro cs h
    obtain ⟨d, hd⟩ := h.exists_hexDigit '+' List.mem_cons_self
    exact hd.isNumeralChar.2 rfl
  constructor
  · intro h
    rw [hexNumber?.eq_def] at h
    split at h
    · cases h
    · exact .digits (List.cons_ne_nil _ _) (hexRun?_zero_eq_some_iff.1 h)
    · next c cs hcs =>
        split at h
        · next hc =>
            subst hc
            exact .signed rfl hcs (hexRun?_zero_eq_some_iff.1 h)
        · exact .digits (List.cons_ne_nil _ _) (hexRun?_zero_eq_some_iff.1 h)
  · intro h
    cases h with
    | digits some value =>
        have hrun := hexRun?_zero_eq_some_iff.2 value
        match digits with
        | [c] => exact hrun
        | c :: c' :: cs =>
            rw [hexNumber?, if_neg]
            · exact hrun
            · rintro rfl
              exact hplus value
            · exact fun h => by cases h
    | @signed digits _ _ some value =>
        match digits with
        | c :: cs =>
            rw [hexNumber?, if_pos rfl]
            · exact hexRun?_zero_eq_some_iff.2 value
            · exact fun h => by cases h

/-- A number of a fixed length is a numeral of that many characters. -/
theorem fixedHex?_eq_some_iff {count n : Nat} {cs rest : List Char} :
    fixedHex? count cs = some (n, rest) ↔
      ∃ digits, cs = digits ++ rest ∧ digits.length = count ∧ Numeral true digits n := by
  rw [fixedHex?]
  constructor
  · intro h
    split at h
    · next hbytes =>
        obtain ⟨m, hm, hpair⟩ := Option.map_eq_some_iff.1 h
        cases hpair
        have hnumeral := hexNumber?_eq_some_iff.1 hm
        refine ⟨cs.take count, (List.take_append_drop count cs).symm, ?_, hnumeral⟩
        rw [← hnumeral.byteLength_eq, hbytes]
    · cases h
  · rintro ⟨digits, rfl, rfl, hnumeral⟩
    simp only [List.take_left, List.drop_left]
    rw [if_pos hnumeral.byteLength_eq, hexNumber?_eq_some_iff.2 hnumeral]
    rfl

/-! ## Escapes -/

/-- The text behind `\u` starts with the number `n`, and `rest` follows it: four digits, or one to
six in braces. The lax reading takes a braced number that nothing closes. -/
inductive UnitEscape (lax : Bool) : List Char → Nat → List Char → Prop
  | four {digits rest : List Char} {n : Nat} (length : digits.length = 4)
      (number : Numeral lax digits n) : UnitEscape lax (digits ++ rest) n rest
  | braced {digits rest : List Char} {n : Nat} (length : digits.length ≤ 6)
      (number : Numeral lax digits n) :
      UnitEscape lax ('\x7b' :: digits ++ '\x7d' :: rest) n rest
  | unclosed {digits : List Char} {n : Nat} (slip : lax = true) (length : digits.length ≤ 6)
      (number : Numeral lax digits n) : UnitEscape lax ('\x7b' :: digits) n []

/-- The text behind `\u` denotes the character `c`, and `rest` follows what denotes it: a number
that is a character, or a high surrogate and the `\u` escape of a low one. -/
inductive UnicodeEscape (lax : Bool) : List Char → Char → List Char → Prop
  | scalar {cs rest : List Char} {c : Char} (number : UnitEscape lax cs c.toNat rest) :
      UnicodeEscape lax cs c rest
  | pair {cs cs' rest : List Char} {high low : Nat} {c : Char}
      (first : UnitEscape lax cs high ('\\' :: 'u' :: cs')) (second : UnitEscape lax cs' low rest)
      (isHigh : 0xD800 ≤ high ∧ high < 0xDC00) (isLow : 0xDC00 ≤ low ∧ low < 0xE000)
      (value : c.toNat = 0x10000 + (high - 0xD800) * 0x400 + (low - 0xDC00)) :
      UnicodeEscape lax cs c rest

/-- The controls that have a letter or the digit zero as their escape. -/
def controlEscapes : List (Char × Char) :=
  [('n', '\n'), ('t', '\t'), ('r', '\r'), ('b', '\x08'), ('f', '\x0c'), ('v', '\x0b'),
    ('0', '\x00')]

/-- A backslash and the character denote the text: a control, nothing for a line feed, and the
character itself for one without a meaning of its own. -/
inductive ShortEscape : Char → List Char → Prop
  | control {e c : Char} (listed : (e, c) ∈ controlEscapes) : ShortEscape e [c]
  | lineFeed : ShortEscape '\n' []
  | other {e : Char} (unlisted : ∀ c, (e, c) ∉ controlEscapes) (notLineFeed : e ≠ '\n')
      (notHex : e ≠ 'x') (notUnicode : e ≠ 'u') : ShortEscape e [e]

/-- Every escape of the text is well formed, every surrogate has its partner, and the pieces denote
the value one after the other. -/
inductive Denotes (lax : Bool) : List Char → List Char → Prop
  | nil : Denotes lax [] []
  | plain {c : Char} {cs value : List Char} (notEscape : c ≠ '\\') (later : Denotes lax cs value) :
      Denotes lax (c :: cs) (c :: value)
  | short {e : Char} {cs denoted value : List Char} (escape : ShortEscape e denoted)
      (later : Denotes lax cs value) : Denotes lax ('\\' :: e :: cs) (denoted ++ value)
  | byte {digits cs value : List Char} {c : Char} (length : digits.length = 2)
      (number : Numeral lax digits c.toNat) (later : Denotes lax cs value) :
      Denotes lax ('\\' :: 'x' :: (digits ++ cs)) (c :: value)
  | unicode {cs rest value : List Char} {c : Char} (escape : UnicodeEscape lax cs c rest)
      (later : Denotes lax rest value) : Denotes lax ('\\' :: 'u' :: cs) (c :: value)

/-! ## The decoder -/

theorem scalar?_eq_some_iff {n : Nat} {c : Char} : scalar? n = some c ↔ c.toNat = n := by
  rw [scalar?]
  constructor
  · intro h
    by_cases hn : n.isValidChar
    · rw [dif_pos hn] at h
      cases h
      rfl
    · rw [dif_neg hn] at h
      cases h
  · rintro rfl
    have hvalid : c.toNat.isValidChar := c.valid
    rw [dif_pos hvalid]
    rfl

/-- The number in braces and what follows it, by whether a brace closes it. -/
theorem unitEscape_of_braces {cs : List Char} {n : Nat}
    (hlength : (cs.takeWhile (· ≠ '\x7d')).length ≤ 6)
    (hnumber : Numeral true (cs.takeWhile (· ≠ '\x7d')) n) :
    UnitEscape true ('\x7b' :: cs) n ((cs.dropWhile (· ≠ '\x7d')).drop 1) := by
  have happend := List.takeWhile_append_dropWhile (p := fun c => decide (c ≠ '\x7d')) (l := cs)
  cases hdrop : cs.dropWhile (· ≠ '\x7d') with
  | nil =>
      rw [hdrop, List.append_nil] at happend
      rw [happend] at hlength hnumber
      exact .unclosed rfl hlength hnumber
  | cons x rest =>
      have hx : x = '\x7d' := by
        have hhead := List.head?_dropWhile_not (fun c => decide (c ≠ '\x7d')) cs
        rw [hdrop] at hhead
        simpa using hhead
      subst hx
      rw [hdrop] at happend
      have hbraced : UnitEscape true _ _ rest := .braced hlength hnumber
      rw [List.cons_append, happend] at hbraced
      exact hbraced

theorem unit?_eq_some_iff {cs rest : List Char} {n : Nat} :
    unit? cs = some (n, rest) ↔ UnitEscape true cs n rest := by
  constructor
  · intro h
    rw [unit?.eq_def] at h
    split at h
    · dsimp only at h
      split at h
      · cases h
      · next hbounds =>
          obtain ⟨m, hm, hpair⟩ := Option.map_eq_some_iff.1 h
          cases hpair
          have hnumber := hexNumber?_eq_some_iff.1 hm
          refine unitEscape_of_braces ?_ hnumber
          rw [← hnumber.byteLength_eq]
          exact Nat.le_of_not_lt fun hlt => hbounds (.inr hlt)
    · obtain ⟨digits, rfl, hlength, hnumber⟩ := fixedHex?_eq_some_iff.1 h
      exact .four hlength hnumber
  · intro h
    have hbounds : ∀ {digits : List Char}, digits.length ≤ 6 → Numeral true digits n →
        ¬ (digits = [] ∨ 6 < byteLength digits) := by
      rintro digits hlength hnumber (hnil | hlt)
      · exact hnumber.ne_nil hnil
      · rw [hnumber.byteLength_eq] at hlt
        omega
    cases h with
    | @four digits _ _ length number =>
        rw [unit?.eq_def]
        split
        · next cs' hcs =>
            -- A number does not start with a brace.
            obtain ⟨x, xs, rfl⟩ := List.exists_cons_of_ne_nil number.ne_nil
            cases hcs
            exact absurd rfl (number.isNumeralChar '\x7b' List.mem_cons_self).2.1
        · exact fixedHex?_eq_some_iff.2 ⟨digits, rfl, length, number⟩
    | @braced digits _ _ length number =>
        rw [List.cons_append, unit?]
        simp only [List.takeWhile_append_of_pos number.isOpen,
          List.dropWhile_append_of_pos number.isOpen, ne_eq, not_true_eq_false, decide_false,
          Bool.false_eq_true, not_false_eq_true, List.takeWhile_cons_of_neg,
          List.dropWhile_cons_of_neg, List.append_nil, List.drop_one, List.tail_cons]
        rw [if_neg (hbounds length number), hexNumber?_eq_some_iff.2 number]
        rfl
    | @unclosed digits _ _ length number =>
        have htake := List.takeWhile_eq_self_iff.2 number.isOpen
        have hdrop := List.dropWhile_eq_nil_iff.2 number.isOpen
        rw [unit?]
        simp only [htake, hdrop]
        rw [if_neg (hbounds length number), hexNumber?_eq_some_iff.2 number]
        rfl

theorem unicodeEscape?_eq_some_iff {cs rest : List Char} {c : Char} :
    unicodeEscape? cs = some (c, rest) ↔ UnicodeEscape true cs c rest := by
  constructor
  · intro h
    rw [unicodeEscape?] at h
    split at h
    · cases h
    · next n next hunit =>
        rw [unit?_eq_some_iff] at hunit
        split at h
        · next hhigh =>
            split at h
            · split at h
              · cases h
              · next hlow =>
                  rw [unit?_eq_some_iff] at hlow
                  split at h
                  · next hbounds =>
                      obtain ⟨x, hx, hpair⟩ := Option.map_eq_some_iff.1 h
                      cases hpair
                      exact .pair hunit hlow hhigh hbounds (scalar?_eq_some_iff.1 hx)
                  · cases h
            · cases h
        · obtain ⟨x, hx, hpair⟩ := Option.map_eq_some_iff.1 h
          cases hpair
          rw [← scalar?_eq_some_iff.1 hx] at hunit
          exact .scalar hunit
  · intro h
    cases h with
    | scalar number =>
        have hvalid : c.toNat.isValidChar := c.valid
        have hscalar : ¬ (0xD800 ≤ c.toNat ∧ c.toNat < 0xDC00) := by
          unfold Nat.isValidChar at hvalid
          omega
        rw [unicodeEscape?, unit?_eq_some_iff.2 number]
        dsimp only
        rw [if_neg hscalar, scalar?_eq_some_iff.2 rfl]
        rfl
    | pair first second isHigh isLow value =>
        rw [unicodeEscape?, unit?_eq_some_iff.2 first]
        dsimp only
        rw [if_pos isHigh]
        simp only [unit?_eq_some_iff.2 second]
        rw [if_pos isLow, scalar?_eq_some_iff.2 value]
        rfl

/-- A character with a short escape is no letter of a number escape, and decodes to what its escape
denotes. -/
theorem ShortEscape.simpleEscape_eq {e : Char} {denoted : List Char} (h : ShortEscape e denoted) :
    e ≠ 'x' ∧ e ≠ 'u' ∧ simpleEscape e = denoted := by
  cases h with
  | control listed =>
      simp only [controlEscapes, List.mem_cons, Prod.mk.injEq, List.not_mem_nil, or_false] at listed
      rcases listed with ⟨rfl, rfl⟩ | ⟨rfl, rfl⟩ | ⟨rfl, rfl⟩ | ⟨rfl, rfl⟩ | ⟨rfl, rfl⟩ |
        ⟨rfl, rfl⟩ | ⟨rfl, rfl⟩ <;> decide
  | lineFeed => decide
  | other unlisted notLineFeed notHex notUnicode =>
      have hne : ∀ {l c : Char}, (l, c) ∈ controlEscapes → e ≠ l := by
        rintro l c hmem rfl
        exact unlisted c hmem
      refine ⟨notHex, notUnicode, ?_⟩
      rw [simpleEscape, if_neg (hne (c := '\n') (by decide)), if_neg (hne (c := '\t') (by decide)),
        if_neg (hne (c := '\r') (by decide)), if_neg (hne (c := '\x08') (by decide)),
        if_neg (hne (c := '\x0c') (by decide)), if_neg (hne (c := '\x0b') (by decide)),
        if_neg (hne (c := '\x00') (by decide)), if_neg notLineFeed]

/-- Every character but the letters of the number escapes has a short escape. -/
theorem shortEscape_simpleEscape {e : Char} (hx : e ≠ 'x') (hu : e ≠ 'u') :
    ShortEscape e (simpleEscape e) := by
  have hescape : ∀ {denoted : List Char}, ShortEscape e denoted →
      ShortEscape e (simpleEscape e) := fun h => h.simpleEscape_eq.2.2 ▸ h
  by_cases hlisted : ∃ c, (e, c) ∈ controlEscapes
  · obtain ⟨c, hc⟩ := hlisted
    exact hescape (.control hc)
  · by_cases hfeed : e = '\n'
    · subst hfeed
      exact hescape .lineFeed
    · exact hescape (.other (fun c hc => hlisted ⟨c, hc⟩) hfeed hx hu)

theorem UnitEscape.isSuffix {lax : Bool} {cs rest : List Char} {n : Nat}
    (h : UnitEscape lax cs n rest) : rest <:+ cs := by
  cases h with
  | four _ _ => exact List.suffix_append _ _
  | @braced digits _ _ _ _ =>
      exact (List.suffix_cons '\x7d' rest).trans (List.suffix_append ('\x7b' :: digits) _)
  | unclosed _ _ _ => exact List.nil_suffix

theorem UnicodeEscape.isSuffix {lax : Bool} {cs rest : List Char} {c : Char}
    (h : UnicodeEscape lax cs c rest) : rest <:+ cs := by
  cases h with
  | scalar number => exact number.isSuffix
  | pair first second _ _ _ =>
      exact second.isSuffix.trans ((List.suffix_append ['\\', 'u'] _).trans first.isSuffix)

theorem denotes_of_decodeChars {fuel : Nat} {cs value : List Char}
    (h : decodeChars fuel cs = some value) : Denotes true cs value := by
  fun_induction decodeChars fuel cs generalizing value with
  | case1 => cases h
  | case2 =>
      cases h
      exact .nil
  | case3 | case4 | case6 => cases h
  | case5 fuel cs n rest hfixed c hc ih =>
      obtain ⟨v, hv, rfl⟩ := Option.map_eq_some_iff.1 h
      obtain ⟨digits, rfl, hlength, hnumber⟩ := fixedHex?_eq_some_iff.1 hfixed
      rw [← scalar?_eq_some_iff.1 hc] at hnumber
      exact .byte hlength hnumber (ih hv)
  | case7 fuel cs c rest hescape ih =>
      obtain ⟨v, hv, rfl⟩ := Option.map_eq_some_iff.1 h
      exact .unicode (unicodeEscape?_eq_some_iff.1 hescape) (ih hv)
  | case8 fuel e cs hx hu ih =>
      obtain ⟨v, hv, rfl⟩ := Option.map_eq_some_iff.1 h
      exact .short (shortEscape_simpleEscape hx hu) (ih hv)
  | case9 => cases h
  | case10 fuel c cs _ _ _ hc ih =>
      obtain ⟨v, hv, rfl⟩ := Option.map_eq_some_iff.1 h
      exact .plain hc (ih hv)

theorem decodeChars_of_denotes {cs value : List Char} (h : Denotes true cs value) :
    ∀ {fuel : Nat}, cs.length < fuel → decodeChars fuel cs = some value := by
  -- By induction on the pieces: each one uses up a unit of the fuel and at least one character.
  induction h with
  | nil =>
      rintro (_ | fuel) hfuel
      · cases hfuel
      · rfl
  | @plain c cs value notEscape later ih =>
      rintro (_ | fuel) hfuel
      · cases hfuel
      · rw [List.length_cons] at hfuel
        rw [decodeChars, if_neg notEscape, ih (by omega)]
        · rfl
        · rintro _ rfl
          exact absurd rfl notEscape
        · rintro _ rfl
          exact absurd rfl notEscape
        · rintro _ _ rfl
          exact absurd rfl notEscape
  | @short e cs denoted value escape later ih =>
      obtain ⟨hx, hu, rfl⟩ := escape.simpleEscape_eq
      rintro (_ | fuel) hfuel
      · cases hfuel
      · rw [List.length_cons, List.length_cons] at hfuel
        rw [decodeChars, ih (by omega)]
        · rfl
        · exact hx
        · exact hu
  | @byte digits cs value c length number later ih =>
      have hfixed : fixedHex? 2 (digits ++ cs) = some (c.toNat, cs) :=
        fixedHex?_eq_some_iff.2 ⟨digits, rfl, length, number⟩
      rintro (_ | fuel) hfuel
      · cases hfuel
      · rw [List.length_cons, List.length_cons, List.length_append] at hfuel
        simp only [decodeChars, hfixed, scalar?_eq_some_iff.2 rfl]
        rw [ih (by omega)]
        rfl
  | @unicode cs rest value c escape later ih =>
      have hlength := escape.isSuffix.length_le
      rintro (_ | fuel) hfuel
      · cases hfuel
      · rw [List.length_cons, List.length_cons] at hfuel
        simp only [decodeChars, unicodeEscape?_eq_some_iff.2 escape]
        rw [ih (by omega)]
        rfl

/-- With enough fuel the decoder finds what the inside of a literal denotes, if it denotes
anything. -/
theorem decodeChars_eq_some_iff {fuel : Nat} {cs value : List Char} (hfuel : cs.length < fuel) :
    decodeChars fuel cs = some value ↔ Denotes true cs value :=
  ⟨denotes_of_decodeChars, fun h => decodeChars_of_denotes h hfuel⟩

/-- A literal denotes what is inside of its quotes. -/
theorem decodeLiteral_eq_some_iff {opening closing : Char} {inside : List Char} {value : String} :
    decodeLiteral (String.ofList (opening :: (inside ++ [closing]))) = some value ↔
      Denotes true inside value.toList := by
  have hinside : ((opening :: (inside ++ [closing])).drop 1).dropLast = inside := by
    rw [List.drop_one, List.tail_cons, List.dropLast_concat]
  rw [decodeLiteral, String.toList_ofList, hinside,
    ← decodeChars_eq_some_iff (Nat.lt_succ_self inside.length), Option.map_eq_some_iff]
  constructor
  · rintro ⟨chars, hchars, rfl⟩
    rw [String.toList_ofList]
    exact hchars
  · exact fun h => ⟨value.toList, h, String.ofList_toList⟩

/-! ## Strict and lax reading -/

/-- Somewhere in the text a number is written with a slip: with a plus sign before its digits, or in
braces that nothing closes. -/
def Slips (cs : List Char) : Prop :=
  ['\\', 'x', '+'] <:+: cs ∨ ['\\', 'u', '+'] <:+: cs ∨ ['\\', 'u', '\x7b', '+'] <:+: cs ∨
    ∃ digits, '\\' :: 'u' :: '\x7b' :: digits <:+ cs ∧ '\x7d' ∉ digits

theorem Slips.of_suffix {cs tail : List Char} (h : Slips tail) (hsuffix : tail <:+ cs) :
    Slips cs := by
  rcases h with h | h | h | ⟨digits, h, hopen⟩
  · exact .inl (h.trans hsuffix.isInfix)
  · exact .inr (.inl (h.trans hsuffix.isInfix))
  · exact .inr (.inr (.inl (h.trans hsuffix.isInfix)))
  · exact .inr (.inr (.inr ⟨digits, h.trans hsuffix, hopen⟩))

theorem UnitEscape.mono {lax : Bool} {cs rest : List Char} {n : Nat}
    (h : UnitEscape false cs n rest) : UnitEscape lax cs n rest := by
  cases h with
  | four length number => exact .four length number.mono
  | braced length number => exact .braced length number.mono
  | unclosed slip _ _ => cases slip

theorem UnicodeEscape.mono {lax : Bool} {cs rest : List Char} {c : Char}
    (h : UnicodeEscape false cs c rest) : UnicodeEscape lax cs c rest := by
  cases h with
  | scalar number => exact .scalar number.mono
  | pair first second isHigh isLow value => exact .pair first.mono second.mono isHigh isLow value

/-- What a text denotes strictly it denotes in both ways. -/
theorem Denotes.mono {lax : Bool} {cs value : List Char} (h : Denotes false cs value) :
    Denotes lax cs value := by
  induction h with
  | nil => exact .nil
  | plain notEscape _ ih => exact .plain notEscape ih
  | short escape _ ih => exact .short escape ih
  | byte length number _ ih => exact .byte length number.mono ih
  | unicode escape _ ih => exact .unicode escape.mono ih

theorem UnitEscape.strict {cs rest : List Char} {n : Nat} (h : UnitEscape true cs n rest)
    (hslips : ¬ Slips ('\\' :: 'u' :: cs)) : UnitEscape false cs n rest := by
  cases h with
  | @four digits _ _ length number =>
      refine .four length (number.strict fun hsign => hslips (.inr (.inl ?_)))
      obtain ⟨ds, rfl⟩ := List.head?_eq_some_iff.1 hsign
      exact ⟨[], ds ++ rest, rfl⟩
  | @braced digits _ _ length number =>
      refine .braced length (number.strict fun hsign => hslips (.inr (.inr (.inl ?_))))
      obtain ⟨ds, rfl⟩ := List.head?_eq_some_iff.1 hsign
      exact ⟨[], ds ++ '\x7d' :: rest, rfl⟩
  | @unclosed digits _ _ _ number =>
      refine absurd (.inr (.inr (.inr ⟨digits, List.suffix_refl _, fun hmem => ?_⟩))) hslips
      exact (number.isNumeralChar _ hmem).2.2 rfl

theorem UnicodeEscape.strict {cs rest : List Char} {c : Char} (h : UnicodeEscape true cs c rest)
    (hslips : ¬ Slips ('\\' :: 'u' :: cs)) : UnicodeEscape false cs c rest := by
  cases h with
  | scalar number => exact .scalar (number.strict hslips)
  | pair first second isHigh isLow value =>
      have hsuffix := first.isSuffix.trans (List.suffix_append ['\\', 'u'] cs)
      have hslips' := fun hslip : Slips _ => hslips (hslip.of_suffix hsuffix)
      exact .pair (first.strict hslips) (second.strict hslips') isHigh isLow value

/-- Where no number is written with a slip, a text denotes strictly what it denotes laxly. -/
theorem denotes_strict_of_lax {cs value : List Char} (h : Denotes true cs value)
    (hslips : ¬ Slips cs) : Denotes false cs value := by
  induction h with
  | nil => exact .nil
  | @plain c cs _ notEscape _ ih =>
      exact .plain notEscape (ih fun hslip => hslips (hslip.of_suffix (List.suffix_cons c cs)))
  | @short e cs _ _ escape _ ih =>
      have hsuffix : cs <:+ '\\' :: e :: cs := List.suffix_append ['\\', e] cs
      exact .short escape (ih fun hslip => hslips (hslip.of_suffix hsuffix))
  | @byte digits cs _ _ length number _ ih =>
      have hsuffix : cs <:+ '\\' :: 'x' :: (digits ++ cs) :=
        List.suffix_append ('\\' :: 'x' :: digits) cs
      refine .byte length (number.strict fun hsign => hslips (.inl ?_))
        (ih fun hslip => hslips (hslip.of_suffix hsuffix))
      obtain ⟨ds, rfl⟩ := List.head?_eq_some_iff.1 hsign
      exact ⟨[], ds ++ cs, rfl⟩
  | @unicode cs rest _ _ escape _ ih =>
      have hsuffix := escape.isSuffix.trans (List.suffix_append ['\\', 'u'] cs)
      exact .unicode (escape.strict hslips) (ih fun hslip => hslips (hslip.of_suffix hsuffix))

/-! ## Writing -/

theorem hexDigit_hexDigit {d : Nat} (h : d < 16) : HexDigit (hexDigit d) d := by
  interval_cases d <;> exact .inl rfl

/-- Two digits behind two zeros write every number below 256. -/
theorem hexadecimal_hexDigits {n : Nat} (h : n < 256) :
    Hexadecimal ['0', '0', hexDigit (n / 16), hexDigit (n % 16)] n := by
  have hhigh : n / 16 < 16 := Nat.div_lt_of_lt_mul h
  have hlow : n % 16 < 16 := Nat.mod_lt n (by decide)
  refine ⟨[0, 0, n / 16, n % 16], ?_, ?_⟩
  · exact .cons (.inl rfl) (.cons (.inl rfl)
      (.cons (hexDigit_hexDigit hhigh) (.cons (hexDigit_hexDigit hlow) .nil)))
  · have hdigits : n = n % 16 + 16 * (n / 16) := (Nat.mod_add_div n 16).symm
    simpa [Nat.ofDigits_cons] using hdigits

/-- A character as it is written inside double quotes denotes itself, whatever follows it. -/
theorem denotes_quoteChar {c : Char} {cs value : List Char} (h : Denotes false cs value) :
    Denotes false (quoteChar c ++ cs) (c :: value) := by
  have hshort : ∀ {e : Char}, simpleEscape e = [c] → e ≠ 'x' → e ≠ 'u' →
      Denotes false (['\\', e] ++ cs) (c :: value) := by
    intro e he hx hu
    have hescape := shortEscape_simpleEscape hx hu
    rw [he] at hescape
    exact .short hescape h
  rw [quoteChar]
  split
  · next hc =>
      subst hc
      exact hshort rfl (by decide) (by decide)
  split
  · next hc =>
      subst hc
      exact hshort rfl (by decide) (by decide)
  split
  · next hc => exact hshort (hc ▸ rfl) (by decide) (by decide)
  split
  · next hc => exact hshort (hc ▸ rfl) (by decide) (by decide)
  split
  · next hc => exact hshort (hc ▸ rfl) (by decide) (by decide)
  split
  · next hc => exact hshort (hc ▸ rfl) (by decide) (by decide)
  split
  · next hc => exact hshort (hc ▸ rfl) (by decide) (by decide)
  split
  · next hc =>
      have hvalue := hexadecimal_hexDigits (Nat.lt_trans hc (by decide : 32 < 256))
      exact .unicode (.scalar (.four rfl (.digits (List.cons_ne_nil _ _) hvalue))) h
  · next hbackslash _ _ _ _ _ _ => exact .plain hbackslash h

/-- What `quote` writes inside of its quotes denotes the text it was given. -/
theorem denotes_flatMap_quoteChar (value : List Char) :
    Denotes false (value.flatMap quoteChar) value := by
  induction value with
  | nil => exact .nil
  | cons c cs ih => exact denotes_quoteChar ih

end LogLabel.Text
