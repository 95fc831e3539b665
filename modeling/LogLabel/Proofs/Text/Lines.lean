import LogLabel.Program.Tree
import Mathlib.Data.List.Count
import Mathlib.Order.Monotone.Basic
import Mathlib.Order.Nat

set_option autoImplicit false

/-!
# Lines and line feeds

The line of an offset is found by a search in the index of the places where lines start. Here it is
compared with the bytes of the text themselves: it is one more than the line feeds in front of the
offset.

* `Sought.Answers numbers number answer`: the answer says where the number stands in the list, or
  between which of its numbers it is missing.
* `seek_answers`: a search in a rising list answers this way.
* `lineAt_eq_countP`: so the line of an offset counts the lines that start at or before it.
* `countP_startsAfterBreaks`: each of them but the first starts behind a line feed.
* `lineOfOffset_ofText`: the line of every offset, also of one behind the end of the text.
-/

namespace LogLabel.Text

/-! ## Search in a rising list -/

/-- What an answer of the search says about a list: the number stands at the index, or it is in no
place and the numbers before the index are the smaller ones. -/
def Sought.Answers (numbers : List Nat) (number : Nat) : Sought → Prop
  | .met index => numbers[index]? = some number
  | .missed index => index ≤ numbers.length ∧
      ∀ i x, numbers[i]? = some x → (i < index → x < number) ∧ (index ≤ i → number < x)

/-- The numbers before `low` are smaller than the one that is looked for, and those from `high` on
are greater. -/
structure Encloses (numbers : List Nat) (number low high : Nat) : Prop where
  le : low ≤ high
  le_length : high ≤ numbers.length
  below : ∀ i x, numbers[i]? = some x → i < low → x < number
  above : ∀ i x, numbers[i]? = some x → high ≤ i → number < x

variable {numbers : List Nat} {number low high : Nat}

/-- In a rising list a later number is greater. -/
theorem lt_of_rising (hrising : numbers.Pairwise (· < ·)) {i j x y : Nat}
    (hx : numbers[i]? = some x) (hy : numbers[j]? = some y) (hij : i < j) : x < y := by
  obtain ⟨hi, rfl⟩ := List.getElem?_eq_some_iff.1 hx
  obtain ⟨hj, rfl⟩ := List.getElem?_eq_some_iff.1 hy
  exact List.pairwise_iff_getElem.1 hrising i j hi hj hij

namespace Encloses

/-- Nothing is left to look at. -/
theorem missed (h : Encloses numbers number low high) (hle : high ≤ low) :
    (Sought.missed low).Answers numbers number := by
  have hlow := h.le
  have hlength := h.le_length
  constructor
  · omega
  · intro i x hx
    constructor
    · exact h.below i x hx
    · intro hi
      apply h.above i x hx
      omega

/-- The number in the middle is too small: the half behind it is left. -/
theorem upper (h : Encloses numbers number low high) (hrising : numbers.Pairwise (· < ·))
    {middle found : Nat} (hmiddle : numbers[middle]? = some found) (hhigh : middle < high)
    (hfound : found < number) : Encloses numbers number (middle + 1) high where
  le := hhigh
  le_length := h.le_length
  below := by
    intro i x hx hi
    rcases Nat.lt_or_eq_of_le (Nat.le_of_lt_succ hi) with hlt | rfl
    · exact Nat.lt_trans (lt_of_rising hrising hx hmiddle hlt) hfound
    · rw [hmiddle] at hx
      cases hx
      exact hfound
  above := h.above

/-- The number in the middle is too great: the half before it is left. -/
theorem lower (h : Encloses numbers number low high) (hrising : numbers.Pairwise (· < ·))
    {middle found : Nat} (hmiddle : numbers[middle]? = some found) (hlow : low ≤ middle)
    (hfound : number < found) : Encloses numbers number low middle where
  le := hlow
  le_length := by
    obtain ⟨hlt, -⟩ := List.getElem?_eq_some_iff.1 hmiddle
    exact Nat.le_of_lt hlt
  below := h.below
  above := by
    intro i x hx hi
    rcases Nat.lt_or_eq_of_le hi with hlt | rfl
    · exact Nat.lt_trans hfound (lt_of_rising hrising hmiddle hx hlt)
    · rw [hmiddle] at hx
      cases hx
      exact hfound

end Encloses

/-- The search between two indices answers, if it has a step for each number between them. -/
theorem seekBetween_answers (hrising : numbers.Pairwise (· < ·)) {fuel : Nat}
    (h : Encloses numbers number low high) (hfuel : high - low ≤ fuel) :
    (seekBetween numbers number fuel low high).Answers numbers number := by
  -- By induction on the steps that are left. Each of them keeps the number enclosed.
  induction fuel generalizing low high with
  | zero =>
      apply h.missed
      omega
  | succ fuel ih =>
      rw [seekBetween]
      split
      · next hlt =>
          have hlength := h.le_length
          have hmiddle : low + (high - low) / 2 < high := by omega
          obtain ⟨found, hfound⟩ : ∃ found, numbers[low + (high - low) / 2]? = some found :=
            ⟨_, List.getElem?_eq_getElem (Nat.lt_of_lt_of_le hmiddle hlength)⟩
          simp only [hfound]
          split
          · next heq => exact heq ▸ hfound
          · next hne =>
              split
              · next hless =>
                  apply ih (h.upper hrising hfound hmiddle hless)
                  omega
              · next hgreater =>
                  apply ih (h.lower hrising hfound (Nat.le_add_right _ _) (by omega))
                  omega
      · next hge =>
          apply h.missed
          omega

/-- A search in a rising list answers. -/
theorem seek_answers (hrising : numbers.Pairwise (· < ·)) (number : Nat) :
    (seek numbers number).Answers numbers number := by
  apply seekBetween_answers hrising
  · -- No number stands before the first place, and none behind the last one.
    constructor
    · exact Nat.zero_le _
    · exact Nat.le_refl _
    · intro i x _ hi
      exact absurd hi (Nat.not_lt_zero i)
    · intro i x hx hi
      obtain ⟨hlt, -⟩ := List.getElem?_eq_some_iff.1 hx
      omega
  · omega

/-- Numbers up to a bound are counted by the index from which on they are greater. -/
theorem countP_le_eq {bound index : Nat} (hindex : index ≤ numbers.length)
    (h : ∀ i x, numbers[i]? = some x → (x ≤ bound ↔ i < index)) :
    numbers.countP (· ≤ bound) = index := by
  have hfront : (numbers.take index).countP (· ≤ bound) = (numbers.take index).length := by
    rw [List.countP_eq_length]
    intro x hx
    obtain ⟨i, hi, rfl⟩ := List.mem_take_iff_getElem.1 hx
    have hlt : i < index ∧ i < numbers.length := by omega
    simpa using (h i _ (List.getElem?_eq_getElem hlt.2)).2 hlt.1
  have hback : (numbers.drop index).countP (· ≤ bound) = 0 := by
    rw [List.countP_eq_zero]
    intro x hx
    obtain ⟨i, hi, rfl⟩ := List.mem_drop_iff_getElem.1 hx
    have hle := (h (index + i) _ (List.getElem?_eq_getElem (by omega))).not.2 (by omega)
    simpa using hle
  rw [← List.take_append_drop index numbers, List.countP_append, hfront, hback, List.length_take]
  omega

/-- In a rising index the line of an offset counts the lines that start at or before it. -/
theorem lineAt_eq_countP {starts : List Nat} (hrising : starts.Pairwise (· < ·)) (offset : Nat) :
    lineAt starts offset = max (starts.countP (· ≤ offset)) 1 := by
  have hanswer := seek_answers hrising offset
  rw [lineAt]
  cases hseek : seek starts offset with
  | met index =>
      rw [hseek] at hanswer
      have hmet : starts[index]? = some offset := hanswer
      obtain ⟨hlt, -⟩ := List.getElem?_eq_some_iff.1 hmet
      have hcount : starts.countP (· ≤ offset) = index + 1 := by
        apply countP_le_eq hlt
        intro i x hx
        constructor
        · intro hle
          by_contra hi
          have := lt_of_rising hrising hmet hx (by omega)
          omega
        · intro hi
          rcases Nat.lt_or_eq_of_le (Nat.le_of_lt_succ hi) with hi | rfl
          · exact Nat.le_of_lt (lt_of_rising hrising hx hmet hi)
          · rw [hmet] at hx
            cases hx
            exact Nat.le_refl _
      simp [hcount]
  | missed index =>
      rw [hseek] at hanswer
      obtain ⟨hindex, hplaces⟩ := hanswer
      have hcount : starts.countP (· ≤ offset) = index := by
        apply countP_le_eq hindex
        intro i x hx
        obtain ⟨hbelow, habove⟩ := hplaces i x hx
        constructor
        · intro hle
          by_contra hi
          have := habove (by omega)
          omega
        · intro hi
          exact Nat.le_of_lt (hbelow hi)
      rw [hcount]

/-! ## Line feeds -/

/-- The byte of a line feed. -/
def feedByte : UInt8 := 0x0A

/-- The bytes of a text. -/
def bytesOf (text : String) : List UInt8 := text.toByteArray.data.toList

theorem bytesOf_eq (text : String) : bytesOf text = text.toList.flatMap String.utf8EncodeChar := by
  rw [bytesOf, ← String.utf8Encode_toList, List.utf8Encode, List.toList_data_toByteArray]

/-- Made of a number, the byte of a line feed is the number ten, up to a multiple of 256. -/
theorem feedByte_eq_ofNat (n : Nat) : feedByte = UInt8.ofNat n ↔ n % 256 = 10 := by
  rw [feedByte, ← UInt8.toNat_inj, UInt8.toNat_ofNat']
  exact eq_comm

/-- The byte of a line feed stands in the bytes of a line feed only. -/
theorem eq_of_feedByte_mem {c : Char} (h : feedByte ∈ String.utf8EncodeChar c) : c = '\n' := by
  -- Up to 127 a character is its own byte, and all bytes of the others are greater.
  simp only [String.utf8EncodeChar] at h
  split at h
  · next hascii =>
      rw [List.mem_singleton, feedByte_eq_ofNat] at h
      apply Char.val_inj.1
      rw [← UInt32.toNat_inj]
      change c.val.toNat = 10
      omega
  · exfalso
    split at h
    · simp only [List.mem_cons, List.not_mem_nil, or_false, feedByte_eq_ofNat] at h
      omega
    · split at h
      · simp only [List.mem_cons, List.not_mem_nil, or_false, feedByte_eq_ofNat] at h
        omega
      · simp only [List.mem_cons, List.not_mem_nil, or_false, feedByte_eq_ofNat] at h
        omega

/-- Lines start behind the place where the text begins. -/
theorem lt_of_mem_startsAfterBreaks {base start : Nat} {cs : List Char}
    (h : start ∈ startsAfterBreaks base cs) : base < start := by
  induction cs generalizing base with
  | nil => simp [startsAfterBreaks] at h
  | cons c cs ih =>
      have hsize := c.utf8Size_pos
      rw [startsAfterBreaks] at h
      split at h
      · rcases List.mem_cons.1 h with rfl | h
        · omega
        · have := ih h
          omega
      · have := ih h
        omega

/-- Lines start one behind the other. -/
theorem rising_startsAfterBreaks (base : Nat) (cs : List Char) :
    (startsAfterBreaks base cs).Pairwise (· < ·) := by
  induction cs generalizing base with
  | nil => exact .nil
  | cons c cs ih =>
      rw [startsAfterBreaks]
      split
      · apply List.pairwise_cons.2
        constructor
        · intro start hstart
          exact lt_of_mem_startsAfterBreaks hstart
        · exact ih _
      · exact ih _

theorem rising_lineStarts (text : String) : (lineStarts text).Pairwise (· < ·) := by
  apply List.pairwise_cons.2
  constructor
  · intro start hstart
    exact lt_of_mem_startsAfterBreaks hstart
  · exact rising_startsAfterBreaks 0 _

/-- The lines that start behind a break, up to a number of bytes, are counted by the line feeds
among these bytes. -/
theorem countP_startsAfterBreaks (base count : Nat) (cs : List Char) :
    (startsAfterBreaks base cs).countP (· ≤ base + count)
      = ((cs.flatMap String.utf8EncodeChar).take count).count feedByte := by
  induction cs generalizing base count with
  | nil => simp [startsAfterBreaks]
  | cons c cs ih =>
      have hlength : (String.utf8EncodeChar c).length = c.utf8Size := String.length_utf8EncodeChar c
      -- Behind the character the lines are counted by the bytes that are left.
      have hlater : (startsAfterBreaks (base + c.utf8Size) cs).countP (· ≤ base + count)
          = ((cs.flatMap String.utf8EncodeChar).take (count - c.utf8Size)).count feedByte := by
        by_cases hle : c.utf8Size ≤ count
        · have hsum : base + count = base + c.utf8Size + (count - c.utf8Size) := by omega
          rw [hsum, ih]
        · have hzero : count - c.utf8Size = 0 := by omega
          rw [hzero, List.take_zero, List.count_nil, List.countP_eq_zero]
          intro start hstart
          have := lt_of_mem_startsAfterBreaks hstart
          simp
          omega
      rw [List.flatMap_cons, List.take_append, List.count_append, hlength, ← hlater,
        startsAfterBreaks]
      split
      · next hc =>
          subst hc
          have hsize : '\n'.utf8Size = 1 := by decide
          have hbytes : String.utf8EncodeChar '\n' = [feedByte] := by decide
          rw [List.countP_cons, hbytes, hsize, Nat.add_comm]
          congr 1
          cases count with
          | zero => simp
          | succ count => simp
      · next hc =>
          have hnone : ((String.utf8EncodeChar c).take count).count feedByte = 0 := by
            rw [List.count_eq_zero]
            intro hmem
            exact hc (eq_of_feedByte_mem (List.mem_of_mem_take hmem))
          rw [hnone, Nat.zero_add]

end LogLabel.Text

namespace LogLabel.Program.Tree

open Text (bytesOf feedByte)

/-- The line of an offset of a text is one more than the line feeds among the bytes before it. So
lines are counted from one, and a later offset is on no earlier line. -/
theorem lineOfOffset_ofText (text : String) :
    (∀ offset, (ofText text).lineOfOffset offset
      = 1 + ((bytesOf text).take offset).count feedByte) ∧
    (∀ offset, 1 ≤ (ofText text).lineOfOffset offset) ∧
    Monotone (ofText text).lineOfOffset := by
  have hline : ∀ offset, (ofText text).lineOfOffset offset
      = 1 + ((bytesOf text).take offset).count feedByte := by
    intro offset
    have hcount := Text.countP_startsAfterBreaks 0 offset text.toList
    rw [Nat.zero_add] at hcount
    rw [lineOfOffset, ofText, Text.lineAt_eq_countP (Text.rising_lineStarts text), Text.lineStarts,
      List.countP_cons, hcount, Text.bytesOf_eq]
    have hfirst : decide (0 ≤ offset) = true := by simp
    rw [if_pos hfirst]
    omega
  refine ⟨hline, fun offset => ?_, fun offset offset' hle => ?_⟩
  · rw [hline]
    exact Nat.le_add_right _ _
  · rw [hline, hline]
    apply Nat.add_le_add_left
    exact (List.take_prefix_take_left hle).sublist.count_le feedByte

end LogLabel.Program.Tree
