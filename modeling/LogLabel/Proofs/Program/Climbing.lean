import LogLabel.Program.Printer
import LogLabel.Proofs.Program.Layout

set_option autoImplicit false

/-!
# Climbing and parentheses

Precedence climbing makes a tree of a flat chain of operators, and the printer makes a flat chain
of a tree, with parentheses around the operands that need them. The two are inverse.

* `Grouping.climbAt`: climbing that reads operands and operators at positions of two lists.
* `Grouping.Climbs`: climbing as a relation, without fuel and without positions.
* `Grouping.Fits floor g`: each operator of the tree binds at least as tightly as its place asks.
* `Ast.outer`: the operators of an expression that the printer writes outside of parentheses.
* `climbing_inverse`: climbing uses up every chain of accepted operators and keeps its order, and
  it gives back the tree whose chain the printer wrote.
-/

namespace LogLabel.Program

/-! ## Trees and chains -/

namespace Grouping

variable {α : Type}

/-- The operators from left to right. -/
def operators : Grouping α → List String
  | .leaf _ => []
  | .branch op l r => l.operators ++ op :: r.operators

/-- The leftmost operand. -/
def first : Grouping α → α
  | .leaf a => a
  | .branch _ l _ => l.first

/-- The operators from left to right, each one with the operand behind it. -/
def links : Grouping α → List (String × α)
  | .leaf _ => []
  | .branch op l r => l.links ++ (op, r.first) :: r.links

theorem leaves_eq (g : Grouping α) : g.leaves = g.first :: g.links.map Prod.snd := by
  induction g with
  | leaf a => rfl
  | branch op l r ihl ihr => rw [leaves, ihl, ihr, first, links, List.map_append]; rfl

theorem operators_eq (g : Grouping α) : g.operators = g.links.map Prod.fst := by
  induction g with
  | leaf a => rfl
  | branch op l r ihl ihr => rw [operators, ihl, ihr, links, List.map_append]; rfl

theorem length_leaves (g : Grouping α) : g.leaves.length = g.operators.length + 1 := by
  rw [leaves_eq, operators_eq, List.length_cons, List.length_map, List.length_map]

/-- Operators and operands in two lists make up the links of the chain. -/
theorem zip_tail_leaves (g : Grouping α) : g.operators.zip g.leaves.tail = g.links := by
  have h := List.zip_unzip g.links
  rw [List.unzip_eq_map] at h
  rw [leaves_eq, operators_eq]
  exact h

/-! ## Climbing by position -/

/-- Extends `left` by the operators from position `pos` on that bind at least as tightly as `floor`;
returns the tree and the next position. The operand behind an operator is one position further on.
There is no result where a position is out of range. -/
def extendAt (operands : List α) (operators : List String) :
    Nat → Nat → Grouping α → Nat → Option (Grouping α × Nat)
  | 0, _, _, _ => none
  | fuel + 1, floor, left, pos =>
      match operators[pos]? with
      | none => some (left, pos)
      | some operator =>
          if Operator.precedence operator < floor then some (left, pos)
          else
            match operands[pos + 1]? with
            | none => none
            | some operand =>
                match extendAt operands operators fuel (rightFloor operator) (.leaf operand)
                    (pos + 1) with
                | none => none
                | some (right, pos) =>
                    extendAt operands operators fuel floor (.branch operator left right) pos

/-- Groups operands and operators from the first position on, at precedence one. -/
def climbAt (operands : List α) (operators : List String) : Option (Grouping α × Nat) :=
  match operands[0]? with
  | none => none
  | some first => extendAt operands operators (operators.length + 1) 1 (.leaf first) 0

/-! ## Climbing as a relation -/

/-- Climbing from `left` at `floor` takes the front of a chain into a tree and leaves the rest. -/
inductive Climbs : Nat → Grouping α → List (String × α) → Grouping α → List (String × α) → Prop
  | stop {floor : Nat} {left : Grouping α} {chain : List (String × α)}
      (h : ∀ link ∈ chain.head?, Operator.precedence link.1 < floor) :
      Climbs floor left chain left chain
  | step {floor : Nat} {operator : String} {operand : α} {left right whole : Grouping α}
      {chain rest rest' : List (String × α)} (h : floor ≤ Operator.precedence operator)
      (inner : Climbs (rightFloor operator) (.leaf operand) chain right rest)
      (next : Climbs floor (.branch operator left right) rest whole rest') :
      Climbs floor left ((operator, operand) :: chain) whole rest'

namespace Climbs

variable {floor : Nat} {left whole : Grouping α} {chain rest : List (String × α)}

theorem suffix (h : Climbs floor left chain whole rest) : rest <:+ chain := by
  induction h with
  | stop => exact List.suffix_refl _
  | step _ _ _ ihinner ihnext =>
      exact (ihnext.trans ihinner).trans (List.suffix_cons _ _)

/-- The chain and the tree before it are those of the tree that was made and the rest after it. -/
theorem links_append (h : Climbs floor left chain whole rest) :
    whole.first = left.first ∧ whole.links ++ rest = left.links ++ chain := by
  induction h with
  | stop => exact ⟨rfl, rfl⟩
  | step _ _ _ ihinner ihnext =>
      obtain ⟨hfirst, hlinks⟩ := ihinner
      obtain ⟨hfirst', hlinks'⟩ := ihnext
      refine ⟨hfirst', ?_⟩
      rw [hlinks', links, List.append_assoc, List.cons_append, hfirst, hlinks]
      rfl

/-- Where all operators have a precedence, climbing at precedence one leaves nothing. -/
theorem rest_eq_nil (h : Climbs floor left chain whole rest) (hfloor : floor ≤ 1)
    (hchain : ∀ link ∈ chain, 0 < Operator.precedence link.1) : rest = [] := by
  induction h with
  | @stop _ _ chain hstop =>
      cases chain with
      | nil => rfl
      | cons link chain =>
          have hlow := hstop link rfl
          have hpos := hchain link List.mem_cons_self
          omega
  | step _ inner _ _ ihnext =>
      exact ihnext hfloor fun link hlink =>
        hchain link (List.mem_cons_of_mem _ (inner.suffix.subset hlink))

/-- The relation holds for what `climb` gives with fuel enough. -/
theorem climb_eq (h : Climbs floor left chain whole rest) :
    ∀ {fuel : Nat}, chain.length < fuel → climb fuel floor left chain = (whole, rest) := by
  induction h with
  | @stop _ _ chain hstop =>
      intro fuel hfuel
      obtain ⟨fuel, rfl⟩ := Nat.exists_eq_succ_of_ne_zero (Nat.ne_zero_of_lt hfuel)
      cases chain with
      | nil => rfl
      | cons link chain => rw [climb, if_pos (hstop link rfl)]
  | step hfloor inner _ ihinner ihnext =>
      intro fuel hfuel
      obtain ⟨fuel, rfl⟩ := Nat.exists_eq_succ_of_ne_zero (Nat.ne_zero_of_lt hfuel)
      have hchain := Nat.lt_of_succ_lt_succ hfuel
      have hrest := Nat.lt_of_le_of_lt inner.suffix.length_le hchain
      rw [climb, if_neg (Nat.not_lt.2 hfloor), ihinner hchain]
      exact ihnext hrest

end Climbs

/-- Climbing comes to an end. -/
theorem exists_climbs (chain : List (String × α)) (floor : Nat) (left : Grouping α) :
    ∃ whole rest, Climbs floor left chain whole rest := by
  -- By induction on the length: the rest after an operand is a suffix, but any suffix may be left.
  induction hlength : chain.length using Nat.strong_induction_on generalizing chain floor left with
  | _ length ih =>
      subst hlength
      cases chain with
      | nil => exact ⟨left, [], .stop fun _ h => by cases h⟩
      | cons link chain =>
          by_cases hlow : Operator.precedence link.1 < floor
          · refine ⟨left, link :: chain, .stop fun link' hlink' => ?_⟩
            cases hlink'
            exact hlow
          · obtain ⟨right, rest, hright⟩ :=
              ih chain.length (Nat.lt_succ_self _) chain (rightFloor link.1) (.leaf link.2) rfl
            have hrest := Nat.lt_succ_of_le hright.suffix.length_le
            obtain ⟨whole, rest', hnext⟩ :=
              ih rest.length hrest rest floor (.branch link.1 left right) rfl
            exact ⟨whole, rest', .step (Nat.not_lt.1 hlow) hright hnext⟩

/-! ## Positions of a chain -/

section Positions

variable {operands : List α} {operators : List String}

/-- The first link of what is left of a chain stands at the position that the length tells. -/
theorem getElem?_of_suffix {operator : String} {operand : α} {chain : List (String × α)}
    (h : (operator, operand) :: chain <:+ operators.zip operands.tail)
    (hlength : operands.length = operators.length + 1) :
    ∃ pos, operators.length = pos + 1 + chain.length ∧ operators[pos]? = some operator ∧
      operands[pos + 1]? = some operand := by
  obtain ⟨before, hbefore⟩ := h
  have hget : (operators.zip operands.tail)[before.length]? = some (operator, operand) := by
    rw [← hbefore, List.getElem?_append_right (Nat.le_refl _), Nat.sub_self]
    rfl
  obtain ⟨hoperator, hoperand⟩ := List.getElem?_zip_eq_some.1 hget
  refine ⟨before.length, ?_, hoperator, ?_⟩
  · have hzip := congrArg List.length hbefore
    rw [List.length_append, List.length_cons, List.length_zip, List.length_tail, hlength] at hzip
    omega
  · rwa [List.getElem?_tail] at hoperand

theorem Climbs.extendAt_eq {floor : Nat} {left whole : Grouping α} {chain rest : List (String × α)}
    (h : Climbs floor left chain whole rest) (hlength : operands.length = operators.length + 1) :
    ∀ {fuel pos : Nat}, chain <:+ operators.zip operands.tail → chain.length < fuel →
      operators.length = pos + chain.length →
      ∃ pos', operators.length = pos' + rest.length ∧
        extendAt operands operators fuel floor left pos = some (whole, pos') := by
  -- The length of what is left of the chain tells the position, for the inner climb and the next one.
  induction h with
  | @stop _ _ chain hstop =>
      intro fuel pos hsuffix hfuel hpos
      obtain ⟨fuel, rfl⟩ := Nat.exists_eq_succ_of_ne_zero (Nat.ne_zero_of_lt hfuel)
      refine ⟨pos, hpos, ?_⟩
      cases chain with
      | nil =>
          have hend : operators[pos]? = none := List.getElem?_eq_none (Nat.le_of_eq hpos)
          rw [extendAt, hend]
      | cons link chain =>
          obtain ⟨pos', hpos', hoperator, -⟩ := getElem?_of_suffix hsuffix hlength
          rw [List.length_cons] at hpos
          obtain rfl : pos = pos' := by omega
          rw [extendAt, hoperator]
          exact if_pos (hstop link rfl)
  | step hfloor inner _ ihinner ihnext =>
      intro fuel pos hsuffix hfuel hpos
      obtain ⟨fuel, rfl⟩ := Nat.exists_eq_succ_of_ne_zero (Nat.ne_zero_of_lt hfuel)
      obtain ⟨pos', hpos', hoperator, hoperand⟩ := getElem?_of_suffix hsuffix hlength
      rw [List.length_cons] at hpos hfuel
      obtain rfl : pos = pos' := by omega
      have hchain := (List.suffix_cons _ _).trans hsuffix
      have hfuel := Nat.lt_of_succ_lt_succ hfuel
      obtain ⟨pos₁, hpos₁, hright⟩ := ihinner hchain hfuel hpos'
      have hrest := Nat.lt_of_le_of_lt inner.suffix.length_le hfuel
      obtain ⟨pos₂, hpos₂, hnext⟩ := ihnext (inner.suffix.trans hchain) hrest hpos₁
      refine ⟨pos₂, hpos₂, ?_⟩
      simp only [extendAt, hoperator, hoperand, hright, if_neg (Nat.not_lt.2 hfloor)]
      exact hnext

/-- Climbing by position stays in range: it gives what the relation says, and ends where the rest
of the chain starts. -/
theorem Climbs.climbAt_eq {first : α} {later : List α} {whole : Grouping α}
    {rest : List (String × α)} (hlength : later.length = operators.length)
    (h : Climbs 1 (.leaf first) (operators.zip later) whole rest) :
    ∃ pos, operators.length = pos + rest.length ∧
      climbAt (first :: later) operators = some (whole, pos) := by
  have hzip : (operators.zip later).length = operators.length := by
    rw [List.length_zip, hlength, Nat.min_self]
  have hlength' : (first :: later).length = operators.length + 1 := congrArg (· + 1) hlength
  exact h.extendAt_eq hlength' (List.suffix_refl _) (by omega) (by omega)

end Positions

/-- What climbing by position makes of operators that have a precedence: it uses all of them up,
keeps operands and operators in order, and groups like `ofChain`. -/
theorem climbAt_complete {first : α} {later : List α} {operators : List String}
    (hlength : later.length = operators.length)
    (hoperators : ∀ operator ∈ operators, 0 < Operator.precedence operator) :
    climbAt (first :: later) operators =
        some (ofChain first (operators.zip later), operators.length) ∧
      (ofChain first (operators.zip later)).leaves = first :: later ∧
      (ofChain first (operators.zip later)).operators = operators := by
  obtain ⟨whole, rest, h⟩ := exists_climbs (operators.zip later) 1 (.leaf first)
  obtain rfl : rest = [] := h.rest_eq_nil (Nat.le_refl _) fun link hlink =>
    hoperators link.1 (List.of_mem_zip (a := link.1) (b := link.2) hlink).1
  have hwhole : ofChain first (operators.zip later) = whole := by
    rw [ofChain, h.climb_eq (Nat.lt_succ_self _)]
  obtain ⟨pos, hpos, hclimb⟩ := h.climbAt_eq hlength
  obtain ⟨hfirst, hlinks⟩ := h.links_append
  have hlinks : whole.links = operators.zip later := by simpa [links] using hlinks
  rw [hwhole]
  refine ⟨?_, ?_, ?_⟩
  · rw [hclimb, hpos, List.length_nil, Nat.add_zero]
  · rw [leaves_eq, hfirst, hlinks, List.map_snd_zip (Nat.le_of_eq hlength)]
    rfl
  · rw [operators_eq, hlinks, List.map_fst_zip (Nat.le_of_eq hlength.symm)]

/-! ## Trees that need no parentheses -/

/-- Least binding power that the left operand of an operator accepts. -/
def leftFloor (operator : String) : Nat :=
  if Operator.isRightAssociative operator then Operator.precedence operator + 1
  else Operator.precedence operator

/-- Every operator of the tree binds at least as tightly as its place asks: `floor` at the top, and
the floors of the operator around it further down. -/
inductive Fits : Nat → Grouping α → Prop
  | leaf {floor : Nat} (operand : α) : Fits floor (.leaf operand)
  | branch {floor : Nat} {operator : String} {left right : Grouping α}
      (h : floor ≤ Operator.precedence operator) (hleft : Fits (leftFloor operator) left)
      (hright : Fits (rightFloor operator) right) : Fits floor (.branch operator left right)

/-- The operator binds too loosely to take the last operand of the tree away from it. -/
def Closes (operator : String) : Grouping α → Prop
  | .leaf _ => True
  | .branch op _ _ => Operator.precedence operator < rightFloor op

theorem le_leftFloor (operator : String) : Operator.precedence operator ≤ leftFloor operator := by
  rw [leftFloor]
  split <;> omega

theorem le_rightFloor (operator : String) : Operator.precedence operator ≤ rightFloor operator := by
  rw [rightFloor]
  split <;> omega

theorem Fits.mono {floor floor' : Nat} {g : Grouping α} (h : Fits floor g) (hle : floor' ≤ floor) :
    Fits floor' g := by
  cases h with
  | leaf operand => exact .leaf operand
  | branch h hleft hright => exact .branch (Nat.le_trans hle h) hleft hright

/-- An operator that binds too loosely for a place does not reach into what stands there. -/
theorem Fits.closes {floor : Nat} {operator : String} {g : Grouping α} (h : Fits floor g)
    (hlow : Operator.precedence operator < floor) : Closes operator g := by
  cases h with
  | leaf => trivial
  | @branch _ op _ _ h _ _ => exact Nat.lt_of_lt_of_le hlow (Nat.le_trans h (le_rightFloor op))

/-- Only the power operator has its precedence. -/
theorem precedence_eq_power {operator : String} (h : Operator.precedence operator = 11) :
    operator = "**" := by
  unfold Operator.precedence at h
  split at h <;> first | rfl | cases h

/-- An operator does not reach into its own left operand. -/
theorem Fits.closes_left {operator : String} {g : Grouping α} (h : Fits (leftFloor operator) g) :
    Closes operator g := by
  cases hassoc : Operator.isRightAssociative operator with
  | true =>
      refine h.closes ?_
      rw [leftFloor, hassoc]
      exact Nat.lt_succ_self _
  | false =>
      cases h with
      | leaf => trivial
      | @branch _ op _ _ h _ _ =>
          rw [leftFloor, hassoc] at h
          change _ < rightFloor op
          rw [rightFloor]
          split
          · next hop =>
              -- The inner operator is the power operator, and the outer one is another one.
              obtain rfl : op = "**" := beq_iff_eq.1 hop
              refine Nat.lt_of_le_of_ne h fun heq => ?_
              rw [precedence_eq_power heq] at hassoc
              cases hassoc
          · exact Nat.lt_succ_of_le h

/-- Climbing along the chain of a tree that fits makes the tree, and goes on behind it. -/
theorem Fits.climbs {g whole : Grouping α} :
    ∀ {floor : Nat} {more rest : List (String × α)}, Fits floor g →
      (∀ link ∈ more.head?, Closes link.1 g) → Climbs floor g more whole rest →
      Climbs floor (.leaf g.first) (g.links ++ more) whole rest := by
  -- By induction on the tree, with any chain behind it: the left operand is followed by the operator,
  -- and the right one by the chain, which does not reach into it.
  induction g generalizing whole with
  | leaf operand => exact fun _ _ h => h
  | branch op l r ihl ihr =>
      intro floor more rest hfits hcloses hnext
      cases hfits with
      | branch hfloor hleft hright =>
          have hinner : Climbs (rightFloor op) (.leaf r.first) (r.links ++ more) r more :=
            ihr hright (fun link hlink => hright.closes (hcloses link hlink)) (.stop hcloses)
          rw [first, links, List.append_assoc]
          refine ihl (hleft.mono (Nat.le_trans hfloor (le_leftFloor op))) ?_
            (.step hfloor hinner hnext)
          intro link hlink
          cases hlink
          exact hleft.closes_left

/-- A tree that fits at precedence one is what climbing makes of its operands and operators. -/
theorem Fits.climbAt_leaves {g : Grouping α} (h : Fits 1 g) :
    climbAt g.leaves g.operators = some (g, g.operators.length) := by
  have hclimbs : Climbs 1 (.leaf g.first) g.links g [] := by
    have hstop : Climbs 1 g [] g [] := .stop fun _ h => by cases h
    simpa using h.climbs (fun _ h => by cases h) hstop
  have hleaves : g.first :: g.leaves.tail = g.leaves := by rw [g.leaves_eq, List.tail_cons]
  have hlength : g.leaves.tail.length = g.operators.length := by
    rw [List.length_tail, g.length_leaves, Nat.add_sub_cancel]
  rw [← g.zip_tail_leaves] at hclimbs
  obtain ⟨pos, hpos, hclimb⟩ := hclimbs.climbAt_eq hlength
  rw [← hleaves, hclimb, hpos]
  rfl

end Grouping

/-! ## Accepted operators -/

/-- The rule of binary operators reads the text, at some place with something behind it. -/
def IsBinaryOperator (operator : String) : Prop :=
  ∃ (fuel : Nat) (spacing : Peg.Spacing) (gaze : Peg.Gaze) (rest : List Char) (offset reach : Nat)
    (c : Peg.Cursor) (captures : List (Peg.Capture Rule)) (reach' : Nat),
    Peg.run grammar fuel spacing gaze (.rule .binaryOp) ⟨operator.toList ++ rest, offset⟩ reach =
      .matched c captures reach' ∧ c.rest = rest

/-- No accepted operator is missing in the table of precedences. -/
theorem IsBinaryOperator.precedence_pos {operator : String} (h : IsBinaryOperator operator) :
    0 < Operator.precedence operator := by
  obtain ⟨fuel, spacing, gaze, rest, offset, reach, c, captures, reach', hrun, rfl⟩ := h
  have hmatch := Peg.matches_of_run hrun
  obtain ⟨word, hafter⟩ := hmatch.passes.after
  obtain rfl : operator.toList = word := List.append_cancel_right hafter.rest_eq
  have htext : (Peg.Capture.mk Rule.binaryOp offset c.offset (operator.toList ++ c.rest) []).text =
      operator := by
    have hbytes : c.offset - offset = String.utf8Len operator.toList := by
      rw [hafter.offset_eq, Nat.add_sub_cancel_left]
    rw [Peg.Capture.text, hbytes, Peg.Capture.takeBytes_append, String.ofList_toList]
  rw [← htext]
  exact Piece.precedence_of_reads (hmatch.reads fun h => by cases h) []

/-! ## Printed operators -/

/-- An operand with the least binding power that its place accepts. -/
structure Operand (ι : Type) where
  floor : Nat
  value : Ast ι

namespace Ast

variable {ι : Type}

/-- The text of an operand in its place. -/
def operandText (depth : Nat) (x : Operand ι) : String :=
  wrap x.floor x.value (printBare depth x.value)

/-- The operators of an expression that are written outside of parentheses, where a place accepts
binding powers from `floor` on. An operand in parentheses is a leaf, as is one that is no binary
operator. -/
def outer (floor : Nat) : Ast ι → Grouping (Operand ι)
  | .node i (.binary op l r) =>
      if binaryRank op < floor then .leaf ⟨floor, .node i (.binary op l r)⟩
      else .branch op (l.outer (leftFloor op l)) (r.outer (rightFloor op r))
  | a => .leaf ⟨floor, a⟩

theorem outer_of_lt {floor : Nat} {i : ι} {op : String} {l r : Ast ι} (h : binaryRank op < floor) :
    (Ast.node i (.binary op l r)).outer floor = .leaf ⟨floor, .node i (.binary op l r)⟩ := by
  rw [outer, if_pos h]

theorem outer_of_not_lt {floor : Nat} {i : ι} {op : String} {l r : Ast ι}
    (h : ¬ binaryRank op < floor) : (Ast.node i (.binary op l r)).outer floor
      = .branch op (l.outer (leftFloor op l)) (r.outer (rightFloor op r)) := by
  rw [outer, if_neg h]

theorem outer_of_ne {floor : Nat} {a : Ast ι} (h : ∀ i op l r, a = .node i (.binary op l r) → False) :
    a.outer floor = .leaf ⟨floor, a⟩ := by
  rw [outer]
  exact h

/-- Induction along the operators that are written outside of parentheses. -/
theorem outer_induction {motive : Nat → Ast ι → Prop}
    (low : ∀ floor i op l r, binaryRank op < floor → motive floor (.node i (.binary op l r)))
    (high : ∀ floor i op l r, ¬ binaryRank op < floor → motive (leftFloor op l) l →
      motive (rightFloor op r) r → motive floor (.node i (.binary op l r)))
    (other : ∀ floor a, (∀ i op l r, a = .node i (.binary op l r) → False) → motive floor a)
    (floor : Nat) (a : Ast ι) : motive floor a := by
  induction a using Ast.induction generalizing floor with
  | node i k ih =>
      cases k with
      | binary op l r =>
          by_cases h : binaryRank op < floor
          · exact low floor i op l r h
          · have hl := ih l (List.mem_cons_self) (leftFloor op l)
            have hr := ih r (List.mem_cons_of_mem _ List.mem_cons_self) (rightFloor op r)
            exact high floor i op l r h hl hr
      | _ => exact other floor _ nofun

/-- The operators of a tree of binary nodes, those in parentheses among them. -/
def binaryOperators : Ast ι → List String
  | .node _ (.binary op l r) => l.binaryOperators ++ op :: r.binaryOperators
  | _ => []

/-- Operands and operators in turn, with a space on both sides of each operator. -/
def chainText : List String → List String → String
  | operand :: operands, operator :: operators =>
      operand ++ " " ++ operator ++ " " ++ chainText operands operators
  | operand :: _, [] => operand
  | [], _ => ""

theorem chainText_append {operands operands' operators operators' : List String} {operator : String}
    (h : operands.length = operators.length + 1) :
    chainText (operands ++ operands') (operators ++ operator :: operators') =
      chainText operands operators ++ " " ++ operator ++ " " ++ chainText operands' operators' := by
  induction operators generalizing operands with
  | nil =>
      obtain ⟨operand, rfl⟩ := List.length_eq_one_iff.1 h
      rfl
  | cons op ops ih =>
      cases operands with
      | nil => cases h
      | cons operand operands =>
          rw [List.cons_append, List.cons_append, chainText, ih (Nat.succ.inj h), chainText]
          simp only [String.append_assoc]

theorem precedence_le (operator : String) : Operator.precedence operator ≤ 11 := by
  unfold Operator.precedence
  split <;> decide

/-- The printer asks of a left operand at least what climbing asks. -/
theorem grouping_le_leftFloor (op : String) (l : Ast ι) :
    Power.rank .binaryBase + Grouping.leftFloor op ≤ leftFloor op l := by
  have hle := precedence_le op
  rw [Grouping.leftFloor, leftFloor, binaryRank]
  split
  · next hassoc =>
      obtain rfl : op = "**" := beq_iff_eq.1 hassoc
      split <;> decide
  · simp only [Power.rank]
    split_ifs <;> omega

/-- The printer asks of a right operand at least what climbing asks. -/
theorem grouping_le_rightFloor (op : String) (r : Ast ι) :
    Power.rank .binaryBase + Grouping.rightFloor op ≤ rightFloor op r := by
  have hle := precedence_le op
  rw [Grouping.rightFloor, rightFloor, binaryRank]
  simp only [Power.rank]
  split_ifs <;> omega

/-- Where the printer needs no parentheses, climbing needs none. -/
theorem fits_outer {floor floor' : Nat} {a : Ast ι}
    (h : ∀ i op l r, a = .node i (.binary op l r) → floor ≤ binaryRank op →
      floor' ≤ Operator.precedence op) : (a.outer floor).Fits floor' := by
  induction floor, a using outer_induction generalizing floor' with
  | low floor i op l r hlow => exact outer_of_lt hlow ▸ .leaf _
  | high floor i op l r hhigh ihl ihr =>
      rw [outer_of_not_lt hhigh]
      refine .branch (h i op l r rfl (Nat.not_lt.1 hhigh)) (ihl ?_) (ihr ?_)
      · rintro i op' l r rfl hle
        have := Nat.le_trans (grouping_le_leftFloor op _) hle
        exact Nat.le_of_add_le_add_left this
      · rintro i op' l r rfl hle
        have := Nat.le_trans (grouping_le_rightFloor op _) hle
        exact Nat.le_of_add_le_add_left this
  | other floor a hne => exact outer_of_ne hne ▸ .leaf _

/-- The text of an expression in its place is that of its outer operands and operators in turn. -/
theorem wrap_eq_chainText (depth floor : Nat) (a : Ast ι) :
    wrap floor a (printBare depth a) =
      chainText ((a.outer floor).leaves.map (operandText depth)) (a.outer floor).operators := by
  induction floor, a using outer_induction with
  | low floor i op l r hlow =>
      rw [outer_of_lt hlow]
      rfl
  | high floor i op l r hhigh ihl ihr =>
      rw [outer_of_not_lt hhigh, Grouping.leaves, Grouping.operators, List.map_append,
        chainText_append, ← ihl, ← ihr]
      · exact if_neg hhigh
      · rw [List.length_map, Grouping.length_leaves]
  | other floor a hne =>
      rw [outer_of_ne hne]
      rfl

theorem bare_node (i : ι) (k : Kind (Ast ι)) :
    (Ast.node i k).bare = .node () (k.map bare) := mapNotes_node _ i k

/-- The outer operators over their operands are the expression. -/
theorem bare_fold_outer (floor : Nat) (a : Ast Span) :
    (((a.outer floor).map Operand.value).fold Draft.join).bare = a.bare := by
  induction floor, a using outer_induction with
  | low floor i op l r hlow =>
      rw [outer_of_lt hlow]
      rfl
  | high floor i op l r hhigh ihl ihr =>
      rw [outer_of_not_lt hhigh, Grouping.map, Grouping.fold, Draft.join, bare_node, bare_node]
      exact congrArg₂ (fun l r => Ast.node () (.binary op l r)) ihl ihr
  | other floor a hne =>
      rw [outer_of_ne hne]
      rfl

/-- An outer operand that is a binary operator is put in parentheses. -/
theorem rank_lt_of_outer {floor : Nat} {a : Ast ι} {x : Operand ι}
    (hx : x ∈ (a.outer floor).leaves) (hbinary : x.value.binaryOperators ≠ []) :
    x.value.rank < x.floor := by
  induction floor, a using outer_induction with
  | low floor i op l r hlow =>
      rw [outer_of_lt hlow] at hx
      obtain rfl := List.mem_singleton.1 hx
      exact hlow
  | high floor i op l r hhigh ihl ihr =>
      rw [outer_of_not_lt hhigh] at hx
      exact (List.mem_append.1 hx).elim ihl ihr
  | other floor a hne =>
      rw [outer_of_ne hne] at hx
      obtain rfl := List.mem_singleton.1 hx
      refine absurd ?_ hbinary
      rw [binaryOperators]
      exact hne

end Ast

/-- Climbing and the parentheses of the printer are inverse. A list of operands and a list, one
shorter, of accepted operators are grouped without reading out of range: all operators are used up,
and the tree has the operands and operators in their order. And an expression of accepted operators
is printed as a chain, an operand of which is a binary operator only if it is in parentheses; the
operands and operators of the chain are grouped into the expression again. -/
theorem climbing_inverse {α : Type} {operands : List α} {operators : List String}
    (hlength : operands.length = operators.length + 1)
    (hoperators : ∀ operator ∈ operators, IsBinaryOperator operator) (a : Ast Span)
    (ha : ∀ operator ∈ a.binaryOperators, IsBinaryOperator operator) (depth : Nat) :
    (∃ g : Grouping α, Grouping.climbAt operands operators = some (g, operators.length) ∧
      g.leaves = operands ∧ g.operators = operators ∧
      ∀ first later, operands = first :: later → Grouping.ofChain first (operators.zip later) = g) ∧
    Grouping.climbAt (a.outer 0).leaves (a.outer 0).operators =
      some (a.outer 0, (a.outer 0).operators.length) ∧
    (((a.outer 0).map Operand.value).fold Draft.join).bare = a.bare ∧
    a.printBare depth =
      Ast.chainText ((a.outer 0).leaves.map (Ast.operandText depth)) (a.outer 0).operators ∧
    ∀ x ∈ (a.outer 0).leaves, x.value.binaryOperators ≠ [] → x.value.rank < x.floor := by
  refine ⟨?_, Grouping.Fits.climbAt_leaves (Ast.fits_outer ?_), a.bare_fold_outer 0,
    a.wrap_eq_chainText depth 0, fun x hx => Ast.rank_lt_of_outer hx⟩
  · cases operands with
    | nil => cases hlength
    | cons first later =>
        obtain ⟨hclimb, hleaves, hops⟩ := Grouping.climbAt_complete (Nat.succ.inj hlength)
          fun operator hop => (hoperators operator hop).precedence_pos
        refine ⟨_, hclimb, hleaves, hops, ?_⟩
        rintro _ _ ⟨⟩
        rfl
  · rintro i op l r rfl -
    exact (ha op (List.mem_append_right _ List.mem_cons_self)).precedence_pos

/-- The expression `(a ?? b) || (c ** d) ** e`. -/
def mixedExpression : Ast Span :=
  let name := fun text => Ast.node ⟨0, 0⟩ (.ident text)
  .node ⟨0, 0⟩ (.binary "||" (.node ⟨0, 0⟩ (.binary "??" (name "a") (name "b")))
    (.node ⟨0, 0⟩ (.binary "**" (.node ⟨0, 0⟩ (.binary "**" (name "c") (name "d"))) (name "e"))))

theorem climbing_inverse_mixed :
    (∃ g : Grouping Nat, Grouping.climbAt [1, 2, 3] ["||", "**"] = some (g, 2) ∧
      g.leaves = [1, 2, 3] ∧ g.operators = ["||", "**"]) ∧
    mixedExpression.printBare 0 = "(a ?? b) || (c ** d) ** e" ∧
    (mixedExpression.outer 0).operators = ["||", "**"] ∧
    (((mixedExpression.outer 0).map Operand.value).fold Draft.join).bare = mixedExpression.bare := by
  have hor : IsBinaryOperator "||" := ⟨30, .free, .consuming, [], 0, 0, _, _, _, rfl, rfl⟩
  have hnullish : IsBinaryOperator "??" := ⟨30, .free, .consuming, [], 0, 0, _, _, _, rfl, rfl⟩
  have hpower : IsBinaryOperator "**" := ⟨30, .free, .consuming, [], 0, 0, _, _, _, rfl, rfl⟩
  have hoperators : ∀ operator ∈ ["||", "**"], IsBinaryOperator operator := by
    simp [hor, hpower]
  have hexpression : ∀ operator ∈ mixedExpression.binaryOperators, IsBinaryOperator operator := by
    simp [mixedExpression, Ast.binaryOperators, hor, hnullish, hpower]
  obtain ⟨⟨g, hclimb, hleaves, hops, -⟩, -, hbare, -⟩ :=
    climbing_inverse (rfl : [1, 2, 3].length = _) hoperators mixedExpression hexpression 0
  exact ⟨⟨g, hclimb, hleaves, hops⟩, by decide +kernel, rfl, hbare⟩

end LogLabel.Program
