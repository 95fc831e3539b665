import LogLabel.Proofs.Program.Parts
import LogLabel.Proofs.Program.Slots
import Mathlib.Data.List.Forall2

set_option autoImplicit false

/-!
# Building from known parts

A rule that takes its parts can be built from them: `Piece.assemble` has no answer only for lists
of parts that `Rule.takes` refuses. Nothing is lost on the way, so a template slot that stands in a
part stands in what is built.

* `Piece.Fits r p`: the form of the piece that a rule makes, whatever it is made from.
* `Piece.Built rule span text ps`: the pieces make up one that fits the rule and has their slots.
* `Piece.Built.operand`, `Piece.Built.drafts`, `Piece.Built.suffixes`, `Piece.Built.jump`: the rules
  that are built alike.
* `Piece.built_of_takes`: pieces that fit a list of rules that is taken can be assembled.
-/

namespace LogLabel.Program

open Peg (Capture)
open List (Forall₂)

/-- Whether a rule is a word that only marks a construct. -/
def Rule.isMark : Rule → Bool
  | .word _ => true
  | _ => false

namespace Rule

variable {r : Rule}

theorem isMark_of_isKeyPart (hr : r.isKeyPart = true) : r.isMark = false := by
  cases r with
  | word w => cases hr
  | _ => rfl

theorem isMark_of_isSuffixPart (hr : r.isSuffixPart = true) : r.isMark = false := by
  cases r with
  | word w => cases hr
  | _ => rfl

theorem isToken_of_isFunctionPart (hr : r.isFunctionPart = true) : r.isToken = true := by
  cases r with
  | word w => rfl
  | asyncWord => rfl
  | generatorStar => rfl
  | identifier => rfl
  | _ => cases hr

theorem isToken_of_isClassPart (hr : r.isClassPart = true) : r.isToken = true := by
  cases r with
  | word w => rfl
  | identifier => rfl
  | _ => cases hr

theorem isToken_of_isMethodPart (hr : r.isMethodPart = true) : r.isToken = true := by
  cases r with
  | staticWord => rfl
  | accessorWord => rfl
  | asyncWord => rfl
  | generatorStar => rfl
  | _ => cases hr

end Rule

namespace Piece

open Rule (isMark_of_isKeyPart isMark_of_isSuffixPart)

/-! ## Forms of pieces -/

/-- The form of the piece that a rule makes. -/
def Fits : Rule → Piece → Prop
  | .params, p => ∃ ns, p = .names ns
  | .arrowParams, p => ∃ ns, p = .names ns
  | .heritage, p => ∃ d, p = .superclass d
  | .computedKey, p => ∃ d, p = .computed d
  | .arguments, p => ∃ stop ds, p = .arguments stop ds
  | .memberDot, p => ∃ stop name, p = .dot stop name
  | .memberIndex, p => ∃ stop d, p = .index stop d
  | .shorthand, p => ∃ span text, p = .token .shorthand span text
  | r, p => if r.isToken then ∃ span text, p = .token r span text else ∃ d, p.draft? = some d

variable {r rule : Rule} {p : Piece} {names : List Rule} {ps : List Piece} {span : Span}
  {text : Unit → String} {d : Draft}

theorem isMark_of_draft? (h : p.draft? = some d) : p.isMark = false := by
  cases p with
  | token r s t =>
      cases r with
      | word w => cases h
      | _ => rfl
  | _ => rfl

theorem isToken_endOfInput_of_draft? (h : p.draft? = some d) : p.isToken .endOfInput = false := by
  cases p with
  | token r s t =>
      cases r with
      | endOfInput => cases h
      | _ => rfl
  | _ => rfl

/-- An expression is made of every rule that is known in the place of one. -/
theorem Fits.expression (h : Fits r p) (hr : r.isExpressionPart = true) :
    ∃ d, p.draft? = some d := by
  cases r <;> first | exact h | (obtain ⟨s, t, rfl⟩ := h; exact ⟨_, rfl⟩) | cases hr

/-- A statement is made of every rule that is known in the place of one. -/
theorem Fits.statement (h : Fits r p) (hr : r.isStatementPart = true) :
    ∃ d, p.draft? = some d := by
  cases r <;> first | exact h | cases hr

/-- A key is made of every rule that is known in the place of one. -/
theorem Fits.key (h : Fits r p) (hr : r.isKeyPart = true) : ∃ k, p.key? = some k := by
  cases r with
  | identifierName => obtain ⟨s, t, rfl⟩ := h; exact ⟨_, rfl⟩
  | number => obtain ⟨s, t, rfl⟩ := h; exact ⟨_, rfl⟩
  | string =>
      obtain ⟨s, t, rfl⟩ := h
      rw [key?]
      split <;> exact ⟨_, rfl⟩
  | computedKey => obtain ⟨d, rfl⟩ := h; exact ⟨_, rfl⟩
  | _ => cases hr

theorem Fits.token (h : Fits r p) (hr : r.isToken = true) : ∃ s t, p = .token r s t := by
  cases r <;> first | exact h | cases hr

/-- The words among the pieces are those of the rules that mark a construct. -/
theorem Fits.isMark_eq (h : Fits r p) : p.isMark = r.isMark := by
  cases r <;>
    first
    | (obtain ⟨d, hd⟩ := h; exact isMark_of_draft? hd)
    | (obtain ⟨s, t, rfl⟩ := h; rfl)

/-- The piece of the end of the text is its only token of that rule. -/
theorem Fits.isToken_endOfInput_eq (h : Fits r p) :
    p.isToken .endOfInput = decide (r = .endOfInput) := by
  cases r <;>
    first
    | (obtain ⟨d, hd⟩ := h; exact isToken_endOfInput_of_draft? hd)
    | (obtain ⟨s, t, rfl⟩ := h; rfl)

/-! ## Lists of pieces -/

/-- What holds of the pieces of known rules holds of all pieces. -/
theorem forall_of_fits {P : Piece → Prop} {known : Rule → Bool} (h : Forall₂ Fits names ps)
    (hnames : names.all known = true) (hP : ∀ r p, known r = true → Fits r p → P p) :
    ∀ p ∈ ps, P p := by
  induction h with
  | nil => exact fun _ hp => absurd hp List.not_mem_nil
  | cons hp _ ih =>
      rw [List.all_cons, Bool.and_eq_true] at hnames
      exact List.forall_mem_cons.2 ⟨hP _ _ hnames.1 hp, ih hnames.2⟩

/-- Pieces that can each be read as something can be read together. -/
theorem exists_mapM {β : Type} {f : Piece → Option β} (h : ∀ p ∈ ps, ∃ x, f p = some x) :
    ∃ xs, ps.mapM f = some xs := by
  induction ps with
  | nil => exact ⟨[], rfl⟩
  | cons p ps ih =>
      rw [List.forall_mem_cons] at h
      obtain ⟨⟨x, hx⟩, h⟩ := h
      obtain ⟨xs, hxs⟩ := ih h
      exact ⟨x :: xs, by simp [List.mapM_cons, hx, hxs]⟩

/-- Pieces are left out together with the rules that they fit. -/
theorem forall₂_filter {f : Rule → Bool} {g : Piece → Bool} (hfg : ∀ r p, Fits r p → g p = f r)
    (h : Forall₂ Fits names ps) : Forall₂ Fits (names.filter f) (ps.filter g) := by
  induction h with
  | nil => exact .nil
  | @cons r p _ _ hp _ ih =>
      rw [List.filter_cons, List.filter_cons, hfg r p hp]
      split
      · exact .cons hp ih
      · exact ih

theorem exists_append {left right : List Rule} (h : Forall₂ Fits (left ++ right) ps) :
    ∃ ps₁ ps₂, ps = ps₁ ++ ps₂ ∧ Forall₂ Fits left ps₁ ∧ Forall₂ Fits right ps₂ := by
  induction left generalizing ps with
  | nil => exact ⟨[], ps, rfl, .nil, h⟩
  | cons r left ih =>
      obtain _ | ⟨hp, h⟩ := h
      obtain ⟨ps₁, ps₂, rfl, hleft, hright⟩ := ih h
      exact ⟨_ :: ps₁, ps₂, rfl, .cons hp hleft, hright⟩

/-- Pieces of rules that mark no construct all are kept. -/
theorem filter_eq_self {known : Rule → Bool} (h : Forall₂ Fits names ps)
    (hnames : names.all known = true) (hknown : ∀ r, known r = true → r.isMark = false) :
    ps.filter (!·.isMark) = ps :=
  List.filter_eq_self.2 <| forall_of_fits h hnames fun r p hr hp => by
    rw [hp.isMark_eq, hknown r hr]
    rfl

/-- The drafts of pieces of known rules. -/
theorem exists_drafts {known : Rule → Bool} (h : Forall₂ Fits names ps)
    (hnames : names.all known = true)
    (hknown : ∀ r p, known r = true → Fits r p → ∃ d, p.draft? = some d) :
    ps.filter (!·.isMark) = ps ∧ ∃ ds, ps.mapM draft? = some ds := by
  have hdrafts := forall_of_fits h hnames hknown
  refine ⟨List.filter_eq_self.2 fun p hp => ?_, exists_mapM hdrafts⟩
  obtain ⟨d, hd⟩ := hdrafts p hp
  rw [isMark_of_draft? hd]
  rfl

theorem exists_drafts_of_eq (h : Forall₂ Fits names ps)
    (hnames : names.all (fun name => decide (name = r)) = true)
    (hr : ∀ p, Fits r p → ∃ d, p.draft? = some d) :
    ps.filter (!·.isMark) = ps ∧ ∃ ds, ps.mapM draft? = some ds :=
  exists_drafts h hnames fun name p hname hp => by
    obtain rfl := of_decide_eq_true hname
    exact hr p hp

/-! ## Operators and suffixes -/

theorem exists_links (h : Forall₂ Fits names ps) (hnames : Rule.areLinks names = true) :
    ps.filter (!·.isMark) = ps ∧ ∃ links, links? ps = some links := by
  fun_induction Rule.areLinks names generalizing ps with
  | case1 =>
      cases h
      exact ⟨rfl, [], rfl⟩
  | case2 operand names ih =>
      rw [Bool.and_eq_true] at hnames
      obtain _ | ⟨⟨s, op, rfl⟩, _ | ⟨hp, h⟩⟩ := h
      obtain ⟨d, hd⟩ := hp.expression hnames.1
      obtain ⟨hfilter, links, hlinks⟩ := ih h hnames.2
      refine ⟨?_, _, by simp only [links?, hd, hlinks]; rfl⟩
      rw [List.filter_cons_of_pos rfl, List.filter_cons_of_pos (by simp [isMark_of_draft? hd]), hfilter]
  | case3 => cases hnames

theorem exists_prefixed (stop : Nat) (h : Forall₂ Fits names ps)
    (hnames : Rule.arePrefixed names = true) :
    ps.filter (!·.isMark) = ps ∧ ∃ d, prefixed? stop ps = some d := by
  fun_induction Rule.arePrefixed names generalizing ps with
  | case1 operand =>
      obtain _ | ⟨hp, _ | _⟩ := h
      obtain ⟨d, hd⟩ := hp.expression hnames
      exact ⟨by simp [isMark_of_draft? hd], d, hd⟩
  | case2 names hne ih =>
      obtain _ | ⟨⟨s, op, rfl⟩, h⟩ := h
      obtain ⟨hfilter, d, hd⟩ := ih h hnames
      refine ⟨by rw [List.filter_cons_of_pos rfl, hfilter], ?_⟩
      cases h with
      | nil => cases hd
      | cons _ _ => exact ⟨_, by simp only [prefixed?, hd, Option.map_some]; rfl⟩
  | case3 => cases hnames

theorem exists_suffixes (start : Nat) (d : Draft) (h : Forall₂ Fits names ps)
    (hnames : names.all Rule.isSuffixPart = true) : ∃ d', suffixed? start d ps = some d' := by
  induction h generalizing d with
  | nil => exact ⟨d, rfl⟩
  | @cons r p names ps hp _ ih =>
      rw [List.all_cons, Bool.and_eq_true] at hnames
      cases r with
      | arguments => obtain ⟨stop, ds, rfl⟩ := hp; exact ih _ hnames.2
      | memberDot => obtain ⟨stop, name, rfl⟩ := hp; exact ih _ hnames.2
      | memberIndex => obtain ⟨stop, e, rfl⟩ := hp; exact ih _ hnames.2
      | _ => cases hnames.1

/-! ## Assembly -/

/-- The pieces make up a piece that fits the rule, with all of their slots. A slot itself has none
inside. -/
def Built (rule : Rule) (span : Span) (text : Unit → String) (ps : List Piece) : Prop :=
  ∃ p, assemble rule span text ps = some p ∧ Fits rule p ∧
    (rule ≠ .placeholder → p.slots = ps.flatMap slots)

/-- Pieces without slots may be left out. -/
theorem slots_filter {g : Piece → Bool} (hg : ∀ p : Piece, g p = false → p.slots = [])
    (ps : List Piece) : (ps.filter g).flatMap slots = ps.flatMap slots := by
  induction ps with
  | nil => rfl
  | cons p ps ih =>
      cases hp : g p with
      | true => rw [List.filter_cons_of_pos hp, List.flatMap_cons, ih, List.flatMap_cons]
      | false =>
          rw [List.filter_cons_of_neg (by simp [hp]), ih, List.flatMap_cons, hg p hp, List.nil_append]

theorem slots_kept (ps : List Piece) : (ps.filter (!·.isMark)).flatMap slots = ps.flatMap slots := by
  refine slots_filter (fun p hp => ?_) ps
  cases p with
  | token r s t => exact slots_token r s t
  | _ => cases hp

/-- A layer of drafts that has all the slots of its pieces. -/
theorem Built.layer {k : Kind Draft} (h : assemble rule span text ps = node span k)
    (hfits : ∀ d, Fits rule (.draft d)) (hk : k.isPlaceholder = false)
    (hslots : k.children.flatMap Draft.placeholders = ps.flatMap slots) :
    Built rule span text ps := by
  refine ⟨_, h, hfits _, fun _ => ?_⟩
  rw [slots_draft, Draft.placeholders_node, hk, if_neg Bool.false_ne_true, hslots]

/-- A piece that is handed on. -/
theorem Built.same (hkept : ps.filter (!·.isMark) = [p])
    (h : assembleParts rule span text [p] = some p) (hfits : Fits rule p) :
    Built rule span text ps := by
  refine ⟨p, by rw [assemble, hkept]; exact h, hfits, fun _ => ?_⟩
  rw [← slots_kept, hkept, List.flatMap_singleton]

theorem kept_cons (hp : p.isMark = false) :
    (p :: ps).filter (!·.isMark) = p :: ps.filter (!·.isMark) :=
  List.filter_cons_of_pos (by rw [hp]; rfl)

theorem kept_draft (hd : p.draft? = some d) :
    (p :: ps).filter (!·.isMark) = p :: ps.filter (!·.isMark) := kept_cons (isMark_of_draft? hd)

theorem kept_word (w : Word) (s : Span) (t : String) :
    (token (.word w) s t :: ps).filter (!·.isMark) = ps.filter (!·.isMark) := rfl

/-- The only piece that is kept. -/
theorem exists_operand (h : Forall₂ Fits names ps) (htakes : Rule.isOperand names = true) :
    ∃ p d, ps.filter (!·.isMark) = [p] ∧ p.draft? = some d ∧ ps.flatMap slots = d.placeholders := by
  unfold Rule.isOperand at htakes
  split at htakes
  · obtain _ | ⟨hp, _ | _⟩ := h
    obtain ⟨d, hd⟩ := hp.expression htakes
    exact ⟨_, d, by rw [kept_draft hd, List.filter_nil], hd, by simp [slots_of_draft? hd]⟩
  · cases htakes

/-- The only piece that is kept, behind a word that marks the construct. -/
theorem exists_operand_word {w : Word} (h : Forall₂ Fits (.word w :: names) ps)
    (htakes : Rule.isOperand names = true) :
    ∃ p d, ps.filter (!·.isMark) = [p] ∧ p.draft? = some d ∧ ps.flatMap slots = d.placeholders := by
  obtain _ | ⟨⟨_, _, rfl⟩, h⟩ := h
  obtain ⟨p, d, hkept, hd, hslots⟩ := exists_operand h htakes
  exact ⟨p, d, by rw [kept_word, hkept], hd, by rw [List.flatMap_cons, slots_token, hslots]; rfl⟩

/-- An operand with calls and accesses behind it. -/
theorem exists_suffixed (start : Nat) (htakes : Rule.areSuffixed names = true)
    (h : Forall₂ Fits names ps) :
    ∃ p rest e d, ps.filter (!·.isMark) = p :: rest ∧ p.draft? = some e ∧
      suffixed? start e rest = some d ∧ d.placeholders = ps.flatMap slots := by
  obtain _ | ⟨hp, h⟩ := h
  · cases htakes
  · obtain ⟨hr, hall⟩ := Bool.and_eq_true_iff.1 htakes
    obtain ⟨e, he⟩ := hp.expression hr
    obtain ⟨d, hd⟩ := exists_suffixes start e h hall
    refine ⟨_, _, e, d, ?_, he, hd, ?_⟩
    · rw [kept_draft he, filter_eq_self h hall fun _ => isMark_of_isSuffixPart]
    · rw [slots_suffixed? hd, List.flatMap_cons, slots_of_draft? he]

/-! ## Rules that are built alike -/

/-- What is made of the only piece that is kept. -/
theorem Built.operand {make : Draft → Piece}
    (h : ∃ p d, ps.filter (!·.isMark) = [p] ∧ p.draft? = some d ∧
      ps.flatMap slots = d.placeholders)
    (hassemble : ∀ p d, p.draft? = some d → assembleParts rule span text [p] = some (make d))
    (hfits : ∀ d, Fits rule (make d)) (hslots : ∀ d, (make d).slots = d.placeholders) :
    Built rule span text ps := by
  obtain ⟨p, d, hkept, hd, hps⟩ := h
  refine ⟨make d, ?_, hfits d, fun _ => by rw [hslots, hps]⟩
  rw [assemble, hkept, hassemble p d hd]

/-- A layer over the only piece that is kept. -/
theorem Built.operandLayer {make : Draft → Kind Draft}
    (h : ∃ p d, ps.filter (!·.isMark) = [p] ∧ p.draft? = some d ∧
      ps.flatMap slots = d.placeholders)
    (hassemble : ∀ p d, p.draft? = some d →
      assembleParts rule span text [p] = node span (make d))
    (hfits : ∀ d, Fits rule (.draft d))
    (hmake : ∀ d, (make d).isPlaceholder = false ∧ (make d).children = [d]) :
    Built rule span text ps :=
  .operand h hassemble (fun _ => hfits _) fun d => by
    rw [slots_draft, Draft.placeholders_node, (hmake d).1, (hmake d).2, List.flatMap_singleton]
    rfl

/-- A layer of the drafts of all pieces. -/
theorem Built.drafts {make : List Draft → Kind Draft}
    (h : ps.filter (!·.isMark) = ps ∧ ∃ ds, ps.mapM draft? = some ds)
    (hassemble : assembleParts rule span text ps
      = (ps.mapM draft?).bind fun ds => node span (make ds))
    (hfits : ∀ d, Fits rule (.draft d))
    (hmake : ∀ ds, (make ds).isPlaceholder = false ∧ (make ds).children = ds) :
    Built rule span text ps := by
  obtain ⟨hkept, ds, hds⟩ := h
  refine .layer (k := make ds) ?_ hfits (hmake ds).1 ?_
  · rw [assemble, hkept, hassemble, hds, Option.bind_some]
  · rw [(hmake ds).2, slots_mapM hds]

/-- An operand with calls and accesses behind it. -/
theorem Built.suffixes (htakes : Rule.areSuffixed names = true) (h : Forall₂ Fits names ps)
    (hassemble : ∀ p rest, assembleParts rule span text (p :: rest)
      = p.draft?.bind fun d => (suffixed? span.start d rest).map .draft)
    (hfits : ∀ d, Fits rule (.draft d)) : Built rule span text ps := by
  obtain ⟨p, rest, e, d, hkept, he, hd, hslots⟩ := exists_suffixed span.start htakes h
  refine ⟨.draft d, ?_, hfits d, fun _ => by rw [slots_draft, hslots]⟩
  rw [assemble, hkept, hassemble, he, Option.bind_some, hd, Option.map_some]

/-- The parts of a jump: its word, and maybe a label. -/
theorem exists_jumpParts (hrule : rule = .breakStmt ∨ rule = .continueStmt)
    (htakes : rule.takes names = true) :
    ∃ w, names = [.word w] ∨ names = [.word w, .identifier] := by
  rcases hrule with rfl | rfl
  all_goals
    simp only [Rule.takes] at htakes
    split at htakes
    · exact ⟨_, Or.inl rfl⟩
    · exact ⟨_, Or.inr rfl⟩
    · cases htakes

/-- A jump, with or without a label. -/
theorem Built.jump {make : Option String → Kind Draft}
    (hnames : ∃ w, names = [.word w] ∨ names = [.word w, .identifier]) (h : Forall₂ Fits names ps)
    (hnone : assembleParts rule span text [] = node span (make none))
    (hsome : ∀ s label, assembleParts rule span text [.token .identifier s label]
      = node span (make (some label)))
    (hfits : ∀ d, Fits rule (.draft d))
    (hmake : ∀ label, (make label).isPlaceholder = false ∧ (make label).children = []) :
    Built rule span text ps := by
  obtain ⟨w, rfl | rfl⟩ := hnames
  · obtain _ | ⟨⟨_, _, rfl⟩, _ | _⟩ := h
    exact .layer hnone hfits (hmake none).1 (by simp [(hmake none).2])
  · obtain _ | ⟨⟨_, _, rfl⟩, _ | ⟨⟨_, label, rfl⟩, _ | _⟩⟩ := h
    exact .layer (hsome _ label) hfits (hmake _).1 (by simp [(hmake (some label)).2])

/-! ## Statements -/

theorem built_varDecl (htakes : Rule.varDecl.takes names = true) (h : Forall₂ Fits names ps) :
    Built .varDecl span text ps := by
  simp only [Rule.takes] at htakes
  split at htakes
  · obtain _ | ⟨⟨s, word, rfl⟩, h⟩ := h
    obtain ⟨hkept, ds, hds⟩ := exists_drafts_of_eq h htakes fun _ hp => hp
    refine .layer (k := .varDecl (varKind word) ds) ?_ (fun d => ⟨d, rfl⟩) rfl ?_
    · rw [assemble, kept_cons rfl, hkept]
      unfold assembleParts
      simp only [hds, Option.bind_some]
    · simp [Kind.children, slots_mapM hds]
  · cases htakes

theorem built_declarator (htakes : Rule.declarator.takes names = true) (h : Forall₂ Fits names ps) :
    Built .declarator span text ps := by
  simp only [Rule.takes] at htakes
  split at htakes
  · obtain _ | ⟨⟨s, name, rfl⟩, _ | _⟩ := h
    exact .layer (k := .declarator name none) rfl (fun d => ⟨d, rfl⟩) rfl (by simp [Kind.children])
  · obtain _ | ⟨⟨s, name, rfl⟩, _ | ⟨hinit, _ | _⟩⟩ := h
    obtain ⟨d, hd⟩ := hinit.expression htakes
    refine .layer (k := .declarator name (some d)) ?_ (fun d => ⟨d, rfl⟩) rfl ?_
    · rw [assemble, kept_cons rfl, kept_draft hd, List.filter_nil]
      unfold assembleParts
      simp only [hd, Option.bind_some]
    · simp [Kind.children, slots_of_draft? hd]
  · cases htakes

theorem built_ifStmt (htakes : Rule.ifStmt.takes names = true) (h : Forall₂ Fits names ps) :
    Built .ifStmt span text ps := by
  simp only [Rule.takes] at htakes
  split at htakes
  · obtain _ | ⟨⟨_, _, rfl⟩, _ | ⟨htest, _ | ⟨hbody, _ | _⟩⟩⟩ := h
    obtain ⟨hr, hr'⟩ := Bool.and_eq_true_iff.1 htakes
    obtain ⟨t, ht⟩ := htest.expression hr
    obtain ⟨c, hc⟩ := hbody.statement hr'
    refine .layer (k := .ifStmt t c none) ?_ (fun d => ⟨d, rfl⟩) rfl ?_
    · rw [assemble, kept_word, kept_draft ht, kept_draft hc, List.filter_nil]
      unfold assembleParts
      simp only [ht, hc]
    · simp [Kind.children, slots_of_draft? ht, slots_of_draft? hc]
  · obtain _ | ⟨⟨_, _, rfl⟩, _ | ⟨htest, _ | ⟨hbody, _ | ⟨⟨_, _, rfl⟩, _ | ⟨halternate, _ | _⟩⟩⟩⟩⟩ := h
    obtain ⟨hr, hr''⟩ := Bool.and_eq_true_iff.1 htakes
    obtain ⟨hr, hr'⟩ := Bool.and_eq_true_iff.1 hr
    obtain ⟨t, ht⟩ := htest.expression hr
    obtain ⟨c, hc⟩ := hbody.statement hr'
    obtain ⟨a, ha⟩ := halternate.statement hr''
    refine .layer (k := .ifStmt t c (some a)) ?_ (fun d => ⟨d, rfl⟩) rfl ?_
    · rw [assemble, kept_word, kept_draft ht, kept_draft hc, kept_word, kept_draft ha, List.filter_nil]
      unfold assembleParts
      simp only [ht, hc, ha]
    · simp [Kind.children, slots_of_draft? ht, slots_of_draft? hc, slots_of_draft? ha]
  · cases htakes

theorem built_whileStmt (htakes : Rule.whileStmt.takes names = true) (h : Forall₂ Fits names ps) :
    Built .whileStmt span text ps := by
  simp only [Rule.takes] at htakes
  split at htakes
  · obtain _ | ⟨⟨_, _, rfl⟩, _ | ⟨htest, _ | ⟨hbody, _ | _⟩⟩⟩ := h
    obtain ⟨hr, hr'⟩ := Bool.and_eq_true_iff.1 htakes
    obtain ⟨t, ht⟩ := htest.expression hr
    obtain ⟨b, hb⟩ := hbody.statement hr'
    refine .layer (k := .whileStmt t b) ?_ (fun d => ⟨d, rfl⟩) rfl ?_
    · rw [assemble, kept_word, kept_draft ht, kept_draft hb, List.filter_nil]
      unfold assembleParts
      simp only [ht, hb]
    · simp [Kind.children, slots_of_draft? ht, slots_of_draft? hb]
  · cases htakes

theorem built_labeledStmt (htakes : Rule.labeledStmt.takes names = true)
    (h : Forall₂ Fits names ps) : Built .labeledStmt span text ps := by
  simp only [Rule.takes] at htakes
  split at htakes
  · obtain _ | ⟨⟨s, label, rfl⟩, _ | ⟨hbody, _ | _⟩⟩ := h
    obtain ⟨b, hb⟩ := hbody.statement htakes
    refine .layer (k := .labeled label b) ?_ (fun d => ⟨d, rfl⟩) rfl ?_
    · rw [assemble, kept_cons rfl, kept_draft hb, List.filter_nil]
      unfold assembleParts
      simp only [hb, Option.bind_some]
    · simp [Kind.children, slots_of_draft? hb]
  · cases htakes

theorem built_returnStmt (htakes : Rule.returnStmt.takes names = true) (h : Forall₂ Fits names ps) :
    Built .returnStmt span text ps := by
  simp only [Rule.takes] at htakes
  split at htakes
  · obtain _ | ⟨⟨_, _, rfl⟩, _ | _⟩ := h
    exact .layer (k := .returnStmt none) rfl (fun d => ⟨d, rfl⟩) rfl (by simp [Kind.children])
  · exact .operandLayer (exists_operand_word h htakes)
      (fun _ _ hd => congrArg (Option.bind · fun d => node span (.returnStmt (some d))) hd)
      (fun d => ⟨d, rfl⟩) fun _ => ⟨rfl, rfl⟩
  · cases htakes

theorem built_throwStmt (htakes : Rule.throwStmt.takes names = true) (h : Forall₂ Fits names ps) :
    Built .throwStmt span text ps := by
  simp only [Rule.takes] at htakes
  split at htakes
  · exact .operandLayer (exists_operand_word h htakes)
      (fun _ _ hd => congrArg (Option.bind · fun d => node span (.throwStmt d)) hd)
      (fun d => ⟨d, rfl⟩) fun _ => ⟨rfl, rfl⟩
  · cases htakes

/-! ## Functions and classes -/

/-- The tokens at the front of a construct have no slots, and none of them is found as anything else. -/
theorem slots_tokens (h : Forall₂ Fits names ps) (hnames : names.all Rule.isToken = true) :
    ps.flatMap slots = [] :=
  List.flatMap_eq_nil_iff.2 <| forall_of_fits h hnames fun r p hr hp => by
    obtain ⟨s, t, rfl⟩ := hp.token hr
    exact slots_token r s t

theorem findSome?_tokens {β : Type} {f : Piece → Option β} {known : Rule → Bool}
    (h : Forall₂ Fits names ps) (hnames : names.all known = true)
    (hf : ∀ r p, known r = true → Fits r p → f p = none) :
    (ps.filter (!·.isMark)).findSome? f = none :=
  List.findSome?_eq_none_iff.2 fun p hp => forall_of_fits h hnames hf p (List.mem_filter.1 hp).1

theorem all_isToken {known : Rule → Bool} (hnames : names.all known = true)
    (hknown : ∀ r, known r = true → r.isToken = true) : names.all Rule.isToken = true :=
  List.all_eq_true.2 fun r hr => hknown r (List.all_eq_true.1 hnames r hr)

theorem exists_function? {body : Draft} (form : FunctionForm)
    (hlast : ps.getLast?.bind draft? = some body) :
    ∃ header, function? span form ps = node span (.function header body) := by
  unfold function?
  rw [hlast]
  exact ⟨_, rfl⟩

theorem exists_method? {key : Key Draft} {body : Draft} (hkey : ps.findSome? key? = some key)
    (hlast : ps.getLast?.bind draft? = some body) :
    ∃ header, method? span ps = node span (.method key header body) := by
  unfold method?
  rw [hkey, hlast]
  exact ⟨_, rfl⟩

theorem class?_eq {isDeclaration : Bool} {body : Draft} {superclass : Option Draft}
    (hlast : ps.getLast?.bind draft? = some body) (hfound : ps.findSome? superclass? = superclass) :
    class? span isDeclaration ps
      = node span (.classDef (ps.findSome? name?) superclass body isDeclaration) := by
  unfold class?
  rw [hlast, hfound]

theorem superclass?_of_draft? (hd : p.draft? = some d) : p.superclass? = none := by
  cases p with
  | superclass d => cases hd
  | _ => rfl

/-- The parameters and the body of a function stand behind tokens. -/
theorem exists_function (span : Span) (h : Forall₂ Fits names ps)
    (htakes : Rule.areFunctionParts names = true) (form : FunctionForm) :
    ∃ header body, function? span form (ps.filter (!·.isMark)) = node span (.function header body) ∧
      body.placeholders = ps.flatMap slots := by
  unfold Rule.areFunctionParts at htakes
  split at htakes
  · next parts hrev =>
      obtain rfl : names = parts.reverse ++ [.params, .block] := by
        simpa using congrArg List.reverse hrev
      obtain ⟨qs, _, rfl, hqs, _ | ⟨⟨ns, rfl⟩, _ | ⟨⟨body, hbody⟩, _ | _⟩⟩⟩ := exists_append h
      have hslots := slots_tokens hqs
        (all_isToken (List.all_reverse.trans htakes) fun _ => Rule.isToken_of_isFunctionPart)
      rw [List.filter_append, kept_cons rfl, kept_draft hbody, List.filter_nil]
      refine (exists_function? form ?_).imp fun header hheader => ⟨body, hheader, ?_⟩
      · simpa using hbody
      · simp [hslots, slots_of_draft? hbody]
  · cases htakes

theorem built_function {form : FunctionForm} (htakes : Rule.areFunctionParts names = true)
    (h : Forall₂ Fits names ps)
    (hassemble : ∀ qs, assembleParts rule span text qs = function? span form qs)
    (hfits : ∀ d, Fits rule (.draft d)) : Built rule span text ps := by
  obtain ⟨header, body, hbody, hslots⟩ := exists_function span h htakes form
  exact .layer ((hassemble _).trans hbody) hfits rfl ((List.flatMap_singleton _ _).trans hslots)

theorem built_params (htakes : Rule.params.takes names = true) (h : Forall₂ Fits names ps) :
    Built .params span text ps := by
  have hidentifiers : ∀ p ∈ ps, ∃ s t, p = .token .identifier s t :=
    forall_of_fits h htakes fun r p hr hp => by
      obtain rfl := of_decide_eq_true hr
      exact hp
  obtain ⟨ns, hns⟩ := exists_mapM (f := name?) fun p hp => by
    obtain ⟨s, t, rfl⟩ := hidentifiers p hp
    exact ⟨t, rfl⟩
  refine ⟨.names ns, ?_, ⟨ns, rfl⟩, fun _ => ?_⟩
  · have hkept := filter_eq_self h htakes fun r hr => by
      obtain rfl := of_decide_eq_true hr
      rfl
    rw [assemble, hkept]
    unfold assembleParts
    simp only [hns, Option.map_some]
  · refine (List.flatMap_eq_nil_iff.2 fun p hp => ?_).symm
    obtain ⟨s, t, rfl⟩ := hidentifiers p hp
    exact slots_token _ _ _

/-- The superclass and the body of a class stand behind tokens. -/
theorem exists_class (span : Span) (h : Forall₂ Fits names ps)
    (htakes : Rule.areClassParts names = true) (isDeclaration : Bool) :
    ∃ name superclass body, class? span isDeclaration (ps.filter (!·.isMark))
        = node span (.classDef name superclass body isDeclaration) ∧
      (superclass.toList ++ [body]).flatMap Draft.placeholders = ps.flatMap slots := by
  have hfound : ∀ {parts : List Rule} {qs : List Piece}, parts.all Rule.isClassPart = true →
      Forall₂ Fits parts.reverse qs →
      (qs.filter (!·.isMark)).findSome? superclass? = none ∧ qs.flatMap slots = [] := by
    intro parts qs hparts hqs
    have hall : parts.reverse.all Rule.isToken = true :=
      all_isToken (List.all_reverse.trans hparts) fun _ => Rule.isToken_of_isClassPart
    refine ⟨findSome?_tokens hqs hall fun r p hr hp => ?_, slots_tokens hqs hall⟩
    obtain ⟨s, t, rfl⟩ := hp.token hr
    rfl
  unfold Rule.areClassParts at htakes
  split at htakes
  · next parts hrev =>
      obtain rfl : names = parts.reverse ++ [.heritage, .classBody] := by
        simpa using congrArg List.reverse hrev
      obtain ⟨qs, _, rfl, hqs, _ | ⟨⟨d, rfl⟩, _ | ⟨⟨body, hbody⟩, _ | _⟩⟩⟩ := exists_append h
      obtain ⟨hnone, hslots⟩ := hfound htakes hqs
      rw [List.filter_append, kept_cons rfl, kept_draft hbody, List.filter_nil]
      refine ⟨_, some d, body, class?_eq (by simpa using hbody) ?_, ?_⟩
      · rw [List.findSome?_append, hnone]
        rfl
      · simp [hslots, slots_of_draft? hbody]
  · next parts _ hrev =>
      obtain rfl : names = parts.reverse ++ [.classBody] := by
        simpa using congrArg List.reverse hrev
      obtain ⟨qs, _, rfl, hqs, _ | ⟨⟨body, hbody⟩, _ | _⟩⟩ := exists_append h
      obtain ⟨hnone, hslots⟩ := hfound htakes hqs
      rw [List.filter_append, kept_draft hbody, List.filter_nil]
      refine ⟨_, none, body, class?_eq (by simpa using hbody) ?_, ?_⟩
      · rw [List.findSome?_append, hnone, Option.none_or, List.findSome?_singleton,
          superclass?_of_draft? hbody]
      · simp [hslots, slots_of_draft? hbody]
  · cases htakes

theorem built_class {isDeclaration : Bool} (htakes : Rule.areClassParts names = true)
    (h : Forall₂ Fits names ps)
    (hassemble : ∀ qs, assembleParts rule span text qs = class? span isDeclaration qs)
    (hfits : ∀ d, Fits rule (.draft d)) : Built rule span text ps := by
  obtain ⟨name, superclass, body, hbody, hslots⟩ := exists_class span h htakes isDeclaration
  exact .layer ((hassemble _).trans hbody) hfits rfl hslots

theorem built_heritage (htakes : Rule.heritage.takes names = true) (h : Forall₂ Fits names ps) :
    Built .heritage span text ps := by
  simp only [Rule.takes] at htakes
  split at htakes
  · exact .operand (exists_operand_word h htakes)
      (fun _ _ hd => congrArg (Option.map Piece.superclass) hd) (fun d => ⟨d, rfl⟩) fun _ => by simp
  · cases htakes

/-- The key, the parameters and the body of a class member stand behind tokens. -/
theorem exists_method (h : Forall₂ Fits names ps) (htakes : Rule.areMethodParts names = true) :
    ∃ key header body, method? span (ps.filter (!·.isMark)) = node span (.method key header body) ∧
      (key.children ++ [body]).flatMap Draft.placeholders = ps.flatMap slots := by
  unfold Rule.areMethodParts at htakes
  split at htakes
  · next k parts hrev =>
      obtain ⟨hk, hparts⟩ := Bool.and_eq_true_iff.1 htakes
      obtain rfl : names = parts.reverse ++ [k, .params, .block] := by
        simpa using congrArg List.reverse hrev
      obtain ⟨qs, _, rfl, hqs, _ | ⟨hkey, _ | ⟨⟨ns, rfl⟩, _ | ⟨⟨body, hbody⟩, _ | _⟩⟩⟩⟩ :=
        exists_append h
      have hparts : parts.reverse.all Rule.isMethodPart = true := List.all_reverse.trans hparts
      have hslots := slots_tokens hqs (all_isToken hparts fun _ => Rule.isToken_of_isMethodPart)
      have hnone := findSome?_tokens (f := key?) hqs hparts fun r p hr hp => by
        obtain ⟨s, t, rfl⟩ := hp.token (Rule.isToken_of_isMethodPart hr)
        cases r <;> first | rfl | cases hr
      have hmark := hkey.isMark_eq.trans (isMark_of_isKeyPart hk)
      obtain ⟨key, hkey⟩ := hkey.key hk
      rw [List.filter_append, kept_cons hmark, kept_cons rfl, kept_draft hbody, List.filter_nil]
      refine ⟨key, (exists_method? ?_ ?_).imp fun header hheader => ⟨body, hheader, ?_⟩⟩
      · rw [List.findSome?_append, hnone, Option.none_or, List.findSome?_cons, hkey]
      · simpa using hbody
      · simp [hslots, slots_of_draft? hbody, ← slots_key? hkey]
  · cases htakes

/-! ## Expressions -/

theorem built_expression (htakes : Rule.expression.takes names = true) (h : Forall₂ Fits names ps) :
    Built .expression span text ps := by
  obtain ⟨hne, hall⟩ := Bool.and_eq_true_iff.1 htakes
  obtain ⟨hkept, ds, hds⟩ := exists_drafts h hall fun _ _ hr hp => hp.expression hr
  cases h with
  | nil => cases hne
  | cons hp h =>
      cases h with
      | nil => exact .same hkept rfl (hp.expression (List.all_eq_true.1 hall _ List.mem_cons_self))
      | cons _ _ =>
          refine .layer (k := .sequence ds) ?_ (fun d => ⟨d, rfl⟩) rfl (slots_mapM hds).symm
          rw [assemble, hkept]
          exact congrArg (Option.bind · fun es => node span (.sequence es)) hds

theorem built_assignExpr (htakes : Rule.assignExpr.takes names = true) (h : Forall₂ Fits names ps) :
    Built .assignExpr span text ps := by
  simp only [Rule.takes] at htakes
  split at htakes
  · obtain _ | ⟨htarget, _ | ⟨⟨s, op, rfl⟩, _ | ⟨hvalue, _ | _⟩⟩⟩ := h
    obtain ⟨hr, hr'⟩ := Bool.and_eq_true_iff.1 htakes
    obtain ⟨t, ht⟩ := htarget.expression hr
    obtain ⟨v, hv⟩ := hvalue.expression hr'
    refine .layer (k := .assign op t v) ?_ (fun d => ⟨d, rfl⟩) rfl ?_
    · rw [assemble, kept_draft ht, kept_cons rfl, kept_draft hv, List.filter_nil]
      unfold assembleParts
      simp only [ht, hv]
    · simp [Kind.children, slots_of_draft? ht, slots_of_draft? hv]
  · cases htakes

theorem built_conditional (htakes : Rule.conditional.takes names = true)
    (h : Forall₂ Fits names ps) : Built .conditional span text ps := by
  simp only [Rule.takes] at htakes
  split at htakes
  · obtain _ | ⟨htest, _ | _⟩ := h
    obtain ⟨t, ht⟩ := htest.expression htakes
    exact .same (by rw [kept_draft ht, List.filter_nil]) rfl ⟨t, ht⟩
  · obtain _ | ⟨htest, _ | ⟨hthen, _ | ⟨helse, _ | _⟩⟩⟩ := h
    obtain ⟨hr, hr''⟩ := Bool.and_eq_true_iff.1 htakes
    obtain ⟨hr, hr'⟩ := Bool.and_eq_true_iff.1 hr
    obtain ⟨t, ht⟩ := htest.expression hr
    obtain ⟨c, hc⟩ := hthen.expression hr'
    obtain ⟨a, ha⟩ := helse.expression hr''
    refine .layer (k := .conditional t c a) ?_ (fun d => ⟨d, rfl⟩) rfl ?_
    · rw [assemble, kept_draft ht, kept_draft hc, kept_draft ha, List.filter_nil]
      unfold assembleParts
      simp only [ht, hc, ha]
    · simp [Kind.children, slots_of_draft? ht, slots_of_draft? hc, slots_of_draft? ha]
  · cases htakes

theorem assembleParts_yieldArgument (hd : p.draft? = some d) :
    assembleParts .yieldExpr span text [p] = node span (.yieldExpr (some d) false) := by
  cases p with
  | token r s t => cases r <;> cases hd <;> rfl
  | draft e => cases hd; rfl
  | _ => cases hd

theorem built_yieldExpr (htakes : Rule.yieldExpr.takes names = true) (h : Forall₂ Fits names ps) :
    Built .yieldExpr span text ps := by
  simp only [Rule.takes] at htakes
  split at htakes
  · obtain _ | ⟨⟨_, _, rfl⟩, _ | _⟩ := h
    exact .layer (k := .yieldExpr none false) rfl (fun d => ⟨d, rfl⟩) rfl (by simp [Kind.children])
  · obtain _ | ⟨⟨_, _, rfl⟩, _ | ⟨⟨_, _, rfl⟩, _ | _⟩⟩ := h
    exact .layer (k := .yieldExpr none true) rfl (fun d => ⟨d, rfl⟩) rfl (by simp [Kind.children])
  · exact .operandLayer (exists_operand_word h htakes)
      (fun _ _ hd => assembleParts_yieldArgument hd) (fun d => ⟨d, rfl⟩) fun _ => ⟨rfl, rfl⟩
  · obtain _ | ⟨⟨_, _, rfl⟩, _ | ⟨⟨_, _, rfl⟩, h⟩⟩ := h
    obtain ⟨p, d, hkept, hd, hslots⟩ := exists_operand h htakes
    refine .layer (k := .yieldExpr (some d) true) ?_ (fun d => ⟨d, rfl⟩) rfl ?_
    · rw [assemble, kept_word, kept_cons rfl, hkept]
      unfold assembleParts
      simp only [hd, Option.bind_some]
    · simp [Kind.children, hslots]
  · cases htakes

theorem built_arrowFunction (htakes : Rule.arrowFunction.takes names = true)
    (h : Forall₂ Fits names ps) : Built .arrowFunction span text ps := by
  have hbody : ∀ {r p}, (decide (r = .block) || r.isExpressionPart) = true → Fits r p →
      ∃ d, p.draft? = some d := by
    intro r p hr hp
    rcases Bool.or_eq_true_iff.1 hr with hr | hr
    · obtain rfl := of_decide_eq_true hr
      exact hp
    · exact hp.expression hr
  simp only [Rule.takes] at htakes
  split at htakes
  · obtain _ | ⟨⟨ns, rfl⟩, _ | ⟨hp, _ | _⟩⟩ := h
    obtain ⟨b, hb⟩ := hbody htakes hp
    refine .layer (k := .function ⟨none, ns, .arrow, false, false⟩ b) ?_ (fun d => ⟨d, rfl⟩) rfl ?_
    · rw [assemble, kept_cons rfl, kept_draft hb, List.filter_nil]
      unfold assembleParts
      simp only [hb, Option.bind_some]
    · simp [Kind.children, slots_of_draft? hb]
  · obtain _ | ⟨⟨_, _, rfl⟩, _ | ⟨⟨ns, rfl⟩, _ | ⟨hp, _ | _⟩⟩⟩ := h
    obtain ⟨b, hb⟩ := hbody htakes hp
    refine .layer (k := .function ⟨none, ns, .arrow, true, false⟩ b) ?_ (fun d => ⟨d, rfl⟩) rfl ?_
    · rw [assemble, kept_cons rfl, kept_cons rfl, kept_draft hb, List.filter_nil]
      unfold assembleParts
      simp only [hb, Option.bind_some]
    · simp [Kind.children, slots_of_draft? hb]
  · cases htakes

theorem built_arrowParams (htakes : Rule.arrowParams.takes names = true)
    (h : Forall₂ Fits names ps) : Built .arrowParams span text ps := by
  simp only [Rule.takes] at htakes
  split at htakes
  · obtain _ | ⟨⟨_, name, rfl⟩, _ | _⟩ := h
    exact ⟨_, rfl, ⟨[name], rfl⟩, fun _ => by simp⟩
  · obtain _ | ⟨⟨ns, rfl⟩, _ | _⟩ := h
    exact ⟨_, rfl, ⟨ns, rfl⟩, fun _ => by simp⟩
  · cases htakes

theorem built_suffixed (htakes : Rule.suffixed.takes names = true) (h : Forall₂ Fits names ps) :
    Built .suffixed span text ps := by
  simp only [Rule.takes] at htakes
  split at htakes
  · obtain _ | ⟨hp, _ | _⟩ := h
    obtain ⟨d, hd⟩ := hp.expression htakes
    exact .same (by rw [kept_draft hd, List.filter_nil]) rfl ⟨d, hd⟩
  · obtain _ | ⟨hp, _ | ⟨⟨s, op, rfl⟩, _ | _⟩⟩ := h
    obtain ⟨d, hd⟩ := hp.expression htakes
    refine .layer (k := .update op .after d) ?_ (fun d => ⟨d, rfl⟩) rfl ?_
    · rw [assemble, kept_draft hd, kept_cons rfl, List.filter_nil]
      unfold assembleParts
      simp only [hd, Option.bind_some]
    · simp [Kind.children, slots_of_draft? hd]
  · cases htakes

theorem built_newExpr (htakes : Rule.newExpr.takes names = true) (h : Forall₂ Fits names ps) :
    Built .newExpr span text ps := by
  simp only [Rule.takes] at htakes
  split at htakes
  · obtain _ | ⟨⟨_, _, rfl⟩, _ | ⟨hp, _ | _⟩⟩ := h
    obtain ⟨d, hd⟩ := hp.expression htakes
    refine .layer (k := .newExpr d []) ?_ (fun d => ⟨d, rfl⟩) rfl ?_
    · rw [assemble, kept_word, kept_draft hd, List.filter_nil]
      unfold assembleParts
      simp only [hd, Option.bind_some]
    · simp [Kind.children, slots_of_draft? hd]
  · obtain _ | ⟨⟨_, _, rfl⟩, _ | ⟨hp, _ | ⟨⟨stop, ds, rfl⟩, _ | _⟩⟩⟩ := h
    obtain ⟨d, hd⟩ := hp.expression htakes
    refine .layer (k := .newExpr d ds) ?_ (fun d => ⟨d, rfl⟩) rfl ?_
    · rw [assemble, kept_word, kept_draft hd, kept_cons rfl, List.filter_nil]
      unfold assembleParts
      simp only [hd, Option.bind_some]
    · simp [Kind.children, slots_of_draft? hd]
  · cases htakes

theorem assembleParts_property {q : Piece} {k : Key Draft} (hk : p.key? = some k)
    (hd : q.draft? = some d) :
    assembleParts .property span text [p, q] = node span (.property k d false) := by
  cases p with
  | token r s t => cases r <;> (unfold assembleParts; simp only [hk, hd])
  | _ => unfold assembleParts; simp only [hk, hd]

theorem built_property (htakes : Rule.property.takes names = true) (h : Forall₂ Fits names ps) :
    Built .property span text ps := by
  simp only [Rule.takes] at htakes
  split at htakes
  · obtain _ | ⟨⟨s, name, rfl⟩, _ | _⟩ := h
    exact .layer (k := .property (.named name) (.node span (.ident name)) true) rfl
      (fun d => ⟨d, rfl⟩) rfl (by
        simp [Kind.children, Key.children, Draft.placeholders_node, Kind.isPlaceholder])
  · obtain _ | ⟨hkey, _ | ⟨hvalue, _ | _⟩⟩ := h
    obtain ⟨hr, hr'⟩ := Bool.and_eq_true_iff.1 htakes
    obtain ⟨k, hk⟩ := hkey.key hr
    obtain ⟨v, hv⟩ := hvalue.expression hr'
    refine .layer (k := .property k v false) ?_ (fun d => ⟨d, rfl⟩) rfl ?_
    · rw [assemble, kept_cons (by rw [hkey.isMark_eq, isMark_of_isKeyPart hr]), kept_draft hv,
        List.filter_nil, assembleParts_property hk hv]
    · simp [Kind.children, ← slots_key? hk, slots_of_draft? hv]
  · cases htakes

theorem built_binary (htakes : Rule.binary.takes names = true) (h : Forall₂ Fits names ps) :
    Built .binary span text ps := by
  obtain _ | ⟨hp, h⟩ := h
  · cases htakes
  · obtain ⟨hr, hlinks⟩ := Bool.and_eq_true_iff.1 htakes
    obtain ⟨d, hd⟩ := hp.expression hr
    obtain ⟨hkept, links, hlinks⟩ := exists_links h hlinks
    refine ⟨.draft (.ofChain d links), ?_, ⟨_, rfl⟩, fun _ => ?_⟩
    · rw [assemble, kept_draft hd, hkept]
      unfold assembleParts
      simp only [hd, hlinks]
    · rw [slots_draft, Draft.placeholders_ofChain, List.flatMap_cons, ← slots_links? hlinks,
        List.flatMap_cons, slots_of_draft? hd]

/-- The name of a member or of a template slot. -/
theorem exists_name (hrule : rule = .memberDot ∨ rule = .placeholder)
    (htakes : rule.takes names = true) (h : Forall₂ Fits names ps) :
    ∃ s name, ps = [.token .identifierName s name] := by
  have hnames : names = [.identifierName] := by
    rcases hrule with rfl | rfl
    all_goals
      simp only [Rule.takes] at htakes
      split at htakes
      · rfl
      · cases htakes
  subst hnames
  obtain _ | ⟨⟨s, name, rfl⟩, _ | _⟩ := h
  exact ⟨s, name, rfl⟩

/-! ## Every rule -/

/-- Every rule but that of a whole program is built from parts that it takes. -/
theorem built_of_takes (htakes : rule.takes names = true) (hrule : rule ≠ .program)
    (h : Forall₂ Fits names ps) : Built rule span text ps := by
  cases rule with
  | block =>
      exact .drafts (exists_drafts h htakes fun _ _ hr hp => hp.statement hr) rfl
        (fun d => ⟨d, rfl⟩) fun _ => ⟨rfl, rfl⟩
  | classBody =>
      exact .drafts (exists_drafts_of_eq h htakes fun _ hp => hp) rfl
        (fun d => ⟨d, rfl⟩) fun _ => ⟨rfl, rfl⟩
  | array =>
      exact .drafts (exists_drafts h htakes fun _ _ hr hp => hp.expression hr) rfl
        (fun d => ⟨d, rfl⟩) fun _ => ⟨rfl, rfl⟩
  | object =>
      exact .drafts (exists_drafts_of_eq h htakes fun _ hp => hp) rfl
        (fun d => ⟨d, rfl⟩) fun _ => ⟨rfl, rfl⟩
  | arguments =>
      obtain ⟨hkept, ds, hds⟩ := exists_drafts h htakes fun _ _ hr hp => hp.expression hr
      refine ⟨.arguments span.stop ds, ?_, ⟨_, ds, rfl⟩, fun _ => (slots_mapM hds).symm⟩
      rw [assemble, hkept]
      exact congrArg (Option.map (Piece.arguments span.stop)) hds
  | emptyStmt =>
      obtain rfl := List.isEmpty_iff.1 htakes
      cases h
      exact .layer (k := .empty) rfl (fun d => ⟨d, rfl⟩) rfl rfl
  | varDecl => exact built_varDecl htakes h
  | declarator => exact built_declarator htakes h
  | functionDecl => exact built_function htakes h (fun _ => rfl) fun d => ⟨d, rfl⟩
  | functionExpr => exact built_function htakes h (fun _ => rfl) fun d => ⟨d, rfl⟩
  | params => exact built_params htakes h
  | classDecl => exact built_class htakes h (fun _ => rfl) fun d => ⟨d, rfl⟩
  | classExpr => exact built_class htakes h (fun _ => rfl) fun d => ⟨d, rfl⟩
  | method =>
      obtain ⟨key, header, body, hbody, hslots⟩ := exists_method h htakes
      exact .layer hbody (fun d => ⟨d, rfl⟩) rfl hslots
  | heritage => exact built_heritage htakes h
  | computedKey =>
      exact .operand (exists_operand h htakes)
        (fun _ _ hd => congrArg (Option.map Piece.computed) hd) (fun d => ⟨d, rfl⟩) fun _ => by simp
  | memberIndex =>
      exact .operand (exists_operand h htakes)
        (fun _ _ hd => congrArg (Option.map (Piece.index span.stop)) hd) (fun d => ⟨_, d, rfl⟩)
        fun _ => by simp
  | exprStmt =>
      exact .operandLayer (exists_operand h htakes)
        (fun _ _ hd => congrArg (Option.bind · fun e => node span (.expression e)) hd)
        (fun d => ⟨d, rfl⟩) fun _ => ⟨rfl, rfl⟩
  | throwStmt => exact built_throwStmt htakes h
  | yieldArgument =>
      obtain ⟨p, d, hkept, hd, -⟩ := exists_operand h htakes
      exact .same hkept rfl ⟨d, hd⟩
  | paren =>
      obtain ⟨p, d, hkept, hd, -⟩ := exists_operand h htakes
      exact .same hkept rfl ⟨d, hd⟩
  | returnStmt => exact built_returnStmt htakes h
  | breakStmt =>
      exact .jump (exists_jumpParts (Or.inl rfl) htakes) h rfl (fun _ _ => rfl) (fun d => ⟨d, rfl⟩)
        fun _ => ⟨rfl, rfl⟩
  | continueStmt =>
      exact .jump (exists_jumpParts (Or.inr rfl) htakes) h rfl (fun _ _ => rfl) (fun d => ⟨d, rfl⟩)
        fun _ => ⟨rfl, rfl⟩
  | ifStmt => exact built_ifStmt htakes h
  | whileStmt => exact built_whileStmt htakes h
  | labeledStmt => exact built_labeledStmt htakes h
  | expression => exact built_expression htakes h
  | assignExpr => exact built_assignExpr htakes h
  | arrowFunction => exact built_arrowFunction htakes h
  | arrowParams => exact built_arrowParams htakes h
  | yieldExpr => exact built_yieldExpr htakes h
  | conditional => exact built_conditional htakes h
  | binary => exact built_binary htakes h
  | unary =>
      obtain ⟨hkept, d, hd⟩ := exists_prefixed span.stop h htakes
      refine ⟨.draft d, ?_, ⟨d, rfl⟩, fun _ => by rw [slots_draft, slots_prefixed? hd]⟩
      rw [assemble, hkept]
      exact congrArg (Option.map Piece.draft) hd
  | suffixed => exact built_suffixed htakes h
  | callMember => exact .suffixes htakes h (fun _ _ => rfl) fun d => ⟨d, rfl⟩
  | newCallee => exact .suffixes htakes h (fun _ _ => rfl) fun d => ⟨d, rfl⟩
  | newExpr => exact built_newExpr htakes h
  | memberDot =>
      obtain ⟨s, name, rfl⟩ := exists_name (Or.inl rfl) htakes h
      exact ⟨_, rfl, ⟨_, name, rfl⟩, fun _ => by simp⟩
  | placeholder =>
      obtain ⟨s, name, rfl⟩ := exists_name (Or.inr rfl) htakes h
      exact ⟨_, rfl, ⟨_, rfl⟩, fun h => absurd rfl h⟩
  | property => exact built_property htakes h
  | shorthand =>
      simp only [Rule.takes] at htakes
      split at htakes
      · obtain _ | ⟨⟨_, _, rfl⟩, _ | _⟩ := h
        exact ⟨_, rfl, ⟨_, _, rfl⟩, fun _ => by simp⟩
      · cases htakes
  | program => exact absurd rfl hrule
  | statement => cases htakes
  | assignment => cases htakes
  | primary => cases htakes
  | _ =>
      cases List.isEmpty_iff.1 htakes
      cases h
      exact ⟨_, rfl, ⟨_, _, rfl⟩, fun _ => slots_token _ _ _⟩

end Piece

end LogLabel.Program
