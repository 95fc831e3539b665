import LogLabel.Expansion
import LogLabel.Program.Parser
import LogLabel.Proofs.Program.Planting

set_option autoImplicit false

/-!
# Passes with and without an end

Nothing bounds the visits of a pass, so it may have no result. A pass that has one made finitely
many visits, and `Expansion.loop` with enough fuel makes the same ones.

* `Expansion.ComesTo`: the result of a pass, by induction on its visits. A pass that goes on for
  ever comes to nothing (`Expansion.visitAll_eq_some_iff`).
* `Expansion.ComesTo.exists_loop`, `Expansion.comesTo_of_loop`: the pass and the pass with a bound
  come to the same, unless the bound is met.
* `Expansion.run_eq_ok_iff`: the passes that succeed.
* `Expansion.observe`: short passes, which can be computed.
-/

namespace LogLabel.Expansion

open Program (NodeId Tree)

/-! ## The visits of a pass -/

/-- Visiting the nodes and all that come in their places has a result, after finitely many visits. -/
inductive ComesTo (c : ExpansionContext) :
    List NodeId → Session → Except (Diagnostic × Session) Session → Prop
  | done (session : Session) : ComesTo c [] session (.ok session)
  | failed {id : NodeId} {pending : List NodeId} {session : Session} {e : Diagnostic × Session}
      (h : step c id session = .error e) : ComesTo c (id :: pending) session (.error e)
  | visited {id : NodeId} {next pending : List NodeId} {session session' : Session}
      {result : Except (Diagnostic × Session) Session} (h : step c id session = .ok (next, session'))
      (rest : ComesTo c (next ++ pending) session' result) : ComesTo c (id :: pending) session result

section Visits

variable {c : ExpansionContext} {id : NodeId} {next pending : List NodeId} {session session' : Session}
  {result : Except (Diagnostic × Session) Session}

@[simp] theorem visitAll_nil (c : ExpansionContext) (session : Session) :
    visitAll c [] session = some (.ok session) := by
  rw [visitAll, Pass.afterVisit]

/-- After a visit come the nodes to visit in its place. -/
theorem visitAll_of_step (hstep : step c id session = .ok (next, session')) :
    visitAll c (id :: pending) session = visitAll c (next ++ pending) session' := by
  rw [visitAll, Pass.afterVisit, hstep]

/-- A visit that fails ends the pass. -/
theorem visitAll_of_error {e : Diagnostic × Session} (hstep : step c id session = .error e) :
    visitAll c (id :: pending) session = some (.error e) := by
  rw [visitAll, Pass.afterVisit, hstep]

/-- The pass is the least solution of its equation: it has a result only after finitely many
visits. -/
theorem comesTo_of_visitAll (h : visitAll c pending session = some result) :
    ComesTo c pending session result := by
  refine visitAll.partial_correctness c (ComesTo c) ?_ pending session result h
  -- By induction on the approximations of the pass, each of which visits one node more.
  intro rest ih pending session result hresult
  cases pending with
  | nil =>
      obtain rfl := Option.some.inj hresult
      exact .done session
  | cons id pending =>
      dsimp only [Pass.afterVisit] at hresult
      cases hstep : step c id session with
      | error e =>
          rw [hstep] at hresult
          obtain rfl := Option.some.inj hresult
          exact .failed hstep
      | ok outcome =>
          rw [hstep] at hresult
          exact .visited hstep (ih _ _ _ hresult)

theorem ComesTo.visitAll_eq (h : ComesTo c pending session result) :
    visitAll c pending session = some result := by
  induction h with
  | done session => exact visitAll_nil c session
  | failed hstep => exact visitAll_of_error hstep
  | visited hstep _ ih => rw [visitAll_of_step hstep, ih]

theorem visitAll_eq_some_iff :
    visitAll c pending session = some result ↔ ComesTo c pending session result :=
  ⟨comesTo_of_visitAll, ComesTo.visitAll_eq⟩

/-! ## Bounds -/

/-- The failure of a bounded pass that meets its bound. -/
def IsCut (result : Except (Diagnostic × Session) Session) : Prop :=
  ∃ session, result = .error (⟨.unsettledExpansion, none⟩, session)

theorem not_isCut_ok (session : Session) : ¬ IsCut (.ok session) := by
  rintro ⟨_, h⟩
  cases h

/-- A bounded pass that does not meet its bound comes to what the pass comes to. -/
theorem comesTo_of_loop {fuel : Nat} (h : loop c fuel pending session = result)
    (hcut : ¬ IsCut result) : ComesTo c pending session result := by
  induction fuel generalizing pending session with
  | zero =>
      cases pending with
      | nil =>
          rw [← h, loop]
          exact .done session
      | cons id pending => exact absurd ⟨session, h.symm⟩ hcut
  | succ fuel ih =>
      cases pending with
      | nil =>
          rw [← h, loop]
          exact .done session
      | cons id pending =>
          rw [loop] at h
          cases hstep : step c id session with
          | error e =>
              rw [hstep] at h
              rw [← h]
              exact .failed hstep
          | ok outcome =>
              rw [hstep] at h
              exact .visited hstep (ih h)

/-- What a pass comes to, it comes to within some bound, and under every larger one. -/
theorem ComesTo.exists_loop (h : ComesTo c pending session result) :
    ∃ n, ∀ fuel, n ≤ fuel → loop c fuel pending session = result := by
  induction h with
  | done session => exact ⟨0, fun fuel _ => by cases fuel <;> rfl⟩
  | failed hstep =>
      refine ⟨1, fun fuel hfuel => ?_⟩
      obtain ⟨fuel, rfl⟩ := Nat.exists_eq_add_of_le' hfuel
      rw [loop, hstep]
  | visited hstep _ ih =>
      obtain ⟨n, hn⟩ := ih
      refine ⟨n + 1, fun fuel hfuel => ?_⟩
      obtain ⟨fuel, rfl⟩ := Nat.exists_eq_add_of_le' hfuel
      rw [← Nat.add_assoc, loop, hstep]
      exact hn (fuel + n) (Nat.le_add_left n fuel)

end Visits

/-! ## Passes over a tree -/

section Runs

variable {c : ExpansionContext} {t : Tree} {session : Session}

theorem run_of_run? {result : Except (Diagnostic × Session) Session} (h : run? c t = some result) :
    run c t = result := by
  rw [run, h, Option.getD_some]

/-- A bounded pass that succeeds is the pass. -/
theorem run_of_loop {fuel : Nat} (h : loop c fuel [t.root] { tree := t } = .ok session) :
    run c t = .ok session :=
  run_of_run? (comesTo_of_loop h (not_isCut_ok session)).visitAll_eq

theorem run_eq_ok_iff_run? : run c t = .ok session ↔ run? c t = some (.ok session) := by
  refine ⟨fun h => ?_, run_of_run?⟩
  rw [run] at h
  cases hpass : run? c t with
  | none =>
      rw [hpass] at h
      cases h
  | some result =>
      rw [hpass, Option.getD_some] at h
      rw [h]

/-- A pass that succeeds does so within some bound. -/
theorem run_eq_ok_iff : run c t = .ok session ↔ ∃ fuel, loop c fuel [t.root] { tree := t }
    = .ok session := by
  refine ⟨fun h => ?_, fun ⟨fuel, hloop⟩ => run_of_loop hloop⟩
  obtain ⟨n, hn⟩ := (comesTo_of_visitAll (run_eq_ok_iff_run?.1 h)).exists_loop
  exact ⟨n, hn n (Nat.le_refl n)⟩

end Runs

/-! ## Passes over given texts -/

/-- The context of a pass with the built-in labels that strips nothing. -/
def plainContext : ExpansionContext :=
  ⟨⟨"a.js", "/a.js"⟩, LabelTable.defaults, "LOG", none, ⟨none, ⟨[], [], []⟩⟩⟩

/-- The pass over a small tree, with a bound that it does not meet. -/
def shortRun (c : ExpansionContext) (t : Tree) : Except (Diagnostic × Session) Session :=
  loop c 100 [t.root] { tree := t }

/-- What is seen of a text and of a successful pass over it. -/
def observe {α : Type} (c : ExpansionContext) (see : Tree → Session → α) (text : String) : Option α :=
  (Program.parse .source text).toOption.bind fun t => (shortRun c t).toOption.map (see t)

theorem exists_of_observe {α : Type} {c : ExpansionContext} {see : Tree → Session → α} {text : String}
    {seen : α} (h : observe c see text = some seen) :
    ∃ (t : Tree) (session : Session), Program.parse .source text = .ok t ∧
      run c t = .ok session ∧ see t session = seen := by
  obtain ⟨t, ht, h⟩ := Option.bind_eq_some_iff.1 h
  obtain ⟨session, hsession, hseen⟩ := Option.map_eq_some_iff.1 h
  exact ⟨t, session, eq_ok_of_toOption ht, run_of_loop (eq_ok_of_toOption hsession), hseen⟩

end LogLabel.Expansion
