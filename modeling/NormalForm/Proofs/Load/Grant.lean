import NormalForm.Proofs.Grammar.Run
import NormalForm.Proofs.Load.Lines

namespace NormalForm

namespace Load

open Grammar (Run Step Reachable WellFormed)

variable {g g' : Grammar}

theorem carryOut_faultless {requests : List Request} :
    carryOut g requests = (g', []) ↔ Run g (requests.map Request.edit) g' := by
  induction requests generalizing g with
  | nil =>
    constructor
    · intro h; cases h; exact .nil
    · intro h; cases h; rfl
  | cons request rest ih =>
    cases ha : g.apply request.edit with
    | ok m =>
      simp only [carryOut, ha, List.map_cons]
      constructor
      · intro h
        exact .cons (Grammar.step_of_apply ha) (ih.mp h)
      · intro h
        cases h with
        | @cons _ m' _ _ _ step more =>
          have same : m = m' := by simpa [ha] using Grammar.apply_of_step step
          subst same
          exact ih.mpr more
    | error e =>
      simp only [carryOut, ha, List.map_cons]
      constructor
      · intro h; simp at h
      · intro h
        cases h with
        | cons step more => simp [Grammar.apply_of_step step] at ha

theorem grant_eq_ok_iff {requests : List Request} :
    grant g requests = .ok g' ↔ Run g (requests.map Request.edit) g' := by
  rw [← carryOut_faultless]
  unfold grant
  split
  · rename_i last h
    simp [h]
  · rename_i last faults faulty h
    simp only [reduceCtorEq, h, Prod.mk.injEq, false_iff, not_and]
    intro _ clean
    exact faulty clean

/-- All symbols of pairs are defined, and the edits of the three stages are accepted in turn. -/
theorem assemble_eq_ok_iff {mode : LoadMode} {rules : List Rule} :
    assemble mode rules = .ok g ↔ undefinedSymbols rules = [] ∧
      ∃ registered started, Run (.empty mode.guardsStart)
        ((symbolRequests rules).map Request.edit) registered ∧
      Run registered ((startRequests mode rules).map Request.edit) started ∧
      Run started ((productionRequests rules).map Request.edit) g := by
  unfold assemble
  split
  · rename_i clean
    simp only [clean, true_and, ← grant_eq_ok_iff]
    cases h : grant (.empty mode.guardsStart) (symbolRequests rules) with
    | error faults => simp [bind, Except.bind]
    | ok registered =>
      cases hs : grant registered (startRequests mode rules) with
      | error faults => simp [bind, Except.bind, hs]
      | ok started => simp [bind, Except.bind, hs]
  · rename_i faults faulty
    simp only [reduceCtorEq, false_iff, not_and]
    intro clean
    exact absurd clean faulty

theorem reachable_of_assemble {mode : LoadMode} {rules : List Rule}
    (h : assemble mode rules = .ok g) : Reachable mode.guardsStart g := by
  obtain ⟨_, registered, started, first, second, third⟩ := assemble_eq_ok_iff.mp h
  exact third.reachable (second.reachable (first.reachable (Grammar.reachable_empty _)))

theorem inFile_eq_ok_iff {file : Path} {result : Except (List Fault) Grammar} :
    inFile file result = .ok g ↔ result = .ok g :=
  mapError_eq_ok_iff

theorem ofLines_eq_ok_iff {mode : LoadMode} {lines : List (Option (List Char))} :
    ofLines mode lines = .ok g ↔
      ∃ rules, readRules lines = .ok rules ∧ assemble mode rules = .ok g :=
  bind_eq_ok_iff

theorem reachable_of_ofLines {mode : LoadMode} {lines : List (Option (List Char))}
    (h : ofLines mode lines = .ok g) : Reachable mode.guardsStart g := by
  obtain ⟨rules, _, h⟩ := ofLines_eq_ok_iff.mp h
  exact reachable_of_assemble h

theorem reachable_of_ofText {file : Path} {mode : LoadMode} {text : List Char}
    (h : ofText file mode text = .ok g) : Reachable mode.guardsStart g :=
  reachable_of_ofLines (inFile_eq_ok_iff.mp h)

theorem reachable_of_ofContents {file : Path} {mode : LoadMode}
    {contents : Except FileError (List UInt8)} (h : ofContents file mode contents = .ok g) :
    Reachable mode.guardsStart g := by
  unfold ofContents at h
  split at h
  · cases h
  · exact reachable_of_ofLines (inFile_eq_ok_iff.mp h)

end Load

namespace Grammar

/-- Where a grammar comes from: a history of edits, accepted or refused, or the text or the contents
of a file. -/
inductive Made (guardsStart : Bool) (g : Grammar) : Prop
  | byHistory (history : List Edit) : g = (empty guardsStart).afterAll history → Made guardsStart g
  | byText (file : Path) (mode : LoadMode) (text : List Char) : mode.guardsStart = guardsStart →
      Load.ofText file mode text = .ok g → Made guardsStart g
  | byFile (file : Path) (mode : LoadMode) (contents : Except FileError (List UInt8)) :
      mode.guardsStart = guardsStart → Load.ofContents file mode contents = .ok g →
      Made guardsStart g

theorem Made.reachable {guardsStart : Bool} {g : Grammar} (made : Made guardsStart g) :
    Reachable guardsStart g := by
  cases made with
  | byHistory history h => exact ⟨history, h⟩
  | byText file mode text guard h => exact guard ▸ Load.reachable_of_ofText h
  | byFile file mode contents guard h => exact guard ▸ Load.reachable_of_ofContents h

/-- **Every grammar is well formed**, after any history and after any load. No character has both
roles, so the role of a nonterminal is never hidden, and the entries are those of the nonterminals.
-/
theorem made_wellFormed {guardsStart : Bool} {g : Grammar} (made : Made guardsStart g) :
    WellFormed guardsStart g ∧ (∀ c, c ∈ g.nonterminals → c ∉ g.terminals) ∧
      (∀ c, g.role? c = some (.nonterminal c) ↔ c ∈ g.nonterminals) ∧
      ∀ A, (g.productions.lookup A).isSome = true ↔ A ∈ g.nonterminals := by
  have wf := made.reachable.wellFormed
  exact ⟨wf, fun _ => wf.not_terminal, wf.role_iff, wf.entry_iff⟩

/-- Edits of which every other one is refused, with a clearing between them. -/
def faltering : List Edit :=
  [ .nonterminal 'A', .nonterminal 'a', .terminal 'a', .terminal 'a', .production 'A' ['a'],
    .production 'A' ['A'], .clear, .start 'A', .nonterminal 'S', .production 'S' ['a'], .start 'S',
    .nonterminal 'S', .production 'S' ['S', 'S'], .production 'S' ['S', 'A'] ]

theorem made_wellFormed_faltering :
    let g := (empty false).afterAll faltering
    Made false g ∧ g.bodies 'S' = [.pair 'S' 'S'] ∧ g.terminals = [] ∧
      WellFormed false g ∧ g.role? 'S' = some (.nonterminal 'S') := by
  have made : Made false ((empty false).afterAll faltering) := .byHistory faltering rfl
  obtain ⟨wf, _, role, _⟩ := made_wellFormed made
  exact ⟨made, by decide +kernel, by decide +kernel, wf, (role 'S').mpr (by decide +kernel)⟩

end Grammar

end NormalForm
