import NormalForm.Proofs.Grammar.Atomic
import NormalForm.Proofs.Grammar.History
import NormalForm.Proofs.Table.Inclusion

namespace NormalForm

/-- The edit registers a symbol or adds a production. -/
def Edit.Adds : Edit → Prop
  | .nonterminal _ | .terminal _ | .production _ _ => True
  | .start _ | .clear => False

namespace Grammar

variable {guardsStart : Bool} {g g' : Grammar} {edit : Edit} {history : List Edit}

theorem Step.start_eq (step : Step g edit g') (adds : edit.Adds) : g'.start = g.start := by
  cases step with
  | nonterminal | terminal | production => rfl
  | start | clear => cases adds

theorem Step.bodies_eq (step : Step g edit g') (adds : edit.Adds)
    (other : ∀ head text, edit ≠ .production head text) (A : Char) :
    g'.bodies A = g.bodies A := by
  cases step with
  | nonterminal => exact bodies_register ..
  | terminal => rfl
  | production => exact absurd rfl (other _ _)
  | start | clear => cases adds

/-- Some production of the history is accepted. -/
def GainsProduction (g : Grammar) (history : List Edit) : Prop :=
  ∃ before head text after, history = before ++ .production head text :: after ∧
    g.Accepts before (.production head text)

theorem start_afterAll (adds : ∀ edit ∈ history, edit.Adds) :
    (g.afterAll history).start = g.start := by
  induction history generalizing g with
  | nil => rfl
  | cons edit rest ih =>
    obtain ⟨first, adds⟩ := List.forall_mem_cons.mp adds
    have now : (g.after edit).start = g.start := by
      rcases after_cases g edit with step | same
      · exact step.start_eq first
      · rw [same]
    exact (ih adds).trans now

theorem bodies_afterAll (adds : ∀ edit ∈ history, edit.Adds)
    (idle : ¬ g.GainsProduction history) (A : Char) :
    (g.afterAll history).bodies A = g.bodies A := by
  induction history generalizing g with
  | nil => rfl
  | cons edit rest ih =>
    obtain ⟨first, adds⟩ := List.forall_mem_cons.mp adds
    have later : ¬ (g.after edit).GainsProduction rest := by
      rintro ⟨before, head, text, after, rfl, accepted⟩
      exact idle ⟨edit :: before, head, text, after, rfl, accepted⟩
    have now : (g.after edit).bodies A = g.bodies A := by
      rcases after_cases g edit with step | same
      · apply step.bodies_eq first
        rintro head text rfl
        exact idle ⟨[], head, text, rest, rfl, _, apply_of_step step⟩
      · rw [same]
    exact (ih adds later).trans now

theorem Reachable.afterAll (reach : Reachable guardsStart g) (history : List Edit) :
    Reachable guardsStart (g.afterAll history) := by
  obtain ⟨earlier, rfl⟩ := reach
  exact ⟨earlier ++ history, by simp only [Grammar.afterAll, List.foldl_append]⟩

theorem startFor_of_more {word : List Char} {S : Char} (start : g'.start = g.start)
    (more : g.terminals ⊆ g'.terminals) (looked : g.startFor word = .ok S) :
    g'.startFor word = .ok S := by
  obtain ⟨letters, set, known⟩ := startFor_eq_ok_iff.mp looked
  exact startFor_eq_ok_iff.mpr ⟨letters, start.trans set, fun a ha => more (known a ha)⟩

/-- **Extending a grammar never loses a word.** Whatever symbols are registered and productions
added, a word that has a table keeps one, in which each cell holds all that it held before, and a
word that was recognized still is. The table is the same if no production was accepted. -/
theorem extension_keeps_cells (reach : Reachable guardsStart g)
    (adds : ∀ edit ∈ history, edit.Adds) {word : List Char} {t : Table}
    (h : g.table word = .ok t) :
    ∃ t', (g.afterAll history).table word = .ok t' ∧ t.Within t' ∧
      (g.recognizes word = .ok true → (g.afterAll history).recognizes word = .ok true) ∧
      (¬ g.GainsProduction history → t' = t) := by
  have wf := reach.wellFormed
  have wf' := (reach.afterAll history).wellFormed
  have kept : .clear ∉ history := fun cleared => adds .clear cleared
  have continues := reach.continues kept
  have more (A : Char) : g.bodies A ⊆ (g.afterAll history).bodies A :=
    (continues.bodies A).subset
  obtain ⟨⟨S, looked⟩, rfl⟩ := table_eq_ok_iff.mp h
  have looked' := startFor_of_more (start_afterAll adds) continues.terminals.subset looked
  have within := fill_within wf' more word (word.length - 1)
  refine ⟨_, table_eq_ok_iff.mpr ⟨⟨S, looked'⟩, rfl⟩, within, ?_, ?_⟩
  · intro recognized
    obtain ⟨T, looked'', accepted⟩ := recognizes_eq_ok_iff.mp recognized
    cases looked.symm.trans looked''
    exact recognizes_eq_ok_iff.mpr ⟨S, looked', within.accepts accepted⟩
  · intro idle
    apply fill_eq wf' wf
    intro A body
    rw [bodies_afterAll adds idle]

/-- Edits that add to the textbook grammar, some of which are refused. -/
def additions : List Edit :=
  [ .nonterminal 'D', .terminal 'A', .production 'B' ['a'], .production 'B' ['a'],
    .nonterminal 'B', .production 'D' ['S', 'D'], .production 'S' ['B', 'B'], .terminal 'd' ]

/-- Edits of which only those that register symbols are accepted. -/
def registrations : List Edit := [.nonterminal 'D', .production 'D' ['S', 'D'], .terminal 'd']

theorem registrations_gain_nothing :
    ¬ ((empty true).afterAll textbook).GainsProduction registrations := by
  rintro ⟨before, head, text, after, split, g', accepted⟩
  -- Only the second edit adds a production, and the guard refuses it.
  rcases before with _ | ⟨_, _ | ⟨_, _ | ⟨_, before⟩⟩⟩
  · cases split
  · cases split
    have refused : (((empty true).afterAll textbook).afterAll [.nonterminal 'D']).apply
        (.production 'D' ['S', 'D']) = .error (.misplacedStart 'S') := by decide +kernel
    cases refused.symm.trans accepted
  · cases split
  · simp [registrations] at split

theorem extension_keeps_cells_textbook :
    let g := (empty true).afterAll textbook
    Reachable true g ∧ g.recognizes ['b', 'b'] = .ok false ∧ g.recognizes ['a', 'b'] = .ok true ∧
      (∀ edit ∈ additions, edit.Adds) ∧
      (g.afterAll additions).recognizes ['b', 'b'] = .ok true ∧
      (g.afterAll additions).recognizes ['a', 'b'] = .ok true ∧
      (∀ edit ∈ registrations, edit.Adds) ∧ ¬ g.GainsProduction registrations ∧
      ∃ t, g.table ['a', 'b'] = .ok t ∧ (g.afterAll registrations).table ['a', 'b'] = .ok t := by
  intro g
  have reach : Reachable true g := ⟨textbook, rfl⟩
  have adds : ∀ edit ∈ additions, edit.Adds := by simp [additions, Edit.Adds]
  have adds' : ∀ edit ∈ registrations, edit.Adds := by simp [registrations, Edit.Adds]
  have recognized : g.recognizes ['a', 'b'] = .ok true := by decide +kernel
  obtain ⟨t, found⟩ : ∃ t, g.table ['a', 'b'] = .ok t := ⟨_, rfl⟩
  obtain ⟨_, _, _, kept, _⟩ := extension_keeps_cells reach adds found
  obtain ⟨_, found', _, _, same⟩ := extension_keeps_cells reach adds' found
  refine ⟨reach, by decide +kernel, recognized, adds, by decide +kernel, kept recognized, adds',
    registrations_gain_nothing, t, found, ?_⟩
  rw [found', same registrations_gain_nothing]

end Grammar

end NormalForm
