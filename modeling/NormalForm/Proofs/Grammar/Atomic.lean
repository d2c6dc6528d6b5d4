import NormalForm.Grammar.InPlace
import NormalForm.Proofs.Grammar.Objections
import NormalForm.Proofs.Grammar.Run
import NormalForm.Proofs.Outcome

namespace NormalForm.Grammar

variable {guardsStart : Bool} {g g' : Grammar}

theorem store_new {A : Char} {bodies : List Body} {entries : List (Char × List Body)}
    (new : A ∉ entries.map Prod.fst) : store A bodies entries = entries ++ [(A, bodies)] := by
  induction entries with
  | nil => rfl
  | cons entry rest ih =>
    obtain ⟨differ, new⟩ := not_or.mp (mt List.mem_cons.mpr new)
    rw [store, if_neg (Ne.symm differ), ih new, List.cons_append]

theorem store_old {A : Char} {old bodies : List Body} {before after : List (Char × List Body)}
    (new : A ∉ before.map Prod.fst) :
    store A bodies (before ++ (A, old) :: after) = before ++ (A, bodies) :: after := by
  induction before with
  | nil => exact if_pos rfl
  | cons entry before ih =>
    obtain ⟨differ, new⟩ := not_or.mp (mt List.mem_cons.mpr new)
    rw [List.cons_append, store, if_neg (Ne.symm differ), ih new, List.cons_append]

/-- A nonterminal has one entry, which holds its bodies. -/
theorem WellFormed.exists_entry (wf : WellFormed guardsStart g) {A : Char}
    (known : A ∈ g.nonterminals) : ∃ before after,
      g.productions = before ++ (A, g.bodies A) :: after ∧ A ∉ before.map Prod.fst ∧
        A ∉ after.map Prod.fst := by
  have nodup := wf.nonterminals_nodup
  rw [← wf.keys] at known nodup
  obtain ⟨entry, he, rfl⟩ := List.mem_map.mp known
  have bodies : g.bodies entry.1 = entry.2 := by simp [Grammar.bodies, lookup_of_mem nodup he]
  obtain ⟨before, after, split⟩ := List.append_of_mem he
  rw [split, List.map_append, List.map_cons] at nodup
  obtain ⟨_, single, apart⟩ := List.nodup_append.mp nodup
  refine ⟨before, after, by rw [bodies, split], ?_, (List.nodup_cons.mp single).1⟩
  intro earlier
  exact apart _ earlier _ (List.mem_cons_self ..) rfl

/-- Adding a body writes to one entry. -/
theorem append_eq {A : Char} {body : Body} {bodies : List Body}
    {before after : List (Char × List Body)}
    (split : g.productions = before ++ (A, bodies) :: after) (first : A ∉ before.map Prod.fst)
    (last : A ∉ after.map Prod.fst) :
    g.append A body = { g with productions := before ++ (A, bodies ++ [body]) :: after } := by
  have kept {entries : List (Char × List Body)} (absent : A ∉ entries.map Prod.fst) :
      (entries.map fun entry =>
        if entry.1 = A then (entry.1, entry.2 ++ [body]) else entry) = entries := by
    calc
      _ = entries.map id := by
        apply List.map_congr_left
        intro entry he
        exact if_neg fun (same : entry.1 = A) => absent (same ▸ List.mem_map_of_mem he)
      _ = entries := List.map_id _
  simp [append, split, kept first, kept last]

theorem WellFormed.withEntry_eq (wf : WellFormed guardsStart g) {A : Char}
    (known : A ∈ g.nonterminals) : g.withEntry A = g :=
  if_pos ((wf.entry_iff A).mpr known)

theorem WellFormed.withBodies_eq (wf : WellFormed guardsStart g) {A : Char} (body : Body)
    (known : A ∈ g.nonterminals) : g.withBodies A (g.bodies A ++ [body]) = g.append A body := by
  obtain ⟨before, after, split, first, last⟩ := wf.exists_entry known
  rw [append_eq split first last, withBodies]
  congr 1
  conv => lhs; rw [split]
  exact store_old first

/-- The ending of an outcome, with the grammar that is there after it. -/
def leave (g : Grammar) : Except EditError Grammar → Except EditError Unit × Grammar
  | .ok g' => (.ok (), g')
  | .error e => (.error e, g)

theorem leave_ite {flaw : Prop} [Decidable flaw] {e : EditError}
    {outcome : Except EditError Grammar} :
    g.leave (if flaw then .error e else outcome) =
      if flaw then (.error e, g) else g.leave outcome := by
  split <;> rfl

theorem run_refuseIf {flaw : Grammar → Prop} [DecidablePred flaw] {e : EditError}
    {next : Unit → Writing Unit} :
    (refuseIf flaw e >>= next).run.run g =
      if flaw g then (.error e, g) else (next ()).run.run g := by
  have checked : (refuseIf flaw e).run.run g = (if flaw g then .error e else .ok (), g) := by
    change (if flaw g then throw e else pure () : Writing Unit).run.run g = _
    split <;> rfl
  rw [run_bind, checked]
  by_cases h : flaw g <;> simp [h]

theorem run_readNow {head : Char} {text : List Char} {next : Body → Writing Unit} :
    (readNow head text >>= next).run.run g =
      match g.readBody head text with
      | .ok body => (next body).run.run g
      | .error e => (.error e, g) := by
  have read : (readNow head text).run.run g = (g.readBody head text, g) := by
    change (match g.readBody head text with
      | .ok body => pure body
      | .error e => throw e : Writing Body).run.run g = _
    cases g.readBody head text <;> rfl
  rw [run_bind, read]
  cases g.readBody head text <;> rfl

theorem run_modify {change : Grammar → Grammar} {next : Unit → Writing Unit} :
    (modify change >>= next).run.run g = (next ()).run.run (change g) := rfl

theorem WellFormed.written_production (wf : WellFormed guardsStart g) (head : Char)
    (text : List Char) :
    g.written (.production head text) = g.leave (g.withProduction head text) := by
  rw [withProduction_eq, leave_ite, written, write, writeProduction, run_refuseIf]
  split
  · rfl
  · rename_i known
    have known : head ∈ g.nonterminals := Decidable.not_not.mp known
    rw [run_readNow]
    cases g.readBody head text with
    | error e => rfl
    | ok body =>
      dsimp only
      rw [run_modify, wf.withEntry_eq known, run_refuseIf, Except.bind, acceptBody, leave_ite,
        ← wf.withBodies_eq body known]
      rfl

/-- The writes of an edit make what the edit makes, and leave no trace of a refused one. -/
theorem WellFormed.written_eq (wf : WellFormed guardsStart g) (edit : Edit) :
    g.written edit = g.leave (g.apply edit) := by
  cases edit with
  | nonterminal A =>
    simp only [written, write, writeNonterminal, run_refuseIf, apply, withNonterminal, leave_ite,
      Bool.not_eq_true']
    split
    · rfl
    · split
      · rfl
      · rename_i new
        rw [← wf.keys] at new
        rw [run_modify]
        change (_, Grammar.withBodies _ A []) = _
        rw [withBodies, store_new new]
        rfl
  | terminal a =>
    simp only [written, write, writeTerminal, run_refuseIf, apply, withTerminal, leave_ite,
      Bool.not_eq_true']
    rfl
  | start A =>
    simp only [written, write, writeStart, run_refuseIf, apply, withStart,
      ← ite_not (A ∈ g.nonterminals), leave_ite]
    rfl
  | production head text => exact wf.written_production head text
  | clear => rfl

/-- What differs in the grammar after an accepted edit. -/
def Changes (g : Grammar) (g' : Grammar) : Edit → Prop
  | .nonterminal A => g' = { g with
      nonterminals := g.nonterminals ++ [A]
      productions := g.productions ++ [(A, [])] }
  | .terminal a => g' = { g with terminals := g.terminals ++ [a] }
  | .start A => g' = { g with start := some A }
  | .production head text => ∃ before after bodies body, Body.text body = text ∧
      g.productions = before ++ (head, bodies) :: after ∧
      g' = { g with productions := before ++ (head, bodies ++ [body]) :: after }
  | .clear => g' = empty g.guardsStart

theorem WellFormed.changes (wf : WellFormed guardsStart g) {edit : Edit} (step : Step g edit g') :
    Changes g g' edit := by
  cases step with
  | nonterminal | terminal | start | clear => rfl
  | @production head body known allowed new =>
    obtain ⟨before, after, split, first, last⟩ := wf.exists_entry known
    exact ⟨before, after, g.bodies head, body, rfl, split, append_eq split first last⟩

/-- Every list of the grammar continues the same list of another. -/
structure Continues (g g' : Grammar) : Prop where
  nonterminals : g.nonterminals <+: g'.nonterminals
  terminals : g.terminals <+: g'.terminals
  bodies : ∀ A, g.bodies A <+: g'.bodies A

theorem continues_refl (g : Grammar) : g.Continues g :=
  ⟨List.prefix_rfl, List.prefix_rfl, fun _ => List.prefix_rfl⟩

theorem Continues.trans {h : Grammar} (first : g.Continues g') (second : g'.Continues h) :
    g.Continues h :=
  ⟨first.nonterminals.trans second.nonterminals, first.terminals.trans second.terminals,
    fun A => (first.bodies A).trans (second.bodies A)⟩

theorem WellFormed.step_continues (wf : WellFormed guardsStart g) {edit : Edit}
    (step : Step g edit g') (kept : edit ≠ .clear) : g.Continues g' := by
  cases step with
  | @nonterminal A _ _ =>
    refine ⟨⟨[A], rfl⟩, List.prefix_rfl, fun B => ⟨[], ?_⟩⟩
    rw [bodies_register, List.append_nil]
  | @terminal a _ _ => exact ⟨List.prefix_rfl, ⟨[a], rfl⟩, fun _ => List.prefix_rfl⟩
  | start _ => exact ⟨List.prefix_rfl, List.prefix_rfl, fun _ => List.prefix_rfl⟩
  | @production head body known _ _ =>
    refine ⟨List.prefix_rfl, List.prefix_rfl, fun A => ?_⟩
    by_cases hA : A = head
    · subst hA
      exact ⟨[body], (bodies_append_self g body (wf.keys ▸ known)).symm⟩
    · exact ⟨[], by rw [bodies_append_of_ne g body hA, List.append_nil]⟩
  | clear => exact absurd rfl kept

theorem Reachable.continues (reach : Reachable guardsStart g) {history : List Edit}
    (kept : .clear ∉ history) : g.Continues (g.afterAll history) := by
  induction history generalizing g with
  | nil => exact continues_refl g
  | cons edit rest ih =>
    obtain ⟨differ, kept⟩ := not_or.mp (mt List.mem_cons.mpr kept)
    have next : g.Continues (g.after edit) := by
      rcases after_cases g edit with step | same
      · exact reach.wellFormed.step_continues step (Ne.symm differ)
      · rw [same]
        exact continues_refl g
    exact next.trans (ih (reach.after edit) kept)

/-- **An edit happens as a whole or not at all.** It is refused for the first thing that speaks
against it and accepted if nothing does. Refused, it leaves the grammar as it was, also when its
writes are made in place; accepted, it changes what its kind says and nothing else. So as long as
nothing is cleared, each list begins with what it was before. -/
theorem edits_whole (reach : Reachable guardsStart g) :
    (∀ edit,
      (∀ e, g.apply edit = .error e ↔ (g.objections edit).head? = some e) ∧
      ((∃ g', g.apply edit = .ok g') ↔ g.objections edit = []) ∧
      (∀ e, g.apply edit = .error e → g.after edit = g ∧ g.written edit = (.error e, g)) ∧
      (∀ g', g.apply edit = .ok g' →
        g.after edit = g' ∧ g.written edit = (.ok (), g') ∧ Changes g g' edit)) ∧
    ∀ history, .clear ∉ history → g.Continues (g.afterAll history) := by
  have wf := reach.wellFormed
  refine ⟨fun edit => ⟨fun e => ?_, ?_, fun e refused => ?_, fun g' accepted => ?_⟩, ?_⟩
  · exact (settles_apply g edit).error_iff
  · exact (settles_apply g edit).ok_iff
  · exact ⟨by simp [after, refused], by rw [wf.written_eq, refused, leave]⟩
  · exact ⟨by simp [after, accepted], by rw [wf.written_eq, accepted, leave],
      wf.changes (step_of_apply accepted)⟩
  · exact fun history kept => reach.continues kept

/-- A guarded grammar with one production. -/
def budding : List Edit :=
  [.nonterminal 'S', .nonterminal 'A', .start 'S', .production 'S' ['A', 'A']]

theorem edits_whole_budding :
    let g := (empty true).afterAll budding
    Reachable true g ∧
      g.objections (.production 'A' ['S', 'B']) =
        [.undefinedNonterminal 'B', .misplacedStart 'S'] ∧
      g.apply (.production 'A' ['S', 'B']) = .error (.undefinedNonterminal 'B') ∧
      g.written (.production 'S' ['A', 'A']) =
        (.error (.repeatedProduction 'S' (.pair 'A' 'A')), g) ∧
      (∃ g', g.apply (.terminal 'a') = .ok g' ∧ Changes g g' (.terminal 'a')) ∧
      g.Continues (g.afterAll [.terminal 'a', .production 'A' ['a'], .start 'A']) := by
  have reach : Reachable true ((empty true).afterAll budding) := ⟨budding, rfl⟩
  obtain ⟨each, continues⟩ := edits_whole reach
  obtain ⟨refused, _⟩ := each (.production 'A' ['S', 'B'])
  obtain ⟨_, _, kept, _⟩ := each (.production 'S' ['A', 'A'])
  obtain ⟨_, _, _, changes⟩ := each (.terminal 'a')
  refine ⟨reach, rfl, (refused _).mpr rfl, (kept _ rfl).2, ⟨_, rfl, (changes _ rfl).2.2⟩, ?_⟩
  exact continues _ (by decide)

end NormalForm.Grammar
