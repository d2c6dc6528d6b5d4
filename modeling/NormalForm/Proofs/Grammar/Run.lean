import NormalForm.Proofs.Grammar.WellFormed

namespace NormalForm.Grammar

open Unicode

/-- A history none of whose edits is refused. -/
inductive Run : Grammar → List Edit → Grammar → Prop
  | nil {g : Grammar} : Run g [] g
  | cons {g m g' : Grammar} {edit : Edit} {edits : List Edit} :
      Step g edit m → Run m edits g' → Run g (edit :: edits) g'

variable {guardsStart : Bool} {g g' : Grammar}

theorem run_append {xs ys : List Edit} :
    Run g (xs ++ ys) g' ↔ ∃ m, Run g xs m ∧ Run m ys g' := by
  induction xs generalizing g with
  | nil =>
    constructor
    · intro h; exact ⟨g, .nil, h⟩
    · rintro ⟨m, hx, hy⟩; cases hx; exact hy
  | cons edit xs ih =>
    constructor
    · intro h
      cases h with
      | cons step rest =>
        obtain ⟨m, hx, hy⟩ := ih.mp rest
        exact ⟨m, .cons step hx, hy⟩
    · rintro ⟨m, hx, hy⟩
      cases hx with
      | cons step rest => exact .cons step (ih.mpr ⟨m, rest, hy⟩)

theorem Run.afterAll_eq {edits : List Edit} (h : Run g edits g') : g.afterAll edits = g' := by
  induction h with
  | nil => rfl
  | @cons g m g' edit edits step _ ih =>
    rw [Grammar.afterAll, List.foldl_cons, Grammar.after, apply_of_step step]
    exact ih

theorem Run.reachable {edits : List Edit} (h : Run g edits g') (reach : Reachable guardsStart g) :
    Reachable guardsStart g' := by
  obtain ⟨history, rfl⟩ := reach
  refine ⟨history ++ edits, ?_⟩
  rw [← h.afterAll_eq]
  simp only [Grammar.afterAll, List.foldl_append]

theorem Run.wellFormed {edits : List Edit} (h : Run g edits g') (wf : WellFormed guardsStart g) :
    WellFormed guardsStart g' := by
  induction h with
  | nil => exact wf
  | cons step _ ih => exact ih (wf.step step)

/-- Symbols that may be registered one after the other beside those that are there. -/
def Fresh (known letters : List Char) : Prop := letters.Nodup ∧ ∀ c ∈ letters, c ∉ known

theorem fresh_nil (known : List Char) : Fresh known [] := ⟨.nil, by simp⟩

theorem fresh_cons {known letters : List Char} {c : Char} :
    Fresh known (c :: letters) ↔ c ∉ known ∧ Fresh (known ++ [c]) letters := by
  simp only [Fresh, List.nodup_cons, List.forall_mem_cons, List.mem_append, List.mem_singleton,
    not_or]
  constructor
  · rintro ⟨⟨fresh, nodup⟩, new, news⟩
    exact ⟨new, nodup, fun d hd => ⟨news d hd, fun same => fresh (same ▸ hd)⟩⟩
  · rintro ⟨new, nodup, news⟩
    exact ⟨⟨fun hc => (news c hc).2 rfl, nodup⟩, new, fun d hd => (news d hd).1⟩

theorem run_nonterminals {As : List Char} :
    Run g (As.map .nonterminal) g' ↔
      (∀ A ∈ As, isUppercase A = true) ∧ Fresh g.nonterminals As ∧ g' = { g with
        nonterminals := g.nonterminals ++ As, productions := g.productions ++ As.map (·, []) } := by
  induction As generalizing g with
  | nil =>
    constructor
    · intro h; cases h; simp [fresh_nil]
    · rintro ⟨_, _, rfl⟩
      simpa using Run.nil (g := g)
  | cons A As ih =>
    constructor
    · intro h
      cases h with
      | cons step rest =>
        cases step with
        | nonterminal upper new =>
          obtain ⟨uppers, fresh, rfl⟩ := ih.mp rest
          exact ⟨List.forall_mem_cons.mpr ⟨upper, uppers⟩, fresh_cons.mpr ⟨new, fresh⟩, by simp⟩
    · rintro ⟨uppers, fresh, rfl⟩
      obtain ⟨upper, uppers⟩ := List.forall_mem_cons.mp uppers
      obtain ⟨new, fresh⟩ := fresh_cons.mp fresh
      exact .cons (.nonterminal upper new) (ih.mpr ⟨uppers, fresh, by simp⟩)

theorem run_terminals {letters : List Char} :
    Run g (letters.map .terminal) g' ↔
      (∀ a ∈ letters, isLowercase a = true) ∧ Fresh g.terminals letters ∧
        g' = { g with terminals := g.terminals ++ letters } := by
  induction letters generalizing g with
  | nil =>
    constructor
    · intro h; cases h; simp [fresh_nil]
    · rintro ⟨_, _, rfl⟩
      simpa using Run.nil (g := g)
  | cons a letters ih =>
    constructor
    · intro h
      cases h with
      | cons step rest =>
        cases step with
        | terminal lower new =>
          obtain ⟨lowers, fresh, rfl⟩ := ih.mp rest
          exact ⟨List.forall_mem_cons.mpr ⟨lower, lowers⟩, fresh_cons.mpr ⟨new, fresh⟩, by simp⟩
    · rintro ⟨lowers, fresh, rfl⟩
      obtain ⟨lower, lowers⟩ := List.forall_mem_cons.mp lowers
      obtain ⟨new, fresh⟩ := fresh_cons.mp fresh
      exact .cons (.terminal lower new) (ih.mpr ⟨lowers, fresh, by simp⟩)

theorem run_start {A : Char} :
    Run g [.start A] g' ↔ A ∈ g.nonterminals ∧ g' = { g with start := some A } := by
  constructor
  · intro h
    cases h with
    | cons step rest =>
      cases rest
      cases step with
      | start known => exact ⟨known, rfl⟩
  · rintro ⟨known, rfl⟩
    exact .cons (.start known) .nil

/-- The right-hand sides of the productions with a given head, in order. -/
def textsUnder (productions : List (Char × List Char)) (N : Char) : List (List Char) :=
  (productions.filter (·.1 = N)).map Prod.snd

/-- The head is registered, and the right-hand side spells a body that is allowed there. -/
def Admits (g : Grammar) (head : Char) (text : List Char) : Prop :=
  head ∈ g.nonterminals ∧ ∃ body : Body, body.text = text ∧ g.Allows head body

/-- A grammar has the productions of another and more after them, and differs in nothing else. -/
structure Extends (g : Grammar) (productions : List (Char × List Char)) (g' : Grammar) : Prop where
  nonterminals : g'.nonterminals = g.nonterminals
  terminals : g'.terminals = g.terminals
  start : g'.start = g.start
  guard : g'.guardsStart = g.guardsStart
  keys : g'.productions.map Prod.fst = g.productions.map Prod.fst
  texts : ∀ N, (g'.bodies N).map Body.text =
    (g.bodies N).map Body.text ++ textsUnder productions N

theorem text_injective {b c : Body} (h : b.text = c.text) : b = c := by
  cases b <;> cases c <;> cases h <;> rfl

theorem WellFormed.texts_nodup (wf : WellFormed guardsStart g) (A : Char) :
    ((g.bodies A).map Body.text).Nodup := by
  apply List.pairwise_map.mpr
  apply (wf.bodies_nodup A).imp
  intro b c differ same
  exact differ (text_injective same)

theorem allows_append {head N : Char} {b body : Body} :
    (g.append head body).Allows N b ↔ g.Allows N b := by
  cases b <;> exact Iff.rfl

theorem admits_append {head N : Char} {body : Body} {text : List Char} :
    (g.append head body).Admits N text ↔ g.Admits N text := by
  simp only [Admits, allows_append]
  exact Iff.rfl

/-- One body moves from the productions to come to those that are there. -/
theorem texts_append {head : Char} {body : Body} (known : head ∈ g.productions.map Prod.fst)
    (rest : List (Char × List Char)) (N : Char) :
    ((g.append head body).bodies N).map Body.text ++ textsUnder rest N =
      (g.bodies N).map Body.text ++ textsUnder ((head, body.text) :: rest) N := by
  by_cases hN : N = head
  · subst hN
    simp [bodies_append_self g body known, textsUnder]
  · simp [bodies_append_of_ne g body hN, textsUnder, Ne.symm hN]

theorem Run.extends {productions : List (Char × List Char)} (wf : WellFormed guardsStart g)
    (h : Run g (productions.map fun p => .production p.1 p.2) g') :
    (∀ p ∈ productions, g.Admits p.1 p.2) ∧ Extends g productions g' := by
  induction productions generalizing g with
  | nil =>
    cases h
    exact ⟨by simp, ⟨rfl, rfl, rfl, rfl, rfl, by simp [textsUnder]⟩⟩
  | cons p rest ih =>
    cases h with
    | cons step more =>
      obtain ⟨head, text⟩ := p
      have next := wf.step step
      cases step with
      | @production _ body known allowed new =>
        obtain ⟨admits, ext⟩ := ih next more
        refine ⟨List.forall_mem_cons.mpr ⟨⟨known, body, rfl, allowed⟩, fun q hq =>
          admits_append.mp (admits q hq)⟩, ?_⟩
        exact ⟨ext.nonterminals, ext.terminals, ext.start, ext.guard,
          ext.keys.trans (append_keys g head body), fun N =>
            (ext.texts N).trans (texts_append (wf.keys ▸ known) rest N)⟩

theorem exists_run_productions {productions : List (Char × List Char)}
    (wf : WellFormed guardsStart g) (admits : ∀ p ∈ productions, g.Admits p.1 p.2)
    (nodup : ∀ N, ((g.bodies N).map Body.text ++ textsUnder productions N).Nodup) :
    ∃ g', Run g (productions.map fun p => .production p.1 p.2) g' := by
  induction productions generalizing g with
  | nil => exact ⟨g, .nil⟩
  | cons p rest ih =>
    obtain ⟨head, text⟩ := p
    obtain ⟨⟨known, body, rfl, allowed⟩, others⟩ := List.forall_mem_cons.mp admits
    have keyed : head ∈ g.productions.map Prod.fst := wf.keys ▸ known
    have new : body ∉ g.bodies head := by
      intro old
      have split := List.nodup_append.mp (nodup head)
      exact split.2.2 body.text (List.mem_map_of_mem old) body.text (by simp [textsUnder]) rfl
    have step := Step.production known allowed new
    obtain ⟨g', more⟩ := ih (wf.step step) (fun q hq => admits_append.mpr (others q hq))
      (fun N => by rw [texts_append keyed]; exact nodup N)
    exact ⟨g', .cons step more⟩

theorem lookup_of_mem {entries : List (Char × List Body)} (nodup : (entries.map Prod.fst).Nodup)
    {entry : Char × List Body} (h : entry ∈ entries) : entries.lookup entry.1 = some entry.2 := by
  induction entries with
  | nil => cases h
  | cons first rest ih =>
    obtain ⟨absent, nodup⟩ := List.nodup_cons.mp nodup
    rcases List.mem_cons.mp h with rfl | h
    · exact List.lookup_cons_self
    · have differ : (entry.1 == first.1) = false := by
        apply beq_false_of_ne
        intro same
        exact absent (same ▸ List.mem_map_of_mem h)
      rw [List.lookup_cons, differ]
      exact ih nodup h

/-- The entries are the nonterminals with their bodies. -/
theorem productions_eq (keys : g.productions.map Prod.fst = g.nonterminals)
    (nodup : g.nonterminals.Nodup) :
    g.productions = g.nonterminals.map fun A => (A, g.bodies A) := by
  rw [← keys] at nodup ⊢
  calc
    g.productions = g.productions.map id := (List.map_id _).symm
    _ = g.productions.map fun entry => (entry.1, g.bodies entry.1) := by
      apply List.map_congr_left
      intro entry h
      simp [bodies, lookup_of_mem nodup h]
    _ = _ := by rw [List.map_map]; rfl

theorem eq_of_bodies {h : Grammar} (nonterminals : h.nonterminals = g.nonterminals)
    (terminals : h.terminals = g.terminals) (start : h.start = g.start)
    (guard : h.guardsStart = g.guardsStart) (nodup : g.nonterminals.Nodup)
    (keys : g.productions.map Prod.fst = g.nonterminals)
    (keys' : h.productions.map Prod.fst = h.nonterminals)
    (same : ∀ A, (h.bodies A).map Body.text = (g.bodies A).map Body.text) : h = g := by
  have entries : h.productions = g.productions := by
    rw [productions_eq keys nodup, productions_eq keys' (nonterminals ▸ nodup), nonterminals]
    apply List.map_congr_left
    intro A _
    rw [(List.map_inj_right fun _ _ => text_injective).mp (same A)]
  cases h
  cases g
  cases nonterminals
  cases terminals
  cases entries
  cases start
  cases guard
  rfl

end NormalForm.Grammar
