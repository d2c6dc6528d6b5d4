import NormalForm.Grammar.Edit

/-! # Accepted edits

What each accepted edit checked and what it changed, said once. Later proofs go by the cases of
`Step` and the lemmas on `bodies`, and unfold no edit. -/

namespace NormalForm.Grammar

open Unicode

/-- Adding to one entry of an association list changes what is found under its key only. -/
theorem lookup_extend (entries : List (Char × List Body)) (head : Char) (body : Body) (A : Char) :
    (entries.map fun e => if e.1 = head then (e.1, e.2 ++ [body]) else e).lookup A =
      (entries.lookup A).map fun bodies => if A = head then bodies ++ [body] else bodies := by
  induction entries with
  | nil => rfl
  | cons e rest ih =>
    obtain ⟨key, bodies⟩ := e
    by_cases hk : A = key
    · subst hk
      by_cases hh : A = head
      · simp [hh]
      · simp [hh]
    · have hb : (A == key) = false := by simpa using hk
      by_cases hh : key = head
      · simpa [List.lookup_cons, hh, hb, hh ▸ hb] using ih
      · simpa [List.lookup_cons, hh, hb] using ih

theorem bodies_append_of_ne (g : Grammar) {head A : Char} (body : Body) (h : A ≠ head) :
    (g.append head body).bodies A = g.bodies A := by
  simp [bodies, append, lookup_extend, h]

/-- A character has an entry in an association list exactly if it is one of the keys. -/
theorem lookup_isSome {α : Type} {entries : List (Char × α)} {A : Char} :
    (entries.lookup A).isSome = true ↔ A ∈ entries.map Prod.fst := by
  rw [List.lookup_isSome_iff, List.mem_map]
  constructor
  · rintro ⟨e, he, hk⟩; exact ⟨e, he, (beq_iff_eq.mp hk).symm⟩
  · rintro ⟨e, he, rfl⟩; exact ⟨e, he, beq_self_eq_true _⟩

theorem bodies_append_self (g : Grammar) {head : Char} (body : Body)
    (h : head ∈ g.productions.map Prod.fst) :
    (g.append head body).bodies head = g.bodies head ++ [body] := by
  obtain ⟨bodies, hb⟩ := Option.isSome_iff_exists.mp (lookup_isSome.mpr h)
  simp [Grammar.bodies, append, lookup_extend, hb]

/-- A character without an entry has no bodies. -/
theorem mem_keys_of_mem_bodies {g : Grammar} {A : Char} {body : Body} (h : body ∈ g.bodies A) :
    A ∈ g.productions.map Prod.fst := by
  apply lookup_isSome.mp
  cases hl : g.productions.lookup A with
  | none => simp [bodies, hl] at h
  | some _ => rfl

theorem append_keys (g : Grammar) (head : Char) (body : Body) :
    (g.append head body).productions.map Prod.fst = g.productions.map Prod.fst := by
  simp only [append, List.map_map]
  apply List.map_congr_left
  intro e _
  simp only [Function.comp_apply]
  split <;> rfl

/-- A new entry without bodies changes no bodies. -/
theorem bodies_register (g : Grammar) (nonterminals : List Char) (A B : Char) :
    ({ g with nonterminals := nonterminals, productions := g.productions ++ [(A, [])] } :
      Grammar).bodies B = g.bodies B := by
  simp only [bodies, List.lookup_append]
  cases g.productions.lookup B with
  | some _ => rfl
  | none => simp only [List.lookup_cons, List.lookup_nil]; split <;> rfl

/-- The symbols of the body are registered, and a pair does not misplace the start symbol. -/
def Allows (g : Grammar) (head : Char) : Body → Prop
  | .terminal a => a ∈ g.terminals
  | .pair B C => B ∈ g.nonterminals ∧ C ∈ g.nonterminals ∧ g.misplaced? head B C = none

theorem readBody_text {g : Grammar} {head : Char} {body : Body} (h : g.Allows head body) :
    g.readBody head body.text = .ok body := by
  cases body with
  | terminal a => simp only [Body.text, readBody, if_pos (show a ∈ g.terminals from h)]
  | pair B C =>
    obtain ⟨hB, hC, hm⟩ := h
    simp [Body.text, readBody, hB, hC, hm]

theorem readBody_sound {g : Grammar} {head : Char} {text : List Char} {body : Body}
    (h : g.readBody head text = .ok body) : body.text = text ∧ g.Allows head body := by
  unfold readBody at h
  split at h
  · rename_i B C
    split at h
    · cases h
    · rename_i hB
      split at h
      · cases h
      · rename_i hC
        split at h
        · cases h
        · rename_i hm
          cases h
          exact ⟨rfl, Decidable.not_not.mp hB, Decidable.not_not.mp hC, hm⟩
  · split at h
    · rename_i ha
      cases h
      exact ⟨rfl, ha⟩
    · cases h
  · cases h

/-- What an accepted edit checked, and what it made of the grammar. -/
inductive Step (g : Grammar) : Edit → Grammar → Prop
  | nonterminal {A : Char} (upper : isUppercase A = true) (new : A ∉ g.nonterminals) :
      Step g (.nonterminal A)
        { g with nonterminals := g.nonterminals ++ [A], productions := g.productions ++ [(A, [])] }
  | terminal {a : Char} (lower : isLowercase a = true) (new : a ∉ g.terminals) :
      Step g (.terminal a) { g with terminals := g.terminals ++ [a] }
  | start {A : Char} (known : A ∈ g.nonterminals) : Step g (.start A) { g with start := some A }
  | production {head : Char} {body : Body} (known : head ∈ g.nonterminals)
      (allowed : g.Allows head body) (new : body ∉ g.bodies head) :
      Step g (.production head body.text) (g.append head body)
  | clear : Step g .clear (empty g.guardsStart)

theorem step_of_apply {g g' : Grammar} {edit : Edit} (h : g.apply edit = .ok g') :
    Step g edit g' := by
  cases edit with
  | nonterminal A =>
    simp only [apply, withNonterminal] at h
    split at h
    · cases h
    · rename_i upper
      split at h
      · cases h
      · rename_i new
        cases h
        exact .nonterminal (by simpa using upper) new
  | terminal a =>
    simp only [apply, withTerminal] at h
    split at h
    · cases h
    · rename_i lower
      split at h
      · cases h
      · rename_i new
        cases h
        exact .terminal (by simpa using lower) new
  | start A =>
    simp only [apply, withStart] at h
    split at h
    · rename_i known
      cases h
      exact .start known
    · cases h
  | production head text =>
    simp only [apply, withProduction] at h
    split at h
    · cases h
    · rename_i known
      split at h
      · cases h
      · rename_i body hb
        obtain ⟨rfl, allowed⟩ := readBody_sound hb
        split at h
        · cases h
        · rename_i new
          cases h
          exact .production (Decidable.not_not.mp known) allowed new
  | clear =>
    cases h
    exact .clear

theorem apply_of_step {g g' : Grammar} {edit : Edit} (h : Step g edit g') :
    g.apply edit = .ok g' := by
  cases h with
  | nonterminal upper new => simp [apply, withNonterminal, upper, new]
  | terminal lower new => simp [apply, withTerminal, lower, new]
  | start known => simp [apply, withStart, known]
  | production known allowed new =>
    simp [apply, withProduction, known, readBody_text allowed, new]
  | clear => rfl

/-- An edit that may be refused steps, or changes nothing. -/
theorem after_cases (g : Grammar) (edit : Edit) :
    Step g edit (g.after edit) ∨ g.after edit = g := by
  unfold after
  split
  · rename_i g' h
    exact Or.inl (step_of_apply h)
  · exact Or.inr rfl

/-- What every step keeps holds after every history. -/
theorem afterAll_induction {P : Grammar → Prop}
    (keeps : ∀ {g g' : Grammar} {edit : Edit}, Step g edit g' → P g → P g')
    {g : Grammar} (h : P g) (history : List Edit) : P (g.afterAll history) := by
  induction history generalizing g with
  | nil => exact h
  | cons edit rest ih =>
    apply ih
    rcases after_cases g edit with step | same
    · exact keeps step h
    · rw [same]; exact h

end NormalForm.Grammar
