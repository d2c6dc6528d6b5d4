import NormalForm.Grammar.Derivation
import NormalForm.Proofs.Grammar.WellFormed

namespace NormalForm

namespace Grammar

variable {g : Grammar}

theorem DerivesForm.trans {x y z : List Symbol} (h : g.DerivesForm x y) (k : g.DerivesForm y z) :
    g.DerivesForm x z := by
  induction k with
  | refl => exact h
  | step _ hb ih => exact .step ih hb

/-- A derivation goes on inside any surroundings. -/
theorem DerivesForm.inside {x y : List Symbol} (h : g.DerivesForm x y)
    (before after : List Symbol) : g.DerivesForm (before ++ x ++ after) (before ++ y ++ after) := by
  induction h with
  | refl => exact .refl
  | @step left right A body _ hb ih =>
    have inner : g.DerivesForm (before ++ x ++ after)
        ((before ++ left) ++ .nonterminal A :: (right ++ after)) := by
      simpa only [List.append_assoc, List.cons_append] using ih
    have next := inner.step hb
    simpa only [List.append_assoc] using next

theorem DerivesForm.single {A : Char} {body : Body} (h : body ∈ g.bodies A) :
    g.DerivesForm [.nonterminal A] body.symbols := by
  have alone : g.DerivesForm [.nonterminal A] ([] ++ .nonterminal A :: []) := .refl
  have next := alone.step h
  simpa only [List.nil_append, List.append_nil] using next

theorem derives_of_tree {tree : Tree} (h : tree.Follows g) : g.Derives tree.head tree.word := by
  induction h with
  | leaf hb => exact .single hb
  | @node A left right hb _ _ ihl ihr =>
    have first := ihl.inside [] [.nonterminal right.head]
    have second := ihr.inside (left.word.map .terminal) []
    simp only [List.nil_append, List.append_nil] at first second
    simp only [Derives, Tree.head, Tree.word, List.map_append]
    exact ((DerivesForm.single hb).trans first).trans second

/-- A sentential form expands to a word: a terminal stands for itself, a nonterminal for the word
of a tree. -/
inductive Expands (g : Grammar) : List Symbol → List Char → Prop
  | nil : Expands g [] []
  | terminal {a : Char} {form : List Symbol} {word : List Char} :
      Expands g form word → Expands g (.terminal a :: form) (a :: word)
  | nonterminal {A : Char} {tree : Tree} {form : List Symbol} {word : List Char} :
      tree.head = A → tree.Follows g → Expands g form word →
      Expands g (.nonterminal A :: form) (tree.word ++ word)

theorem expands_letters (g : Grammar) (word : List Char) :
    g.Expands (word.map .terminal) word := by
  induction word with
  | nil => exact .nil
  | cons a word ih => exact .terminal ih

theorem Expands.append {x y : List Symbol} {u v : List Char} (hx : g.Expands x u)
    (hy : g.Expands y v) : g.Expands (x ++ y) (u ++ v) := by
  induction hx with
  | nil => exact hy
  | terminal _ ih => exact .terminal ih
  | nonterminal hA ht _ ih =>
    rw [List.append_assoc]
    exact .nonterminal hA ht ih

theorem Expands.split {x y : List Symbol} {word : List Char} (h : g.Expands (x ++ y) word) :
    ∃ u v, word = u ++ v ∧ g.Expands x u ∧ g.Expands y v := by
  induction x generalizing word with
  | nil => exact ⟨[], word, rfl, .nil, h⟩
  | cons s x ih =>
    cases h with
    | terminal h =>
      obtain ⟨u, v, rfl, hx, hy⟩ := ih h
      exact ⟨_ :: u, v, rfl, .terminal hx, hy⟩
    | @nonterminal A tree _ _ hA ht h =>
      obtain ⟨u, v, rfl, hx, hy⟩ := ih h
      exact ⟨tree.word ++ u, v, by rw [List.append_assoc], .nonterminal hA ht hx, hy⟩

/-- The trees of a body's symbols are the children of one tree. -/
theorem Expands.graft {A : Char} {body : Body} {word : List Char} (hb : body ∈ g.bodies A)
    (h : g.Expands body.symbols word) : g.Expands [.nonterminal A] word := by
  cases body with
  | terminal a =>
    cases h with
    | terminal h =>
      cases h
      have leaf : (Tree.leaf A a).Follows g := .leaf hb
      exact @Expands.nonterminal g A (.leaf A a) [] [] rfl leaf .nil
  | pair B C =>
    cases h with
    | @nonterminal _ left _ _ hl ht h =>
      cases h with
      | @nonterminal _ right _ _ hr hu h =>
        cases h
        subst hl hr
        have node : (Tree.node A left right).Follows g := .node hb ht hu
        have whole := @Expands.nonterminal g A (.node A left right) [] [] rfl node .nil
        simpa only [Tree.word, List.append_nil] using whole

theorem Expands.before {x y : List Symbol} {word : List Char} (h : g.DerivesForm x y)
    (hy : g.Expands y word) : g.Expands x word := by
  induction h generalizing word with
  | refl => exact hy
  | step _ hb ih =>
    obtain ⟨uv, w, rfl, huv, hw⟩ := hy.split
    obtain ⟨u, v, rfl, hu, hv⟩ := huv.split
    apply ih
    simpa only [List.append_assoc, List.singleton_append] using hu.append ((hv.graft hb).append hw)

/-- A nonterminal derives the words of the trees that it is the root of, and no others. -/
theorem derives_iff_tree {A : Char} {word : List Char} :
    g.Derives A word ↔ ∃ tree : Tree, tree.Follows g ∧ tree.head = A ∧ tree.word = word := by
  constructor
  · intro h
    have top := Expands.before h (expands_letters g word)
    cases top with
    | @nonterminal _ tree _ _ hA ht rest =>
      cases rest
      exact ⟨tree, ht, hA, (List.append_nil _).symm⟩
  · rintro ⟨tree, ht, rfl, rfl⟩
    exact derives_of_tree ht

theorem word_ne_nil (tree : Tree) : tree.word ≠ [] := by
  induction tree with
  | leaf A a => exact List.cons_ne_nil a []
  | node A left right ihl _ => simp [Tree.word, ihl]

theorem WellFormed.letters_known {guardsStart : Bool} (h : WellFormed guardsStart g) {tree : Tree}
    (ht : tree.Follows g) : ∀ a ∈ tree.word, a ∈ g.terminals := by
  induction ht with
  | leaf hb =>
    intro a ha
    rw [List.mem_singleton.mp ha]
    exact h.letter_known _ _ hb
  | node _ _ _ ihl ihr =>
    intro a ha
    rcases List.mem_append.mp ha with ha | ha
    · exact ihl a ha
    · exact ihr a ha

end Grammar

end NormalForm
