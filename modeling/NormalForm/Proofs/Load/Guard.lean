import NormalForm.Proofs.Grammar.History
import NormalForm.Proofs.Grammar.Objections
import NormalForm.Proofs.Load.Loadable

/-! # What the guard of the start symbol keeps out

Setting the start symbol does not look at the productions that are there, so a guarded grammar may
hold pairs of other nonterminals with the start symbol in them. All of them are older than the start
symbol: none is added once it is set. A history that sets the start symbol before it adds
productions, as every load does, leaves none. -/

namespace NormalForm.Grammar

variable {g : Grammar} {history : List Edit}

/-- The body is a pair of another nonterminal with the start symbol in it. -/
def Misplaces (S A : Char) (body : Body) : Prop :=
  A ≠ S ∧ ∃ B C, body = .pair B C ∧ (B = S ∨ C = S)

/-- The start symbol stands in pairs of its own productions only. -/
def StartAlone (g : Grammar) : Prop :=
  ∀ S, g.start = some S → ∀ A, ∀ body ∈ g.bodies A, ¬ Misplaces S A body

/-- Since the last clearing, no start symbol is set after a production is added. -/
def StartFirst (g : Grammar) (history : List Edit) : Prop :=
  ∀ before A text between S after,
    history = before ++ .production A text :: (between ++ .start S :: after) →
    g.Accepts before (.production A text) →
    g.Accepts (before ++ .production A text :: between) (.start S) → .clear ∈ between ++ after

/-- A guarded start symbol is kept out of the pairs of others. -/
theorem Allows.not_misplaces {S A : Char} {body : Body} (allowed : g.Allows A body)
    (guards : g.guardsStart = true) (start : g.start = some S) : ¬ Misplaces S A body := by
  rintro ⟨apart, B, C, rfl, holds⟩
  have misplaced := misplaced_eq_some_iff.mpr ⟨start, guards, apart, holds⟩
  rw [allowed.2.2] at misplaced
  cases misplaced

theorem not_added {S A : Char} {body : Body} (guards : g.guardsStart = true)
    (start : g.start = some S) (misplaces : Misplaces S A body) (g' : Grammar) :
    g.apply (.production A body.text) ≠ .ok g' := by
  intro accepted
  generalize same : body.text = text at accepted
  cases step_of_apply accepted with
  | production known allowed new =>
    cases text_injective same
    exact allowed.not_misplaces guards start misplaces

/-- The start symbol was set last by an edit after which it stayed, and what it misplaces was added
before that edit. -/
structure Since (g : Grammar) (history : List Edit) (S : Char) (before after : List Edit) :
    Prop where
  set : g.Lasting history before (.start S) after
  latest : ∀ earlier T later, after = earlier ++ .start T :: later →
    ¬ g.Accepts (before ++ .start S :: earlier) (.start T)
  older : ∀ A, ∀ body ∈ (g.afterAll history).bodies A, Misplaces S A body →
    ∃ first second, g.Lasting before first (.production A body.text) second

/-- An edit that sets no start symbol and misplaces none leaves the last setting the last. -/
theorem Since.concat {S : Char} {before after : List Edit} {edit : Edit}
    (h : g.Since history S before after) (kept : edit ≠ .clear)
    (idle : ∀ T, edit = .start T → ¬ g.Accepts history (.start T))
    (older : ∀ A, ∀ body ∈ (g.afterAll (history ++ [edit])).bodies A, Misplaces S A body →
      body ∈ (g.afterAll history).bodies A) :
    g.Since (history ++ [edit]) S before (after ++ [edit]) where
  set := h.set.concat kept
  latest := by
    intro earlier T later split
    rcases List.eq_nil_or_concat later with rfl | ⟨later, last, rfl⟩
    · obtain ⟨rfl, same⟩ := List.append_inj' split rfl
      rw [← h.set.split]
      exact idle T (List.singleton_inj.mp same)
    · have split : after ++ [edit] = (earlier ++ .start T :: later) ++ [last] := by
        rw [split, List.concat_eq_append, List.append_assoc, List.cons_append]
      exact h.latest earlier T later (List.append_inj' split rfl).1
  older A body hb misplaces := h.older A body (older A body hb misplaces) misplaces

theorem exists_since {S : Char} (start : ((empty true).afterAll history).start = some S) :
    ∃ before after, (empty true).Since history S before after := by
  induction history using List.reverseRecOn with
  | nil => cases start
  | append_singleton history edit ih =>
    have wf := (reachable_afterAll true history).wellFormed
    rcases last_cases (empty true) history edit with ⟨step, accepted⟩ | ⟨same, kept, refused⟩
    · rcases step.start_cases start with rfl | ⟨kept, other, old⟩
      · refine ⟨history, [], lasting_last accepted, by simp, fun A body hb _ => ?_⟩
        obtain ⟨_, old | impossible⟩ := wf.body_cases step hb
        · exact exists_added old
        · cases impossible
      · obtain ⟨before, after, since⟩ := ih old
        refine ⟨before, after ++ [edit], since.concat kept (fun T set => absurd set (other T)) ?_⟩
        intro A body hb misplaces
        obtain ⟨_, old | rfl⟩ := wf.body_cases step hb
        · exact old
        · obtain ⟨g', accepted⟩ := accepted
          exact absurd accepted (not_added wf.guard old misplaces g')
    · obtain ⟨before, after, since⟩ := ih (same ▸ start)
      refine ⟨before, after ++ [edit], since.concat kept (fun T set => set ▸ refused) ?_⟩
      intro A body hb _
      rwa [same] at hb

/-- What is misplaced was added before the start symbol was set, which does not happen. -/
theorem StartFirst.alone (first : (empty true).StartFirst history) :
    ((empty true).afterAll history).StartAlone := by
  intro S start A body hb misplaces
  obtain ⟨before, after, since⟩ := exists_since start
  obtain ⟨earlier, between, added⟩ := since.older A body hb misplaces
  have split : history = earlier ++ .production A body.text :: (between ++ .start S :: after) := by
    rw [since.set.split, added.split, List.append_assoc, List.cons_append]
  have cleared := first earlier A body.text between S after split added.accepted
    (added.split ▸ since.set.accepted)
  rcases List.mem_append.mp cleared with cleared | cleared
  · exact added.kept cleared
  · exact since.set.kept cleared

theorem alone_of_ofLines {mode : LoadMode} {lines : List (Option (List Char))}
    (guards : mode.guardsStart = true) (h : Load.ofLines mode lines = .ok g) : g.StartAlone := by
  obtain ⟨rules, _, h⟩ := Load.ofLines_eq_ok_iff.mp h
  obtain ⟨loadable, describes⟩ := Load.assemble_sound h
  rintro S start A _ hp ⟨apart, B, C, rfl, holds⟩
  obtain ⟨left, right⟩ :=
    describes.guarded loadable (describes.guard.trans guards) S start A apart B C hp
  exact holds.elim left right

theorem alone_of_ofText {file : Path} {mode : LoadMode} {text : List Char}
    (guards : mode.guardsStart = true) (h : Load.ofText file mode text = .ok g) : g.StartAlone :=
  alone_of_ofLines guards (Load.inFile_eq_ok_iff.mp h)

theorem alone_of_ofContents {file : Path} {mode : LoadMode}
    {contents : Except FileError (List UInt8)} (guards : mode.guardsStart = true)
    (h : Load.ofContents file mode contents = .ok g) : g.StartAlone := by
  unfold Load.ofContents at h
  split at h
  · cases h
  · exact alone_of_ofLines guards (Load.inFile_eq_ok_iff.mp h)

/-- **What the guard of the start symbol guarantees.** Whatever is done to a guarded grammar, the
pairs of others that hold its start symbol were added before the start symbol was last set, and none
can be added now. So there are none if no start symbol was set after a production was added, and
none in any grammar that was loaded. -/
theorem guard_keeps_start_alone :
    (∀ history S, ((empty true).afterAll history).start = some S →
      ∃ before after, (empty true).Since history S before after) ∧
    (∀ g, Reachable true g → ∀ S, g.start = some S → ∀ A body, Misplaces S A body →
      ∀ g', g.apply (.production A body.text) ≠ .ok g') ∧
    (∀ history, (empty true).StartFirst history → ((empty true).afterAll history).StartAlone) ∧
    (∀ file mode text g, mode.guardsStart = true → Load.ofText file mode text = .ok g →
      g.StartAlone) ∧
    (∀ file mode contents g, mode.guardsStart = true → Load.ofContents file mode contents = .ok g →
      g.StartAlone) := by
  refine ⟨fun _ _ => exists_since, ?_, fun _ => StartFirst.alone, fun _ _ _ _ => alone_of_ofText,
    fun _ _ _ _ => alone_of_ofContents⟩
  exact fun g reach S start A body misplaces =>
    not_added reach.wellFormed.guard start misplaces

/-- A history that sets another start symbol once a pair holds it, after which none may be added. -/
def belated : List Edit :=
  [ .nonterminal 'S', .nonterminal 'A', .start 'A', .production 'S' ['S', 'S'],
    .production 'A' ['S', 'S'], .start 'S', .start 'B', .production 'A' ['S', 'A'] ]

/-- A history that sets the start symbol first and is refused another. -/
def timely : List Edit :=
  [ .nonterminal 'S', .start 'S', .production 'S' ['S', 'S'], .start 'B' ]

theorem timely_startFirst : (empty true).StartFirst timely := by
  intro before A text between S after split _ ⟨g', accepted⟩
  -- Only the third edit adds a production, and only the last one sets a start symbol after it.
  rcases before with _ | ⟨_, _ | ⟨_, _ | ⟨_, before⟩⟩⟩
  · cases split
  · cases split
  · rcases between with _ | ⟨_, between⟩
    · cases split
      cases accepted
    · simp [timely] at split
  · simp [timely, List.cons_eq_append_iff] at split

/-- `A ::= AA | a` and `B ::= BA`. -/
def twofold : List Char :=
  ['A', ' ', ':', ':', '=', ' ', 'A', 'A', ' ', '|', ' ', 'a', '\n',
    'B', ' ', ':', ':', '=', ' ', 'B', 'A']

theorem guard_keeps_start_alone_belated :
    let g := (empty true).afterAll belated
    (∃ before after, (empty true).Since belated 'S' before after) ∧
      .pair 'S' 'S' ∈ g.bodies 'A' ∧ Misplaces 'S' 'A' (.pair 'S' 'S') ∧
      (∀ g', g.apply (.production 'A' ['S', 'A']) ≠ .ok g') ∧
      (empty true).StartFirst timely ∧ ((empty true).afterAll timely).StartAlone ∧
      ∀ file, ∃ g', Load.ofText file ⟨some 'B', true⟩ twofold = .ok g' ∧ g'.StartAlone := by
  obtain ⟨histories, additions, first, texts, contents⟩ := guard_keeps_start_alone
  have misplaces (B C : Char) (holds : B = 'S' ∨ C = 'S') : Misplaces 'S' 'A' (.pair B C) :=
    ⟨by decide, B, C, rfl, holds⟩
  refine ⟨histories belated 'S' (by decide +kernel), by decide +kernel, misplaces 'S' 'S' (by simp),
    ?_, timely_startFirst, first timely timely_startFirst, ?_⟩
  · exact additions _ ⟨belated, rfl⟩ 'S' (by decide +kernel) 'A' _ (misplaces 'S' 'A' (by simp))
  · intro file
    exact ⟨_, rfl, texts file ⟨some 'B', true⟩ twofold _ rfl rfl⟩

end NormalForm.Grammar
