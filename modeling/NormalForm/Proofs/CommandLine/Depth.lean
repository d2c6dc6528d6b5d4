import NormalForm.Proofs.CommandLine.Advance

namespace NormalForm.Arguments

variable {r r' s : Reading} {d d' : Draft} {argument text value : List Char} {n : Nat}

/-- The depth is not above the largest. -/
def Draft.Modest (d : Draft) : Prop := ∀ n, d.depth = some n → n ≤ largestDepth

theorem Draft.Modest.assign {option : Valued} (modest : d.Modest)
    (h : d.assign option value = .ok d') : d'.Modest := by
  cases option with
  | start =>
    obtain ⟨_, _, rfl⟩ := map_eq_ok_iff.mp h
    exact modest
  | amount =>
    obtain ⟨_, _, rfl⟩ := map_eq_ok_iff.mp h
    exact modest
  | depth =>
    obtain ⟨n, fresh, rfl⟩ := map_eq_ok_iff.mp h
    rintro m ⟨⟩
    obtain ⟨_, within⟩ := Option.filter_eq_some_iff.mp (once_eq_ok_iff.mp fresh).2
    exact of_decide_eq_true within

theorem Draft.Modest.raise {flag : Flag} (modest : d.Modest) (h : d.raise flag = .ok d') :
    d'.Modest := by
  cases flag with
  | table | allowStart =>
    rw [Draft.raise, onceFlag] at h
    split at h <;> cases h
    exact modest
  | verbose =>
    cases h
    exact modest
  | help | version => cases h

theorem Draft.Modest.settle (modest : r.draft.Modest) (h : r.settle = .ok s) : s.draft.Modest := by
  unfold Reading.settle at h
  split at h
  · cases h
    exact modest
  · cases h
  · obtain ⟨d, assigned, rfl⟩ := map_eq_ok_iff.mp h
    exact modest.assign assigned
  · split at h <;> cases h
    exact modest
  · cases h
    exact modest

theorem Opts.modest (h : Opts r r') (modest : r.draft.Modest) : r'.draft.Modest := by
  induction h with
  | raise settled raised => exact (modest.settle settled).raise raised
  | attach settled assigned => exact (modest.settle settled).assign assigned
  | await settled => exact (modest.settle settled :)
  | andThen _ _ ih ih' => exact ih' (ih modest)

theorem Advance.modest (modest : r.draft.Modest) (h : Advance r argument r') :
    r'.draft.Modest := by
  cases h with
  | options h => exact h.modest modest
  | file settled => exact (modest.settle settled :)
  | firstWord settled => exact (modest.settle settled :)
  | dashes _ | value _ | nextWord _ => exact modest

theorem read_depth_le {arguments : List String} {settings : Settings}
    (h : read arguments = .ok settings) : settings.depth ≤ largestDepth := by
  have start : ({} : Reading).draft.Modest := nofun
  obtain ⟨r, modest, finished⟩ := Reading.complete_keeps Advance.modest start h
  obtain ⟨s, _, settled, _, rfl⟩ := Reading.finish_eq_ok_iff.mp finished
  cases given : s.draft.depth with
  | none => exact (by decide : usualDepth ≤ largestDepth)
  | some n => exact modest.settle settled n given

/-- A depth is held back that will be refused. -/
def Reading.Stuck (r : Reading) : Prop :=
  ∃ value, r.pending = .valued .depth value ∧ depth? value = none

theorem assign_depth_ne_ok (refused : depth? value = none) : d.assign .depth value ≠ .ok d' := by
  intro h
  obtain ⟨n, fresh, _⟩ := map_eq_ok_iff.mp h
  rw [refused] at fresh
  cases (once_eq_ok_iff.mp fresh).2

theorem Reading.Stuck.unsettled (stuck : r.Stuck) : r.settle ≠ .ok s := by
  obtain ⟨value, held, refused⟩ := stuck
  intro h
  simp only [settle, held] at h
  obtain ⟨d, assigned, _⟩ := map_eq_ok_iff.mp h
  exact assign_depth_ne_ok refused assigned

theorem Reading.Stuck.advance (stuck : r.Stuck) (h : Advance r argument r') : r'.Stuck := by
  cases h with
  | dashes _ => exact stuck
  | options h =>
    obtain ⟨s, settled⟩ := h.settles
    exact absurd settled stuck.unsettled
  | file settled => exact absurd settled stuck.unsettled
  | firstWord settled => exact absurd settled stuck.unsettled
  | value waits =>
    obtain ⟨_, held, _⟩ := stuck
    cases held.symm.trans waits
  | nextWord words =>
    obtain ⟨_, held, _⟩ := stuck
    cases held.symm.trans words

theorem Reading.Stuck.complete_ne_ok (stuck : r.Stuck) {arguments : List String}
    {settings : Settings} : r.complete arguments ≠ .ok settings := by
  intro h
  obtain ⟨r', stuck', finished⟩ := complete_keeps Stuck.advance stuck h
  obtain ⟨s, _, settled, _⟩ := finish_eq_ok_iff.mp finished
  exact stuck'.unsettled settled

/-- Before two dashes, the arguments ask for a depth, attached to the option or after it. -/
inductive AsksDepth (n : Nat) : List String → Prop
  | attached {text : String} {rest : List String} : Numeral.Spells text.toList n →
      AsksDepth n (("--max-depth=" ++ text) :: rest)
  | apart {text : String} {rest : List String} : Numeral.Spells text.toList n →
      AsksDepth n ("--max-depth" :: text :: rest)
  | later {argument : String} {rest : List String} : argument ≠ "--" → AsksDepth n rest →
      AsksDepth n (argument :: rest)

theorem AsksDepth.complete_ne_ok {arguments : List String} {settings : Settings}
    (h : AsksDepth n arguments) (large : largestDepth < n) (literal : r.isLiteral = false) :
    r.complete arguments ≠ .ok settings := by
  induction h generalizing r with
  | @attached text rest spells =>
    have spelled : ("--max-depth=" ++ text).toList =
        '-' :: '-' :: ("max-depth".toList ++ '=' :: text.toList) := by
      rw [String.toList_append]
      rfl
    rw [Reading.complete_cons, spelled, Reading.next_long literal (by simp),
      Reading.long_attached rfl (by decide)]
    intro h
    obtain ⟨r', attached, _⟩ := bind_eq_ok_iff.mp h
    obtain ⟨s, d, _, assigned, _⟩ := Reading.attach_eq_ok_iff.mp attached
    exact assign_depth_ne_ok (depth?_of_large spells large) assigned
  | @apart text rest spells =>
    have spelled : "--max-depth".toList = '-' :: '-' :: "max-depth".toList := rfl
    have known : Switch.ofName? "max-depth".toList = some (.valued .depth) := rfl
    rw [Reading.complete_cons, spelled, Reading.next_long literal (by decide),
      Reading.long_awaited known (by decide)]
    intro h
    obtain ⟨r', awaited, h⟩ := bind_eq_ok_iff.mp h
    obtain ⟨s, settled, rfl⟩ := Reading.await_eq_ok_iff.mp awaited
    have literal' : ({ s with pending := .waiting .depth } : Reading).isLiteral = false :=
      (Reading.settle_frame settled).2.2.trans literal
    rw [Reading.complete_cons, Reading.next_undashed literal' spells.head?_ne] at h
    obtain ⟨r', next, h⟩ := bind_eq_ok_iff.mp h
    cases next
    exact Reading.Stuck.complete_ne_ok ⟨_, rfl, depth?_of_large spells large⟩ h
  | @later argument rest undashed _ ih =>
    rw [Reading.complete_cons]
    intro h
    obtain ⟨r', next, h⟩ := bind_eq_ok_iff.mp h
    have kept := (Reading.next_advance next).isLiteral_eq fun dashed =>
      undashed (String.toList_inj.mp dashed)
    exact ih (kept.trans literal) h

theorem read_of_asksDepth {arguments : List String} (h : AsksDepth n arguments)
    (large : largestDepth < n) : ∃ stop, read arguments = .error stop := by
  cases read_eq : read arguments with
  | error stop => exact ⟨stop, rfl⟩
  | ok settings =>
    have literal : ({} : Reading).isLiteral = false := rfl
    exact absurd read_eq (h.complete_ne_ok large literal)

end NormalForm.Arguments
