import Dcpu.Proofs.Branches

/-! Which lines leave it alone what lines count and what lines are read next. -/
namespace Dcpu
open Answer

namespace Draft

/-- The program grows, but what controls how lines are read stays as it is. -/
structure SameControl (d d' : Draft) : Prop where
  feed : d'.feed = d.feed
  templates : d'.templates = d.templates
  blocks : d'.blocks = d.blocks

variable {v : Session} {d d' : Draft} {e : Entry} {args : Text}

namespace SameControl

theorem refl (d : Draft) : d.SameControl d := ⟨rfl, rfl, rfl⟩

theorem push (d : Draft) (s : SymbolTable) (e : Entry) :
    d.SameControl ({ d with symbols := s }.push e) := ⟨rfl, rfl, rfl⟩

theorem pushFault (d : Draft) (s : SymbolTable) (e : Entry) (f : Fault) :
    d.SameControl ({ d with symbols := s }.pushFault e f) := ⟨rfl, rfl, rfl⟩

theorem pushOutcome (d : Draft) (s : SymbolTable) (e : Entry) (f : Option Fault) :
    d.SameControl ({ d with symbols := s }.pushOutcome e f) := by
  cases f with
  | none => exact push d s e
  | some f => exact pushFault d s e f

theorem trans {d'' : Draft} (h : d.SameControl d') (h' : d'.SameControl d'') :
    d.SameControl d'' :=
  ⟨h'.feed.trans h.feed, h'.templates.trans h.templates, h'.blocks.trans h.blocks⟩

theorem of_equate (h : d.equate v e args = .ok d') : d.SameControl d' := by
  rcases equate_cases h with ⟨f, s, -, rfl⟩ | ⟨_, _, _, _, t, -, -, -, rfl⟩
  · exact pushFault d s e f
  · exact push d t e

theorem of_origin (h : d.origin v e args = .ok d') : d.SameControl d' := by
  unfold origin at h
  split at h
  · obtain rfl := Except.ok.inj h
    exact pushFault d d.symbols e _
  · obtain ⟨⟨value, s⟩, -, h⟩ := bind_eq_ok.mp h
    cases value with
    | ok w =>
      obtain rfl := pure_eq_ok.mp h
      exact ⟨rfl, rfl, rfl⟩
    | error f =>
      obtain rfl := pure_eq_ok.mp h
      exact pushFault d s e f

theorem of_length {value : Except Fault Word} (h : d.length v e args = .ok (value, d')) :
    ∃ s, d' = { d with symbols := s } := by
  unfold length at h
  split at h
  · split at h
    · obtain ⟨-, rfl⟩ := Prod.mk.inj (Except.ok.inj h)
      exact ⟨d.symbols, rfl⟩
    · obtain ⟨⟨w, s⟩, -, h⟩ := bind_eq_ok.mp h
      obtain ⟨-, rfl⟩ := Prod.mk.inj (pure_eq_ok.mp h)
      exact ⟨s, rfl⟩
  · obtain ⟨-, rfl⟩ := Prod.mk.inj (Except.ok.inj h)
    exact ⟨d.symbols, rfl⟩

theorem of_align (h : d.align v e args = .ok d') : d.SameControl d' := by
  obtain ⟨⟨value, d₁⟩, hl, h⟩ := bind_eq_ok.mp h
  obtain ⟨s, rfl⟩ := of_length hl
  cases value with
  | ok target =>
    obtain rfl := pure_eq_ok.mp h
    split
    · exact pushFault d s _ _
    · exact push d s _
  | error f =>
    obtain rfl := pure_eq_ok.mp h
    exact pushFault d s e f

theorem of_reserve (h : d.reserve v e args = .ok d') : d.SameControl d' := by
  obtain ⟨⟨value, d₁⟩, hl, h⟩ := bind_eq_ok.mp h
  obtain ⟨s, rfl⟩ := of_length hl
  cases value with
  | ok n =>
    obtain rfl := pure_eq_ok.mp h
    exact push d s _
  | error f =>
    obtain rfl := pure_eq_ok.mp h
    exact pushFault d s e f

theorem of_pad (h : d.pad v e args = .ok d') : d.SameControl d' := by
  unfold pad at h
  split at h
  · obtain ⟨⟨n, s⟩, -, h⟩ := bind_eq_ok.mp h
    cases n with
    | ok n =>
      obtain ⟨⟨r, t⟩, -, h⟩ := bind_eq_ok.mp h
      obtain rfl := pure_eq_ok.mp h
      exact push d t _
    | error f =>
      obtain rfl := pure_eq_ok.mp h
      exact pushFault d s e f
  · obtain rfl := Except.ok.inj h
    exact pushFault d d.symbols e _
  · obtain rfl := Except.ok.inj h
    exact pushFault d d.symbols e _
  · obtain rfl := Except.ok.inj h
    exact pushFault d d.symbols e _

theorem of_data (h : d.data v e args = .ok d') : d.SameControl d' := by
  unfold data at h
  split at h
  · obtain rfl := Except.ok.inj h
    exact pushFault d d.symbols e _
  · obtain ⟨run, -, h⟩ := bind_eq_ok.mp h
    obtain rfl := pure_eq_ok.mp h
    exact pushOutcome d run.symbols _ _

theorem of_string (d : Draft) (style : StringStyle) (e : Entry) (args : Text) :
    d.SameControl (d.string style e args) := by
  unfold string
  split
  · exact pushFault d d.symbols e _
  · exact pushOutcome d d.symbols _ _

theorem of_includeBytes {packed : Bool} (h : d.includeBytes v packed e args = .ok d') :
    d.SameControl d' := by
  obtain ⟨found, -, h⟩ := bind_eq_ok.mp h
  dsimp only at h
  split at h
  · obtain rfl := pure_eq_ok.mp h
    exact push d d.symbols _
  · obtain rfl := pure_eq_ok.mp h
    exact pushFault d d.symbols e _

theorem of_echo (h : d.echo v e args = .ok d') : d.SameControl d' := by
  unfold echo at h
  split at h
  · obtain rfl := Except.ok.inj h
    exact pushFault d d.symbols e _
  · obtain ⟨⟨message, ok, s⟩, -, h⟩ := bind_eq_ok.mp h
    obtain rfl := pure_eq_ok.mp h
    exact (pushOutcome d s e _).trans (push _ _ _)

theorem of_reference (d : Draft) (e : Entry) (args : Text) : d.SameControl (d.reference e args) := by
  unfold reference
  split
  · exact push d _ e
  · exact pushFault d d.symbols e _

/-- A directive that neither asks for blocks nor brings other lines. -/
theorem of_directive {line : SourceLine} {text : Text}
    (hk : ∀ k, (Directive.parse text).1 = some k →
      k.isConditional = false ∧ k ≠ .template ∧ k ≠ .includeText)
    (h : d.directive v line text = .ok d') : d.SameControl d' := by
  unfold directive at h
  dsimp only at h
  split at h
  · exact Except.ok.inj h ▸ pushFault d d.symbols _ _
  next hp => exact absurd (hk _ hp).1 (by decide)
  next hp => exact absurd (hk _ hp).1 (by decide)
  next hp => exact absurd (hk _ hp).1 (by decide)
  next hp => exact absurd (hk _ hp).1 (by decide)
  next hp => exact absurd (hk _ hp).1 (by decide)
  next hp => exact absurd (hk _ hp).1 (by decide)
  · exact of_equate h
  · exact of_origin h
  · exact of_align h
  · exact of_reserve h
  · exact of_pad h
  · exact of_data h
  · exact Except.ok.inj h ▸ of_string d _ _ _
  next hp => exact absurd rfl (hk _ hp).2.2
  · exact of_includeBytes h
  next hp => exact absurd rfl (hk _ hp).2.1
  · exact Except.ok.inj h ▸ pushFault d d.symbols _ _
  · exact of_echo h
  · exact Except.ok.inj h ▸ of_reference d _ _
  · exact Except.ok.inj h ▸ ⟨rfl, rfl, rfl⟩
  · exact Except.ok.inj h ▸ ⟨rfl, rfl, rfl⟩
  · exact Except.ok.inj h ▸ push d d.symbols _

theorem of_takeLabel (d : Draft) (line : SourceLine) (t : Text) :
    d.SameControl (d.takeLabel line t).1 := by
  unfold takeLabel
  split
  · exact refl d
  · dsimp only
    split
    · exact push d _ _
    · exact pushOutcome d _ _ _

theorem of_instruction {line : SourceLine} {t : Text} (h : d.instruction v line t = .ok d') :
    d.SameControl d' := by
  have encoded {e : Entry} {opcode a : Match} {b : Option Match}
      (h : d.encoded v e opcode a b = .ok d') : d.SameControl d' := by
    obtain ⟨⟨_, _, _⟩, -, h⟩ := bind_eq_ok.mp h
    obtain ⟨⟨_, s⟩, -, h⟩ := bind_eq_ok.mp h
    obtain rfl := pure_eq_ok.mp h
    exact push d s _
  unfold instruction at h
  dsimp only at h
  split at h
  · exact Except.ok.inj h ▸ pushFault d d.symbols _ _
  · split at h
    · exact encoded h
    · exact encoded h
    · exact Except.ok.inj h ▸ pushFault d d.symbols _ _

end SameControl

end Draft

end Dcpu
