import Dcpu.Proofs.DraftSteps

/-! Conditional blocks under any sequence of events. The flags of a level are what the conditions of
the branches read so far make of them, so the stack is a function of these conditions. -/
namespace Dcpu
open Answer

/-- What conditional directives ask of the open blocks, with the conditions that they state. -/
inductive BlockEvent where
  | ifTrue (condition : Bool)
  | elseIf (condition : Bool)
  | elseAll
  | endBlock
  deriving DecidableEq, Repr

/-- The event concerns a block that is open already. -/
def BlockEvent.needsBlock : BlockEvent → Bool
  | .ifTrue _ => false
  | _ => true

/-- The conditions of the branches of a block, that of the branch being read first. -/
abbrev Chain := List Bool

namespace Chain

/-- The branch being read is the first one whose condition is true. -/
def IsFirst (chain : Chain) : Prop :=
  ∃ earlier, chain = true :: earlier ∧ ∀ condition ∈ earlier, condition = false

/-- As `IsFirst`, computed. -/
def isFirst : Chain → Bool
  | [] => false
  | condition :: earlier => condition && !earlier.any id

theorem isFirst_iff {chain : Chain} : chain.isFirst = true ↔ chain.IsFirst := by
  cases chain with
  | nil => simp [isFirst, IsFirst]
  | cons condition earlier =>
    constructor
    · intro h
      simp only [isFirst, Bool.and_eq_true, Bool.not_eq_true', List.any_eq_false, id_eq,
        Bool.not_eq_true] at h
      exact ⟨earlier, by rw [h.1], h.2⟩
    · rintro ⟨earlier', he, hfalse⟩
      obtain ⟨rfl, rfl⟩ := List.cons.inj he
      simpa [isFirst] using hfalse

/-- A further branch comes too late. -/
theorem IsFirst.eq_nil_of_append {chain more : Chain} (h : chain.IsFirst)
    (h' : Chain.IsFirst (more ++ chain)) : more = [] := by
  obtain ⟨earlier, rfl, -⟩ := h
  obtain ⟨earlier', he, hfalse⟩ := h'
  cases more with
  | nil => rfl
  | cons condition more =>
    obtain ⟨-, rfl⟩ := List.cons.inj he
    exact absurd (hfalse true (by simp)) (by decide)

end Chain

/-- The chains of the open blocks, the innermost first. -/
abbrev History := List Chain

namespace History

/-- A further branch of the innermost block. -/
def extend (condition : Bool) : History → History
  | [] => []
  | chain :: outer => (condition :: chain) :: outer

def next (h : History) : BlockEvent → History
  | .ifTrue condition => [condition] :: h
  | .elseIf condition => h.extend condition
  | .elseAll => h.extend true
  | .endBlock => h.tail

/-- The history of a sequence of events. -/
def ofEvents (es : List BlockEvent) : History := es.foldl next []

end History

namespace Conditions

/-- Carries out an event. The condition of a further branch matters only if the branch is wanted. -/
def apply (c : Conditions) : BlockEvent → Except Fault Conditions
  | .ifTrue condition => .ok (c.enter condition)
  | .elseIf condition => do
    let wanted ← c.wantsBranch
    c.branch (wanted && condition)
  | .elseAll => c.branch true
  | .endBlock => c.leave

/-- The stack after an event, which stays as it is if the event cannot be carried out. -/
def after (c : Conditions) (e : BlockEvent) : Conditions :=
  match c.apply e with
  | .ok c => c
  | .error _ => c

def ofEvents (es : List BlockEvent) : Conditions := es.foldl after start

/-- The level of a block with the given branches. -/
def levelOf (parentActive : Bool) (chain : Chain) : Level :=
  ⟨parentActive && chain.isFirst, parentActive && chain.any id, parentActive⟩

/-- The stack that belongs to a history. -/
def ofHistory : History → Conditions
  | [] => start
  | chain :: outer => levelOf (ofHistory outer).active chain :: ofHistory outer

theorem active_ofHistory (h : History) : (ofHistory h).active = h.all Chain.isFirst := by
  induction h with
  | nil => rfl
  | cons chain outer ih => simp [ofHistory, levelOf, active, Bool.and_comm, ← ih]

theorem exists_ofHistory (h : History) :
    ∃ levels, ofHistory h = levels ++ [.sentinel] ∧ levels.length = h.length := by
  induction h with
  | nil => exact ⟨[], rfl, rfl⟩
  | cons chain outer ih =>
    obtain ⟨levels, he, hl⟩ := ih
    refine ⟨levelOf (ofHistory outer).active chain :: levels, ?_, by simp [hl]⟩
    rw [ofHistory, he]
    rfl

/-- Two levels at least, of which the innermost is that of an open block. -/
theorem exists_ofHistory_cons (chain : Chain) (outer : History) :
    ∃ l ls, ofHistory outer = l :: ls ∧
      ofHistory (chain :: outer) = levelOf (ofHistory outer).active chain :: l :: ls := by
  cases outer with
  | nil => exact ⟨_, _, rfl, rfl⟩
  | cons c outer => exact ⟨_, _, rfl, rfl⟩

theorem enter_ofHistory (h : History) (condition : Bool) :
    (ofHistory h).enter condition = ofHistory ([condition] :: h) := by
  simp [enter, ofHistory, levelOf, Chain.isFirst]

/-- Only the first true condition of a chain makes its branch count. -/
theorem branch_ofHistory (chain : Chain) (outer : History) (condition : Bool) :
    (ofHistory (chain :: outer)).branch condition =
      .ok (ofHistory ((condition :: chain) :: outer)) := by
  obtain ⟨l, ls, ho, hc⟩ := exists_ofHistory_cons chain outer
  rw [hc, ofHistory, ho]
  simp only [branch, levelOf, Chain.isFirst, List.any_cons, id_eq]
  cases active (l :: ls) <;> cases chain.any id <;> cases condition <;> rfl

theorem wantsBranch_ofHistory (chain : Chain) (outer : History) :
    (ofHistory (chain :: outer)).wantsBranch =
      .ok ((ofHistory outer).active && !chain.any id) := by
  obtain ⟨l, ls, ho, hc⟩ := exists_ofHistory_cons chain outer
  rw [hc]
  simp only [wantsBranch, levelOf]
  cases (ofHistory outer).active <;> rfl

/-- A branch that is not wanted does not count, whatever its condition is. -/
theorem ofHistory_wanted (chain : Chain) (outer : History) (condition : Bool) :
    ofHistory (((((ofHistory outer).active && !chain.any id) && condition) :: chain) :: outer) =
      ofHistory ((condition :: chain) :: outer) := by
  simp only [ofHistory, levelOf, Chain.isFirst, List.any_cons, id_eq]
  cases (ofHistory outer).active <;> cases chain.any id <;> cases condition <;> rfl

theorem leave_ofHistory (chain : Chain) (outer : History) :
    (ofHistory (chain :: outer)).leave = .ok (ofHistory outer) := by
  obtain ⟨l, ls, ho, hc⟩ := exists_ofHistory_cons chain outer
  rw [hc, ho]
  rfl

/-- An event fails exactly if it needs a block and none is open. -/
theorem apply_ofHistory (h : History) (e : BlockEvent) :
    (ofHistory h).apply e =
      if e.needsBlock = true ∧ h = [] then .error .uncoupledStatement
      else .ok (ofHistory (h.next e)) := by
  cases h with
  | nil =>
    cases e with
    | ifTrue condition => exact congrArg Except.ok (enter_ofHistory [] condition)
    | _ => rfl
  | cons chain outer =>
    rw [if_neg (by simp)]
    cases e with
    | ifTrue condition => exact congrArg Except.ok (enter_ofHistory _ condition)
    | elseIf condition =>
      rw [apply, wantsBranch_ofHistory]
      exact (branch_ofHistory ..).trans (congrArg Except.ok (ofHistory_wanted ..))
    | elseAll => exact branch_ofHistory chain outer true
    | endBlock => exact leave_ofHistory chain outer

theorem after_ofHistory (h : History) (e : BlockEvent) :
    (ofHistory h).after e = ofHistory (h.next e) := by
  rw [after, apply_ofHistory]
  by_cases hn : e.needsBlock = true ∧ h = []
  · obtain ⟨he, rfl⟩ := hn
    rw [if_pos ⟨he, rfl⟩]
    cases e with
    | ifTrue condition => cases he
    | _ => rfl
  · rw [if_neg hn]

/-- The stack after any events is the one that belongs to their history. -/
theorem ofEvents_eq (es : List BlockEvent) : ofEvents es = ofHistory (.ofEvents es) := by
  suffices h : ∀ hist : History, es.foldl after (ofHistory hist) = ofHistory (es.foldl .next hist) from
    h []
  induction es with
  | nil => exact fun _ => rfl
  | cons e es ih =>
    intro hist
    rw [List.foldl_cons, List.foldl_cons, after_ofHistory]
    exact ih _

theorem active_ofEvents (es : List BlockEvent) :
    (ofEvents es).active = true ↔ ∀ chain ∈ History.ofEvents es, chain.IsFirst := by
  rw [ofEvents_eq, active_ofHistory, List.all_eq_true]
  simp only [Chain.isFirst_iff]

theorem apply_ofEvents_eq_error {es : List BlockEvent} {e : BlockEvent} {f : Fault} :
    (ofEvents es).apply e = .error f ↔
      f = .uncoupledStatement ∧ e.needsBlock = true ∧ History.ofEvents es = [] := by
  rw [ofEvents_eq, apply_ofHistory]
  by_cases hn : e.needsBlock = true ∧ History.ofEvents es = []
  · rw [if_pos hn]
    constructor
    · intro h
      exact ⟨(Except.error.inj h).symm, hn⟩
    · rintro ⟨rfl, -⟩
      rfl
  · rw [if_neg hn]
    constructor
    · intro h
      cases h
    · rintro ⟨-, h⟩
      exact absurd h hn

theorem apply_error {c : Conditions} {e : BlockEvent} {f : Fault} (h : c.apply e = .error f) :
    f = .uncoupledStatement := by
  -- without an outer level there is no open block
  rcases c with _ | ⟨l, _ | ⟨outer, ls⟩⟩
  · cases e with
    | ifTrue => cases h
    | _ => exact (Except.error.inj h).symm
  · cases e with
    | ifTrue => cases h
    | _ => exact (Except.error.inj h).symm
  · cases e with
    | _ => cases h

end Conditions

/-- The event that a directive stands for when its condition is known. -/
def Directive.event? (condition : Bool) : Directive → Option BlockEvent
  | .ifTrue | .ifDefined | .ifUndefined => some (.ifTrue condition)
  | .elseIf => some (.elseIf condition)
  | .elseAll => some .elseAll
  | .endBlock => some .endBlock
  | _ => none

theorem Directive.needsBlock_of_event? {k : Directive} {condition : Bool} {event : BlockEvent}
    (h : k.event? condition = some event) :
    event.needsBlock = true ↔ k = .elseIf ∨ k = .elseAll ∨ k = .endBlock := by
  cases k with
  | ifTrue | ifDefined | ifUndefined | elseIf | elseAll | endBlock =>
    obtain rfl := Option.some.inj h
    simp [BlockEvent.needsBlock]
  | _ => cases h

section Faults

variable {v : Session} {s t : SymbolTable} {e : Entry} {args : Text} {f : Fault}

theorem condition_fault (h : condition v s e args = .ok (.error f, t)) :
    f ≠ .uncoupledStatement := by
  unfold condition at h
  split at h
  · obtain ⟨hf, -⟩ := Prod.mk.inj (Except.ok.inj h)
    obtain rfl := Except.error.inj hf
    decide
  · obtain ⟨⟨value, s'⟩, hv, h⟩ := bind_eq_ok.mp h
    obtain ⟨hf, -⟩ := Prod.mk.inj (pure_eq_ok.mp h)
    obtain ⟨r, -, rfl⟩ := Session.immediate_eq_ok hv
    split at hf
    · cases hf
    · obtain rfl := Except.error.inj hf
      unfold Result.fault
      split
      · decide
      · decide

theorem singleName_fault (h : singleName args = .error f) : f ≠ .uncoupledStatement := by
  unfold singleName at h
  split at h
  · obtain rfl := Except.error.inj h
    decide
  · cases h
  · obtain rfl := Except.error.inj h
    decide

end Faults

namespace Draft

variable {v : Session} {d d' : Draft} {e : Entry} {args : Text}

/-- An event has been carried out for an entry, or the entry says that there is no block for it. -/
structure Asked (d d' : Draft) (event : BlockEvent) : Prop where
  blocks : d'.blocks = d.blocks.after event
  feed : d'.feed = d.feed
  templates : d'.templates = d.templates
  entry : ∃ e, d'.entries = d.entries.push e ∧
    (e.fault = some .uncoupledStatement ↔ ∃ f, d.blocks.apply event = .error f)

theorem Asked.of_ok {event : BlockEvent} {blocks : Conditions} {s : SymbolTable} {f : Option Fault}
    (h : d.blocks.apply event = .ok blocks) (hf : f ≠ some .uncoupledStatement)
    (he : e.fault = none) :
    d.Asked ({ d with blocks := blocks, symbols := s }.pushOutcome e f) event := by
  have hb : d.blocks.after event = blocks := by simp [Conditions.after, h]
  cases f with
  | none =>
    obtain ⟨c, hp⟩ := ({ d with blocks := blocks, symbols := s } : Draft).push_eq e
    rw [pushOutcome, hp]
    exact ⟨hb.symm, rfl, rfl, _, rfl, by simp [he, h]⟩
  | some f =>
    obtain ⟨c, hp⟩ := ({ d with blocks := blocks, symbols := s } : Draft).push_eq
      { e with fault := some f }
    rw [pushOutcome, pushFault, hp]
    exact ⟨hb.symm, rfl, rfl, _, rfl, by simpa [h] using hf⟩

theorem Asked.of_error {event : BlockEvent} {s : SymbolTable} {f : Fault}
    (h : d.blocks.apply event = .error f) :
    d.Asked ({ d with symbols := s }.pushFault e f) event := by
  have hb : d.blocks.after event = d.blocks := by simp [Conditions.after, h]
  obtain ⟨c, hp⟩ := ({ d with symbols := s } : Draft).push_eq { e with fault := some f }
  rw [pushFault, hp]
  exact ⟨hb.symm, rfl, rfl, _, rfl, by simp [h, Conditions.apply_error h]⟩

theorem setBlocks_asked (event : BlockEvent) (he : e.fault = none) :
    d.Asked (d.setBlocks e (d.blocks.apply event)) event := by
  cases h : d.blocks.apply event with
  | ok blocks => exact Asked.of_ok (s := d.symbols) (f := none) h nofun he
  | error f => exact Asked.of_error (s := d.symbols) h

theorem enterBlock_asked {c : Except Fault Bool} (s : SymbolTable)
    (hc : c ≠ .error .uncoupledStatement) (he : e.fault = none) :
    d.Asked ({ d with symbols := s }.enterBlock e c) (.ifTrue (holds c)) := by
  refine Asked.of_ok rfl ?_ he
  cases c with
  | ok b => exact nofun
  | error f => exact fun h => hc (congrArg Except.error (Option.some.inj h))

theorem enterIfDefined_asked (wanted : Bool) (he : e.fault = none) :
    ∃ condition, d.Asked (d.enterIfDefined e args wanted) (.ifTrue condition) := by
  unfold enterIfDefined
  split
  · refine ⟨_, enterBlock_asked d.symbols ?_ he⟩
    cases hn : singleName args with
    | ok name => exact nofun
    | error f => exact fun h => singleName_fault hn (Except.error.inj h)
  · exact ⟨_, enterBlock_asked d.symbols nofun he⟩

theorem elseIf_asked (he : e.fault = none) (h : d.elseIf v e args = .ok d') :
    ∃ condition, d.Asked d' (.elseIf condition) := by
  unfold elseIf at h
  split at h
  next f hw =>
    obtain rfl := Except.ok.inj h
    refine ⟨false, Asked.of_error (s := d.symbols) ?_⟩
    rw [Conditions.apply, hw]
    rfl
  next hw =>
    obtain rfl := Except.ok.inj h
    have ha : d.blocks.branch false = d.blocks.apply (.elseIf false) := by
      rw [Conditions.apply, hw]
      rfl
    rw [ha]
    exact ⟨false, setBlocks_asked _ he⟩
  next hw =>
    obtain ⟨⟨c, s⟩, hc, h⟩ := bind_eq_ok.mp h
    refine ⟨holds c, ?_⟩
    have ha : d.blocks.apply (.elseIf (holds c)) = d.blocks.branch (holds c) := by
      rw [Conditions.apply, hw]
      rfl
    dsimp only at h
    split at h
    next blocks hb =>
      obtain rfl := pure_eq_ok.mp h
      refine Asked.of_ok (ha.trans hb) ?_ he
      cases c with
      | ok b => exact nofun
      | error f => exact fun hf => condition_fault hc (Option.some.inj hf)
    next f hb =>
      obtain rfl := pure_eq_ok.mp h
      exact Asked.of_error (ha.trans hb)

/-- A conditional directive does to the open blocks what its event asks for. -/
theorem directive_asked {line : SourceLine} {text : Text} {k : Directive}
    (hk : (Directive.parse text).1 = some k) (hc : k.isConditional = true)
    (h : d.directive v line text = .ok d') :
    ∃ condition event, k.event? condition = some event ∧ d.Asked d' event := by
  have he : (d.entry line text).fault = none := rfl
  unfold directive at h
  dsimp only at h
  rw [hk] at h
  cases k with
  | ifTrue =>
    dsimp only [enterIf] at h
    split at h
    · obtain ⟨⟨c, s⟩, hcond, h⟩ := bind_eq_ok.mp h
      obtain rfl := pure_eq_ok.mp h
      refine ⟨_, _, rfl, enterBlock_asked s ?_ he⟩
      rintro rfl
      exact condition_fault hcond rfl
    · obtain rfl := Except.ok.inj h
      exact ⟨_, _, rfl, enterBlock_asked d.symbols nofun he⟩
  | ifDefined =>
    obtain rfl := Except.ok.inj h
    obtain ⟨condition, ha⟩ := enterIfDefined_asked true he
    exact ⟨condition, _, rfl, ha⟩
  | ifUndefined =>
    obtain rfl := Except.ok.inj h
    obtain ⟨condition, ha⟩ := enterIfDefined_asked false he
    exact ⟨condition, _, rfl, ha⟩
  | elseIf =>
    obtain ⟨condition, ha⟩ := elseIf_asked he h
    exact ⟨condition, _, rfl, ha⟩
  | elseAll =>
    obtain rfl := Except.ok.inj h
    exact ⟨true, _, rfl, setBlocks_asked .elseAll he⟩
  | endBlock =>
    obtain rfl := Except.ok.inj h
    exact ⟨true, _, rfl, setBlocks_asked .endBlock he⟩
  | _ => cases hc

end Draft

open Conditions in
/-- Lines count exactly if of every open block the branch being read is the first one whose
condition is true. So no second branch of a chain counts, and nothing counts inside of what does
not. The sentinel is always the last level. An `elseif`, `else` or `end` fails exactly if no block
is open; then its entry says so, and the stack stays as it is. -/
theorem active_iff_first_branches (es : List BlockEvent) :
    ((ofEvents es).active = true ↔ ∀ chain ∈ History.ofEvents es, chain.IsFirst) ∧
    (∀ more inner inner' outer chain branches, History.ofEvents es = inner ++ chain :: outer →
      History.ofEvents (es ++ more) = inner' ++ (branches ++ chain) :: outer →
      (ofEvents es).active = true → (ofEvents (es ++ more)).active = true → branches = []) ∧
    (∀ more inner, (ofEvents es).active = false →
      History.ofEvents (es ++ more) = inner ++ History.ofEvents es →
      (ofEvents (es ++ more)).active = false) ∧
    (∃ levels, ofEvents es = levels ++ [.sentinel] ∧
      levels.length = (History.ofEvents es).length) ∧
    (∀ e f, (ofEvents es).apply e = .error f ↔
      f = .uncoupledStatement ∧ e.needsBlock = true ∧ History.ofEvents es = []) ∧
    ∀ (v : Session) (d d' : Draft) (line : SourceLine) (text : Text) (k : Directive),
      d.blocks = ofEvents es → (Directive.parse text).1 = some k →
      k = .elseIf ∨ k = .elseAll ∨ k = .endBlock → d.directive v line text = .ok d' →
      ∃ e, d'.entries = d.entries.push e ∧
        (e.fault = some .uncoupledStatement ↔ History.ofEvents es = []) ∧
        (History.ofEvents es = [] → d'.blocks = d.blocks) := by
  refine ⟨active_ofEvents es, ?_, ?_, ?_, fun e f => apply_ofEvents_eq_error, ?_⟩
  · intro more inner inner' outer chain branches h h' ha ha'
    rw [active_ofEvents] at ha ha'
    exact (ha chain (by simp [h])).eq_nil_of_append (ha' _ (by simp [h']))
  · intro more inner ha h
    rw [← Bool.not_eq_true, active_ofEvents] at ha ⊢
    refine fun hall => ha fun chain hc => hall chain ?_
    simp [h, hc]
  · rw [ofEvents_eq]
    exact exists_ofHistory _
  · intro v d d' line text k hd hk hn h
    have hc : k.isConditional = true := by rcases hn with rfl | rfl | rfl <;> rfl
    obtain ⟨condition, event, hev, ha⟩ := Draft.directive_asked hk hc h
    have hneeds := (Directive.needsBlock_of_event? hev).mpr hn
    obtain ⟨e, he, hf⟩ := ha.entry
    refine ⟨e, he, ?_, ?_⟩
    · rw [hf, hd]
      simp [apply_ofEvents_eq_error, hneeds]
    · intro hnil
      have herr : d.blocks.apply event = .error .uncoupledStatement := by
        rw [hd]
        exact apply_ofEvents_eq_error.mpr ⟨rfl, hneeds, hnil⟩
      rw [ha.blocks, after, herr]

/-- The `else` of a chain whose second condition was true, with a block inside of it. -/
theorem active_iff_first_branches_late :
    History.ofEvents [.ifTrue false, .elseIf true, .elseAll, .ifTrue true] =
      [[true], [true, true, false]] ∧
    (Conditions.ofEvents [.ifTrue false, .elseIf true, .elseAll, .ifTrue true]).active = false := by
  refine ⟨rfl, ?_⟩
  rw [← Bool.not_eq_true, (active_iff_first_branches _).1]
  intro h
  exact absurd (Chain.isFirst_iff.mpr (h [true, true, false] (by decide))) (by decide)

end Dcpu
