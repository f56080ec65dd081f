import Dcpu.Assembly.Run
import Dcpu.Proofs.Refresh
import Mathlib.Logic.Relation

/-! Reading the lines of a program as a sequence of small steps. What holds at the start and is kept
by each kind of step holds of every draft that reading comes to. -/
namespace Dcpu
open Answer

/-- What follows the label of a line. -/
def afterLabel (t : Text) : Text :=
  match LabelPart.ofLine? t with
  | some label => label.rest
  | none => t

/-- Neither an instruction nor an alignment nor a form of literals. -/
def Body.isPlain : Body → Bool
  | .instruction _ | .align _ | .form _ => false
  | _ => true

theorem Body.isPlain_ofCells (cells : List Cell) : (Body.ofCells cells).isPlain = true := by
  unfold ofCells
  split <;> rfl

/-- A plain entry at an address, about which nothing is doubtful. -/
structure Entry.PlainAt (w : Word) (e : Entry) : Prop where
  address : e.address = w
  plain : e.body.isPlain = true
  caution : e.caution = none
  own : e.own = none

namespace Draft

/-- At most a caution is added to an entry that is pushed. -/
theorem push_eq (d : Draft) (e : Entry) :
    ∃ c, d.push e =
      { d with
        entries := d.entries.push { e with caution := c }
        address := d.address + e.size } := by
  by_cases h : Word.count < d.address.toNat + e.length
  · exact ⟨_, by simp only [push, h, if_true]; rfl⟩
  · exact ⟨e.caution, by simp only [push, h, if_false]⟩

/-- The lines to come, the macros, the blocks and the like may change, the program does not. -/
structure SameProgram (d d' : Draft) : Prop where
  symbols : d'.symbols = d.symbols
  entries : d'.entries = d.entries
  address : d'.address = d.address
  longForm : d'.longForm = d.longForm
  root : d.feed.root ≤ d'.feed.root

/-- Names are marked and defined, and entries are added at the current address. An origin is the
only entry that brings its address with it, and a label is bound together with an empty entry. What
other entries can be added is said by `emits`. -/
inductive StepBy (emits : Draft → Entry → Prop) : Draft → Draft → Prop where
  | control {d d' : Draft} (h : d.SameProgram d') : StepBy emits d d'
  | mark {d : Draft} {s : SymbolTable} (h : d.symbols.Marked s) :
      StepBy emits d { d with symbols := s }
  | equate {d : Draft} {name : Text} {w : Word} {s : SymbolTable}
      (h : d.symbols.defineEquate name w = (.ok (), s)) : StepBy emits d { d with symbols := s }
  | emit {d : Draft} {e : Entry} (h : e.address = d.address) (hem : emits d e) :
      StepBy emits d (d.push e)
  | form {d : Draft} {e : Entry} {long : Bool} (h : e.address = d.address)
      (hb : e.body = .form long) (hc : e.caution = none) (ho : e.own = none) :
      StepBy emits d ({ d with longForm := long }.push e)
  | jump {d : Draft} {e : Entry} (h : e.body = .origin) (hc : e.caution = none)
      (ho : e.own = none) : StepBy emits d ({ d with address := e.address }.push e)
  | label {d : Draft} {name stored : Text} {s : SymbolTable} {e : Entry}
      (h : d.symbols.defineLabel name d.address d.entries.size = (.ok stored, s))
      (ha : e.address = d.address) (hb : e.body = .blank) (hc : e.caution = none)
      (ho : e.own = none) : StepBy emits d ({ d with symbols := s }.push e)
  | anonymous {d : Draft} {feed : Feed} {e : Entry} (h : d.feed.root < feed.root)
      (ha : e.address = d.address) (hb : e.body = .blank) (hc : e.caution = none)
      (ho : e.own = none) : StepBy emits d ({ d with
        feed := feed
        symbols := d.symbols.defineAnonymous feed.root d.address d.entries.size }.push e)

theorem StepBy.mono {emits emits' : Draft → Entry → Prop} (h : ∀ d e, emits d e → emits' d e)
    {d d' : Draft} (hs : StepBy emits d d') : StepBy emits' d d' := by
  cases hs with
  | control h => exact .control h
  | mark h => exact .mark h
  | equate h => exact .equate h
  | emit ha hem => exact .emit ha (h _ _ hem)
  | form ha hb hc ho => exact .form ha hb hc ho
  | jump hb hc ho => exact .jump hb hc ho
  | label hd ha hb hc ho => exact .label hd ha hb hc ho
  | anonymous hr ha hb hc ho => exact .anonymous hr ha hb hc ho

/-- A step with any entry. -/
abbrev Step : Draft → Draft → Prop := StepBy fun _ _ => True

/-- Any number of steps. -/
abbrev Steps : Draft → Draft → Prop := Relation.ReflTransGen Step

/-- The entries that lines are turned into: those of plugins, plain ones, alignments with their
fault, and instructions whose operands have been evaluated just before. Lines know nothing of
addresses that wrap, and only plugins give entries words of their own. -/
inductive Emits (v : Session) (d : Draft) (e : Entry) : Prop where
  | claimed {c : LineContext} {t : Text} {p : Text × Entry} (h : v.hooks.claim? c t = some p)
      (hb : e.body = p.2.body) (hc : e.caution = p.2.caution) (ho : e.own = p.2.own)
  | plain (h : e.body.isPlain = true) (hc : e.caution = none) (ho : e.own = none)
  | align {target : Word} (hb : e.body = .align target)
      (hf : e.fault = if target < e.address then some .alignToPast else none)
      (hc : e.caution = none) (ho : e.own = none)
  | instruction {i : Instruction} {s : SymbolTable} (hb : e.body = .instruction i)
      (hr : e.root = d.feed.root) (hs : s.Marked d.symbols)
      (hi : i.IsEvaluated v s e.position d.longForm) (hc : e.caution ≠ some .addressWrap)
      (ho : e.own = none)

/-- Any number of steps with entries that lines are turned into. -/
abbrev Advances (v : Session) : Draft → Draft → Prop :=
  Relation.ReflTransGen (StepBy (Emits v))

/-- What every step keeps, reading keeps. -/
theorem Steps.keeps {P : Draft → Prop} {d d' : Draft}
    (step : ∀ d d' : Draft, d.Step d' → P d → P d') (h : d.Steps d') (hd : P d) : P d' := by
  induction h with
  | refl => exact hd
  | tail _ hs ih => exact step _ _ hs ih

namespace Advances

variable {v : Session} {d d' : Draft} {e : Entry}

theorem steps (h : d.Advances v d') : d.Steps d' :=
  Relation.ReflTransGen.mono (fun _ _ => StepBy.mono fun _ _ _ => trivial) _ _ h

theorem blocks (blocks : Conditions) : d.Advances v { d with blocks := blocks } :=
  .single (.control ⟨rfl, rfl, rfl, rfl, Nat.le_refl _⟩)

theorem templates (templates : List Template) : d.Advances v { d with templates := templates } :=
  .single (.control ⟨rfl, rfl, rfl, rfl, Nat.le_refl _⟩)

theorem feed {feed : Feed} (h : d.feed.root ≤ feed.root) :
    d.Advances v { d with feed := feed } :=
  .single (.control ⟨rfl, rfl, rfl, rfl, h⟩)

theorem push (h : e.PlainAt d.address) : d.Advances v (d.push e) :=
  .single (.emit h.address (.plain h.plain h.caution h.own))

theorem pushFault (h : e.PlainAt d.address) (f : Fault) : d.Advances v (d.pushFault e f) :=
  push ⟨h.address, h.plain, h.caution, h.own⟩

theorem pushOutcome (h : e.PlainAt d.address) (f : Option Fault) :
    d.Advances v (d.pushOutcome e f) := by
  cases f with
  | none => exact push h
  | some f => exact pushFault h f

theorem mark {s : SymbolTable} (h : d.symbols.Marked s) : d.Advances v { d with symbols := s } :=
  .single (.mark h)

theorem pushAll {α : Type} (f : Draft → α → Entry) (hf : ∀ d a, (f d a).PlainAt d.address)
    (as : List α) (d : Draft) : d.Advances v (as.foldl (fun d a => d.push (f d a)) d) := by
  induction as generalizing d with
  | nil => exact .refl
  | cons a as ih => exact (push (hf d a)).trans (ih _)

end Advances

end Draft

theorem Operand.ofMatch_evaluated {v : Session} {s t : SymbolTable} {p : Position} {m : Match}
    {o : Operand} {ok : Bool} (h : Operand.ofMatch v s p m = .ok (o, ok, t)) :
    o.IsEvaluated v s p ok := by
  unfold Operand.ofMatch at h
  intro l hl
  split at h
  · obtain ⟨rfl, -, -⟩ : (⟨m.pattern.code, none⟩ : Operand) = o ∧ _ ∧ _ := by simpa using h
    nomatch hl
  next x _ =>
    obtain ⟨⟨r, s'⟩, hr, h⟩ := bind_eq_ok.mp h
    obtain ⟨rfl, rfl, -⟩ : (⟨m.pattern.code, some ⟨x, r.value⟩⟩ : Operand) = o ∧ r.ok = ok ∧ _ := by
      simpa using pure_eq_ok.mp h
    obtain rfl := Option.some.inj hl
    exact ⟨r, (Session.eval_eq_ok.mp hr).1, rfl, fun _ => rfl⟩

theorem Operand.ofMatch?_evaluated {v : Session} {s t : SymbolTable} {p : Position}
    {m : Option Match} {o : Operand} (h : Operand.ofMatch? v s p m = .ok (some o, t)) :
    ∃ ok, o.IsEvaluated v s p ok := by
  cases m with
  | none => nomatch h
  | some m =>
    obtain ⟨⟨o', ok, t'⟩, ho, h⟩ := bind_eq_ok.mp h
    obtain ⟨hs, -⟩ := Prod.mk.inj (pure_eq_ok.mp h)
    obtain rfl := Option.some.inj hs
    exact ⟨ok, Operand.ofMatch_evaluated ho⟩

theorem Feed.root_le_takeBlock (stop : Text → Bool) (feed : Feed) :
    feed.root ≤ (feed.takeBlock stop).2.2.root := by
  unfold takeBlock
  split
  · exact Nat.le_refl _
  · exact Nat.le_add_right _ _

namespace Draft

variable {v : Session} {d d' : Draft} {e : Entry} {args : Text}

section Blocks

theorem enterBlock_advances (he : e.PlainAt d.address) (c : Except Fault Bool) :
    d.Advances v (d.enterBlock e c) := by
  refine (Advances.blocks _).trans (Advances.pushOutcome ?_ _)
  exact he

theorem setBlocks_advances (he : e.PlainAt d.address) (blocks : Except Fault Conditions) :
    d.Advances v (d.setBlocks e blocks) := by
  cases blocks with
  | ok blocks =>
    refine (Advances.blocks _).trans (Advances.push ?_)
    exact he
  | error f => exact Advances.pushFault he f

theorem enterIfDefined_advances (he : e.PlainAt d.address) (wanted : Bool) :
    d.Advances v (d.enterIfDefined e args wanted) := by
  unfold enterIfDefined
  split
  · exact enterBlock_advances he _
  · exact enterBlock_advances he _

theorem enterIf_advances (he : e.PlainAt d.address) (h : d.enterIf v e args = .ok d') :
    d.Advances v d' := by
  unfold enterIf at h
  split at h
  · obtain ⟨⟨c, s⟩, hc, h⟩ := bind_eq_ok.mp h
    obtain rfl := pure_eq_ok.mp h
    refine (Advances.mark (condition_marked hc)).trans (enterBlock_advances ?_ c)
    exact he
  · obtain rfl := Except.ok.inj h
    exact enterBlock_advances he _

theorem elseIf_advances (he : e.PlainAt d.address) (h : d.elseIf v e args = .ok d') :
    d.Advances v d' := by
  unfold elseIf at h
  split at h
  · obtain rfl := Except.ok.inj h
    exact Advances.pushFault he _
  · obtain rfl := Except.ok.inj h
    exact setBlocks_advances he _
  · obtain ⟨⟨c, s⟩, hc, h⟩ := bind_eq_ok.mp h
    refine (Advances.mark (condition_marked hc)).trans ?_
    dsimp only at h
    split at h
    · obtain rfl := pure_eq_ok.mp h
      refine (Advances.blocks _).trans (Advances.pushOutcome ?_ _)
      exact he
    · obtain rfl := pure_eq_ok.mp h
      apply Advances.pushFault
      exact he

end Blocks

section Values

/-- How an equate gets its value: without an expression it is one. -/
def EquateValue (v : Session) (d : Draft) (e : Entry) (expr : Text) (value : Except Fault Word)
    (s : SymbolTable) : Prop :=
  (expr = [] ∧ value = .ok 1 ∧ s = d.symbols) ∨
    (expr ≠ [] ∧ v.immediate d.symbols e.position expr = .ok (value, s))

theorem EquateValue.marked {expr : Text} {value : Except Fault Word} {s : SymbolTable}
    (h : EquateValue v d e expr value s) : d.symbols.Marked s := by
  rcases h with ⟨-, -, rfl⟩ | ⟨-, h⟩
  · exact .refl _
  · exact Session.immediate_marked h

/-- An equate is defined with the value of its expression, or the entry has a fault. -/
theorem equate_cases (h : d.equate v e args = .ok d') :
    (∃ f s, d.symbols.Marked s ∧ d' = { d with symbols := s }.pushFault e f) ∨
      ∃ name expr w s t, Text.firstWord args = (name, expr) ∧
        EquateValue v d e expr (.ok w) s ∧ s.defineEquate name w = (.ok (), t) ∧
        d' = { d with symbols := t }.push e := by
  unfold equate at h
  split at h
  · obtain rfl := Except.ok.inj h
    exact .inl ⟨_, d.symbols, .refl _, rfl⟩
  next name expr _ hw =>
    split at h
    · obtain rfl := Except.ok.inj h
      exact .inl ⟨_, d.symbols, .refl _, rfl⟩
    · obtain ⟨value, s, hv, herror, hok⟩ : ∃ value s, EquateValue v d e expr value s ∧
          (∀ f, value = .error f → d' = { d with symbols := s }.pushFault e f) ∧
          ∀ w, value = .ok w → d' = { d with symbols := (s.defineEquate name w).2 }.pushOutcome e
            (faultOf (s.defineEquate name w).1) := by
        dsimp only at h
        split at h
        next hx =>
          obtain ⟨⟨value, s⟩, hs, h⟩ := bind_eq_ok.mp h
          obtain ⟨hvalue, hsymbols⟩ := Prod.mk.inj (Except.ok.inj hs)
          refine ⟨value, s, .inl ⟨List.isEmpty_iff.mp hx, hvalue.symm, hsymbols.symm⟩, ?_, ?_⟩
          all_goals
            rintro x rfl
            exact (Except.ok.inj h).symm
        next hx =>
          obtain ⟨⟨value, s⟩, hs, h⟩ := bind_eq_ok.mp h
          refine ⟨value, s, .inr ⟨fun hn => hx (List.isEmpty_iff.mpr hn), hs⟩, ?_, ?_⟩
          all_goals
            rintro x rfl
            exact (Except.ok.inj h).symm
      cases value with
      | error f => exact .inl ⟨f, s, hv.marked, herror f rfl⟩
      | ok w =>
        obtain rfl := hok w rfl
        rcases ht : s.defineEquate name w with ⟨f | u, t⟩
        · obtain rfl := SymbolTable.eq_of_defineEquate_error ht
          exact .inl ⟨f, t, hv.marked, rfl⟩
        · exact .inr ⟨name, expr, w, s, t, hw, hv, ht, rfl⟩

theorem equate_stepBy {emits : Draft → Entry → Prop} (he : e.address = d.address)
    (hem : ∀ (d : Draft) (fault : Option Fault), emits d { e with fault := fault })
    (h : d.equate v e args = .ok d') : Relation.ReflTransGen (StepBy emits) d d' := by
  rcases equate_cases h with ⟨f, s, hm, rfl⟩ | ⟨name, expr, w, s, t, -, hv, ht, rfl⟩
  · refine .tail (.single (.mark hm)) (.emit ?_ (hem _ _))
    exact he
  · have hd : StepBy emits { d with symbols := s } { d with symbols := t } :=
      .equate (d := { d with symbols := s }) ht
    refine .tail (.tail (.single (.mark hv.marked)) hd) (.emit ?_ (hem _ e.fault))
    exact he

theorem equate_steps (he : e.address = d.address) (h : d.equate v e args = .ok d') :
    d.Steps d' :=
  equate_stepBy he (fun _ _ => trivial) h

theorem equate_advances (he : e.PlainAt d.address) (h : d.equate v e args = .ok d') :
    d.Advances v d' :=
  equate_stepBy he.address (fun _ _ => .plain he.plain he.caution he.own) h

theorem origin_advances (he : e.PlainAt d.address) (h : d.origin v e args = .ok d') :
    d.Advances v d' := by
  unfold origin at h
  split at h
  · obtain rfl := Except.ok.inj h
    exact Advances.pushFault he _
  · obtain ⟨⟨value, s⟩, hs, h⟩ := bind_eq_ok.mp h
    refine (Advances.mark (Session.immediate_marked hs)).trans ?_
    dsimp only at h
    split at h
    next w =>
      obtain rfl := pure_eq_ok.mp h
      exact .single (.jump (d := { d with symbols := s })
        (e := { e with address := w, body := .origin }) rfl he.caution he.own)
    next =>
      obtain rfl := pure_eq_ok.mp h
      apply Advances.pushFault
      exact he

theorem length_advances {value : Except Fault Word} (h : d.length v e args = .ok (value, d')) :
    d.Advances v d' ∧ d'.address = d.address := by
  unfold length at h
  split at h
  · split at h
    · obtain ⟨-, rfl⟩ := Prod.mk.inj (Except.ok.inj h)
      exact ⟨.refl, rfl⟩
    · obtain ⟨⟨w, s⟩, hw, h⟩ := bind_eq_ok.mp h
      obtain ⟨-, rfl⟩ := Prod.mk.inj (pure_eq_ok.mp h)
      exact ⟨Advances.mark (Session.immediate_marked hw), rfl⟩
  · obtain ⟨-, rfl⟩ := Prod.mk.inj (Except.ok.inj h)
    exact ⟨.refl, rfl⟩

theorem align_advances (he : e.PlainAt d.address) (hf : e.fault = none)
    (h : d.align v e args = .ok d') : d.Advances v d' := by
  obtain ⟨⟨value, d₁⟩, hl, h⟩ := bind_eq_ok.mp h
  obtain ⟨hs, ha⟩ := length_advances hl
  refine hs.trans ?_
  rw [← ha] at he
  cases value with
  | ok target =>
    obtain rfl := pure_eq_ok.mp h
    have hd : e.address = d₁.address := he.address
    split
    next hp => exact .single (.emit hd (.align rfl (if_pos (hd ▸ hp)).symm he.caution he.own))
    next hp =>
      exact .single (.emit hd (.align rfl (hf.trans (if_neg (hd ▸ hp)).symm) he.caution he.own))
  | error f =>
    obtain rfl := pure_eq_ok.mp h
    exact Advances.pushFault he f

theorem reserve_advances (he : e.PlainAt d.address) (h : d.reserve v e args = .ok d') :
    d.Advances v d' := by
  obtain ⟨⟨value, d₁⟩, hl, h⟩ := bind_eq_ok.mp h
  obtain ⟨hs, ha⟩ := length_advances hl
  refine hs.trans ?_
  rw [← ha] at he
  cases value with
  | ok n =>
    obtain rfl := pure_eq_ok.mp h
    exact Advances.push ⟨he.address, rfl, he.caution, he.own⟩
  | error f =>
    obtain rfl := pure_eq_ok.mp h
    exact Advances.pushFault he f

end Values

section Words

theorem pad_advances (he : e.PlainAt d.address) (h : d.pad v e args = .ok d') : d.Advances v d' := by
  unfold pad at h
  split at h
  · obtain ⟨⟨n, s⟩, hn, h⟩ := bind_eq_ok.mp h
    have hs := Session.immediate_marked hn
    cases n with
    | ok n =>
      obtain ⟨⟨r, t⟩, hr, h⟩ := bind_eq_ok.mp h
      obtain rfl := pure_eq_ok.mp h
      refine (Advances.mark (hs.trans (Session.eval_marked hr))).trans (Advances.push ?_)
      exact ⟨he.address, Body.isPlain_ofCells _, he.caution, he.own⟩
    | error f =>
      obtain rfl := pure_eq_ok.mp h
      refine (Advances.mark hs).trans (Advances.pushFault ?_ f)
      exact he
  · obtain rfl := Except.ok.inj h
    exact Advances.pushFault he _
  · obtain rfl := Except.ok.inj h
    exact Advances.pushFault he _
  · obtain rfl := Except.ok.inj h
    exact Advances.pushFault he _

theorem data_advances (he : e.PlainAt d.address) (h : d.data v e args = .ok d') : d.Advances v d' := by
  unfold data at h
  split at h
  · obtain rfl := Except.ok.inj h
    exact Advances.pushFault he _
  · obtain ⟨run, hr, h⟩ := bind_eq_ok.mp h
    obtain rfl := pure_eq_ok.mp h
    refine (Advances.mark (dataCells_marked hr)).trans (Advances.pushOutcome ?_ _)
    exact ⟨he.address, Body.isPlain_ofCells _, he.caution, he.own⟩

theorem string_advances (he : e.PlainAt d.address) (style : StringStyle) :
    d.Advances v (d.string style e args) := by
  unfold string
  split
  · exact Advances.pushFault he _
  · apply Advances.pushOutcome
    exact ⟨he.address, rfl, he.caution, he.own⟩

theorem includeText_advances (he : e.PlainAt d.address) (h : d.includeText v e args = .ok d') :
    d.Advances v d' := by
  obtain ⟨found, -, h⟩ := bind_eq_ok.mp h
  cases found with
  | none =>
    obtain rfl := pure_eq_ok.mp h
    exact Advances.pushFault he _
  | some found =>
    dsimp only at h
    split at h
    · obtain rfl := pure_eq_ok.mp h
      refine (Advances.feed ?_).trans (Advances.push ?_)
      · exact Nat.le_refl _
      · exact he
    · obtain rfl := pure_eq_ok.mp h
      exact Advances.pushFault he _

theorem includeBytes_advances {packed : Bool} (he : e.PlainAt d.address)
    (h : d.includeBytes v packed e args = .ok d') : d.Advances v d' := by
  obtain ⟨found, -, h⟩ := bind_eq_ok.mp h
  dsimp only at h
  split at h
  · obtain rfl := pure_eq_ok.mp h
    apply Advances.push
    exact ⟨he.address, rfl, he.caution, he.own⟩
  · obtain rfl := pure_eq_ok.mp h
    exact Advances.pushFault he _

end Words

section Rest

theorem template_advances (he : e.PlainAt d.address) (line : SourceLine) :
    d.Advances v (d.template line e args) := by
  unfold template
  have hf : d.Advances v { d with feed := (d.feed.takeBlock endsTemplate).2.2 } :=
    Advances.feed (Feed.root_le_takeBlock _ _)
  refine hf.trans ?_
  dsimp only
  split
  · apply Advances.pushFault
    exact he
  · split
    · refine Relation.ReflTransGen.trans ?_ (Advances.templates _)
      refine Relation.ReflTransGen.trans ?_ (Advances.pushAll _ (fun _ _ => ⟨rfl, rfl, rfl, rfl⟩) _ _)
      apply Advances.pushOutcome
      exact he
    · refine Relation.ReflTransGen.trans ?_ (Advances.pushAll _ (fun _ _ => ⟨rfl, rfl, rfl, rfl⟩) _ _)
      apply Advances.pushOutcome
      exact he

theorem echo_advances (he : e.PlainAt d.address) (h : d.echo v e args = .ok d') : d.Advances v d' := by
  unfold echo at h
  split at h
  · obtain rfl := Except.ok.inj h
    exact Advances.pushFault he _
  · obtain ⟨⟨message, ok, s⟩, hm, h⟩ := bind_eq_ok.mp h
    obtain rfl := pure_eq_ok.mp h
    refine (Advances.mark (echoText_marked hm)).trans ((Advances.pushOutcome ?_ _).trans (Advances.push ?_))
    · exact he
    · exact ⟨rfl, rfl, rfl, rfl⟩

theorem reference_advances (he : e.PlainAt d.address) : d.Advances v (d.reference e args) := by
  unfold reference
  split
  · refine (Advances.mark ⟨_, rfl⟩).trans (Advances.push ?_)
    exact he
  · exact Advances.pushFault he _

/-- Every directive consists of steps. -/
theorem directive_advances {line : SourceLine} {text : Text}
    (h : d.directive v line text = .ok d') : d.Advances v d' := by
  have he : (d.entry line text).PlainAt d.address := ⟨rfl, rfl, rfl, rfl⟩
  unfold directive at h
  dsimp only at h
  split at h
  · exact Except.ok.inj h ▸ Advances.pushFault he _
  · exact enterIf_advances he h
  · exact Except.ok.inj h ▸ enterIfDefined_advances he true
  · exact Except.ok.inj h ▸ enterIfDefined_advances he false
  · exact elseIf_advances he h
  · exact Except.ok.inj h ▸ setBlocks_advances he _
  · exact Except.ok.inj h ▸ setBlocks_advances he _
  · exact equate_advances he h
  · exact origin_advances he h
  · exact align_advances he rfl h
  · exact reserve_advances he h
  · exact pad_advances he h
  · exact data_advances he h
  · exact Except.ok.inj h ▸ string_advances he _
  · exact includeText_advances he h
  · exact includeBytes_advances he h
  · exact Except.ok.inj h ▸ template_advances he line
  · exact Except.ok.inj h ▸ Advances.pushFault he _
  · exact echo_advances he h
  · exact Except.ok.inj h ▸ reference_advances he
  next on _ =>
    obtain rfl := Except.ok.inj h
    have hl : d.Advances v { d with listed := on } :=
      .single (.control ⟨rfl, rfl, rfl, rfl, Nat.le_refl _⟩)
    refine hl.trans (Advances.push ?_)
    exact ⟨rfl, rfl, rfl, rfl⟩
  next long _ =>
    obtain rfl := Except.ok.inj h
    refine .single (.form ?_ ?_ ?_ ?_)
    · rfl
    · rfl
    · rfl
    · rfl
  · exact Except.ok.inj h ▸ Advances.push he

end Rest

section Lines

variable {line : SourceLine} {text : Text}

/-- The next line is read, and its label bound. -/
theorem takeLabel_advances {feed : Feed} (hr : line.root = feed.root)
    (hf : d.feed.root < feed.root) :
    d.Advances v ({ d with feed := feed }.takeLabel line text).1 := by
  have hfeed : d.Advances v { d with feed := feed } := Advances.feed (Nat.le_of_lt hf)
  unfold takeLabel
  split
  · exact hfeed
  · dsimp only
    split
    · rw [hr]
      refine .single (.anonymous hf ?_ ?_ ?_ ?_)
      · rfl
      · rfl
      · rfl
      · rfl
    · rcases hs : d.symbols.defineLabel _ _ _ with ⟨f | stored, s⟩
      · obtain rfl := SymbolTable.eq_of_defineLabel_error hs
        exact hfeed.trans (Advances.pushFault ⟨rfl, rfl, rfl, rfl⟩ _)
      · refine hfeed.tail (.label hs ?_ ?_ ?_ ?_)
        · rfl
        · rfl
        · rfl
        · rfl

theorem expandCall?_advances (h : d.expandCall? line text = some d') : d.Advances v d' := by
  simp only [expandCall?, Option.bind_eq_bind, Option.bind_eq_some_iff] at h
  obtain ⟨⟨name, args⟩, -, m, -, h⟩ := h
  obtain rfl := Option.some.inj h
  refine Relation.ReflTransGen.trans (Advances.push ?_) (Advances.feed ?_)
  · exact ⟨rfl, rfl, rfl, rfl⟩
  · exact Nat.le_refl _

theorem encoded_advances {opcode a : Match} {b : Option Match} (he : e.address = d.address)
    (hr : e.root = d.feed.root) (hc : e.caution ≠ some .addressWrap) (ho : e.own = none)
    (h : d.encoded v e opcode a b = .ok d') : d.Advances v d' := by
  obtain ⟨⟨oa, ok, s⟩, ha, h⟩ := bind_eq_ok.mp h
  obtain ⟨⟨ob, t⟩, hb, h⟩ := bind_eq_ok.mp h
  obtain rfl := pure_eq_ok.mp h
  have hm := (Operand.ofMatch_marked ha).trans (Operand.ofMatch?_marked hb)
  have hi : Instruction.IsEvaluated v d.symbols e.position d.longForm
      ((⟨opcode.pattern.code, oa, ob, false⟩ : Instruction).pack (ok && !d.longForm)) := by
    refine ⟨ok, s, Operand.ofMatch_evaluated ha, Operand.ofMatch_marked ha, fun o ho => ?_, rfl⟩
    obtain rfl : ob = some o := ho
    exact Operand.ofMatch?_evaluated hb
  refine (Advances.mark hm).tail (.emit ?_ (.instruction rfl ?_ hm ?_ ?_ ?_))
  · exact he
  · exact hr
  · exact hi
  · exact hc
  · exact ho

theorem operandCaution_ne_addressWrap (opcode a b : Match) :
    operandCaution opcode a b ≠ some .addressWrap := by
  unfold operandCaution
  split
  · simp
  · split <;> simp

theorem instruction_advances (hr : line.root = d.feed.root)
    (h : d.instruction v line text = .ok d') : d.Advances v d' := by
  unfold instruction at h
  dsimp only at h
  split at h
  · obtain rfl := Except.ok.inj h
    exact Advances.pushFault ⟨rfl, rfl, rfl, rfl⟩ _
  · split at h
    · refine encoded_advances ?_ ?_ ?_ ?_ h
      · rfl
      · exact hr
      · exact operandCaution_ne_addressWrap _ _ _
      · rfl
    · refine encoded_advances ?_ ?_ ?_ ?_ h
      · rfl
      · exact hr
      · simp [entry]
      · rfl
    · obtain rfl := Except.ok.inj h
      apply Advances.pushFault
      exact ⟨rfl, rfl, rfl, rfl⟩

theorem statement_advances (hr : line.root = d.feed.root)
    (h : d.statement v line text = .ok d') : d.Advances v d' := by
  unfold statement at h
  split at h
  · obtain rfl := Except.ok.inj h
    exact .refl
  · dsimp only at h
    split at h
    · exact directive_advances h
    · split at h
      next hx =>
        obtain rfl := Except.ok.inj h
        exact expandCall?_advances hx
      next => exact instruction_advances hr h

theorem skippedLine_advances (h : d.skippedLine v line text = .ok d') : d.Advances v d' := by
  unfold skippedLine at h
  split at h
  · exact directive_advances h
  · obtain rfl := Except.ok.inj h
    exact .refl

theorem pushOutcome_feed (d : Draft) (e : Entry) (f : Option Fault) :
    (d.pushOutcome e f).feed = d.feed := by
  cases f <;> rfl

theorem takeLabel_feed (d : Draft) (line : SourceLine) (text : Text) :
    (d.takeLabel line text).1.feed = d.feed := by
  unfold takeLabel
  split
  · rfl
  · dsimp only
    split
    · rfl
    · exact pushOutcome_feed ..

theorem takeLabel_rest (d : Draft) (line : SourceLine) (text : Text) :
    (d.takeLabel line text).2 = afterLabel text := by
  unfold takeLabel afterLabel
  cases LabelPart.ofLine? text with
  | none => rfl
  | some label =>
    dsimp only
    split
    · rfl
    · rfl

/-- Reading a line consists of steps. -/
theorem line_advances {feed : Feed} (hr : line.root = feed.root) (hf : d.feed.root < feed.root)
    (h : { d with feed := feed }.line v line = .ok d') : d.Advances v d' := by
  have hfeed : d.Advances v { d with feed := feed } := Advances.feed (Nat.le_of_lt hf)
  unfold Draft.line at h
  dsimp only at h
  split at h
  · obtain rfl := Except.ok.inj h
    exact hfeed
  · split at h
    · exact hfeed.trans (skippedLine_advances h)
    · split at h
      next plugin entry hc =>
        obtain rfl := Except.ok.inj h
        let event := Event.claimed plugin (Text.clean line.text) ⟨line.file, line.line, d.address⟩
        have hv : d.Advances v { d with feed := feed, events := d.events.push event } :=
          .single (.control ⟨rfl, rfl, rfl, rfl, Nat.le_of_lt hf⟩)
        refine hv.tail (.emit ?_ (.claimed hc rfl rfl rfl))
        rfl
      next =>
        refine (takeLabel_advances hr hf).trans (statement_advances ?_ h)
        rw [takeLabel_feed]
        exact hr

end Lines

end Draft

theorem Feed.next?_root {feed rest : Feed} {line : SourceLine}
    (h : feed.next? = some (line, rest)) :
    line.root = rest.root ∧ rest.root = feed.root + 1 := by
  unfold next? nextInFrame? at h
  dsimp only at h
  split at h
  · nomatch h
  · split at h
    · nomatch h
    · obtain ⟨rfl, rfl⟩ := Prod.mk.inj (Option.some.inj h)
      exact ⟨rfl, rfl⟩

namespace Draft

/-- The draft reads its next line and becomes another one. -/
def ReadsLine (v : Session) (d d' : Draft) : Prop :=
  ∃ line feed, d.feed.next? = some (line, feed) ∧ { d with feed := feed }.line v line = .ok d'

theorem ReadsLine.advances {v : Session} {d d' : Draft} (h : d.ReadsLine v d') :
    d.Advances v d' := by
  obtain ⟨line, feed, hn, hl⟩ := h
  obtain ⟨hr, hs⟩ := Feed.next?_root hn
  exact line_advances hr (by omega) hl

/-- Reading to the end is reading one line after the other until there is none. -/
theorem readAll_reads {v : Session} {steps : Nat} {d d' : Draft} (h : d.readAll v steps = .ok d') :
    Relation.ReflTransGen (ReadsLine v) d d' ∧ d'.feed.next? = none := by
  induction steps generalizing d with
  | zero => nomatch h
  | succ steps ih =>
    rw [readAll] at h
    split at h
    next hn =>
      obtain rfl := Except.ok.inj h
      exact ⟨.refl, hn⟩
    next line feed hn =>
      split at h
      next d₁ hl =>
        obtain ⟨hr, he⟩ := ih h
        exact ⟨.head ⟨line, feed, hn, hl⟩ hr, he⟩
      next => nomatch h

theorem Advances.of_reads {v : Session} {d d' : Draft}
    (h : Relation.ReflTransGen (ReadsLine v) d d') : d.Advances v d' := by
  induction h with
  | refl => exact .refl
  | tail _ hl ih => exact ih.trans hl.advances

theorem Steps.of_reads {v : Session} {d d' : Draft}
    (h : Relation.ReflTransGen (ReadsLine v) d d') : d.Steps d' :=
  (Advances.of_reads h).steps

theorem readAll_advances {v : Session} {steps : Nat} {d d' : Draft}
    (h : d.readAll v steps = .ok d') : d.Advances v d' :=
  Advances.of_reads (readAll_reads h).1

theorem readAll_steps {v : Session} {steps : Nat} {d d' : Draft} (h : d.readAll v steps = .ok d') :
    d.Steps d' :=
  (readAll_advances h).steps

section Entries

variable {v : Session} {d d' : Draft} {P : Entry → Prop}

/-- What holds of an entry whatever is doubtful about it, and of all before it. -/
theorem forall_push {e : Entry} (h : ∀ x ∈ d.entries.toList, P x)
    (he : ∀ c, P { e with caution := c }) : ∀ x ∈ (d.push e).entries.toList, P x := by
  obtain ⟨c, hp⟩ := d.push_eq e
  rw [hp]
  intro x hx
  simp only [Array.toList_push, List.mem_append, List.mem_singleton] at hx
  rcases hx with hx | rfl
  · exact h x hx
  · exact he c

/-- What holds of the entries of plugins, and of all others because they have no words of their own,
holds of every entry. -/
theorem Advances.forall_entries
    (claimed : ∀ c t p (e : Entry), v.hooks.claim? c t = some p → e.body = p.2.body →
      e.own = p.2.own → P e)
    (standard : ∀ e : Entry, e.own = none → P e) (h : d.Advances v d')
    (hd : ∀ e ∈ d.entries.toList, P e) : ∀ e ∈ d'.entries.toList, P e := by
  induction h with
  | refl => exact hd
  | tail _ hs ih =>
    cases hs with
    | control h =>
      rw [h.entries]
      exact ih
    | mark => exact ih
    | equate => exact ih
    | emit _ hem =>
      refine forall_push ih fun _ => ?_
      cases hem with
      | claimed hc hb _ ho => exact claimed _ _ _ _ hc hb ho
      | plain _ _ ho => exact standard _ ho
      | align _ _ _ ho => exact standard _ ho
      | instruction _ _ _ _ _ ho => exact standard _ ho
    | form _ _ _ ho => exact forall_push ih fun _ => standard _ ho
    | jump _ _ ho => exact forall_push ih fun _ => standard _ ho
    | label _ _ _ _ ho => exact forall_push ih fun _ => standard _ ho
    | anonymous _ _ _ _ ho => exact forall_push ih fun _ => standard _ ho

/-- Without plugins no entry has words of its own. -/
theorem own_of_readAll {steps : Nat} {file source : Text} (hv : v.hooks.plugins = [])
    (h : (v.start file source).readAll v steps = .ok d) :
    ∀ e ∈ d.entries.toList, e.own = none := by
  refine (readAll_advances h).forall_entries (fun c t p e hc => ?_) (fun _ ho => ho) ?_
  · simp [Hooks.claim?, hv] at hc
  · intro e he
    cases he

end Entries

end Draft

end Dcpu
