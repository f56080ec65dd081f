import Dcpu.Assembly.Run

/-! The lines to come. What a line does does not depend on them, and it leaves them as they are,
unless it includes a file, defines a macro or calls one. -/
namespace Dcpu.Draft

/-- The draft with other lines to come. -/
def withFeed (d : Draft) (f : Feed) : Draft := { d with feed := f }

/-- The operation works alike whatever lines are to come of the same file, and keeps them. -/
def KeepsFeed (op : Draft → Except Abort Draft) : Prop :=
  ∀ d f, f.currentFile? = d.feed.currentFile? → op (d.withFeed f) = (op d).map (·.withFeed f)

section Pushes

theorem pushOutcome_withFeed (d : Draft) (f : Feed) (e : Entry) (o : Option Fault) :
    (d.withFeed f).pushOutcome e o = (d.pushOutcome e o).withFeed f := by
  cases o with
  | none => rfl
  | some fault => rfl

theorem enterBlock_withFeed (d : Draft) (f : Feed) (e : Entry) (c : Except Fault Bool) :
    (d.withFeed f).enterBlock e c = (d.enterBlock e c).withFeed f :=
  pushOutcome_withFeed { d with blocks := d.blocks.enter (holds c) } f e (faultOf c)

theorem enterIfDefined_withFeed (e : Entry) (args : Text) (wanted : Bool) (d : Draft) (f : Feed) :
    (d.withFeed f).enterIfDefined e args wanted = (d.enterIfDefined e args wanted).withFeed f := by
  unfold enterIfDefined
  change (if d.blocks.active = true then _ else _) = _
  split
  · exact enterBlock_withFeed d f e _
  · exact enterBlock_withFeed d f e _

theorem setBlocks_withFeed (e : Entry) (blocks : Except Fault Conditions) (d : Draft) (f : Feed) :
    (d.withFeed f).setBlocks e blocks = (d.setBlocks e blocks).withFeed f := by
  cases blocks with
  | ok blocks => rfl
  | error fault => rfl

theorem string_withFeed (style : StringStyle) (e : Entry) (args : Text) (d : Draft) (f : Feed) :
    (d.withFeed f).string style e args = (d.string style e args).withFeed f := by
  unfold string
  split
  · rfl
  · exact pushOutcome_withFeed d f _ _

theorem reference_withFeed (e : Entry) (args : Text) (d : Draft) (f : Feed) :
    (d.withFeed f).reference e args = (d.reference e args).withFeed f := by
  unfold reference
  cases singleName args with
  | ok name => rfl
  | error fault => rfl

end Pushes

section Directives

variable (v : Session) (e : Entry) (args : Text)

theorem keepsFeed_enterIf : KeepsFeed (enterIf v · e args) := by
  intro d f _
  by_cases hb : d.blocks.active = true
  · simp only [enterIf, withFeed, hb, if_true]
    cases condition v d.symbols e args with
    | error a => rfl
    | ok x => exact congrArg Except.ok (enterBlock_withFeed { d with symbols := x.2 } f e x.1)
  · simp only [enterIf, withFeed, hb]
    exact congrArg Except.ok (enterBlock_withFeed d f e _)

theorem keepsFeed_elseIf : KeepsFeed (elseIf v · e args) := by
  intro d f _
  simp only [elseIf, withFeed]
  rcases d.blocks.wantsBranch with fault | _ | _
  · rfl
  · exact congrArg Except.ok (setBlocks_withFeed e _ d f)
  · cases condition v d.symbols e args with
    | error a => rfl
    | ok x =>
      dsimp only [bind, Except.bind]
      cases d.blocks.branch (holds x.1) with
      | ok blocks =>
        refine congrArg Except.ok ?_
        exact pushOutcome_withFeed { d with symbols := x.2, blocks := blocks } f e (faultOf x.1)
      | error fault => rfl

theorem keepsFeed_equate : KeepsFeed (equate v · e args) := by
  intro d f _
  unfold equate
  split
  · rfl
  next name expr _ _ =>
    by_cases hn : d.symbols.isDefined name = true
    · simp only [withFeed, hn, if_true]
      rfl
    · simp only [withFeed, hn, Bool.false_eq_true, if_false]
      split
      · dsimp only [bind, Except.bind]
        exact congrArg Except.ok (pushOutcome_withFeed
          { d with symbols := (d.symbols.defineEquate name 1).2 } f e _)
      · rcases v.immediate d.symbols e.position expr with a | ⟨fault | w, s⟩
        · rfl
        · rfl
        · dsimp only [bind, Except.bind]
          exact congrArg Except.ok (pushOutcome_withFeed
            { d with symbols := (s.defineEquate name w).2 } f e _)

theorem keepsFeed_origin : KeepsFeed (origin v · e args) := by
  intro d f _
  simp only [origin, withFeed]
  split
  · rfl
  · rcases v.immediate d.symbols e.position args with a | ⟨fault | w, s⟩
    · rfl
    · rfl
    · rfl

theorem length_withFeed (d : Draft) (f : Feed) : (d.withFeed f).length v e args =
    (d.length v e args).map fun x => (x.1, x.2.withFeed f) := by
  simp only [length, withFeed]
  split
  next one _ =>
    split
    · rfl
    · cases v.immediate d.symbols e.position one with
      | error a => rfl
      | ok x => rfl
  · rfl

theorem keepsFeed_align : KeepsFeed (align v · e args) := by
  intro d f _
  simp only [align, length_withFeed]
  rcases d.length v e args with a | ⟨fault | w, d⟩
  · rfl
  · rfl
  · change Except.ok (if w < d.address then _ else _) = Except.ok (withFeed (if _ then _ else _) f)
    split
    · rfl
    · rfl

theorem keepsFeed_reserve : KeepsFeed (reserve v · e args) := by
  intro d f _
  simp only [reserve, length_withFeed]
  rcases d.length v e args with a | ⟨fault | w, d⟩
  · rfl
  · rfl
  · rfl

theorem keepsFeed_pad : KeepsFeed (pad v · e args) := by
  intro d f _
  simp only [pad, withFeed]
  split
  next length fill _ =>
    rcases v.immediate d.symbols e.position length with a | ⟨fault | n, s⟩
    · rfl
    · rfl
    · dsimp only [bind, Except.bind]
      cases v.eval s e.position fill with
      | error a => rfl
      | ok x => rfl
  · rfl
  · rfl
  · rfl

theorem keepsFeed_data : KeepsFeed (data v · e args) := by
  intro d f _
  simp only [data, withFeed]
  split
  · rfl
  · cases dataCells v d.symbols e.position (Datum.items args) with
    | error a => rfl
    | ok run =>
      exact congrArg Except.ok (pushOutcome_withFeed { d with symbols := run.symbols } f _ _)

theorem keepsFeed_echo : KeepsFeed (echo v · e args) := by
  intro d f _
  simp only [echo, withFeed]
  split
  · rfl
  · rcases echoText v e.position (Datum.items args) d.symbols with a | ⟨message, ok, s⟩
    · rfl
    · cases ok with
      | true => rfl
      | false => rfl

theorem locate_withFeed {d : Draft} {f : Feed} (hf : f.currentFile? = d.feed.currentFile?) :
    (d.withFeed f).locate v args = d.locate v args := by
  simp only [locate, candidates, withFeed, hf]

theorem keepsFeed_includeBytes (packed : Bool) : KeepsFeed (includeBytes v · packed e args) := by
  intro d f hf
  simp only [includeBytes, locate_withFeed v args hf]
  rcases d.locate v args with a | _ | ⟨path, n⟩
  · rfl
  · rfl
  · cases n with
    | file bytes => rfl
    | _ => rfl

/-- What the definition of a macro does once its lines have been taken. -/
def afterBlock (line : SourceLine) (lines : List Feed.BlockLine) (last : Option Feed.BlockLine)
    (d : Draft) : Draft :=
  match last with
  | none => d.pushFault e .uncoupledStatement
  | some last =>
    let body := lines.filter fun l => !l.text.isEmpty && l.text != ['{']
    let header := Template.header? args
    let d := d.pushOutcome e (if header.isSome then none else some .invalidMacroDefinition)
    let d := (body ++ [last]).foldl (fun d l => d.push (d.note l.text line.file l.line)) d
    match header with
    | some (name, params) =>
      { d with templates := d.templates ++ [⟨name, params, body.map Feed.BlockLine.text⟩] }
    | none => d

theorem template_eq (line : SourceLine) (d : Draft) :
    d.template line e args = afterBlock e args line (d.feed.takeBlock endsTemplate).1
      (d.feed.takeBlock endsTemplate).2.1 (d.withFeed (d.feed.takeBlock endsTemplate).2.2) :=
  rfl

theorem pushNotes_withFeed (file : Text) (ls : List Feed.BlockLine) (d : Draft) (f : Feed) :
    ls.foldl (fun d l => d.push (d.note l.text file l.line)) (d.withFeed f) =
      (ls.foldl (fun d l => d.push (d.note l.text file l.line)) d).withFeed f := by
  induction ls generalizing d with
  | nil => rfl
  | cons l ls ih => exact ih (d.push (d.note l.text file l.line))

theorem afterBlock_withFeed (line : SourceLine) (lines : List Feed.BlockLine)
    (last : Option Feed.BlockLine) (d : Draft) (f : Feed) :
    afterBlock e args line lines last (d.withFeed f) =
      (afterBlock e args line lines last d).withFeed f := by
  cases last with
  | none => rfl
  | some last =>
    simp only [afterBlock, pushOutcome_withFeed, pushNotes_withFeed]
    cases Template.header? args with
    | none => rfl
    | some header => rfl

/-- Directives that neither include a file nor define a macro. -/
theorem keepsFeed_directive (line : SourceLine) {t : Text}
    (hi : (Directive.parse t).1 ≠ some .includeText) (ht : (Directive.parse t).1 ≠ some .template) :
    KeepsFeed (directive v · line t) := by
  intro d f hf
  unfold directive
  dsimp only
  generalize Directive.parse t = parsed at hi ht ⊢
  obtain ⟨name, args⟩ := parsed
  have he : (d.withFeed f).entry line t = d.entry line t := rfl
  rw [he]
  cases name with
  | none => rfl
  | some name =>
    cases name with
    | ifTrue => exact keepsFeed_enterIf v _ args d f hf
    | ifDefined => exact congrArg Except.ok (enterIfDefined_withFeed _ args true d f)
    | ifUndefined => exact congrArg Except.ok (enterIfDefined_withFeed _ args false d f)
    | elseIf => exact keepsFeed_elseIf v _ args d f hf
    | elseAll => exact congrArg Except.ok (setBlocks_withFeed _ (d.blocks.branch true) d f)
    | endBlock => exact congrArg Except.ok (setBlocks_withFeed _ d.blocks.leave d f)
    | equate => exact keepsFeed_equate v _ args d f hf
    | origin => exact keepsFeed_origin v _ args d f hf
    | align => exact keepsFeed_align v _ args d f hf
    | reserve => exact keepsFeed_reserve v _ args d f hf
    | pad => exact keepsFeed_pad v _ args d f hf
    | data => exact keepsFeed_data v _ args d f hf
    | string style => exact congrArg Except.ok (string_withFeed style _ args d f)
    | includeText => exact absurd rfl hi
    | includeBytes packed => exact keepsFeed_includeBytes v _ args packed d f hf
    | template => exact absurd rfl ht
    | endTemplate => rfl
    | echo => exact keepsFeed_echo v _ args d f hf
    | reference => exact congrArg Except.ok (reference_withFeed _ args d f)
    | list on => rfl
    | form long => rfl
    | region => rfl

end Directives

section Lines

theorem takeLabel_withFeed (line : SourceLine) (t : Text) (d : Draft) (f : Feed) :
    (d.withFeed f).takeLabel line t =
      ((d.takeLabel line t).1.withFeed f, (d.takeLabel line t).2) := by
  simp only [takeLabel, withFeed]
  split
  · rfl
  next label _ =>
    split
    · rfl
    · exact congrArg (·, label.rest) (pushOutcome_withFeed { d with
        symbols := (d.symbols.defineLabel label.name d.address d.entries.size).2 } f _ _)

theorem keepsFeed_encoded (v : Session) (e : Entry) (opcode a : Match) (b : Option Match) :
    KeepsFeed (encoded v · e opcode a b) := by
  intro d f _
  simp only [encoded, withFeed]
  rcases Operand.ofMatch v d.symbols e.position a with x | ⟨a, ok, s⟩
  · rfl
  · dsimp only [bind, Except.bind]
    cases Operand.ofMatch? v s e.position b with
    | error x => rfl
    | ok x => rfl

theorem keepsFeed_instruction (v : Session) (line : SourceLine) (t : Text) :
    KeepsFeed (instruction v · line t) := by
  intro d f hf
  simp only [instruction]
  split
  · rfl
  next r _ =>
    split
    · exact keepsFeed_encoded v _ r.opcode _ _ d f hf
    · exact keepsFeed_encoded v _ r.opcode _ none d f hf
    · rfl

theorem entry_withText (d : Draft) (l : SourceLine) (x t : Text) :
    d.entry { l with text := x } t = d.entry l t :=
  rfl

theorem directive_withText (v : Session) (d : Draft) (l : SourceLine) (x t : Text) :
    d.directive v { l with text := x } t = d.directive v l t := by
  simp only [directive, entry_withText, template]

theorem statement_withText (v : Session) (d : Draft) (l : SourceLine) (x t : Text) :
    d.statement v { l with text := x } t = d.statement v l t := by
  have hcall : d.expandCall? { l with text := x } (canonicalStatement t) =
      d.expandCall? l (canonicalStatement t) := rfl
  simp only [statement, directive_withText, hcall, instruction, entry_withText]

/-- The text of a line matters in its clean form only. -/
theorem line_withText (v : Session) (d : Draft) (l : SourceLine) {x : Text}
    (h : Text.clean x = Text.clean l.text) :
    d.line v { l with text := x } = d.line v l := by
  have hlabel (t : Text) : d.takeLabel { l with text := x } t = d.takeLabel l t := rfl
  simp only [line, h, hlabel, skippedLine, directive_withText, statement_withText]

end Lines

end Dcpu.Draft
