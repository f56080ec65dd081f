import Dcpu.Proofs.DraftSteps
import Dcpu.Proofs.PaddedLayout

/-! Reading the lines of a program and of a padded one. A line does the same to both drafts, up to
the numbers of lines and entries. How the supplies of lines are related is left open here. -/
namespace Dcpu
open Answer

section Values

variable {v : Session} (hf : ∀ f ∈ v.hooks.functions, f.2.Unnumbered) (p : Padding)
  (s : SymbolTable) (q : Position)

include hf

theorem condition_renumber (e : Entry) (line : Nat) (args : Text) :
    condition v (s.renumber p) (e.renumber line (p.line e.root)) args =
      (condition v s e args).map fun (c, t) => (c, t.renumber p) := by
  unfold condition
  split
  next => rfl
  next =>
    rw [show (e.renumber line (p.line e.root)).position = e.position.renumber p from rfl,
      Session.immediate_renumber hf]
    cases v.immediate s e.position args with
    | error x => rfl
    | ok r => rfl

theorem dataCells_renumber (items : List Datum) :
    dataCells v (s.renumber p) (q.renumber p) items =
      (dataCells v s q items).map fun run => { run with symbols := run.symbols.renumber p } := by
  refine foldlM_map (m := fun run : DataRun => { run with symbols := run.symbols.renumber p })
    (fun run item => ?_) items { symbols := s }
  cases item with
  | string t => rfl
  | bad => rfl
  | expr e =>
    unfold DataRun.add
    dsimp only
    rw [Session.eval_renumber hf]
    cases v.eval run.symbols q e with
    | error x => rfl
    | ok r => rfl

theorem echoText_renumber (items : List Datum) :
    Draft.echoText v (q.renumber p) items (s.renumber p) =
      (Draft.echoText v q items s).map fun (message, ok, t) => (message, ok, t.renumber p) := by
  refine foldlM_map (m := fun (x : Text × Bool × SymbolTable) => (x.1, x.2.1, x.2.2.renumber p))
    (fun run item => ?_) items ([], true, s)
  cases item with
  | string t => rfl
  | bad => rfl
  | expr e =>
    dsimp only
    rw [Session.eval_renumber hf]
    cases v.eval run.2.2 q e with
    | error x => rfl
    | ok r =>
      dsimp only [Except.map, bind, Except.bind]
      split
      · rfl
      · rfl

theorem Operand.ofMatch_renumber (m : Match) :
    Operand.ofMatch v (s.renumber p) (q.renumber p) m =
      (Operand.ofMatch v s q m).map fun (o, ok, t) => (o, ok, t.renumber p) := by
  unfold ofMatch
  split
  next => rfl
  next t _ =>
    rw [Session.eval_renumber hf]
    cases v.eval s q t with
    | error x => rfl
    | ok r => rfl

theorem Operand.ofMatch?_renumber (m : Option Match) :
    Operand.ofMatch? v (s.renumber p) (q.renumber p) m =
      (Operand.ofMatch? v s q m).map fun (o, t) => (o, t.renumber p) := by
  cases m with
  | none => rfl
  | some m =>
    unfold ofMatch?
    dsimp only
    rw [Operand.ofMatch_renumber hf]
    cases Operand.ofMatch v s q m with
    | error x => rfl
    | ok r => rfl

end Values

/-- A relation between supplies of lines that goes on when both are given the same further ones. -/
structure Feed.Paired (F : Feed → Feed → Prop) : Prop where
  currentFile {f f' : Feed} : F f f' → f'.currentFile? = f.currentFile?
  pushFile {f f' : Feed} (file contents : Text) : F f f' →
    F (f.pushFile file contents) (f'.pushFile file contents)
  pushCall {f f' : Feed} (body : List Text) (file : Text) (line line' : Nat) : F f f' →
    F (f.pushCall body file line) (f'.pushCall body file line')

/-- A line of the body of a macro that is kept. -/
def Feed.BlockLine.isKept (l : Feed.BlockLine) : Bool := !l.text.isEmpty && l.text != ['{']

/-- The next lines of both supplies give the same macro body. -/
structure Feed.SameBlock (F : Feed → Feed → Prop) (f f' : Feed) : Prop where
  body : ((f'.takeBlock Draft.endsTemplate).1.filter BlockLine.isKept).map BlockLine.text =
    ((f.takeBlock Draft.endsTemplate).1.filter BlockLine.isKept).map BlockLine.text
  last : (f'.takeBlock Draft.endsTemplate).2.1.map BlockLine.text =
    (f.takeBlock Draft.endsTemplate).2.1.map BlockLine.text
  feed : F (f.takeBlock Draft.endsTemplate).2.2 (f'.takeBlock Draft.endsTemplate).2.2

namespace Draft

/-- The draft of a program and that of the padded one. The root of an entry that is evaluated again
has been read. -/
structure Beside (p : Padding) (F : Feed → Feed → Prop) (d d' : Draft) : Prop where
  feed : F d.feed d'.feed
  symbols : d'.symbols = d.symbols.renumber p
  templates : d'.templates = d.templates
  blocks : d'.blocks = d.blocks
  address : d'.address = d.address
  listed : d'.listed = d.listed
  longForm : d'.longForm = d.longForm
  entries : Padded p 0 0 d.entries.toList d'.entries.toList
  rooted : ∀ e ∈ d.entries.toList, e.body.isVariable = true → e.root ≤ d.feed.root

/-- Entries that are about to be added for the same line, which has been read. -/
structure Fresh (p : Padding) (root : Nat) (e e' : Entry) : Prop where
  renumbered : ∃ line, e' = e.renumber line (p.line e.root)
  root_le : e.root ≤ root

variable {v : Session} {p : Padding} {F : Feed → Feed → Prop} {d d' : Draft} {e e' : Entry}
  {args : Text}

theorem Fresh.withBody {root : Nat} (h : Fresh p root e e') (body : Body) :
    Fresh p root { e with body := body } { e' with body := body } := by
  obtain ⟨⟨line, rfl⟩, hr⟩ := h
  exact ⟨⟨line, rfl⟩, hr⟩

theorem Fresh.mono {root root' : Nat} (h : Fresh p root e e') (hr : root ≤ root') :
    Fresh p root' e e' :=
  ⟨h.renumbered, Nat.le_trans h.root_le hr⟩

namespace Beside

/-- All that can be different. -/
theorem exists_eq (h : d.Beside p F d') :
    ∃ feed entries events,
      d' = { d with
        feed := feed, symbols := d.symbols.renumber p, entries := entries, events := events } := by
  obtain ⟨feed, symbols, templates, blocks, entries, address, listed, longForm, events⟩ := d'
  obtain ⟨-, rfl, rfl, rfl, rfl, rfl, rfl, -, -⟩ := h
  exact ⟨feed, entries, events, rfl⟩

theorem place_size (h : d.Beside p F d') : p.place d.entries.size = d'.entries.size := by
  simpa using h.entries.place_length

theorem withSymbols (h : d.Beside p F d') (s : SymbolTable) :
    Beside p F { d with symbols := s } { d' with symbols := s.renumber p } :=
  { h with symbols := rfl }

theorem withBlocks (h : d.Beside p F d') (blocks : Conditions) :
    Beside p F { d with blocks := blocks } { d' with blocks := blocks } :=
  { h with blocks := rfl }

theorem withAddress (h : d.Beside p F d') (w : Word) :
    Beside p F { d with address := w } { d' with address := w } :=
  { h with address := rfl }

theorem addTemplate (h : d.Beside p F d') {m m' : Template} (hm : m' = m) :
    Beside p F { d with templates := d.templates ++ [m] }
      { d' with templates := d'.templates ++ [m'] } :=
  { h with templates := by rw [hm, h.templates] }

theorem withFeed (h : d.Beside p F d') {G : Feed → Feed → Prop} {f f' : Feed} (hf : G f f')
    (hr : d.feed.root ≤ f.root) : Beside p G { d with feed := f } { d' with feed := f' } :=
  { h with feed := hf, rooted := fun e he hv => Nat.le_trans (h.rooted e he hv) hr }

/-- Both entries get the same caution. -/
theorem push_eq (h : d.Beside p F d') (hl : e'.length = e.length)
    (hc : e'.caution = e.caution) :
    ∃ c, d.push e =
      { d with entries := d.entries.push { e with caution := c }, address := d.address + e.size } ∧
      d'.push e' =
      { d' with
        entries := d'.entries.push { e' with caution := c }
        address := d.address + e.size } := by
  have hs : e'.size = e.size := by rw [Entry.size, Entry.size, hl]
  have ha := h.address
  by_cases hw : Word.count < d.address.toNat + e.length
  · have hw' : Word.count < d'.address.toNat + e'.length := by rwa [ha, hl]
    refine ⟨(e.addCaution .addressWrap).caution, ?_, ?_⟩
    · simp only [Draft.push, hw, if_true]
      rfl
    · simp only [Draft.push, hw', if_true, Entry.addCaution, hc, ← ha, ← hs]
      rfl
  · have hw' : ¬ Word.count < d'.address.toNat + e'.length := by rwa [ha, hl]
    refine ⟨e.caution, ?_, ?_⟩
    · simp only [Draft.push, hw, if_false]
    · simp only [Draft.push, hw', if_false, ← hc, ← ha, ← hs]

theorem pushTwin (h : d.Beside p F d') (ht : e.Twin p e')
    (hr : e.body.isVariable = true → e.root ≤ d.feed.root) :
    (d.push e).Beside p F (d'.push e') := by
  obtain ⟨line, root, rfl, hroot⟩ := ht
  have hlength : (e.renumber line root).length = e.length := rfl
  obtain ⟨c, hd, hd'⟩ := h.push_eq hlength rfl
  have ht : Entry.Twin p { e with caution := c }
      { (e.renumber line root) with caution := c } := ⟨line, root, rfl, hroot⟩
  rw [hd, hd']
  refine { h with address := rfl, entries := ?_, rooted := ?_ }
  · simp only [Array.toList_push]
    exact h.entries.push_twin ht
  · intro x hx hv
    simp only [Array.toList_push, List.mem_append, List.mem_singleton] at hx
    rcases hx with hx | rfl
    · exact h.rooted x hx hv
    · exact hr hv

theorem push (h : d.Beside p F d') (he : Fresh p d.feed.root e e') :
    (d.push e).Beside p F (d'.push e') := by
  obtain ⟨⟨line, rfl⟩, hr⟩ := he
  exact h.pushTwin ⟨line, _, rfl, fun _ => rfl⟩ fun _ => hr

theorem pushFault (h : d.Beside p F d') (he : Fresh p d.feed.root e e') (f : Fault) :
    (d.pushFault e f).Beside p F (d'.pushFault e' f) := by
  obtain ⟨⟨line, rfl⟩, hr⟩ := he
  refine h.push ?_
  exact ⟨⟨line, rfl⟩, hr⟩

theorem pushOutcome (h : d.Beside p F d') (he : Fresh p d.feed.root e e') (f : Option Fault) :
    (d.pushOutcome e f).Beside p F (d'.pushOutcome e' f) := by
  cases f with
  | none => exact h.push he
  | some f => exact h.pushFault he f

theorem pushNote (h : d.Beside p F d') (text file : Text) (line line' : Nat) :
    (d.push (d.note text file line)).Beside p F (d'.push (d'.note text file line')) := by
  obtain ⟨feed, entries, events, rfl⟩ := h.exists_eq
  refine h.pushTwin ⟨line', 0, rfl, ?_⟩ ?_
  · intro hv
    cases hv
  · intro hv
    cases hv

section Blocks

theorem enterBlock (h : d.Beside p F d') (he : Fresh p d.feed.root e e')
    (c : Except Fault Bool) : (d.enterBlock e c).Beside p F (d'.enterBlock e' c) := by
  unfold Draft.enterBlock
  rw [h.blocks]
  exact (h.withBlocks (d.blocks.enter (holds c))).pushOutcome he (faultOf c)

theorem enterIfDefined (h : d.Beside p F d') (he : Fresh p d.feed.root e e') (wanted : Bool) :
    (d.enterIfDefined e args wanted).Beside p F (d'.enterIfDefined e' args wanted) := by
  unfold Draft.enterIfDefined
  rw [h.blocks, h.symbols]
  simp only [SymbolTable.isDefined_renumber]
  split
  · exact h.enterBlock he _
  · exact h.enterBlock he _

theorem setBlocks (h : d.Beside p F d') (he : Fresh p d.feed.root e e')
    (blocks : Except Fault Conditions) :
    (d.setBlocks e blocks).Beside p F (d'.setBlocks e' blocks) := by
  cases blocks with
  | ok blocks => exact (h.withBlocks blocks).push he
  | error f => exact h.pushFault he f

end Blocks

section Values

variable (hf : ∀ f ∈ v.hooks.functions, f.2.Unnumbered)

include hf

theorem enterIf (h : d.Beside p F d') (he : Fresh p d.feed.root e e') :
    Both (Beside p F) (d.enterIf v e args) (d'.enterIf v e' args) := by
  obtain ⟨feed, entries, events, rfl⟩ := h.exists_eq
  unfold Draft.enterIf
  dsimp only
  split
  · obtain ⟨line, rfl⟩ := he.renumbered
    refine Both.map_bind (condition_renumber hf p d.symbols e line args) fun x _ => .ok ?_
    exact (h.withSymbols x.2).enterBlock he x.1
  · exact .ok (h.enterBlock he _)

theorem elseIf (h : d.Beside p F d') (he : Fresh p d.feed.root e e') :
    Both (Beside p F) (d.elseIf v e args) (d'.elseIf v e' args) := by
  obtain ⟨feed, entries, events, rfl⟩ := h.exists_eq
  unfold Draft.elseIf
  dsimp only
  split
  · exact .ok (h.pushFault he _)
  · exact .ok (h.setBlocks he _)
  · obtain ⟨line, rfl⟩ := he.renumbered
    refine Both.map_bind (condition_renumber hf p d.symbols e line args) fun x _ => ?_
    dsimp only
    cases d.blocks.branch (holds x.1) with
    | ok blocks =>
      exact .ok (((h.withSymbols x.2).withBlocks blocks).pushOutcome he _)
    | error f => exact .ok ((h.withSymbols x.2).pushFault he f)

theorem equate (h : d.Beside p F d') (he : Fresh p d.feed.root e e') :
    Both (Beside p F) (d.equate v e args) (d'.equate v e' args) := by
  obtain ⟨feed, entries, events, rfl⟩ := h.exists_eq
  unfold Draft.equate
  dsimp only
  split
  · exact .ok (h.pushFault he _)
  next name expr _ _ =>
    rw [SymbolTable.isDefined_renumber]
    split
    · exact .ok (h.pushFault he _)
    · obtain ⟨line, rfl⟩ := he.renumbered
      split
      · dsimp only [bind, Except.bind]
        rw [SymbolTable.defineEquate_renumber]
        exact .ok ((h.withSymbols (d.symbols.defineEquate name 1).2).pushOutcome he _)
      · refine Both.map_bind (Session.immediate_renumber hf p d.symbols e.position expr)
          fun x _ => ?_
        obtain ⟨value, s⟩ := x
        cases value with
        | error f => exact .ok ((h.withSymbols s).pushFault he f)
        | ok w =>
          dsimp only
          rw [SymbolTable.defineEquate_renumber]
          exact .ok ((h.withSymbols (s.defineEquate name w).2).pushOutcome he _)

theorem origin (h : d.Beside p F d') (he : Fresh p d.feed.root e e') :
    Both (Beside p F) (d.origin v e args) (d'.origin v e' args) := by
  obtain ⟨feed, entries, events, rfl⟩ := h.exists_eq
  unfold Draft.origin
  dsimp only
  split
  · exact .ok (h.pushFault he _)
  · obtain ⟨line, rfl⟩ := he.renumbered
    refine Both.map_bind (Session.immediate_renumber hf p d.symbols e.position args) fun x _ => ?_
    dsimp only
    cases x.1 with
    | error f => exact .ok ((h.withSymbols x.2).pushFault he f)
    | ok w => exact .ok (((h.withSymbols x.2).withAddress w).push ⟨⟨line, rfl⟩, he.root_le⟩)

theorem length (h : d.Beside p F d') (he : Fresh p d.feed.root e e') :
    Both (fun x x' => x'.1 = x.1 ∧ Beside p F x.2 x'.2 ∧ x.2.feed.root = d.feed.root)
      (d.length v e args) (d'.length v e' args) := by
  obtain ⟨feed, entries, events, rfl⟩ := h.exists_eq
  unfold Draft.length
  dsimp only
  split
  next one _ =>
    split
    · exact .ok ⟨rfl, h, rfl⟩
    · obtain ⟨line, rfl⟩ := he.renumbered
      refine Both.map_bind (Session.immediate_renumber hf p d.symbols e.position one) fun x _ => ?_
      exact .ok ⟨rfl, h.withSymbols x.2, rfl⟩
  · exact .ok ⟨rfl, h, rfl⟩

theorem align (h : d.Beside p F d') (he : Fresh p d.feed.root e e') :
    Both (Beside p F) (d.align v e args) (d'.align v e' args) := by
  refine (h.length hf he).bind fun x x' hx => ?_
  obtain ⟨value, d⟩ := x
  obtain ⟨value', d'⟩ := x'
  obtain ⟨rfl, h, hroot⟩ := hx
  rw [← hroot] at he
  cases value' with
  | error f => exact .ok (h.pushFault he f)
  | ok target =>
    have ha : d'.address = d.address := h.address
    dsimp only
    rw [ha]
    refine .ok ?_
    split
    · exact h.pushFault (he.withBody _) _
    · exact h.push (he.withBody _)

theorem reserve (h : d.Beside p F d') (he : Fresh p d.feed.root e e') :
    Both (Beside p F) (d.reserve v e args) (d'.reserve v e' args) := by
  refine (h.length hf he).bind fun x x' hx => ?_
  obtain ⟨value, d⟩ := x
  obtain ⟨value', d'⟩ := x'
  obtain ⟨rfl, h, hroot⟩ := hx
  rw [← hroot] at he
  cases value' with
  | error f => exact .ok (h.pushFault he f)
  | ok n => exact .ok (h.push (he.withBody _))

theorem pad (h : d.Beside p F d') (he : Fresh p d.feed.root e e') :
    Both (Beside p F) (d.pad v e args) (d'.pad v e' args) := by
  obtain ⟨feed, entries, events, rfl⟩ := h.exists_eq
  obtain ⟨line, rfl⟩ := he.renumbered
  unfold Draft.pad
  dsimp only
  split
  next length fill _ =>
    refine Both.map_bind (Session.immediate_renumber hf p d.symbols e.position length)
      fun x _ => ?_
    obtain ⟨n, s⟩ := x
    cases n with
    | error f => exact .ok ((h.withSymbols s).pushFault he f)
    | ok n =>
      refine Both.map_bind (Session.eval_renumber hf p s e.position fill) fun y _ => ?_
      exact .ok ((h.withSymbols y.2).push (he.withBody _))
  · exact .ok (h.pushFault he _)
  · exact .ok (h.pushFault he _)
  · exact .ok (h.pushFault he _)

theorem data (h : d.Beside p F d') (he : Fresh p d.feed.root e e') :
    Both (Beside p F) (d.data v e args) (d'.data v e' args) := by
  obtain ⟨feed, entries, events, rfl⟩ := h.exists_eq
  obtain ⟨line, rfl⟩ := he.renumbered
  unfold Draft.data
  dsimp only
  split
  · exact .ok (h.pushFault he _)
  · refine Both.map_bind (dataCells_renumber hf p d.symbols e.position (Datum.items args))
      fun run _ => ?_
    exact .ok ((h.withSymbols run.symbols).pushOutcome (he.withBody _) _)

theorem echo (h : d.Beside p F d') (he : Fresh p d.feed.root e e') :
    Both (Beside p F) (d.echo v e args) (d'.echo v e' args) := by
  obtain ⟨feed, entries, events, rfl⟩ := h.exists_eq
  obtain ⟨line, rfl⟩ := he.renumbered
  unfold Draft.echo
  dsimp only
  split
  · exact .ok (h.pushFault he _)
  · refine Both.map_bind (echoText_renumber hf p d.symbols e.position (Datum.items args))
      fun x _ => .ok ?_
    obtain ⟨message, ok, s⟩ := x
    exact ((h.withSymbols s).pushOutcome he _).pushNote message e.file e.line line

theorem encoded (h : d.Beside p F d') (he : Fresh p d.feed.root e e') (opcode a : Match)
    (b : Option Match) : Both (Beside p F) (d.encoded v e opcode a b) (d'.encoded v e' opcode a b) := by
  obtain ⟨feed, entries, events, rfl⟩ := h.exists_eq
  obtain ⟨line, rfl⟩ := he.renumbered
  unfold Draft.encoded
  refine Both.map_bind (Operand.ofMatch_renumber hf p d.symbols e.position a) fun x _ => ?_
  refine Both.map_bind (Operand.ofMatch?_renumber hf p x.2.2 e.position b) fun y _ => .ok ?_
  exact (h.withSymbols y.2).push (he.withBody _)

end Values

theorem string (h : d.Beside p F d') (he : Fresh p d.feed.root e e') (style : StringStyle) :
    (d.string style e args).Beside p F (d'.string style e' args) := by
  unfold Draft.string
  split
  · exact h.pushFault he _
  · exact h.pushOutcome (he.withBody _) _

theorem reference (h : d.Beside p F d') (he : Fresh p d.feed.root e e') :
    (d.reference e args).Beside p F (d'.reference e' args) := by
  unfold Draft.reference
  cases singleName args with
  | error f => exact h.pushFault he f
  | ok name =>
    dsimp only
    rw [h.symbols, SymbolTable.markReferenced_renumber]
    exact (h.withSymbols _).push he

theorem pushNotes (h : d.Beside p F d') (file : Text) {ls ls' : List Feed.BlockLine}
    (hl : ls'.map Feed.BlockLine.text = ls.map Feed.BlockLine.text) :
    (ls.foldl (fun d l => d.push (d.note l.text file l.line)) d).Beside p F
      (ls'.foldl (fun d l => d.push (d.note l.text file l.line)) d') := by
  induction ls generalizing ls' d d' with
  | nil =>
    obtain rfl : ls' = [] := by simpa using hl
    exact h
  | cons l ls ih =>
    cases ls' with
    | nil => cases hl
    | cons l' ls' =>
      obtain ⟨ht, hs⟩ := List.cons.inj hl
      rw [List.foldl_cons, List.foldl_cons, ht]
      exact ih (h.pushNote l.text file l.line l'.line) hs

theorem template (h : d.Beside p F d') (he : Fresh p d.feed.root e e')
    (hb : Feed.SameBlock F d.feed d'.feed) {line line' : SourceLine} (hl : line'.file = line.file) :
    (d.template line e args).Beside p F (d'.template line' e' args) := by
  obtain ⟨hbody, hlast, hfeed⟩ := hb
  have hroot := Feed.root_le_takeBlock endsTemplate d.feed
  have h₁ := h.withFeed hfeed hroot
  have he₁ := he.mono hroot
  unfold Draft.template
  dsimp only
  cases hx : (d.feed.takeBlock endsTemplate).2.1 with
  | none =>
    obtain hx' : (d'.feed.takeBlock endsTemplate).2.1 = none := by simpa [hx] using hlast
    rw [hx']
    exact h₁.pushFault he₁ _
  | some last =>
    obtain ⟨last', hx', ht⟩ : ∃ last', (d'.feed.takeBlock endsTemplate).2.1 = some last' ∧
        last'.text = last.text := by simpa [hx] using hlast
    have hnotes : (((d'.feed.takeBlock endsTemplate).1.filter Feed.BlockLine.isKept) ++
        [last']).map Feed.BlockLine.text =
        (((d.feed.takeBlock endsTemplate).1.filter Feed.BlockLine.isKept) ++
        [last]).map Feed.BlockLine.text := by
      rw [List.map_append, List.map_append, hbody, List.map_singleton, List.map_singleton, ht]
    rw [hx', hl]
    have h₂ := (h₁.pushOutcome he₁
      (if (Template.header? args).isSome then none else some .invalidMacroDefinition)).pushNotes
      line.file hnotes
    cases hh : Template.header? args with
    | none =>
      rw [hh] at h₂
      exact h₂
    | some header =>
      rw [hh] at h₂
      exact h₂.addTemplate (congrArg (Template.mk header.1 header.2) hbody)

section Feeds

variable (hF : Feed.Paired F)

include hF

theorem locate (h : d.Beside p F d') (arg : Text) : d'.locate v arg = d.locate v arg := by
  unfold Draft.locate Draft.candidates
  rw [hF.currentFile h.feed]

theorem includeText (h : d.Beside p F d') (he : Fresh p d.feed.root e e') :
    Both (Beside p F) (d.includeText v e args) (d'.includeText v e' args) := by
  unfold Draft.includeText
  rw [h.locate hF]
  cases d.locate v args with
  | error x => exact .error x
  | ok found =>
    cases found with
    | none => exact .ok (h.pushFault he _)
    | some file =>
      obtain ⟨path, n⟩ := file
      dsimp only [bind, Except.bind]
      cases n.text with
      | error _ => exact .ok (h.pushFault he _)
      | ok contents =>
        exact .ok ((h.withFeed (hF.pushFile path contents h.feed) (Nat.le_refl _)).push he)

theorem includeBytes (h : d.Beside p F d') (he : Fresh p d.feed.root e e') (packed : Bool) :
    Both (Beside p F) (d.includeBytes v packed e args) (d'.includeBytes v packed e' args) := by
  unfold Draft.includeBytes
  rw [h.locate hF]
  cases d.locate v args with
  | error x => exact .error x
  | ok found =>
    dsimp only [bind, Except.bind]
    split
    · exact .ok (h.push (he.withBody _))
    · exact .ok (h.pushFault he _)

end Feeds

end Beside

end Draft

end Dcpu
