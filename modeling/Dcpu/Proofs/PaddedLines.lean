import Dcpu.Proofs.PaddedDraft

/-! The lines of a program and of a padded one, read in lockstep to their end. -/
namespace Dcpu
open Answer

/-- A line of a program and the same line of the padded one. -/
structure SourceLine.Twin (p : Padding) (l l' : SourceLine) : Prop where
  clean : Text.clean l'.text = Text.clean l.text
  file : l'.file = l.file
  root : l'.root = p.line l.root

/-- The known directive that a statement starts with. -/
def directive? (t : Text) : Option Directive :=
  let t := canonicalStatement t
  if t.head?.any Directive.isLead then (Directive.parse t).1 else none

/-- The statement starts the definition of a macro. -/
def opensTemplate (t : Text) : Bool := directive? t == some .template

/-- The plugin takes the same lines wherever they stand. Its entries are not evaluated again and
differ in nothing but the number of the line. -/
def Plugin.Unnumbered (plugin : Plugin) : Prop :=
  ∀ (c : LineContext) (n : Nat) (t : Text),
    Option.Rel (fun e e' => (∃ line root, e' = Entry.renumber line root e) ∧
      e.body.isVariable = false) (plugin.claim c t) (plugin.claim { c with line := n } t)

/-- Nothing that was added to the assembler looks at the numbers of lines and entries. -/
structure Hooks.Unnumbered (h : Hooks) : Prop where
  functions : ∀ f ∈ h.functions, f.2.Unnumbered
  plugins : ∀ plugin ∈ h.plugins, plugin.Unnumbered

theorem Session.bare_unnumbered : Session.bare.hooks.Unnumbered where
  functions f hf := by
    obtain rfl := List.mem_singleton.mp hf
    exact Function.isReferenced_unnumbered
  plugins plugin hp := absurd hp List.not_mem_nil

/-- The same plugin takes a line with another number. -/
theorem Hooks.Unnumbered.claim? {h : Hooks} (hh : h.Unnumbered) (c : LineContext) (n : Nat)
    (t : Text) :
    Option.Rel (fun x x' => x'.1 = x.1 ∧ (∃ line root, x'.2 = Entry.renumber line root x.2) ∧
      x.2.body.isVariable = false) (h.claim? c t) (h.claim? { c with line := n } t) := by
  obtain ⟨-, hp⟩ := hh
  unfold Hooks.claim?
  revert hp
  induction h.plugins with
  | nil => exact fun _ => .none
  | cons plugin plugins ih =>
    intro hp
    have hrest := ih fun q hq => hp q (List.mem_cons_of_mem _ hq)
    rw [List.findSome?_cons, List.findSome?_cons]
    have hc := hp plugin List.mem_cons_self c n t
    generalize plugin.claim c t = x, plugin.claim { c with line := n } t = x' at hc ⊢
    cases hc with
    | none => exact hrest
    | some he => exact .some ⟨rfl, he⟩

namespace Draft

variable {v : Session} {p : Padding} {F : Feed → Feed → Prop} {d d' : Draft} {l l' : SourceLine}
  {t : Text}

namespace Beside

theorem entry (h : d.Beside p F d') (hl : l.Twin p l') (hr : l.root ≤ d.feed.root) (code : Text) :
    Fresh p d.feed.root (d.entry l code) (d'.entry l' code) := by
  obtain ⟨feed, entries, events, rfl⟩ := h.exists_eq
  refine ⟨⟨l'.line, ?_⟩, hr⟩
  unfold Draft.entry Entry.renumber
  dsimp only
  rw [hl.file, hl.root, SymbolTable.scope_renumber]

theorem takeLabel (h : d.Beside p F d') (hl : l.Twin p l') (hr : l.root ≤ d.feed.root) :
    (d.takeLabel l t).1.Beside p F (d'.takeLabel l' t).1 := by
  have he (code : Text) := h.entry hl hr code
  obtain ⟨feed, entries, events, rfl⟩ := h.exists_eq
  have hp : entries.size = p.place d.entries.size := h.place_size.symm
  unfold Draft.takeLabel
  cases LabelPart.ofLine? t with
  | none => exact h
  | some label =>
    dsimp only
    rw [hp, hl.root, SymbolTable.defineAnonymous_renumber, SymbolTable.defineLabel_renumber]
    split
    · exact (h.withSymbols (d.symbols.defineAnonymous l.root d.address d.entries.size)).push
        (he label.code)
    · exact (h.withSymbols (d.symbols.defineLabel label.name d.address d.entries.size).2).pushOutcome
        (he label.code) _

theorem claimed (h : d.Beside p F d') {plugin text : Text} {c c' : LineContext} {e e' : Entry}
    (he : ∃ line root, e' = e.renumber line root) (hv : e.body.isVariable = false) :
    (d.claimed plugin text c e).Beside p F (d'.claimed plugin text c' e') := by
  obtain ⟨line, root, rfl⟩ := he
  obtain ⟨feed, entries, events, rfl⟩ := h.exists_eq
  have h₁ : Beside p F { d with events := d.events.push (.claimed plugin text c) }
      { d with
        feed := feed, symbols := d.symbols.renumber p, entries := entries
        events := events.push (.claimed plugin text c') } := { h with }
  refine h₁.pushTwin (e := { e with address := d.address, listed := d.listed }) ?_ ?_
  · exact ⟨line, root, rfl, fun hx => absurd hx (by simp [hv])⟩
  · exact fun hx => absurd hx (by simp [hv])

variable (hf : ∀ f ∈ v.hooks.functions, f.2.Unnumbered) (hF : Feed.Paired F)

include hf

theorem instruction (h : d.Beside p F d') (hl : l.Twin p l') (hr : l.root ≤ d.feed.root) :
    Both (Beside p F) (d.instruction v l t) (d'.instruction v l' t) := by
  have he := h.entry hl hr t
  unfold Draft.instruction
  cases v.grammar.recognise? t with
  | none => exact .ok (h.pushFault he _)
  | some r =>
    obtain ⟨line, hline⟩ := he.renumbered
    dsimp only
    rw [hline]
    split
    · refine h.encoded hf ?_ _ _ _
      exact ⟨⟨line, rfl⟩, he.root_le⟩
    · refine h.encoded hf ?_ _ _ _
      exact ⟨⟨line, rfl⟩, he.root_le⟩
    · refine .ok (h.pushFault ?_ _)
      exact ⟨⟨line, rfl⟩, he.root_le⟩

include hF

theorem directive (h : d.Beside p F d') (hl : l.Twin p l') (hr : l.root ≤ d.feed.root)
    (hb : (Directive.parse t).1 = some .template → Feed.SameBlock F d.feed d'.feed) :
    Both (Beside p F) (d.directive v l t) (d'.directive v l' t) := by
  have he := h.entry hl hr t
  obtain ⟨line, hline⟩ := he.renumbered
  unfold Draft.directive
  dsimp only
  split
  · exact .ok (h.pushFault he _)
  · exact h.enterIf hf he
  · exact .ok (h.enterIfDefined he _)
  · exact .ok (h.enterIfDefined he _)
  · exact h.elseIf hf he
  · rw [h.blocks]
    exact .ok (h.setBlocks he _)
  · rw [h.blocks]
    exact .ok (h.setBlocks he _)
  · exact h.equate hf he
  · exact h.origin hf he
  · exact h.align hf he
  · exact h.reserve hf he
  · exact h.pad hf he
  · exact h.data hf he
  · exact .ok (h.string he _)
  · exact h.includeText hF he
  · exact h.includeBytes hF he _
  next ht => exact .ok (h.template he (hb ht) hl.file)
  · exact .ok (h.pushFault he _)
  · exact h.echo hf he
  · exact .ok (h.reference he)
  next on _ =>
    have h₁ : Beside p F { d with listed := on } { d' with listed := on } := { h with listed := rfl }
    rw [hline]
    refine .ok (h₁.push ?_)
    exact ⟨⟨line, rfl⟩, he.root_le⟩
  next long _ =>
    have h₁ : Beside p F { d with longForm := long } { d' with longForm := long } :=
      { h with longForm := rfl }
    exact .ok (h₁.push (he.withBody _))
  · exact .ok (h.push he)

theorem statement (h : d.Beside p F d') (hl : l.Twin p l') (hr : l.root ≤ d.feed.root)
    (hb : opensTemplate t = true → Feed.SameBlock F d.feed d'.feed) :
    Both (Beside p F) (d.statement v l t) (d'.statement v l' t) := by
  unfold Draft.statement
  split
  · exact .ok h
  · dsimp only
    split
    next hlead =>
      refine h.directive hf hF hl hr fun ht => hb ?_
      simp [opensTemplate, directive?, hlead, ht]
    next =>
      unfold Draft.expandCall?
      rw [h.templates]
      cases Template.call? (canonicalStatement t) with
      | none => exact h.instruction hf hl hr
      | some call =>
        cases hm : Template.find? d.templates call.1 call.2 with
        | none =>
          simp only [bind, Option.bind, hm]
          exact h.instruction hf hl hr
        | some m =>
          simp only [bind, Option.bind, hm]
          have h₁ := h.push (h.entry hl hr (canonicalStatement t))
          rw [hl.file]
          refine .ok (h₁.withFeed (hF.pushCall (m.expand call.2) l.file l.line l'.line h₁.feed) ?_)
          exact Nat.le_refl _

variable (hh : v.hooks.Unnumbered)

omit hf in
include hh in
/-- A line does the same to both drafts. -/
theorem line (h : d.Beside p F d') (hl : l.Twin p l') (hr : l.root ≤ d.feed.root)
    (hb : d.blocks.active = true → opensTemplate (afterLabel (Text.clean l.text)) = true →
      Feed.SameBlock F d.feed d'.feed) :
    Both (Beside p F) (d.line v l) (d'.line v l') := by
  have hf := hh.functions
  unfold Draft.line
  rw [hl.clean, h.blocks, hl.file, h.address]
  dsimp only
  split
  · exact .ok h
  · split
    · unfold Draft.skippedLine
      split
      next hs =>
        -- A conditional directive does not define a macro.
        refine h.directive hf hF hl hr fun ht => ?_
        simp [ht, Directive.isConditional] at hs
      next => exact .ok h
    next ha =>
      have hc := hh.claim? ⟨l.file, l.line, d.address⟩ l'.line (Text.clean l.text)
      dsimp only at hc
      generalize v.hooks.claim? ⟨l.file, l.line, d.address⟩ (Text.clean l.text) = x at hc ⊢
      generalize v.hooks.claim? ⟨l.file, l'.line, d.address⟩ (Text.clean l.text) = x' at hc ⊢
      cases hc with
      | some he =>
        obtain ⟨hname, he, hv⟩ := he
        dsimp only
        rw [hname]
        exact .ok (h.claimed he hv)
      | none =>
        have h₁ := h.takeLabel hl hr (t := Text.clean l.text)
        dsimp only
        rw [takeLabel_rest, takeLabel_rest]
        refine h₁.statement hf hF hl ?_ ?_
        · rw [takeLabel_feed]
          exact hr
        · rw [takeLabel_feed, takeLabel_feed]
          exact hb (by simpa using ha)

end Beside

end Draft

/-- The next lines are twins, and so is what follows them, up to the end of a macro that they may
define. -/
def Feed.SameNext (p : Padding) (F : Feed → Feed → Prop) (f f' : Feed) : Prop :=
  Option.Rel (fun x x' => x.1.Twin p x'.1 ∧ F x.2 x'.2 ∧
    (opensTemplate (afterLabel (Text.clean x.1.text)) = true → Feed.SameBlock F x.2 x'.2))
    f.next? f'.next?

/-- Supplies that go on to give the same lines. -/
structure Feed.Lockstep (p : Padding) (F : Feed → Feed → Prop) : Prop extends Feed.Paired F where
  next {f f' : Feed} : F f f' → Feed.SameNext p F f f'

namespace Draft.Beside

variable {v : Session} {p : Padding} {F : Feed → Feed → Prop} {d d' : Draft}

/-- All lines are read alike. -/
theorem readAll (hh : v.hooks.Unnumbered) (hF : Feed.Lockstep p F) (h : d.Beside p F d')
    (steps : Nat) : Both (Beside p F) (d.readAll v steps) (d'.readAll v steps) := by
  induction steps generalizing d d' with
  | zero => exact .error _
  | succ steps ih =>
    have hn := hF.next h.feed
    unfold Feed.SameNext at hn
    unfold Draft.readAll
    cases hx : d.feed.next? with
    | none =>
      cases hx' : d'.feed.next? with
      | none => exact .ok h
      | some x' => simp [hx, hx'] at hn
    | some x =>
      cases hx' : d'.feed.next? with
      | none => simp [hx, hx'] at hn
      | some x' =>
        rw [hx, hx', Option.rel_some_some] at hn
        obtain ⟨hl, hfeed, hb⟩ := hn
        have hr := Feed.next?_root hx
        have h₁ := h.withFeed hfeed (by omega)
        have hline := h₁.line hF.toPaired hh hl (Nat.le_of_eq hr.1) fun _ => hb
        dsimp only
        generalize { d with feed := x.2 }.line v x.1 = y at hline ⊢
        generalize { d' with feed := x'.2 }.line v x'.1 = y' at hline ⊢
        cases hline with
        | error a => exact .error a
        | ok h₂ => exact ih h₂

end Draft.Beside

namespace Draft

variable {v : Session} {d d₁ : Draft}

/-- Reads the lines to come and settles the layout. -/
def complete (v : Session) (steps : Nat) (d : Draft) : Except Abort Assembly :=
  d.readAll v steps >>= v.finish

theorem complete_start (v : Session) (steps : Nat) (file source : Text) :
    (v.start file source).complete v steps = v.run steps file source :=
  rfl

theorem complete_succ {l : SourceLine} {g : Feed} (h : d.feed.next? = some (l, g)) (steps : Nat) :
    d.complete v (steps + 1) = { d with feed := g }.line v l >>= complete v steps := by
  unfold complete
  rw [readAll, h]
  dsimp only
  cases { d with feed := g }.line v l with
  | error a => rfl
  | ok d => rfl

theorem ReadsLine.complete_succ (h : d.ReadsLine v d₁) (steps : Nat) :
    d.complete v (steps + 1) = d₁.complete v steps := by
  obtain ⟨l, feed, hn, hl⟩ := h
  rw [Draft.complete_succ hn, hl]
  rfl

theorem Beside.complete {p : Padding} {F : Feed → Feed → Prop} {d' : Draft}
    (hh : v.hooks.Unnumbered) (hF : Feed.Lockstep p F) (h : d.Beside p F d') (steps : Nat) :
    Both (Assembly.Beside p) (d.complete v steps) (d'.complete v steps) :=
  (h.readAll hh hF steps).bind fun _ _ h => v.finish_beside hh.functions h.symbols h.entries

end Draft

end Dcpu
