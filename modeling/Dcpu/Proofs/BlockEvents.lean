import Dcpu.Proofs.Control
import Dcpu.Proofs.Equates
import Dcpu.Proofs.PaddedLines
import Dcpu.Proofs.Scanning
import Mathlib.Data.List.TakeDrop

/-! What lines ask of the conditional blocks, and when all blocks that they open are closed. -/
namespace Dcpu
open Answer

/-- The number of open blocks after an event, unless the event needs a block and there is none. -/
def BlockEvent.depth? : Nat → BlockEvent → Option Nat
  | k, .ifTrue _ => some (k + 1)
  | 0, _ => none
  | k + 1, .endBlock => some k
  | k + 1, _ => some (k + 1)

/-- The number of open blocks after a line. -/
def depthAfter? (k : Nat) : Option BlockEvent → Option Nat
  | none => some k
  | some event => event.depth? k

/-- With `k` open blocks, every event has its block, and in the end all blocks are closed. -/
def balanced : Nat → List BlockEvent → Bool
  | k, [] => k == 0
  | k, event :: events => (event.depth? k).any fun k => balanced k events

/-- What a text asks of the open blocks if it is read as a directive. The conditions that it states
are left out. -/
def blockEvent? (t : Text) : Option BlockEvent :=
  if t.head?.any Directive.isLead then (Directive.parse t).1.bind (Directive.event? false) else none

/-- The events of some lines that are read without taking labels off. -/
def blockEvents (lines : List Text) : List BlockEvent :=
  lines.filterMap fun t => blockEvent? (Text.clean t)

theorem balanced_cons (k : Nat) (t : Text) (ts : List Text) :
    balanced k (blockEvents (t :: ts)) =
      (depthAfter? k (blockEvent? (Text.clean t))).any fun k => balanced k (blockEvents ts) := by
  unfold blockEvents
  rw [List.filterMap_cons]
  cases blockEvent? (Text.clean t) with
  | none => rfl
  | some event => rfl

namespace Text

theorem firstWord_cons {c : Char} (h : isBlank c = false) (t : Text) :
    (firstWord (c :: t)).1 = c :: (trimEnd t).takeWhile fun c => !isBlank c := by
  unfold firstWord
  rw [List.span_eq_takeWhile_dropWhile, trim_cons h, List.takeWhile_cons_of_pos (by simp [h])]

/-- A word is over where a blank follows. -/
theorem firstWord_append {w t : Text} (hne : w ≠ []) (hw : ∀ c ∈ w, isBlank c = false)
    (ht : ∀ c ∈ t.head?, isBlank c = true) : (firstWord (w ++ t)).1 = w := by
  have hend : ∀ w : Text, (∀ c ∈ w, isBlank c = false) →
      (trimEnd (w ++ t)).takeWhile (fun c => !isBlank c) = w := by
    intro w hw
    induction w with
    | nil =>
      rw [List.nil_append]
      cases h : trimEnd t with
      | nil => rfl
      | cons c rest =>
        have hc := ht c (mem_head?_of_trimEnd (congrArg List.head? h))
        rw [List.takeWhile_cons_of_neg (by simp [hc])]
    | cons c w ih =>
      have hc := hw c List.mem_cons_self
      rw [List.cons_append, trimEnd_cons hc, List.takeWhile_cons_of_pos (by simp [hc]),
        ih fun x hx => hw x (List.mem_cons_of_mem _ hx)]
  cases w with
  | nil => exact absurd rfl hne
  | cons c w =>
    rw [List.cons_append, firstWord_cons (hw c List.mem_cons_self),
      hend w fun x hx => hw x (List.mem_cons_of_mem _ hx)]

end Text

theorem Directive.parse_equ (t : Text) :
    (parse (Text.trimEnd (".equ ".toList ++ t))).1 = some .equate := by
  have ht : Text.trimEnd (".equ ".toList ++ t) = '.' :: ("equ".toList ++ Text.trimEnd (' ' :: t)) := by
    change Text.trimEnd ('.' :: 'e' :: 'q' :: 'u' :: ' ' :: t) = _
    rw [Text.trimEnd_cons rfl, Text.trimEnd_cons rfl, Text.trimEnd_cons rfl,
      Text.trimEnd_cons rfl]
    rfl
  have hword : (Text.firstWord ("equ".toList ++ Text.trimEnd (' ' :: t))).1 = "equ".toList := by
    have hall : "equ".toList.all (fun c => !Text.isBlank c) = true := by decide
    refine Text.firstWord_append (by decide) (fun c hc => ?_) fun c hc => ?_
    · simpa using List.all_eq_true.mp hall c hc
    · obtain rfl := Option.some.inj (Text.mem_head?_of_trimEnd hc)
      rfl
  rw [ht]
  change ofName? (Text.firstWord ("equ".toList ++ Text.trimEnd (' ' :: t))).1 = _
  rw [hword]
  decide

theorem blockEvent?_eq_none {t : Text} {k : Directive} (h : (Directive.parse t).1 = some k)
    (hk : k.event? false = none) : blockEvent? t = none := by
  rw [blockEvent?, h, Option.bind_some, hk, ite_self]

/-- Spelling a statement in its usual way makes no conditional directive of it. -/
theorem blockEvent?_canonicalStatement (t : Text) :
    blockEvent? (canonicalStatement t) = blockEvent? t := by
  have hnone (hc : (Text.firstWord t).1.head?.any Directive.isLead = false) :
      blockEvent? t = none := by
    cases t with
    | nil => rfl
    | cons c t =>
      refine if_neg fun hl => ?_
      have hb : Text.isBlank c = false := by
        rcases (by simpa [Directive.isLead] using hl : c = '.' ∨ c = '#') with rfl | rfl
        · rfl
        · rfl
      rw [Text.firstWord_cons hb] at hc
      exact Bool.false_ne_true (hc.symm.trans hl)
  unfold canonicalStatement
  dsimp only
  split
  next h =>
    rw [Bool.and_eq_true, Bool.not_eq_true'] at h
    rw [hnone h.1, List.append_assoc]
    exact blockEvent?_eq_none (Directive.parse_equ _) rfl
  next =>
    split
    next h =>
      have hname : Text.lower (Text.firstWord t).1 = "dat".toList :=
        (eq_of_beq h).trans (by decide)
      have hparse : (Directive.parse ('.' :: t)).1 = some .data := by
        change Directive.ofName? (Text.firstWord t).1 = _
        rw [Directive.ofName?, hname]
        decide
      rw [blockEvent?_eq_none hparse rfl, hnone]
      cases hw : (Text.firstWord t).1 with
      | nil => rfl
      | cons c w =>
        rw [hw] at hname
        have hc : c.toLower = 'd' := (List.cons.inj hname).1
        refine Bool.eq_false_iff.mpr fun hl => ?_
        rcases (by simpa [Directive.isLead] using hl : c = '.' ∨ c = '#') with rfl | rfl
        · exact absurd hc (by decide)
        · exact absurd hc (by decide)
    next => rfl

/-- The line is left to the assembler, and it brings no other lines with it. -/
structure IsOrdinary (v : Session) (t : Text) : Prop where
  claim : ∀ c, v.hooks.claim? c (Text.clean t) = none
  template : directive? (afterLabel (Text.clean t)) ≠ some .template
  includeText : directive? (afterLabel (Text.clean t)) ≠ some .includeText

namespace Directive

theorem event?_isSome (k : Directive) (condition : Bool) :
    (k.event? condition).isSome = k.isConditional := by
  cases k <;> rfl

/-- The condition of an event does not matter for the number of open blocks. -/
theorem depth?_of_event? {k : Directive} {c c' : Bool} {event event' : BlockEvent}
    (h : k.event? c = some event) (h' : k.event? c' = some event') (n : Nat) :
    event.depth? n = event'.depth? n := by
  cases k with
  | ifTrue | ifDefined | ifUndefined | elseIf | elseAll | endBlock =>
    obtain rfl := Option.some.inj h
    obtain rfl := Option.some.inj h'
    cases n with
    | zero => rfl
    | succ n => rfl
  | _ => cases h

end Directive

/-- Carrying out an event changes the number of levels as the event says. -/
theorem Conditions.apply_length {c : Conditions} {k : Nat} (h : c.length = k + 1)
    (event : BlockEvent) :
    (event.depth? k = none ∧ ∃ f, c.apply event = .error f) ∨
      ∃ n c', event.depth? k = some n ∧ c.apply event = .ok c' ∧ c'.length = n + 1 := by
  cases c with
  | nil => cases h
  | cons l ls =>
    cases ls with
    | nil =>
      obtain rfl : k = 0 := (Nat.succ.inj h).symm
      cases event with
      | ifTrue condition => exact .inr ⟨1, _, rfl, rfl, rfl⟩
      | elseIf condition => exact .inl ⟨rfl, _, rfl⟩
      | elseAll => exact .inl ⟨rfl, _, rfl⟩
      | endBlock => exact .inl ⟨rfl, _, rfl⟩
    | cons outer ls =>
      cases k with
      | zero => cases h
      | succ k =>
        cases event with
        | ifTrue condition => exact .inr ⟨k + 2, _, rfl, rfl, congrArg (· + 1) h⟩
        | elseIf condition => exact .inr ⟨k + 1, _, rfl, rfl, h⟩
        | elseAll => exact .inr ⟨k + 1, _, rfl, rfl, h⟩
        | endBlock => exact .inr ⟨k, _, rfl, rfl, Nat.succ.inj h⟩

namespace Draft

variable {v : Session} {d d' : Draft} {l : SourceLine} {t : Text}

section Counted

/-- An event is asked for, or nothing happens that concerns blocks. -/
inductive Obeys (d d' : Draft) : Option BlockEvent → Prop where
  | same (h : d.SameControl d') : Obeys d d' none
  | asked {d₁ : Draft} {event asked : BlockEvent} (hs : d.SameControl d₁) (h : d₁.Asked d' asked)
      (hd : ∀ k, asked.depth? k = event.depth? k) : Obeys d d' (some event)

namespace Obeys

variable {event : Option BlockEvent}

theorem after_same {d₁ : Draft} (h : d.SameControl d₁) (h' : d₁.Obeys d' event) :
    d.Obeys d' event := by
  cases h' with
  | same h' => exact .same (h.trans h')
  | asked hs ha hd => exact .asked (h.trans hs) ha hd

theorem feed (h : d.Obeys d' event) : d'.feed = d.feed := by
  cases h with
  | same h => exact h.feed
  | asked hs ha _ => exact ha.feed.trans hs.feed

theorem templates (h : d.Obeys d' event) : d'.templates = d.templates := by
  cases h with
  | same h => exact h.templates
  | asked hs ha _ => exact ha.templates.trans hs.templates

/-- Unless the line lacks its block, the number of open blocks is then as its event says. -/
theorem length {k : Nat} (h : d.Obeys d' event) (hk : d.blocks.length = k + 1)
    (hfault : ∀ e ∈ d'.entries.toList, e.fault ≠ some .uncoupledStatement) :
    ∃ m, depthAfter? k event = some m ∧ d'.blocks.length = m + 1 := by
  cases h with
  | same h => exact ⟨k, rfl, (congrArg List.length h.blocks).trans hk⟩
  | @asked d₁ event asked hs ha hd =>
    obtain ⟨e, he, hu⟩ := ha.entry
    have hk₁ : d₁.blocks.length = k + 1 := (congrArg List.length hs.blocks).trans hk
    rcases Conditions.apply_length hk₁ asked with ⟨-, f, hf⟩ | ⟨m, c, hm, hc, hlen⟩
    · refine absurd (hu.mpr ⟨f, hf⟩) (hfault e ?_)
      rw [he, Array.toList_push]
      exact List.mem_append_right _ List.mem_cons_self
    · refine ⟨m, (hd k).symm.trans hm, ?_⟩
      rw [ha.blocks, Conditions.after, hc]
      exact hlen

end Obeys

theorem directive_obeys (hlead : t.head?.any Directive.isLead = true)
    (ht : (Directive.parse t).1 ≠ some .template) (hi : (Directive.parse t).1 ≠ some .includeText)
    (h : d.directive v l t = .ok d') : d.Obeys d' (blockEvent? t) := by
  unfold blockEvent?
  rw [if_pos hlead]
  cases hk : (Directive.parse t).1 with
  | none =>
    refine .same (SameControl.of_directive (fun k hk' => ?_) h)
    rw [hk] at hk'
    cases hk'
  | some k =>
    rw [hk] at ht hi
    have hs := k.event?_isSome false
    rw [Option.bind_some]
    cases hc : k.isConditional with
    | false =>
      rw [hc, Option.isSome_eq_false_iff, Option.isNone_iff_eq_none] at hs
      rw [hs]
      refine .same (SameControl.of_directive (fun k' hk' => ?_) h)
      obtain rfl := Option.some.inj (hk.symm.trans hk')
      exact ⟨hc, fun he => ht (congrArg some he), fun he => hi (congrArg some he)⟩
    | true =>
      rw [hc, Option.isSome_iff_exists] at hs
      obtain ⟨event, he⟩ := hs
      obtain ⟨condition, asked, ha, hasked⟩ := directive_asked hk hc h
      rw [he]
      exact .asked (.refl d) hasked (Directive.depth?_of_event? ha he)

theorem statement_obeys (htem : d.templates = []) (ht : directive? t ≠ some .template)
    (hi : directive? t ≠ some .includeText) (h : d.statement v l t = .ok d') :
    d.Obeys d' (blockEvent? (canonicalStatement t)) := by
  unfold statement at h
  split at h
  next he =>
    obtain rfl := Except.ok.inj h
    obtain rfl := List.isEmpty_iff.mp he
    exact .same (.refl d)
  next =>
    dsimp only at h
    split at h
    next hlead =>
      rw [directive?, if_pos hlead] at ht hi
      exact directive_obeys hlead ht hi h
    next hlead =>
      have hnone : d.expandCall? l (canonicalStatement t) = none := by
        unfold expandCall?
        rw [htem]
        cases Template.call? (canonicalStatement t) with
        | none => rfl
        | some call => rfl
      rw [hnone] at h
      rw [blockEvent?, if_neg hlead]
      exact .same (.of_instruction h)

theorem skippedLine_obeys (h : d.skippedLine v l t = .ok d') : d.Obeys d' (blockEvent? t) := by
  unfold skippedLine at h
  split at h
  next hc =>
    obtain ⟨hlead, k, hk, hcond⟩ : t.head?.any Directive.isLead = true ∧
        ∃ k, (Directive.parse t).1 = some k ∧ k.isConditional = true := by
      simpa [Option.any_eq_true] using hc
    refine directive_obeys hlead ?_ ?_ h
    · rintro ht
      obtain rfl := Option.some.inj (hk.symm.trans ht)
      cases hcond
    · rintro ht
      obtain rfl := Option.some.inj (hk.symm.trans ht)
      cases hcond
  next hc =>
    obtain rfl := Except.ok.inj h
    have hnone : blockEvent? t = none := by
      unfold blockEvent?
      split
      next hlead =>
        cases hk : (Directive.parse t).1 with
        | none => rfl
        | some k =>
          have hs := k.event?_isSome false
          rw [show k.isConditional = false by simpa [hlead, hk] using hc,
            Option.isSome_eq_false_iff, Option.isNone_iff_eq_none] at hs
          exact hs
      next => rfl
    rw [hnone]
    exact .same (.refl d)

/-- An ordinary line does what its text says, whether lines count or not. -/
theorem line_obeys (ho : IsOrdinary v l.text) (htem : d.templates = [])
    (hlabel : blockEvent? (afterLabel (Text.clean l.text)) = blockEvent? (Text.clean l.text))
    (h : d.line v l = .ok d') : d.Obeys d' (blockEvent? (Text.clean l.text)) := by
  obtain ⟨hclaim, ht, hi⟩ := ho
  unfold line at h
  dsimp only at h
  split at h
  next he =>
    obtain rfl := Except.ok.inj h
    rw [List.isEmpty_iff.mp he]
    exact .same (.refl d)
  next =>
    split at h
    · exact skippedLine_obeys h
    · rw [hclaim] at h
      dsimp only at h
      rw [takeLabel_rest] at h
      have hsame := SameControl.of_takeLabel d l (Text.clean l.text)
      rw [← hlabel, ← blockEvent?_canonicalStatement]
      have hobeys := statement_obeys (hsame.templates.trans htem) ht hi h
      exact .after_same hsame hobeys

theorem Steps.mem_entries {e : Entry} (h : d.Steps d') (he : e ∈ d.entries.toList) :
    e ∈ d'.entries.toList := by
  obtain ⟨i, hi⟩ := List.getElem?_of_mem he
  rw [Array.getElem?_toList] at hi
  have hlast := h.getElem? hi
  rw [← Array.getElem?_toList] at hlast
  exact List.mem_of_getElem? hlast

/-- The blocks of lines that are read to their end by themselves are balanced, if no line lacks its
block and none is left open. -/
theorem readAll_balanced {steps : Nat} {file : Text} {rest : List Text} {n : Numbering} {k : Nat}
    (hf : d.feed.frames = [⟨file, rest, n⟩]) (htem : d.templates = [])
    (hord : ∀ t ∈ rest, IsOrdinary v t)
    (hlabel : ∀ t ∈ rest, blockEvent? (afterLabel (Text.clean t)) = blockEvent? (Text.clean t))
    (hk : d.blocks.length = k + 1) (h : d.readAll v steps = .ok d')
    (hend : d'.blocks.length = 1)
    (hfault : ∀ e ∈ d'.entries.toList, e.fault ≠ some .uncoupledStatement) :
    balanced k (blockEvents rest) = true := by
  induction rest generalizing steps d k n with
  | nil =>
    cases steps with
    | zero => cases h
    | succ steps =>
      have hn : d.feed.next? = none := by simp [Feed.next?, Feed.nextInFrame?, hf]
      rw [readAll, hn] at h
      obtain rfl := Except.ok.inj h
      obtain rfl : k = 0 := Nat.succ.inj (hk.symm.trans hend)
      rfl
  | cons t ts ih =>
    cases steps with
    | zero => cases h
    | succ steps =>
      obtain ⟨l, hl, hn⟩ : ∃ l : SourceLine, l.text = t ∧
          d.feed.next? = some (l, ⟨[⟨file, ts, n.advance 1⟩], d.feed.root + 1⟩) :=
        ⟨⟨t, file, n.ahead 0, d.feed.root + 1⟩, rfl, by
          simp [Feed.next?, Feed.nextInFrame?, hf, Frame.drop]⟩
      rw [readAll, hn] at h
      dsimp only at h
      split at h
      next d₁ hline =>
        have hobeys := line_obeys
          (d := { d with feed := ⟨[⟨file, ts, n.advance 1⟩], d.feed.root + 1⟩ })
          (hl ▸ hord t List.mem_cons_self) htem (hl ▸ hlabel t List.mem_cons_self) hline
        obtain ⟨m, hm, hlen⟩ := hobeys.length hk fun e he =>
          hfault e ((readAll_steps h).mem_entries he)
        rw [hl] at hm
        rw [balanced_cons, hm]
        exact ih (congrArg Feed.frames hobeys.feed) (hobeys.templates.trans htem)
          (fun x hx => hord x (List.mem_cons_of_mem _ hx))
          (fun x hx => hlabel x (List.mem_cons_of_mem _ hx)) hlen h
      next => cases h

end Counted

end Draft

end Dcpu
