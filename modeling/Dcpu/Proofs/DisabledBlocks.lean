import Dcpu.Proofs.BlockEvents
import Dcpu.Proofs.Splicing
import Dcpu.Proofs.Substitution

/-! Lines in a block that does not count. Only the conditional directives among them are read, and
these without taking labels off first. If that makes no difference, what the block contains can be
left out together with the block. -/
namespace Dcpu
open Answer

/-- The blocks inside of a block that does not count, above that block. -/
def Conditions.disabled (k : Nat) : Conditions :=
  List.replicate k ⟨false, false, false⟩ ++ ⟨false, false, true⟩ :: Conditions.start

namespace Conditions

theorem active_disabled (k : Nat) : (disabled k).active = false := by
  cases k with
  | zero => rfl
  | succ k => rfl

theorem enter_disabled (k : Nat) : (disabled k).enter false = disabled (k + 1) := by
  rw [enter, active_disabled]
  rfl

theorem exists_disabled (k : Nat) :
    ∃ outer ls, disabled k = outer :: ls ∧ disabled (k + 1) = ⟨false, false, false⟩ :: outer :: ls := by
  cases k with
  | zero => exact ⟨_, _, rfl, rfl⟩
  | succ k => exact ⟨_, _, rfl, rfl⟩

theorem wantsBranch_disabled (k : Nat) : (disabled (k + 1)).wantsBranch = .ok false := by
  obtain ⟨outer, ls, -, h⟩ := exists_disabled k
  rw [h]
  rfl

/-- No further branch counts either. -/
theorem branch_disabled (k : Nat) (condition : Bool) :
    (disabled (k + 1)).branch condition = .ok (disabled (k + 1)) := by
  obtain ⟨outer, ls, -, h⟩ := exists_disabled k
  rw [h]
  rfl

theorem leave_disabled (k : Nat) : (disabled (k + 1)).leave = .ok (disabled k) := by
  obtain ⟨outer, ls, h, h'⟩ := exists_disabled k
  rw [h', h]
  rfl

end Conditions

/-- The condition of the line that disables a block does not hold, if no plugin has another value
for the numeral. -/
theorem condition_zero {v : Session} (hz : v.hooks.value? ['0'] = none) (s : SymbolTable)
    (e : Entry) : condition v s e ['0'] = .ok (.ok false, s) := by
  have heval : Expr.eval (v.context s e.position) ['0'] = .ok (.ofWord 0) :=
    Expr.eval_numeral (c := v.context s e.position) (w := 0) hz
  have hv : v.eval s e.position ['0'] = .ok (.ofWord 0, s) := Session.eval_eq_ok.mpr ⟨heval, rfl⟩
  unfold condition Session.immediate
  rw [hv]
  rfl

namespace Draft

variable {v : Session} {d d' : Draft} {l : SourceLine} {t : Text}

section Skipped

/-- Inside of a block that does not count a directive is carried out in silence. -/
theorem directive_disabled {k n : Nat} {event : BlockEvent} (hb : d.blocks = .disabled k)
    (he : blockEvent? t = some event) (hn : event.depth? k = some n) :
    d.directive v l t = .ok ({ d with blocks := .disabled n }.push (d.entry l t)) := by
  have ha : d.blocks.active = false := by rw [hb, Conditions.active_disabled]
  have hfalse : d.blocks.enter false = .disabled (k + 1) := by rw [hb, Conditions.enter_disabled]
  have hopen : d.enterBlock (d.entry l t) (.ok false) =
      { d with blocks := .disabled (k + 1) }.push (d.entry l t) := by
    simp only [enterBlock, holds, faultOf, hfalse]
    rfl
  unfold blockEvent? at he
  split at he
  next hlead =>
    obtain ⟨dir, hdir, he⟩ := Option.bind_eq_some_iff.mp he
    unfold directive
    dsimp only
    rw [hdir]
    cases dir with
    | ifTrue =>
      obtain rfl := Option.some.inj he
      obtain rfl := Option.some.inj hn
      simp only [enterIf, ha, Bool.false_eq_true, if_false, hopen]
    | ifDefined =>
      obtain rfl := Option.some.inj he
      obtain rfl := Option.some.inj hn
      simp only [enterIfDefined, ha, Bool.false_eq_true, if_false, hopen]
    | ifUndefined =>
      obtain rfl := Option.some.inj he
      obtain rfl := Option.some.inj hn
      simp only [enterIfDefined, ha, Bool.false_eq_true, if_false, hopen]
    | elseIf =>
      obtain rfl := Option.some.inj he
      cases k with
      | zero => cases hn
      | succ k =>
        obtain rfl := Option.some.inj hn
        simp only [elseIf, hb, Conditions.wantsBranch_disabled, Conditions.branch_disabled,
          setBlocks]
    | elseAll =>
      obtain rfl := Option.some.inj he
      cases k with
      | zero => cases hn
      | succ k =>
        obtain rfl := Option.some.inj hn
        simp only [hb, Conditions.branch_disabled, setBlocks]
    | endBlock =>
      obtain rfl := Option.some.inj he
      cases k with
      | zero => cases hn
      | succ k =>
        obtain rfl := Option.some.inj hn
        simp only [hb, Conditions.leave_disabled, setBlocks]
    | _ => cases he
  next => cases he

/-- The text is a conditional directive exactly if it has an event. -/
theorem isConditional_eq (t : Text) :
    (t.head?.any Directive.isLead && (Directive.parse t).1.any Directive.isConditional) =
      (blockEvent? t).isSome := by
  unfold blockEvent?
  cases t.head?.any Directive.isLead with
  | false => rfl
  | true =>
    cases (Directive.parse t).1 with
    | none => rfl
    | some k => exact (k.event?_isSome false).symm

/-- Inside of a block that does not count a line does nothing but what it asks of blocks. -/
theorem line_disabled {k m : Nat} (hb : d.blocks = .disabled k)
    (hm : depthAfter? k (blockEvent? (Text.clean l.text)) = some m) :
    ∃ es : List Entry, (∀ e ∈ es, e.IsSilent) ∧
      d.line v l = .ok { d with blocks := .disabled m, entries := d.entries ++ es.toArray } := by
  have ha : d.blocks.active = false := by rw [hb, Conditions.active_disabled]
  have hline (hne : (Text.clean l.text).isEmpty = false) :
      d.line v l = d.skippedLine v l (Text.clean l.text) := by
    simp only [line, hne, ha, Bool.false_eq_true, if_false, Bool.not_false, if_true]
  cases he : blockEvent? (Text.clean l.text) with
  | none =>
    rw [he] at hm
    obtain rfl := Option.some.inj hm
    refine ⟨[], fun e he => absurd he List.not_mem_nil, ?_⟩
    rw [Array.append_empty, ← hb]
    by_cases hne : (Text.clean l.text).isEmpty = true
    · simp only [line, hne, if_true]
    · rw [hline (by simpa using hne), skippedLine, isConditional_eq, he]
      rfl
  | some event =>
    rw [he] at hm
    have hne : (Text.clean l.text).isEmpty = false := by
      cases ht : Text.clean l.text with
      | nil =>
        rw [ht] at he
        cases he
      | cons => rfl
    refine ⟨[d.entry l (Text.clean l.text)], ?_, ?_⟩
    · intro e he
      obtain rfl := List.mem_singleton.mp he
      exact ⟨rfl, rfl, rfl, rfl⟩
    · rw [hline hne, skippedLine, isConditional_eq, he, Option.isSome_some, if_pos rfl,
        directive_disabled hb he hm, push_silent _ ⟨rfl, rfl, rfl, rfl⟩]
      rfl

/-- Balanced lines inside of a block that does not count are passed over. -/
theorem complete_disabled {k n r : Nat} {file : Text} {lines rest : List Text}
    (hf : d.feed = ⟨[⟨file, lines ++ rest, .counted n⟩], r⟩) (hb : d.blocks = .disabled k)
    (hbal : balanced k (blockEvents lines) = true) :
    ∃ es : List Entry, (∀ e ∈ es, e.IsSilent) ∧ ∀ steps,
      d.complete v (steps + lines.length) =
        { d with
          feed := ⟨[⟨file, rest, .counted (n + lines.length)⟩], r + lines.length⟩
          blocks := .disabled 0
          entries := d.entries ++ es.toArray }.complete v steps := by
  induction lines generalizing d k n r with
  | nil =>
    obtain rfl : k = 0 := by simpa [blockEvents, balanced] using hbal
    refine ⟨[], fun e he => absurd he List.not_mem_nil, fun steps => ?_⟩
    rw [List.nil_append] at hf
    simp [← hf, ← hb]
  | cons t ts ih =>
    let l : SourceLine := ⟨t, file, n + 1, r + 1⟩
    let d₁ : Draft := { d with feed := ⟨[⟨file, ts ++ rest, .counted (n + 1)⟩], r + 1⟩ }
    have hn : d.feed.next? = some (l, d₁.feed) := by
      rw [hf]
      rfl
    rw [balanced_cons] at hbal
    obtain ⟨m, hm, hbal⟩ := (Option.any_eq_true _ _).mp hbal
    obtain ⟨first, hfirst, hline⟩ := line_disabled (v := v) (d := d₁) (l := l) hb hm
    obtain ⟨es, hes, hrun⟩ := ih (d := { d₁ with
      blocks := .disabled m, entries := d.entries ++ first.toArray }) rfl rfl hbal
    refine ⟨first ++ es, ?_, fun steps => ?_⟩
    · intro e he
      rcases List.mem_append.mp he with he | he
      · exact hfirst e he
      · exact hes e he
    · have hreads : d.ReadsLine v _ := ⟨l, d₁.feed, hn, hline⟩
      rw [List.length_cons, ← Nat.add_assoc, hreads.complete_succ, hrun]
      simp [d₁, Nat.add_assoc, Nat.add_comm 1]

end Skipped

section Bracketed

theorem line_if_zero (hl : l.text = ".if 0".toList) (hb : d.blocks = .start)
    (hc : v.hooks.claim? ⟨l.file, l.line, d.address⟩ ".if 0".toList = none)
    (hz : v.hooks.value? ['0'] = none) :
    d.line v l = .ok { d with
      blocks := .disabled 0
      entries := d.entries.push (d.entry l ".if 0".toList) } := by
  have ha : d.blocks.active = true := congrArg Conditions.active hb
  have hclean : Text.clean l.text = ".if 0".toList :=
    (congrArg Text.clean hl).trans (by decide +kernel)
  have hlabel : LabelPart.ofLine? ".if 0".toList = none := by decide +kernel
  have hcanon : canonicalStatement ".if 0".toList = ".if 0".toList := by decide +kernel
  have hparse : Directive.parse ".if 0".toList = (some .ifTrue, ['0']) := by decide +kernel
  have hp := { d with blocks := .disabled 0 }.push_silent (e := d.entry l ".if 0".toList)
    ⟨rfl, rfl, rfl, rfl⟩
  have hdirective : d.directive v l ".if 0".toList =
      .ok ({ d with blocks := .disabled 0 }.push (d.entry l ".if 0".toList)) := by
    unfold directive
    rw [hparse]
    dsimp only
    rw [enterIf, if_pos ha, condition_zero hz]
    dsimp only [bind, Except.bind, pure, Except.pure, enterBlock, holds, faultOf, pushOutcome]
    rw [hb]
    rfl
  unfold line
  dsimp only
  rw [hclean, if_neg (by decide), ha, if_neg (by decide), hc]
  dsimp only
  rw [takeLabel, hlabel]
  dsimp only
  rw [statement, if_neg (by decide), hcanon]
  dsimp only
  rw [if_pos (by decide), hdirective, hp]

theorem line_end (hl : l.text = ".end".toList) (hb : d.blocks = .disabled 0) :
    d.line v l = .ok { d with
      blocks := .start
      entries := d.entries.push (d.entry l ".end".toList) } := by
  have ha : d.blocks.active = false := congrArg Conditions.active hb
  have hclean : Text.clean l.text = ".end".toList :=
    (congrArg Text.clean hl).trans (by decide +kernel)
  have hparse : Directive.parse ".end".toList = (some .endBlock, []) := by decide +kernel
  have hp := { d with blocks := .start }.push_silent (e := d.entry l ".end".toList)
    ⟨rfl, rfl, rfl, rfl⟩
  have hdirective : d.directive v l ".end".toList =
      .ok ({ d with blocks := .start }.push (d.entry l ".end".toList)) := by
    unfold directive
    rw [hparse]
    dsimp only
    rw [hb]
    rfl
  unfold line
  dsimp only
  rw [hclean, if_neg (by decide), ha, Bool.not_false, if_pos rfl, skippedLine, isConditional_eq,
    if_pos (by decide +kernel), hdirective, hp]

/-- A block that does not count, after which the program goes on as if it had started there. -/
theorem complete_block {file source rest : Text} {lines : List Text}
    (hsource : Text.lines source = ".if 0".toList :: (lines ++ ".end".toList :: Text.lines rest))
    (hc : v.hooks.claim? ⟨file, 1, 0⟩ ".if 0".toList = none) (hz : v.hooks.value? ['0'] = none)
    (hbal : balanced 0 (blockEvents lines) = true) :
    ∃ es : List Entry, (∀ e ∈ es, e.IsSilent) ∧ ∀ steps,
      (v.start file source).complete v (steps + (lines.length + 2)) =
        { v.start file rest with
          feed := ⟨[⟨file, Text.lines rest, .counted (lines.length + 2)⟩], lines.length + 2⟩
          entries := es.toArray }.complete v steps := by
  let opening : SourceLine := ⟨".if 0".toList, file, 1, 1⟩
  let closing : SourceLine := ⟨".end".toList, file, 1 + lines.length + 1, 1 + lines.length + 1⟩
  let start : Draft := { v.start file rest with
    feed := ⟨[⟨file, lines ++ ".end".toList :: Text.lines rest, .counted 1⟩], 1⟩ }
  let first : Entry := start.entry opening ".if 0".toList
  have hopen : (v.start file source).ReadsLine v
      { start with blocks := .disabled 0, entries := #[first] } := by
    refine ⟨opening, start.feed, ?_, line_if_zero (d := start) rfl rfl hc hz⟩
    show Feed.next? ⟨[⟨file, Text.lines source, .counted 0⟩], 0⟩ = _
    rw [hsource]
    rfl
  obtain ⟨es, hes, hrun⟩ := complete_disabled (v := v)
    (d := { start with blocks := .disabled 0, entries := #[first] }) rfl rfl hbal
  let inner : Draft := { start with
    feed := ⟨[⟨file, Text.lines rest, .counted (1 + lines.length + 1)⟩], 1 + lines.length + 1⟩
    blocks := .disabled 0
    entries := #[first] ++ es.toArray }
  let last : Entry := inner.entry closing ".end".toList
  have hclose : Draft.ReadsLine v { start with
      feed := ⟨[⟨file, ".end".toList :: Text.lines rest, .counted (1 + lines.length)⟩],
        1 + lines.length⟩
      blocks := .disabled 0
      entries := #[first] ++ es.toArray }
      { inner with blocks := .start, entries := inner.entries.push last } :=
    ⟨closing, inner.feed, rfl, line_end (d := inner) rfl rfl⟩
  refine ⟨first :: es ++ [last], ?_, fun steps => ?_⟩
  · intro e he
    rw [List.cons_append, List.mem_cons, List.mem_append, List.mem_singleton] at he
    rcases he with rfl | he | rfl
    · exact ⟨rfl, rfl, rfl, rfl⟩
    · exact hes e he
    · exact ⟨rfl, rfl, rfl, rfl⟩
  · have hsteps : steps + (lines.length + 2) = steps + 1 + lines.length + 1 := by omega
    rw [hsteps, hopen.complete_succ, hrun, hclose.complete_succ]
    have hlen : 1 + lines.length + 1 = lines.length + 2 := by omega
    have hentries : inner.entries.push last = (first :: es ++ [last]).toArray := by simp [inner]
    rw [hentries]
    simp only [inner, start, hlen]
    rfl

end Bracketed

end Draft

/-- Lines and silent entries before all others. -/
def Padding.leading (lines places : Nat) : Padding :=
  .insert 0 0 lines places (fun _ => True) fun _ _ h => h

/-- A program beside itself after lines that leave nothing but silent entries. -/
theorem Draft.Beside.leading {v : Session} (hs : v.symbols.OnlyEquates) (file source : Text)
    (lines : Nat) {es : List Entry} (hes : ∀ e ∈ es, e.IsSilent) :
    (v.start file source).Beside (.leading lines es.length)
      (Feed.Beside (.leading lines es.length) Feed.IsBottom)
      { v.start file source with
        feed := ⟨[⟨file, Text.lines source, .counted lines⟩], lines⟩
        entries := es.toArray } := by
  have hset : (v.start file source).Settled := by
    refine ⟨fun row hrow => ?_, fun l hl => ?_⟩
    · rw [show (v.start file source).symbols.labels = [] from hs.1] at hrow
      cases hrow
    · rw [show (v.start file source).symbols.anonymous = [] from hs.2] at hl
      cases hl
  have hself := Draft.Beside.self_start (I := fun _ => True) v file source trivial
  refine hself.insert (f := (v.start file source).feed) rfl hset rfl lines rfl
    (fun s hs => ⟨hes s hs, trivial⟩) ⟨.push ⟨rfl, rfl, rfl⟩ (.base ⟨rfl, rfl⟩), fun k => ?_⟩
  refine (Padding.insert_line_of_lt (Nat.lt_add_of_pos_right (Nat.succ_pos k))).trans ?_
  change 0 + (k + 1) + lines = lines + (k + 1)
  omega

/-- A program with a block in front that does not count is assembled like the program without it,
if the lines of the block, on their own, close the blocks that they open, and if labels do not
matter for that. Of the block only entries remain that say nothing. -/
theorem Session.run_disabled {v : Session} (hh : v.hooks.Unnumbered) (hs : v.symbols.OnlyEquates)
    {file own rest source : Text} {d : Draft} {n : Nat}
    (hsource : Text.lines source =
      ".if 0".toList :: (Text.lines own ++ ".end".toList :: Text.lines rest))
    (hc : v.hooks.claim? ⟨file, 1, 0⟩ ".if 0".toList = none) (hz : v.hooks.value? ['0'] = none)
    (hord : ∀ t ∈ Text.lines own, IsOrdinary v t)
    (hown : (v.start file own).readAll v n = .ok d)
    (hend : d.blocks.length = (v.start file own).blocks.length)
    (hfault : ∀ e ∈ d.entries.toList, e.fault ≠ some .uncoupledStatement)
    (hlabel : ∀ t ∈ Text.lines own,
      blockEvent? (afterLabel (Text.clean t)) = blockEvent? (Text.clean t))
    (steps : Nat) :
    Both (fun a a' => a.Agrees a' ∧ ∃ pre post, a'.entries = pre ++ post ∧
        (∀ e ∈ pre, e.IsSilent) ∧ post.map Entry.content = a.entries.map Entry.content)
      (v.run steps file rest) (v.run (steps + ((Text.lines own).length + 2)) file source) := by
  have hbal : balanced 0 (blockEvents (Text.lines own)) = true :=
    Draft.readAll_balanced rfl rfl hord hlabel rfl hown hend hfault
  obtain ⟨es, hes, hrun⟩ := Draft.complete_block hsource hc hz hbal
  rw [← Draft.complete_start, ← Draft.complete_start, hrun]
  have hbeside := Draft.Beside.leading hs file rest ((Text.lines own).length + 2) hes
  refine (hbeside.complete hh Feed.lockstep_isBottom steps).mono fun a a' h => ?_
  obtain ⟨pre, post, he, hpre, hpost⟩ := h.entries.exists_leading fun k =>
    (Padding.insert_place_of_le (Nat.zero_le _)).trans (Nat.add_right_comm 0 k es.length)
  exact ⟨h.agrees, pre, post, he, fun e he => (hpre e he).1, hpost⟩

/-- Lines that define symbols and open a block of their own. -/
def passedLines : Text := "top: .equ size 3\n.ifdef top\nDAT q\n.else\n.endif".toList

/-- What follows has a label of the same name. -/
def followingLines : Text := "SET A, top\ntop:".toList

/-- A program in which the first lines do not count. -/
def passedProgram : Text :=
  ".if 0\ntop: .equ size 3\n.ifdef top\nDAT q\n.else\n.endif\n.end\nSET A, top\ntop:".toList

theorem Session.run_disabled_sample :
    ∃ a a', Session.bare.run 3 [] followingLines = .ok a ∧
      Session.bare.run 10 [] passedProgram = .ok a' ∧ a.Agrees a' ∧ a'.words = [34817] ∧
      a'.entries.length = a.entries.length + 5 := by
  have hsource : Text.lines passedProgram =
      ".if 0".toList :: (Text.lines passedLines ++ ".end".toList :: Text.lines followingLines) := by
    decide +kernel
  have hlen : (Text.lines passedLines).length = 5 := by decide +kernel
  have ht : ∀ t ∈ Text.lines passedLines,
      directive? (afterLabel (Text.clean t)) ≠ some .template ∧
        directive? (afterLabel (Text.clean t)) ≠ some .includeText := by
    decide +kernel
  have hown : ∃ d, (Session.bare.start [] passedLines).readAll .bare 6 = .ok d ∧
      (d.blocks.length == 1 &&
        d.entries.toList.all fun e => e.fault != some .uncoupledStatement) = true :=
    exists_ok (by decide +kernel)
  obtain ⟨d, hd, hp⟩ := hown
  simp only [Bool.and_eq_true, beq_iff_eq, List.all_eq_true, bne_iff_ne] at hp
  have hboth := Session.run_disabled Session.bare_unnumbered ⟨rfl, rfl⟩ hsource rfl rfl
    (fun t h => ⟨fun _ => rfl, (ht t h).1, (ht t h).2⟩) hd hp.1 hp.2 (by decide +kernel) 3
  rw [hlen] at hboth
  have hrun : ∃ a, Session.bare.run 10 [] passedProgram = .ok a ∧
      (a.words == [34817] && a.entries.length == 7) = true :=
    exists_ok (by decide +kernel)
  have hrest : ∃ a, Session.bare.run 3 [] followingLines = .ok a ∧
      (a.entries.length == 2) = true :=
    exists_ok (by decide +kernel)
  obtain ⟨a, ha, hl⟩ := hrest
  obtain ⟨a', ha', hw⟩ := hrun
  rw [ha, show 3 + (5 + 2) = 10 from rfl, ha'] at hboth
  simp only [Bool.and_eq_true, beq_iff_eq] at hl hw
  cases hboth with
  | ok h => exact ⟨a, a', ha, ha', h.1, hw.1, by rw [hw.2, hl]⟩

/-- With a label before its condition, a block inside of one that does not count is not seen, and
the outer block ends too early. -/
theorem Session.run_disabled_labelled :
    ∃ d a a', (∀ t ∈ Text.lines "x: .if 1\n.end\nDAT 2".toList, IsOrdinary .bare t) ∧
      (Session.bare.start [] "x: .if 1\n.end\nDAT 2".toList).readAll .bare 4 = .ok d ∧
      d.blocks.length = 1 ∧ (∀ e ∈ d.entries.toList, e.fault = none) ∧
      Session.bare.run 2 [] "SET A, 1".toList = .ok a ∧ a.words = [34817] ∧
      Session.bare.run 7 [] ".if 0\nx: .if 1\n.end\nDAT 2\n.end\nSET A, 1".toList = .ok a' ∧
      a'.words = [2, 34817] ∧
      a'.entries.any (fun e => e.fault == some .uncoupledStatement) = true := by
  have ht : ∀ t ∈ Text.lines "x: .if 1\n.end\nDAT 2".toList,
      directive? (afterLabel (Text.clean t)) ≠ some .template ∧
        directive? (afterLabel (Text.clean t)) ≠ some .includeText := by
    decide +kernel
  have hown : ∃ d, (Session.bare.start [] "x: .if 1\n.end\nDAT 2".toList).readAll .bare 4 = .ok d ∧
      (d.blocks.length == 1 && d.entries.toList.all fun e => e.fault == none) = true :=
    exists_ok (by decide +kernel)
  have hrest : ∃ a, Session.bare.run 2 [] "SET A, 1".toList = .ok a ∧ (a.words == [34817]) = true :=
    exists_ok (by decide +kernel)
  have hrun : ∃ a,
      Session.bare.run 7 [] ".if 0\nx: .if 1\n.end\nDAT 2\n.end\nSET A, 1".toList = .ok a ∧
        (a.words == [2, 34817] &&
          a.entries.any fun e => e.fault == some .uncoupledStatement) = true :=
    exists_ok (by decide +kernel)
  obtain ⟨d, hd, hp⟩ := hown
  obtain ⟨a, ha, hw⟩ := hrest
  obtain ⟨a', ha', hw'⟩ := hrun
  simp only [Bool.and_eq_true, beq_iff_eq, List.all_eq_true] at hp hw hw'
  exact ⟨d, a, a', fun t h => ⟨fun _ => rfl, (ht t h).1, (ht t h).2⟩, hd, hp.1, hp.2, ha, hw, ha',
    hw'.1, hw'.2⟩

end Dcpu
