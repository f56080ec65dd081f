import Dcpu.Proofs.DraftSteps
import Dcpu.Proofs.LayoutSteps
import Dcpu.Proofs.Stability

/-! Equates and the final layout. A name keeps the value that its expression had on its line, and
the expression still has that value at the end as far as no address it uses has moved. -/
namespace Dcpu
open Answer

namespace SymbolTable

/-- A name that is free is spelled differently from all that are defined. -/
theorem lower_ne_of_isDefined {s : SymbolTable} {name other : Text}
    (hn : s.isDefined name = false) (ho : s.isDefined other = true) :
    (Text.lower other == Text.lower name) = false := by
  rw [beq_eq_false_iff_ne]
  intro heq
  rw [isDefined, equate?, label?, heq] at ho
  rw [isDefined, equate?, label?, ho] at hn
  cases hn

/-- Equates stay what they are, and labels do not become equates. -/
structure Grows (s t : SymbolTable) : Prop where
  equates : ∀ name w, s.equate? name = some w → t.equate? name = some w
  labels : ∀ name, s.equate? name = none → (s.label? name).isSome = true →
    t.equate? name = none ∧ (t.label? name).isSome = true

namespace Grows

variable {s t u : SymbolTable}

theorem refl (s : SymbolTable) : s.Grows s := ⟨fun _ _ => id, fun _ he hl => ⟨he, hl⟩⟩

theorem trans (h : s.Grows t) (h' : t.Grows u) : s.Grows u := by
  refine ⟨fun name w hw => h'.equates name w (h.equates name w hw), fun name he hl => ?_⟩
  obtain ⟨he, hl⟩ := h.labels name he hl
  exact h'.labels name he hl

theorem of_marked (h : s.Marked t) : s.Grows t := by
  rw [h.eq_with]
  exact ⟨fun _ _ => id, fun _ he hl => ⟨he, hl⟩⟩

theorem of_shiftBy (s : SymbolTable) (f : Nat → Int) : s.Grows (s.shiftBy f) := by
  refine ⟨fun _ _ => id, fun name he hl => ⟨he, ?_⟩⟩
  simpa [label?, shiftBy] using hl

theorem of_defineEquate {name : Text} {w : Word} (h : s.defineEquate name w = (.ok (), t)) :
    s.Grows t := by
  obtain ⟨-, hd, rfl⟩ := defineEquate_eq_ok.mp h
  constructor
  · intro other u hu
    rw [equate?, List.lookup_cons, lower_ne_of_isDefined hd (by simp [isDefined, hu])]
    exact hu
  · intro other he hl
    refine ⟨?_, hl⟩
    rw [equate?, List.lookup_cons, lower_ne_of_isDefined hd (by simp [isDefined, hl])]
    exact he

theorem of_defineLabel {name stored : Text} {address : Word} {position : Nat}
    (h : s.defineLabel name address position = (.ok stored, t)) : s.Grows t := by
  obtain ⟨-, hd, rfl⟩ := defineLabel_eq_ok.mp h
  refine ⟨fun _ _ => id, fun other he hl => ⟨he, ?_⟩⟩
  rw [label?, List.lookup_cons]
  split
  · rfl
  · exact hl

end Grows

end SymbolTable

namespace Draft

variable {v : Session} {d d' : Draft} {e : Entry} {k : Nat}

theorem Step.grows (h : d.Step d') : d.symbols.Grows d'.symbols := by
  cases h with
  | control h =>
    rw [h.symbols]
    exact .refl _
  | mark h => exact .of_marked h
  | equate h => exact .of_defineEquate h
  | emit => exact .refl _
  | form => exact .refl _
  | jump => exact .refl _
  | label h => exact .of_defineLabel h
  | anonymous => exact ⟨fun _ _ => id, fun _ he hl => ⟨he, hl⟩⟩

theorem Steps.grows (h : d.Steps d') : d.symbols.Grows d'.symbols :=
  h.keeps (P := fun k => d.symbols.Grows k.symbols) (fun _ _ hs hk => hk.trans hs.grows) (.refl _)

theorem getElem?_push (he : d.entries[k]? = some e) (f : Entry) :
    (d.push f).entries[k]? = some e := by
  obtain ⟨hk, -⟩ := Array.getElem?_eq_some_iff.mp he
  simpa [push, Array.getElem?_push, Nat.ne_of_lt hk] using he

/-- Entries stay as they were read. -/
theorem Step.getElem? (h : d.Step d') (he : d.entries[k]? = some e) :
    d'.entries[k]? = some e := by
  cases h with
  | control h =>
    rw [h.entries]
    exact he
  | mark => exact he
  | equate => exact he
  | emit =>
    apply getElem?_push
    exact he
  | form =>
    apply getElem?_push
    exact he
  | jump =>
    apply getElem?_push
    exact he
  | label =>
    apply getElem?_push
    exact he
  | anonymous =>
    apply getElem?_push
    exact he

theorem Steps.getElem? (h : d.Steps d') (he : d.entries[k]? = some e) :
    d'.entries[k]? = some e :=
  h.keeps (P := fun x => x.entries[k]? = some e) (fun _ _ => Step.getElem?) he

end Draft

namespace Layout

variable {v : Session} {l l' : Layout} {i : Nat}

theorem replace_grows (l : Layout) (i : Nat) (old new : Entry) :
    l.symbols.Grows (l.replace i old new).symbols := by
  obtain ⟨f, hf⟩ := l.shifted_movedBy i old new
  rw [replace_symbols, hf.symbols]
  exact .of_shiftBy ..

theorem refreshAt_grows (h : l.refreshAt v i = .ok l') : l.symbols.Grows l'.symbols := by
  obtain ⟨-, rfl⟩ | ⟨e, -, -, rfl⟩ | ⟨e, new, s, -, hv, hr, rfl⟩ := refreshAt_cases h
  · exact .refl _
  · exact .refl _
  · obtain ⟨-, -, hm⟩ := Entry.refresh_cases hv hr
    exact (SymbolTable.Grows.of_marked hm).trans
      (replace_grows { l with symbols := s } i e new)

theorem Passes.grows (h : Passes v l l') : l.symbols.Grows l'.symbols :=
  h.keeps (P := fun _ s => l.symbols.Grows s) (fun _ _ _ hr hk => hk.trans (refreshAt_grows hr))
    (.refl _)

end Layout

namespace Draft

variable {v : Session} {d d' d'' : Draft} {line : SourceLine} {t args : Text}

theorem ReadsLine.unique {a b : Draft} (ha : d.ReadsLine v a) (hb : d.ReadsLine v b) : a = b := by
  obtain ⟨line, feed, hn, hl⟩ := ha
  obtain ⟨line', feed', hn', hl'⟩ := hb
  obtain ⟨rfl, rfl⟩ := Prod.mk.inj (Option.some.inj (hn.symm.trans hn'))
  exact Except.ok.inj (hl.symm.trans hl')

/-- Reading goes on from every draft on its way. -/
theorem exists_readsLine {start last : Draft} {steps : Nat}
    (hr : Relation.ReflTransGen (ReadsLine v) start d) (hl : start.readAll v steps = .ok last)
    (hn : d.feed.next? ≠ none) : ∃ d', d.ReadsLine v d' ∧ d'.Steps last := by
  obtain ⟨hs, he⟩ := readAll_reads hl
  have hu : Relator.RightUnique (ReadsLine v) := fun _ _ _ => ReadsLine.unique
  have hd : Relation.ReflTransGen (ReadsLine v) d last := by
    rcases Relation.ReflTransGen.total_of_right_unique hu hr hs with h | h
    · exact h
    · rcases h.cases_head with rfl | ⟨x, ⟨line, feed, hx, -⟩, -⟩
      · exact .refl
      · nomatch he.symm.trans hx
  rcases hd.cases_head with rfl | ⟨d', hd', hrest⟩
  · exact absurd he hn
  · exact ⟨d', hd', Steps.of_reads hrest⟩

/-- The next line is an equate directive with these arguments. It is carried out in `d'`, where the
label at the start of the line is bound already. -/
structure EquateLine (v : Session) (d d' : Draft) (line : SourceLine) (t args : Text) : Prop where
  next : ∃ feed rest, d.feed.next? = some (line, feed) ∧
    { d with feed := feed }.takeLabel line (Text.clean line.text) = (d', rest) ∧
    rest ≠ [] ∧ canonicalStatement rest = t
  active : d.blocks.active = true
  unclaimed : v.hooks.claim? ⟨line.file, line.line, d.address⟩ (Text.clean line.text) = none
  lead : t.head?.any Directive.isLead = true
  parse : Directive.parse t = (some .equate, args)

theorem EquateLine.equate (h : EquateLine v d d' line t args) (hl : d.ReadsLine v d'') :
    d'.equate v (d'.entry line t) args = .ok d'' := by
  obtain ⟨feed, rest, hn, hk, hne, rfl⟩ := h.next
  obtain ⟨line', feed', hn', hl⟩ := hl
  obtain ⟨rfl, rfl⟩ := Prod.mk.inj (Option.some.inj (hn.symm.trans hn'))
  have hc : (Text.clean line.text).isEmpty = false := by
    rw [← Bool.not_eq_true]
    intro he
    rw [List.isEmpty_iff.mp he] at hk
    exact hne (Prod.mk.inj hk).2.symm
  have hr : rest.isEmpty = false := by simpa using hne
  simp only [Draft.line, hc, h.active, h.unclaimed, hk, statement, hr, h.lead, directive,
    h.parse] at hl
  simpa using hl

end Draft

/-- The entry that has been pushed last. -/
theorem Draft.exists_pushed (d : Draft) (e : Entry) :
    ∃ c, (d.push e).entries[d.entries.size]? = some { e with caution := c } := by
  obtain ⟨c, hp⟩ := d.push_eq e
  refine ⟨c, ?_⟩
  rw [hp]
  simp

/-- An entry with words of its own only moves after it has been read. -/
theorem exists_final {v : Session} {d last : Draft} {l : Layout} {k : Nat} {e : Entry}
    {ws : List Word} (hs : d.Steps last) (hp : Layout.Passes v last.layout l)
    (he : d.entries[k]? = some e) (hb : e.body = .words ws) :
    ∃ f, l.entries.toList[k]? = some f ∧ f = { e with address := f.address } := by
  have hk : last.layout.entries.toList[k]? = some e := by
    rw [Array.getElem?_toList]
    exact hs.getElem? he
  obtain ⟨f, hf, hu⟩ := hp.updated.get hk
  exact ⟨f, hf, hu.eq_of_words hb⟩

/-- The addresses that an expression with these references can use are the same in both contexts. -/
structure Expr.Context.Unmoved (c c' : Context) (names : List Text) : Prop where
  here : c'.position.address = c.position.address
  labels : ∀ name l, name ∈ names → c.symbols.label? name = some l →
    (c'.symbols.label? name).map Label.address = some l.address
  walk : ∀ signs w, c.walk? signs = some w → c'.walk? signs = some w

theorem SymbolTable.Grows.keeps {v : Session} {s t : SymbolTable} {p q : Position}
    (h : s.Grows t) (hp : q.scope = p.scope) {movable : Bool} {names : List Text}
    (hu : movable = true → (v.context s p).Unmoved (v.context t q) names) :
    (v.context s p).Keeps (v.context t q) movable names where
  hooks := rfl
  literal := rfl
  scope := hp
  equates := h.equates
  labels hm name l hn he hl := by
    refine ⟨(h.labels name he ?_).1, (hu hm).labels name l hn hl⟩
    exact Option.isSome_of_eq_some hl
  address hm := (hu hm).here
  walk hm := (hu hm).walk

/-- The value of the expression of an equate that is defined. -/
theorem Draft.EquateValue.exists_eval {v : Session} {d : Draft} {e : Entry} {expr : Text} {w : Word}
    {s : SymbolTable} (h : EquateValue v d e expr (.ok w) s) (hx : expr ≠ []) :
    ∃ r, Expr.eval (v.context d.symbols e.position) expr = .ok r ∧ r.ok = true ∧ r.value = w := by
  obtain ⟨hn, -⟩ | ⟨-, hi⟩ := h
  · exact absurd hn hx
  · obtain ⟨r, hr, hw⟩ := Session.immediate_eq_ok hi
    refine ⟨r, (Session.eval_eq_ok.mp hr).1, ?_⟩
    split at hw
    next hok => exact ⟨hok, (Except.ok.inj hw).symm⟩
    next => nomatch hw

/-- An equate without a fault keeps the value that its expression had on its line. Evaluated at the
end, the expression has that value again if its functions answer alike and the value does not come
from an address that has moved, unless the evaluation is aborted. -/
theorem equate_value {v : Session} {steps : Nat} {file source t args name expr : Text}
    {a : Assembly} {d d' : Draft} {line : SourceLine} {e : Entry}
    (hr : Relation.ReflTransGen (Draft.ReadsLine v) (v.start file source) d)
    (hq : Draft.EquateLine v d d' line t args) (hw : Text.firstWord args = (name, expr))
    (hx : expr ≠ []) (ha : v.run steps file source = .ok a)
    (he : a.entries[d'.entries.size]? = some e) (hf : e.fault = none) :
    e.code = t ∧ ∃ r, Expr.eval (v.context d'.symbols (d'.entry line t).position) expr = .ok r ∧
      r.ok = true ∧ a.symbols.equate? name = some r.value ∧
      ((∀ f arg, Expr.Calls (v.context d'.symbols (d'.entry line t).position) expr f arg →
          f arg a.symbols = f arg d'.symbols) →
        (r.relocatable = true → (v.context d'.symbols (d'.entry line t).position).Unmoved
          (v.context a.symbols e.position) r.references) →
        (∃ r', Expr.eval (v.context a.symbols e.position) expr = .ok r' ∧ r'.ok = true ∧
          r'.value = r.value) ∨
        ∃ x, Expr.eval (v.context a.symbols e.position) expr = .error x ∧
          ((∃ u, Expr.MeetsBraces (v.context a.symbols e.position) expr u ∧
              v.literal u = .error x) ∨
            x = .brokenName ∧ Expr.IsWide expr)) := by
  obtain ⟨last, l, hlast, hp, hae, has, -⟩ := Session.run_passes ha
  have hn : d.feed.next? ≠ none := by
    obtain ⟨feed, rest, hn, -⟩ := hq.next
    simp [hn]
  obtain ⟨d₁, hread, hsteps⟩ := Draft.exists_readsLine hr hlast hn
  have heq := hq.equate hread
  have hgrow : d'.symbols.Grows a.symbols := by
    have hs : d'.Steps last := (Draft.equate_steps rfl heq).trans hsteps
    rw [has]
    exact hs.grows.trans hp.grows
  rw [hae] at he
  obtain ⟨f, s, -, rfl⟩ | ⟨name', expr', w, s, u, hfw, hval, hdef, rfl⟩ := Draft.equate_cases heq
  · obtain ⟨c, hc⟩ := Draft.exists_pushed { d' with symbols := s }
      { d'.entry line t with fault := some f }
    obtain ⟨e', he', heq'⟩ := exists_final hsteps hp hc rfl
    obtain rfl := Option.some.inj (he.symm.trans he')
    rw [heq'] at hf
    nomatch hf
  · obtain ⟨rfl, rfl⟩ := Prod.mk.inj (hw.symm.trans hfw)
    obtain ⟨c, hc⟩ := Draft.exists_pushed { d' with symbols := u } (d'.entry line t)
    obtain ⟨e', he', heq'⟩ := exists_final hsteps hp hc rfl
    obtain rfl := Option.some.inj (he.symm.trans he')
    obtain ⟨r, heval, hok, rfl⟩ := hval.exists_eval hx
    refine ⟨by rw [heq']; rfl, r, heval, hok, ?_, fun hcalls hmoved => ?_⟩
    · obtain ⟨-, -, rfl⟩ := SymbolTable.defineEquate_eq_ok.mp hdef
      have hb : SymbolTable.Grows _ l.symbols := (Draft.Steps.grows hsteps).trans hp.grows
      rw [has]
      exact hb.equates name r.value List.lookup_cons_self
    · cases hend : Expr.eval (v.context a.symbols e.position) expr with
      | error x => exact .inr ⟨x, rfl, Expr.eval_error hend⟩
      | ok r' =>
        have hscope : e.position.scope = (d'.entry line t).position.scope := by rw [heq']; rfl
        have hset : r.Settled r.relocatable r.references := ⟨hok, id, fun _ => id⟩
        have hsame := Expr.eval_same (hgrow.keeps hscope hmoved) hcalls heval hset hend
        exact .inl ⟨r', rfl, hsame.ok.trans hok, hsame.value⟩

/-- Where there are no anonymous labels, no signs lead to one. -/
theorem Expr.Context.walk?_eq_none {c : Context} (h : c.symbols.anonymous = []) (signs : Text) :
    c.walk? signs = none := by
  unfold walk?
  split
  · simp [SymbolTable.forward?, h]
  split
  · simp [SymbolTable.backward?, h]
  · rfl

/-- An equate with a label that stays where it is, and one with a label that moves. -/
def equateProgram : Text := ":start .equ here start+1\nSET A, end\n:end\n.equ size end".toList

theorem equate_value_sample :
    ∃ (a : Assembly) (d' : Draft) (line : SourceLine) (t args : Text) (e : Entry),
      Draft.EquateLine .bare (Session.bare.start [] equateProgram) d' line t args ∧
      Text.firstWord args = ("here".toList, "start+1".toList) ∧
      Session.bare.run 9 [] equateProgram = .ok a ∧ a.entries[d'.entries.size]? = some e ∧
      e.fault = none ∧ a.symbols.equate? "here".toList = some 1 ∧
      ∃ r, Expr.eval (Session.bare.context a.symbols e.position) "start+1".toList = .ok r ∧
        r.ok = true ∧ r.value = 1 := by
  obtain ⟨a, ha, hp⟩ := exists_ok (x := Session.bare.run 9 [] equateProgram)
    (p := fun a => (Session.bare.start [] equateProgram).feed.next?.any fun x =>
      let s := { Session.bare.start [] equateProgram with feed := x.2 }.takeLabel x.1
        (Text.clean x.1.text)
      let t := canonicalStatement s.2
      !s.2.isEmpty && t.head?.any Directive.isLead && (Directive.parse t).1 == some .equate &&
        decide (Text.firstWord (Directive.parse t).2 = ("here".toList, "start+1".toList)) &&
        s.1.symbols.anonymous.isEmpty &&
        a.entries[s.1.entries.size]?.any fun e => e.fault.isNone && e.address == s.1.address &&
          (Expr.eval (Session.bare.context s.1.symbols (s.1.entry x.1 t).position)
            "start+1".toList).toOption.any fun r => r.value == 1 &&
              r.references.all fun n => (s.1.symbols.label? n).all fun l =>
                (a.symbols.label? n).map Label.address == some l.address)
    (by decide +kernel)
  generalize equateProgram = source at ha hp ⊢
  obtain ⟨⟨line, feed⟩, hn, hp⟩ := (Option.any_eq_true _ _).mp hp
  simp only [Bool.and_eq_true, Bool.not_eq_true', List.isEmpty_iff, List.isEmpty_eq_false_iff,
    beq_iff_eq, decide_eq_true_eq] at hp
  generalize hs : Draft.takeLabel _ line (Text.clean line.text) = s at hp
  obtain ⟨d', rest⟩ := s
  generalize ht : canonicalStatement rest = t at hp
  generalize hd : Directive.parse t = q at hp
  obtain ⟨directive, args⟩ := q
  obtain ⟨⟨⟨⟨⟨hrest, hlead⟩, hdir⟩, hfw⟩, hanon⟩, hp⟩ := hp
  obtain ⟨e, he, hp⟩ := (Option.any_eq_true _ _).mp hp
  simp only [Bool.and_eq_true, Option.isNone_iff_eq_none, beq_iff_eq] at hp
  obtain ⟨⟨hf, haddr⟩, hp⟩ := hp
  obtain ⟨r₀, hr₀, hp⟩ := exists_ok hp
  simp only [Bool.and_eq_true, beq_iff_eq, List.all_eq_true] at hp
  obtain rfl : directive = some .equate := hdir
  have hq : Draft.EquateLine .bare (Session.bare.start [] source) d' line t args :=
    ⟨⟨feed, rest, hn, hs, hrest, ht⟩, rfl, rfl, hlead, hd⟩
  obtain ⟨-, r, hr, hok, hbound, hagree⟩ := equate_value .refl hq hfw (by decide +kernel) ha he hf
  obtain rfl := Except.ok.inj (hr₀.symm.trans hr)
  obtain ⟨hvalue, hp⟩ := hp
  rw [hvalue] at hbound hagree
  refine ⟨a, d', line, t, args, e, hq, hfw, ha, he, hf, hbound, ?_⟩
  have hmoved : (Session.bare.context d'.symbols (d'.entry line t).position).Unmoved
      (Session.bare.context a.symbols e.position) r₀.references := by
    refine ⟨haddr, fun name l hm hl => ?_, fun signs w hw => ?_⟩
    · simpa [hl] using hp name hm
    · rw [Expr.Context.walk?_eq_none hanon] at hw
      nomatch hw
  obtain hagree | ⟨x, -, ⟨u, hu⟩ | ⟨-, hwide⟩⟩ :=
    hagree (fun f arg hc => absurd hc.mem_paren (by decide +kernel)) fun _ => hmoved
  · exact hagree
  · nomatch hu
  · exact absurd hwide (by decide +kernel)

/-- The label moves after the equate has been read, and the equate keeps the old address. -/
theorem equate_stale :
    ∃ (a : Assembly) (e : Entry),
      Session.bare.run 9 [] "SET A, end\n:end\n.equ size end".toList = .ok a ∧
      a.fixedPoint = true ∧ a.entries[2]? = some e ∧ e.code = ".equ size end".toList ∧
      e.fault = none ∧ a.symbols.equate? "size".toList = some 2 ∧
      ∃ r, Expr.eval (Session.bare.context a.symbols e.position) "end".toList = .ok r ∧
        r.ok = true ∧ r.value = 1 := by
  obtain ⟨a, ha, hp⟩ := exists_ok
    (x := Session.bare.run 9 [] "SET A, end\n:end\n.equ size end".toList)
    (p := fun a => a.fixedPoint && a.symbols.equate? "size".toList == some 2 &&
      a.entries[2]?.any fun e => e.code == ".equ size end".toList && e.fault.isNone &&
        (Expr.eval (Session.bare.context a.symbols e.position) "end".toList).toOption.any
          fun r => r.ok && r.value == 1)
    (by decide +kernel)
  simp only [Bool.and_eq_true, beq_iff_eq] at hp
  obtain ⟨⟨hfix, hsize⟩, hp⟩ := hp
  obtain ⟨e, he, hp⟩ := (Option.any_eq_true _ _).mp hp
  simp only [Bool.and_eq_true, beq_iff_eq, Option.isNone_iff_eq_none] at hp
  obtain ⟨⟨hcode, hf⟩, hp⟩ := hp
  obtain ⟨r, hr, hp⟩ := exists_ok hp
  simp only [Bool.and_eq_true, beq_iff_eq] at hp
  exact ⟨a, e, ha, hfix, he, hcode, hf, hsize, r, hr, hp⟩

end Dcpu
