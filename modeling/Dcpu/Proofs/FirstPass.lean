import Dcpu.Proofs.Equates
import Dcpu.Proofs.FixedPoint
import Dcpu.Proofs.Variants

/-! Literals that are packed while the lines are read. What is read later leaves a token that had a
value as it was, so the value still lets the literal be packed when all lines have been read. -/
namespace Dcpu

section Fits

variable {v : Session} {s t : SymbolTable} {e e' : Entry} {long : Bool}

/-- The value that the literal of operand A has against the symbols lets it be packed. -/
def Entry.Fits (v : Session) (s : SymbolTable) (e : Entry) : Prop :=
  ∃ x r, e.body.packable? = some x ∧ Expr.eval (v.context s e.position) x = .ok r ∧
    r.ok = true ∧ (r.value ≤ 30 ∨ r.value = 0xFFFF)

theorem Body.packable?_eq_some {i : Instruction} {x : Text} :
    (Body.instruction i).packable? = some x ↔
      i.a.code = nextWordCode ∧ ∃ l, i.a.literal = some l ∧ l.text = x := by
  simp only [packable?]
  split
  next hc => simp [hc]
  next hc => simp [hc]

theorem Entry.Fits.congr (h : e.Fits v s) (hp : e'.position = e.position)
    (hx : e'.body.packable? = e.body.packable?) : e'.Fits v s := by
  rw [Fits, hp, hx]
  exact h

/-- When an entry has been evaluated, its literal is packed exactly if it fits and may be short. -/
theorem Entry.packs_iff (h : e.body.IsEvaluated v s e.position long) :
    e.packs = true ↔ long = false ∧ e.Fits v s := by
  unfold packs Fits
  cases hb : e.body with
  | instruction i =>
    rw [hb] at h
    obtain ⟨ok, u, ha, -, -, hp⟩ := h
    simp only [Body.packs, hp, Bool.and_eq_true, Bool.not_eq_true', beq_iff_eq,
      Body.packable?_eq_some]
    constructor
    · rintro ⟨⟨⟨rfl, hlong⟩, hc⟩, hf⟩
      obtain ⟨l, hl, hf⟩ := (Option.any_eq_true _ _).mp hf
      obtain ⟨r, hr, hok, hval⟩ := ha l hl
      rw [Instruction.packedCode?_isSome_iff, hval rfl] at hf
      exact ⟨hlong, l.text, r, ⟨hc, l, hl, rfl⟩, hr, hok, hf⟩
    · rintro ⟨hlong, x, r, ⟨hc, l, hl, rfl⟩, hr, hok, hf⟩
      obtain ⟨r', hr', rfl, hval⟩ := ha l hl
      obtain rfl := Except.ok.inj (hr.symm.trans hr')
      refine ⟨⟨⟨hok, hlong⟩, hc⟩, (Option.any_eq_true _ _).mpr ⟨l, hl, ?_⟩⟩
      rw [Instruction.packedCode?_isSome_iff, hval hok]
      exact hf
  | data cells => simp [Body.packs, Body.packable?]
  | _ =>
    rw [hb] at h
    exact h.elim

/-- The literal of operand A, if it can be packed, is a single token. -/
def Entry.SingleToken (e : Entry) : Prop :=
  ∀ x, e.body.packable? = some x → ∃ t, Expr.form x = .token t

end Fits

section Extends

namespace SymbolTable

variable {s t : SymbolTable} {root : Nat}

/-- All that was defined is defined as before, and further anonymous labels are on later lines. -/
structure Extends (s t : SymbolTable) (root : Nat) : Prop where
  equates : ∀ name w, s.equate? name = some w → t.equate? name = some w
  labels : ∀ name l, s.equate? name = none → s.label? name = some l →
    t.equate? name = none ∧ t.label? name = some l
  anonymous : ∃ more, t.anonymous = more ++ s.anonymous ∧ ∀ l ∈ more, root < l.root

theorem Extends.of_marked (h : s.Marked t) (root : Nat) : s.Extends t root := by
  rw [h.eq_with]
  exact ⟨fun _ _ => id, fun _ _ he hl => ⟨he, hl⟩, [], rfl, by simp⟩

theorem Extends.of_defineEquate {name : Text} {w : Word} (h : s.defineEquate name w = (.ok (), t))
    (root : Nat) : s.Extends t root := by
  have hg := Grows.of_defineEquate h
  obtain ⟨-, -, rfl⟩ := defineEquate_eq_ok.mp h
  refine ⟨hg.equates, fun other l he hl => ⟨?_, hl⟩, [], rfl, by simp⟩
  exact (hg.labels other he (by simp [hl])).1

theorem Extends.of_defineLabel {name stored : Text} {address : Word} {position : Nat}
    (h : s.defineLabel name address position = (.ok stored, t)) (root : Nat) :
    s.Extends t root := by
  obtain ⟨-, hd, rfl⟩ := defineLabel_eq_ok.mp h
  refine ⟨fun _ _ => id, fun other l he hl => ⟨he, ?_⟩, [], rfl, by simp⟩
  rw [label?, List.lookup_cons, lower_ne_of_isDefined hd (by simp [isDefined, hl])]
  exact hl

theorem Extends.of_defineAnonymous {line : Nat} (hs : ∀ l ∈ s.anonymous, l.root < line)
    (hr : root < line) (address : Word) (position : Nat) :
    s.Extends (s.defineAnonymous line address position) root := by
  have hi : (s.defineAnonymous line address position).anonymous =
      ⟨line, address, position⟩ :: s.anonymous := by
    unfold defineAnonymous
    cases ha : s.anonymous with
    | nil => rfl
    | cons m ms =>
      have hm : m.root < line := hs m (by simp [ha])
      simp [AnonymousLabel.insert, hm]
  refine ⟨fun _ _ => id, fun _ _ he hl => ⟨he, hl⟩, [⟨line, address, position⟩], hi, ?_⟩
  simpa using hr

/-- Later labels do not come between a line and the labels that it leads to. -/
theorem Extends.walkLabel? (h : s.Extends t root) {line : Nat} (hr : line ≤ root) {signs : Text}
    {l : AnonymousLabel} (hl : s.walkLabel? line signs = some l) :
    t.walkLabel? line signs = some l := by
  obtain ⟨more, hm, hlater⟩ := h.anonymous
  have hdrop : (more ++ s.anonymous).dropWhile (fun m => decide (line < m.root)) =
      s.anonymous.dropWhile fun m => decide (line < m.root) := by
    apply List.dropWhile_append_of_pos
    intro m hm
    have hlt := hlater m hm
    simp only [decide_eq_true_eq]
    omega
  have hfind : (more ++ s.anonymous).findIdx (fun m => decide (m.root ≤ line)) =
      more.length + s.anonymous.findIdx fun m => decide (m.root ≤ line) := by
    have hnone : ∀ m ∈ more, ¬m.root ≤ line := by
      intro m hm
      have hlt := hlater m hm
      omega
    rw [List.findIdx_append, List.findIdx_eq_length_of_false (by simpa using hnone)]
    simp [Nat.add_comm]
  simp only [SymbolTable.walkLabel?, hm, hdrop, hfind] at hl ⊢
  split at hl
  · rw [if_pos ‹_›]
    split at hl
    · cases hl
    next hn =>
      simp only [Bool.or_eq_true, decide_eq_true_eq, not_or, Nat.not_lt] at hn
      rw [if_neg (by simp only [Bool.or_eq_true, decide_eq_true_eq]; omega),
        List.getElem?_append_right (by omega)]
      rw [← hl]
      congr 1
      omega
  · rw [if_neg ‹_›]
    exact hl

theorem Extends.keeps (h : s.Extends t root) (v : Session) {p : Position} (hp : p.root ≤ root)
    (names : List Text) : (v.context s p).Keeps (v.context t p) true names where
  hooks := rfl
  literal := rfl
  scope := rfl
  equates := h.equates
  labels _ name l _ he hl := by
    obtain ⟨he', hl'⟩ := h.labels name l he hl
    exact ⟨he', by rw [hl']; rfl⟩
  address _ := rfl
  walk _ signs w hw := by
    rw [SymbolTable.walk?_eq] at hw ⊢
    obtain ⟨l, hl, rfl⟩ := Option.map_eq_some_iff.mp hw
    rw [h.walkLabel? hp hl]
    rfl

end SymbolTable

/-- Whether a token has an answer at all does not depend on what can be found. -/
theorem Expr.Context.Keeps.exists_token {c c' : Context} {movable : Bool} {names : List Text}
    (h : c.Keeps c' movable names) {x : Text} {r : Result} (hr : c.token x = .ok r) :
    ∃ r', c'.token x = .ok r' := by
  cases hv : c.hooks.value? x with
  | some w =>
    have hv' : c'.hooks.value? x = some w := by rw [h.hooks, hv]
    refine ⟨.ofWord w, ?_⟩
    simp only [token, hv']
  | none =>
    have hv' : c'.hooks.value? x = none := by rw [h.hooks, hv]
    obtain ⟨k, hk⟩ := exists_reading x
    rw [hk c hv] at hr
    rw [hk c' hv']
    cases k with
    | braces inner =>
      rw [read, h.literal]
      exact ⟨r, hr⟩
    | _ => exact ⟨_, rfl⟩

theorem Entry.Fits.of_extends {v : Session} {s t : SymbolTable} {root : Nat} {e : Entry}
    (h : e.Fits v s) (he : e.SingleToken) (hx : s.Extends t root) (hr : e.root ≤ root) :
    e.Fits v t := by
  obtain ⟨x, r, hpx, hev, hok, hf⟩ := h
  obtain ⟨u, hu⟩ := he x hpx
  have hkeeps := hx.keeps v (p := e.position) hr r.references
  rw [Expr.eval_token hu] at hev
  obtain ⟨r', hr'⟩ := hkeeps.exists_token hev
  have hsame := hkeeps.token_same hev ⟨hok, fun _ => rfl, fun _ => id⟩ hr'
  refine ⟨x, r', hpx, ?_, hsame.ok.trans hok, ?_⟩
  · rw [Expr.eval_token hu]
    exact hr'
  · rw [hsame.value]
    exact hf

end Extends

namespace Draft

variable {v : Session} {d d' : Draft} {e : Entry}

/-- What is packed is packed with reason, as far as it is a single token. -/
structure Packed (v : Session) (d : Draft) : Prop where
  anonymous : ∀ l ∈ d.symbols.anonymous, l.root ≤ d.feed.root
  long : d.longForm = longAt v.settings.longLiterals d.entries.toList d.entries.size
  entries : ∀ (k : Nat) (e : Entry), d.entries[k]? = some e → e.packs = true →
    e.root ≤ d.feed.root ∧ longAt v.settings.longLiterals d.entries.toList k = false ∧
      (e.SingleToken → e.Fits v d.symbols)

/-- Nothing is added but names. -/
theorem Packed.extend (h : d.Packed v) (he : d'.entries = d.entries)
    (hl : d'.longForm = d.longForm) (hr : d.feed.root ≤ d'.feed.root)
    (hx : d.symbols.Extends d'.symbols d.feed.root)
    (ha : ∀ l ∈ d'.symbols.anonymous, l.root ≤ d'.feed.root) : d'.Packed v := by
  refine ⟨ha, ?_, ?_⟩
  · rw [hl, he]
    exact h.long
  · intro k f hf hp
    rw [he] at hf ⊢
    obtain ⟨hroot, hlong, hfits⟩ := h.entries k f hf hp
    exact ⟨Nat.le_trans hroot hr, hlong, fun ht => (hfits ht).of_extends ht hx hroot⟩

/-- An entry is added, packed with reason or not at all. -/
theorem Packed.push (h : d.Packed v) (long : Bool) (hl : long = e.form?.getD d.longForm)
    (hn : e.packs = true → e.root ≤ d.feed.root ∧ d.longForm = false ∧
      (e.SingleToken → e.Fits v d.symbols)) :
    ({ d with longForm := long }.push e).Packed v := by
  obtain ⟨c, hp⟩ := ({ d with longForm := long } : Draft).push_eq e
  rw [hp]
  let new : Entry := { e with caution := c }
  have hold {k : Nat} (hk : k ≤ d.entries.size) :
      longAt v.settings.longLiterals (d.entries.toList ++ [new]) k =
        longAt v.settings.longLiterals d.entries.toList k := by
    apply longAt_of_take_eq
    exact List.take_append_of_le_length (by simpa using hk)
  refine ⟨h.anonymous, ?_, ?_⟩
  · have hself : (d.entries.toList ++ [new])[d.entries.size]? = some new := by simp
    simp only [Array.toList_push, Array.size_push]
    rw [longAt_succ, hself, hold (Nat.le_refl _), ← h.long, hl]
    rfl
  · intro k f hf hpf
    have hk : k < d.entries.size + 1 := by
      obtain ⟨hk, -⟩ := Array.getElem?_eq_some_iff.mp hf
      simpa using hk
    simp only [Array.toList_push]
    rw [hold (Nat.lt_succ_iff.mp hk)]
    rcases Nat.lt_succ_iff_lt_or_eq.mp hk with hlt | rfl
    · apply h.entries k f _ hpf
      simpa [Array.getElem?_push, Nat.ne_of_lt hlt] using hf
    · obtain rfl : new = f := by simpa using hf
      obtain ⟨hroot, hlong, hfits⟩ := hn hpf
      rw [← h.long]
      exact ⟨hroot, hlong, hfits⟩

theorem Packed.push_unpacked (h : d.Packed v) (hf : e.form? = none) (hp : e.packs = false) :
    (d.push e).Packed v := by
  refine h.push d.longForm ?_ ?_
  · rw [hf]
    rfl
  · intro hn
    simp [hp] at hn

theorem Packed.push_plain (h : d.Packed v) (hb : e.body.isPlain = true) : (d.push e).Packed v := by
  apply h.push_unpacked
  · unfold Entry.form?
    cases hb' : e.body <;> simp_all [Body.isPlain]
  · unfold Entry.packs
    cases hb' : e.body <;> simp_all [Body.isPlain, Body.packs]

/-- An instruction that has just been evaluated is packed only if its literal fits. -/
theorem Packed.push_instruction (h : d.Packed v) {i : Instruction} {s : SymbolTable}
    (hb : e.body = .instruction i) (hr : e.root = d.feed.root) (hs : s.Marked d.symbols)
    (hi : i.IsEvaluated v s e.position d.longForm) : (d.push e).Packed v := by
  have hf : e.form? = none := by
    unfold Entry.form?
    rw [hb]
  have hev : e.body.IsEvaluated v s e.position d.longForm := by
    rw [hb]
    exact hi
  refine h.push d.longForm ?_ ?_
  · rw [hf]
    rfl
  · intro hp
    obtain ⟨hlong, hfits⟩ := (Entry.packs_iff hev).mp hp
    refine ⟨Nat.le_of_eq hr, hlong, fun ht => ?_⟩
    exact hfits.of_extends ht (.of_marked hs e.root) (Nat.le_refl _)

theorem isPlain_of_blank (hb : e.body = .blank) : e.body.isPlain = true := by
  rw [hb]
  rfl

theorem Packed.step (hv : v.hooks.plugins = []) (h : StepBy (Emits v) d d') (hd : d.Packed v) :
    d'.Packed v := by
  cases h with
  | control h =>
    refine hd.extend h.entries h.longForm h.root ?_ ?_
    · rw [h.symbols]
      exact .of_marked (.refl _) _
    · rw [h.symbols]
      intro l hl
      exact Nat.le_trans (hd.anonymous l hl) h.root
  | @mark s h =>
    refine hd.extend rfl rfl (Nat.le_refl _) (.of_marked h _) ?_
    rw [h.eq_with]
    exact hd.anonymous
  | equate h =>
    refine hd.extend rfl rfl (Nat.le_refl _) (.of_defineEquate h _) ?_
    obtain ⟨-, -, rfl⟩ := SymbolTable.defineEquate_eq_ok.mp h
    exact hd.anonymous
  | @emit e h hem =>
    cases hem with
    | claimed hc => simp [Hooks.claim?, hv] at hc
    | plain hb => exact hd.push_plain hb
    | align hb =>
      apply hd.push_unpacked
      · simp [Entry.form?, hb]
      · simp [Entry.packs, hb, Body.packs]
    | instruction hb hr hs hi => exact hd.push_instruction hb hr hs hi
  | @form e long h hb =>
    refine hd.push long ?_ ?_
    · unfold Entry.form?
      rw [hb]
      rfl
    · intro hp
      simp [Entry.packs, hb, Body.packs] at hp
  | @jump e h =>
    have hj : ({ d with address := e.address } : Draft).Packed v :=
      ⟨hd.anonymous, hd.long, hd.entries⟩
    apply hj.push_plain
    rw [h]
    rfl
  | @label name stored s e h ha hb =>
    have hs : ({ d with symbols := s } : Draft).Packed v := by
      refine hd.extend rfl rfl (Nat.le_refl _) (.of_defineLabel h _) ?_
      obtain ⟨-, -, rfl⟩ := SymbolTable.defineLabel_eq_ok.mp h
      exact hd.anonymous
    exact hs.push_plain (isPlain_of_blank hb)
  | @anonymous feed e h ha hb =>
    have hs : ({ d with
        feed := feed
        symbols := d.symbols.defineAnonymous feed.root d.address d.entries.size } :
          Draft).Packed v := by
      refine hd.extend rfl rfl (Nat.le_of_lt h) ?_ ?_
      · refine .of_defineAnonymous (fun l hl => ?_) h _ _
        exact Nat.lt_of_le_of_lt (hd.anonymous l hl) h
      · intro l hl
        rcases AnonymousLabel.mem_insert hl with rfl | hl
        · exact Nat.le_refl _
        · exact Nat.le_of_lt (Nat.lt_of_le_of_lt (hd.anonymous l hl) h)
    exact hs.push_plain (isPlain_of_blank hb)

theorem packed_start {file source : Text} (hs : v.symbols.OnlyEquates) :
    (v.start file source).Packed v := by
  refine ⟨fun l hl => ?_, rfl, fun k e he => ?_⟩
  · simp [Session.start, hs.2] at hl
  · simp [Session.start] at he

theorem Advances.packed (hv : v.hooks.plugins = []) (h : d.Advances v d') (hd : d.Packed v) :
    d'.Packed v := by
  induction h with
  | refl => exact hd
  | tail _ hstep ih => exact ih.step hv hstep

theorem readAll_packed {steps : Nat} {file source : Text} (hv : v.hooks.plugins = [])
    (hs : v.symbols.OnlyEquates) (h : (v.start file source).readAll v steps = .ok d) :
    d.Packed v :=
  (readAll_advances h).packed hv (packed_start hs)

end Draft

end Dcpu
