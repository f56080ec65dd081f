import Dcpu.Proofs.Convergence

/-! How short the layout is that a monotone program settles in. Literals start in words of their own
and are packed as soon as they fit, so those that could only be packed together with others are not.
Where no literal is that close to fitting, no choice of forms is shorter. -/
namespace Dcpu
open Answer

section Drift

variable {es es' : List Entry} {e e' : Entry}

/-- A literal in a word of its own, although it could be packed, below an address. -/
def Entry.isLooseBelow (n : Nat) (e : Entry) : Bool := e.isLoose && decide (e.address.toNat < n)

theorem Entry.isLooseBelow_mono {m n : Nat} (hmn : m ≤ n) (h : e.isLooseBelow m = true) :
    e.isLooseBelow n = true := by
  simp only [isLooseBelow, Bool.and_eq_true, decide_eq_true_eq] at h ⊢
  exact ⟨h.1, by omega⟩

theorem Entry.length_pos_of_isLoose (ho : e.own = none) (h : e.isLoose = true) :
    0 < e.length := by
  unfold isLoose at h
  cases hb : e.body with
  | instruction i => simp [length_of_own ho, hb, Body.length, Body.output, Instruction.encode]
  | _ => simp [hb, Body.packable?] at h

/-- Two layouts of an entry, in the second of which nothing is packed that cannot be. -/
structure Entry.Rival (e e' : Entry) : Prop extends e.Variant e' where
  packable : e'.packs = true → e'.body.packable?.isSome = true
  own : e.own = none
  own' : e'.own = none

/-- In its first layout an entry reaches further by one word for its own literal and the words that
it starts further. -/
theorem Entry.Rival.reach_le (h : e.Rival e') {c : Nat}
    (ha : e.address.toNat ≤ e'.address.toNat + c) :
    e.reach ≤ e'.reach + c + if e.isLooseBelow e.reach then 1 else 0 := by
  by_cases hal : ∃ target, e.body = .align target
  · obtain ⟨target, hal⟩ := hal
    rw [reach_of_align h.own hal, reach_of_align h.own' (h.align_iff.mpr hal)]
    omega
  · obtain ⟨n, m, hm, hl, hl'⟩ := h.lengths h.own h.own' fun target ht => hal ⟨target, ht⟩
    by_cases hp : e.packs = true
    · rw [if_pos hp] at hl
      simp only [reach]
      omega
    · by_cases hp' : e'.packs = true
      · have hloose : e.isLoose = true := by
          have hx := h.packable hp'
          rw [h.packable?_eq] at hx
          simp [isLoose, hx, hp]
        have hpos := length_pos_of_isLoose h.own hloose
        have hbelow : e.isLooseBelow e.reach = true := by
          rw [isLooseBelow, hloose, Bool.true_and, decide_eq_true_eq]
          exact Nat.lt_add_of_pos_right hpos
        rw [if_pos hbelow]
        rw [if_neg hp] at hl
        rw [if_pos hp'] at hl'
        simp only [reach]
        omega
      · rw [if_neg hp] at hl
        rw [if_neg hp'] at hl'
        simp only [reach]
        omega

/-- No address is further up than there are loose literals below it. The entries `pre` are those
that stand before. -/
theorem address_le_add_loose (h : List.Forall₂ Entry.Rival es es') {n n' : Nat}
    (pre : List Entry) (hs : Stacked n es) (hs' : Stacked n' es')
    (hle : n ≤ n' + pre.countP (Entry.isLooseBelow n)) {k : Nat} (he : es[k]? = some e)
    (he' : es'[k]? = some e') :
    e.address.toNat ≤
      e'.address.toNat + (pre ++ es).countP (Entry.isLooseBelow e.address.toNat) := by
  induction h generalizing n n' pre k with
  | nil => simp at he
  | @cons f f' fs fs' hf _ ih =>
    have hfirst : f.address.toNat ≤
        f'.address.toNat + pre.countP (Entry.isLooseBelow f.address.toNat) := by
      by_cases ho : f.body = .origin
      · rw [hf.origin ho]
        omega
      · rw [hs.1 ho, hs'.1 fun ho' => ho (hf.origin_iff.mp ho')]
        exact hle
    cases k with
    | zero =>
      obtain rfl : f = e := by simpa using he
      obtain rfl : f' = e' := by simpa using he'
      rw [List.countP_append]
      omega
    | succ k =>
      have hmono : pre.countP (Entry.isLooseBelow f.address.toNat) ≤
          pre.countP (Entry.isLooseBelow f.reach) := by
        apply List.countP_mono_left
        intro g _ hg
        exact Entry.isLooseBelow_mono (Nat.le_add_right _ _) hg
      have hreach := hf.reach_le hfirst
      have hnext : f.reach ≤ f'.reach + (pre ++ [f]).countP (Entry.isLooseBelow f.reach) := by
        rw [List.countP_append, List.countP_singleton]
        omega
      have hrest := ih (pre ++ [f]) hs.2 hs'.2 hnext he he'
      rwa [List.append_assoc] at hrest

/-- Where entries shrink, there are not more words than before, although an alignment may take up
what an instruction has lost. -/
theorem length_sum_le (h : List.Forall₂ Entry.Shrinks es es') (hown : ∀ e ∈ es, e.own = none)
    (hown' : ∀ e ∈ es', e.own = none) {n n' : Nat} (hs : Stacked n es) (hs' : Stacked n' es')
    (hle : n' ≤ n) : (es'.map Entry.length).sum + n' ≤ (es.map Entry.length).sum + n := by
  induction h generalizing n n' with
  | nil => simpa using hle
  | @cons e e' es es' he _ ih =>
    rw [List.forall_mem_cons] at hown hown'
    simp only [List.map_cons, List.sum_cons]
    by_cases ho : e.body = .origin
    · have hl : e.length = 0 := by
        simp [Entry.length_of_own hown.1, ho, Body.length, Body.output]
      have hl' : e'.length = 0 := by
        simp [Entry.length_of_own hown'.1, he.origin_iff.mpr ho, Body.length, Body.output]
      have hr : e'.reach = e.reach := by rw [Entry.reach, Entry.reach, hl, hl', he.origin ho]
      have hrest := ih hown.2 hown'.2 hs.2 hs'.2 (Nat.le_of_eq hr)
      omega
    · have ha : e.address.toNat = n := hs.1 ho
      have ha' : e'.address.toNat = n' := hs'.1 fun ho' => ho (he.origin_iff.mp ho')
      have hsink := he.sinks hown.1 hown'.1 (UInt16.le_iff_toNat_le.mpr (by omega))
      have hrest := ih hown.2 hown'.2 hs.2 hs'.2 hsink.reach
      simp only [Entry.reach] at hrest
      omega

end Drift

/-- The layout that an assembly ends with. -/
def Assembly.layout (a : Assembly) : Layout :=
  { entries := a.entries.toArray, symbols := a.symbols }

/-- All words in the order of the program. -/
def Layout.words (l : Layout) : List Word := l.entries.toList.flatMap Entry.output

theorem Layout.length_words (l : Layout) :
    l.words.length = (l.entries.toList.map Entry.length).sum := by
  simp [words, List.length_flatMap, Entry.length_output]

/-- Another choice of the literals that are packed. It is consistent with the addresses that it
leads to: all that is packed fits there. -/
structure Assembly.Alternative (v : Session) (a : Assembly) (m : Layout) : Prop where
  variant : a.layout.Variant m
  fits : ∀ e ∈ m.entries.toList, e.packs = true → e.Fits v m.symbols

/-- The literal is in a word of its own, and its value is an address that is above thirty by no
more than the number of such literals below it. -/
def Assembly.IsNear (v : Session) (a : Assembly) (e : Entry) : Prop :=
  ∃ x r, e.isLoose = true ∧ e.body.packable? = some x ∧
    Expr.eval (v.context a.symbols e.position) x = .ok r ∧ r.ok = true ∧ r.relocatable = true ∧
    r.value.toNat ≤ 30 + a.entries.countP (Entry.isLooseBelow r.value.toNat)

section Settled

variable {v : Session} {steps : Nat} {file source : Text} {d : Draft} {a : Assembly}

theorem Entry.Fits.of_unmarked {s t : SymbolTable} {e : Entry} (h : e.Fits v s)
    (hs : t.unmarked = s.unmarked) (marks : ∀ x ∈ e.body.packable?, IgnoresMarks v x) :
    e.Fits v t := by
  obtain ⟨x, r, hx, hr, hok, hf⟩ := h
  refine ⟨x, r, hx, ?_, hok, hf⟩
  rw [(marks x hx).eval_eq hs]
  exact hr

theorem Body.mem_texts_of_packable? {b : Body} {x : Text} (h : b.packable? = some x) :
    x ∈ b.texts := by
  cases b with
  | instruction i =>
    obtain ⟨-, l, hl, rfl⟩ := packable?_eq_some.mp h
    simp [texts, Operand.texts, hl]
  | _ => cases h

/-- What a monotone program settles in is sound and a fixed point. -/
theorem Draft.Monotone.run_sound (hm : d.Monotone v) (hs : v.symbols.OnlyEquates)
    (hd : (v.start file source).readAll v steps = .ok d)
    (hmax : d.packableCount + 2 ≤ v.settings.maxPasses)
    (h : v.run steps file source = .ok a) : a.fixedPoint = true ∧ a.layout.Sound v := by
  have hsound := Layout.sound_of_readAll hm.plugins hs hd hm.low hm.tokens
  constructor
  · rcases hm.settles hsound hmax with ⟨l, n, hok, -⟩ | ⟨x, y, herr, -⟩
    · obtain ⟨a', ha', -, hfix⟩ := Session.run_of_settle_ok hd hok
      obtain rfl := Except.ok.inj (ha'.symm.trans h)
      exact hfix
    · rw [Session.run_of_settle_error hd herr] at h
      cases h
  · obtain ⟨d', l, hd', hp, hae, has, -⟩ := Session.run_passes h
    obtain rfl := Except.ok.inj (hd.symm.trans hd')
    have hl := hsound.passes hm.plugins hp
    have hentries : a.layout.entries = l.entries := by simp [Assembly.layout, hae]
    have hsymbols : a.layout.symbols = l.symbols := has
    constructor
    · rw [hentries, hsymbols]
      exact hl.laid
    · rw [hentries]
      exact hl.low
    · rw [hentries]
      exact hl.tokens
    · rw [hentries, hsymbols]
      exact hl.packed

/-- At a fixed point all that fits is packed, if literals need not be long. -/
theorem Draft.Monotone.packs_of_fits (hm : d.Monotone v)
    (hd : (v.start file source).readAll v steps = .ok d)
    (short : ∀ k, longAt v.settings.longLiterals d.entries.toList k = false)
    (h : v.run steps file source = .ok a) (hfix : a.fixedPoint = true) {k : Nat} {e : Entry}
    (he : a.entries[k]? = some e) (hf : e.Fits v a.symbols) : e.packs = true := by
  obtain ⟨d', l, hd', hp, hae, -, -⟩ := Session.run_passes h
  obtain rfl := Except.ok.inj (hd.symm.trans hd')
  have hskel := hp.skeleton
  rw [← hae] at hskel
  have hmem : e ∈ l.entries.toList := by
    rw [← hae]
    exact List.mem_of_getElem? he
  have hv : e.body.isVariable = true := by
    obtain ⟨x, -, hx, -⟩ := hf
    cases hb : e.body with
    | instruction i => rfl
    | _ => simp [hb, Body.packable?] at hx
  obtain ⟨s, hs, hev, -⟩ := Session.run_upToDate h hfix he hv
  rw [Entry.packs_iff hev, longAt_of_skeleton hskel]
  constructor
  · exact short k
  · apply hf.of_unmarked hs.unmarked_eq.symm
    intro x hx
    have htext : l.HasText x := ⟨e, hmem, Body.mem_texts_of_packable? hx⟩
    exact hm.marks x (htext.of_skeleton hp.skeleton)

end Settled

namespace Assembly

variable {v : Session} {a : Assembly} {m : Layout} {k : Nat} {e e' : Entry}

theorem Alternative.rival (h : a.Alternative v m)
    (hw : WellLaid a.layout.entries.toList a.layout.symbols) :
    List.Forall₂ Entry.Rival a.layout.entries.toList m.entries.toList := by
  refine forall₂_imp_getElem? h.variant.entries ?_
  intro k e e' he he' hee
  refine ⟨hee, fun hp => ?_, hw.own e (List.mem_of_getElem? he),
    h.variant.laid.own e' (List.mem_of_getElem? he')⟩
  obtain ⟨x, r, hx, -⟩ := h.fits e' (List.mem_of_getElem? he') hp
  simp [hx]

/-- What is packed in another choice of forms is packed in the assembly, unless it is near. -/
theorem Alternative.packs (h : a.Alternative v m) (low : Low m.entries.toList)
    (hv : v.hooks.plugins = []) (hs : a.layout.Sound v)
    (hfits : ∀ (k : Nat) (e : Entry), a.entries[k]? = some e → e.Fits v a.symbols →
      e.packs = true)
    (near : ∀ e ∈ a.entries, ¬a.IsNear v e) (he : a.entries[k]? = some e)
    (he' : m.entries[k]? = some e') (hee : e.Variant e') (hp : e'.packs = true) :
    e.packs = true := by
  have hel : a.layout.entries[k]? = some e := by simpa [layout] using he
  have hmem : e ∈ a.entries := List.mem_of_getElem? he
  obtain ⟨x, r', hx', hr', hok', hf'⟩ := h.fits e' (List.mem_of_getElem? (by simpa using he')) hp
  have hx : e.body.packable? = some x := hee.packable?_eq.symm.trans hx'
  obtain ⟨t, hxt⟩ := hs.tokens e (List.mem_of_getElem? (by simpa using hel)) x hx
  obtain ⟨target, htarget⟩ := exists_target hv a.layout.symbols e.position k t
  have hold := htarget _ _ _ (Layout.relaid_self hs.laid hel)
  have hnew := htarget _ _ _ (h.variant.relaid he' hee)
  rw [Expr.eval_token hxt] at hr'
  by_contra hn
  cases target with
  | fixed answer =>
    -- A value that does not depend on the layout fits in both or in none.
    have heval : Expr.eval (v.context a.symbols e.position) x = .ok r' := by
      rw [Expr.eval_token hxt]
      exact (hold.trans hnew.symm).trans hr'
    exact hn (hfits k e he ⟨x, r', hx, heval, hok', hf'⟩)
  | entry q =>
    obtain ⟨f, r, hq, hr, hok, hrel, hval⟩ := hold
    obtain ⟨f', r₀, hq', hr₀, -, -, hval'⟩ := hnew
    obtain rfl := Except.ok.inj (hr₀.symm.trans hr')
    rw [hval'] at hf'
    have hlow : f'.address ≤ 30 :=
      Entry.address_le_of_low (low f' (List.mem_of_getElem? hq')) hf'
    have hstack : Stacked 0 a.layout.entries.toList := hs.laid.chained.stacked hs.low
    have hstack' : Stacked 0 m.entries.toList := h.variant.laid.chained.stacked low
    have hdrift := address_le_add_loose (h.rival hs.laid) [] hstack hstack' (Nat.zero_le _) hq
      hq'
    have hthirty : f'.address.toNat ≤ 30 := hlow
    refine near e hmem ⟨x, r, ?_, hx, ?_, hok, hrel, ?_⟩
    · simpa [Entry.isLoose, hx] using hn
    · rw [Expr.eval_token hxt]
      exact hr
    · rw [hval]
      simp only [List.nil_append, layout, List.toList_toArray] at hdrift
      omega

end Assembly

/-- The layout of a monotone program in which literals need not be long is a fixed point. If no
literal that has been left in a word of its own is an address close to those that fit, no choice of
forms that is consistent with its own addresses and keeps them far from the end of memory has fewer
words. -/
theorem words_shortest {v : Session} {steps : Nat} {file source : Text} {d : Draft} {a : Assembly}
    (hs : v.symbols.OnlyEquates) (hd : (v.start file source).readAll v steps = .ok d)
    (hm : d.Monotone v)
    (short : ∀ k, longAt v.settings.longLiterals d.entries.toList k = false)
    (hmax : d.packableCount + 2 ≤ v.settings.maxPasses)
    (h : v.run steps file source = .ok a) :
    a.fixedPoint = true ∧ ((∀ e ∈ a.entries, ¬a.IsNear v e) →
      ∀ m, a.Alternative v m → Low m.entries.toList → a.words.length ≤ m.words.length) := by
  obtain ⟨hfix, hsound⟩ := hm.run_sound hs hd hmax h
  refine ⟨hfix, fun near m ha low => ?_⟩
  have hfits (k : Nat) (e : Entry) (he : a.entries[k]? = some e) (hf : e.Fits v a.symbols) :
      e.packs = true := hm.packs_of_fits hd short h hfix he hf
  have hshrinks : List.Forall₂ Entry.Shrinks m.entries.toList a.layout.entries.toList := by
    refine forall₂_imp_getElem? ha.variant.entries.flip ?_
    intro k e' e he' he hee
    have hae : a.entries[k]? = some e := by simpa [Assembly.layout] using he
    have hme : m.entries[k]? = some e' := by simpa using he'
    exact ⟨hee.symm, ha.packs low hm.plugins hsound hfits near hae hme hee⟩
  have hstack : Stacked 0 m.entries.toList := ha.variant.laid.chained.stacked low
  have hstack' : Stacked 0 a.layout.entries.toList := hsound.laid.chained.stacked hsound.low
  have hsum := length_sum_le hshrinks ha.variant.laid.own hsound.laid.own hstack hstack'
    (Nat.le_refl 0)
  have hwords : a.words = a.layout.words := rfl
  rw [hwords, Layout.length_words, Layout.length_words]
  simpa using hsum

section Samples

variable {v : Session} {s : SymbolTable} {a : Assembly} {e : Entry}

instance : Decidable (e.Fits v s) :=
  decidable_of_iff ((e.body.packable?.any fun x =>
    (Expr.eval (v.context s e.position) x).toOption.any fun r =>
      r.ok && decide (r.value ≤ 30 ∨ r.value = 0xFFFF)) = true) (by
    simp only [Option.any_eq_true, toOption_eq_some, Bool.and_eq_true, decide_eq_true_eq,
      Entry.Fits, exists_and_left])

instance : Decidable (a.IsNear v e) :=
  decidable_of_iff ((e.isLoose && e.body.packable?.any fun x =>
    (Expr.eval (v.context a.symbols e.position) x).toOption.any fun r =>
      r.ok && r.relocatable && decide (r.value.toNat ≤
        30 + a.entries.countP (Entry.isLooseBelow r.value.toNat))) = true) (by
    simp only [Option.any_eq_true, toOption_eq_some, Bool.and_eq_true, decide_eq_true_eq,
      Assembly.IsNear, exists_and_left, and_assoc])

theorem longAt_of_no_form {es : List Entry} (h : ∀ e ∈ es, e.form? = none) (long : Bool)
    (k : Nat) : longAt long es k = long := by
  have hn : (es.take k).filterMap Entry.form? = [] := by
    rw [List.filterMap_eq_nil_iff]
    intro e he
    exact h e (List.mem_of_mem_take he)
  rw [longAt, hn]
  rfl

/-- Only the second literal fits; the first one stands for an address far away. -/
theorem words_shortest_sample :
    ∃ a, Session.bare.run 9 [] "SET A, top\nSET B, end\n:end\n.org 64\n:top".toList = .ok a ∧
      a.fixedPoint = true ∧ a.words.length = 3 ∧
      ∀ m, a.Alternative .bare m → Low m.entries.toList → 3 ≤ m.words.length := by
  let source : Text := "SET A, top\nSET B, end\n:end\n.org 64\n:top".toList
  obtain ⟨d, hd, hp⟩ := exists_ok (x := (Session.bare.start [] source).readAll .bare 9)
    (p := fun d => d.isMonotone && d.packableCount == 2 &&
      d.entries.toList.all fun e => e.form?.isNone)
    (by decide +kernel)
  obtain ⟨a, ha, hq⟩ := exists_ok (x := Session.bare.run 9 [] source)
    (p := fun a => a.words.length == 3 && a.entries.all fun e => decide ¬a.IsNear .bare e)
    (by decide +kernel)
  simp only [Bool.and_eq_true, beq_iff_eq, List.all_eq_true, decide_eq_true_eq,
    Option.isNone_iff_eq_none] at hp hq
  obtain ⟨⟨hmono, hcount⟩, hform⟩ := hp
  have hall := words_shortest ⟨rfl, rfl⟩ hd (Draft.monotone_of_isMonotone hmono)
    (longAt_of_no_form hform false) (by rw [hcount]; decide) ha
  refine ⟨a, ha, hall.1, hq.1, ?_⟩
  rw [← hq.1]
  exact hall.2 hq.2

/-- The entry with its literal packed or not, as one of this value. -/
def Entry.withForm (packed : Bool) (w : Word) (e : Entry) : Entry :=
  match e.body with
  | .instruction i =>
    { e with body := .instruction { i with
        a := { i.a with literal := i.a.literal.map fun l => { l with value := w } }
        packed := packed } }
  | _ => e

theorem Entry.variant_withForm (packed : Bool) (w : Word) (e : Entry) :
    e.Variant (e.withForm packed w) := by
  unfold withForm
  split
  next i hb =>
    constructor
    · cases hl : i.a.literal <;>
        simp [skeleton, Body.skeleton, Instruction.skeleton, Operand.skeleton, hb, hl]
    · intro ho
      simp [hb] at ho
  next => exact variant_shiftClosed.refl e

theorem Entry.updates_withForm (packed : Bool) (w : Word) (e : Entry) (ho : e.own = none) :
    e.Updates (e.withForm packed w) := by
  unfold withForm
  split
  next i hb => exact .single (.renew (by rw [hb]; rfl) rfl (.inl ho))
  next => exact .refl

theorem Entry.withForm_address (packed : Bool) (w : Word) (e : Entry) :
    (e.withForm packed w).address = e.address := by
  unfold withForm
  split <;> rfl

/-- Chooses the form of some literals by the indices of their entries, one after the other. -/
def Layout.choose (l : Layout) : List (Nat × Bool × Word) → Layout
  | [] => l
  | (i, packed, w) :: plan =>
    match l.entries[i]? with
    | none => l.choose plan
    | some e =>
      if e.body.isVariable then (l.replace i e (e.withForm packed w)).choose plan
      else l.choose plan

theorem Layout.choose_variant {l : Layout} (hw : WellLaid l.entries.toList l.symbols)
    (plan : List (Nat × Bool × Word)) : l.Variant (l.choose plan) := by
  induction plan generalizing l with
  | nil => exact .refl hw
  | cons step plan ih =>
    unfold choose
    split
    · exact ih hw
    next e he =>
      split
      next hv =>
        have ho : e.own = none := hw.own e (List.mem_of_getElem? (by simpa using he))
        have hr := replace_variant he hv (e.variant_withForm step.2.1 step.2.2)
          (e.updates_withForm step.2.1 step.2.2 ho) (e.withForm_address step.2.1 step.2.2) hw
        exact hr.trans (ih hr.laid)
      next => exact ih hw

/-- A monotone program with a choice of forms that has fewer words than the one it settles in. -/
def HasShorter (source : Text) (P : Assembly → Layout → Prop) : Prop :=
  ∃ (d : Draft) (a : Assembly) (m : Layout),
    (Session.bare.start [] source).readAll .bare 9 = .ok d ∧ d.Monotone .bare ∧
    (∀ k, longAt Session.bare.settings.longLiterals d.entries.toList k = false) ∧
    d.packableCount + 2 ≤ Session.bare.settings.maxPasses ∧
    Session.bare.run 9 [] source = .ok a ∧ a.fixedPoint = true ∧ a.Alternative .bare m ∧
    m.words.length < a.words.length ∧ P a m

theorem hasShorter_of_choose {source : Text} {P : Assembly → Layout → Prop}
    [∀ a m, Decidable (P a m)] (plan : List (Nat × Bool × Word))
    (hread : ((Session.bare.start [] source).readAll .bare 9).toOption.any (fun d =>
      d.isMonotone && decide (d.packableCount ≤ 9) &&
        d.entries.toList.all fun e => e.form?.isNone) = true)
    (hrun : (Session.bare.run 9 [] source).toOption.any (fun a =>
      ((a.layout.choose plan).entries.toList.all fun e =>
        decide (e.packs = true → e.Fits .bare (a.layout.choose plan).symbols)) &&
      decide ((a.layout.choose plan).words.length < a.words.length) &&
      decide (P a (a.layout.choose plan))) = true) : HasShorter source P := by
  obtain ⟨d, hd, hp⟩ := exists_ok hread
  obtain ⟨a, ha, hq⟩ := exists_ok hrun
  simp only [Bool.and_eq_true, List.all_eq_true, decide_eq_true_eq,
    Option.isNone_iff_eq_none] at hp hq
  obtain ⟨⟨hmono, hcount⟩, hform⟩ := hp
  obtain ⟨⟨hfits, hshort⟩, hP⟩ := hq
  have hm := Draft.monotone_of_isMonotone hmono
  have hmax : d.packableCount + 2 ≤ Session.bare.settings.maxPasses :=
    Nat.le_trans (Nat.add_le_add_right hcount 2) (by decide)
  obtain ⟨hfix, hsound⟩ := hm.run_sound ⟨rfl, rfl⟩ hd hmax ha
  have halt : a.Alternative .bare (a.layout.choose plan) :=
    ⟨Layout.choose_variant hsound.laid plan, hfits⟩
  exact ⟨d, a, _, hd, hm, longAt_of_no_form hform false, hmax, ha, hfix, halt, hshort, hP⟩

instance (es : List Entry) : Decidable (Low es) :=
  inferInstanceAs (Decidable (∀ e ∈ es, e.reach ≤ 0xFFFE))

/-- A literal can be in a word of its own only because of that word: if it were packed, the label
behind it would stand at thirty. And a literal that has been packed can keep a label from the last
address, which would let others be packed. -/
theorem words_not_shortest :
    HasShorter ".reserve 29\nSET A, end\n:end".toList (fun _ m => Low m.entries.toList) ∧
    HasShorter "SET A, top\nSET A, top\n.org 0xFFFD\nSET B, 1\n:top".toList
      (fun a _ => ∀ e ∈ a.entries, ¬a.IsNear .bare e) := by
  constructor
  · exact hasShorter_of_choose [(1, true, 30)] (by decide +kernel) (by decide +kernel)
  · exact hasShorter_of_choose [(3, false, 1), (1, true, 0xFFFF), (0, true, 0xFFFF)]
      (by decide +kernel) (by decide +kernel)

end Samples

end Dcpu
