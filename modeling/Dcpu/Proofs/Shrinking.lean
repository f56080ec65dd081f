import Dcpu.Proofs.FirstPass

/-! Passes over a program whose packable literals are single tokens. Instructions only shrink, and
what follows only sinks, so a value that fits goes on fitting. -/
namespace Dcpu

section Form

theorem Entry.form?_skeleton (e : Entry) : e.skeleton.form? = e.form? := by
  unfold form?
  cases hb : e.body <;> simp [skeleton, Body.skeleton, hb]

theorem longAt_skeleton (long : Bool) (es : List Entry) (k : Nat) :
    longAt long (es.map Entry.skeleton) k = longAt long es k := by
  have hf : Entry.form? ∘ Entry.skeleton = Entry.form? := funext Entry.form?_skeleton
  rw [longAt, longAt, ← List.map_take, List.filterMap_map, hf]

theorem longAt_of_skeleton {es fs : List Entry}
    (h : fs.map Entry.skeleton = es.map Entry.skeleton) (long : Bool) (k : Nat) :
    longAt long fs k = longAt long es k := by
  rw [← longAt_skeleton, h, longAt_skeleton]

end Form

namespace Layout

variable {v : Session} {l l' m : Layout} {i k : Nat} {e e' : Entry}

/-- A pass has the form of literals that is in force at the entry it has come to. -/
theorem passTo_long (h : l.passTo v i = .ok m) :
    m.long = longAt v.settings.longLiterals m.entries.toList i := by
  refine passTo_induct (P := fun i m =>
    m.long = longAt v.settings.longLiterals m.entries.toList i) h ?_ ?_
  · simp [longAt]
  · intro i m m' _ hr hl
    rw [longAt_of_skeleton (refreshAt_skeleton hr), longAt_succ, ← hl, Array.getElem?_toList]
    obtain ⟨he, rfl⟩ | ⟨e, he, -, rfl⟩ | ⟨e, new, s, he, hv, -, rfl⟩ := refreshAt_cases hr
    · rw [he]
      rfl
    · rw [he]
      exact e.longAfter_eq m.long
    · rw [he, Option.bind_some, Entry.form?_of_variable hv]
      unfold replace
      dsimp only
      split <;> rfl

end Layout

section Fits

variable {v : Session} {l l' : Layout} {k : Nat} {e e' : Entry}

theorem Entry.Variant.singleToken (h : e.Variant e') (he : e.SingleToken) : e'.SingleToken := by
  intro x hx
  rw [h.packable?_eq] at hx
  exact he x hx

/-- A literal that fits goes on fitting when addresses get lower. None of them is the last one, so
only constants fit as that. -/
theorem Entry.Fits.sink (hv : v.hooks.plugins = []) (hl : WellLaid l.entries.toList l.symbols)
    (low : Low l.entries.toList) (hvar : l.Variant l')
    (hsink : List.Forall₂ Entry.Sinks l.entries.toList l'.entries.toList)
    (he : l.entries[k]? = some e) (he' : l'.entries[k]? = some e') (hee : e.Variant e')
    (ht : e.SingleToken) (h : e.Fits v l.symbols) : e'.Fits v l'.symbols := by
  obtain ⟨x, r, hx, hr, hok, hf⟩ := h
  obtain ⟨t, hxt⟩ := ht x hx
  rw [Expr.eval_token hxt] at hr
  obtain ⟨target, htarget⟩ := exists_target hv l.symbols e.position k t
  have hold := htarget _ _ _ (Layout.relaid_self hl he)
  have hnew := htarget _ _ _ (hvar.relaid he' hee)
  cases target with
  | fixed answer =>
    refine ⟨x, r, hee.packable?_eq.trans hx, ?_, hok, hf⟩
    rw [Expr.eval_token hxt]
    exact (hnew.trans hold.symm).trans hr
  | entry q =>
    obtain ⟨f, r₀, hq, hr₀, -, -, hval⟩ := hold
    obtain ⟨f', r', hq', hr', hok', -, hval'⟩ := hnew
    obtain rfl := Except.ok.inj (hr₀.symm.trans hr)
    refine ⟨x, r', hee.packable?_eq.trans hx, ?_, hok', .inl ?_⟩
    · rw [Expr.eval_token hxt]
      exact hr'
    · rw [hval] at hf
      have hlow : f.address ≤ 30 := Entry.address_le_of_low (low f (List.mem_of_getElem? hq)) hf
      obtain ⟨g, hg, hs⟩ := exists_getElem?_of_forall₂ hsink hq
      obtain rfl := Option.some.inj (hq'.symm.trans hg)
      rw [hval']
      exact UInt16.le_trans hs.address hlow

theorem Entry.shrinks_shiftClosed : ShiftClosed Entry.Shrinks where
  refl e := ⟨Entry.variant_shiftClosed.refl e, id⟩
  move e delta ho ha := ⟨Entry.variant_shiftClosed.move e delta ho ha, id⟩
  realign e target delta ha := by
    refine ⟨Entry.variant_shiftClosed.realign e target delta ha, ?_⟩
    intro hp
    simp [packs, ha, Body.packs] at hp

end Fits

namespace Layout

variable {v : Session} {l l' m : Layout} {i k : Nat} {e e' : Entry}

/-- The program is laid out far from the end of memory, and all that is packed fits. -/
structure Sound (v : Session) (l : Layout) : Prop where
  laid : WellLaid l.entries.toList l.symbols
  low : Low l.entries.toList
  tokens : ∀ e ∈ l.entries.toList, e.SingleToken
  packed : ∀ (k : Nat) (e : Entry), l.entries[k]? = some e → e.packs = true →
    longAt v.settings.longLiterals l.entries.toList k = false ∧ e.Fits v l.symbols

/-- After a step an entry is packed that was packed before, or the one that was brought up to date
if it fits. -/
theorem refreshAt_packs (h : l.refreshAt v i = .ok l') (he : l.entries[k]? = some e)
    (he' : l'.entries[k]? = some e') (hee : e.Variant e') (hp : e'.packs = true) :
    e.packs = true ∨ k = i ∧ l.long = false ∧ e.Fits v l.symbols := by
  have hv : e.body.isVariable = true := by
    rw [← hee.isVariable_eq]
    exact Body.isVariable_of_packs hp
  rcases Nat.lt_trichotomy k i with hk | rfl | hk
  · rw [refreshAt_getElem?_of_lt h hk] at he'
    obtain rfl := Option.some.inj (he.symm.trans he')
    exact .inl hp
  · obtain ⟨new, s, hr, hnew⟩ := refreshAt_getElem?_self h he hv
    obtain rfl := Option.some.inj (hnew.symm.trans he')
    obtain ⟨hn, hb, -⟩ := Entry.refresh_cases hv hr
    have hpos : new.position = e.position := by rw [hn]; rfl
    rw [← hpos] at hb
    obtain ⟨hlong, hfits⟩ := (Entry.packs_iff hb).mp hp
    exact .inr ⟨rfl, hlong, hfits.congr hpos.symm hee.packable?_eq.symm⟩
  · obtain ⟨delta, hd⟩ := refreshAt_getElem?_of_gt h hk he (ne_align_of_isVariable hv)
    obtain rfl := Option.some.inj (hd.symm.trans he')
    exact .inl hp

/-- A literal that is packed with reason is packed again. -/
theorem Sound.refresh_packs (hs : l.Sound v)
    (hl : l.long = longAt v.settings.longLiterals l.entries.toList i) (he : l.entries[i]? = some e)
    (hv : e.body.isVariable = true) {s : SymbolTable}
    (hr : e.refresh v l.symbols l.long = .ok (e', s)) (hp : e.packs = true) : e'.packs = true := by
  obtain ⟨hn, hb, -⟩ := Entry.refresh_cases hv hr
  obtain ⟨hlong, hfits⟩ := hs.packed i e he hp
  have hpos : e'.position = e.position := by rw [hn]; rfl
  rw [← hpos] at hb
  rw [Entry.packs_iff hb]
  constructor
  · rw [hl]
    exact hlong
  · exact hfits.congr hpos (Entry.refresh_variant hv hr).packable?_eq

/-- Every step shrinks a sound layout. -/
theorem Sound.shrinks (hs : l.Sound v)
    (hl : l.long = longAt v.settings.longLiterals l.entries.toList i)
    (h : l.refreshAt v i = .ok l') :
    List.Forall₂ Entry.Shrinks l.entries.toList l'.entries.toList := by
  refine refreshAt_forall₂ Entry.shrinks_shiftClosed h ?_
  intro e new s he hv hr
  exact ⟨Entry.refresh_variant hv hr, hs.refresh_packs hl he hv hr⟩

theorem Sound.sinks (hs : l.Sound v)
    (hl : l.long = longAt v.settings.longLiterals l.entries.toList i)
    (h : l.refreshAt v i = .ok l') :
    List.Forall₂ Entry.Sinks l.entries.toList l'.entries.toList := by
  have hstack : Stacked 0 l.entries.toList := hs.laid.chained.stacked hs.low
  have hlaid := refreshAt_wellLaid h hs.laid
  exact sinks_of_shrinks (hs.shrinks hl h) hs.laid.own hlaid.own hstack hs.low hlaid.chained
    (Nat.le_refl 0)

theorem Sound.refreshAt (hv : v.hooks.plugins = []) (hs : l.Sound v)
    (hl : l.long = longAt v.settings.longLiterals l.entries.toList i)
    (h : l.refreshAt v i = .ok l') : l'.Sound v := by
  have hvar := refreshAt_variant h hs.laid
  have hsink := hs.sinks hl h
  have hback {k : Nat} {e' : Entry} (he' : l'.entries[k]? = some e') :
      ∃ e, l.entries[k]? = some e ∧ e.Variant e' := by
    obtain ⟨e, he, hee⟩ := exists_getElem?_of_forall₂ hvar.entries.flip (by simpa using he')
    exact ⟨e, by simpa using he, hee⟩
  refine ⟨hvar.laid, hs.low.of_sinks hsink, ?_, ?_⟩
  · intro e' he'
    obtain ⟨k, hk⟩ := List.mem_iff_getElem?.mp he'
    obtain ⟨e, he, hee⟩ := hback (by simpa using hk)
    exact hee.singleToken (hs.tokens e (List.mem_of_getElem? (by simpa using he)))
  · intro k e' he' hp
    obtain ⟨e, he, hee⟩ := hback he'
    have ht : e.SingleToken := hs.tokens e (List.mem_of_getElem? (by simpa using he))
    have hfits : longAt v.settings.longLiterals l.entries.toList k = false ∧
        e.Fits v l.symbols := by
      rcases refreshAt_packs h he he' hee hp with hp | ⟨rfl, hlong, hfits⟩
      · exact hs.packed k e he hp
      · rw [← hl]
        exact ⟨hlong, hfits⟩
    rw [longAt_of_skeleton (refreshAt_skeleton h)]
    exact ⟨hfits.1, hfits.2.sink hv hs.laid hs.low hvar hsink he he' hee ht⟩

theorem Sound.passTo (hv : v.hooks.plugins = []) (hs : l.Sound v) (h : l.passTo v i = .ok m) :
    m.Sound v := by
  refine passTo_induct (P := fun _ m => m.Sound v) h ?_ ?_
  · exact ⟨hs.laid, hs.low, hs.tokens, hs.packed⟩
  · intro j m m' hm hr hsm
    exact hsm.refreshAt hv (passTo_long hm) hr

theorem Sound.passes (hv : v.hooks.plugins = []) (hs : l.Sound v) (h : Passes v l l') :
    l'.Sound v := by
  induction h with
  | refl => exact hs
  | tail _ hp ih => exact ih.passTo hv hp

/-- The layout that reading the lines gives is sound. -/
theorem sound_of_readAll {steps : Nat} {file source : Text} {d : Draft}
    (hv : v.hooks.plugins = []) (hs : v.symbols.OnlyEquates)
    (hd : (v.start file source).readAll v steps = .ok d)
    (low : Low d.entries.toList) (tokens : ∀ e ∈ d.entries.toList, e.SingleToken) :
    d.layout.Sound v := by
  have hp := Draft.readAll_packed hv hs hd
  refine ⟨Draft.wellLaid_of_readAll hv hs hd, low, tokens, ?_⟩
  intro k e he hpe
  obtain ⟨-, hlong, hfits⟩ := hp.entries k e he hpe
  have ht : e.SingleToken := tokens e (List.mem_of_getElem? (by simpa [Draft.layout] using he))
  exact ⟨hlong, hfits ht⟩

end Layout

section Loose

/-- The literal of operand A could be packed, but is not. -/
def Entry.isLoose (e : Entry) : Bool := e.body.packable?.isSome && !e.packs

/-- The number of literals that could be packed, but are not. -/
def Layout.loose (l : Layout) : Nat := l.entries.toList.countP Entry.isLoose

theorem countP_of_forall₂ {α : Type} {p : α → Bool} {as bs : List α}
    (h : List.Forall₂ (fun a b => p b = true → p a = true) as bs) :
    bs.countP p ≤ as.countP p ∧
      (bs.countP p = as.countP p → List.Forall₂ (fun a b => p b = p a) as bs) := by
  induction h with
  | nil => exact ⟨Nat.le_refl _, fun _ => .nil⟩
  | @cons a b as bs hab _ ih =>
    rw [List.countP_cons, List.countP_cons]
    cases ha : p a with
    | true =>
      cases hb : p b with
      | true =>
        simp only [if_true, Nat.add_le_add_iff_right, Nat.add_right_cancel_iff]
        exact ⟨ih.1, fun heq => .cons (hb.trans ha.symm) (ih.2 heq)⟩
      | false =>
        simp only [if_true, Bool.false_eq_true, if_false]
        constructor
        · omega
        · intro heq
          omega
    | false =>
      have hb : p b = false := by
        rw [← Bool.not_eq_true]
        intro hb
        simp [hab hb] at ha
      simp only [hb, Bool.false_eq_true, if_false, Nat.add_zero]
      exact ⟨ih.1, fun heq => .cons (hb.trans ha.symm) (ih.2 heq)⟩

theorem Entry.Shrinks.isLoose {e e' : Entry} (h : e.Shrinks e') (hl : e'.isLoose = true) :
    e.isLoose = true := by
  simp only [Entry.isLoose, Bool.and_eq_true, Bool.not_eq_true'] at hl ⊢
  rw [h.packable?_eq] at hl
  refine ⟨hl.1, ?_⟩
  rw [← Bool.not_eq_true]
  intro hp
  simp [h.packed hp] at hl

namespace Layout

variable {v : Session} {l l' m : Layout} {i k : Nat} {e e' : Entry}

theorem Sound.loose_le (hs : l.Sound v)
    (hl : l.long = longAt v.settings.longLiterals l.entries.toList i)
    (h : l.refreshAt v i = .ok l') : l'.loose ≤ l.loose :=
  (countP_of_forall₂ ((hs.shrinks hl h).imp fun _ _ => Entry.Shrinks.isLoose)).1

/-- A step that packs nothing moves nothing. -/
theorem Sound.room_eq (hs : l.Sound v)
    (hl : l.long = longAt v.settings.longLiterals l.entries.toList i)
    (h : l.refreshAt v i = .ok l') (hc : l'.loose = l.loose) (he : l.entries[i]? = some e)
    (he' : l'.entries[i]? = some e') : e'.room = e.room := by
  have hshrinks := hs.shrinks hl h
  have hsame := (countP_of_forall₂ (hshrinks.imp fun _ _ => Entry.Shrinks.isLoose)).2 hc
  have hel : l.entries.toList[i]? = some e := by simpa using he
  obtain ⟨f, hf, hee⟩ := exists_getElem?_of_forall₂ hshrinks hel
  obtain ⟨g, hg, heq⟩ := exists_getElem?_of_forall₂ hsame hel
  rw [Array.getElem?_toList, he'] at hf hg
  obtain rfl := Option.some.inj hf
  obtain rfl := Option.some.inj hg
  by_cases hv : e.body.isVariable = true
  · have hp : e'.packs = e.packs := by
      cases hp : e.packs with
      | true => exact hee.packed hp
      | false =>
        rw [← Bool.not_eq_true]
        intro hp'
        rcases refreshAt_packs h he he' hee.toVariant hp' with hq | ⟨-, -, x, r, hx, -⟩
        · simp [hp] at hq
        · simp [Entry.isLoose, hee.packable?_eq, hx, hp, hp'] at heq
    have ho : e.own = none := hs.laid.own e (List.mem_of_getElem? hel)
    have ho' : e'.own = none :=
      (refreshAt_wellLaid h hs.laid).own e' (List.mem_of_getElem? (by simpa using he'))
    obtain ⟨n, w, -, hn, hn'⟩ := hee.lengths ho ho' (ne_align_of_isVariable hv)
    rw [Entry.room_of_own ho, Entry.room_of_own ho', hn, hn', hp]
  · obtain ⟨hn, -⟩ | ⟨f, -, -, rfl⟩ | ⟨f, new, s, hf, hfv, -, -⟩ := refreshAt_cases h
    · simp [hn] at he
    · obtain rfl := Option.some.inj (he.symm.trans he')
      rfl
    · obtain rfl := Option.some.inj (he.symm.trans hf)
      exact absurd hfv hv

/-- After a pass there are not more loose literals than before, and if there are as many, the pass
has moved nothing and all entries are up to date. -/
theorem Sound.pass_loose (hv : v.hooks.plugins = []) (hs : l.Sound v) (h : l.pass v = .ok l') :
    l'.loose ≤ l.loose ∧ (l'.loose = l.loose → l'.UpToDate v l.entries.size) := by
  refine passTo_induct (P := fun i m => m.loose ≤ l.loose ∧
    (m.loose = l.loose → m.UpToDate v i)) h ?_ ?_
  · refine ⟨Nat.le_refl _, fun _ => ⟨by simp [longAt], ?_⟩⟩
    intro k _ hk
    exact absurd hk (Nat.not_lt_zero k)
  · intro i m m' hm hr ih
    have hsm := hs.passTo hv hm
    have hle := hsm.loose_le (passTo_long hm) hr
    constructor
    · exact Nat.le_trans hle ih.1
    · intro heq
      have hmm : m'.loose = m.loose := by omega
      refine refreshAt_upToDate hr ?_ (ih.2 (by omega))
      intro e e' he he'
      exact hsm.room_eq (passTo_long hm) hr hmm he he'

end Layout

end Loose

end Dcpu
