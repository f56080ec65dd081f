import Dcpu.Proofs.Alignment
import Dcpu.Proofs.Convergence

/-! Programs in long form. Every literal has a word of its own from the first pass on, so lengths
are final when the lines have been read: no pass moves anything, and the second one finds all values
as the first one has left them. -/
namespace Dcpu
open Answer

/-- A plugin has words for the lines that it takes, and no instructions. -/
def Plugin.ClaimsWords (plugin : Plugin) : Prop :=
  ∀ c t e, plugin.claim c t = some e → ∃ words, e.body = .words words

theorem Hooks.exists_words_of_claim? {hooks : Hooks}
    (h : ∀ plugin ∈ hooks.plugins, plugin.ClaimsWords) {c : LineContext} {t : Text}
    {p : Text × Entry} (hc : hooks.claim? c t = some p) : ∃ words, p.2.body = .words words := by
  obtain ⟨plugin, hm, hp⟩ := List.exists_of_findSome?_eq_some hc
  obtain ⟨e, he, rfl⟩ := Option.map_eq_some_iff.mp hp
  exact h plugin hm c t e he

/-- No literal shares the word of its instruction. -/
def Unpacked (es : List Entry) : Prop := ∀ e ∈ es, e.packs = false

/-- Nothing asks for short literals. -/
def StaysLong (es : List Entry) : Prop := ∀ e ∈ es, e.form? ≠ some false

section StaysLong

variable {es fs : List Entry}

theorem StaysLong.of_append (h : StaysLong (es ++ fs)) : StaysLong es :=
  fun e he => h e (List.mem_append_left fs he)

theorem StaysLong.of_skeleton (h : StaysLong es)
    (hs : fs.map Entry.skeleton = es.map Entry.skeleton) : StaysLong fs := by
  intro f hf
  have hm : f.skeleton ∈ es.map Entry.skeleton := hs ▸ List.mem_map_of_mem hf
  obtain ⟨e, he, hef⟩ := List.mem_map.mp hm
  rw [← f.form?_skeleton, ← hef, e.form?_skeleton]
  exact h e he

theorem StaysLong.longAt (h : StaysLong es) (k : Nat) : longAt true es k = true := by
  unfold Dcpu.longAt
  cases hlast : ((es.take k).filterMap Entry.form?).getLast? with
  | none => rfl
  | some long =>
    obtain ⟨e, he, hf⟩ := List.mem_filterMap.mp (List.mem_of_getLast? hlast)
    cases long with
    | true => rfl
    | false => exact absurd hf (h e (List.mem_of_mem_take he))

end StaysLong

namespace Entry

variable {v : Session} {s t : SymbolTable} {e new : Entry}

theorem packs_eq_false_of_ne (h : ∀ i, e.body ≠ .instruction i) : e.packs = false := by
  unfold packs
  cases hb : e.body with
  | instruction i => exact absurd hb (h i)
  | _ => rfl

theorem packs_eq_false_of_long (h : e.body.IsEvaluated v s e.position true) :
    e.packs = false := by
  rw [Bool.eq_false_iff]
  intro hp
  cases (packs_iff h).mp hp |>.1

theorem refresh_packs_eq_false (hv : e.body.isVariable = true)
    (h : e.refresh v s true = .ok (new, t)) : new.packs = false := by
  obtain ⟨hn, hev, -⟩ := refresh_cases hv h
  have hp : new.position = e.position := by rw [hn]; rfl
  rw [← hp] at hev
  exact packs_eq_false_of_long hev

end Entry

namespace Draft

variable {v : Session} {d d' : Draft} {e : Entry}

/-- As long as nothing has asked for short literals, they are long and none has been packed. -/
def KeepsLong (d : Draft) : Prop :=
  StaysLong d.entries.toList → d.longForm = true ∧ Unpacked d.entries.toList

theorem KeepsLong.push (hd : d.KeepsLong)
    (he : d.longForm = true → e.packs = false) : (d.push e).KeepsLong := by
  obtain ⟨c, hp⟩ := d.push_eq e
  rw [hp]
  intro hlong
  rw [Array.toList_push] at hlong
  obtain ⟨hform, hall⟩ := hd hlong.of_append
  refine ⟨hform, fun f hf => ?_⟩
  rw [Array.toList_push, List.mem_append, List.mem_singleton] at hf
  rcases hf with hf | rfl
  · exact hall f hf
  · exact he hform

theorem Emits.packs_eq_false (hh : ∀ plugin ∈ v.hooks.plugins, plugin.ClaimsWords)
    (h : Emits v d e) (hlong : d.longForm = true) : e.packs = false := by
  cases h with
  | claimed hc hb =>
    obtain ⟨words, hw⟩ := Hooks.exists_words_of_claim? hh hc
    exact Entry.packs_eq_false_of_ne (by simp [hb, hw])
  | plain hb =>
    apply Entry.packs_eq_false_of_ne
    intro i hi
    simp [hi, Body.isPlain] at hb
  | align hb => exact Entry.packs_eq_false_of_ne (by simp [hb])
  | @instruction i s hb _ _ hi =>
    have hev : e.body.IsEvaluated v s e.position d.longForm := by
      rw [hb]
      exact hi
    rw [hlong] at hev
    exact Entry.packs_eq_false_of_long hev

theorem KeepsLong.step (hh : ∀ plugin ∈ v.hooks.plugins, plugin.ClaimsWords)
    (h : StepBy (Emits v) d d') (hd : d.KeepsLong) : d'.KeepsLong := by
  cases h with
  | control h =>
    unfold KeepsLong
    rw [h.entries, h.longForm]
    exact hd
  | mark => exact hd
  | equate => exact hd
  | emit _ hem => exact hd.push fun hlong => hem.packs_eq_false hh hlong
  | @form e long _ hb =>
    cases long with
    | true =>
      have hset : ({ d with longForm := true } : Draft).KeepsLong :=
        fun hlong => ⟨rfl, (hd hlong).2⟩
      exact hset.push fun _ => Entry.packs_eq_false_of_ne (by simp [hb])
    | false =>
      -- This is the entry that asks for short literals.
      intro hlong
      obtain ⟨c, hp⟩ := ({ d with longForm := false } : Draft).push_eq e
      rw [hp, Array.toList_push] at hlong
      refine absurd ?_ (hlong { e with caution := c } (by simp))
      simp [Entry.form?, hb]
  | jump hb => exact KeepsLong.push hd fun _ => Entry.packs_eq_false_of_ne (by simp [hb])
  | label _ _ hb =>
    exact KeepsLong.push hd fun _ => Entry.packs_eq_false_of_ne (by simp [hb, Body.blank])
  | anonymous _ _ hb =>
    exact KeepsLong.push hd fun _ => Entry.packs_eq_false_of_ne (by simp [hb, Body.blank])

theorem Advances.keepsLong (hh : ∀ plugin ∈ v.hooks.plugins, plugin.ClaimsWords)
    (h : d.Advances v d') (hd : d.KeepsLong) : d'.KeepsLong := by
  induction h with
  | refl => exact hd
  | tail _ hstep ih => exact ih.step hh hstep

/-- What has been read in long form has no packed literals. -/
theorem unpacked_of_readAll {steps : Nat} {file source : Text}
    (hh : ∀ plugin ∈ v.hooks.plugins, plugin.ClaimsWords) (hl : v.settings.longLiterals = true)
    (h : (v.start file source).readAll v steps = .ok d) (hs : StaysLong d.entries.toList) :
    Unpacked d.entries.toList := by
  have hstart : (v.start file source).KeepsLong :=
    fun _ => ⟨hl, fun e he => absurd he (by simp [Session.start])⟩
  exact ((readAll_advances h).keepsLong hh hstart hs).2

/-- What passes compute does not come from a plugin. -/
theorem computed_of_readAll {steps : Nat} {file source : Text}
    (hh : ∀ plugin ∈ v.hooks.plugins, plugin.ClaimsWords)
    (h : (v.start file source).readAll v steps = .ok d) : d.layout.Computed := by
  refine (readAll_advances h).forall_entries ?_ (fun _ ho _ => ho) ?_
  · intro c t p e hc hb _ hv
    obtain ⟨words, hw⟩ := Hooks.exists_words_of_claim? hh hc
    simp [hb, hw, Body.isVariable] at hv
  · intro e he
    cases he

end Draft

namespace Layout

variable {v : Session} {l l' m : Layout} {i : Nat}

/-- The second layout is unpacked, and all its addresses are those of the first one. -/
structure Still (l l' : Layout) : Prop where
  unpacked : Unpacked l'.entries.toList
  addresses : l'.entries.toList.map Entry.address = l.entries.toList.map Entry.address
  labels : l'.symbols.labels = l.symbols.labels
  anonymous : l'.symbols.anonymous = l.symbols.anonymous

theorem Still.trans (h : l.Still l') (h' : l'.Still m) : l.Still m :=
  ⟨h'.unpacked, h'.addresses.trans h.addresses, h'.labels.trans h.labels,
    h'.anonymous.trans h.anonymous⟩

theorem Still.of_unpacked (h : Unpacked l.entries.toList) (long changed : Bool) :
    l.Still { l with long := long, changed := changed } :=
  ⟨h, rfl, rfl, rfl⟩

/-- In long form an entry is brought up to date in place. -/
theorem replace_still {e new : Entry} {s : SymbolTable} (hu : Unpacked l.entries.toList)
    (hc : l.Computed) (he : l.entries[i]? = some e) (hv : e.body.isVariable = true)
    (hr : e.refresh v l.symbols true = .ok (new, s)) :
    new.room = e.room ∧ l.Still ({ l with symbols := s }.replace i e new) := by
  have hmem : e ∈ l.entries.toList := List.mem_of_getElem? (by simpa using he)
  obtain ⟨hn, -, hm⟩ := Entry.refresh_cases hv hr
  have haddr : new.address = e.address := by rw [hn]
  have hnew : new.packs = false := Entry.refresh_packs_eq_false hv hr
  have ho : e.own = none := hc e hmem hv
  have ho' : new.own = none := (refresh_updates hv hr).own_eq_none ho
  have hroom : new.room = e.room := by
    obtain ⟨n, m, -, hold, hlength⟩ :=
      (Entry.refresh_variant hv hr).lengths ho ho' (ne_align_of_isVariable hv)
    rw [Entry.room_of_own ho', Entry.room_of_own ho, hold, hlength, hnew, hu e hmem]
  refine ⟨hroom, ?_⟩
  rw [replace_of_room_eq hroom]
  constructor
  · intro f hf
    rcases List.mem_or_eq_of_mem_set (by simpa using hf) with hf | rfl
    · exact hu f hf
    · exact hnew
  · apply List.ext_getElem?
    intro k
    simp only [Array.toList_setIfInBounds, List.getElem?_map, List.getElem?_set]
    split
    next hk =>
      subst hk
      obtain ⟨hi, hget⟩ := Array.getElem?_eq_some_iff.mp he
      simp [hi, hget, haddr]
    next => rfl
  · rw [hm.eq_with]
  · rw [hm.eq_with]

theorem refreshAt_still (h : l.refreshAt v i = .ok l') (hlong : l.long = true)
    (hu : Unpacked l.entries.toList) (hc : l.Computed) : l.Still l' := by
  obtain ⟨-, rfl⟩ | ⟨e, -, -, rfl⟩ | ⟨e, new, s, he, hv, hr, rfl⟩ := refreshAt_cases h
  · exact .of_unpacked hu ..
  · exact .of_unpacked hu ..
  · rw [hlong] at hr
    exact (replace_still hu hc he hv hr).2

section Passes

variable (hl : v.settings.longLiterals = true) (hs : StaysLong l.entries.toList)
include hl hs

theorem passTo_long_eq_true (h : l.passTo v i = .ok m) : m.long = true := by
  rw [passTo_long h, hl]
  exact (hs.of_skeleton (passTo_skeleton h)).longAt i

theorem passTo_still (hu : Unpacked l.entries.toList) (hc : l.Computed)
    (h : l.passTo v i = .ok m) : l.Still m := by
  refine passTo_induct (P := fun _ m => l.Still m) h (.of_unpacked hu ..) ?_
  intro i m m' hm hr hstill
  exact hstill.trans (refreshAt_still hr (passTo_long_eq_true hl hs hm) hstill.unpacked
    (hc.of_updated (passTo_updated hm)))

theorem passes_still (hu : Unpacked l.entries.toList) (hc : l.Computed) (h : Passes v l m) :
    l.Still m := by
  induction h with
  | refl => exact .of_unpacked hu ..
  | tail hk hp ih =>
    have hlong := hs.of_skeleton (Passes.skeleton hk)
    exact ih.trans (passTo_still hl hlong ih.unpacked (hc.of_updated (Passes.updated hk)) hp)

/-- One pass brings all entries up to date. -/
theorem pass_upToDate_of_long (hu : Unpacked l.entries.toList) (hc : l.Computed)
    (h : l.pass v = .ok l') : l'.UpToDate v l.entries.size := by
  refine passTo_induct (P := fun i m => m.UpToDate v i) h ?_ ?_
  · exact ⟨by simp [Dcpu.longAt], fun k _ hk => absurd hk (Nat.not_lt_zero k)⟩
  · intro i m m' hm hr hup
    refine refreshAt_upToDate hr (fun e e' he he' => ?_) hup
    obtain ⟨hn, -⟩ | ⟨f, -, -, rfl⟩ | ⟨f, new, s, hf, hv, hnew, rfl⟩ := refreshAt_cases hr
    · simp [hn] at he
    · obtain rfl := Option.some.inj (he.symm.trans he')
      rfl
    · obtain rfl := Option.some.inj (he.symm.trans hf)
      rw [replace_getElem?_self (l := { m with symbols := s }) he new] at he'
      obtain rfl := Option.some.inj he'
      rw [passTo_long_eq_true hl hs hm] at hnew
      exact (replace_still (passTo_still hl hs hu hc hm).unpacked
        (hc.of_updated (passTo_updated hm)) he hv hnew).1

/-- A layout in long form settles with the second pass unless a pass is aborted. -/
theorem settles_of_long (hu : Unpacked l.entries.toList) (hc : l.Computed)
    (marks : ∀ y, l.HasText y → IgnoresMarks v y) (left : Nat) :
    (∃ l' n, l.settle v (left + 2) 0 = .ok (l', n, true) ∧ n ≤ 2) ∨
      ∃ x y, l.settle v (left + 2) 0 = .error x ∧ l.HasText y ∧ Aborts v x y := by
  cases hp : l.pass v with
  | error x =>
    obtain ⟨y, hy, ha⟩ := passTo_error hp
    exact .inr ⟨x, y, by simp [settle, hp], hy, ha⟩
  | ok k =>
    by_cases hk : k.changed = true
    · have hstep : l.settle v (left + 2) 0 = k.settle v (left + 1) 1 := by simp [settle, hp, hk]
      have htext {y : Text} (hy : k.HasText y) : l.HasText y :=
        hy.of_skeleton (passTo_skeleton hp)
      have hsize : l.entries.size = k.entries.size := by
        have hlen := congrArg List.length (passTo_skeleton hp)
        simpa using hlen.symm
      rw [hstep]
      cases hp' : k.pass v with
      | error x =>
        obtain ⟨y, hy, ha⟩ := passTo_error hp'
        exact .inr ⟨x, y, by simp [settle, hp'], htext hy, ha⟩
      | ok m =>
        -- The first pass has left all values as the second one computes them.
        have hup := pass_upToDate_of_long hl hs hu hc hp
        rw [hsize] at hup
        have hm : m.changed = false :=
          pass_unchanged hp' hup.current (hc.of_updated (passTo_updated hp)) fun y hy =>
            marks y (htext hy)
        exact .inl ⟨m, 2, by simp [settle, hp', hm], Nat.le_refl 2⟩
    · exact .inl ⟨k, 1, by simp [settle, hp, hk], by omega⟩

end Passes

end Layout

/-- In long form no literal is ever packed and no address changes after the lines have been read,
neither between passes nor within one, whatever the expressions are. Two passes are enough, unless
the evaluation of an expression is aborted: it comes to an instruction in braces that cannot be
assembled, or to a name behind a character that is not in ASCII. -/
theorem run_stands_still {v : Session} {steps : Nat} {file source : Text} {d : Draft}
    (hh : ∀ plugin ∈ v.hooks.plugins, plugin.ClaimsWords) (hl : v.settings.longLiterals = true)
    (hd : (v.start file source).readAll v steps = .ok d) (hs : StaysLong d.entries.toList)
    (marks : ∀ y, d.layout.HasText y → IgnoresMarks v y) :
    (∀ l i m, Layout.Passes v d.layout l → l.passTo v i = .ok m → d.layout.Still m) ∧
    (∀ a, v.run steps file source = .ok a → Unpacked a.entries ∧
      a.entries.map Entry.address = d.entries.toList.map Entry.address ∧
      a.symbols.labels = d.symbols.labels ∧ a.symbols.anonymous = d.symbols.anonymous) ∧
    (2 ≤ v.settings.maxPasses →
      (∃ a, v.run steps file source = .ok a ∧ a.fixedPoint = true ∧ a.passes ≤ 2) ∨
      ∃ x y, v.run steps file source = .error x ∧ d.layout.HasText y ∧
        ((∃ s p u, Expr.MeetsBraces (v.context s p) y u ∧ v.literal u = .error x) ∨
          x = .brokenName ∧ Expr.IsWide y)) := by
  have hc := Draft.computed_of_readAll hh hd
  have hu : Unpacked d.layout.entries.toList := Draft.unpacked_of_readAll hh hl hd hs
  refine ⟨?_, ?_, ?_⟩
  · intro l i m hp hm
    have hstill := Layout.passes_still hl hs hu hc hp
    have hlong := StaysLong.of_skeleton hs (Layout.Passes.skeleton hp)
    exact hstill.trans
      (Layout.passTo_still hl hlong hstill.unpacked (hc.of_updated hp.updated) hm)
  · intro a ha
    obtain ⟨d', l, hd', hp, he, hsym, -⟩ := Session.run_passes ha
    obtain rfl : d' = d := Except.ok.inj (hd'.symm.trans hd)
    have hstill := Layout.passes_still hl hs hu hc hp
    rw [he, hsym]
    exact ⟨hstill.unpacked, hstill.addresses, hstill.labels, hstill.anonymous⟩
  · intro hmax
    obtain ⟨left, hleft⟩ : ∃ n, max v.settings.maxPasses 1 = n + 2 :=
      ⟨v.settings.maxPasses - 2, by omega⟩
    have hsettle := Layout.settles_of_long hl hs hu hc marks left
    rw [← hleft] at hsettle
    rcases hsettle with ⟨l, n, h, hn⟩ | ⟨x, y, h, hy, s, p, hev⟩
    · obtain ⟨a, ha, rfl, hfix⟩ := Session.run_of_settle_ok hd h
      exact .inl ⟨a, ha, hfix, hn⟩
    · refine .inr ⟨x, y, Session.run_of_settle_error hd h, hy, ?_⟩
      exact (Expr.eval_error hev).imp_left fun ⟨u, hu⟩ => ⟨s, p, u, hu⟩

/-- A session in long form, with a plugin. -/
def Session.inLongForm : Session :=
  { Session.withNop with settings := { longLiterals := true } }

theorem Session.inLongForm_claimsWords :
    ∀ plugin ∈ Session.inLongForm.hooks.plugins, plugin.ClaimsWords := by
  intro plugin hm
  obtain rfl := List.mem_singleton.mp hm
  intro c t e he
  exact ⟨_, (Plugin.forLine_claim he).1⟩

/-- A check whether a program stays in long form and reads no marks, for the standard functions. -/
def Draft.isInLongForm (d : Draft) : Bool :=
  d.entries.toList.all fun e =>
    decide (e.form? ≠ some false) && e.body.texts.all fun y => decide ('r' ∉ Text.lower y)

theorem Draft.staysLong_of_isInLongForm {d : Draft} (h : d.isInLongForm = true) :
    StaysLong d.entries.toList ∧
      ∀ y, d.layout.HasText y → IgnoresMarks .inLongForm y := by
  simp only [isInLongForm, List.all_eq_true, Bool.and_eq_true, decide_eq_true_eq] at h
  refine ⟨fun e he => (h e he).1, ?_⟩
  rintro y ⟨e, he, hy⟩
  exact ignoresMarks_of_standard rfl ((h e he).2 y hy)

/-- The literals depend on the addresses, and these would depend on their form. -/
def longProgram : Text :=
  "NOP\nSET A, 32 - end\n.align 8\n:$ SET B, $-\nDAT end\n.longform\n:end".toList

theorem run_stands_still_sample :
    ∃ (d : Draft) (a : Assembly),
      (Session.inLongForm.start [] longProgram).readAll .inLongForm 9 = .ok d ∧
      Session.inLongForm.run 9 [] longProgram = .ok a ∧ a.fixedPoint = true ∧ a.passes ≤ 2 ∧
      d.entries.toList.map Entry.address = [0, 1, 3, 8, 8, 10, 11, 11] ∧ Unpacked a.entries ∧
      a.entries.map Entry.address = [0, 1, 3, 8, 8, 10, 11, 11] ∧
      a.symbols.labels = d.symbols.labels ∧ a.symbols.anonymous = d.symbols.anonymous := by
  obtain ⟨d, hd, hp⟩ := exists_ok
    (x := (Session.inLongForm.start [] longProgram).readAll .inLongForm 9)
    (p := fun d => d.isInLongForm &&
      d.entries.toList.map Entry.address == [0, 1, 3, 8, 8, 10, 11, 11] &&
      d.entries.toList.all fun e => e.body.texts.all fun y =>
        decide ('{' ∉ y) && decide ¬Expr.IsWide y)
    (by decide +kernel)
  simp only [Bool.and_eq_true, beq_iff_eq, List.all_eq_true, decide_eq_true_eq] at hp
  obtain ⟨⟨hp, haddr⟩, hplain⟩ := hp
  obtain ⟨hs, marks⟩ := Draft.staysLong_of_isInLongForm hp
  obtain ⟨-, hstill, hsettles⟩ :=
    run_stands_still Session.inLongForm_claimsWords rfl hd hs marks
  rcases hsettles (by decide) with
    ⟨a, ha, hfix, hn⟩ | ⟨x, y, -, ⟨e, he, hy⟩, ⟨s, p, u, hu, -⟩ | ⟨-, hw⟩⟩
  · obtain ⟨hu, haddr', hlabels, hanonymous⟩ := hstill a ha
    exact ⟨d, a, hd, ha, hfix, hn, haddr, hu, haddr'.trans haddr, hlabels, hanonymous⟩
  · exact absurd hu.mem (hplain e he y hy).1
  · exact absurd hw (hplain e he y hy).2

/-- The literal has no value until `x` has one, and then its evaluation comes to a name behind a
character that is not in ASCII. So the first pass is aborted. -/
theorem run_in_long_form_aborted :
    ∃ d : Draft,
      (Session.inLongForm.start [] "SET A, (x)é(1)\n.equ x 5".toList).readAll .inLongForm 9 =
        .ok d ∧
      StaysLong d.entries.toList ∧ (∀ y, d.layout.HasText y → IgnoresMarks .inLongForm y) ∧
      2 ≤ Session.inLongForm.settings.maxPasses ∧
      (Session.inLongForm.run 9 [] "SET A, (x)é(1)\n.equ x 5".toList).toOption.isNone = true := by
  obtain ⟨d, hd, hp⟩ := exists_ok
    (x := (Session.inLongForm.start [] "SET A, (x)é(1)\n.equ x 5".toList).readAll .inLongForm 9)
    (p := Draft.isInLongForm)
    (by decide +kernel)
  obtain ⟨hs, marks⟩ := Draft.staysLong_of_isInLongForm hp
  exact ⟨d, hd, hs, marks, by decide, by decide +kernel⟩

end Dcpu
