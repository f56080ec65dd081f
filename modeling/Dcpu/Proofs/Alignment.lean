import Dcpu.Proofs.Addresses
import Dcpu.Proofs.Rounds

/-! Alignments. One that is not past its target fills up to it, whatever comes before, so that the
entries and labels behind it stay where they are when something before it changes its length. -/
namespace Dcpu
open Answer

namespace Entry

/-- An alignment has no words but its padding, and a fault exactly if it is past its target. -/
def MarksPast (e : Entry) : Prop :=
  ∀ target, e.body = .align target →
    e.own = none ∧ e.fault = if target < e.address then some .alignToPast else none

variable {e e' : Entry} {target : Word}

theorem marksPast_of_ne (h : ∀ target, e.body ≠ .align target) : e.MarksPast :=
  fun target hb => absurd hb (h target)

theorem MarksPast.realign (h : e.MarksPast) (hb : e.body = .align target) (delta : Int) :
    (e.realign target delta).MarksPast := by
  intro target' hb'
  have hbody : (e.realign target delta).body = e.body := by rw [realign_eq]
  obtain rfl : target = target' := by
    rw [hbody, hb] at hb'
    exact Body.align.inj hb'
  refine ⟨by rw [realign_eq], ?_⟩
  unfold Entry.realign
  dsimp only
  split
  next hle =>
    -- An alignment has no fault but this one, so that none is left when it is taken back.
    rw [if_neg (UInt16.not_lt.mpr hle)]
    have hf : (e.moveBy delta).fault = _ := (h target hb).2
    dsimp only
    split
    · rfl
    next hne =>
      rw [hf] at hne ⊢
      split
      next hlt => exact absurd (if_pos hlt) hne
      next => rfl
  next hle => exact (if_pos (UInt16.not_le.mp hle)).symm

theorem Update.marksPast (h : e.Update e') (he : e.MarksPast) : e'.MarksPast := by
  cases h with
  | renew _ hb => exact marksPast_of_ne (Layout.ne_align_of_isVariable hb)
  | move _ ha delta => exact marksPast_of_ne ha
  | realign hb delta => exact he.realign hb delta

theorem Updates.marksPast (h : e.Updates e') (he : e.MarksPast) : e'.MarksPast := by
  induction h with
  | refl => exact he
  | tail _ hu ih => exact hu.marksPast ih

section Padding

variable (hb : e.body = .align target) (ho : e.own = none)
include hb ho

theorem output_of_align (h : e.address ≤ target) :
    e.output = List.replicate (target.toNat - e.address.toNat) 0 := by
  rw [output_of_own ho, hb, Body.output, if_pos h, UInt16.toNat_sub_of_le _ _ h]

theorem output_of_past (h : target < e.address) : e.output = [] := by
  rw [output_of_own ho, hb, Body.output, if_neg (UInt16.not_le.mpr h)]

/-- The padding ends at the target, wherever it starts. -/
theorem stop_of_align (h : e.address ≤ target) : e.stop = target.toNat := by
  have hle : e.address.toNat ≤ target.toNat := UInt16.le_iff_toNat_le.mp h
  rw [stop, ← length_output, output_of_align hb ho h, List.length_replicate]
  omega

theorem behind_of_align (h : e.address ≤ target) : e.behind = target := by
  rw [behind_eq_ofInt_stop, stop_of_align hb ho h, Word.ofInt_natCast, UInt16.ofNat_toNat]

end Padding

end Entry

/-- A plugin has words for the lines that it takes. Only directives make alignments. -/
def Plugin.NoAlignments (plugin : Plugin) : Prop :=
  ∀ c t e, plugin.claim c t = some e → ∀ target, e.body ≠ .align target

theorem Hooks.ne_align_of_claim? {hooks : Hooks} (h : ∀ plugin ∈ hooks.plugins, plugin.NoAlignments)
    {c : LineContext} {t : Text} {p : Text × Entry} (hc : hooks.claim? c t = some p)
    (target : Word) : p.2.body ≠ .align target := by
  obtain ⟨plugin, hm, hp⟩ := List.exists_of_findSome?_eq_some hc
  obtain ⟨e, he, rfl⟩ := Option.map_eq_some_iff.mp hp
  exact h plugin hm c t e he target

namespace Draft

variable {v : Session} {d d' : Draft} {e : Entry}

theorem Emits.marksPast (hh : ∀ plugin ∈ v.hooks.plugins, plugin.NoAlignments)
    (h : Emits v d e) : e.MarksPast := by
  cases h with
  | claimed hc hb =>
    apply Entry.marksPast_of_ne
    rw [hb]
    exact Hooks.ne_align_of_claim? hh hc
  | plain hb =>
    apply Entry.marksPast_of_ne
    intro target ha
    simp [ha, Body.isPlain] at hb
  | align hb hf _ ho =>
    intro target hb'
    obtain rfl := Body.align.inj (hb.symm.trans hb')
    exact ⟨ho, hf⟩
  | instruction hb =>
    apply Entry.marksPast_of_ne
    simp [hb]

theorem marksPast_step (hh : ∀ plugin ∈ v.hooks.plugins, plugin.NoAlignments)
    (h : StepBy (Emits v) d d') (hd : ∀ e ∈ d.entries.toList, e.MarksPast) :
    ∀ e ∈ d'.entries.toList, e.MarksPast := by
  have hne {e : Entry} {b : Body} (hb : e.body = b) (ha : ∀ target, b ≠ .align target)
      (c : Option Caution) : { e with caution := c }.MarksPast := by
    apply Entry.marksPast_of_ne
    rwa [hb]
  cases h with
  | control h =>
    rw [h.entries]
    exact hd
  | mark => exact hd
  | equate => exact hd
  | emit _ hem =>
    have he := hem.marksPast hh
    exact forall_push hd fun _ => he
  | form _ hb => exact forall_push hd (hne hb (by simp))
  | jump hb => exact forall_push hd (hne hb (by simp))
  | label _ _ hb => exact forall_push hd (hne hb (by simp [Body.blank]))
  | anonymous _ _ hb => exact forall_push hd (hne hb (by simp [Body.blank]))

theorem Advances.marksPast (hh : ∀ plugin ∈ v.hooks.plugins, plugin.NoAlignments)
    (h : d.Advances v d') (hd : ∀ e ∈ d.entries.toList, e.MarksPast) :
    ∀ e ∈ d'.entries.toList, e.MarksPast := by
  induction h with
  | refl => exact hd
  | tail _ hs ih => exact marksPast_step hh hs ih

end Draft

/-- What holds of the alignments in a program. -/
structure Aligned (es : List Entry) : Prop where
  filled {k : Nat} {e : Entry} {target : Word} : es[k]? = some e → e.body = .align target →
    e.address ≤ target →
    e.output = List.replicate (target.toNat - e.address.toNat) 0 ∧ e.fault = none ∧
      ∀ f, es[k + 1]? = some f → f.body ≠ .origin → f.address = target
  past {k : Nat} {e : Entry} {target : Word} : es[k]? = some e → e.body = .align target →
    target < e.address → e.output = [] ∧ e.fault = some .alignToPast

theorem Chained.aligned {w : Word} {es fs : List Entry} (h : Chained w es) (hu : Updated es fs)
    (hg : gaps w fs = gaps w es) (hm : ∀ f ∈ fs, f.MarksPast) : Aligned fs where
  filled {k f target} hf hb hle := by
    obtain ⟨ho, hfault⟩ := hm f (List.mem_of_getElem? hf) target hb
    rw [if_neg (UInt16.not_lt.mpr hle)] at hfault
    refine ⟨Entry.output_of_align hb ho hle, hfault, ?_⟩
    intro f' hf' ho'
    -- An alignment takes the room of its words, so that nothing was left behind it.
    obtain ⟨e, he, hef⟩ := hu.get_back hf
    rw [h.address_of_gaps hu hg he hf hf' ho', Entry.limit_of_align hb,
      Entry.limit_of_align (hef.align_of_after hb), UInt16.sub_self, UInt16.add_zero,
      Entry.behind_of_align hb ho hle]
  past {k f target} hf hb hlt := by
    obtain ⟨ho, hfault⟩ := hm f (List.mem_of_getElem? hf) target hb
    rw [if_pos hlt] at hfault
    exact ⟨Entry.output_of_past hb ho hlt, hfault⟩

/-- What is behind an index, if nothing there is changed. -/
theorem filter_map_position {α : Type} (position : α → Nat) {g : α → α} {k : Nat}
    (hg : ∀ x, position (g x) = position x) (h : ∀ x, k < position x → g x = x) (xs : List α) :
    ((xs.map g).filter fun x => k < position x) = xs.filter fun x => k < position x := by
  rw [List.filter_map]
  have hp : ((fun x => decide (k < position x)) ∘ g) = fun x => decide (k < position x) := by
    funext x
    exact congrArg (fun p => decide (k < p)) (hg x)
  rw [hp]
  refine (List.map_congr_left fun x hx => ?_).trans (List.map_id _)
  exact h x (by simpa using (List.mem_filter.mp hx).2)

/-- The entries behind an index and the labels that are bound to them. -/
def Layout.behind (l : Layout) (k : Nat) :
    List Entry × List (Text × Label) × List AnonymousLabel :=
  (l.entries.toList.drop (k + 1),
    l.symbols.labels.filter fun row => k < row.2.position,
    l.symbols.anonymous.filter fun m => k < m.position)

/-- A shift ends at an alignment that is not past its target before or after. -/
theorem shiftEntries_behind_align {es : List Entry} {k : Nat} {e e' : Entry} {target : Word}
    {start index : Nat} {delta : Int} {s : SymbolTable} (he : es[k]? = some e)
    (hb : e.body = .align target) (ho : e.own = none) (hle : e.address ≤ target)
    (he' : (shiftEntries start index delta s es).1[k]? = some e') (hle' : e'.address ≤ target) :
    (shiftEntries start index delta s es).1.drop (k + 1) = es.drop (k + 1) ∧
      ∃ f, (shiftEntries start index delta s es).2 = s.shiftBy f ∧
        ∀ p, index + k ≤ p → f p = 0 := by
  induction es generalizing start index delta s k with
  | nil => simp at he
  | cons g es ih =>
    by_cases hd : delta = 0
    · rw [hd, shiftEntries_zero]
      exact ⟨rfl, _, s.shiftBy_zero.symm, fun _ _ => rfl⟩
    · generalize hout : shiftEntries start index delta s (g :: es) = out at he' ⊢
      unfold shiftEntries at hout
      rw [if_neg hd] at hout
      split at hout
      next =>
        subst hout
        refine ⟨rfl, _, s.shift_eq_shiftBy start index delta, fun p hp => ?_⟩
        exact SymbolTable.window_of_ge (by omega)
      next target' hg =>
        subst hout
        cases k with
        | zero =>
          -- The end of the padding is the target on both sides, so that nothing is left to move.
          obtain rfl : g = e := by simpa using he
          obtain rfl : g.realign target' delta = e' := by simpa using he'
          obtain rfl := Body.align.inj (hg.symm.trans hb)
          have hb' : (g.realign target' delta).body = .align target' := by
            rw [Entry.realign_eq]
            exact hb
          have ho' : (g.realign target' delta).own = none := by rw [Entry.realign_eq]
          have hstop : (g.realign target' delta).stop - g.stop = 0 := by
            rw [Entry.stop_of_align hb ho hle, Entry.stop_of_align hb' ho' hle', Int.sub_self]
          dsimp only
          rw [hstop, shiftEntries_zero]
          refine ⟨rfl, _, s.shift_eq_shiftBy start index delta, fun p hp => ?_⟩
          exact SymbolTable.window_of_ge hp
        | succ k =>
          obtain ⟨hdrop, f, hf, hz⟩ := ih he he'
          refine ⟨hdrop, fun p => SymbolTable.window start index delta p + f p, ?_, ?_⟩
          · rw [← SymbolTable.shiftBy_shiftBy, ← SymbolTable.shift_eq_shiftBy]
            exact hf
          · intro p hp
            dsimp only
            rw [SymbolTable.window_of_ge (by omega), hz p (by omega)]
            rfl
      next _ ha =>
        subst hout
        cases k with
        | zero =>
          obtain rfl : g = e := by simpa using he
          exact absurd hb (ha target)
        | succ k =>
          obtain ⟨hdrop, f, hf, hz⟩ := ih he he'
          exact ⟨hdrop, f, hf, fun p hp => hz p (by omega)⟩

namespace Layout

variable {v : Session} {l l' : Layout} {i k : Nat} {e e' : Entry} {target : Word}

theorem behind_mark {s : SymbolTable} (h : l.symbols.Marked s) :
    ({ l with symbols := s } : Layout).behind k = l.behind k := by
  rw [h.eq_with]
  rfl

theorem replace_behind {old : Entry} (h : l.entries[i]? = some old) (new : Entry) (hk : i < k)
    (he : l.entries[k]? = some e) (hb : e.body = .align target) (ho : e.own = none)
    (hle : e.address ≤ target)
    (he' : (l.replace i old new).entries[k]? = some e') (hle' : e'.address ≤ target) :
    (l.replace i old new).behind k = l.behind k := by
  have hi := length_take_entries h
  obtain ⟨j, rfl⟩ : ∃ j, k = i + 1 + j := ⟨k - (i + 1), by omega⟩
  have hj : i + 1 + j - i = j + 1 := by omega
  have hj' : i + 1 + j + 1 - i = j + 1 + 1 := by omega
  rw [← Array.getElem?_toList, ← List.getElem?_drop] at he
  rw [← Array.getElem?_toList, replace_entries h, List.getElem?_append_right (by omega), hi, hj,
    List.getElem?_cons_succ] at he'
  obtain ⟨hdrop, f, hf, hz⟩ := shiftEntries_behind_align he hb ho hle he' hle'
  have hentries : (l.replace i old new).entries.toList.drop (i + 1 + j + 1) =
      l.entries.toList.drop (i + 1 + j + 1) := by
    rw [replace_entries h, List.drop_append, List.drop_eq_nil_of_le (by omega), hi, hj',
      List.nil_append, List.drop_succ_cons]
    refine hdrop.trans ?_
    rw [List.drop_drop]
    rfl
  have hs : (l.replace i old new).symbols = l.symbols.shiftBy f := (replace_symbols ..).trans hf
  have hstill (p : Nat) (hp : i + 1 + j < p) : f p = 0 := hz p (by omega)
  unfold behind
  rw [hentries, hs]
  congr 2
  · apply filter_map_position (fun row : Text × Label => row.2.position)
    · intro row
      rfl
    · rintro ⟨key, m⟩ hp
      dsimp only
      rw [hstill _ hp]
      simp [Label.moveBy]
  · apply filter_map_position AnonymousLabel.position
    · intro m
      rfl
    · intro m hp
      rw [hstill _ hp]
      simp [AnonymousLabel.moveBy]

/-- Whatever happens to an entry before it, nothing moves behind an alignment that is not past its
target before or after. -/
theorem refreshAt_behind (h : l.refreshAt v i = .ok l') (hk : i < k) (he : l.entries[k]? = some e)
    (hb : e.body = .align target) (ho : e.own = none) (hle : e.address ≤ target)
    (he' : l'.entries[k]? = some e') (hle' : e'.address ≤ target) : l'.behind k = l.behind k := by
  obtain ⟨-, rfl⟩ | ⟨f, -, -, rfl⟩ | ⟨f, new, s, hf, hv, hr, rfl⟩ := refreshAt_cases h
  · rfl
  · rfl
  · obtain ⟨-, -, hm⟩ := Entry.refresh_cases hv hr
    rw [← behind_mark hm]
    exact replace_behind (l := { l with symbols := s }) hf new hk he hb ho hle he' hle'

end Layout

/-- After the last line has been read, after every pass and in the assembly, an alignment fills up to
its target or, past it, has no words and a fault. In the course of a pass its words are those of its
padding, and nothing moves behind one that is not past its target before and after an earlier entry
is brought up to date. -/
theorem layout_aligned (v : Session) (steps : Nat) (file source : Text) (d : Draft)
    (hs : v.symbols.OnlyEquates) (hh : ∀ plugin ∈ v.hooks.plugins, plugin.NoAlignments)
    (hd : (v.start file source).readAll v steps = .ok d) :
    (∀ l, Layout.Passes v d.layout l → Aligned l.entries.toList) ∧
    (∀ a, v.run steps file source = .ok a → Aligned a.entries) ∧
    (∀ l i m, Layout.Passes v d.layout l → l.passTo v i = .ok m →
      ∀ e ∈ m.entries.toList, ∀ target, e.body = .align target → e.own = none) ∧
    ∀ (l l' : Layout) (i k : Nat) (e e' : Entry) (target : Word), l.refreshAt v i = .ok l' →
      i < k → l.entries[k]? = some e → e.body = .align target → e.own = none →
      l'.entries[k]? = some e' → e.address ≤ target → e'.address ≤ target →
      l'.behind k = l.behind k := by
  have hw := Draft.laid_of_readAll hs hd
  have hm : ∀ e ∈ d.entries.toList, e.MarksPast := by
    apply (Draft.readAll_advances hd).marksPast hh
    intro e he
    cases he
  have hm' {es : List Entry} (hu : Updated d.entries.toList es) : ∀ e ∈ es, e.MarksPast :=
    hu.forall_mem (fun _ _ => Entry.Updates.marksPast) hm
  have hl : ∀ l, Layout.Passes v d.layout l → Aligned l.entries.toList := by
    intro l hp
    exact hw.chained.aligned hp.updated (hp.gaps 0) (hm' hp.updated)
  refine ⟨hl, ?_, ?_, ?_⟩
  · intro a ha
    obtain ⟨d', l, hd', hp, he, -, -⟩ := Session.run_passes ha
    obtain rfl : d' = d := Except.ok.inj (hd'.symm.trans hd)
    rw [he]
    exact hl l hp
  · intro l i m hp hto e he target hb
    have hu : Updated d.entries.toList m.entries.toList :=
      hp.updated.trans (Layout.passTo_updated hto)
    exact (hm' hu e he target hb).1
  · intro l l' i k e e' target h hk he hb ho he' hle hle'
    exact Layout.refreshAt_behind h hk he hb ho hle he' hle'

/-- A session in which the line `NOP` has one word. -/
def Session.withNop : Session :=
  { Session.bare with hooks := { plugins := [.forLine "NOP".toList (.words [0]) none] } }

/-- An alignment behind an instruction that becomes shorter, and one that is past its target. -/
def alignedProgram : Text := "NOP\nSET A, end\n.align 4\n:end\n.align 2".toList

theorem layout_aligned_sample :
    ∃ (d : Draft) (l : Layout) (a : Assembly),
      (Session.withNop.start [] alignedProgram).readAll .withNop 6 = .ok d ∧
      d.layout.refreshAt .withNop 1 = .ok l ∧
      d.entries.toList.map Entry.address = [0, 1, 3, 4, 4] ∧
      l.entries.toList.map Entry.address = [0, 1, 2, 4, 4] ∧ l.behind 2 = d.layout.behind 2 ∧
      Session.withNop.run 6 [] alignedProgram = .ok a ∧
      a.entries.map Entry.fault = [none, none, none, none, some .alignToPast] ∧
      Aligned a.entries := by
  obtain ⟨⟨d, l⟩, hdl, hp⟩ := exists_ok
    (x := do
      let d ← (Session.withNop.start [] alignedProgram).readAll .withNop 6
      let l ← d.layout.refreshAt .withNop 1
      return (d, l))
    (p := fun (d, l) => d.entries.toList.map Entry.address == [0, 1, 3, 4, 4] &&
      l.entries.toList.map Entry.address == [0, 1, 2, 4, 4] &&
      d.entries[2]?.any (fun e => e.body == .align 4 && e.own == none && e.address ≤ 4) &&
      l.entries[2]?.any (fun e => e.address ≤ 4))
    (by decide +kernel)
  obtain ⟨a, ha, hfaults⟩ := exists_ok (x := Session.withNop.run 6 [] alignedProgram)
    (p := fun a => a.entries.map Entry.fault == [none, none, none, none, some .alignToPast])
    (by decide +kernel)
  obtain ⟨d', hd, hdl⟩ := bind_eq_ok.mp hdl
  obtain ⟨l', hl, hdl⟩ := bind_eq_ok.mp hdl
  obtain ⟨rfl, rfl⟩ := Prod.mk.inj (pure_eq_ok.mp hdl)
  simp only [Bool.and_eq_true, beq_iff_eq, Option.any_eq_true, decide_eq_true_eq] at hp
  obtain ⟨⟨⟨hda, hla⟩, e, he, ⟨hb, ho⟩, hle⟩, e', he', hle'⟩ := hp
  have hplugins : ∀ plugin ∈ Session.withNop.hooks.plugins, plugin.NoAlignments := by
    intro plugin hm c t e he target
    obtain rfl := List.mem_singleton.mp hm
    simp [(Plugin.forLine_claim he).1]
  obtain ⟨-, haligned, -, hstill⟩ := layout_aligned .withNop 6 [] _ d' ⟨rfl, rfl⟩ hplugins hd
  have hbehind := hstill _ l' 1 2 e e' 4 hl (by decide) he hb ho he' hle hle'
  exact ⟨d', l', a, hd, hl, hda, hla, hbehind, ha, by simpa using hfaults, haligned a ha⟩

end Dcpu
