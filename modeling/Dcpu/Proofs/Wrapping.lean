import Dcpu.Proofs.Alignment
import Dcpu.Proofs.Variants

/-! Output that runs past the end of memory. Whether an entry wraps is decided when it is added to
the draft and never again, so the caution tells about the addresses and lengths of that time. It
tells about the final layout too where no instruction since the last origin has become shorter. -/
namespace Dcpu
open Answer

namespace Entry

/-- Nothing but the end of memory is doubtful about an entry. -/
def NoOtherCaution (e : Entry) : Prop := ∀ c, e.caution = some c → c = .addressWrap

/-- The words of an entry run past the end of memory. -/
def Wraps (e : Entry) : Prop := Word.count < e.address.toNat + e.output.length

instance (e : Entry) : Decidable e.Wraps := inferInstanceAs (Decidable (_ < _))

/-- An entry has the caution exactly if it wraps, unless another caution keeps the place. -/
def MarksWrap (e : Entry) : Prop :=
  e.NoOtherCaution → (e.caution = some .addressWrap ↔ e.Wraps)

variable {e e' : Entry}

theorem wraps_iff : e.Wraps ↔ Word.count < e.address.toNat + e.length := by
  rw [Wraps, length_output]

/-- What a draft makes of an entry that it adds. -/
theorem marksWrap_addCaution (h : Word.count < e.address.toNat + e.length)
    (hc : e.caution ≠ some .addressWrap) : (e.addCaution .addressWrap).MarksWrap := by
  intro hother
  cases he : e.caution with
  | none =>
    have hw : (e.addCaution .addressWrap).Wraps := wraps_iff.mpr h
    have hmark : (e.addCaution .addressWrap).caution = some .addressWrap := by
      simp [addCaution, he]
    exact iff_of_true hmark hw
  | some c =>
    have hkept : (e.addCaution .addressWrap).caution = some c := by simp [addCaution, he]
    rw [he, hother c hkept] at hc
    exact absurd rfl hc

theorem marksWrap_of_not_lt (h : ¬Word.count < e.address.toNat + e.length)
    (hc : e.caution ≠ some .addressWrap) : e.MarksWrap := by
  intro _
  have hw : ¬e.Wraps := mt wraps_iff.mp h
  exact iff_of_false hc hw

end Entry

namespace Body

variable {b b' : Body}

theorem length_skeleton (hi : ∀ i, b ≠ .instruction i) (w : Word) :
    b.skeleton.length w = b.length w := by
  cases b with
  | instruction i => exact absurd rfl (hi i)
  | data cells => simp [skeleton, length, output]
  | _ => rfl

theorem skeleton_ne_instruction (h : b'.skeleton = b.skeleton) (hi : ∀ i, b ≠ .instruction i)
    (i : Instruction) : b' ≠ .instruction i := by
  rintro rfl
  cases b with
  | instruction j => exact hi j rfl
  | _ => cases h

end Body

/-- At the same address only an instruction, or an entry with words of its own, can have another
length or take another room. -/
theorem Entry.Variant.lengths_eq {e e' : Entry} (h : e.Variant e') (hu : e.Updates e')
    (ha : e'.address = e.address)
    (hk : (e.own ≠ none ∨ ∃ i, e.body = .instruction i) →
      e'.output.length = e.output.length ∧ e'.room = e.room) :
    e'.output.length = e.output.length ∧ e'.room = e.room := by
  by_cases hb : e.own ≠ none ∨ ∃ i, e.body = .instruction i
  · exact hk hb
  · obtain ⟨ho, hb⟩ := not_or.mp hb
    have ho : e.own = none := not_not.mp ho
    have ho' : e'.own = none := hu.own_eq_none ho
    have hb : ∀ i, e.body ≠ .instruction i := fun i hi => hb ⟨i, hi⟩
    have hb' := Body.skeleton_ne_instruction h.body hb
    have hlength : e'.length = e.length :=
      calc e'.length = e'.body.length e'.address := length_of_own ho'
        _ = e'.body.skeleton.length e.address := by rw [Body.length_skeleton hb', ha]
        _ = e.body.length e.address := by rw [h.body, Body.length_skeleton hb]
        _ = e.length := (length_of_own ho).symm
    rw [length_output, length_output, room_of_own ho', room_of_own ho]
    exact ⟨hlength, hlength⟩

/-- A plugin knows nothing of addresses that wrap. -/
def Plugin.NoWraps (plugin : Plugin) : Prop :=
  ∀ c t e, plugin.claim c t = some e → e.caution ≠ some .addressWrap

namespace Draft

variable {v : Session} {d d' : Draft} {e : Entry}

theorem Emits.caution_ne (hh : ∀ plugin ∈ v.hooks.plugins, plugin.NoWraps) (h : Emits v d e) :
    e.caution ≠ some .addressWrap := by
  cases h with
  | claimed hc _ hcaution =>
    obtain ⟨plugin, hm, hp⟩ := List.exists_of_findSome?_eq_some hc
    obtain ⟨e', he', rfl⟩ := Option.map_eq_some_iff.mp hp
    rw [hcaution]
    exact hh plugin hm _ _ e' he'
  | plain _ hc => simp [hc]
  | align _ _ hc => simp [hc]
  | instruction _ _ _ _ hc => exact hc

/-- The entries of a draft have the caution exactly if they wrap. -/
def MarksWraps (d : Draft) : Prop := ∀ e ∈ d.entries.toList, e.MarksWrap

theorem MarksWraps.push (h : d.MarksWraps) (ha : e.address = d.address)
    (hc : e.caution ≠ some .addressWrap) : (d.push e).MarksWraps := by
  intro x hx
  unfold Draft.push at hx
  simp only [Array.toList_push, List.mem_append, List.mem_singleton] at hx
  rcases hx with hx | rfl
  · exact h x hx
  · rw [← ha]
    split
    next hlt => exact Entry.marksWrap_addCaution hlt hc
    next hle => exact Entry.marksWrap_of_not_lt hle hc

theorem MarksWraps.step (hh : ∀ plugin ∈ v.hooks.plugins, plugin.NoWraps)
    (h : StepBy (Emits v) d d') (hd : d.MarksWraps) : d'.MarksWraps := by
  cases h with
  | control h =>
    intro e he
    rw [h.entries] at he
    exact hd e he
  | mark => exact hd
  | equate => exact hd
  | emit ha hem => exact hd.push ha (hem.caution_ne hh)
  | @form e long ha _ hc =>
    have hd' : ({ d with longForm := long } : Draft).MarksWraps := hd
    exact hd'.push ha (by simp [hc])
  | @jump e _ hc =>
    have hd' : ({ d with address := e.address } : Draft).MarksWraps := hd
    exact hd'.push rfl (by simp [hc])
  | @label _ _ s e _ ha _ hc =>
    have hd' : ({ d with symbols := s } : Draft).MarksWraps := hd
    exact hd'.push ha (by simp [hc])
  | @anonymous feed e _ ha _ hc =>
    have hd' : ({ d with
        feed := feed
        symbols := d.symbols.defineAnonymous feed.root d.address d.entries.size } :
        Draft).MarksWraps := hd
    exact hd'.push ha (by simp [hc])

theorem Advances.marksWraps (hh : ∀ plugin ∈ v.hooks.plugins, plugin.NoWraps)
    (h : d.Advances v d') (hd : d.MarksWraps) : d'.MarksWraps := by
  induction h with
  | refl => exact hd
  | tail _ hs ih => exact ih.step hh hs

end Draft

theorem Layout.Passes.variants {v : Session} {l l' : Layout} (h : Passes v l l') :
    List.Forall₂ Entry.Variant l.entries.toList l'.entries.toList := by
  apply h.keeps (P := fun es _ => List.Forall₂ Entry.Variant l.entries.toList es.toList)
  · intro m i m' hr hm
    have hstep := refreshAt_forall₂ Entry.variant_shiftClosed hr fun _ _ _ _ hv hr =>
      Entry.refresh_variant hv hr
    exact forall₂_trans (fun _ _ _ hv hv' => hv.trans hv') hm hstep
  · exact List.forall₂_same.mpr fun e _ => Entry.variant_shiftClosed.refl e

/-- From the last origin or the start of memory up to the entry `k`, all instructions and all entries
with words of their own have kept the number of their words, and the room that they take. For an
instruction without words of its own the two are the same number. -/
def KeepsLengths (es es' : List Entry) (k : Nat) : Prop :=
  ∃ i ≤ k, (i = 0 ∨ ∃ o, es[i]? = some o ∧ o.body = .origin) ∧
    ∀ j e e', i ≤ j → j ≤ k → es[j]? = some e → es'[j]? = some e' →
      (e.own ≠ none ∨ ∃ instruction, e.body = .instruction instruction) →
        e'.output.length = e.output.length ∧ e'.room = e.room

section KeepsLengths

variable {w : Word} {es es' : List Entry} {k : Nat} {e e' : Entry}

/-- Two layouts of a program agree up to an entry if lengths have been kept. -/
theorem KeepsLengths.address_eq (hu : Updated es es') (hv : List.Forall₂ Entry.Variant es es')
    (hg : gaps w es' = gaps w es) (hk : KeepsLengths es es' k) (he : es[k]? = some e)
    (he' : es'[k]? = some e') : e'.address = e.address := by
  obtain ⟨i, hik, hi, hlen⟩ := hk
  have variant (j : Nat) (f f' : Entry) (hf : es[j]? = some f) (hf' : es'[j]? = some f') :
      f.Variant f' ∧ f.Updates f' := by
    obtain ⟨g, hg, hfg⟩ := exists_getElem?_of_forall₂ hv hf
    obtain ⟨g', hg', hfg'⟩ := hu.get hf
    rw [Option.some.inj (hf'.symm.trans hg)]
    exact ⟨hfg, Option.some.inj (hg.symm.trans hg') ▸ hfg'⟩
  -- By induction from the origin on: the addresses agree, then the room, then what follows.
  obtain ⟨n, rfl⟩ : ∃ n, k = i + n := ⟨k - i, by omega⟩
  induction n generalizing e e' with
  | zero =>
    have hvar := (variant i e e' he he').1
    by_cases ho : e.body = .origin
    · exact hvar.origin ho
    · obtain rfl | ⟨o, hoi, ho'⟩ := hi
      · have hgap := getElem?_gaps_zero (w := w) he'
        rw [hg, getElem?_gaps_zero he, if_neg ho, if_neg (mt hvar.origin_iff.mp ho)] at hgap
        have heq : e.address - w = e'.address - w := by simpa using hgap
        grind
      · rw [Option.some.inj (he.symm.trans hoi)] at ho
        exact absurd ho' ho
  | succ n ih =>
    have hvar := (variant _ e e' he he').1
    by_cases ho : e.body = .origin
    · exact hvar.origin ho
    · have hbound : i + n < es.length := by
        have := (List.getElem?_eq_some_iff.mp he).1
        omega
      obtain ⟨f, hf⟩ : ∃ f, es[i + n]? = some f := ⟨_, List.getElem?_eq_getElem hbound⟩
      obtain ⟨f', hf', hfu⟩ := hu.get hf
      have haddr : f'.address = f.address :=
        ih hf hf' (by omega) fun j a a' hij hjn => hlen j a a' hij (by omega)
      have hroom : f'.room = f.room :=
        ((variant _ f f' hf hf').1.lengths_eq hfu haddr
          (hlen (i + n) f f' (by omega) (by omega) hf hf')).2
      have hlimit : f'.limit = f.limit := by rw [Entry.limit, Entry.limit, haddr, hroom]
      have hgap := getElem?_gaps_succ (w := w) hf' he'
      rw [hg, getElem?_gaps_succ hf he, if_neg ho, if_neg (mt hvar.origin_iff.mp ho), hlimit]
        at hgap
      have heq : e.address - f.limit = e'.address - f.limit := by simpa using hgap
      grind

end KeepsLengths

/-- In an assembly, an entry about which nothing else is doubtful has the caution exactly if it
wrapped when its line was read. If the instructions since the last origin, and the entries with words
of their own, have kept their lengths, it has the caution exactly if it wraps now. -/
theorem addressWrap_iff {v : Session} {steps : Nat} {file source : Text} {a : Assembly}
    (hh : ∀ plugin ∈ v.hooks.plugins, plugin.NoWraps)
    (ha : v.run steps file source = .ok a) :
    ∃ d, (v.start file source).readAll v steps = .ok d ∧
      ∀ (k : Nat) (e : Entry), a.entries[k]? = some e → e.NoOtherCaution →
        (∃ e₀, d.entries[k]? = some e₀ ∧ e₀.code = e.code ∧
          (e.caution = some .addressWrap ↔ e₀.Wraps)) ∧
        (KeepsLengths d.entries.toList a.entries k →
          (e.caution = some .addressWrap ↔ e.Wraps)) := by
  obtain ⟨d, l, hd, hp, hentries, -, -⟩ := Session.run_passes ha
  have hmarks : d.MarksWraps := by
    apply (Draft.readAll_advances hd).marksWraps hh
    intro e he
    cases he
  refine ⟨d, hd, ?_⟩
  rw [hentries]
  intro k e he hother
  have hv := Layout.Passes.variants hp
  obtain ⟨e₀, he₀, hvar⟩ := exists_getElem?_of_forall₂ hv.flip he
  have he₀' : d.entries.toList[k]? = some e₀ := he₀
  have hcaution : e.caution = e₀.caution := by
    have hc : e.skeleton.caution = e₀.skeleton.caution := congrArg Entry.caution hvar.skeleton
    exact hc
  have hcode : e.code = e₀.code := by
    have hc : e.skeleton.code = e₀.skeleton.code := congrArg Entry.code hvar.skeleton
    exact hc
  have hiff : e.caution = some .addressWrap ↔ e₀.Wraps := by
    rw [Entry.NoOtherCaution, hcaution] at hother
    rw [hcaution]
    exact hmarks e₀ (List.mem_of_getElem? he₀') hother
  constructor
  · exact ⟨e₀, by simpa using he₀', hcode.symm, hiff⟩
  · intro hkeeps
    have haddr : e.address = e₀.address :=
      hkeeps.address_eq hp.updated hv (hp.gaps 0) he₀' he
    have hlength : e.output.length = e₀.output.length := by
      obtain ⟨e₁, he₁, hu⟩ := hp.updated.get_back he
      obtain rfl := Option.some.inj (he₀'.symm.trans he₁)
      obtain ⟨i, hik, -, hlen⟩ := hkeeps
      exact (hvar.lengths_eq hu haddr (hlen k e₀ e hik (by omega) he₀' he)).1
    rw [hiff, Entry.Wraps, Entry.Wraps, haddr, hlength]

/-- An instruction that becomes shorter, and data at the end of memory behind an origin. -/
def wrappedProgram : Text := "SET A, five\n.org 0xFFFF\nDAT 1, 2\nDAT 3\n.equ five 5".toList

theorem addressWrap_iff_sample :
    ∃ (d : Draft) (a : Assembly) (e f : Entry),
      (Session.withNop.start [] wrappedProgram).readAll .withNop 9 = .ok d ∧
      Session.withNop.run 9 [] wrappedProgram = .ok a ∧
      (∀ k, 1 ≤ k → KeepsLengths d.entries.toList a.entries k) ∧
      a.entries[2]? = some e ∧ e.NoOtherCaution ∧ e.caution = some .addressWrap ∧ e.Wraps ∧
      a.entries[3]? = some f ∧ f.NoOtherCaution ∧ f.caution = none ∧ ¬f.Wraps := by
  obtain ⟨d, hd, hdp⟩ := exists_ok
    (x := (Session.withNop.start [] wrappedProgram).readAll .withNop 9)
    (p := fun d => d.entries[1]?.any (fun o => o.body == .origin) &&
      (d.entries.toList.drop 1).all fun e => e.own.isNone && !e.body.isVariable)
    (by decide +kernel)
  obtain ⟨a, ha, hap⟩ := exists_ok (x := Session.withNop.run 9 [] wrappedProgram)
    (p := fun a => a.entries[2]?.any (fun e => e.caution == some .addressWrap) &&
      a.entries[3]?.any fun f => f.caution == none)
    (by decide +kernel)
  simp only [Bool.and_eq_true, Option.any_eq_true, beq_iff_eq] at hdp hap
  obtain ⟨⟨o, ho, horigin⟩, hrest⟩ := hdp
  obtain ⟨⟨e, he, hec⟩, f, hf, hfc⟩ := hap
  have hkeeps : ∀ k, 1 ≤ k → KeepsLengths d.entries.toList a.entries k := by
    intro k hk
    refine ⟨1, hk, .inr ⟨o, by simpa using ho, horigin⟩, ?_⟩
    intro j x x' hj _ hx _ hi
    have hm : x ∈ d.entries.toList.drop 1 := by
      apply List.mem_of_getElem? (i := j - 1)
      rw [List.getElem?_drop, Nat.add_sub_cancel' hj]
      exact hx
    have hx := List.all_eq_true.mp hrest x hm
    rw [Bool.and_eq_true, Option.isNone_iff_eq_none] at hx
    obtain ho | ⟨i, hi⟩ := hi
    · exact absurd hx.1 ho
    · simp [hi, Body.isVariable] at hx
  have hplugins : ∀ plugin ∈ Session.withNop.hooks.plugins, plugin.NoWraps := by
    intro plugin hm
    obtain rfl := List.mem_singleton.mp hm
    intro c t e he
    simp [(Plugin.forLine_claim he).2.2]
  have hother : e.NoOtherCaution ∧ f.NoOtherCaution := by
    simp [Entry.NoOtherCaution, hec, hfc]
  obtain ⟨d', hd', hiff⟩ := addressWrap_iff hplugins ha
  obtain rfl := Except.ok.inj (hd'.symm.trans hd)
  have hewraps := ((hiff 2 e he hother.1).2 (hkeeps 2 (by omega))).mp hec
  have hfwraps := mt ((hiff 3 f hf hother.2).2 (hkeeps 3 (by omega))).mpr (by simp [hfc])
  exact ⟨d', a, e, f, hd, ha, hkeeps, he, hother.1, hec, hewraps, hf, hother.2, hfc, hfwraps⟩

/-- At a fixed point an entry can have the caution although it fits, because it has become shorter,
and an entry can wrap without the caution, because what is before it has become shorter. -/
theorem addressWrap_not_final :
    (∃ (a : Assembly) (e : Entry),
      Session.bare.run 9 [] ".org 0xFFFF\nSET A, five\n.equ five 5".toList = .ok a ∧
      a.fixedPoint = true ∧ a.entries[1]? = some e ∧ e.caution = some .addressWrap ∧ ¬e.Wraps) ∧
    ∃ (a : Assembly) (e : Entry),
      Session.bare.run 9 [] ".org 0xFFFE\nSET A, five\n.dat 1, 2\n.equ five 5".toList = .ok a ∧
      a.fixedPoint = true ∧ a.entries[2]? = some e ∧ e.caution = none ∧ e.Wraps := by
  constructor
  · obtain ⟨a, ha, hp⟩ := exists_ok
      (x := Session.bare.run 9 [] ".org 0xFFFF\nSET A, five\n.equ five 5".toList)
      (p := fun a => a.fixedPoint && a.entries[1]?.any fun e : Entry =>
        e.caution == some .addressWrap && !decide e.Wraps)
      (by decide +kernel)
    simp only [Bool.and_eq_true, Option.any_eq_true, beq_iff_eq, Bool.not_eq_true',
      decide_eq_false_iff_not] at hp
    obtain ⟨hfix, e, he, hc, hw⟩ := hp
    exact ⟨a, e, ha, hfix, he, hc, hw⟩
  · obtain ⟨a, ha, hp⟩ := exists_ok
      (x := Session.bare.run 9 [] ".org 0xFFFE\nSET A, five\n.dat 1, 2\n.equ five 5".toList)
      (p := fun a => a.fixedPoint && a.entries[2]?.any fun e : Entry =>
        e.caution == none && decide e.Wraps)
      (by decide +kernel)
    simp only [Bool.and_eq_true, Option.any_eq_true, beq_iff_eq, decide_eq_true_eq] at hp
    obtain ⟨hfix, e, he, hc, hw⟩ := hp
    exact ⟨a, e, ha, hfix, he, hc, hw⟩

end Dcpu
