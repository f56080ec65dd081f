import Dcpu.Grammar.Standard
import Dcpu.Proofs.Matching
import Mathlib.Data.List.Nodup

/-! The word at a register plus a literal. Written either way round, the operand has the same code and
the same literal, whatever plus signs, brackets and quotes the literal has itself. -/
namespace Dcpu
open Pattern Grammar

/-- Spaces and tabs, or nothing. -/
structure Gap where
  text : Text
  spaces : text.all isSpace = true

/-- The gaps of a sum in brackets. -/
structure Spacing where
  before : Gap
  opened : Gap
  left : Gap
  right : Gap
  closed : Gap
  after : Gap

/-- A sum in brackets. -/
def Spacing.sum (g : Spacing) (l r : Text) : Text :=
  g.before.text ++ '[' :: (g.opened.text ++ l ++ g.left.text ++ '+' ::
    (g.right.text ++ r ++ g.closed.text ++ ']' :: g.after.text))

/-- A register in letters of either case. -/
def isRegister (t : Text) : Bool := registers.any fun r => Text.sameFolded t r.2.toList

/-- What stands before the first plus sign of an expression, without spaces and tabs around it. -/
def leadingTerm (e : Text) : Text := Text.stripBy isSpace (e.takeWhile (· != '+'))

namespace Gap

variable {c : Char}

theorem isSpace_of_mem (g : Gap) (h : c ∈ g.text) : isSpace c = true :=
  List.all_eq_true.mp g.spaces c h

theorem isBlank_of_mem (g : Gap) (h : c ∈ g.text) : Text.isBlank c = true :=
  isBlank_of_isSpace (g.isSpace_of_mem h)

theorem ne_of_mem (g : Gap) (h : c ∈ g.text) {p : Char} (hp : isSpace p = false) : c ≠ p := by
  rintro rfl
  rw [g.isSpace_of_mem h] at hp
  cases hp

theorem dropWhile_append (g : Gap) (hc : isSpace c = false) (t : Text) :
    (g.text ++ c :: t).dropWhile isSpace = c :: t := by
  rw [List.dropWhile_append_of_pos fun _ => g.isSpace_of_mem,
    List.dropWhile_cons_of_neg (by simp [hc])]

theorem exists_append_dropWhile (t : Text) : ∃ g : Gap, t = g.text ++ t.dropWhile isSpace :=
  ⟨⟨t.takeWhile isSpace, List.all_takeWhile⟩, List.takeWhile_append_dropWhile.symm⟩

theorem after_text (g : Gap) : Quote.outside.after g.text = .outside := by
  have hw : ∀ c ∈ g.text, isSpace c = true := fun _ => g.isSpace_of_mem
  generalize g.text = w at hw
  induction w with
  | nil => rfl
  | cons c w ih =>
    have hc : Quote.outside.next c = .outside := by
      have h := hw c List.mem_cons_self
      rw [isSpace, Bool.or_eq_true, beq_iff_eq, beq_iff_eq] at h
      rcases h with rfl | rfl <;> rfl
    rw [Quote.after_cons, hc]
    exact ih fun c hc => hw c (List.mem_cons_of_mem _ hc)

end Gap

theorem Spacing.trim_sum (g : Spacing) (l r : Text) :
    Text.trim (g.sum l r) = '[' :: (g.opened.text ++ l ++ g.left.text ++ '+' ::
      (g.right.text ++ r ++ g.closed.text ++ [']'])) := by
  have hsum : g.sum l r = g.before.text ++ ('[' :: (g.opened.text ++ l ++ g.left.text ++ '+' ::
      (g.right.text ++ r ++ g.closed.text ++ [']'])) ++ g.after.text) := by
    simp [sum]
  rw [hsum, Text.trim_eq_stripBy, Text.stripBy_append_left fun _ => g.before.isBlank_of_mem,
    Text.stripBy_append_right _ fun _ => g.after.isBlank_of_mem, ← Text.trim_eq_stripBy]
  refine Text.trim_eq_self (fun c hc => ?_) fun c hc => ?_
  · obtain rfl : '[' = c := Option.some.inj hc
    decide
  · obtain rfl : ']' = c := by simpa [List.getLast?_cons] using hc
    decide

section Pieces

variable {ps : List Piece} {found out : Captures} {c x : Char} {name t u l : Text}

/-- A letter between gaps, before a character that is no letter. -/
theorem matchPieces_letter (g g' : Gap) (hname : name.length = 1) (hx : isSpace x = false)
    (hc : isSpace c = false) :
    matchPieces (.optionalGap :: (name.map .char ++ .optionalGap :: .char c :: ps))
        (g.text ++ [x] ++ g'.text ++ c :: u) found =
      if Text.sameFolded [x] name = true then matchPieces ps u found else none := by
  obtain ⟨p, rfl⟩ := List.length_eq_one_iff.mp hname
  rw [List.append_assoc, List.append_assoc, List.singleton_append, matchPieces,
    g.dropWhile_append hx, List.map_singleton, List.singleton_append, matchPieces, matchPieces,
    g'.dropWhile_append hc, matchPieces, if_pos (beq_self_eq_true _)]
  simp [Text.sameFolded, Text.lower]

theorem exists_of_matchPieces_letter (hname : name.length = 1) (hc : c.isAlpha = false)
    (h : matchPieces (.optionalGap :: (name.map .char ++ .optionalGap :: .char c :: ps)) t found =
      some out) :
    ∃ (g g' : Gap) (x : Char) (u : Text), t = g.text ++ [x] ++ g'.text ++ c :: u ∧
      Text.sameFolded [x] name = true ∧ matchPieces ps u found = some out := by
  obtain ⟨g, hg⟩ := Gap.exists_append_dropWhile t
  rw [matchPieces] at h
  obtain ⟨m, rest, hm, hfold, h⟩ := matchPieces_chars.mp h
  obtain ⟨g', hg'⟩ := Gap.exists_append_dropWhile rest
  rw [matchPieces] at h
  obtain ⟨d, u, hd, hdc, hrest⟩ := matchPieces_char.mp h
  obtain ⟨x, rfl⟩ := List.length_eq_one_iff.mp ((Text.length_of_sameFolded hfold).trans hname)
  have hcl : c.toLower = c := (Text.toLower_eq_iff hc).mpr rfl
  obtain rfl := (Text.toLower_eq_iff hc).mp (hdc.trans hcl)
  refine ⟨g, g', x, u, ?_, hfold, hrest⟩
  rw [hg, hm, hg', hd]
  simp

/-- A literal between gaps is captured up to the last place where the next character can stand. -/
theorem matchPieces_closedLiteral (g g' : Gap) (hl : Text.trim l ≠ [])
    (hclosed : Quote.outside.after l = .outside)
    (hps : ∀ t, captureLength? ps t = lastIndex? c (Text.marked t)) (hc : c ≠ '"' ∧ c ≠ '\'')
    (hu : ∀ d ∈ u, d.toLower ≠ c.toLower) :
    matchPieces (.optionalGap :: .capture '$' .literal :: ps)
        (g.text ++ l ++ g'.text ++ c :: u) found =
      matchPieces ps (c :: u) (found.set .literal (Text.trim l)) := by
  -- What is skipped may be more than `g`, since the literal can start with spaces of its own.
  obtain ⟨w, hw⟩ := Gap.exists_append_dropWhile (g.text ++ l ++ g'.text)
  have htrim := trim_dropWhile_isSpace (g.text ++ l ++ g'.text)
  rw [Text.trim_eq_stripBy (_ ++ _), Text.stripBy_append_right _ fun _ => g'.isBlank_of_mem,
    Text.stripBy_append_left fun _ => g.isBlank_of_mem, ← Text.trim_eq_stripBy] at htrim
  have hafter : Quote.outside.after (g.text ++ l ++ g'.text) = .outside := by
    rw [Quote.after_append, Quote.after_append, g.after_text, hclosed, g'.after_text]
  rw [hw, Quote.after_append, w.after_text] at hafter
  rw [matchPieces, List.dropWhile_append]
  generalize (g.text ++ l ++ g'.text).dropWhile isSpace = m at htrim hafter
  have hm : m.isEmpty = false := by
    rw [List.isEmpty_eq_false_iff]
    rintro rfl
    exact hl htrim.symm
  rw [hm, if_neg (by simp), matchPieces, hps, lastIndex?_of_after hafter hc hu]
  dsimp only
  rw [List.take_left, List.drop_left, htrim, if_neg (by simpa using hl)]

end Pieces

section Terms

variable {t u : Text} {x : Char}

/-- Gaps and what comes after a plus sign do not matter for the first term. -/
theorem leadingTerm_append (g g' : Gap) (t u : Text) :
    leadingTerm (g.text ++ t ++ g'.text ++ '+' :: u) = leadingTerm t := by
  have hgap (g : Gap) : ∀ c ∈ g.text, (c != '+') = true := fun c hc =>
    bne_iff_ne.mpr (g.ne_of_mem hc (by decide))
  rw [leadingTerm, List.append_assoc, List.append_assoc, List.takeWhile_append_of_pos (hgap g),
    Text.stripBy_append_left fun _ => g.isSpace_of_mem, List.takeWhile_append]
  -- Either there is no plus sign in `t`, or what comes after `t` is not looked at.
  split
  next hlen =>
    have hall : t.takeWhile (· != '+') = t :=
      (List.takeWhile_prefix _).eq_of_length hlen
    rw [List.takeWhile_append_of_pos (hgap g'), List.takeWhile_cons_of_neg (by simp),
      List.append_nil, Text.stripBy_append_right _ fun _ => g'.isSpace_of_mem, leadingTerm, hall]
  next => rfl

theorem isRegister_of_mem {r : UInt8 × String} (hr : r ∈ registers)
    (h : Text.sameFolded t r.2.toList = true) : isRegister t = true :=
  List.any_eq_true.mpr ⟨r, hr, h⟩

/-- The characters around a register are none themselves. -/
theorem ne_of_isRegister (h : isRegister [x] = true) {c : Char}
    (hc : ['[', ']', '+', ' ', '\t'].contains c = true) : x ≠ c := by
  rintro rfl
  have hnone : ['[', ']', '+', ' ', '\t'].all (fun c => !isRegister [c]) = true := by decide
  have := List.all_eq_true.mp hnone x (List.contains_iff_mem.mp hc)
  rw [h] at this
  cases this

theorem isSpace_of_isRegister (h : isRegister [x] = true) : isSpace x = false := by
  have hs := ne_of_isRegister h (c := ' ') (by decide)
  have ht := ne_of_isRegister h (c := '\t') (by decide)
  simp [isSpace, hs, ht]

theorem leadingTerm_register (h : isRegister [x] = true) : leadingTerm [x] = [x] := by
  have hp := ne_of_isRegister h (c := '+') (by decide)
  simp [leadingTerm, Text.stripBy, hp, isSpace_of_isRegister h]

end Terms

section Records

variable {r : UInt8 × String} {x : Char} {e t u : Text}

/-- The record of a register in one of the groups. -/
def registerRecord (offset : UInt8) (before after : String) (r : UInt8 × String) : Pattern :=
  ⟨before.toList ++ r.2.toList ++ after.toList, offset + r.1⟩

theorem length_register : ∀ r ∈ registers, r.2.toList.length = 1 := by decide

/-- One letter names one register. -/
theorem eq_of_register {s : UInt8 × String} (hr : r ∈ registers) (hs : s ∈ registers)
    (h : Text.sameFolded t r.2.toList = true) (h' : Text.sameFolded t s.2.toList = true) : r = s := by
  have hnodup : (registers.map fun r => Text.lower r.2.toList).Nodup := by decide
  rw [Text.sameFolded, beq_iff_eq] at h h'
  exact List.inj_on_of_nodup_map hnodup hr hs (h.symm.trans h')

theorem findSome?_register {f : UInt8 × String → Option Match} {m : UInt8 × String → Match}
    (hr : r ∈ registers) (hx : Text.sameFolded [x] r.2.toList = true)
    (hf : ∀ s ∈ registers, f s = if Text.sameFolded [x] s.2.toList = true then some (m s) else none) :
    registers.findSome? f = some (m r) := by
  have hletter {s : UInt8 × String} (hs : s ∈ registers) {n : Match} (h : f s = some n) :
      Text.sameFolded [x] s.2.toList = true := by
    by_contra hn
    rw [hf s hs, if_neg hn] at h
    cases h
  refine (findSome?_eq_some_of_unique ?_).mpr ⟨r, hr, by rw [hf r hr, if_pos hx]⟩
  intro s hs s' hs' n n' h h'
  exact eq_of_register hs hs' (hletter hs h) (hletter hs' h')

theorem match?_register (hr : r ∈ registers) (ht : Text.trim t = '[' :: u) :
    (registerRecord 0 "" "" r).match? t = none := by
  have hpieces : ∀ r ∈ registers, Piece.parse (registerRecord 0 "" "" r).text =
      r.2.toList.map .char ++ [] := by decide
  rw [Pattern.match?, hpieces r hr, ht, Option.map_eq_none_iff, Option.eq_none_iff_forall_ne_some]
  intro out h
  obtain ⟨m, rest, hm, hfold, -⟩ := matchPieces_chars.mp h
  have hlen := (Text.length_of_sameFolded hfold).trans (length_register r hr)
  obtain ⟨x, rfl⟩ := List.length_eq_one_iff.mp hlen
  exact ne_of_isRegister (isRegister_of_mem hr hfold) (by decide) (List.cons.inj hm).1.symm

theorem match?_word (hr : r ∈ registers) (ht : Text.trim t = '[' :: u) (hu : '+' ∈ u) :
    (registerRecord 0x08 "[-" "-]" r).match? t = none := by
  have hpieces : ∀ r ∈ registers, Piece.parse (registerRecord 0x08 "[-" "-]" r).text =
      .char '[' :: .optionalGap :: (r.2.toList.map .char ++ [.optionalGap, .char ']']) := by decide
  rw [Pattern.match?, hpieces r hr, ht, Option.map_eq_none_iff, Option.eq_none_iff_forall_ne_some,
    matchPieces, if_pos (by decide)]
  intro out h
  obtain ⟨g, g', x, v, rfl, hfold, h⟩ :=
    exists_of_matchPieces_letter (length_register r hr) (by decide) h
  obtain ⟨rfl, -⟩ := matchPieces_nil.mp h
  have hx := ne_of_isRegister (isRegister_of_mem hr hfold) (c := '+') (by decide)
  simp only [List.mem_append, List.mem_singleton] at hu
  obtain ((hu | hu) | hu) | hu := hu
  · exact g.ne_of_mem hu (by decide) rfl
  · exact hx hu.symm
  · exact g'.ne_of_mem hu (by decide) rfl
  · cases hu

theorem parse_registerFirst : ∀ r ∈ registers,
    Piece.parse (registerRecord 0x10 "[-" "-+-$a-]" r).text =
      .char '[' :: .optionalGap :: (r.2.toList.map .char ++ .optionalGap :: .char '+' ::
        [.optionalGap, .capture '$' .literal, .optionalGap, .char ']']) := by decide

/-- Of the records with a register first, only the one of the register in the sum applies. The
literal ends at the last free bracket. -/
theorem match?_registerFirst (g : Spacing) (hr : r ∈ registers) (hx : isRegister [x] = true)
    (he : Text.trim e ≠ []) (hclosed : Quote.outside.after e = .outside) :
    (registerRecord 0x10 "[-" "-+-$a-]" r).match? (g.sum [x] e) =
      if Text.sameFolded [x] r.2.toList = true then
        some ⟨registerRecord 0x10 "[-" "-+-$a-]" r, { literal := some (Text.trim e) }⟩
      else none := by
  rw [Pattern.match?, parse_registerFirst r hr, g.trim_sum, matchPieces, if_pos (by decide),
    matchPieces_letter g.opened g.left (length_register r hr) (isSpace_of_isRegister hx) (by decide),
    matchPieces_closedLiteral g.right g.closed he hclosed (fun _ => rfl) (by decide) (by simp)]
  split
  · rfl
  · rfl

/-- With the literal first, it ends at the last free plus sign, which is the one before the
register. -/
theorem match?_literalFirst (g : Spacing) (hr : r ∈ registers) (hx : isRegister [x] = true)
    (he : Text.trim e ≠ []) (hclosed : Quote.outside.after e = .outside) :
    (registerRecord 0x10 "[-$a-+-" "-]" r).match? (g.sum e [x]) =
      if Text.sameFolded [x] r.2.toList = true then
        some ⟨registerRecord 0x10 "[-$a-+-" "-]" r, { literal := some (Text.trim e) }⟩
      else none := by
  have hpieces : ∀ r ∈ registers, Piece.parse (registerRecord 0x10 "[-$a-+-" "-]" r).text =
      .char '[' :: .optionalGap :: .capture '$' .literal :: .optionalGap :: .char '+' ::
        .optionalGap :: (r.2.toList.map .char ++ [.optionalGap, .char ']']) := by decide
  have hlast : ∀ d ∈ g.right.text ++ [x] ++ g.closed.text ++ [']'], d.toLower ≠ '+'.toLower := by
    intro d hd hlow
    obtain rfl := (Text.toLower_eq_iff (by decide)).mp hlow
    simp only [List.mem_append, List.mem_singleton] at hd
    obtain ((hd | hd) | hd) | hd := hd
    · exact g.right.ne_of_mem hd (by decide) rfl
    · exact ne_of_isRegister hx (by decide) hd.symm
    · exact g.closed.ne_of_mem hd (by decide) rfl
    · cases hd
  rw [Pattern.match?, hpieces r hr, g.trim_sum, matchPieces, if_pos (by decide),
    matchPieces_closedLiteral g.opened g.left he hclosed (fun _ => rfl) (by decide) hlast, matchPieces,
    List.dropWhile_cons_of_neg (by decide), matchPieces, if_pos (by decide),
    matchPieces_letter g.right g.closed (length_register r hr) (isSpace_of_isRegister hx) (by decide)]
  split
  · rfl
  · rfl

/-- A sum whose first term is no register is not taken for one that starts with a register. -/
theorem match?_registerFirst_none (g : Spacing) (hr : r ∈ registers)
    (he : isRegister (leadingTerm e) = false) :
    (registerRecord 0x10 "[-" "-+-$a-]" r).match? (g.sum e u) = none := by
  rw [Pattern.match?, parse_registerFirst r hr, g.trim_sum, Option.map_eq_none_iff,
    Option.eq_none_iff_forall_ne_some, matchPieces, if_pos (by decide)]
  intro out h
  obtain ⟨w, w', x, v, hsum, hfold, -⟩ :=
    exists_of_matchPieces_letter (length_register r hr) (by decide) h
  have hx := isRegister_of_mem hr hfold
  have hterm := congrArg leadingTerm hsum
  rw [leadingTerm_append, leadingTerm_append, leadingTerm_register hx] at hterm
  rw [hterm, hx] at he
  cases he

/-- For a sum in brackets, only the two groups of records with a sum matter. -/
theorem match?_value_sum (g : Spacing) (l u : Text) :
    standard.match? .value (g.sum l u) =
      ((registers.findSome? fun r => (registerRecord 0x10 "[-" "-+-$a-]" r).match? (g.sum l u)).or
        (registers.findSome? fun r =>
          (registerRecord 0x10 "[-$a-+-" "-]" r).match? (g.sum l u))).or
      ((patterns 0 "" "" specialValues).findSome? fun p => p.match? (g.sum l u)) := by
  have hword : registers.findSome? (fun r => (registerRecord 0x08 "[-" "-]" r).match? (g.sum l u)) =
      none := List.findSome?_eq_none_iff.mpr fun r hr =>
    match?_word hr (g.trim_sum l u) (by simp)
  have hletter : registers.findSome? (fun r => (registerRecord 0 "" "" r).match? (g.sum l u)) =
      none := List.findSome?_eq_none_iff.mpr fun r hr => match?_register hr (g.trim_sum l u)
  have hgroup (offset : UInt8) (before after : String) :
      (patterns offset before after registers).findSome? (fun p => p.match? (g.sum l u)) =
        registers.findSome? fun r => (registerRecord offset before after r).match? (g.sum l u) := by
    rw [patterns, List.findSome?_map]
    rfl
  rw [Grammar.match?, table, standard, List.findSome?_append, List.findSome?_append,
    List.findSome?_append, List.findSome?_append, hgroup, hgroup, hgroup, hgroup, hletter, hword,
    Option.none_or, Option.none_or]

end Records

/-- Both indexed forms are the same operand. An expression that is not blank, whose literals are
closed and which does not start with a register and a plus sign can stand on either side of the
register, with gaps around everything. -/
theorem indexed_forms (g g' : Spacing) {r : UInt8 × String} {x : Char} {e : Text}
    (hr : r ∈ registers) (hx : Text.sameFolded [x] r.2.toList = true) (he : Text.trim e ≠ [])
    (hclosed : Quote.outside.after e = .outside) (hfirst : isRegister (leadingTerm e) = false) :
    (standard.match? .value (g.sum e [x])).map Match.reading =
        some (0x10 + r.1, { literal := some (Text.trim e) }) ∧
      (standard.match? .value (g'.sum [x] e)).map Match.reading =
        some (0x10 + r.1, { literal := some (Text.trim e) }) := by
  have hxr := isRegister_of_mem hr hx
  constructor
  · have hnone : registers.findSome? (fun r =>
        (registerRecord 0x10 "[-" "-+-$a-]" r).match? (g.sum e [x])) = none :=
      List.findSome?_eq_none_iff.mpr fun r hr => match?_registerFirst_none g hr hfirst
    rw [match?_value_sum, hnone, Option.none_or, findSome?_register hr hx fun s hs =>
      match?_literalFirst g hs hxr he hclosed]
    rfl
  · rw [match?_value_sum, findSome?_register hr hx fun s hs =>
      match?_registerFirst g' hs hxr he hclosed]
    rfl

/-- Plus signs and brackets in the expression, free and quoted. -/
theorem indexed_forms_quoted :
    Text.trim "tab+'+]'+[1]".toList ≠ [] ∧
    Quote.outside.after "tab+'+]'+[1]".toList = .outside ∧
    isRegister (leadingTerm "tab+'+]'+[1]".toList) = false ∧
    (standard.match? .value " [\ttab+'+]'+[1]+ x] ".toList).map Match.reading =
      some (0x13, { literal := some "tab+'+]'+[1]".toList }) ∧
    (standard.match? .value "[ X + tab+'+]'+[1]]".toList).map Match.reading =
      some (0x13, { literal := some "tab+'+]'+[1]".toList }) := by
  have hterm : Text.trim "tab+'+]'+[1]".toList ≠ [] := by decide
  have hclosed : Quote.outside.after "tab+'+]'+[1]".toList = .outside := by decide
  have hfirst : isRegister (leadingTerm "tab+'+]'+[1]".toList) = false := by decide
  let none : Gap := ⟨[], rfl⟩
  let space : Gap := ⟨[' '], rfl⟩
  let wide : Spacing := ⟨space, ⟨['\t'], rfl⟩, none, space, none, space⟩
  let narrow : Spacing := ⟨none, space, space, space, none, none⟩
  have hx : ((3, "X") : UInt8 × String) ∈ registers := by decide
  exact ⟨hterm, hclosed, hfirst,
    (indexed_forms wide wide hx (x := 'x') (by decide) hterm hclosed hfirst).1,
    (indexed_forms narrow narrow hx (x := 'X') (by decide) hterm hclosed hfirst).2⟩

end Dcpu
