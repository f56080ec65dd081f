import Dcpu.Proofs.Lookup
import Dcpu.Proofs.Recursion

/-! The case of letters in expressions. Neither scans nor operators look at letters, so a text and
the same text in lower case are taken apart in the same way. What is left are numbers, names and the
arguments of functions, and each of them is read without regard to case. -/
namespace Dcpu

namespace Text

variable {c x : Char}

theorem isBlank_toLower (c : Char) : isBlank c.toLower = isBlank c := by
  rcases toLower_cases c with ⟨-, h⟩ | ⟨ha, -, -⟩
  · rw [h]
  · have hw : isWordChar c = true := by
      simp [isWordChar, Expr.Group.isNameChar, Char.isAlphanum, ha]
    rw [isBlank_of_isWordChar hw, isBlank_of_isWordChar ((isWordChar_toLower c).trans hw)]

theorem lower_append (s t : Text) : lower (s ++ t) = lower s ++ lower t := List.map_append

theorem trimStart_lower (t : Text) : trimStart (lower t) = lower (trimStart t) := by
  have hb : isBlank ∘ Char.toLower = isBlank := funext isBlank_toLower
  rw [trimStart, lower, List.dropWhile_map, hb]
  rfl

theorem trimEnd_lower (t : Text) : trimEnd (lower t) = lower (trimEnd t) := by
  have hr : (lower t).reverse = lower t.reverse := List.map_reverse.symm
  have hs : (lower t.reverse).dropWhile isBlank = lower (t.reverse.dropWhile isBlank) :=
    trimStart_lower t.reverse
  rw [trimEnd, hr, hs]
  exact List.map_reverse.symm

theorem trim_lower (t : Text) : trim (lower t) = lower (trim t) := by
  rw [trim, trimStart_lower, trimEnd_lower]
  rfl

end Text

namespace Quote

variable (q : Quote) (c : Char)

theorem next_toLower : q.next c.toLower = q.next c := by
  have hs : c.toLower = '"' ↔ c = '"' := Text.toLower_eq_iff (by decide)
  have hc : c.toLower = '\'' ↔ c = '\'' := Text.toLower_eq_iff (by decide)
  have hb : c.toLower = '\\' ↔ c = '\\' := Text.toLower_eq_iff (by decide)
  cases q with
  | outside => exact if_congr hs rfl (if_congr hc rfl rfl)
  | inside d escaped =>
    cases escaped with
    | true => rfl
    | false =>
      cases d with
      | string => exact if_congr hb rfl (if_congr hs rfl rfl)
      | char => exact if_congr hb rfl (if_congr hc rfl rfl)

theorem isFree_toLower : q.isFree c.toLower = q.isFree c := by
  have hs : c.toLower = '"' ↔ c = '"' := Text.toLower_eq_iff (by decide)
  have hc : c.toLower = '\'' ↔ c = '\'' := Text.toLower_eq_iff (by decide)
  cases q with
  | outside =>
    exact congrArg₂ and (decide_eq_decide.mpr (not_congr hs)) (decide_eq_decide.mpr (not_congr hc))
  | inside => rfl

end Quote

/-- The same mark on the letter in lower case. -/
def Mark.lower (m : Mark) : Mark := { m with char := m.char.toLower }

theorem Mark.isOpenly_lower (m : Mark) {x : Char} (hx : x.isAlpha = false) :
    m.lower.isOpenly x = m.isOpenly x := by
  rw [isOpenly, isOpenly, lower, Text.toLower_beq hx]

theorem Text.markedFrom_lower (q : Quote) (t : Text) :
    markedFrom q (lower t) = (markedFrom q t).map Mark.lower := by
  induction t generalizing q with
  | nil => rfl
  | cons c t ih =>
    have h : lower (c :: t) = c.toLower :: lower t := rfl
    rw [h, markedFrom, markedFrom, List.map_cons, Quote.isFree_toLower, Quote.next_toLower, ih]
    rfl

theorem Text.marked_lower (t : Text) : marked (lower t) = (marked t).map Mark.lower :=
  markedFrom_lower .outside t

theorem Text.unmarked_lower (ms : List Mark) :
    unmarked (ms.map Mark.lower) = lower (unmarked ms) := by
  rw [unmarked, unmarked, lower, List.map_map, List.map_map]
  rfl

/-- The result of a function does not depend on the case of letters in its argument. -/
def Function.IgnoresCase (f : Function) : Prop :=
  ∀ a b s, Text.lower a = Text.lower b → f a s = f b s

theorem Function.isReferenced_ignoresCase : isReferenced.IgnoresCase := by
  intro a b s h
  simp only [isReferenced, SymbolTable.isReferenced, h]

theorem Hooks.ignoresCase_of_function? {hooks : Hooks}
    (h : ∀ f ∈ hooks.functions, f.2.IgnoresCase) {name : Text} {f : Function}
    (hf : hooks.function? name = some f) : f.IgnoresCase :=
  h _ (SymbolTable.mem_of_lookup hf)

namespace Expr

theorem bracesAfter_lower (braces : Nat) (m : Mark) :
    bracesAfter braces m.lower = bracesAfter braces m := by
  rw [bracesAfter, bracesAfter, m.isOpenly_lower (by decide), m.isOpenly_lower (by decide)]

section Groups

theorem openGroup_lower (braces : Nat) (ms : List Mark) :
    openGroup braces (ms.map Mark.lower) =
      (openGroup braces ms).map fun r => (Text.lower r.1, r.2.map Mark.lower) := by
  induction ms generalizing braces with
  | nil => rfl
  | cons m ms ih =>
    rw [List.map_cons, openGroup, openGroup, m.isOpenly_lower (by decide), bracesAfter_lower, ih]
    split
    · rfl
    · rw [Option.map_map, Option.map_map]
      rfl

theorem closeGroup_lower (depth braces : Nat) (ms : List Mark) :
    closeGroup depth braces (ms.map Mark.lower) =
      (closeGroup depth braces ms).map (Prod.map Text.lower Text.lower) := by
  have keep (m : Mark) (r : Option (Text × Text)) :
      (r.map (Prod.map Text.lower Text.lower)).map (fun f => (m.lower.char :: f.1, f.2)) =
        (r.map fun f => (m.char :: f.1, f.2)).map (Prod.map Text.lower Text.lower) := by
    rw [Option.map_map, Option.map_map]
    rfl
  induction ms generalizing depth braces with
  | nil => rfl
  | cons m ms ih =>
    rw [List.map_cons]
    unfold closeGroup
    rw [m.isOpenly_lower (by decide), m.isOpenly_lower (by decide), bracesAfter_lower]
    dsimp only
    split
    · cases depth with
      | zero => simp [Text.unmarked_lower, Text.lower]
      | succ depth =>
        dsimp only
        rw [ih, keep]
    · split
      · rw [ih, keep]
      · rw [ih, keep]

/-- The same group in lower case. -/
def Group.lower (g : Group) : Group := ⟨Text.lower g.before, Text.lower g.inner, Text.lower g.after⟩

theorem group?_lower (e : Text) : group? (Text.lower e) = (group? e).map Group.lower := by
  unfold group?
  rw [Text.marked_lower, openGroup_lower]
  cases openGroup 0 (Text.marked e) with
  | none => rfl
  | some r =>
    simp only [Option.map_some, Option.bind_eq_bind, Option.bind_some]
    rw [closeGroup_lower]
    cases closeGroup 0 0 r.2 <;> rfl

namespace Group

theorem isNameChar_toLower (c : Char) : isNameChar c.toLower = isNameChar c := by
  rcases Text.toLower_cases c with ⟨-, h⟩ | ⟨ha, -, hl⟩
  · rw [h]
  · simp [isNameChar, Char.isAlphanum, ha, hl]

/-- The parts of a group before the parenthesis. -/
theorem name_lower (g : Group) : g.lower.name = Text.lower g.name := by
  have hn : isNameChar ∘ Char.toLower = isNameChar := funext isNameChar_toLower
  have hr : (Text.lower g.before).reverse = Text.lower g.before.reverse := List.map_reverse.symm
  rw [name, name, lower, hr, Text.lower, List.takeWhile_map, hn]
  exact List.map_reverse.symm

theorem lead_lower (g : Group) : g.lower.lead = Text.lower g.lead := by
  have hn : isNameChar ∘ Char.toLower = isNameChar := funext isNameChar_toLower
  have hr : (Text.lower g.before).reverse = Text.lower g.before.reverse := List.map_reverse.symm
  rw [lead, lead, lower, hr, Text.lower, List.dropWhile_map, hn]
  exact List.map_reverse.symm

theorem utf8Size_of_isAlpha {c : Char} (h : c.isAlpha = true) : c.utf8Size = 1 := by
  apply Char.utf8Size_eq_one_iff.mpr
  rw [Text.isAlpha_iff] at h
  show c.toNat ≤ 127
  omega

theorem utf8Size_toLower (c : Char) : c.toLower.utf8Size = c.utf8Size := by
  rcases Text.toLower_cases c with ⟨-, h⟩ | ⟨ha, -, hl⟩
  · rw [h]
  · rw [utf8Size_of_isAlpha ha, utf8Size_of_isAlpha hl]

theorem followsWide_lower (g : Group) : g.lower.followsWide = g.followsWide := by
  rw [followsWide, followsWide, lead_lower, Text.lower, List.getLast?_map, Option.any_map]
  simp only [utf8Size_toLower]

/-- Both groups call the same function. -/
theorem function?_lower (g : Group) (hooks : Hooks) :
    hooks.function? g.lower.name = hooks.function? g.name := by
  rw [name_lower, Hooks.function?, Hooks.function?, Text.lower_lower]

theorem argument_lower (g : Group) {f : Function} (hf : f.IgnoresCase) (s : SymbolTable) :
    f (Text.trim g.lower.inner) s = f (Text.trim g.inner) s := by
  apply hf
  rw [lower, Text.trim_lower, Text.lower_lower]

end Group

end Groups

section Splits

theorem isSign_toLower (c : Char) : isSign c.toLower = isSign c := by
  rw [isSign, isSign, Text.toLower_beq (by decide), Text.toLower_beq (by decide)]

theorem isAsciiBlank_toLower (c : Char) : isAsciiBlank c.toLower = isAsciiBlank c := by
  simp only [isAsciiBlank, Text.toLower_beq (show ' '.isAlpha = false from rfl),
    Text.toLower_beq (show '\t'.isAlpha = false from rfl),
    Text.toLower_beq (show '\n'.isAlpha = false from rfl),
    Text.toLower_beq (show '\x0c'.isAlpha = false from rfl),
    Text.toLower_beq (show '\r'.isAlpha = false from rfl)]

theorem walkLength_lower (ms : List Mark) : walkLength (ms.map Mark.lower) = walkLength ms := by
  have hrun : (ms.map Mark.lower).takeWhile (fun m => isSign m.char) =
      (ms.takeWhile fun m => isSign m.char).map Mark.lower := by
    rw [List.takeWhile_map]
    simp only [Function.comp_def, Mark.lower, isSign_toLower]
  unfold walkLength
  dsimp only
  rw [hrun, List.length_map, ← List.map_drop]
  cases ms.drop (ms.takeWhile fun m => isSign m.char).length with
  | nil => rfl
  | cons m rest =>
    simp only [List.map_cons, Mark.lower, isAsciiBlank_toLower]

theorem sitesFrom_lower (braces skip : Nat) (ms : List Mark) :
    sitesFrom braces skip (ms.map Mark.lower) = (sitesFrom braces skip ms).map Mark.lower := by
  induction ms generalizing braces skip with
  | nil => cases skip <;> rfl
  | cons m ms ih =>
    cases skip with
    | succ skip =>
      rw [List.map_cons, sitesFrom, sitesFrom, ih]
      rfl
    | zero =>
      rw [List.map_cons, sitesFrom, sitesFrom, m.isOpenly_lower (by decide), walkLength_lower,
        bracesAfter_lower, ih, ih]
      split
      · rfl
      · simp [Mark.lower, bne, Text.toLower_beq (show '{'.isAlpha = false from rfl),
          Text.toLower_beq (show '}'.isAlpha = false from rfl)]

theorem sites_lower (e : Text) : sites (Text.lower e) = (sites e).map Mark.lower := by
  rw [sites, Text.marked_lower, sitesFrom_lower]
  rfl

/-- Symbols have no letters. -/
theorem isAlpha_symbol (op : Operator) : op.symbol.all (fun c => !c.isAlpha) = true := by
  cases op <;> decide

theorem startsWith_lower {symbol : Text} (h : symbol.all (fun c => !c.isAlpha) = true)
    (ms : List Mark) : startsWith symbol (ms.map Mark.lower) = startsWith symbol ms := by
  induction symbol generalizing ms with
  | nil => cases ms <;> rfl
  | cons x symbol ih =>
    obtain ⟨hx, hs⟩ : x.isAlpha = false ∧ symbol.all (fun c => !c.isAlpha) = true := by
      simpa using h
    cases ms with
    | nil => rfl
    | cons m ms =>
      have hm : (x == m.lower.char) = (x == m.char) := by
        rw [Bool.beq_comm, Mark.lower, Text.toLower_beq hx, Bool.beq_comm]
      rw [List.map_cons, startsWith, startsWith, hm, ih hs]

theorem siteOf?_lower (op : Operator) (ms : List Mark) :
    siteOf? op.symbol (ms.map Mark.lower) = siteOf? op.symbol ms := by
  induction ms with
  | nil => rfl
  | cons m ms ih =>
    have h := startsWith_lower (isAlpha_symbol op) (m :: ms)
    rw [List.map_cons] at h ⊢
    rw [siteOf?, siteOf?, h, ih]
    rfl

theorem betterSplit_lower (ms : List Mark) :
    betterSplit (ms.map Mark.lower) = betterSplit ms := by
  funext best op
  unfold betterSplit
  rw [siteOf?_lower]

/-- The same split in lower case. -/
def Split.lower (s : Split) : Split := ⟨Text.lower s.left, s.op, Text.lower s.right⟩

theorem split?_lower (e : Text) : split? (Text.lower e) = (split? e).map Split.lower := by
  unfold split?
  rw [sites_lower, betterSplit_lower, Option.map_map]
  congr 1
  funext r
  simp [Split.lower, Text.lower]

end Splits

/-- The same form in lower case. -/
def Form.lower : Form → Form
  | .empty => .empty
  | .group g => .group g.lower
  | .complement operand => .complement (Text.lower operand)
  | .negation operand => .negation (Text.lower operand)
  | .binary s => .binary s.lower
  | .token t => .token (Text.lower t)

theorem form_lower (text : Text) : form (Text.lower text) = (form text).lower := by
  unfold form
  rw [Text.trim_lower]
  generalize Text.trim text = e
  have hg := group?_lower e
  cases hge : group? e with
  | some g =>
    rw [hge] at hg
    unfold formOfTrimmed
    rw [hg, hge]
    rfl
  | none =>
    rw [hge] at hg
    cases e with
    | nil => rfl
    | cons ch t =>
      by_cases hch : ch = '~'
      · subst hch
        unfold formOfTrimmed
        rw [hg, hge]
        rfl
      · have hs := split?_lower (ch :: t)
        have hl : Text.lower (ch :: t) = ch.toLower :: Text.lower t := rfl
        rw [hl] at hg hs ⊢
        rw [formOfTrimmed_of_cons hge hch, formOfTrimmed_of_cons hg
          (mt (Text.toLower_eq_iff (by decide)).mp hch), hs]
        cases split? (ch :: t) with
        | none => rfl
        | some s =>
          obtain ⟨left, op, right⟩ := s
          cases left <;> cases op <;> rfl

section Tokens

variable {c : Context} {t text text' : Text}

/-- A text that has neither literals nor instructions in braces. -/
def Bare (text : Text) : Prop :=
  ∀ ch ∈ text, ch ≠ '\'' ∧ ch ≠ '"' ∧ ch ≠ '{' ∧ ch ≠ '}'

theorem number?_lower (t : Text) : Numeral.number? (Text.lower t) = Numeral.number? t := by
  rw [Numeral.number?, Numeral.number?, Text.lower_lower]

theorem Context.symbol_lower (c : Context) (t : Text) : c.symbol (Text.lower t) = c.symbol t := by
  rw [symbol, symbol, Name.lower_qualify (Text.lower_lower t)]

theorem isDigit_toLower (ch : Char) : ch.toLower.isDigit = ch.isDigit := by
  rw [Bool.eq_iff_iff]
  constructor
  · intro h
    rwa [(Text.toLower_eq_iff (Text.isAlpha_of_isDigit h)).mp rfl]
  · intro h
    rwa [Text.toLower_of_isDigit h]

theorem Context.word_lower (c : Context) (t : Text) : c.word (Text.lower t) = c.word t := by
  have hd : (Text.lower t).head?.any Char.isDigit = t.head?.any Char.isDigit := by
    rw [Text.lower, List.head?_map, Option.any_map]
    simp only [isDigit_toLower]
  rw [word, word, hd, number?_lower, Text.lower_lower, symbol_lower]

theorem Context.walk?_lower (c : Context) (signs : Text) :
    c.walk? (Text.lower signs) = c.walk? signs := by
  have hall {x : Char} (hx : x.isAlpha = false) :
      (Text.lower signs).all (· == x) = signs.all (· == x) := by
    rw [Text.lower, List.all_map]
    simp only [Function.comp_def, Text.toLower_beq hx]
  rw [walk?, walk?, hall (by decide), hall (by decide), Text.lower, List.length_map]

/-- Tokens are read without regard to case, character literals and instructions in braces apart. -/
theorem Context.token_lower (hp : c.hooks.plugins = []) (ht : Bare t) :
    c.token (Text.lower t) = c.token t := by
  have hvalue (u : Text) : c.hooks.value? u = none := by simp [Hooks.value?, hp]
  have word_of {ch : Char} {u : Text} (hq : ch ≠ '\'') (hb : ch ≠ '{') (hd : ch ≠ '$') :
      c.token (ch :: u) = .ok (c.word (ch :: u)) := by
    unfold token
    rw [hvalue]
    dsimp only
    split
    next h => exact absurd (List.cons.inj h).1 hq
    next h => exact absurd (List.cons.inj h).1 hb
    next h => exact absurd (List.cons.inj h).1 hd
    next h => exact absurd (List.cons.inj h).1 hd
    next => rfl
  have walk_of {ch : Char} {u : Text} :
      c.token ('$' :: ch :: u) = .ok (.address? (c.walk? (ch :: u))) := by
    unfold token
    rw [hvalue]
    rfl
  have hl (ch : Char) (u : Text) : Text.lower (ch :: u) = ch.toLower :: Text.lower u := rfl
  cases t with
  | nil => rfl
  | cons ch t =>
    obtain ⟨hq, -, hb, -⟩ := ht ch List.mem_cons_self
    by_cases hd : ch = '$'
    · subst hd
      cases t with
      | nil => rfl
      | cons sign t =>
        have hw : Text.lower (sign :: t) = sign.toLower :: Text.lower t := rfl
        change c.token ('$' :: sign.toLower :: Text.lower t) = _
        rw [walk_of, walk_of, ← hw, walk?_lower]
    · have hne {x : Char} (hx : x.isAlpha = false) (h : ch ≠ x) : ch.toLower ≠ x :=
        mt (Text.toLower_eq_iff hx).mp h
      rw [hl, word_of (hne (by decide) hq) (hne (by decide) hb) (hne (by decide) hd),
        word_of hq hb hd, ← hl, word_lower]

end Tokens

section Evaluation

variable {c : Context} {text t : Text}

theorem Bare.of_mem (h : Bare text) (ht : ∀ ch ∈ t, ch.isDigit = false → ch ∈ text) : Bare t := by
  intro ch hc
  cases hd : ch.isDigit with
  | false => exact h ch (ht ch hc hd)
  | true =>
    refine ⟨?_, ?_, ?_, ?_⟩
    all_goals
      rintro rfl
      revert hd
      decide

/-- The value that replaces a group has no letters. -/
theorem lower_replaced (lead after : Text) (w : Word) :
    Text.lower (lead ++ Numeral.decimal w.toNat ++ after) =
      Text.lower lead ++ Numeral.decimal w.toNat ++ Text.lower after := by
  rw [Text.lower_append, Text.lower_append,
    Numeral.lower_of_isDigit fun _ => Numeral.isDigit_of_mem_decimal]

theorem combine_lower (s : Split) (left right : Result) :
    combine s.lower left right = combine s left right := by
  have hl : s.lower.left = Text.lower s.left := rfl
  have hr : s.lower.right = Text.lower s.right := rfl
  have hop : s.lower.op = s.op := rfl
  have hsame : Text.sameFolded (Text.trim s.lower.left) (Text.trim s.lower.right) =
      Text.sameFolded (Text.trim s.left) (Text.trim s.right) := by
    rw [hl, hr, Text.trim_lower, Text.trim_lower, Text.sameFolded, Text.sameFolded,
      Text.lower_lower, Text.lower_lower]
  unfold combine
  rw [hop, hsame]

theorem form_lower_of {k : Form} (h : form text = k) : form (Text.lower text) = k.lower := by
  rw [form_lower, h]

/-- Both evaluations take the same steps, on texts that are the same but for case. -/
theorem eval_lower (hp : c.hooks.plugins = []) (hf : ∀ f ∈ c.hooks.functions, f.2.IgnoresCase)
    (hb : Bare text) : eval c (Text.lower text) = eval c text := by
  induction text using eval.induct c with
  | case1 text h => rw [eval_empty h, eval_empty (form_lower_of h)]
  | case2 text g h hw =>
    rw [eval_wide h hw, eval_wide (form_lower_of h) (g.followsWide_lower.trans hw)]
  | case3 text g h hw f hn hv =>
    have hw : g.followsWide = false := by simpa using hw
    have hn' : c.hooks.function? g.lower.name = some f := (g.function?_lower c.hooks).trans hn
    have hv' : f (Text.trim g.lower.inner) c.symbols = none :=
      (g.argument_lower (Hooks.ignoresCase_of_function? hf hn) c.symbols).trans hv
    rw [eval_call_failed h hw hn hv,
      eval_call_failed (form_lower_of h) (g.followsWide_lower.trans hw) hn' hv']
  | case4 text g h hw f hn v hv ih =>
    have hw : g.followsWide = false := by simpa using hw
    have hn' : c.hooks.function? g.lower.name = some f := (g.function?_lower c.hooks).trans hn
    have hv' : f (Text.trim g.lower.inner) c.symbols = some v :=
      (g.argument_lower (Hooks.ignoresCase_of_function? hf hn) c.symbols).trans hv
    have hrest := ih (hb.of_mem fun ch hc hd =>
      mem_of_mem_replaced h Group.mem_before_of_mem_lead hd hc)
    rw [lower_replaced, ← g.lead_lower] at hrest
    rw [eval_call h hw hn hv, eval_call (form_lower_of h) (g.followsWide_lower.trans hw) hn' hv']
    exact hrest
  | case5 text g h hw hn ihi ihr =>
    have hw : g.followsWide = false := by simpa using hw
    have hn' : c.hooks.function? g.lower.name = none := (g.function?_lower c.hooks).trans hn
    have hinner : eval c g.lower.inner = eval c g.inner :=
      ihi (hb.of_mem fun ch hc _ => mem_of_mem_group h (.inr (.inl hc)))
    have hrest (r : Result) :
        eval c (g.lower.before ++ Numeral.decimal r.value.toNat ++ g.lower.after) =
          eval c (g.before ++ Numeral.decimal r.value.toNat ++ g.after) := by
      have := ihr r (hb.of_mem fun ch hc hd => mem_of_mem_replaced h id hd hc)
      rwa [lower_replaced] at this
    rw [eval_group h hw hn, eval_group (form_lower_of h) (g.followsWide_lower.trans hw) hn', hinner]
    simp only [hrest]
  | case6 text operand h ih =>
    rw [eval_complement h, eval_complement (form_lower_of h), ih]
    apply hb.of_mem
    intro ch hc _
    apply mem_of_mem_trim
    rw [trim_of_form_complement h]
    exact List.mem_cons_of_mem _ hc
  | case7 text operand h ih =>
    rw [eval_negation h, eval_negation (form_lower_of h), ih]
    apply hb.of_mem
    intro ch hc _
    exact mem_of_mem_trim (mem_of_mem_split (split?_of_form_negation h) (.inr hc))
  | case8 text s h ihl ihr =>
    have hm {ch : Char} (hc : ch ∈ s.left ∨ ch ∈ s.right) : ch ∈ text :=
      mem_of_mem_trim (mem_of_mem_split (split?_of_form_binary h) hc)
    have hleft : eval c s.lower.left = eval c s.left := ihl (hb.of_mem fun _ hc _ => hm (.inl hc))
    have hright : eval c s.lower.right = eval c s.right :=
      ihr (hb.of_mem fun _ hc _ => hm (.inr hc))
    rw [eval_binary h, eval_binary (form_lower_of h), hleft, hright]
    simp only [combine_lower]
  | case9 text t h =>
    rw [eval_token h, eval_token (form_lower_of h)]
    apply Context.token_lower hp
    apply hb.of_mem
    intro ch hc _
    exact mem_of_mem_trim (trim_of_form_token h ▸ hc)

end Evaluation

/-- Case does not matter in expressions without quotes and braces, if it does not matter for the
functions that they call. It does not matter for the function that asks for references. -/
theorem eval_ignoresCase :
    Function.isReferenced.IgnoresCase ∧
    ∀ (c : Context) (text text' : Text), c.hooks.plugins = [] →
      (∀ f ∈ c.hooks.functions, f.2.IgnoresCase) → Bare text →
      Text.lower text = Text.lower text' → eval c text = eval c text' := by
  refine ⟨Function.isReferenced_ignoresCase, ?_⟩
  intro c text text' hp hf hb h
  have hb' : Bare text' := by
    intro ch hc
    obtain ⟨x, hx, hxc⟩ : ∃ x ∈ text, x.toLower = ch.toLower := by
      apply List.mem_map.mp
      show ch.toLower ∈ Text.lower text
      rw [h]
      exact List.mem_map_of_mem hc
    have hne {p : Char} (hpa : p.isAlpha = false) (hxp : x ≠ p) : ch ≠ p := by
      intro hcp
      apply hxp
      rwa [← Text.toLower_eq_iff hpa, hxc, Text.toLower_eq_iff hpa]
    obtain ⟨h₁, h₂, h₃, h₄⟩ := hb x hx
    exact ⟨hne (by decide) h₁, hne (by decide) h₂, hne (by decide) h₃, hne (by decide) h₄⟩
  calc eval c text = eval c (Text.lower text) := (eval_lower hp hf hb).symm
    _ = eval c (Text.lower text') := by rw [h]
    _ = eval c text' := eval_lower hp hf hb'

/-- An equate that has been looked up, and a local label. -/
def spelledContext : Context where
  symbols :=
    { equates := [("size".toList, 5)]
      labels := [("main_loop".toList, ⟨"Main_Loop".toList, 0x20, 1⟩)]
      referenced := ["size".toList] }
  hooks := {}
  position := { scope := some "Main".toList }
  literal _ := .ok none

theorem eval_ignoresCase_sample :
    ∃ r, eval spelledContext "IsRef(Size)*0X1f+(.LOOP-sIze*True)+(aB === Ab)".toList = .ok r ∧
      eval spelledContext "isREF(sIZE)*0x1F+(.loop-SIZE*tRUE)+(Ab === AB)".toList = .ok r ∧
      r.value = 59 ∧ r.relocatable = true := by
  obtain ⟨r, hr, hp⟩ := Answer.exists_ok
    (x := eval spelledContext "IsRef(Size)*0X1f+(.LOOP-sIze*True)+(aB === Ab)".toList)
    (p := fun r => r.value == 59 && r.relocatable) (by decide +kernel)
  simp only [Bool.and_eq_true, beq_iff_eq] at hp
  have hfunctions : ∀ f ∈ spelledContext.hooks.functions, f.2.IgnoresCase := by
    intro f hf
    obtain rfl := List.mem_singleton.mp hf
    exact Function.isReferenced_ignoresCase
  have hbare : Bare "IsRef(Size)*0X1f+(.LOOP-sIze*True)+(aB === Ab)".toList := by
    intro ch hc
    have hall : "IsRef(Size)*0X1f+(.LOOP-sIze*True)+(aB === Ab)".toList.all (fun ch =>
        ch != '\'' && ch != '"' && ch != '{' && ch != '}') = true := by decide
    simpa [and_assoc] using List.all_eq_true.mp hall ch hc
  have h := eval_ignoresCase.2 spelledContext _
    "isREF(sIZE)*0x1F+(.loop-SIZE*tRUE)+(Ab === AB)".toList rfl hfunctions hbare (by decide)
  exact ⟨r, hr, h.symm.trans hr, hp⟩

end Expr

end Dcpu
