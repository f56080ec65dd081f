import Dcpu.Proofs.WideLiterals

/-! Expressions by byte offsets. Here the scans of an expression give offsets into its UTF-8 form,
and parts of it are slices between two offsets, which have to be in order, inside of the text and at
the start of a character. These slices are the parts that evaluation works on, unless the name of a
group follows a character outside of ASCII. -/
namespace Dcpu

namespace Text

variable {a b s t : Text} {i j n : Nat} {c : Char}

theorem utf8Length_cons (c : Char) (t : Text) :
    utf8Length (c :: t) = c.utf8Size + utf8Length t := rfl

theorem utf8Length_append (s t : Text) : utf8Length (s ++ t) = utf8Length s + utf8Length t := by
  induction s with
  | nil => simp [utf8Length]
  | cons c s ih => rw [List.cons_append, utf8Length_cons, utf8Length_cons, ih, Nat.add_assoc]

/-- The text from an offset on, which has to be the start of a character or the end. -/
def dropBytes? : Nat → Text → Option Text
  | 0, t => some t
  | _ + 1, [] => none
  | n + 1, c :: t => if c.utf8Size ≤ n + 1 then dropBytes? (n + 1 - c.utf8Size) t else none

/-- The text before an offset, which has to be the start of a character or the end. -/
def takeBytes? : Nat → Text → Option Text
  | 0, _ => some []
  | _ + 1, [] => none
  | n + 1, c :: t =>
    if c.utf8Size ≤ n + 1 then (takeBytes? (n + 1 - c.utf8Size) t).map (c :: ·) else none

/-- The text between two offsets. -/
def slice? (t : Text) (i j : Nat) : Option Text :=
  if i ≤ j then (dropBytes? i t).bind (takeBytes? (j - i)) else none

theorem dropBytes?_cons (h : c.utf8Size ≤ n) (t : Text) :
    dropBytes? n (c :: t) = dropBytes? (n - c.utf8Size) t := by
  have hpos := c.utf8Size_pos
  obtain ⟨n, rfl⟩ : ∃ m, n = m + 1 := ⟨n - 1, by omega⟩
  rw [dropBytes?, if_pos h]

theorem takeBytes?_cons (h : c.utf8Size ≤ n) (t : Text) :
    takeBytes? n (c :: t) = (takeBytes? (n - c.utf8Size) t).map (c :: ·) := by
  have hpos := c.utf8Size_pos
  obtain ⟨n, rfl⟩ : ∃ m, n = m + 1 := ⟨n - 1, by omega⟩
  rw [takeBytes?, if_pos h]

@[simp] theorem dropBytes?_append (a s : Text) : dropBytes? (utf8Length a) (a ++ s) = some s := by
  induction a with
  | nil => cases s <;> rfl
  | cons c a ih =>
    rw [List.cons_append, utf8Length_cons, dropBytes?_cons (Nat.le_add_right _ _),
      Nat.add_sub_cancel_left, ih]

@[simp] theorem takeBytes?_append (s b : Text) : takeBytes? (utf8Length s) (s ++ b) = some s := by
  induction s with
  | nil => cases b <;> rfl
  | cons c s ih =>
    rw [List.cons_append, utf8Length_cons, takeBytes?_cons (Nat.le_add_right _ _),
      Nat.add_sub_cancel_left, ih]
    rfl

theorem exists_of_dropBytes? (h : dropBytes? n t = some s) :
    ∃ a, t = a ++ s ∧ utf8Length a = n := by
  induction t generalizing n with
  | nil =>
    cases n with
    | zero => exact ⟨[], by simpa [dropBytes?] using h, rfl⟩
    | succ n => cases h
  | cons c t ih =>
    cases n with
    | zero => exact ⟨[], by simpa [dropBytes?] using h, rfl⟩
    | succ n =>
      rw [dropBytes?] at h
      split at h
      next hle =>
        obtain ⟨a, rfl, ha⟩ := ih h
        exact ⟨c :: a, rfl, by rw [utf8Length_cons, ha]; omega⟩
      next => cases h

theorem exists_of_takeBytes? (h : takeBytes? n t = some s) :
    ∃ b, t = s ++ b ∧ utf8Length s = n := by
  induction t generalizing n s with
  | nil =>
    cases n with
    | zero =>
      obtain rfl : [] = s := by simpa [takeBytes?] using h
      exact ⟨[], rfl, rfl⟩
    | succ n => cases h
  | cons c t ih =>
    cases n with
    | zero =>
      obtain rfl : [] = s := by simpa [takeBytes?] using h
      exact ⟨c :: t, rfl, rfl⟩
    | succ n =>
      rw [takeBytes?] at h
      split at h
      next hle =>
        obtain ⟨u, hu, rfl⟩ := Option.map_eq_some_iff.mp h
        obtain ⟨b, rfl, hb⟩ := ih hu
        exact ⟨b, rfl, by rw [utf8Length_cons, hb]; omega⟩
      next => cases h

/-- There is no text from the middle of a character on. -/
theorem dropBytes?_inside {k : Nat} (hk : 0 < k) (hc : k < c.utf8Size) (a t : Text) :
    dropBytes? (utf8Length a + k) (a ++ c :: t) = none := by
  induction a with
  | nil =>
    obtain ⟨k, rfl⟩ : ∃ m, k = m + 1 := ⟨k - 1, by omega⟩
    have hlen : utf8Length [] + (k + 1) = k + 1 := Nat.zero_add _
    rw [hlen, List.nil_append, dropBytes?, if_neg (by omega)]
  | cons x a ih =>
    have hlen : utf8Length (x :: a) + k - x.utf8Size = utf8Length a + k := by
      rw [utf8Length_cons]
      omega
    rw [List.cons_append, dropBytes?_cons (by rw [utf8Length_cons]; omega), hlen, ih]

/-- A slice is what lies between two texts. -/
theorem slice?_eq_some :
    slice? t i j = some s ↔
      ∃ a b, t = a ++ s ++ b ∧ utf8Length a = i ∧ utf8Length (a ++ s) = j := by
  constructor
  · intro h
    unfold slice? at h
    split at h
    next hle =>
      obtain ⟨u, hu, hs⟩ := Option.bind_eq_some_iff.mp h
      obtain ⟨a, rfl, ha⟩ := exists_of_dropBytes? hu
      obtain ⟨b, rfl, hb⟩ := exists_of_takeBytes? hs
      refine ⟨a, b, (List.append_assoc ..).symm, ha, ?_⟩
      rw [utf8Length_append]
      omega
    next => cases h
  · rintro ⟨a, b, rfl, rfl, rfl⟩
    have hsub : utf8Length (a ++ s) - utf8Length a = utf8Length s := by
      rw [utf8Length_append]
      omega
    rw [slice?, if_pos (by rw [utf8Length_append]; omega), hsub, List.append_assoc,
      dropBytes?_append, Option.bind_some, takeBytes?_append]

end Text

namespace Expr

open Text

section Groups

/-- Looks for the parentheses of the first group from the offset `i` on. `opened` is the offset of
its opening parenthesis, once that has been found. -/
def groupFrom (q : Quote) (depth braces : Nat) (opened : Option Nat) (i : Nat) :
    Text → Option (Nat × Nat)
  | [] => none
  | c :: t =>
    let goOn (depth braces : Nat) (opened : Option Nat) : Option (Nat × Nat) :=
      groupFrom (q.next c) depth braces opened (i + c.utf8Size) t
    if q.isFree c = false then goOn depth braces opened
    else if c = '{' then goOn depth (braces + 1) opened
    else if c = '}' then goOn depth (braces - 1) opened
    else if c = '(' ∧ braces = 0 then
      goOn (depth + 1) braces (if depth = 0 then some i else opened)
    else if c = ')' ∧ braces = 0 ∧ 0 < depth then
      if depth = 1 then opened.map fun o => (o, i) else goOn (depth - 1) braces opened
    else goOn depth braces opened

/-- The offsets of the parentheses of the first group. -/
def groupOffsets? (e : Text) : Option (Nat × Nat) := groupFrom .outside 0 0 none 0 e

variable {q : Quote} {c : Char} {e t : Text} {g : Group}

theorem groupFrom_eq_close (depth braces o i : Nat) :
    groupFrom q (depth + 1) braces (some o) i t =
      (closeGroup depth braces (markedFrom q t)).map fun r => (o, i + utf8Length r.1) := by
  induction t generalizing q depth braces i with
  | nil => rfl
  | cons c t ih =>
    have step (d b : Nat) :
        groupFrom (q.next c) (d + 1) b (some o) (i + c.utf8Size) t =
          ((closeGroup d b (markedFrom (q.next c) t)).map fun f => (c :: f.1, f.2)).map fun r =>
            (o, i + utf8Length r.1) := by
      rw [ih, Option.map_map]
      simp only [Function.comp_def, utf8Length_cons, Nat.add_assoc]
    rw [markedFrom]
    unfold groupFrom closeGroup
    cases hf : q.isFree c with
    | false => simp [step, Mark.isOpenly, bracesAfter]
    | true =>
      by_cases hl : c = '{'
      · subst hl
        simp [step, Mark.isOpenly, bracesAfter]
      by_cases hr : c = '}'
      · subst hr
        simp [step, Mark.isOpenly, bracesAfter]
      by_cases ho : c = '('
      · subst ho
        by_cases hb : braces = 0
        · simp [step, Mark.isOpenly, hb]
        · simp [step, Mark.isOpenly, bracesAfter, hb]
      by_cases hc : c = ')'
      · subst hc
        by_cases hb : braces = 0
        · cases depth with
          | zero => simp [Mark.isOpenly, hb, utf8Length]
          | succ depth => simp [step, Mark.isOpenly, hb]
        · simp [step, Mark.isOpenly, bracesAfter, hb]
      · simp [step, Mark.isOpenly, bracesAfter, hl, hr, ho, hc]

/-- Both parentheses, by the texts before and inside of the group. -/
theorem groupFrom_eq_open (braces i : Nat) :
    groupFrom q 0 braces none i t =
      (openGroup braces (markedFrom q t)).bind fun r => (closeGroup 0 0 r.2).map fun f =>
        (i + utf8Length r.1, i + utf8Length r.1 + 1 + utf8Length f.1) := by
  induction t generalizing q braces i with
  | nil => rfl
  | cons c t ih =>
    have step (b : Nat) :
        groupFrom (q.next c) 0 b none (i + c.utf8Size) t =
          ((openGroup b (markedFrom (q.next c) t)).map fun r => (c :: r.1, r.2)).bind fun r =>
            (closeGroup 0 0 r.2).map fun f =>
              (i + utf8Length r.1, i + utf8Length r.1 + 1 + utf8Length f.1) := by
      rw [ih, Option.bind_map]
      simp only [Function.comp_def, utf8Length_cons, Nat.add_assoc]
    rw [markedFrom]
    unfold groupFrom openGroup
    cases hf : q.isFree c with
    | false => simp [step, Mark.isOpenly, bracesAfter]
    | true =>
      by_cases hl : c = '{'
      · subst hl
        simp [step, Mark.isOpenly, bracesAfter]
      by_cases hr : c = '}'
      · subst hr
        simp [step, Mark.isOpenly, bracesAfter]
      by_cases ho : c = '('
      · subst ho
        by_cases hb : braces = 0
        · have hsize : '('.utf8Size = 1 := by decide
          simp [groupFrom_eq_close, Mark.isOpenly, hb, hsize, utf8Length]
        · simp [step, Mark.isOpenly, bracesAfter, hb]
      · simp [step, Mark.isOpenly, bracesAfter, hl, hr, ho]

theorem groupOffsets?_eq (e : Text) :
    groupOffsets? e = (group? e).map fun g =>
      (utf8Length g.before, utf8Length g.before + 1 + utf8Length g.inner) := by
  rw [groupOffsets?, groupFrom_eq_open]
  unfold group? marked
  cases openGroup 0 (markedFrom .outside e) with
  | none => rfl
  | some r =>
    simp only [Option.bind_some, Option.bind_eq_bind, Nat.zero_add]
    cases closeGroup 0 0 r.2 with
    | none => rfl
    | some f => rfl

/-- The characters of a text with their offsets. -/
def offsets (i : Nat) : Text → List (Nat × Char)
  | [] => []
  | c :: t => (i, c) :: offsets (i + c.utf8Size) t

theorem offsets_append (i : Nat) (s t : Text) :
    offsets i (s ++ t) = offsets i s ++ offsets (i + utf8Length s) t := by
  induction s generalizing i with
  | nil => rfl
  | cons c s ih =>
    rw [List.cons_append, offsets, offsets, List.cons_append, ih, utf8Length_cons, Nat.add_assoc]

theorem mem_of_mem_offsets {i : Nat} {x : Nat × Char} (h : x ∈ offsets i t) : x.2 ∈ t := by
  induction t generalizing i with
  | nil => cases h
  | cons c t ih =>
    rcases List.mem_cons.mp h with rfl | h
    · exact List.mem_cons_self
    · exact List.mem_cons_of_mem _ (ih h)

/-- The offset behind the last character that is no part of a name, as if it had one byte. -/
def nameStart (before : Text) : Nat :=
  ((offsets 0 before).reverse.find? fun x => !Group.isNameChar x.2).elim 0 fun x => x.1 + 1

theorem find?_before (g : Group) :
    (offsets 0 g.before).reverse.find? (fun x => !Group.isNameChar x.2) =
      (offsets 0 g.lead).reverse.find? fun x => !Group.isNameChar x.2 := by
  have hname : (offsets (0 + utf8Length g.lead) g.name).reverse.find?
      (fun x => !Group.isNameChar x.2) = none := by
    rw [List.find?_eq_none]
    intro x hx
    have hm := mem_of_mem_offsets (List.mem_reverse.mp hx)
    have hn : Group.isNameChar x.2 = true := List.mem_takeWhile_imp (List.mem_reverse.mp hm)
    simp [hn]
  rw [← g.lead_append_name, offsets_append, List.reverse_append, List.find?_append, hname,
    Option.none_or]

theorem nameStart_of_nil (h : g.lead = []) : nameStart g.before = 0 := by
  rw [nameStart, find?_before, h]
  rfl

theorem nameStart_of_concat {u : Text} (h : g.lead = u ++ [c]) :
    nameStart g.before = utf8Length u + 1 := by
  have hc : Group.isNameChar c = false := by
    have hhead : (g.before.reverse.dropWhile Group.isNameChar).head? = some c := by
      have hr : g.before.reverse.dropWhile Group.isNameChar = g.lead.reverse := by
        rw [Group.lead, List.reverse_reverse]
      rw [hr, h, List.reverse_append]
      rfl
    have hnot := List.head?_dropWhile_not Group.isNameChar g.before.reverse
    rw [hhead] at hnot
    simpa using hnot
  rw [nameStart, find?_before, h, offsets_append, List.reverse_append]
  simp [offsets, hc]

/-- The slices that are taken of a text with a group. -/
structure GroupSlices where
  inner : Text
  name : Text
  before : Text
  lead : Text
  after : Text

/-- The slices around the parentheses at two offsets. -/
def groupSlices? (e : Text) (opened closed : Nat) : Option GroupSlices := do
  let inner ← slice? e (opened + 1) closed
  let before ← slice? e 0 opened
  let name ← slice? e (nameStart before) opened
  let lead ← slice? e 0 (nameStart before)
  let after ← slice? e (closed + 1) (utf8Length e)
  return ⟨inner, name, before, lead, after⟩

def Group.slices (g : Group) : GroupSlices := ⟨g.inner, g.name, g.before, g.lead, g.after⟩

section Slices

variable (h : group? e = some g)
include h

theorem slice?_inner :
    slice? e (utf8Length g.before + 1) (utf8Length g.before + 1 + utf8Length g.inner) =
      some g.inner := by
  have hone : utf8Length ['('] = 1 := by decide
  refine slice?_eq_some.mpr ⟨g.before ++ ['('], ')' :: g.after, ?_, ?_, ?_⟩
  · rw [← text_of_group? h, Group.text]
    simp
  · rw [utf8Length_append, hone]
  · rw [utf8Length_append, utf8Length_append, hone]

theorem slice?_before : slice? e 0 (utf8Length g.before) = some g.before := by
  refine slice?_eq_some.mpr ⟨[], '(' :: g.inner ++ ')' :: g.after, ?_, rfl, rfl⟩
  rw [← text_of_group? h, Group.text]
  simp

theorem slice?_after :
    slice? e (utf8Length g.before + 1 + utf8Length g.inner + 1) (utf8Length e) =
      some g.after := by
  have hopen : utf8Length ['('] = 1 := by decide
  have hclose : utf8Length [')'] = 1 := by decide
  have htext : e = g.before ++ ['('] ++ g.inner ++ [')'] ++ g.after := by
    rw [← text_of_group? h, Group.text]
    simp
  refine slice?_eq_some.mpr ⟨g.before ++ ['('] ++ g.inner ++ [')'], [], ?_, ?_, ?_⟩
  · rw [List.append_nil]
    exact htext
  · rw [utf8Length_append, utf8Length_append, utf8Length_append, hopen, hclose]
  · rw [← htext]

theorem slice?_name : slice? e (utf8Length g.lead) (utf8Length g.before) = some g.name := by
  refine slice?_eq_some.mpr ⟨g.lead, '(' :: g.inner ++ ')' :: g.after, ?_, rfl, ?_⟩
  · rw [g.lead_append_name, ← text_of_group? h, Group.text]
    simp
  · rw [g.lead_append_name]

theorem slice?_lead : slice? e 0 (utf8Length g.lead) = some g.lead := by
  refine slice?_eq_some.mpr ⟨[], g.name ++ '(' :: g.inner ++ ')' :: g.after, ?_, rfl, rfl⟩
  rw [← text_of_group? h, Group.text, ← g.lead_append_name]
  simp

omit h in
theorem nameStart_before (hw : g.followsWide = false) :
    nameStart g.before = utf8Length g.lead := by
  rcases List.eq_nil_or_concat g.lead with hl | ⟨u, c, hl⟩
  · rw [nameStart_of_nil hl, hl]
    rfl
  · rw [List.concat_eq_append] at hl
    have hsize : c.utf8Size = 1 := by
      have hpos := c.utf8Size_pos
      simp [Group.followsWide, hl] at hw
      omega
    rw [nameStart_of_concat hl, hl, utf8Length_append, utf8Length_cons, hsize]
    rfl

/-- Behind a character outside of ASCII, the name would start in the middle of it. -/
theorem slice?_name_wide (hw : g.followsWide = true) :
    slice? e (nameStart g.before) (utf8Length g.before) = none := by
  obtain ⟨c, hc, hwide⟩ := (Option.any_eq_true _ _).mp hw
  have hwide : 1 < c.utf8Size := of_decide_eq_true hwide
  obtain ⟨u, hu⟩ := List.getLast?_eq_some_iff.mp hc
  have htext : e = u ++ c :: (g.name ++ '(' :: g.inner ++ ')' :: g.after) := by
    rw [← text_of_group? h, Group.text, ← g.lead_append_name, hu]
    simp
  rw [nameStart_of_concat hu, slice?]
  split
  · rw [htext, dropBytes?_inside (by decide) hwide]
    rfl
  · rfl

/-- The slices of a group are there, unless its name follows a character outside of ASCII. -/
theorem groupSlices?_eq :
    groupSlices? e (utf8Length g.before) (utf8Length g.before + 1 + utf8Length g.inner) =
      if g.followsWide then none else some g.slices := by
  unfold groupSlices?
  rw [slice?_inner h, slice?_before h, slice?_after h]
  simp only [Option.bind_eq_bind, Option.bind_some]
  cases hw : g.followsWide with
  | true =>
    rw [slice?_name_wide h hw]
    rfl
  | false =>
    rw [nameStart_before hw, slice?_name h, slice?_lead h]
    rfl

end Slices

end Groups

section Operators

/-- Looks for a symbol from the offset `i` on. What comes before the offset `skipUntil` belongs to
a `$`. -/
def operatorFrom? (symbol e : Text) (q : Quote) (braces skipUntil i : Nat) :
    Text → Option (Option Nat)
  | [] => some none
  | c :: t =>
    let goOn (braces skipUntil : Nat) : Option (Option Nat) :=
      operatorFrom? symbol e (q.next c) braces skipUntil (i + c.utf8Size) t
    if q.isFree c = false ∨ i < skipUntil then goOn braces skipUntil
    else if c = '{' then goOn (braces + 1) skipUntil
    else if c = '}' then goOn (braces - 1) skipUntil
    else if 0 < braces then goOn braces skipUntil
    else if c = '$' then do
      let rest ← dropBytes? (i + 1) e
      let run := (rest.takeWhile isSign).length
      let walks := 0 < run ∧ (rest.drop run).head?.all isAsciiBlank = true
      goOn braces (if walks then i + 1 + run else skipUntil)
    else do
      let rest ← dropBytes? i e
      if symbol.isPrefixOf rest then some (some i) else goOn braces skipUntil

/-- The offset of the first site of a symbol. -/
def operatorOffset? (symbol e : Text) : Option (Option Nat) :=
  operatorFrom? symbol e .outside 0 0 0 e

variable {q : Quote} {c : Char} {symbol e t : Text} {ms : List Mark}

theorem startsWith_eq (symbol : Text) (ms : List Mark) :
    startsWith symbol ms = symbol.isPrefixOf (unmarked ms) := by
  induction symbol generalizing ms with
  | nil => rfl
  | cons c symbol ih =>
    cases ms with
    | nil => rfl
    | cons m ms =>
      rw [startsWith, ih]
      rfl

theorem walkLength_eq (ms : List Mark) :
    walkLength ms =
      if ((unmarked ms).drop ((unmarked ms).takeWhile isSign).length).head?.all isAsciiBlank then
        ((unmarked ms).takeWhile isSign).length
      else 0 := by
  have hrun : ((unmarked ms).takeWhile isSign).length =
      (ms.takeWhile fun m => isSign m.char).length := by
    rw [unmarked, List.takeWhile_map, List.length_map]
    rfl
  unfold walkLength
  dsimp only
  rw [hrun, unmarked, ← List.map_drop]
  cases ms.drop (ms.takeWhile fun m => isSign m.char).length with
  | nil => rfl
  | cons m rest => rfl

theorem all_isSign_take_walkLength (ms : List Mark) :
    ((unmarked ms).take (walkLength ms)).all isSign = true := by
  rw [walkLength_eq]
  split
  · rw [← List.prefix_iff_eq_take.mp (List.takeWhile_prefix isSign)]
    exact List.all_takeWhile
  · rfl

theorem utf8Size_of_isSign (h : isSign c = true) : c.utf8Size = 1 := by
  simp only [isSign, Bool.or_eq_true, beq_iff_eq] at h
  rcases h with rfl | rfl
  · decide
  · decide

theorem siteOf?_cons_of_closed (symbol : Text) (c : Char) (ms : List Mark) :
    siteOf? symbol (⟨c, false⟩ :: ms) = (siteOf? symbol ms).map (· + 1) := rfl

/-- The scan behind `before` gives the offset of the first site from there on. -/
theorem operatorFrom?_eq {before : Text} {braces skipUntil skip : Nat} (he : e = before ++ t)
    (hskip : skipUntil - utf8Length before = skip) (hs : (t.take skip).all isSign = true) :
    operatorFrom? symbol e q braces skipUntil (utf8Length before) t =
      some ((siteOf? symbol (sitesFrom braces skip (markedFrom q t))).map fun k =>
        utf8Length (before ++ t.take k)) := by
  induction t generalizing before q braces skipUntil skip with
  | nil => cases skip <;> rfl
  | cons c t ih =>
    have hlen : utf8Length before + c.utf8Size = utf8Length (before ++ [c]) := by
      rw [utf8Length_append]
      rfl
    have hrest : e = before ++ [c] ++ t := by rw [he, List.append_assoc, List.singleton_append]
    -- the scan goes on, and there is no site at this character
    have step (b u k : Nat) (hk : u - utf8Length (before ++ [c]) = k)
        (hs : (t.take k).all isSign = true) :
        operatorFrom? symbol e (q.next c) b u (utf8Length before + c.utf8Size) t =
          some (((siteOf? symbol (sitesFrom b k (markedFrom (q.next c) t))).map (· + 1)).map
            fun k => utf8Length (before ++ (c :: t).take k)) := by
      rw [hlen, ih hrest hk hs, Option.map_map]
      simp [Function.comp_def]
    rw [markedFrom]
    cases skip with
    | succ skip =>
      rw [List.take_succ_cons, List.all_cons, Bool.and_eq_true] at hs
      have hsize := utf8Size_of_isSign hs.1
      rw [operatorFrom?, if_pos (.inr (by omega)), sitesFrom, siteOf?_cons_of_closed]
      exact step braces skipUntil skip (by omega) hs.2
    | zero =>
      have hpos := c.utf8Size_pos
      have hu : ¬ utf8Length before < skipUntil := by omega
      have hk : skipUntil - utf8Length (before ++ [c]) = 0 := by omega
      generalize hms : markedFrom (q.next c) t = ms at step ⊢
      rw [operatorFrom?]
      cases hf : q.isFree c with
      | false =>
        have hsites : sitesFrom braces 0 (⟨c, false⟩ :: ms) =
            ⟨c, false⟩ :: sitesFrom braces 0 ms := by
          simp [sitesFrom, Mark.isOpenly, bracesAfter]
        rw [if_pos (.inl rfl), hsites, siteOf?_cons_of_closed]
        exact step braces skipUntil 0 hk rfl
      | true =>
        rw [if_neg (by simp [hu])]
        by_cases hl : c = '{'
        · have hsites : sitesFrom braces 0 (⟨c, true⟩ :: ms) =
              ⟨c, false⟩ :: sitesFrom (braces + 1) 0 ms := by
            simp [sitesFrom, Mark.isOpenly, bracesAfter, hl]
          rw [if_pos hl, hsites, siteOf?_cons_of_closed]
          exact step (braces + 1) skipUntil 0 hk rfl
        by_cases hr : c = '}'
        · have hsites : sitesFrom braces 0 (⟨c, true⟩ :: ms) =
              ⟨c, false⟩ :: sitesFrom (braces - 1) 0 ms := by
            simp [sitesFrom, Mark.isOpenly, bracesAfter, hr]
          rw [if_neg hl, if_pos hr, hsites, siteOf?_cons_of_closed]
          exact step (braces - 1) skipUntil 0 hk rfl
        rw [if_neg hl, if_neg hr]
        by_cases hb : 0 < braces
        · have hsites : sitesFrom braces 0 (⟨c, true⟩ :: ms) =
              ⟨c, false⟩ :: sitesFrom braces 0 ms := by
            simp [sitesFrom, Mark.isOpenly, bracesAfter, hl, hr, hb.ne']
          rw [if_pos hb, hsites, siteOf?_cons_of_closed]
          exact step braces skipUntil 0 hk rfl
        obtain rfl : braces = 0 := by omega
        rw [if_neg hb]
        by_cases hd : c = '$'
        · have hsites : sitesFrom 0 0 (⟨c, true⟩ :: ms) =
              ⟨c, false⟩ :: sitesFrom 0 (walkLength ms) ms := by
            simp [sitesFrom, Mark.isOpenly, hd]
          have hone : utf8Length (before ++ [c]) = utf8Length before + 1 := by
            rw [← hlen, hd]
            rfl
          have hdrop : dropBytes? (utf8Length before + 1) e = some t := by
            rw [hrest, ← hone, dropBytes?_append]
          have hwalk := walkLength_eq ms
          have hsigns := all_isSign_take_walkLength ms
          rw [← hms, unmarked_markedFrom, hms] at hwalk hsigns
          rw [if_pos hd, hdrop, hsites, siteOf?_cons_of_closed]
          refine step 0 _ _ ?_ hsigns
          rw [hone, hwalk]
          grind
        · have hsites : sitesFrom 0 0 (⟨c, true⟩ :: ms) =
              ⟨c, true⟩ :: sitesFrom 0 0 ms := by
            simp [sitesFrom, Mark.isOpenly, bracesAfter, hl, hr, hd]
          have hdrop : dropBytes? (utf8Length before) e = some (c :: t) := by
            rw [he, dropBytes?_append]
          have htext : unmarked (⟨c, true⟩ :: sitesFrom 0 0 ms) = c :: t := by
            rw [← hsites, unmarked_sitesFrom, ← hms, unmarked, List.map_cons, ← unmarked,
              unmarked_markedFrom]
          rw [if_neg hd, hdrop, hsites, siteOf?, startsWith_eq, htext, Bool.true_and]
          dsimp only [Option.bind_eq_bind, Option.bind_some]
          split
          · rw [Option.map_some, List.take_zero, List.append_nil]
          · exact step 0 skipUntil 0 hk rfl

theorem operatorOffset?_eq (symbol e : Text) :
    operatorOffset? symbol e =
      some ((siteOf? symbol (sites e)).map fun k => utf8Length (e.take k)) := by
  have he : e = [] ++ e := rfl
  exact operatorFrom?_eq he rfl rfl

end Operators

section Splits

variable {e : Text} {i j : Nat}

/-- A later operator takes over only if it is longer and starts at no later offset. -/
def betterOffset? (e : Text) (best : Option (Nat × Operator)) (op : Operator) :
    Option (Option (Nat × Operator)) := do
  match ← operatorOffset? op.symbol e, best with
  | none, _ => return best
  | some i, none => return some (i, op)
  | some i, some (start, chosen) =>
    if start < i ∨ utf8Length op.symbol ≤ utf8Length chosen.symbol then return best
    else return some (i, op)

/-- The slices on both sides of the operator at which a text is split. -/
def splitSlices? (e : Text) : Option (Option Split) := do
  match ← Operator.all.foldlM (betterOffset? e) none with
  | none => return none
  | some (i, op) =>
    let left ← slice? e 0 i
    let right ← slice? e (i + utf8Length op.symbol) (utf8Length e)
    return some ⟨left, op, right⟩

theorem utf8Length_symbol (op : Operator) : utf8Length op.symbol = op.symbol.length := by
  cases op <;> decide

theorem utf8Length_take_lt (hij : i < j) (hj : j ≤ e.length) :
    utf8Length (e.take i) < utf8Length (e.take j) := by
  induction e generalizing i j with
  | nil =>
    rw [List.length_nil] at hj
    omega
  | cons c e ih =>
    have hpos := c.utf8Size_pos
    obtain ⟨j, rfl⟩ : ∃ k, j = k + 1 := ⟨j - 1, by omega⟩
    rw [List.take_succ_cons, utf8Length_cons]
    cases i with
    | zero =>
      show 0 < _
      omega
    | succ i =>
      have hlt := ih (Nat.lt_of_succ_lt_succ hij) (Nat.le_of_succ_le_succ hj)
      rw [List.take_succ_cons, utf8Length_cons]
      omega

/-- Offsets are in the order of the characters. -/
theorem utf8Length_take_lt_iff (hi : i ≤ e.length) (hj : j ≤ e.length) :
    utf8Length (e.take i) < utf8Length (e.take j) ↔ i < j := by
  constructor
  · intro h
    by_contra hij
    rcases Nat.lt_or_eq_of_le (Nat.le_of_not_lt hij) with hlt | rfl
    · have := utf8Length_take_lt hlt hi
      omega
    · omega
  · intro h
    exact utf8Length_take_lt h hj

theorem le_length_of_siteOf? {symbol : Text} (h : siteOf? symbol (sites e) = some i) :
    i ≤ e.length := by
  obtain ⟨m, hm, -⟩ := free_of_siteOf? h
  have hlt := (List.getElem?_eq_some_iff.mp hm).1
  have hlen : (sites e).length = e.length := by
    rw [← List.length_map Mark.char, ← unmarked, unmarked_sites]
  omega

/-- The offset of a split that is found by the number of characters before it. -/
def offsetOf (e : Text) (s : Nat × Operator) : Nat × Operator := (utf8Length (e.take s.1), s.2)

theorem betterOffset?_eq {best : Option (Nat × Operator)} (op : Operator)
    (hb : ∀ s ∈ best, siteOf? s.2.symbol (sites e) = some s.1) :
    betterOffset? e (best.map (offsetOf e)) op =
      some ((betterSplit (sites e) best op).map (offsetOf e)) := by
  unfold betterOffset? betterSplit
  rw [operatorOffset?_eq]
  cases hi : siteOf? op.symbol (sites e) with
  | none => rfl
  | some i =>
    cases best with
    | none => rfl
    | some s =>
      have hlt := utf8Length_take_lt_iff (le_length_of_siteOf? (hb s rfl)) (le_length_of_siteOf? hi)
      simp only [Option.map_some, Option.bind_eq_bind, Option.bind_some, offsetOf, hlt,
        utf8Length_symbol, Bool.or_eq_true, decide_eq_true_eq]
      split
      · rfl
      · rfl

theorem foldlM_betterOffset? {best : Option (Nat × Operator)} (ops : List Operator)
    (hb : ∀ s ∈ best, siteOf? s.2.symbol (sites e) = some s.1) :
    ops.foldlM (betterOffset? e) (best.map (offsetOf e)) =
      some ((ops.foldl (betterSplit (sites e)) best).map (offsetOf e)) := by
  induction ops generalizing best with
  | nil => rfl
  | cons op ops ih =>
    rw [List.foldlM_cons, betterOffset?_eq op hb]
    exact ih (siteOf?_of_betterSplit hb)

/-- The slices of a split are always there. -/
theorem splitSlices?_eq (e : Text) : splitSlices? e = some (split? e) := by
  have hnone : ∀ s ∈ (none : Option (Nat × Operator)),
      siteOf? s.2.symbol (sites e) = some s.1 := by
    simp
  have hfold := foldlM_betterOffset? Operator.all hnone
  rw [Option.map_none] at hfold
  unfold splitSlices?
  rw [hfold]
  cases hs : Operator.all.foldl (betterSplit (sites e)) none with
  | none =>
    rw [split?, hs]
    rfl
  | some s =>
    have hsplit : split? e = some ⟨e.take s.1, s.2, e.drop (s.1 + s.2.symbol.length)⟩ := by
      rw [split?, hs]
      rfl
    have htext := text_of_split? hsplit
    have hleft : slice? e 0 (utf8Length (e.take s.1)) = some (e.take s.1) :=
      slice?_eq_some.mpr ⟨[], e.drop s.1, (List.take_append_drop _ _).symm, rfl, rfl⟩
    have hright : slice? e (utf8Length (e.take s.1) + utf8Length s.2.symbol) (utf8Length e) =
        some (e.drop (s.1 + s.2.symbol.length)) := by
      refine slice?_eq_some.mpr ⟨e.take s.1 ++ s.2.symbol, [], ?_, ?_, ?_⟩
      · rw [List.append_nil]
        exact htext.symm
      · rw [utf8Length_append]
      · exact congrArg utf8Length htext
    rw [hsplit]
    simp only [Option.map_some, Option.bind_eq_bind, Option.bind_some, offsetOf, hleft, hright]
    rfl

end Splits

end Expr

end Dcpu
