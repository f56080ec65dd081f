import Dcpu.Proofs.BlockEvents
import Dcpu.Proofs.Convergence
import Dcpu.Proofs.Substitution
import Mathlib.Data.List.TakeWhile

/-! Data lines: strings and numbers as they are written after a data directive, and the words that
the directive makes of them. Every scan of a line passes over a string as a whole. -/
namespace Dcpu

namespace Text

/-- How a character is written in a string. -/
def escapeChar (c : Char) : Text :=
  if c = '"' ∨ c = '\\' then ['\\', c]
  else if c = '\n' then ['\\', 'n']
  else if c = '\r' then ['\\', 'r']
  else [c]

def escape (t : Text) : Text := t.flatMap escapeChar

theorem escape_cons (c : Char) (t : Text) : escape (c :: t) = escapeChar c ++ escape t := rfl

/-- A character is written with a backslash or stands for itself. -/
theorem escapeChar_cases (c : Char) :
    (∃ x, escapeChar c = ['\\', x] ∧ x ≠ 'x' ∧ x ≠ '\n' ∧ escaped? x = some c) ∨
      escapeChar c = [c] ∧ c ≠ '"' ∧ c ≠ '\\' ∧ c ≠ '\n' := by
  unfold escapeChar
  split
  next h =>
    left
    rcases h with rfl | rfl
    · exact ⟨_, rfl, by decide, by decide, rfl⟩
    · exact ⟨_, rfl, by decide, by decide, rfl⟩
  next h =>
    obtain ⟨hq, hb⟩ := not_or.mp h
    split
    next hn => exact .inl ⟨'n', rfl, by decide, by decide, by rw [hn]; rfl⟩
    next hn =>
      split
      next hr => exact .inl ⟨'r', rfl, by decide, by decide, by rw [hr]; rfl⟩
      next => exact .inr ⟨rfl, hq, hb, hn⟩

theorem unescape?_pair {x : Char} (hx : x ≠ 'x') (t : Text) :
    unescape? ('\\' :: x :: t) = (escaped? x).bind fun c => (unescape? t).map (c :: ·) := by
  rw [unescape?]
  · cases escaped? x <;> cases unescape? t <;> rfl
  · intro a b t hc
    exact absurd hc hx

theorem unescape?_single {c : Char} (hc : c ≠ '\\') (t : Text) :
    unescape? (c :: t) = (unescape? t).map (c :: ·) := by
  rw [unescape?]
  all_goals simp [hc]

/-- What was escaped is read back. -/
theorem unescape?_escape (t : Text) : unescape? (escape t) = some t := by
  induction t with
  | nil => rfl
  | cons c t ih =>
    rw [escape_cons]
    obtain ⟨x, hx, hne, -, he⟩ | ⟨hx, -, hb, -⟩ := escapeChar_cases c
    · rw [hx]
      change unescape? ('\\' :: x :: escape t) = _
      rw [unescape?_pair hne, he, ih]
      rfl
    · rw [hx, List.singleton_append, unescape?_single hb, ih]
      rfl

/-- Inside of a string, what was escaped stays inside. -/
theorem markedFrom_escape (t rest : Text) :
    markedFrom (.inside .string false) (escape t ++ '"' :: rest) =
      quoted (escape t ++ ['"']) ++ marked rest := by
  induction t with
  | nil => rfl
  | cons c t ih =>
    rw [escape_cons]
    obtain ⟨x, hx, -⟩ | ⟨hx, hq, hb, -⟩ := escapeChar_cases c
    · rw [hx]
      simp [markedFrom, Quote.next, Quote.isFree, quoted, ih]
    · rw [hx]
      simp [markedFrom, Quote.next, Quote.isFree, Delimiter.mark, quoted, hq, hb, ih]

theorem newline_not_mem_escape (t : Text) : '\n' ∉ escape t := by
  intro h
  obtain ⟨c, -, hc⟩ := List.mem_flatMap.mp h
  obtain ⟨x, hx, -, hn, -⟩ | ⟨hx, -, -, hn⟩ := escapeChar_cases c
  · rw [hx] at hc
    simp [hn.symm] at hc
  · rw [hx] at hc
    simp [hn.symm] at hc

/-- Marks of characters that belong to literals or to words. -/
def Solid (ms : List Mark) : Prop := ∀ m ∈ ms, m.free = true → isWordChar m.char = true

theorem solid_quoted (t : Text) : Solid (quoted t) := by
  intro m hm hf
  obtain ⟨c, -, rfl⟩ := List.mem_map.mp hm
  cases hf

theorem solid_freed {t : Text} (h : ∀ c ∈ t, isWordChar c = true) : Solid (freed t) := by
  intro m hm _
  obtain ⟨c, hc, rfl⟩ := List.mem_map.mp hm
  exact h c hc

theorem Solid.isOpenly {ms : List Mark} (h : Solid ms) {m : Mark} (hm : m ∈ ms) {c : Char}
    (hc : isWordChar c = false) : m.isOpenly c = false := by
  cases hf : m.free with
  | false => simp [Mark.isOpenly, hf]
  | true => simp [Mark.isOpenly, ne_of_isWordChar (h m hm hf) hc]

theorem Solid.depthStep {ms : List Mark} (h : Solid ms) {m : Mark} (hm : m ∈ ms) :
    m.depthStep = 0 := by
  cases hf : m.free with
  | false => simp [Mark.depthStep, hf]
  | true =>
    have hne {c : Char} (hc : isWordChar c = false) : m.char ≠ c := ne_of_isWordChar (h m hm hf) hc
    rw [Mark.depthStep, hf]
    simp only [Bool.not_true, Bool.false_eq_true, if_false]
    split
    all_goals first
      | rfl
      | exact absurd ‹_› (hne (by decide))

/-- Nothing of a literal or of a word is squeezed. -/
theorem Solid.squeeze_append {ms : List Mark} (h : Solid ms) (hne : ms ≠ []) (inRun : Bool)
    (rest : List Mark) : squeeze inRun (ms ++ rest) = unmarked ms ++ squeeze false rest := by
  induction ms generalizing inRun with
  | nil => exact absurd rfl hne
  | cons m ms ih =>
    have hm : (m.free && isBlank m.char) = false := by
      cases hf : m.free with
      | false => rfl
      | true => exact isBlank_of_isWordChar (h m (by simp) hf)
    rw [List.cons_append, squeeze, if_neg (by simp [hm])]
    cases ms with
    | nil => rfl
    | cons k ks => rw [ih (fun m hm => h m (by simp [hm])) (by simp)]; rfl

/-- A literal or a word belongs to one piece. -/
theorem Solid.splitMarks {ms : List Mark} (h : Solid ms) {sep : Char}
    (hs : isWordChar sep = false) (rest : List Mark) :
    Text.splitMarks sep 0 (ms ++ rest) =
      ms.foldr (fun m ps => consFirst m.char ps) (Text.splitMarks sep 0 rest) := by
  induction ms with
  | nil => rfl
  | cons m ms ih =>
    rw [List.cons_append, Text.splitMarks, h.isOpenly (by simp) hs, h.depthStep (by simp),
      Int.add_zero, ih fun m hm => h m (by simp [hm])]
    rfl

theorem foldr_consFirst (ms : List Mark) (p : Text) (ps : List Text) :
    ms.foldr (fun m ps => consFirst m.char ps) (p :: ps) = (unmarked ms ++ p) :: ps := by
  induction ms with
  | nil => rfl
  | cons m ms ih => rw [List.foldr_cons, ih]; rfl

/-- A word and what stands behind a blank. -/
theorem firstWord_spaced {w t : Text} (hne : w ≠ []) (hw : ∀ c ∈ w, isBlank c = false)
    (hfirst : ∀ c ∈ t.head?, isBlank c = false) (hlast : ∀ c ∈ t.getLast?, isBlank c = false)
    (ht : t ≠ []) : firstWord (w ++ ' ' :: t) = (w, t) := by
  have htrim : trim (w ++ ' ' :: t) = w ++ ' ' :: t := by
    refine trim_eq_self (fun c hc => ?_) fun c hc => ?_
    · rw [List.head?_append_of_ne_nil _ hne] at hc
      exact hw c (List.mem_of_head? hc)
    · rw [List.getLast?_append_of_ne_nil _ (by simp), List.getLast?_cons_of_ne_nil ht] at hc
      exact hlast c hc
  have hstart : trimStart (' ' :: t) = t := by
    cases t with
    | nil => exact absurd rfl ht
    | cons c t =>
      have hb : isBlank ' ' = true := by decide
      simp [trimStart, hb, hfirst c (by simp)]
  have hspan : (w ++ ' ' :: t).span (fun c => !isBlank c) = (w, ' ' :: t) := by
    rw [List.span_eq_takeWhile_dropWhile, List.takeWhile_append_of_pos (by simpa using hw),
      List.dropWhile_append_of_pos (by simpa using hw)]
    have hb : (!isBlank ' ') = false := by decide
    simp [hb]
  unfold firstWord
  rw [htrim, hspan]
  dsimp only
  rw [hstart]

end Text

/-- An item of a data directive. -/
inductive DataItem where
  | text (t : Text)
  | number (w : Word)
  deriving DecidableEq, Repr

namespace DataItem

open Text

/-- An item as it is written: a string in double quotes, or a decimal number. -/
def source : DataItem → Text
  | .text t => '"' :: (escape t ++ ['"'])
  | .number w => Numeral.decimal w.toNat

/-- The words that an item stands for: the codes of its characters modulo `2 ^ 16`, or its value. -/
def words : DataItem → List Word
  | .text t => t.map fun c => UInt16.ofNat (c.toNat % 2 ^ 16)
  | .number w => [w]

def marks : DataItem → List Mark
  | .text t => quoted ('"' :: (escape t ++ ['"']))
  | .number w => freed (Numeral.decimal w.toNat)

variable (i : DataItem)

theorem scannedAs : Expr.ScannedAs i.source i.marks := by
  cases i with
  | number w => exact Expr.scannedAs_word (Expr.isWordChar_decimal w)
  | text t =>
    refine ⟨fun rest => ?_, fun m hm => ?_⟩
    · change ⟨'"', false⟩ :: markedFrom (.inside .string false) (escape t ++ ['"'] ++ rest) =
        ⟨'"', false⟩ :: (quoted (escape t ++ ['"']) ++ marked rest)
      rw [List.append_assoc, List.singleton_append, markedFrom_escape]
    · obtain ⟨c, -, rfl⟩ := List.mem_map.mp hm
      exact Expr.inert_quoted c

theorem solid_marks : Solid i.marks := by
  cases i with
  | text t => exact solid_quoted _
  | number w => exact solid_freed (Expr.isWordChar_decimal w)

theorem source_ne_nil : i.source ≠ [] := by
  cases i with
  | text t => exact List.cons_ne_nil _ _
  | number w => exact Numeral.decimal_ne_nil _

theorem marks_ne_nil : i.marks ≠ [] := by
  intro h
  apply i.source_ne_nil
  rw [← i.scannedAs.unmarked, h]
  rfl

/-- An item starts with a quote or with a digit. -/
theorem of_mem_head? {c : Char} (h : c ∈ i.source.head?) : c = '"' ∨ c.isDigit = true := by
  cases i with
  | text t => exact .inl (Option.some.inj h).symm
  | number w => exact .inr (Numeral.isDigit_of_mem_decimal (List.mem_of_head? h))

theorem of_mem_getLast? {c : Char} (h : c ∈ i.source.getLast?) : c = '"' ∨ c.isDigit = true := by
  cases i with
  | text t =>
    left
    rw [source, ← List.cons_append, List.getLast?_append_of_ne_nil _ (by simp)] at h
    exact (Option.some.inj h).symm
  | number w => exact .inr (Numeral.isDigit_of_mem_decimal (List.mem_of_getLast? h))

end DataItem

/-- Quotes and digits are not blank. -/
theorem Text.isBlank_of_quote_or_digit {c : Char} (h : c = '"' ∨ c.isDigit = true) :
    isBlank c = false := by
  rcases h with rfl | h
  · decide
  · exact isBlank_of_isWordChar (isWordChar_of_isDigit h)

namespace DataItem

theorem trim_source (i : DataItem) : Text.trim i.source = i.source :=
  Text.trim_eq_self (fun _ hc => Text.isBlank_of_quote_or_digit (i.of_mem_head? hc))
    fun _ hc => Text.isBlank_of_quote_or_digit (i.of_mem_getLast? hc)

theorem trim_spaced_source (i : DataItem) : Text.trim (' ' :: i.source) = i.source := by
  have hb : Text.isBlank ' ' = true := by decide
  have h := i.trim_source
  rw [Text.trim, Text.trimStart] at h ⊢
  rwa [List.dropWhile_cons_of_pos hb]

/-- What a directive takes an item for. -/
def datum : DataItem → Datum
  | .text t => .string t
  | .number w => .expr (Numeral.decimal w.toNat)

/-- A written item is read as what it was. -/
theorem ofItem_source (i : DataItem) : Datum.ofItem i.source = i.datum := by
  cases i with
  | text t =>
    have hu : Text.unquote? (source (.text t)) = some (Text.escape t) := by
      rw [Text.unquote?, trim_source]
      simp [source, Text.dropLast?]
    change (((Text.unquote? (source (.text t))).bind Text.unescape?).map Datum.string).getD .bad = _
    rw [hu, Option.bind_some, Text.unescape?_escape]
    rfl
  | number w =>
    have hq : ∀ rest, Numeral.decimal w.toNat ≠ '"' :: rest := by
      intro rest h
      have := Numeral.isDigit_of_mem_decimal (h ▸ List.mem_cons_self (a := '"') (l := rest))
      revert this
      decide
    unfold Datum.ofItem
    dsimp only [source]
    split
    next h => exact absurd h (Numeral.decimal_ne_nil _)
    next rest h => exact absurd h (hq rest)
    next => rfl

end DataItem

section Line

open Text

/-- The items of a directive as they are written, with commas between them. -/
def dataArgs (items : List DataItem) : Text := joinWith ", ".toList (items.map DataItem.source)

/-- A line with a data directive. -/
def dataLine (head : Text) (items : List DataItem) : Text := head ++ ' ' :: dataArgs items

/-- The items after the first one, each behind a comma and a blank. -/
def dataTail (items : List DataItem) : Text := items.flatMap fun i => ',' :: ' ' :: i.source

def tailMarks (items : List DataItem) : List Mark :=
  items.flatMap fun i => ⟨',', true⟩ :: ⟨' ', true⟩ :: i.marks

def lineMarks (head : Text) (i : DataItem) (is : List DataItem) : List Mark :=
  freed head ++ ⟨' ', true⟩ :: (i.marks ++ tailMarks is)

variable {head : Text} {i : DataItem} {is : List DataItem}

theorem dataArgs_cons (i : DataItem) (is : List DataItem) :
    dataArgs (i :: is) = i.source ++ dataTail is := by
  rw [dataArgs, List.map_cons, joinWith, List.flatMap_map]
  rfl

theorem dataTail_cons (i : DataItem) (is : List DataItem) :
    dataTail (i :: is) = ',' :: ' ' :: (i.source ++ dataTail is) := rfl

theorem tailMarks_cons (i : DataItem) (is : List DataItem) :
    tailMarks (i :: is) = ⟨',', true⟩ :: ⟨' ', true⟩ :: (i.marks ++ tailMarks is) := rfl

theorem marked_dataTail (is : List DataItem) : marked (dataTail is) = tailMarks is := by
  induction is with
  | nil => rfl
  | cons i is ih =>
    have h : marked ([',', ' '] ++ (i.source ++ dataTail is)) = _ :=
      marked_append_of_free (by simp)
    rw [i.scannedAs.marked, ih] at h
    exact h

theorem marked_dataArgs (i : DataItem) (is : List DataItem) :
    marked (dataArgs (i :: is)) = i.marks ++ tailMarks is := by
  rw [dataArgs_cons, i.scannedAs.marked, marked_dataTail]

theorem marked_dataLine (hw : ∀ c ∈ head, isWordChar c = true) (i : DataItem)
    (is : List DataItem) : marked (dataLine head (i :: is)) = lineMarks head i is := by
  have h : marked ([' '] ++ dataArgs (i :: is)) = _ := marked_append_of_free (by simp)
  rw [dataLine, (Expr.scannedAs_word hw).marked]
  rw [marked_dataArgs] at h
  exact congrArg (freed head ++ ·) h

/-- Outside of strings, only words, commas and blanks are found in a data line. -/
theorem isOpenly_of_mem_lineMarks (hw : ∀ c ∈ head, isWordChar c = true) {m : Mark}
    (hm : m ∈ lineMarks head i is) {c : Char} (hc : isWordChar c = false) (hcomma : c ≠ ',')
    (hblank : c ≠ ' ') : m.isOpenly c = false := by
  have htail : ∀ m ∈ tailMarks is, m.isOpenly c = false := by
    intro m hm
    obtain ⟨j, -, hm⟩ := List.mem_flatMap.mp hm
    rcases List.mem_cons.mp hm with rfl | hm
    · simp [Mark.isOpenly, hcomma.symm]
    · rcases List.mem_cons.mp hm with rfl | hm
      · simp [Mark.isOpenly, hblank.symm]
      · exact j.solid_marks.isOpenly hm hc
  rcases List.mem_append.mp hm with hm | hm
  · exact (solid_freed hw).isOpenly hm hc
  · rcases List.mem_cons.mp hm with rfl | hm
    · simp [Mark.isOpenly, hblank.symm]
    · rcases List.mem_append.mp hm with hm | hm
      · exact i.solid_marks.isOpenly hm hc
      · exact htail m hm

theorem squeeze_tailMarks (is : List DataItem) : squeeze false (tailMarks is) = dataTail is := by
  induction is with
  | nil => rfl
  | cons i is ih =>
    have h := i.solid_marks.squeeze_append i.marks_ne_nil true (tailMarks is)
    rw [i.scannedAs.unmarked, ih] at h
    rw [tailMarks_cons, dataTail_cons, ← h]
    rfl

theorem squeeze_lineMarks (hw : ∀ c ∈ head, isWordChar c = true) (hne : head ≠ []) :
    squeeze false (lineMarks head i is) = dataLine head (i :: is) := by
  have hitem := i.solid_marks.squeeze_append i.marks_ne_nil true (tailMarks is)
  rw [i.scannedAs.unmarked, squeeze_tailMarks, ← dataArgs_cons] at hitem
  rw [lineMarks, (solid_freed hw).squeeze_append (by simpa [freed] using hne), unmarked_freed,
    dataLine, ← hitem]
  rfl

theorem of_mem_head?_dataArgs {c : Char} (h : c ∈ (dataArgs (i :: is)).head?) :
    c = '"' ∨ c.isDigit = true := by
  rw [dataArgs_cons, List.head?_append_of_ne_nil _ i.source_ne_nil] at h
  exact i.of_mem_head? h

theorem dataArgs_ne_nil : dataArgs (i :: is) ≠ [] := by
  rw [dataArgs_cons]
  exact fun h => i.source_ne_nil (List.append_eq_nil_iff.mp h).1

theorem of_mem_getLast?_dataArgs {c : Char} (h : c ∈ (dataArgs (i :: is)).getLast?) :
    c = '"' ∨ c.isDigit = true := by
  induction is generalizing i with
  | nil =>
    rw [dataArgs_cons, dataTail, List.flatMap_nil, List.append_nil] at h
    exact i.of_mem_getLast? h
  | cons j js ih =>
    rw [dataArgs_cons, dataTail_cons, ← dataArgs_cons,
      List.getLast?_append_of_ne_nil _ (List.cons_ne_nil _ _),
      List.getLast?_cons_of_ne_nil (List.cons_ne_nil _ _),
      List.getLast?_cons_of_ne_nil dataArgs_ne_nil] at h
    exact ih h

theorem trim_dataLine (hw : ∀ c ∈ head, isWordChar c = true) (hne : head ≠ []) :
    trim (dataLine head (i :: is)) = dataLine head (i :: is) := by
  refine trim_eq_self (fun c hc => ?_) fun c hc => ?_
  · rw [dataLine, List.head?_append_of_ne_nil _ hne] at hc
    exact isBlank_of_isWordChar (hw c (List.mem_of_head? hc))
  · rw [dataLine, List.getLast?_append_of_ne_nil _ (List.cons_ne_nil _ _),
      List.getLast?_cons_of_ne_nil dataArgs_ne_nil] at hc
    exact isBlank_of_quote_or_digit (of_mem_getLast?_dataArgs hc)

/-- No part of a data line is a comment, and no blank of it is one too many. -/
theorem clean_dataLine (hw : ∀ c ∈ head, isWordChar c = true) (hne : head ≠ []) :
    clean (dataLine head (i :: is)) = dataLine head (i :: is) := by
  have hcomment : dropComment (dataLine head (i :: is)) = dataLine head (i :: is) := by
    rw [dropComment, List.takeWhile_eq_self_iff.mpr, unmarked_marked, trim_dataLine hw hne]
    intro m hm
    rw [marked_dataLine hw] at hm
    rw [isOpenly_of_mem_lineMarks hw hm (by decide) (by decide) (by decide)]
    rfl
  rw [clean, hcomment, collapse, trim_dataLine hw hne, marked_dataLine hw,
    squeeze_lineMarks hw hne]

/-- A data line has no label. -/
theorem ofLine?_dataLine (hw : ∀ c ∈ head, isWordChar c = true) :
    LabelPart.ofLine? (dataLine head (i :: is)) = none := by
  have hcut : cutAt ':' (dataLine head (i :: is)) = none := by
    have hall : ∀ m ∈ lineMarks head i is, (!m.isOpenly ':') = true := by
      intro m hm
      rw [isOpenly_of_mem_lineMarks hw hm (by decide) (by decide) (by decide)]
      rfl
    rw [cutAt, marked_dataLine hw, List.span_eq_takeWhile_dropWhile,
      List.dropWhile_eq_nil_iff.mpr hall]
  rw [LabelPart.ofLine?, hcut]

theorem splitMarks_tailMarks (i : DataItem) (is : List DataItem) :
    splitMarks ',' 0 (i.marks ++ tailMarks is) =
      i.source :: is.map fun j => ' ' :: j.source := by
  rw [i.solid_marks.splitMarks (by decide)]
  induction is generalizing i with
  | nil =>
    change i.marks.foldr _ [[]] = _
    rw [foldr_consFirst, i.scannedAs.unmarked, List.append_nil]
    rfl
  | cons j js ih =>
    have hrest : splitMarks ',' 0 (tailMarks (j :: js)) =
        [] :: (' ' :: j.source) :: js.map fun j => ' ' :: j.source := by
      rw [tailMarks_cons]
      change [] :: consFirst ' ' (splitMarks ',' (0 + 0) (j.marks ++ tailMarks js)) = _
      rw [Int.add_zero, j.solid_marks.splitMarks (by decide), ih j]
      rfl
    rw [hrest, foldr_consFirst, i.scannedAs.unmarked, List.append_nil]
    rfl

/-- Exactly the items are read. -/
theorem items_dataArgs (i : DataItem) (is : List DataItem) :
    Datum.items (dataArgs (i :: is)) = (i :: is).map DataItem.datum := by
  rw [Datum.items, splitFree, marked_dataArgs, splitMarks_tailMarks, List.map_cons, List.map_cons,
    i.trim_source, i.ofItem_source, List.map_map]
  congr 1
  refine List.map_congr_left fun j _ => ?_
  rw [Function.comp_apply, j.trim_spaced_source, j.ofItem_source]

theorem newline_not_mem_dataLine (hw : ∀ c ∈ head, isWordChar c = true) (items : List DataItem) :
    '\n' ∉ dataLine head items := by
  have hitem (j : DataItem) : '\n' ∉ j.source := by
    intro h
    cases j with
    | text t =>
      have := newline_not_mem_escape t
      simp [DataItem.source, this] at h
    | number w => exact absurd (Numeral.isDigit_of_mem_decimal h) (by decide)
  have htail (is : List DataItem) : '\n' ∉ dataTail is := by
    intro h
    obtain ⟨j, -, hj⟩ := List.mem_flatMap.mp h
    simp [hitem j] at hj
  have hhead : '\n' ∉ head := fun h => absurd (hw _ h) (by decide)
  cases items with
  | nil => simp [dataLine, dataArgs, joinWith, hhead]
  | cons i is => simp [dataLine, dataArgs_cons, hhead, hitem, htail]

end Line

namespace Text

theorem splitWhere_of_none {p : Char → Bool} {t : Text} (h : ∀ c ∈ t, p c = false) :
    splitWhere p t = [t] := by
  induction t with
  | nil => rfl
  | cons c t ih =>
    have ht := ih fun c hc => h c (by simp [hc])
    rw [splitWhere] at ht ⊢
    rw [List.foldr_cons, ht, if_neg (by simp [h c])]
    rfl

theorem lines_of_single {t : Text} (hne : t ≠ []) (h : '\n' ∉ t) : lines t = [t] := by
  have hs : splitOn '\n' t = [t] := by
    refine splitWhere_of_none fun c hc => ?_
    rw [beq_eq_false_iff_ne]
    rintro rfl
    exact h hc
  unfold lines
  rw [hs]
  simp [hne]

end Text

/-- How a data directive can be written, in letters of either case. -/
def dataNames : List Text := [".dat".toList, "dat".toList, ".dw".toList]

section Directive

variable {v : Session} {head : Text} {i : DataItem} {is : List DataItem}

theorem isWordChar_of_mem_dataName (h : Text.lower head ∈ dataNames) {c : Char} (hc : c ∈ head) :
    Text.isWordChar c = true := by
  have hall : dataNames.all (fun n => n.all Text.isWordChar) = true := by decide
  have hm : c.toLower ∈ Text.lower head := List.mem_map_of_mem hc
  rw [← Text.isWordChar_toLower]
  exact List.all_eq_true.mp (List.all_eq_true.mp hall _ h) _ hm

theorem dataName_ne_nil (h : Text.lower head ∈ dataNames) : head ≠ [] := by
  rintro rfl
  revert h
  decide

/-- The directive behind the dot. -/
theorem dataName_cases (h : Text.lower head ∈ dataNames) :
    Text.lower head = "dat".toList ∨
      ∃ word, head = '.' :: word ∧ Text.lower word ∈ ["dat".toList, "dw".toList] := by
  have hdot (rest : Text) (hr : Text.lower head = '.' :: rest) :
      ∃ word, head = '.' :: word ∧ Text.lower word = rest := by
    cases head with
    | nil => cases hr
    | cons c word =>
      obtain ⟨hc, hword⟩ := List.cons_eq_cons.mp hr
      exact ⟨word, by rw [(Text.toLower_eq_iff (by decide)).mp hc], hword⟩
  simp only [dataNames, List.mem_cons, List.not_mem_nil, or_false] at h
  rcases h with h | h | h
  · obtain ⟨word, hw, hl⟩ := hdot "dat".toList (h.trans (by decide))
    exact .inr ⟨word, hw, by simp [hl]⟩
  · exact .inl h
  · obtain ⟨word, hw, hl⟩ := hdot "dw".toList (h.trans (by decide))
    exact .inr ⟨word, hw, by simp [hl]⟩

theorem firstWord_dataLine (hne : head ≠ []) (hw : ∀ c ∈ head, Text.isWordChar c = true) :
    Text.firstWord (dataLine head (i :: is)) = (head, dataArgs (i :: is)) :=
  Text.firstWord_spaced hne (fun c hc => Text.isBlank_of_isWordChar (hw c hc))
    (fun _ hc => Text.isBlank_of_quote_or_digit (of_mem_head?_dataArgs hc))
    (fun _ hc => Text.isBlank_of_quote_or_digit (of_mem_getLast?_dataArgs hc)) dataArgs_ne_nil

/-- No item is taken for the definition of an equate. -/
theorem sameFolded_firstWord_dataArgs :
    Text.sameFolded (Text.firstWord (dataArgs (i :: is))).1 ".equ".toList = false := by
  cases ha : dataArgs (i :: is) with
  | nil => exact absurd ha dataArgs_ne_nil
  | cons c t =>
    have hm : c ∈ (dataArgs (i :: is)).head? := by rw [ha]; rfl
    have hc := of_mem_head?_dataArgs hm
    have hne : c.toLower ≠ '.' := by
      intro h
      rw [(Text.toLower_eq_iff (by decide)).mp h] at hc
      revert hc
      decide
    rw [Text.firstWord_cons (Text.isBlank_of_quote_or_digit hc)]
    simp [Text.sameFolded, Text.lower, hne]

/-- A data line is the directive with a dot in front. -/
theorem exists_canonical_dataLine (h : Text.lower head ∈ dataNames) (i : DataItem)
    (is : List DataItem) :
    ∃ word, canonicalStatement (dataLine head (i :: is)) = '.' :: dataLine word (i :: is) ∧
      Text.lower word ∈ ["dat".toList, "dw".toList] ∧ ∀ c ∈ word, Text.isWordChar c = true := by
  have hw := fun c (hc : c ∈ head) => isWordChar_of_mem_dataName h hc
  unfold canonicalStatement
  rw [firstWord_dataLine (dataName_ne_nil h) hw]
  dsimp only
  rw [sameFolded_firstWord_dataArgs, Bool.and_false, if_neg (by decide)]
  rcases dataName_cases h with hd | ⟨word, rfl, hword⟩
  · rw [if_pos (by rw [Text.sameFolded, hd]; rfl)]
    exact ⟨head, rfl, by simp [hd], hw⟩
  · rw [if_neg (by simp [Text.sameFolded, Text.lower])]
    exact ⟨word, rfl, hword, fun c hc => hw c (by simp [hc])⟩

theorem parse_dataLine {word : Text} (h : Text.lower word ∈ ["dat".toList, "dw".toList])
    (hw : ∀ c ∈ word, Text.isWordChar c = true) :
    Directive.parse ('.' :: dataLine word (i :: is)) = (some .data, dataArgs (i :: is)) := by
  have hne : word ≠ [] := by
    rintro rfl
    revert h
    decide
  unfold Directive.parse
  rw [List.drop_one, List.tail_cons, firstWord_dataLine hne hw]
  dsimp only
  rw [Directive.ofName?]
  simp only [List.mem_cons, List.not_mem_nil, or_false] at h
  rcases h with h | h
  · rw [h]
    rfl
  · rw [h]
    rfl

theorem DataItem.textWords_eq_words (t : Text) : textWords t = words (.text t) := by
  refine List.map_congr_left fun c _ => ?_
  rw [← UInt16.toNat_inj]
  simp

/-- An item adds its words and looks up no name. -/
theorem DataRun.add_datum (hp : v.hooks.plugins = []) (p : Position) (run : DataRun)
    (i : DataItem) :
    run.add v p i.datum = .ok { run with cells := run.cells ++ i.words.map Cell.fixed } := by
  cases i with
  | text t =>
    rw [DataItem.datum, add, DataItem.textWords_eq_words]
  | number w =>
    have he : Expr.eval ⟨run.symbols, v.hooks, p, v.literal⟩ (Numeral.decimal w.toNat) =
        .ok (.ofWord w) := Expr.eval_decimal hp w
    rw [DataItem.datum, add, Session.eval, he]
    have hpush : run.cells ++ [Cell.fixed w] = run.cells.push (Cell.fixed w) := by simp
    change _ = Except.ok { run with cells := run.cells ++ [Cell.fixed w] }
    rw [hpush]
    rfl

theorem dataCells_datum (hp : v.hooks.plugins = []) (s : SymbolTable) (p : Position)
    (items : List DataItem) : dataCells v s p (items.map DataItem.datum) =
      .ok { symbols := s, cells := ((items.flatMap DataItem.words).map Cell.fixed).toArray } := by
  have hfold (run : DataRun) : (items.map DataItem.datum).foldlM (DataRun.add v p) run =
      .ok { run with cells := run.cells ++ (items.flatMap DataItem.words).map Cell.fixed } := by
    induction items generalizing run with
    | nil => simp; rfl
    | cons i is ih =>
      rw [List.map_cons, List.foldlM_cons, DataRun.add_datum hp]
      change (is.map DataItem.datum).foldlM (DataRun.add v p) _ = _
      rw [ih]
      simp [← Array.toList_inj]
  rw [dataCells, hfold]
  simp

/-- The entry that a data line becomes. -/
def Draft.dataEntry (d : Draft) (l : SourceLine) (items : List DataItem) : Entry :=
  { d.entry l (canonicalStatement l.text) with body := .words (items.flatMap DataItem.words) }

theorem Body.ofCells_fixed (ws : List Word) : ofCells (ws.map Cell.fixed) = .words ws := by
  rw [ofCells, if_neg (by simp [Cell.fixed])]
  simp [Cell.fixed, Function.comp_def]

theorem Draft.data_dataArgs (hp : v.hooks.plugins = []) (d : Draft) (e : Entry) :
    d.data v e (dataArgs (i :: is)) =
      .ok (d.push { e with body := .words ((i :: is).flatMap DataItem.words) }) := by
  have hargs : (dataArgs (i :: is)).isEmpty = false := by simpa using dataArgs_ne_nil
  rw [data, hargs, items_dataArgs, dataCells_datum hp]
  change Except.ok (d.push { e with body := .ofCells (((i :: is).flatMap DataItem.words).map
    Cell.fixed) }) = _
  rw [Body.ofCells_fixed]

/-- Reading a data line adds one entry and changes nothing else. -/
theorem Draft.line_dataLine (hp : v.hooks.plugins = []) (h : Text.lower head ∈ dataNames)
    {d : Draft} {l : SourceLine} (ha : d.blocks.active = true)
    (hl : l.text = dataLine head (i :: is)) :
    d.line v l = .ok (d.push (d.dataEntry l (i :: is))) := by
  have hw := fun c (hc : c ∈ head) => isWordChar_of_mem_dataName h hc
  have hne : (dataLine head (i :: is)).isEmpty = false := by
    simp [dataLine]
  obtain ⟨word, hcanon, hword, hwc⟩ := exists_canonical_dataLine h i is
  have hclaim (c : LineContext) (t : Text) : v.hooks.claim? c t = none := by
    simp [Hooks.claim?, hp]
  have hlabel : d.takeLabel l (dataLine head (i :: is)) = (d, dataLine head (i :: is)) := by
    rw [takeLabel, ofLine?_dataLine hw]
  unfold line
  rw [hl, clean_dataLine hw (dataName_ne_nil h)]
  dsimp only
  rw [hne, ha, hclaim, hlabel]
  dsimp only
  rw [statement, hne]
  dsimp only
  rw [hcanon]
  change d.directive v l ('.' :: dataLine word (i :: is)) = _
  unfold directive
  rw [parse_dataLine hword hwc]
  dsimp only
  rw [data_dataArgs hp, dataEntry, hl, hcanon]

end Directive

namespace Layout

variable {v : Session}

theorem refreshAt_of_fixed {l : Layout} (h : ∀ e ∈ l.entries.toList, e.body.isVariable = false)
    (i : Nat) : ∃ long, l.refreshAt v i = .ok { l with long := long } := by
  unfold refreshAt
  cases he : l.entries[i]? with
  | none => exact ⟨l.long, rfl⟩
  | some e =>
    have hm : e ∈ l.entries.toList := Array.mem_toList_iff.mpr (Array.mem_of_getElem? he)
    dsimp only
    rw [h e hm]
    exact ⟨_, rfl⟩

/-- Where nothing has to be computed again, a pass changes nothing. -/
theorem pass_of_fixed {l : Layout} (h : ∀ e ∈ l.entries.toList, e.body.isVariable = false) :
    ∃ long, l.pass v = .ok { l with long := long, changed := false } := by
  have hfold (is : List Nat) (m : Layout) (hm : m.entries = l.entries) :
      ∃ long, is.foldlM (refreshAt v) m = .ok { m with long := long } := by
    induction is generalizing m with
    | nil => exact ⟨m.long, rfl⟩
    | cons i is ih =>
      obtain ⟨long, hl⟩ := refreshAt_of_fixed (v := v) (hm ▸ h) i
      rw [List.foldlM_cons, hl]
      exact ih _ hm
  exact hfold _ _ rfl

theorem settle_of_fixed {l : Layout} (h : ∀ e ∈ l.entries.toList, e.body.isVariable = false)
    (left done : Nat) :
    ∃ long, l.settle v (left + 1) done =
      .ok ({ l with long := long, changed := false }, done + 1, true) := by
  obtain ⟨long, hl⟩ := pass_of_fixed (v := v) h
  refine ⟨long, ?_⟩
  rw [settle, hl]
  rfl

end Layout

section Run

variable {v : Session} {d : Draft}

/-- Without anything to be computed again, the draft is the program. -/
theorem Session.finish_of_fixed (hp : v.hooks.plugins = [])
    (h : ∀ e ∈ d.entries.toList, e.body.isVariable = false) :
    v.finish d = .ok ⟨d.entries.toList, d.symbols, 1, true, d.events.toList⟩ := by
  obtain ⟨left, hleft⟩ : ∃ left, max v.settings.maxPasses 1 = left + 1 :=
    Nat.exists_eq_succ_of_ne_zero (by omega)
  obtain ⟨long, hs⟩ := Layout.settle_of_fixed (v := v) (l := d.layout) h left 0
  unfold finish
  dsimp only
  change (d.layout.settle v (max v.settings.maxPasses 1) 0 >>= _) = _
  rw [hleft, hs]
  simp [bind, Except.bind, pure, Except.pure, hp, Draft.layout]

theorem Feed.next?_ofFile_single {t : Text} (hne : t ≠ []) (h : '\n' ∉ t) (file : Text) :
    (Feed.ofFile file t).next? =
      some (⟨t, file, 1, 1⟩, ⟨[⟨file, [], .counted 1⟩], 1⟩) := by
  have hl := Text.lines_of_single hne h
  unfold Feed.next? ofFile pushFile
  rw [hl]
  rfl

theorem Draft.readAll_of_next? {d' : Draft} {l : SourceLine} {feed : Feed}
    (hn : d.feed.next? = some (l, feed)) (hl : { d with feed := feed }.line v l = .ok d')
    (steps : Nat) : d.readAll v (steps + 1) = d'.readAll v steps := by
  rw [readAll, hn]
  dsimp only
  rw [hl]

/-- A data line as a program of its own: the draft has the one entry. -/
theorem Draft.exists_readAll_dataLine (hp : v.hooks.plugins = []) {head : Text}
    (hhead : Text.lower head ∈ dataNames) (i : DataItem) (is : List DataItem) (steps : Nat)
    (file : Text) :
    ∃ d e, (v.start file (dataLine head (i :: is))).readAll v (steps + 2) = .ok d ∧
      d.entries = #[e] ∧ d.symbols = v.symbols ∧ d.events = #[] ∧ e.fault = none ∧
      e.body = .words ((i :: is).flatMap DataItem.words) := by
  have hw := fun c (hc : c ∈ head) => isWordChar_of_mem_dataName hhead hc
  have hnext := Feed.next?_ofFile_single (t := dataLine head (i :: is)) (by simp [dataLine])
    (newline_not_mem_dataLine hw _) file
  have hread := readAll_of_next? (v := v) (d := v.start file (dataLine head (i :: is))) hnext
    (line_dataLine hp hhead rfl rfl) (steps + 1)
  obtain ⟨c, hpush⟩ := push_eq (_ : Draft) (_ : Entry)
  rw [hpush] at hread
  exact ⟨_, _, hread, rfl, rfl, rfl, rfl, rfl⟩

/-- Data lines emit what is written. Wherever lines count, such a line becomes one entry whose words
are those of the items one after the other, and nothing else is changed by it; as a program of its
own it is assembled without a fault. -/
theorem dataLine_emits (hp : v.hooks.plugins = []) (head : Text) (items : List DataItem)
    (hhead : Text.lower head ∈ dataNames) (hne : items ≠ []) :
    (∀ (d : Draft) (l : SourceLine), d.blocks.active = true → l.text = dataLine head items →
      ∃ e, d.line v l = .ok (d.push e) ∧ e.fault = none ∧
        e.output = items.flatMap DataItem.words) ∧
    ∀ (steps : Nat) (file : Text), 2 ≤ steps →
      ∃ e, v.run steps file (dataLine head items) = .ok ⟨[e], v.symbols, 1, true, []⟩ ∧
        e.fault = none ∧ e.output = items.flatMap DataItem.words := by
  cases items with
  | nil => exact absurd rfl hne
  | cons i is =>
    constructor
    · intro d l ha hl
      exact ⟨_, Draft.line_dataLine hp hhead ha hl, rfl, rfl⟩
    · intro steps file hsteps
      obtain ⟨n, rfl⟩ := Nat.exists_eq_add_of_le' hsteps
      obtain ⟨d, e, hd, hes, hsym, hev, hfault, hbody⟩ :=
        Draft.exists_readAll_dataLine hp hhead i is n file
      have hfixed : ∀ e ∈ d.entries.toList, e.body.isVariable = false := by
        rw [hes]
        intro x hx
        obtain rfl : x = e := by simpa using hx
        rw [hbody]
        rfl
      have hown : e.own = none := Draft.own_of_readAll hp hd e (by simp [hes])
      refine ⟨e, ?_, hfault, by rw [Entry.output_of_own hown, hbody]; rfl⟩
      rw [Session.run, hd]
      change v.finish d = _
      rw [Session.finish_of_fixed hp hfixed, hes, hsym, hev]

/-- All marks of the language inside of a string, behind a number and before another string. -/
theorem dataLine_emits_sample :
    ∃ e, Session.bare.run 2 [] ".DAT 7, \"a;:,\\\"(  \\n\", \"\"".toList =
        .ok ⟨[e], {}, 1, true, []⟩ ∧ e.fault = none ∧
      e.output = [7, 97, 59, 58, 44, 34, 40, 32, 32, 10] :=
  (dataLine_emits (v := .bare) rfl ".DAT".toList
    [.number 7, .text "a;:,\"(  \n".toList, .text []] (by decide) (by decide)).2 2 [] (by decide)

end Run

end Dcpu
