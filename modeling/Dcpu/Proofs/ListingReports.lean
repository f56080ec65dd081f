import Dcpu.Listing.Text
import Mathlib.Data.List.Basic
import Mathlib.Data.List.Flatten

/-! The diagnostics in the listing. The lines of a listing that report something, read off their
text behind the columns, are the lines of the diagnostics in order. -/
namespace Dcpu.Listing

inductive Severity where
  | error | warning
  deriving DecidableEq, Repr

/-- How a line of the listing starts that reports something. -/
def Severity.heading : Severity → String
  | .error => "ERROR: "
  | .warning => "WARNING: "

/-- How a diagnostic starts. -/
def Severity.name : Severity → String
  | .error => "Error"
  | .warning => "Warning"

/-- A diagnostic and the place of its entry. An entry that is not listed has no address. -/
structure Notice where
  severity : Severity
  file : Text
  line : Nat
  address : Option Word
  message : String
  deriving DecidableEq, Repr

namespace Notice

def location (n : Notice) : Text :=
  (n.address.map fun w => "[0x".toList ++ Numeral.hexWord w ++ "] ".toList).getD
    "[NOLIST] ".toList

/-- The line of the listing. -/
def row (w : Widths) (n : Notice) : Text :=
  Text.padEnd w.file n.file ++
    Text.padEnd w.line ("(line ".toList ++ Numeral.decimal n.line ++ "): ".toList) ++ n.location ++
    n.severity.heading.toList ++ n.message.toList ++ ['\n']

/-- The diagnostic by itself. -/
def text (n : Notice) : Text :=
  n.severity.name.toList ++ ' ' :: n.file ++ " (line ".toList ++ Numeral.decimal n.line ++
    "): ".toList ++ n.message.toList

end Notice

def entryNotice (e : Entry) (severity : Severity) (message : String) : Notice :=
  ⟨severity, e.file, e.line, if e.listed then some e.address else none, message⟩

/-- The diagnostics of an entry, the error first. -/
def entryNotices (e : Entry) : List Notice :=
  (e.fault.map fun f => entryNotice e .error f.message).toList ++
    (e.caution.map fun c => entryNotice e .warning c.message).toList

def notices (es : List Entry) : List Notice := es.flatMap entryNotices

/-- The lines of the listing. -/
def rows (es : List Entry) : List Text := es.flatMap (entryRows (.ofEntries es))

/-- Whether a line reports something: behind the columns stands one of the headings. -/
def isReport (w : Widths) (line : Text) : Bool :=
  [Severity.error, .warning].any fun s =>
    s.heading.toList.isPrefixOf (line.drop (w.file + w.line + 9))

/-- The lines of the listing that report something. -/
def reports (es : List Entry) : List Text := (rows es).filter (isReport (.ofEntries es))

theorem diagnostics_eq (es : List Entry) : diagnostics es = (notices es).map Notice.text := by
  unfold diagnostics notices
  rw [List.map_flatMap]
  congr 1
  funext e
  cases hf : e.fault <;> cases hc : e.caution <;>
    simp [entryNotices, entryNotice, hf, hc, diagnostic, Notice.text, Severity.name]

section Columns

variable {es : List Entry} {e : Entry} {address : Word} {t : Text}

theorem le_foldl_max {l : List Nat} {a n : Nat} (h : n ≤ a ∨ n ∈ l) : n ≤ l.foldl max a := by
  induction l generalizing a with
  | nil => simpa using h
  | cons b l ih =>
    refine ih ?_
    rcases h with h | h
    · exact .inl (Nat.le_trans h (Nat.le_max_left ..))
    · rcases List.mem_cons.mp h with rfl | h
      · exact .inl (Nat.le_max_right ..)
      · exact .inr h

theorem length_le_utf8Length (t : Text) : t.length ≤ Text.utf8Length t := by
  induction t with
  | nil => exact Nat.le_refl 0
  | cons c t ih =>
    have hc : 0 < c.utf8Size := Char.utf8Size_pos c
    have hstep : Text.utf8Length (c :: t) = c.utf8Size + Text.utf8Length t := rfl
    rw [List.length_cons, hstep]
    omega

theorem length_padEnd {n : Nat} (h : t.length ≤ n) : (Text.padEnd n t).length = n := by
  rw [Text.padEnd, List.length_rightpad, Nat.max_eq_left h]

theorem length_hexWord (w : Word) : (Numeral.hexWord w).length = 4 := by
  have hw : w.toNat < 16 ^ 4 := w.toNat_lt
  have hlen : (Numeral.hex w.toNat).length ≤ 4 := by
    rw [Numeral.hex, List.length_map]
    exact (Nat.length_toDigits_le_iff (by decide) (by decide)).mpr hw
  rw [Numeral.hexWord, List.length_leftpad, Nat.max_eq_left hlen]

/-- All lines of a listing have their text at the same column. -/
theorem drop_row (he : e ∈ es) :
    (row (.ofEntries es) e address t).drop
      ((Widths.ofEntries es).file + (Widths.ofEntries es).line + 9) = t ++ ['\n'] := by
  have hfile : e.file.length ≤ (Widths.ofEntries es).file := by
    have hmax : Text.utf8Length e.file + 1 ≤ (Widths.ofEntries es).file :=
      le_foldl_max (.inr (List.mem_map_of_mem he))
    have hlen := length_le_utf8Length e.file
    omega
  have hline : (lineColumn e).length ≤ (Widths.ofEntries es).line :=
    le_foldl_max (.inr (List.mem_map_of_mem he))
  have hlocation : (if e.listed then "[0x".toList ++ Numeral.hexWord address ++ "] ".toList
      else "[NOLIST] ".toList).length = 9 := by
    split
    · rw [List.length_append, List.length_append, length_hexWord]
      rfl
    · rfl
  rw [row, List.append_assoc _ t, List.drop_left']
  rw [List.length_append, List.length_append, length_padEnd hfile, length_padEnd hline, hlocation]

end Columns

section Output

variable {es : List Entry} {e : Entry} {address : Word} {t u : Text}

/-- The characters of words in the listing. -/
def isOutputChar (c : Char) : Bool := " 0123456789ABCDEF".toList.contains c

theorem exists_digit_of_mem_toDigits {b n : Nat} {c : Char} (hb : 1 < b) (h : c ∈ b.toDigits n) :
    ∃ d < b, c = d.digitChar := by
  induction n using Nat.strongRecOn with
  | ind n ih =>
    rw [Nat.toDigits_eq_if hb] at h
    split at h
    next hn => exact ⟨n, hn, List.mem_singleton.mp h⟩
    next hn =>
      rcases List.mem_append.mp h with h | h
      · exact ih (n / b) (Nat.div_lt_self (by omega) hb) h
      · exact ⟨n % b, Nat.mod_lt n (by omega), List.mem_singleton.mp h⟩

theorem isOutputChar_of_mem_hexWord {w : Word} {c : Char} (h : c ∈ Numeral.hexWord w) :
    isOutputChar c = true := by
  have hdigits : ∀ d < 16, isOutputChar (Nat.digitChar d).toUpper = true := by decide
  rw [Numeral.hexWord, List.leftpad, List.mem_append] at h
  rcases h with h | h
  · rw [(List.mem_replicate.mp h).2]
    decide
  · obtain ⟨d, hd, rfl⟩ := List.mem_map.mp h
    obtain ⟨k, hk, rfl⟩ := exists_digit_of_mem_toDigits (by decide) hd
    exact hdigits k hk

theorem isOutputChar_of_mem_hexWords {ws : List Word} {c : Char} (h : c ∈ hexWords ws) :
    isOutputChar c = true := by
  cases ws with
  | nil => cases h
  | cons w ws =>
    rw [hexWords, List.map_cons, Text.joinWith, List.mem_append, List.mem_flatMap] at h
    rcases h with h | ⟨q, hq, h⟩
    · exact isOutputChar_of_mem_hexWord h
    · obtain ⟨w', -, rfl⟩ := List.mem_map.mp hq
      rcases List.mem_append.mp h with h | h
      · rw [List.mem_singleton.mp h]
        decide
      · exact isOutputChar_of_mem_hexWord h

theorem isReport_row (he : e ∈ es) :
    isReport (.ofEntries es) (row (.ofEntries es) e address t) =
      [Severity.error, .warning].any fun s => s.heading.toList.isPrefixOf (t ++ ['\n']) := by
  rw [isReport, drop_row he]

/-- Both headings have a character early on that is not part of words. -/
theorem isReport_of_output (he : e ∈ es) (ht : ∀ c ∈ t, isOutputChar c = true)
    (hlen : 3 ≤ t.length) :
    isReport (.ofEntries es) (row (.ofEntries es) e address (t ++ u)) = false := by
  rw [isReport_row he, List.any_eq_false]
  intro s _ hs
  obtain ⟨rest, hrest⟩ := List.isPrefixOf_iff_prefix.mp hs
  have hhead : 3 ≤ s.heading.toList.length ∧ 'R' ∈ s.heading.toList.take 3 := by
    cases s <;> decide
  have htake := congrArg (List.take 3) hrest
  rw [List.take_append_of_le_length hhead.1, List.append_assoc,
    List.take_append_of_le_length hlen] at htake
  have hR : isOutputChar 'R' = true := ht 'R' (List.mem_of_mem_take (htake ▸ hhead.2))
  revert hR
  decide

theorem isReport_code (he : e ∈ es) (hcode : isDataCode e.code = true) :
    isReport (.ofEntries es) (row (.ofEntries es) e address e.code) = false := by
  rw [isReport_row he]
  cases hc : e.code with
  | nil => simp [hc, isDataCode] at hcode
  | cons c t =>
    rw [hc, isDataCode, Bool.and_eq_true, Bool.or_eq_true, beq_iff_eq, beq_iff_eq] at hcode
    obtain ⟨rfl | rfl, -⟩ := hcode
    · rfl
    · rfl

theorem isReport_words (he : e ∈ es) {ws : List Word} (hws : ws ≠ []) :
    isReport (.ofEntries es) (row (.ofEntries es) e address (hexWords ws)) = false := by
  have hlen : 3 ≤ (hexWords ws).length := by
    obtain ⟨w, ws, rfl⟩ := List.exists_cons_of_ne_nil hws
    rw [hexWords, List.map_cons, Text.joinWith, List.length_append, length_hexWord]
    omega
  rw [← List.append_nil (hexWords ws)]
  exact isReport_of_output he (fun _ => isOutputChar_of_mem_hexWords) hlen

theorem isReport_output (he : e ∈ es) :
    isReport (.ofEntries es)
      (row (.ofEntries es) e address (Text.padEnd 16 (hexWords e.output) ++ e.code)) = false := by
  refine isReport_of_output he (fun c hc => ?_) ?_
  · rw [Text.padEnd, List.rightpad, List.mem_append] at hc
    rcases hc with hc | hc
    · exact isOutputChar_of_mem_hexWords hc
    · rw [(List.mem_replicate.mp hc).2]
      decide
  · rw [Text.padEnd, List.length_rightpad]
    omega

theorem ne_nil_of_mem_dataRows {ws : List Word} {r : Word × List Word}
    (h : r ∈ dataRows address ws) : r.2 ≠ [] := by
  fun_induction dataRows address ws with
  | case1 => cases h
  | case2 address w rest ih =>
    rcases List.mem_cons.mp h with rfl | h
    · exact List.cons_ne_nil _ _
    · exact ih h

end Output

section Rows

variable {es : List Entry} {e : Entry}

theorem row_entryNotice (w : Widths) (e : Entry) (s : Severity) (message : String) :
    (entryNotice e s message).row w = row w e e.address (s.heading.toList ++ message.toList) := by
  have hlocation : (entryNotice e s message).location =
      if e.listed then "[0x".toList ++ Numeral.hexWord e.address ++ "] ".toList
      else "[NOLIST] ".toList := by
    rw [Notice.location, entryNotice]
    split
    · rfl
    · rfl
  rw [Notice.row, hlocation, row, ← List.append_assoc]
  rfl

/-- The notices of an entry as they stand in the listing. -/
theorem map_row_entryNotices (w : Widths) (e : Entry) :
    (entryNotices e).map (Notice.row w) =
      (e.fault.map fun f => row w e e.address ("ERROR: ".toList ++ f.message.toList)).toList ++
        (e.caution.map fun c => row w e e.address ("WARNING: ".toList ++ c.message.toList)).toList := by
  cases hf : e.fault <;> cases hc : e.caution <;>
    simp [entryNotices, hf, hc, row_entryNotice, Severity.heading]

/-- No message goes over more than one line. -/
theorem exists_of_mem_entryNotices {n : Notice} (h : n ∈ entryNotices e) :
    ∃ s message, n = entryNotice e s message ∧ '\n' ∉ message.toList := by
  rw [entryNotices, List.mem_append, Option.mem_toList, Option.mem_toList,
    Option.map_eq_some_iff, Option.map_eq_some_iff] at h
  rcases h with ⟨f, -, rfl⟩ | ⟨c, -, rfl⟩
  · exact ⟨_, _, rfl, by cases f <;> decide⟩
  · exact ⟨_, _, rfl, by cases c <;> decide⟩

theorem isReport_notice (he : e ∈ es) {n : Notice} (hn : n ∈ entryNotices e) :
    isReport (.ofEntries es) (n.row (.ofEntries es)) = true := by
  obtain ⟨s, message, rfl, -⟩ := exists_of_mem_entryNotices hn
  have hs : s ∈ [Severity.error, .warning] := by cases s <;> decide
  rw [row_entryNotice, isReport_row he, List.any_eq_true]
  refine ⟨s, hs, List.isPrefixOf_iff_prefix.mpr ?_⟩
  rw [List.append_assoc]
  exact List.prefix_append ..

/-- Entries other than data report their notices, and nothing else in a listing is a report. -/
theorem filter_entryRows (he : e ∈ es) :
    (entryRows (.ofEntries es) e).filter (isReport (.ofEntries es)) =
      if isData e then [] else (entryNotices e).map (Notice.row (.ofEntries es)) := by
  unfold entryRows
  split
  next hd =>
    have hcode : isDataCode e.code = true := by
      rw [isData, Bool.and_eq_true] at hd
      exact hd.2
    refine List.filter_eq_nil_iff.mpr fun line hline => ?_
    rw [Bool.not_eq_true]
    rcases List.mem_cons.mp hline with rfl | hline
    · exact isReport_code he hcode
    · obtain ⟨r, hr, rfl⟩ := List.mem_map.mp hline
      exact isReport_words he (ne_nil_of_mem_dataRows hr)
  next =>
    have hall : ((entryNotices e).map (Notice.row (.ofEntries es))).filter
        (isReport (.ofEntries es)) = (entryNotices e).map (Notice.row (.ofEntries es)) := by
      refine List.filter_eq_self.mpr fun line hline => ?_
      obtain ⟨n, hn, rfl⟩ := List.mem_map.mp hline
      exact isReport_notice he hn
    rw [← map_row_entryNotices, List.filter_append, hall, List.filter_singleton,
      isReport_output he, cond_false, List.append_nil]

theorem reports_eq (es : List Entry) :
    reports es = es.flatMap fun e =>
      if isData e then [] else (entryNotices e).map (Notice.row (.ofEntries es)) := by
  rw [reports, rows, List.filter_flatMap]
  exact List.flatMap_congr fun e he => filter_entryRows he

/-- Nothing is reported that is no diagnostic. -/
theorem reports_sublist (es : List Entry) :
    (reports es).Sublist ((notices es).map (Notice.row (.ofEntries es))) := by
  rw [reports_eq, notices, List.map_flatMap]
  refine List.Sublist.flatMap_right es fun e _ => ?_
  split
  · exact List.nil_sublist _
  · exact List.Sublist.refl _

/-- A data directive has no errors. -/
theorem entryNotices_of_isData (hd : isData e = true) (hc : e.caution = none) :
    entryNotices e = [] := by
  rw [isData, Bool.and_eq_true, Bool.and_eq_true, Option.isNone_iff_eq_none] at hd
  rw [entryNotices, hd.1.2, hc]
  rfl

/-- Every diagnostic is reported, the warnings of data directives left aside. -/
theorem sublist_reports (es : List Entry) :
    ((notices (es.filter fun e => !(isData e && e.caution.isSome))).map
      (Notice.row (.ofEntries es))).Sublist (reports es) := by
  rw [reports_eq, notices, List.map_flatMap]
  refine List.Sublist.trans (List.Sublist.flatMap_right _ fun e he => ?_)
    (List.Sublist.flatMap List.filter_sublist _)
  have hquiet := (List.mem_filter.mp he).2
  split
  next hd =>
    have hc : e.caution = none := by simpa [hd] using hquiet
    rw [entryNotices_of_isData hd hc]
    exact List.nil_sublist _
  next => exact List.Sublist.refl _

end Rows

section Lines

variable {e : Entry} {w : Widths} {address : Word} {t : Text}

theorem ne_newline_of_isOutputChar {c : Char} (h : isOutputChar c = true) : c ≠ '\n' := by
  rintro rfl
  revert h
  decide

theorem newline_not_mem_hexWords (ws : List Word) : '\n' ∉ hexWords ws := fun h =>
  ne_newline_of_isOutputChar (isOutputChar_of_mem_hexWords h) rfl

theorem newline_not_mem_padEnd (n : Nat) (h : '\n' ∉ t) : '\n' ∉ Text.padEnd n t := by
  rw [Text.padEnd, List.rightpad, List.mem_append, not_or]
  refine ⟨h, fun hn => ?_⟩
  cases (List.mem_replicate.mp hn).2

theorem newline_not_mem_lineColumn (e : Entry) : '\n' ∉ lineColumn e := by
  have hdecimal : '\n' ∉ Numeral.decimal e.line := fun h => by
    cases Numeral.isDigit_of_mem_decimal h
  change '\n' ∉ "(line ".toList ++ Numeral.decimal e.line ++ "): ".toList
  rw [List.mem_append, List.mem_append, not_or, not_or]
  exact ⟨⟨by decide, hdecimal⟩, by decide⟩

/-- A row is one line. -/
theorem exists_row_eq (hfile : '\n' ∉ e.file) (ht : '\n' ∉ t) :
    ∃ u, row w e address t = u ++ ['\n'] ∧ '\n' ∉ u := by
  refine ⟨_, rfl, ?_⟩
  have hhex : '\n' ∉ Numeral.hexWord address := fun h =>
    ne_newline_of_isOutputChar (isOutputChar_of_mem_hexWord h) rfl
  have hlocation : '\n' ∉ (if e.listed then "[0x".toList ++ Numeral.hexWord address ++ "] ".toList
      else "[NOLIST] ".toList) := by
    split
    · rw [List.mem_append, List.mem_append, not_or, not_or]
      exact ⟨⟨by decide, hhex⟩, by decide⟩
    · decide
  rw [List.mem_append, List.mem_append, List.mem_append, not_or, not_or, not_or]
  exact ⟨⟨⟨newline_not_mem_padEnd _ hfile, newline_not_mem_padEnd _ (newline_not_mem_lineColumn e)⟩,
    hlocation⟩, ht⟩

theorem exists_eq_of_mem_entryRows (hfile : '\n' ∉ e.file) (hcode : '\n' ∉ e.code)
    (h : t ∈ entryRows w e) : ∃ u, t = u ++ ['\n'] ∧ '\n' ∉ u := by
  unfold entryRows at h
  split at h
  · rcases List.mem_cons.mp h with rfl | h
    · exact exists_row_eq hfile hcode
    · obtain ⟨r, -, rfl⟩ := List.mem_map.mp h
      exact exists_row_eq hfile (newline_not_mem_hexWords r.2)
  · rw [← map_row_entryNotices, List.mem_append, List.mem_singleton] at h
    rcases h with h | rfl
    · obtain ⟨n, hn, rfl⟩ := List.mem_map.mp h
      obtain ⟨s, message, rfl, hm⟩ := exists_of_mem_entryNotices hn
      have hs : '\n' ∉ s.heading.toList := by cases s <;> decide
      rw [row_entryNotice]
      exact exists_row_eq hfile (by rw [List.mem_append, not_or]; exact ⟨hs, hm⟩)
    · refine exists_row_eq hfile ?_
      rw [List.mem_append, not_or]
      exact ⟨newline_not_mem_padEnd _ (newline_not_mem_hexWords _), hcode⟩

end Lines

/-- The listing reports the diagnostics, each on a line with the file, the line number and the address
of its entry, or the mark of an entry that is not listed, in the order of the program. Whether the
warning of a data directive is among them is left open; all others are, and nothing else is. -/
theorem reports_diagnostics (es : List Entry) :
    diagnostics es = (notices es).map Notice.text ∧
    render es = (rows es).flatten ∧
    ((∀ e ∈ es, '\n' ∉ e.file ∧ '\n' ∉ e.code) →
      ∀ line ∈ rows es, ∃ u, line = u ++ ['\n'] ∧ '\n' ∉ u) ∧
    (reports es).Sublist ((notices es).map (Notice.row (.ofEntries es))) ∧
    ((notices (es.filter fun e => !(isData e && e.caution.isSome))).map
      (Notice.row (.ofEntries es))).Sublist (reports es) ∧
    ((∀ e ∈ es, isData e = true → e.caution = none) →
      reports es = (notices es).map (Notice.row (.ofEntries es))) := by
  refine ⟨diagnostics_eq es, rfl, fun hplain line hline => ?_, reports_sublist es,
    sublist_reports es, fun hquiet => ?_⟩
  · obtain ⟨e, he, hline⟩ := List.mem_flatMap.mp hline
    exact exists_eq_of_mem_entryRows (hplain e he).1 (hplain e he).2 hline
  · have hall : (es.filter fun e => !(isData e && e.caution.isSome)) = es := by
      refine List.filter_eq_self.mpr fun e he => ?_
      cases hd : isData e with
      | false => rfl
      | true => rw [hquiet e he hd]; rfl
    have hlower := sublist_reports es
    rw [hall] at hlower
    exact (reports_sublist es).antisymm hlower

/-- An entry with an error and a warning, one that is not listed, and data. -/
def reportSample : List Entry :=
  [{ code := "FOO 1".toList, file := "t.asm".toList, line := 9, kind := .basic, address := 0xFFFF,
     fault := some .invalidOpcode, caution := some .redundantStatement },
   { code := ".foo".toList, file := "lib".toList, line := 10, address := 0,
     fault := some .invalidDirective, listed := false },
   { code := ".dat 1".toList, file := "lib".toList, line := 11, address := 0,
     body := .data [⟨1, none⟩] }]

theorem reports_diagnostics_sample :
    (∀ e ∈ reportSample, isData e = true → e.caution = none) ∧
    (∀ e ∈ reportSample, '\n' ∉ e.file ∧ '\n' ∉ e.code) ∧
    (∀ line ∈ rows reportSample, ∃ u, line = u ++ ['\n'] ∧ '\n' ∉ u) ∧
    reports reportSample =
      ["t.asm (line 9):  [0xFFFF] ERROR: Invalid opcode.\n".toList,
       "t.asm (line 9):  [0xFFFF] WARNING: Redundant statement.\n".toList,
       "lib   (line 10): [NOLIST] ERROR: Invalid preprocessor directive.\n".toList] := by
  have hquiet : ∀ e ∈ reportSample, isData e = true → e.caution = none := by decide
  have hplain : ∀ e ∈ reportSample, '\n' ∉ e.file ∧ '\n' ∉ e.code := by decide
  obtain ⟨-, -, hlines, -, -, hreports⟩ := reports_diagnostics reportSample
  refine ⟨hquiet, hplain, hlines hplain, ?_⟩
  rw [hreports hquiet]
  decide

/-- The address of an entry that is not listed does not occur. -/
theorem render_unlisted :
    diagnostics
      [{ code := "FOO".toList, file := "t".toList, line := 1, address := 7,
         fault := some .invalidOpcode, listed := false }] =
      ["Error t (line 1): Invalid opcode.".toList] ∧
    ¬ Numeral.hexWord 7 <:+: render
      [{ code := "FOO".toList, file := "t".toList, line := 1, address := 7,
         fault := some .invalidOpcode, listed := false }] := by
  decide +kernel

end Dcpu.Listing
