import Dcpu.Grammar.Standard
import Dcpu.Proofs.Equates
import Dcpu.Proofs.Matching
import Dcpu.Proofs.Outcome
import Mathlib.Data.List.Nodup

/-! Which texts the standard grammar accepts as instructions. A text is one exactly if it has the form
of a mnemonic and its operands, and then every operand is accepted too. -/
namespace Dcpu
open Answer Pattern Grammar

/-- The text is the name in any case, all spaces and tabs that follow, and the rest. -/
def Headed (name rest t : Text) : Prop :=
  ∃ m w, t = m ++ (w ++ rest) ∧ Text.sameFolded m name = true ∧ w ≠ [] ∧
    (∀ c ∈ w, isSpace c = true) ∧ ∀ c ∈ rest.head?, isSpace c = false

/-- A mnemonic with two operands and the first comma that separates between them. -/
structure BasicForm (name b a t : Text) : Prop where
  head : Headed name (b ++ ',' :: a) (Text.trim t)
  comma : FirstComma .outside 0 b
  b : Text.trim b ≠ []
  a : Text.trim a ≠ []

/-- A mnemonic with one operand. -/
structure NonBasicForm (name a t : Text) : Prop where
  head : Headed name a (Text.trim t)
  a : Text.trim a ≠ []

/-- The text has one of the two forms, with a mnemonic of the table for it. -/
def HasForm (t : Text) : Prop :=
  (∃ r ∈ basicMnemonics, ∃ b a, BasicForm r.2.toList b a t) ∨
    ∃ r ∈ nonBasicMnemonics, ∃ a, NonBasicForm r.2.toList a t

section Patterns

variable {name t : Text} {out : Captures}

theorem matchPieces_headed {ps : List Piece} {found : Captures} :
    matchPieces (name.map .char ++ .gap :: ps) t found = some out ↔
      ∃ rest, Headed name rest t ∧ matchPieces ps rest found = some out := by
  rw [matchPieces_chars]
  constructor
  · rintro ⟨m, u, rfl, hm, h⟩
    obtain ⟨w, rest, rfl, hne, hw, hr, h⟩ := matchPieces_gap.mp h
    exact ⟨rest, ⟨m, w, rfl, hm, hne, hw, hr⟩, h⟩
  · rintro ⟨rest, ⟨m, w, rfl, hm, hne, hw, hr⟩, h⟩
    exact ⟨m, w ++ rest, rfl, hm, matchPieces_gap.mpr ⟨w, rest, rfl, hne, hw, hr, h⟩⟩

/-- The comma before the last operand, with spaces and tabs behind it. -/
theorem matchPieces_comma {a : Text} {found : Captures} :
    matchPieces [.optionalGap, .char ',', .optionalGap, .capture '%' .a] (',' :: a) found =
        some out ↔
      Text.trim a ≠ [] ∧ found.set .a (Text.trim a) = out := by
  have hcomma : (',' :: a).dropWhile isSpace = ',' :: a :=
    List.dropWhile_cons_of_neg (by decide)
  rw [matchPieces, hcomma, matchPieces, if_pos (by decide), matchPieces, matchPieces_last,
    trim_dropWhile_isSpace]

theorem matchPieces_operands :
    matchPieces [.capture '%' .b, .optionalGap, .char ',', .optionalGap, .capture '%' .a] t {} =
        some out ↔
      ∃ b a, t = b ++ ',' :: a ∧ FirstComma .outside 0 b ∧ Text.trim b ≠ [] ∧ Text.trim a ≠ [] ∧
        out = ⟨some (Text.trim a), some (Text.trim b), none⟩ := by
  have hcapture : captureLength? [.optionalGap, .char ',', .optionalGap, .capture '%' .a] t =
      commaIndex? 0 (Text.markedFrom .outside t) := rfl
  rw [matchPieces_capture, hcapture]
  constructor
  · rintro ⟨n, hn, hb, h⟩
    obtain ⟨b, a, rfl, rfl, hfirst⟩ := commaIndex?_eq_some.mp hn
    rw [List.take_left] at hb h
    rw [List.drop_left] at h
    obtain ⟨ha, rfl⟩ := matchPieces_comma.mp h
    exact ⟨b, a, rfl, hfirst, hb, ha, rfl⟩
  · rintro ⟨b, a, rfl, hfirst, hb, ha, rfl⟩
    refine ⟨b.length, commaIndex?_eq_some.mpr ⟨b, a, rfl, rfl, hfirst⟩, ?_, ?_⟩
    · rwa [List.take_left]
    · rw [List.take_left, List.drop_left]
      exact matchPieces_comma.mpr ⟨ha, rfl⟩

theorem matchPieces_basic (hname : name.all (fun c => !Piece.isSigil c) = true) :
    matchPieces (Piece.parse (name ++ "_%b-,-%a".toList)) (Text.trim t) {} = some out ↔
      ∃ b a, BasicForm name b a t ∧ out = ⟨some (Text.trim a), some (Text.trim b), none⟩ := by
  have hpieces : Piece.parse (name ++ "_%b-,-%a".toList) = name.map .char ++ .gap ::
      [.capture '%' .b, .optionalGap, .char ',', .optionalGap, .capture '%' .a] :=
    Piece.parse_append hname _
  rw [hpieces, matchPieces_headed]
  constructor
  · rintro ⟨rest, hhead, h⟩
    obtain ⟨b, a, rfl, hfirst, hb, ha, rfl⟩ := matchPieces_operands.mp h
    exact ⟨b, a, ⟨hhead, hfirst, hb, ha⟩, rfl⟩
  · rintro ⟨b, a, h, rfl⟩
    refine ⟨b ++ ',' :: a, h.head, ?_⟩
    exact matchPieces_operands.mpr ⟨b, a, rfl, h.comma, h.b, h.a, rfl⟩

theorem matchPieces_nonBasic (hname : name.all (fun c => !Piece.isSigil c) = true) :
    matchPieces (Piece.parse (name ++ "_%a".toList)) (Text.trim t) {} = some out ↔
      ∃ a, NonBasicForm name a t ∧ out = ⟨some (Text.trim a), none, none⟩ := by
  have hpieces : Piece.parse (name ++ "_%a".toList) = name.map .char ++ .gap ::
      [.capture '%' .a] := Piece.parse_append hname _
  rw [hpieces, matchPieces_headed]
  constructor
  · rintro ⟨a, hhead, h⟩
    obtain ⟨ha, rfl⟩ := matchPieces_last.mp h
    exact ⟨a, ⟨hhead, ha⟩, rfl⟩
  · rintro ⟨a, h, rfl⟩
    exact ⟨a, h.head, matchPieces_last.mpr ⟨h.a, rfl⟩⟩

end Patterns

section Tables

variable {names : List (UInt8 × String)} {t rest rest' : Text} {r s : UInt8 × String}

/-- Mnemonics of a table: they have no sigils and one length, and no two are the same in any case. -/
structure IsMnemonicTable (names : List (UInt8 × String)) : Prop where
  plain : ∀ r ∈ names, r.2.toList.all (fun c => !Piece.isSigil c) = true
  length : ∀ r ∈ names, r.2.toList.length = 3
  nodup : (names.map fun r => Text.lower r.2.toList).Nodup

theorem isMnemonicTable_basic : IsMnemonicTable basicMnemonics :=
  ⟨by decide, by decide, by decide⟩

theorem isMnemonicTable_nonBasic : IsMnemonicTable nonBasicMnemonics :=
  ⟨by decide, by decide, by decide⟩

/-- A text starts with one mnemonic only. -/
theorem IsMnemonicTable.eq_of_headed (h : IsMnemonicTable names) (hr : r ∈ names) (hs : s ∈ names)
    (hhead : Headed r.2.toList rest t) (hhead' : Headed s.2.toList rest' t) : r = s := by
  obtain ⟨m, w, rfl, hm, -⟩ := hhead
  obtain ⟨m', w', heq, hm', -⟩ := hhead'
  have hlen := (Text.length_of_sameFolded hm).trans (h.length r hr)
  have hlen' := (Text.length_of_sameFolded hm').trans (h.length s hs)
  obtain ⟨rfl, -⟩ := List.append_inj heq (hlen.trans hlen'.symm)
  rw [Text.sameFolded, beq_iff_eq] at hm hm'
  exact List.inj_on_of_nodup_map h.nodup hr hs (hm.symm.trans hm')

/-- What the records of a table accept if all have the same form behind the mnemonic. A text matches
one of them at most, so their order does not matter. -/
theorem IsMnemonicTable.match?_iff {kind : TableKind} {tail : Text} {P : Text → Captures → Prop}
    (h : IsMnemonicTable names)
    (htable : standard.table kind = names.map fun r => ⟨r.2.toList ++ tail, r.1⟩)
    (hpieces : ∀ r ∈ names, ∀ found,
      matchPieces (Piece.parse (r.2.toList ++ tail)) (Text.trim t) {} = some found ↔
        P r.2.toList found)
    (hhead : ∀ name found, P name found → ∃ rest, Headed name rest (Text.trim t))
    {code : UInt8} {found : Captures} :
    (standard.match? kind t).map Match.reading = some (code, found) ↔
      ∃ name, (code, name) ∈ names ∧ P name.toList found := by
  have hrecord {r : UInt8 × String} (hr : r ∈ names) {m : Match} :
      (⟨r.2.toList ++ tail, r.1⟩ : Pattern).match? t = some m ↔
        ∃ found, P r.2.toList found ∧ ⟨⟨r.2.toList ++ tail, r.1⟩, found⟩ = m := by
    rw [Pattern.match?, Option.map_eq_some_iff]
    exact exists_congr fun found => and_congr_left fun _ => hpieces r hr found
  have hfind {m : Match} : standard.match? kind t = some m ↔
      ∃ r ∈ names, (⟨r.2.toList ++ tail, r.1⟩ : Pattern).match? t = some m := by
    rw [Grammar.match?, htable, List.findSome?_map]
    -- Two records that apply have the same mnemonic at the head of the text.
    refine findSome?_eq_some_of_unique fun r hr s hs m m' hm hm' => ?_
    obtain ⟨found, ha, -⟩ := (hrecord hr).mp hm
    obtain ⟨found', ha', -⟩ := (hrecord hs).mp hm'
    obtain ⟨rest, hrest⟩ := hhead _ _ ha
    obtain ⟨rest', hrest'⟩ := hhead _ _ ha'
    exact h.eq_of_headed hr hs hrest hrest'
  rw [Option.map_eq_some_iff]
  constructor
  · rintro ⟨m, hm, hread⟩
    obtain ⟨r, hr, hm⟩ := hfind.mp hm
    obtain ⟨found', ha, rfl⟩ := (hrecord hr).mp hm
    obtain ⟨rfl, rfl⟩ := Prod.mk.inj hread
    exact ⟨r.2, hr, ha⟩
  · rintro ⟨name, hr, ha⟩
    exact ⟨_, hfind.mpr ⟨_, hr, (hrecord hr).mpr ⟨found, ha, rfl⟩⟩, rfl⟩

theorem match?_opcode {code : UInt8} {found : Captures} :
    (standard.match? .opcode t).map Match.reading = some (code, found) ↔
      ∃ name, (code, name) ∈ basicMnemonics ∧ ∃ b a, BasicForm name.toList b a t ∧
        found = ⟨some (Text.trim a), some (Text.trim b), none⟩ := by
  have htable : standard.table .opcode =
      basicMnemonics.map fun r => ⟨r.2.toList ++ "_%b-,-%a".toList, r.1⟩ := by
    simp [table, standard, patterns]
  have hhead : ∀ name (found : Captures), (∃ b a, BasicForm name b a t ∧
      found = ⟨some (Text.trim a), some (Text.trim b), none⟩) →
      ∃ rest, Headed name rest (Text.trim t) := by
    rintro name found ⟨b, a, hform, -⟩
    exact ⟨_, hform.head⟩
  exact isMnemonicTable_basic.match?_iff htable
    (fun r hr _ => matchPieces_basic (isMnemonicTable_basic.plain r hr)) hhead

theorem match?_nonBasic {code : UInt8} {found : Captures} :
    (standard.match? .nonBasic t).map Match.reading = some (code, found) ↔
      ∃ name, (code, name) ∈ nonBasicMnemonics ∧ ∃ a, NonBasicForm name.toList a t ∧
        found = ⟨some (Text.trim a), none, none⟩ := by
  have htable : standard.table .nonBasic =
      nonBasicMnemonics.map fun r => ⟨r.2.toList ++ "_%a".toList, r.1⟩ := by
    simp [table, standard, patterns]
  have hhead : ∀ name (found : Captures), (∃ a, NonBasicForm name a t ∧
      found = ⟨some (Text.trim a), none, none⟩) → ∃ rest, Headed name rest (Text.trim t) := by
    rintro name found ⟨a, hform, -⟩
    exact ⟨_, hform.head⟩
  exact isMnemonicTable_nonBasic.match?_iff htable
    (fun r hr _ => matchPieces_nonBasic (isMnemonicTable_nonBasic.plain r hr)) hhead

/-- The last record takes every text as a literal. -/
theorem isSome_match?_value (h : Text.trim t ≠ []) : (standard.match? .value t).isSome = true := by
  refine List.findSome?_isSome_iff.mpr ⟨⟨"$a".toList, 0x1F⟩, by decide, ?_⟩
  have hlast : matchPieces [.capture '$' .literal] (Text.trim t) {} =
      some { literal := some (Text.trim (Text.trim t)) } :=
    matchPieces_last.mpr ⟨(Text.trim_trim t).symm ▸ h, rfl⟩
  rw [Pattern.match?, Option.isSome_map]
  exact Option.isSome_iff_exists.mpr ⟨_, hlast⟩

/-- The operands of a form are accepted as well, so a text is recognised as a whole or not at all. -/
theorem recognise?_standard (t : Text) :
    (¬ HasForm t ∧ standard.recognise? t = none) ∨
      HasForm t ∧ ((∃ op a b, standard.recognise? t = some ⟨.basic, op, some a, some b⟩) ∨
        ∃ op a, standard.recognise? t = some ⟨.nonBasic, op, some a, none⟩) := by
  have hvalue {u : Text} (hu : Text.trim u ≠ []) :
      ∃ m, standard.match? .value (Text.trim u) = some m :=
    Option.isSome_iff_exists.mp (isSome_match?_value ((Text.trim_trim u).symm ▸ hu))
  have hread {m : Match} {kind : TableKind} (hm : standard.match? kind t = some m) :
      (standard.match? kind t).map Match.reading = some (m.pattern.code, m.captures) := by
    rw [hm]
    rfl
  unfold recognise?
  cases hop : standard.match? .opcode t with
  | some m =>
    obtain ⟨p, found⟩ := m
    obtain ⟨name, hr, b, a, hform, rfl⟩ := match?_opcode.mp (hread hop)
    obtain ⟨ma, hma⟩ := hvalue hform.a
    obtain ⟨mb, hmb⟩ := hvalue hform.b
    exact .inr ⟨.inl ⟨_, hr, b, a, hform⟩, .inl ⟨_, ma, mb, by rw [← hma, ← hmb]; rfl⟩⟩
  | none =>
    cases hnon : standard.match? .nonBasic t with
    | some m =>
      obtain ⟨p, found⟩ := m
      obtain ⟨name, hr, a, hform, rfl⟩ := match?_nonBasic.mp (hread hnon)
      obtain ⟨ma, hma⟩ := hvalue hform.a
      exact .inr ⟨.inr ⟨_, hr, a, hform⟩, .inr ⟨_, ma, by rw [← hma]; rfl⟩⟩
    | none =>
      refine .inl ⟨?_, rfl⟩
      rintro (⟨r, hr, b, a, hform⟩ | ⟨r, hr, a, hform⟩)
      · have h := match?_opcode.mpr ⟨r.2, hr, b, a, hform, rfl⟩
        rw [hop] at h
        cases h
      · have h := match?_nonBasic.mpr ⟨r.2, hr, a, hform, rfl⟩
        rw [hnon] at h
        cases h

end Tables

section Lines

variable {v : Session} {d d' : Draft} {e : Entry} {x : Abort} {t : Text}

theorem Operand.ofMatch_error {s : SymbolTable} {p : Position} {m : Match}
    (h : Operand.ofMatch v s p m = .error x) : ∃ u, v.eval s p u = .error x := by
  unfold Operand.ofMatch at h
  split at h
  · cases h
  next u _ =>
    obtain h | ⟨_, -, h⟩ := bind_eq_error.mp h
    · exact ⟨u, h⟩
    · cases h

/-- Encoding fails only if the evaluation of an operand is aborted. -/
theorem Draft.encoded_error {opcode a : Match} {b : Option Match}
    (h : d.encoded v e opcode a b = .error x) : ∃ s p u, v.eval s p u = .error x := by
  obtain h | ⟨⟨o, ok, s⟩, -, h⟩ := bind_eq_error.mp h
  · exact ⟨_, _, Operand.ofMatch_error h⟩
  obtain h | ⟨_, -, h⟩ := bind_eq_error.mp h
  · cases b with
    | none => cases h
    | some m =>
      obtain h | ⟨_, -, h⟩ := bind_eq_error.mp h
      · exact ⟨_, _, Operand.ofMatch_error h⟩
      · cases h
  · cases h

theorem Draft.encoded_entry {opcode a : Match} {b : Option Match}
    (h : d.encoded v e opcode a b = .ok d') :
    ∃ i c, d'.entries = d.entries.push { e with body := .instruction i, caution := c } := by
  obtain ⟨⟨o, ok, s⟩, -, h⟩ := bind_eq_ok.mp h
  obtain ⟨⟨o', s'⟩, -, h⟩ := bind_eq_ok.mp h
  let i := (⟨opcode.pattern.code, o, o', false⟩ : Instruction).pack (ok && !d.longForm)
  obtain ⟨c, hpush⟩ := Draft.push_eq { d with symbols := s' } { e with body := .instruction i }
  refine ⟨i, c, ?_⟩
  rw [← pure_eq_ok.mp h]
  exact congrArg Draft.entries hpush

/-- The entry of an instruction line: the fault tells whether the text has a form. -/
structure Entry.Judges (e : Entry) (t : Text) : Prop where
  code : e.code = t
  body : ∀ target, e.body ≠ .align target
  valid : e.fault ≠ some .invalidParameter
  opcode : e.fault = some .invalidOpcode ↔ ¬ HasForm t

/-- An instruction line has one entry, which judges it. -/
theorem Draft.instruction_judged {line : SourceLine} (hg : v.grammar = standard)
    (h : d.instruction v line t = .ok d') :
    ∃ e, d'.entries = d.entries.push e ∧ e.Judges t := by
  unfold instruction at h
  rw [hg] at h
  obtain ⟨hform, hr⟩ | ⟨hform, ⟨op, a, b, hr⟩ | ⟨op, a, hr⟩⟩ := recognise?_standard t
  · rw [hr] at h
    obtain rfl := Except.ok.inj h
    obtain ⟨c, hpush⟩ := d.push_eq { d.entry line t with fault := some .invalidOpcode }
    exact ⟨_, congrArg Draft.entries hpush, rfl, nofun, nofun, fun _ => hform, fun _ => rfl⟩
  · rw [hr] at h
    obtain ⟨i, c, hentries⟩ := encoded_entry h
    exact ⟨_, hentries, rfl, nofun, nofun, nofun, fun hn => absurd hform hn⟩
  · rw [hr] at h
    obtain ⟨i, c, hentries⟩ := encoded_entry h
    exact ⟨_, hentries, rfl, nofun, nofun, nofun, fun hn => absurd hform hn⟩

theorem Draft.instruction_error {line : SourceLine} (hg : v.grammar = standard)
    (h : d.instruction v line t = .error x) : HasForm t ∧ ∃ s p u, v.eval s p u = .error x := by
  unfold instruction at h
  rw [hg] at h
  obtain ⟨-, hr⟩ | ⟨hform, ⟨op, a, b, hr⟩ | ⟨op, a, hr⟩⟩ := recognise?_standard t
  · rw [hr] at h
    cases h
  · rw [hr] at h
    exact ⟨hform, encoded_error h⟩
  · rw [hr] at h
    exact ⟨hform, encoded_error h⟩

theorem Entry.judges_shiftClosed (t : Text) :
    ShiftClosed fun e e' => e.Judges t → e'.Judges t where
  refl _ h := h
  move _ _ _ _ h := ⟨h.code, h.body, h.valid, h.opcode⟩
  realign _ target _ ha h := absurd ha (h.body target)

/-- An expression without a value gives a fault of its own, and only where there is none yet. -/
theorem Entry.Judges.refresh {new : Entry} {s s' : SymbolTable} {long : Bool} (h : e.Judges t)
    (hv : e.body.isVariable = true) (hr : e.refresh v s long = .ok (new, s')) : new.Judges t := by
  obtain ⟨hnew, hb, -⟩ := Entry.refresh_cases hv hr
  obtain ⟨ok, -, hfault⟩ := Entry.refresh_outcome hr
  have hsame : ∀ f ≠ Fault.illegalExpression, new.fault = some f ↔ e.fault = some f := by
    intro f hf
    rw [hfault, checked]
    cases ok with
    | true => rfl
    | false => cases he : e.fault <;> simp [addFault, he, hf.symm]
  refine ⟨by rw [hnew, ← h.code], fun target ht => ?_, ?_, ?_⟩
  · have := hb.isVariable
    rw [ht] at this
    cases this
  · rw [Ne, hsame _ (by decide)]
    exact h.valid
  · rw [hsame _ (by decide)]
    exact h.opcode

theorem Layout.Passes.judges {l l' : Layout} {k : Nat} (h : Passes v l l')
    (hl : ∃ e, l.entries[k]? = some e ∧ e.Judges t) :
    ∃ e, l'.entries[k]? = some e ∧ e.Judges t := by
  refine h.keeps (P := fun es _ => ∃ e, es[k]? = some e ∧ e.Judges t) ?_ hl
  rintro m i m' hr ⟨e, hk, hj⟩
  have hrel := refreshAt_forall₂ (Entry.judges_shiftClosed t) hr
    fun _ _ _ _ hv hnew h => h.refresh hv hnew
  rw [← Array.getElem?_toList] at hk
  obtain ⟨e', hk', hj'⟩ := exists_getElem?_of_forall₂ hrel hk
  exact ⟨e', by rwa [Array.getElem?_toList] at hk', hj' hj⟩

end Lines

/-- The standard grammar accepts exactly the instructions that have a form, with the code of the
mnemonic and the operands without blanks around them, and every operand that is not blank. So
whatever lines and passes follow, the entry of an instruction line never has an invalid parameter,
and it has an invalid opcode exactly if the text has no form. The line has no entry only if the
evaluation of an operand is aborted. -/
theorem instructions_accepted (t : Text) :
    (∀ code found, (standard.match? .opcode t).map Match.reading = some (code, found) ↔
      ∃ name, (code, name) ∈ basicMnemonics ∧ ∃ b a, BasicForm name.toList b a t ∧
        found = ⟨some (Text.trim a), some (Text.trim b), none⟩) ∧
    (∀ code found, (standard.match? .nonBasic t).map Match.reading = some (code, found) ↔
      ∃ name, (code, name) ∈ nonBasicMnemonics ∧ ∃ a, NonBasicForm name.toList a t ∧
        found = ⟨some (Text.trim a), none, none⟩) ∧
    (Text.trim t ≠ [] → (standard.match? .value t).isSome = true) ∧
    ∀ (v : Session) (d : Draft) (line : SourceLine), v.grammar = standard →
      (∀ d' last l, d.instruction v line t = .ok d' → d'.Steps last →
        Layout.Passes v last.layout l → ∃ e, l.entries[d.entries.size]? = some e ∧ e.code = t ∧
          e.fault ≠ some .invalidParameter ∧ (e.fault = some .invalidOpcode ↔ ¬ HasForm t)) ∧
      ∀ x, d.instruction v line t = .error x → HasForm t ∧ ∃ s p u, v.eval s p u = .error x := by
  refine ⟨fun _ _ => match?_opcode, fun _ _ => match?_nonBasic, isSome_match?_value,
    fun v d line hg => ⟨fun d' last l h hsteps hpasses => ?_,
      fun x h => Draft.instruction_error hg h⟩⟩
  obtain ⟨e, hentries, hj⟩ := Draft.instruction_judged hg h
  have hk : d'.entries[d.entries.size]? = some e := by
    rw [hentries, Array.getElem?_push_size]
  obtain ⟨f, hf, hjf⟩ := hpasses.judges ⟨e, hsteps.getElem? hk, hj⟩
  exact ⟨f, hf, hjf.code, hjf.valid, hjf.opcode⟩

/-- Commas in brackets and in quotes, which do not separate. -/
theorem instructions_accepted_commas :
    (∃ name, (0x01, name) ∈ basicMnemonics ∧ ∃ b a,
      BasicForm name.toList b a "set [1,2] ,'x,'".toList ∧
      (⟨some "'x,'".toList, some "[1,2]".toList, none⟩ : Captures) =
        ⟨some (Text.trim a), some (Text.trim b), none⟩) ∧
    (standard.match? .value "[1,2]".toList).isSome = true ∧
    ∃ d' e, (Session.bare.start [] []).instruction .bare ⟨[], [], 1, 0⟩ "set [1,2]".toList = .ok d' ∧
      d'.layout.entries[0]? = some e ∧ e.code = "set [1,2]".toList ∧
      e.fault ≠ some .invalidParameter ∧
      (e.fault = some .invalidOpcode ↔ ¬ HasForm "set [1,2]".toList) := by
  have hvalue := (instructions_accepted "[1,2]".toList).2.2.1 (by decide)
  have hbasic := ((instructions_accepted "set [1,2] ,'x,'".toList).1 0x01
    ⟨some "'x,'".toList, some "[1,2]".toList, none⟩).mp (by decide +kernel)
  have hline := ((instructions_accepted "set [1,2]".toList).2.2.2 .bare (Session.bare.start [] [])
    ⟨[], [], 1, 0⟩ rfl).1
  have hno : standard.recognise? "set [1,2]".toList = none := by decide +kernel
  have hrun : (Session.bare.start [] []).instruction .bare ⟨[], [], 1, 0⟩ "set [1,2]".toList =
      .ok ((Session.bare.start [] []).pushFault ((Session.bare.start [] []).entry ⟨[], [], 1, 0⟩
        "set [1,2]".toList) .invalidOpcode) := by
    rw [Draft.instruction, show Session.bare.grammar = standard from rfl, hno]
  obtain ⟨e, he⟩ := hline _ _ _ hrun .refl .refl
  exact ⟨hbasic, hvalue, _, e, hrun, he⟩

end Dcpu
