import Dcpu.Proofs.DraftSteps
import Dcpu.Proofs.Names
import Dcpu.Proofs.Outcome
import Mathlib.Data.List.TakeDrop
import Mathlib.Data.Nat.Basic

/-! What a line adds to the listing. Its entries have the number of the line, except for notes,
which have none; an anonymous label has an entry of its own, and it comes first. -/
namespace Dcpu
open Answer

theorem Text.eq_of_cutAt {c : Char} {t before after : Text}
    (h : cutAt c t = some (before, after)) : t = before ++ c :: after := by
  unfold cutAt at h
  rw [List.span_eq_takeWhile_dropWhile] at h
  split at h
  · cases h
  next b m rest hs =>
    obtain ⟨rfl, rfl⟩ := Prod.mk.inj (Option.some.inj h)
    obtain ⟨hb, hm⟩ := Prod.mk.inj hs
    have hopen : m.isOpenly c = true := by
      have hhead := List.head?_dropWhile_not (fun m : Mark => !m.isOpenly c) (marked t)
      simpa [hm] using hhead
    have hchar : m.char = c := by
      simp only [Mark.isOpenly, Bool.and_eq_true, beq_iff_eq] at hopen
      exact hopen.2
    rw [← unmarked_marked t, ← List.takeWhile_append_dropWhile (p := fun m => !m.isOpenly c)
      (l := marked t), hb, hm]
    simp [unmarked, hchar]

/-- The text is `:$` or `$:`, perhaps with blanks. -/
def isAnonymousMark (t : Text) : Bool :=
  let signs := t.filter fun c => !Text.isBlank c
  signs == ":$".toList || signs == "$:".toList

section Marks

variable {t : Text} {c : Char}

theorem isAnonymousMark_eq_false (hc : c ∈ t) (hb : Text.isBlank c = false) (hcolon : c ≠ ':')
    (hdollar : c ≠ '$') : isAnonymousMark t = false := by
  have hmem : c ∈ t.filter fun c => !Text.isBlank c := List.mem_filter.mpr ⟨hc, by simp [hb]⟩
  have hsigns (signs : Text) (h : ∀ x ∈ signs, x = ':' ∨ x = '$') :
      (t.filter fun c => !Text.isBlank c) ≠ signs := by
    rintro rfl
    rcases h c hmem with rfl | rfl
    · exact hcolon rfl
    · exact hdollar rfl
  simp only [isAnonymousMark, Bool.or_eq_false_iff, beq_eq_false_iff_ne]
  exact ⟨hsigns _ (by simp), hsigns _ (by simp)⟩

theorem Text.filter_trim (t : Text) :
    ((Text.trim t).filter fun c => !Text.isBlank c) = t.filter fun c => !Text.isBlank c := by
  have hstart (u : Text) :
      ((u.dropWhile Text.isBlank).filter fun c => !Text.isBlank c) =
        u.filter fun c => !Text.isBlank c := by
    induction u with
    | nil => rfl
    | cons c u ih =>
      rw [List.dropWhile_cons]
      split
      next hb => simp [hb, ih]
      next => rfl
  rw [Text.trim, Text.trimEnd, List.filter_reverse, hstart, ← List.filter_reverse,
    List.reverse_reverse, Text.trimStart, hstart]

theorem isAnonymousMark_of_isWordChar (hc : c ∈ t) (hw : Text.isWordChar c = true) :
    isAnonymousMark t = false :=
  isAnonymousMark_eq_false hc (Text.isBlank_of_isWordChar hw)
    (Text.ne_of_isWordChar hw (by decide)) (Text.ne_of_isWordChar hw (by decide))

theorem isAnonymousMark_of_isLead (h : t.head?.any Directive.isLead = true) :
    isAnonymousMark t = false := by
  obtain ⟨c, hc, hlead⟩ := (Option.any_eq_true _ _).mp h
  have hmem : c ∈ t := List.mem_of_mem_head? hc
  simp only [Directive.isLead, Bool.or_eq_true, beq_iff_eq] at hlead
  rcases hlead with rfl | rfl
  · exact isAnonymousMark_eq_false hmem (by decide) (by decide) (by decide)
  · exact isAnonymousMark_eq_false hmem (by decide) (by decide) (by decide)

theorem isAnonymousMark_of_call? {call : Text × List Text} (h : Template.call? t = some call) :
    isAnonymousMark t = false := by
  simp only [Template.call?, Option.bind_eq_bind, Option.bind_eq_some_iff] at h
  obtain ⟨⟨name, rest⟩, hcut, -⟩ := h
  have hmem : '(' ∈ t := by
    rw [Text.eq_of_cutAt hcut]
    simp
  exact isAnonymousMark_eq_false hmem (by decide) (by decide) (by decide)

end Marks

namespace LabelPart

variable {t : Text} {label : LabelPart}

theorem isAnonymousMark_code (h : ofLine? t = some label) (hn : label.name = ['$']) :
    isAnonymousMark label.code = true := by
  unfold ofLine? at h
  split at h
  · cases h
  next before after hc =>
    split at h
    · obtain rfl := Option.some.inj h
      dsimp only at hn ⊢
      rw [hn]
      decide
    · obtain rfl := Option.some.inj h
      dsimp only at hn ⊢
      have hb : (before.filter fun c => !Text.isBlank c) = ['$'] := by
        rw [← Text.filter_trim, hn]
        decide
      simp only [isAnonymousMark, List.filter_append, hb]
      decide

theorem mem_code_of_mem_name (h : ofLine? t = some label) {c : Char} (hc : c ∈ label.name) :
    c ∈ label.code := by
  unfold ofLine? at h
  split at h
  · cases h
  next before after _ =>
    split at h
    · obtain rfl := Option.some.inj h
      exact List.mem_cons_of_mem _ hc
    · obtain rfl := Option.some.inj h
      exact List.mem_append_left _ (Expr.mem_of_mem_trim hc)

/-- A label with a name that can be stored is not taken for an anonymous one. -/
theorem isAnonymousMark_of_storedName? {s : SymbolTable} {stored : Text}
    (h : ofLine? t = some label) (hs : s.storedName? label.name = some stored) :
    isAnonymousMark label.code = false := by
  obtain ⟨c, hc, hw⟩ : ∃ c ∈ label.name, Text.isWordChar c = true := by
    generalize label.name = name at hs
    unfold SymbolTable.storedName? at hs
    split at hs
    · exact ⟨'.', by simp, by decide⟩
    · obtain ⟨hv, -⟩ := Option.ite_none_right_eq_some.mp hs
      have hall := Name.isWordChar_of_isStored (Name.isStored_of_isValid hv)
      cases name with
      | nil => cases hv
      | cons c name => exact ⟨c, List.mem_cons_self, hall c List.mem_cons_self⟩
  exact isAnonymousMark_of_isWordChar (mem_code_of_mem_name h hc) hw

end LabelPart

namespace Entry

variable {e : Entry} {root : Nat}

/-- The entry of an anonymous label in a listing. A note, such as a line of a macro, can have the
same text, but it has no line number. -/
def isAnonymousLabel (e : Entry) : Bool :=
  e.root != 0 && e.fault.isNone && e.body == .blank && isAnonymousMark e.code

/-- The entry has the number of a line, and its text is not that of an anonymous label. -/
structure OnLine (root : Nat) (e : Entry) : Prop where
  root : e.root = root
  code : isAnonymousMark e.code = false

/-- The entry has no number behind that of the line, and exactly that one if it has expressions. It
is not that of an anonymous label. -/
structure Follows (root : Nat) (e : Entry) : Prop where
  root_le : e.root ≤ root
  root_eq : e.body.texts ≠ [] → e.root = root
  label : e.isAnonymousLabel = false

theorem follows_of_root (hr : e.root = root) (hl : e.isAnonymousLabel = false) :
    e.Follows root :=
  ⟨Nat.le_of_eq hr, fun _ => hr, hl⟩

theorem OnLine.follows (h : e.OnLine root) : e.Follows root :=
  follows_of_root h.root (by simp [isAnonymousLabel, h.code])

theorem follows_fault (hr : e.root = root) (f : Fault) :
    ({ e with fault := some f } : Entry).Follows root :=
  follows_of_root hr (by simp [isAnonymousLabel])

theorem follows_instruction (hr : e.root = root) (i : Instruction) :
    ({ e with body := .instruction i } : Entry).Follows root :=
  follows_of_root hr (by simp [isAnonymousLabel, Body.blank])

theorem follows_note (d : Draft) (code file : Text) (line root : Nat) :
    (d.note code file line).Follows root :=
  ⟨Nat.zero_le root, fun h => absurd rfl h, rfl⟩

end Entry

namespace Draft

/-- Entries of the line are added, and no anonymous label is bound. -/
structure Lists (root : Nat) (d d' : Draft) : Prop where
  entries : ∃ es, d'.entries.toList = d.entries.toList ++ es ∧ ∀ e ∈ es, e.Follows root
  anonymous : d'.symbols.anonymous = d.symbols.anonymous
  feed : d.feed.root ≤ d'.feed.root

variable {v : Session} {d d' d₁ : Draft} {e : Entry} {args : Text} {root : Nat}

namespace Lists

theorem of_eq (he : d'.entries = d.entries) (hs : d'.symbols.anonymous = d.symbols.anonymous)
    (hf : d.feed.root ≤ d'.feed.root) : d.Lists root d' :=
  ⟨⟨[], by simp [he], by simp⟩, hs, hf⟩

theorem refl (d : Draft) : d.Lists root d := of_eq rfl rfl le_rfl

theorem trans {d'' : Draft} (h : d.Lists root d') (h' : d'.Lists root d'') : d.Lists root d'' := by
  obtain ⟨es, he, hes⟩ := h.entries
  obtain ⟨fs, hf, hfs⟩ := h'.entries
  refine ⟨⟨es ++ fs, by rw [hf, he, List.append_assoc], fun e hm => ?_⟩,
    h'.anonymous.trans h.anonymous, Nat.le_trans h.feed h'.feed⟩
  rcases List.mem_append.mp hm with hm | hm
  · exact hes e hm
  · exact hfs e hm

theorem push (h : d.Lists root d₁) (he : e.Follows root) : d.Lists root (d₁.push e) := by
  refine h.trans ?_
  obtain ⟨c, hp⟩ := d₁.push_eq e
  rw [hp]
  refine ⟨⟨[{ e with caution := c }], by simp, ?_⟩, rfl, le_rfl⟩
  intro f hf
  obtain rfl := List.mem_singleton.mp hf
  exact ⟨he.root_le, he.root_eq, he.label⟩

theorem pushFault (h : d.Lists root d₁) (hr : e.root = root) (f : Fault) :
    d.Lists root (d₁.pushFault e f) :=
  h.push (Entry.follows_fault hr f)

theorem pushOutcome (h : d.Lists root d₁) (he : e.OnLine root) (f : Option Fault) :
    d.Lists root (d₁.pushOutcome e f) := by
  cases f with
  | none => exact h.push he.follows
  | some f => exact h.pushFault he.root f

theorem of_marked {s : SymbolTable} (h : d.symbols.Marked s) :
    d.Lists root { d with symbols := s } := by
  refine of_eq rfl ?_ le_rfl
  rw [h.eq_with]

theorem pushAll {α : Type} (h : d.Lists root d₁) (f : Draft → α → Entry)
    (hf : ∀ d a, (f d a).Follows root) (as : List α) :
    d.Lists root (as.foldl (fun d a => d.push (f d a)) d₁) := by
  induction as generalizing d₁ with
  | nil => exact h
  | cons a as ih => exact ih (h.push (hf d₁ a))

end Lists

section Directives

variable (he : e.OnLine root)
include he

theorem enterBlock_lists (c : Except Fault Bool) : d.Lists root (d.enterBlock e c) := by
  refine Lists.pushOutcome ?_ he _
  exact .of_eq rfl rfl le_rfl

theorem enterIfDefined_lists (wanted : Bool) :
    d.Lists root (d.enterIfDefined e args wanted) := by
  unfold enterIfDefined
  split
  · exact enterBlock_lists he _
  · exact enterBlock_lists he _

theorem enterIf_lists (h : d.enterIf v e args = .ok d') : d.Lists root d' := by
  unfold enterIf at h
  split at h
  · obtain ⟨⟨c, s⟩, hc, h⟩ := bind_eq_ok.mp h
    obtain rfl := pure_eq_ok.mp h
    exact (Lists.of_marked (condition_marked hc)).trans (enterBlock_lists he c)
  · obtain rfl := Except.ok.inj h
    exact enterBlock_lists he _

theorem setBlocks_lists (blocks : Except Fault Conditions) :
    d.Lists root (d.setBlocks e blocks) := by
  unfold setBlocks
  split
  · refine Lists.push ?_ he.follows
    exact .of_eq rfl rfl le_rfl
  · exact (Lists.refl d).pushFault he.root _

theorem elseIf_lists (h : d.elseIf v e args = .ok d') : d.Lists root d' := by
  unfold elseIf at h
  split at h
  · obtain rfl := Except.ok.inj h
    exact (Lists.refl d).pushFault he.root _
  · obtain rfl := Except.ok.inj h
    exact setBlocks_lists he _
  · obtain ⟨⟨c, s⟩, hc, h⟩ := bind_eq_ok.mp h
    have hm : d.Lists root { d with symbols := s } := Lists.of_marked (condition_marked hc)
    dsimp only at h
    split at h
    · obtain rfl := pure_eq_ok.mp h
      refine Lists.pushOutcome (hm.trans ?_) he _
      exact .of_eq rfl rfl le_rfl
    · obtain rfl := pure_eq_ok.mp h
      exact hm.pushFault he.root _

theorem equate_lists (h : d.equate v e args = .ok d') : d.Lists root d' := by
  rcases equate_cases h with ⟨f, s, hm, rfl⟩ | ⟨name, expr, w, s, t, -, hv, ht, rfl⟩
  · exact (Lists.of_marked hm).pushFault he.root f
  · obtain ⟨-, -, rfl⟩ := SymbolTable.defineEquate_eq_ok.mp ht
    have hm : d.Lists root { d with symbols := s } := Lists.of_marked hv.marked
    refine Lists.push (hm.trans ?_) he.follows
    exact .of_eq rfl rfl le_rfl

theorem origin_lists (h : d.origin v e args = .ok d') : d.Lists root d' := by
  unfold origin at h
  split at h
  · obtain rfl := Except.ok.inj h
    exact (Lists.refl d).pushFault he.root _
  · obtain ⟨⟨value, s⟩, hs, h⟩ := bind_eq_ok.mp h
    have hm : d.Lists root { d with symbols := s } := Lists.of_marked (Session.immediate_marked hs)
    cases value with
    | ok w =>
      obtain rfl := pure_eq_ok.mp h
      refine Lists.push (hm.trans ?_) (Entry.OnLine.follows ⟨he.root, he.code⟩)
      exact .of_eq rfl rfl le_rfl
    | error f =>
      obtain rfl := pure_eq_ok.mp h
      exact hm.pushFault he.root f

omit he in
theorem length_lists {value : Except Fault Word} (h : d.length v e args = .ok (value, d')) :
    d.Lists root d' := by
  unfold length at h
  split at h
  · split at h
    · obtain ⟨-, rfl⟩ := Prod.mk.inj (Except.ok.inj h)
      exact .of_eq rfl rfl le_rfl
    · obtain ⟨⟨w, s⟩, hs, h⟩ := bind_eq_ok.mp h
      obtain ⟨-, rfl⟩ := Prod.mk.inj (pure_eq_ok.mp h)
      exact .of_marked (Session.immediate_marked hs)
  · obtain ⟨-, rfl⟩ := Prod.mk.inj (Except.ok.inj h)
    exact .of_eq rfl rfl le_rfl

theorem align_lists (h : d.align v e args = .ok d') : d.Lists root d' := by
  obtain ⟨⟨value, d₁⟩, hl, h⟩ := bind_eq_ok.mp h
  have hd : d.Lists root d₁ := length_lists hl
  cases value with
  | ok target =>
    obtain rfl := pure_eq_ok.mp h
    split
    · refine hd.pushFault ?_ _
      exact he.root
    · exact hd.push (Entry.OnLine.follows ⟨he.root, he.code⟩)
  | error f =>
    obtain rfl := pure_eq_ok.mp h
    exact hd.pushFault he.root f

theorem reserve_lists (h : d.reserve v e args = .ok d') : d.Lists root d' := by
  obtain ⟨⟨value, d₁⟩, hl, h⟩ := bind_eq_ok.mp h
  have hd : d.Lists root d₁ := length_lists hl
  cases value with
  | ok n =>
    obtain rfl := pure_eq_ok.mp h
    exact hd.push (Entry.OnLine.follows ⟨he.root, he.code⟩)
  | error f =>
    obtain rfl := pure_eq_ok.mp h
    exact hd.pushFault he.root f

theorem pad_lists (h : d.pad v e args = .ok d') : d.Lists root d' := by
  unfold pad at h
  split at h
  · obtain ⟨⟨n, s⟩, hs, h⟩ := bind_eq_ok.mp h
    have hm := Session.immediate_marked hs
    cases n with
    | ok n =>
      obtain ⟨⟨r, t⟩, ht, h⟩ := bind_eq_ok.mp h
      obtain rfl := pure_eq_ok.mp h
      refine (Lists.of_marked (hm.trans (Session.eval_marked ht))).push ?_
      exact Entry.OnLine.follows ⟨he.root, he.code⟩
    | error f =>
      obtain rfl := pure_eq_ok.mp h
      exact (Lists.of_marked hm).pushFault he.root f
  · obtain rfl := Except.ok.inj h
    exact (Lists.refl d).pushFault he.root _
  · obtain rfl := Except.ok.inj h
    exact (Lists.refl d).pushFault he.root _
  · obtain rfl := Except.ok.inj h
    exact (Lists.refl d).pushFault he.root _

theorem data_lists (h : d.data v e args = .ok d') : d.Lists root d' := by
  unfold data at h
  split at h
  · obtain rfl := Except.ok.inj h
    exact (Lists.refl d).pushFault he.root _
  · obtain ⟨run, hr, h⟩ := bind_eq_ok.mp h
    obtain rfl := pure_eq_ok.mp h
    refine (Lists.of_marked (dataCells_marked hr)).pushOutcome ?_ _
    exact ⟨he.root, he.code⟩

theorem string_lists (style : StringStyle) : d.Lists root (d.string style e args) := by
  unfold string
  split
  · exact (Lists.refl d).pushFault he.root _
  · refine (Lists.refl d).pushOutcome ?_ _
    exact ⟨he.root, he.code⟩

theorem includeText_lists (h : d.includeText v e args = .ok d') : d.Lists root d' := by
  obtain ⟨found, -, h⟩ := bind_eq_ok.mp h
  split at h
  · obtain rfl := pure_eq_ok.mp h
    exact (Lists.refl d).pushFault he.root _
  · split at h
    · obtain rfl := pure_eq_ok.mp h
      refine Lists.push ?_ he.follows
      exact .of_eq rfl rfl le_rfl
    · obtain rfl := pure_eq_ok.mp h
      exact (Lists.refl d).pushFault he.root _

theorem includeBytes_lists {packed : Bool} (h : d.includeBytes v packed e args = .ok d') :
    d.Lists root d' := by
  obtain ⟨found, -, h⟩ := bind_eq_ok.mp h
  dsimp only at h
  split at h
  · obtain rfl := pure_eq_ok.mp h
    exact (Lists.refl d).push (Entry.OnLine.follows ⟨he.root, he.code⟩)
  · obtain rfl := pure_eq_ok.mp h
    exact (Lists.refl d).pushFault he.root _

theorem template_lists (line : SourceLine) : d.Lists root (d.template line e args) := by
  have hf : d.Lists root { d with feed := (d.feed.takeBlock endsTemplate).2.2 } :=
    .of_eq rfl rfl (Feed.root_le_takeBlock ..)
  have hnotes (f : Option Fault) (ls : List Feed.BlockLine) :=
    (hf.pushOutcome he f).pushAll (fun d (l : Feed.BlockLine) => d.note l.text line.file l.line)
      (fun d l => Entry.follows_note d ..) ls
  unfold template
  dsimp only
  split
  · exact hf.pushFault he.root _
  · split
    · exact ⟨(hnotes _ _).entries, (hnotes _ _).anonymous, (hnotes _ _).feed⟩
    · exact hnotes _ _

theorem echo_lists (h : d.echo v e args = .ok d') : d.Lists root d' := by
  unfold echo at h
  split at h
  · obtain rfl := Except.ok.inj h
    exact (Lists.refl d).pushFault he.root _
  · obtain ⟨⟨message, ok, s⟩, hm, h⟩ := bind_eq_ok.mp h
    obtain rfl := pure_eq_ok.mp h
    refine ((Lists.of_marked (echoText_marked hm)).pushOutcome he _).push ?_
    exact Entry.follows_note ..

theorem reference_lists : d.Lists root (d.reference e args) := by
  unfold reference
  split
  · exact (Lists.of_marked ⟨_, rfl⟩).push he.follows
  · exact (Lists.refl d).pushFault he.root _

end Directives

section Lines

variable {line : SourceLine} {text : Text}

theorem directive_lists (hlead : text.head?.any Directive.isLead = true)
    (h : d.directive v line text = .ok d') : d.Lists line.root d' := by
  have he : (d.entry line text).OnLine line.root := ⟨rfl, isAnonymousMark_of_isLead hlead⟩
  unfold directive at h
  dsimp only at h
  split at h
  · exact Except.ok.inj h ▸ (Lists.refl d).pushFault he.root _
  · exact enterIf_lists he h
  · exact Except.ok.inj h ▸ enterIfDefined_lists he _
  · exact Except.ok.inj h ▸ enterIfDefined_lists he _
  · exact elseIf_lists he h
  · exact Except.ok.inj h ▸ setBlocks_lists he _
  · exact Except.ok.inj h ▸ setBlocks_lists he _
  · exact equate_lists he h
  · exact origin_lists he h
  · exact align_lists he h
  · exact reserve_lists he h
  · exact pad_lists he h
  · exact data_lists he h
  · exact Except.ok.inj h ▸ string_lists he _
  · exact includeText_lists he h
  · exact includeBytes_lists he h
  · exact Except.ok.inj h ▸ template_lists he line
  · exact Except.ok.inj h ▸ (Lists.refl d).pushFault he.root _
  · exact echo_lists he h
  · exact Except.ok.inj h ▸ reference_lists he
  · obtain rfl := Except.ok.inj h
    refine Lists.push ?_ (Entry.OnLine.follows ⟨he.root, he.code⟩)
    exact .of_eq rfl rfl le_rfl
  · obtain rfl := Except.ok.inj h
    refine Lists.push ?_ (Entry.OnLine.follows ⟨he.root, he.code⟩)
    exact .of_eq rfl rfl le_rfl
  · exact Except.ok.inj h ▸ (Lists.refl d).push he.follows

theorem expandCall?_lists (h : d.expandCall? line text = some d') : d.Lists line.root d' := by
  simp only [expandCall?, Option.bind_eq_bind, Option.bind_eq_some_iff] at h
  obtain ⟨⟨name, args⟩, hc, m, -, h⟩ := h
  obtain rfl := Option.some.inj h
  have he : (d.entry line text).OnLine line.root := ⟨rfl, isAnonymousMark_of_call? hc⟩
  refine Lists.trans ((Lists.refl d).push he.follows) ?_
  exact .of_eq rfl rfl le_rfl

theorem encoded_lists {opcode a : Match} {b : Option Match} (hr : e.root = root)
    (h : d.encoded v e opcode a b = .ok d') : d.Lists root d' := by
  obtain ⟨⟨oa, ok, s⟩, ha, h⟩ := bind_eq_ok.mp h
  obtain ⟨⟨ob, t⟩, hb, h⟩ := bind_eq_ok.mp h
  obtain rfl := pure_eq_ok.mp h
  have hm := (Operand.ofMatch_marked ha).trans (Operand.ofMatch?_marked hb)
  exact (Lists.of_marked hm).push (Entry.follows_instruction hr _)

theorem instruction_lists (h : d.instruction v line text = .ok d') : d.Lists line.root d' := by
  unfold instruction at h
  dsimp only at h
  split at h
  · obtain rfl := Except.ok.inj h
    refine (Lists.refl d).pushFault ?_ _
    rfl
  · split at h
    · exact encoded_lists rfl h
    · exact encoded_lists rfl h
    · obtain rfl := Except.ok.inj h
      refine (Lists.refl d).pushFault ?_ _
      rfl

theorem statement_lists (h : d.statement v line text = .ok d') : d.Lists line.root d' := by
  unfold statement at h
  split at h
  · obtain rfl := Except.ok.inj h
    exact .of_eq rfl rfl le_rfl
  · dsimp only at h
    split at h
    next hlead => exact directive_lists hlead h
    next =>
      split at h
      next hx =>
        obtain rfl := Except.ok.inj h
        exact expandCall?_lists hx
      next => exact instruction_lists h

theorem skippedLine_lists (h : d.skippedLine v line text = .ok d') : d.Lists line.root d' := by
  unfold skippedLine at h
  split at h
  next hc => exact directive_lists (Bool.and_eq_true_iff.mp hc).1 h
  next =>
    obtain rfl := Except.ok.inj h
    exact .of_eq rfl rfl le_rfl

/-- The draft with an anonymous label bound on a line. -/
def bindAnonymous (d : Draft) (line : SourceLine) (code : Text) : Draft :=
  { d with symbols := d.symbols.defineAnonymous line.root d.address d.entries.size }.push
    (d.entry line code)

theorem takeLabel_lists (d : Draft) (line : SourceLine) (text : Text) :
    d.Lists line.root (d.takeLabel line text).1 ∨
      ∃ code, isAnonymousMark code = true ∧
        (d.takeLabel line text).1 = d.bindAnonymous line code := by
  unfold takeLabel
  split
  · exact .inl (.of_eq rfl rfl le_rfl)
  next label hl =>
    dsimp only
    split
    next hn => exact .inr ⟨label.code, LabelPart.isAnonymousMark_code hl hn, rfl⟩
    next =>
      refine .inl ?_
      rcases hd : d.symbols.defineLabel label.name d.address d.entries.size with ⟨f | stored, s⟩
      · obtain rfl := SymbolTable.eq_of_defineLabel_error hd
        refine (Lists.refl d).pushFault ?_ _
        rfl
      · obtain ⟨hstored, -, rfl⟩ := SymbolTable.defineLabel_eq_ok.mp hd
        have hcode := LabelPart.isAnonymousMark_of_storedName? hl hstored
        refine Lists.push ?_ (Entry.OnLine.follows ⟨rfl, hcode⟩)
        exact .of_eq rfl rfl le_rfl

/-- Without plugins a line binds an anonymous label before all else, or none. -/
theorem line_lists (hv : v.hooks.plugins = []) (h : d.line v line = .ok d') :
    d.Lists line.root d' ∨
      ∃ code, isAnonymousMark code = true ∧ (d.bindAnonymous line code).Lists line.root d' := by
  unfold Draft.line at h
  dsimp only at h
  split at h
  · obtain rfl := Except.ok.inj h
    exact .inl (.of_eq rfl rfl le_rfl)
  · split at h
    · exact .inl (skippedLine_lists h)
    · split at h
      next hc => simp [Hooks.claim?, hv] at hc
      next =>
        have hs := statement_lists h
        rcases takeLabel_lists d line (Text.clean line.text) with hl | ⟨code, hcode, hl⟩
        · exact .inl (hl.trans hs)
        · rw [hl] at hs
          exact .inr ⟨code, hcode, hs⟩

end Lines

end Draft

end Dcpu
