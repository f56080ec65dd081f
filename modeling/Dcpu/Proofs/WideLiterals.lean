import Dcpu.Proofs.CleanLines
import Dcpu.Proofs.Recursion

/-! Characters outside of ASCII that stand in literals only. Evaluation takes an expression apart
where a scan stands outside of literals, so the scan of every text that it comes to agrees with the
scan of the whole: a character in a literal stays in a literal, and none of them comes before a
name. -/
namespace Dcpu

namespace Quote

variable {q : Quote} {c : Char} {t : Text}

theorem isFree_of_isOpenly {x : Char} {b : Bool}
    (h : (Mark.isOpenly ⟨c, q.isFree c⟩ x && b) = true) : q.isFree c = true := by
  simp only [Mark.isOpenly, Bool.and_eq_true] at h
  exact h.1.1

/-- Outside of literals only quotes matter. -/
theorem next_outside (hs : c ≠ '"') (hc : c ≠ '\'') : Quote.outside.next c = .outside := by
  simp [next, Delimiter.mark, hs, hc]

/-- Nothing but a quote closes a literal. -/
theorem eq_outside_of_next (hs : c ≠ '"') (hc : c ≠ '\'') (h : q.next c = .outside) :
    q = .outside := by
  cases q with
  | outside => rfl
  | inside d escaped =>
    cases escaped with
    | true => cases h
    | false =>
      have hm : c ≠ d.mark := by
        cases d with
        | string => exact hs
        | char => exact hc
      change (if c = '\\' then _ else if c = d.mark then _ else _) = _ at h
      rw [if_neg hm] at h
      split at h
      · cases h
      · cases h

theorem after_outside (h : ∀ c ∈ t, c ≠ '"' ∧ c ≠ '\'') : Quote.outside.after t = .outside := by
  induction t with
  | nil => rfl
  | cons c t ih =>
    obtain ⟨hs, hc⟩ := h c List.mem_cons_self
    rw [after_cons, next_outside hs hc]
    exact ih fun c hc => h c (List.mem_cons_of_mem _ hc)

theorem eq_outside_of_after (ht : ∀ c ∈ t, c ≠ '"' ∧ c ≠ '\'') (h : q.after t = .outside) :
    q = .outside := by
  induction t generalizing q with
  | nil => exact h
  | cons c t ih =>
    obtain ⟨hs, hc⟩ := ht c List.mem_cons_self
    exact eq_outside_of_next hs hc (ih (fun c hc => ht c (List.mem_cons_of_mem _ hc)) h)

end Quote

/-- Every character outside of ASCII is part of a literal. -/
def Text.WideQuoted (t : Text) : Prop :=
  ∀ m ∈ marked t, 1 < m.char.utf8Size → m.free = false

namespace Text.WideQuoted

variable {s t : Text}

theorem trim (h : WideQuoted t) : WideQuoted (Text.trim t) :=
  fun m hm => h m (mem_marked_of_trim hm)

theorem left (h : WideQuoted (s ++ t)) : WideQuoted s := by
  intro m hm
  apply h
  rw [marked, markedFrom_append]
  exact List.mem_append_left _ hm

/-- Where a scan stands outside of literals, it can as well start. -/
theorem right (hs : Quote.outside.after s = .outside) (h : WideQuoted (s ++ t)) :
    WideQuoted t := by
  intro m hm
  apply h
  rw [marked, markedFrom_append, hs]
  exact List.mem_append_right _ hm

theorem append (hs : Quote.outside.after s = .outside) (h : WideQuoted s) (h' : WideQuoted t) :
    WideQuoted (s ++ t) := by
  intro m hm
  rw [marked, markedFrom_append, hs] at hm
  rcases List.mem_append.mp hm with hm | hm
  · exact h m hm
  · exact h' m hm

end Text.WideQuoted

namespace Expr

section Groups

variable {q : Quote} {braces depth : Nat} {t before inner after : Text} {rest : List Mark}

/-- A group is opened outside of literals. -/
theorem openGroup_after (h : openGroup braces (Text.markedFrom q t) = some (before, rest)) :
    q.after before = .outside ∧ ∃ u, rest = Text.markedFrom .outside u := by
  induction t generalizing q braces before with
  | nil => cases h
  | cons c t ih =>
    rw [Text.markedFrom, openGroup] at h
    split at h
    next hm =>
      obtain ⟨rfl, rfl⟩ : [] = before ∧ Text.markedFrom (q.next c) t = rest := by simpa using h
      obtain ⟨rfl, hs, hc⟩ := Quote.isFree_iff.mp (Quote.isFree_of_isOpenly hm)
      exact ⟨rfl, t, by rw [Quote.next_outside hs hc]⟩
    next =>
      obtain ⟨⟨b, r⟩, hr, he⟩ := Option.map_eq_some_iff.mp h
      obtain ⟨rfl, rfl⟩ : c :: b = before ∧ r = rest := by simpa using he
      rw [Quote.after_cons]
      exact ih hr

/-- A group is closed outside of literals. -/
theorem closeGroup_after
    (h : closeGroup depth braces (Text.markedFrom q t) = some (inner, after)) :
    q.after inner = .outside := by
  induction t generalizing q depth braces inner with
  | nil => cases h
  | cons c t ih =>
    have step {d b : Nat} (h : (closeGroup d b (Text.markedFrom (q.next c) t)).map
        (fun f => (c :: f.1, f.2)) = some (inner, after)) : q.after inner = .outside := by
      obtain ⟨⟨i, a⟩, hr, he⟩ := Option.map_eq_some_iff.mp h
      obtain ⟨rfl, rfl⟩ : c :: i = inner ∧ a = after := by simpa using he
      rw [Quote.after_cons]
      exact ih hr
    rw [Text.markedFrom] at h
    unfold closeGroup at h
    split at h
    next hm =>
      split at h
      · obtain ⟨rfl, -⟩ : [] = inner ∧ _ = after := by simpa using h
        exact (Quote.isFree_iff.mp (Quote.isFree_of_isOpenly hm)).1
      · exact step h
    next =>
      split at h
      · exact step h
      · exact step h

/-- A scan stands outside of literals at both parentheses of a group. -/
theorem after_of_group? {e : Text} {g : Group} (h : group? e = some g) :
    Quote.outside.after g.before = .outside ∧ Quote.outside.after g.inner = .outside := by
  simp only [group?, Option.bind_eq_bind, Option.bind_eq_some_iff] at h
  obtain ⟨⟨before, rest⟩, ho, ⟨inner, after⟩, hc, hg⟩ := h
  obtain rfl : (⟨before, inner, after⟩ : Group) = g := by simpa using hg
  obtain ⟨hb, u, rfl⟩ := openGroup_after ho
  exact ⟨hb, closeGroup_after hc⟩

theorem Group.not_quote_of_mem_name {g : Group} {c : Char} (h : c ∈ g.name) :
    c ≠ '"' ∧ c ≠ '\'' := by
  have hn : Group.isNameChar c = true := List.mem_takeWhile_imp (List.mem_reverse.mp h)
  constructor
  all_goals
    rintro rfl
    revert hn
    decide

theorem Group.after_lead {g : Group} (h : Quote.outside.after g.before = .outside) :
    Quote.outside.after g.lead = .outside := by
  rw [← g.lead_append_name, Quote.after_append] at h
  exact Quote.eq_outside_of_after (fun _ => Group.not_quote_of_mem_name) h

end Groups

section Splits

variable {q : Quote} {braces skip : Nat} {t : Text} {i : Nat} {op : Operator}

/-- A symbol stands at a site. -/
theorem free_of_siteOf? {symbol : Text} {ms : List Mark} (h : siteOf? symbol ms = some i) :
    ∃ m, ms[i]? = some m ∧ m.free = true := by
  induction ms generalizing i with
  | nil => cases h
  | cons m ms ih =>
    rw [siteOf?] at h
    split at h
    next hm =>
      obtain rfl := Option.some.inj h
      exact ⟨m, rfl, (Bool.and_eq_true_iff.mp hm).1⟩
    next =>
      obtain ⟨j, hj, rfl⟩ := Option.map_eq_some_iff.mp h
      exact ih hj

/-- Operators start outside of literals. -/
theorem after_of_site {m : Mark}
    (h : (sitesFrom braces skip (Text.markedFrom q t))[i]? = some m) (hf : m.free = true) :
    q.after (t.take i) = .outside := by
  induction t generalizing q braces skip i with
  | nil => cases skip <;> cases h
  | cons c t ih =>
    cases i with
    | succ i =>
      rw [List.take_succ_cons, Quote.after_cons]
      rw [Text.markedFrom] at h
      cases skip with
      | succ skip =>
        rw [sitesFrom, List.getElem?_cons_succ] at h
        exact ih h
      | zero =>
        rw [sitesFrom] at h
        split at h
        · rw [List.getElem?_cons_succ] at h
          exact ih h
        · rw [List.getElem?_cons_succ] at h
          exact ih h
    | zero =>
      rw [Text.markedFrom] at h
      cases skip with
      | succ skip =>
        obtain rfl := Option.some.inj h
        cases hf
      | zero =>
        rw [sitesFrom] at h
        split at h
        · obtain rfl := Option.some.inj h
          cases hf
        · obtain rfl := Option.some.inj h
          simp only [Bool.and_eq_true] at hf
          exact (Quote.isFree_iff.mp hf.1.1.1).1

theorem not_quote_of_mem_symbol {c : Char} (h : c ∈ op.symbol) : c ≠ '"' ∧ c ≠ '\'' := by
  have hall : op.symbol.all (fun c => c != '"' && c != '\'') = true := by
    cases op <;> decide
  simpa using List.all_eq_true.mp hall c h

/-- A scan stands outside of literals on both sides of the operator of a split. -/
theorem after_of_split? {e : Text} {s : Split} (h : split? e = some s) :
    Quote.outside.after (s.left ++ s.op.symbol) = .outside := by
  obtain ⟨⟨i, op⟩, hi, rfl⟩ := Option.map_eq_some_iff.mp h
  obtain ⟨m, hm, hf⟩ := free_of_siteOf? (siteOf?_of_foldl_betterSplit (by simp) (i, op) hi)
  have hleft : Quote.outside.after (e.take i) = .outside := after_of_site hm hf
  rw [Quote.after_append, hleft]
  exact Quote.after_outside fun _ => not_quote_of_mem_symbol

end Splits

section Visited

open Text

variable {c : Context} {text sub : Text} {g : Group}

theorem wideQuoted_decimal (n : Nat) : WideQuoted (Numeral.decimal n) := by
  intro m hm hw
  have hc : m.char ∈ Numeral.decimal n := by
    rw [← Text.unmarked_marked (Numeral.decimal n)]
    exact List.mem_map_of_mem hm
  have hd := isDigit_eq_false_of_wide hw
  rw [Numeral.isDigit_of_mem_decimal hc] at hd
  cases hd

theorem after_decimal (n : Nat) : Quote.outside.after (Numeral.decimal n) = .outside := by
  apply Quote.after_outside
  intro c hc
  have hd := Numeral.isDigit_of_mem_decimal hc
  constructor
  all_goals
    rintro rfl
    revert hd
    decide

/-- The parts of a group, and what its value is put between. -/
theorem wideQuoted_group (h : WideQuoted text) (hf : form text = .group g) :
    WideQuoted g.before ∧ WideQuoted g.inner ∧ WideQuoted g.after := by
  have hg := group?_of_form hf
  obtain ⟨hb, hi⟩ := after_of_group? hg
  have htext : g.before ++ ('(' :: (g.inner ++ ')' :: g.after)) = Text.trim text := by
    rw [← text_of_group? hg, Group.text]
    simp
  have ht := h.trim
  rw [← htext] at ht
  have hopen : WideQuoted (['('] ++ (g.inner ++ ')' :: g.after)) := ht.right hb
  have hinner : WideQuoted (g.inner ++ ([')'] ++ g.after)) := hopen.right (by decide)
  have hclose : WideQuoted ([')'] ++ g.after) := hinner.right hi
  exact ⟨ht.left, hinner.left, hclose.right (by decide)⟩

theorem wideQuoted_part (h : WideQuoted text) (hp : sub ∈ (form text).parts) :
    WideQuoted sub := by
  cases hf : form text with
  | empty =>
    rw [hf] at hp
    cases hp
  | token t =>
    rw [hf] at hp
    cases hp
  | group g =>
    rw [hf] at hp
    obtain rfl : sub = g.inner := by simpa [Form.parts] using hp
    exact (wideQuoted_group h hf).2.1
  | complement operand =>
    rw [hf] at hp
    obtain rfl : sub = operand := by simpa [Form.parts] using hp
    have ht : WideQuoted (['~'] ++ sub) := by
      rw [List.singleton_append, ← trim_of_form_complement hf]
      exact h.trim
    exact ht.right (by decide)
  | negation operand =>
    rw [hf] at hp
    obtain rfl : sub = operand := by simpa [Form.parts] using hp
    have hs := split?_of_form_negation hf
    have ht := h.trim
    rw [← text_of_split? hs] at ht
    exact ht.right (after_of_split? hs)
  | binary s =>
    rw [hf] at hp
    have hs := split?_of_form_binary hf
    have ht := h.trim
    rw [← text_of_split? hs] at ht
    obtain rfl | rfl : sub = s.left ∨ sub = s.right := by simpa [Form.parts] using hp
    · exact ht.left.left
    · exact ht.right (after_of_split? hs)

/-- Evaluation comes to no text in which a character has left its literal. -/
theorem wideQuoted_nested (h : WideQuoted text) (hs : sub ∈ nested c text) : WideQuoted sub := by
  obtain hp | ⟨g, lead, w, hf, hl, rfl⟩ := mem_nested hs
  · exact wideQuoted_part h hp
  · obtain ⟨hbefore, -, hafter⟩ := wideQuoted_group h hf
    have hb := (after_of_group? (group?_of_form hf)).1
    obtain ⟨hlead, hout⟩ : WideQuoted lead ∧ Quote.outside.after lead = .outside := by
      obtain rfl | rfl := hl
      · rw [← g.lead_append_name] at hbefore
        exact ⟨hbefore.left, Group.after_lead hb⟩
      · exact ⟨hbefore, hb⟩
    rw [List.append_assoc]
    exact hlead.append hout ((wideQuoted_decimal _).append (after_decimal _) hafter)

/-- A character before the name of a group would be the last one of an open literal. -/
theorem followsWide_of_wideQuoted (h : WideQuoted text) (hf : form text = .group g) :
    g.followsWide = false := by
  obtain ⟨hbefore, -, -⟩ := wideQuoted_group h hf
  have hout := Group.after_lead (after_of_group? (group?_of_form hf)).1
  rw [← g.lead_append_name] at hbefore
  have hlead : WideQuoted g.lead := hbefore.left
  rw [← Bool.not_eq_true]
  intro hw
  obtain ⟨ch, hc, hwide⟩ := (Option.any_eq_true _ _).mp hw
  have hwide : 1 < ch.utf8Size := of_decide_eq_true hwide
  obtain ⟨u, hu⟩ := List.getLast?_eq_some_iff.mp hc
  have hquote : ch ≠ '"' ∧ ch ≠ '\'' := by
    constructor
    all_goals
      rintro rfl
      revert hwide
      decide
  rw [hu, Quote.after_append] at hout
  have hu' : Quote.outside.after u = .outside := Quote.eq_outside_of_next hquote.1 hquote.2 hout
  have hfree : (⟨ch, true⟩ : Mark) ∈ marked g.lead := by
    rw [hu, marked, markedFrom_append, hu']
    refine List.mem_append_right _ ?_
    rw [markedFrom, Quote.isFree_iff.mpr ⟨rfl, hquote⟩]
    exact List.mem_cons_self
  cases hlead _ hfree hwide

end Visited

end Expr

end Dcpu
