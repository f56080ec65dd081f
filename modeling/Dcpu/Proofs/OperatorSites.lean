import Dcpu.Proofs.ByteOffsets
import Mathlib.Data.List.Basic
import Mathlib.Data.List.Induction
import Mathlib.Tactic.Tauto

/-! Where an expression is split: at an operator outside of literals, of braces and of the signs of
a `$`, and never at the first characters of a longer operator. -/
namespace Dcpu.Expr

open Text

section Places

/-- A `$` with the signs that belong to it: all up to white space or the end of the text. -/
def IsWalk (t rest : Text) : Prop :=
  ∃ run, t = '$' :: run ∧ (∀ c ∈ run, isSign c = true) ∧ rest.head?.all isAsciiBlank = true

/-- A place between two parts of a text, outside of literals, of braces and of what belongs to a
`$`. A brace is open there if some end of the first part opens more of them than it closes. -/
structure Outside (before after : Text) : Prop where
  literals : Quote.outside.after before = .outside
  braces : ∀ ms, ms <:+ marked before → ms.countP (·.isOpenly '{') ≤ ms.countP (·.isOpenly '}')
  walks : ∀ u x y rest, before = u ++ x → after = y ++ rest → y ≠ [] → ¬ IsWalk (x ++ y) rest

/-- Signs up to white space or the end of the text, some of them in the second part. -/
def SignsInto (before after : Text) : Prop :=
  ∃ y rest, after = y ++ rest ∧ y ≠ [] ∧ (∀ c ∈ before ++ y, isSign c = true) ∧
    rest.head?.all isAsciiBlank = true

/-- The signs of a `$` in the first part go on in the second one. -/
def WalksInto (before after : Text) : Prop := ∃ u x, before = u ++ '$' :: x ∧ SignsInto x after

variable {q : Quote} {braces skip : Nat} {before after b a : Text} {c d : Char} {ms : List Mark}

theorem isSign_of_isAsciiBlank (h : isAsciiBlank c = true) : isSign c = false := by
  simp only [isAsciiBlank, Bool.or_eq_true, beq_iff_eq] at h
  rcases h with (((rfl | rfl) | rfl) | rfl) | rfl <;> decide

theorem ne_of_isSign (h : isSign c = true) :
    (c ≠ '"' ∧ c ≠ '\'') ∧ c ≠ '$' ∧ c ≠ '{' ∧ c ≠ '}' := by
  simp only [isSign, Bool.or_eq_true, beq_iff_eq] at h
  rcases h with rfl | rfl <;> decide

theorem bracesAfter_of_ne (hl : c ≠ '{') (hr : c ≠ '}') (free : Bool) :
    bracesAfter braces ⟨c, free⟩ = braces := by
  simp [bracesAfter, Mark.isOpenly, hl, hr]

/-- The braces that are open after a text are those that some end of it opens and does not close. -/
theorem lt_foldl_bracesAfter {k : Nat} : k < ms.foldl bracesAfter 0 ↔
    ∃ ns, ns <:+ ms ∧ ns.countP (·.isOpenly '}') + k < ns.countP (·.isOpenly '{') := by
  -- The scan goes forward and the ends are counted from the back, so the last mark is split off.
  induction ms using List.reverseRecOn generalizing k with
  | nil => simp
  | append_singleton ms m ih =>
    have hend : (∃ ns, ns <:+ ms ++ [m] ∧
        ns.countP (·.isOpenly '}') + k < ns.countP (·.isOpenly '{')) ↔
        ∃ ns, ns <:+ ms ∧ ns.countP (·.isOpenly '}') + (if m.isOpenly '}' then 1 else 0) + k <
          ns.countP (·.isOpenly '{') + (if m.isOpenly '{' then 1 else 0) := by
      constructor
      · rintro ⟨ns, hns, hlt⟩
        obtain rfl | ⟨ns, rfl, hend⟩ := List.suffix_concat_iff.mp hns
        · simp at hlt
        · exact ⟨ns, hend, by simpa [List.countP_append, List.countP_singleton] using hlt⟩
      · rintro ⟨ns, hns, hlt⟩
        refine ⟨ns ++ [m], List.suffix_concat_iff.mpr (.inr ⟨ns, rfl, hns⟩), ?_⟩
        simpa [List.countP_append, List.countP_singleton] using hlt
    rw [List.foldl_append, List.foldl_cons, List.foldl_nil, hend, bracesAfter]
    by_cases hl : m.isOpenly '{' = true
    · have hr : m.isOpenly '}' = false := by
        simp only [Mark.isOpenly, Bool.and_eq_true, beq_iff_eq] at hl
        simp [Mark.isOpenly, hl.2]
      simp only [hl, hr, if_true, Bool.false_eq_true, if_false, Nat.add_zero]
      cases k with
      | zero => exact ⟨fun _ => ⟨[], List.nil_suffix, by simp⟩, fun _ => Nat.succ_pos _⟩
      | succ k =>
        rw [Nat.add_lt_add_iff_right, ih]
        simp only [← Nat.add_assoc, Nat.add_lt_add_iff_right]
    · rw [if_neg hl]
      by_cases hr : m.isOpenly '}' = true
      · simp only [hl, hr, if_true, Bool.false_eq_true, if_false, Nat.add_zero]
        rw [Nat.lt_sub_iff_add_lt, ih]
        simp only [Nat.add_assoc, Nat.add_comm 1]
      · simp only [hl, hr, Bool.false_eq_true, if_false, Nat.add_zero, ih]

theorem foldl_bracesAfter_eq_zero : ms.foldl bracesAfter 0 = 0 ↔
    ∀ ns, ns <:+ ms → ns.countP (·.isOpenly '{') ≤ ns.countP (·.isOpenly '}') := by
  have h : 0 < ms.foldl bracesAfter 0 ↔ ∃ ns, ns <:+ ms ∧
      ns.countP (·.isOpenly '}') + 0 < ns.countP (·.isOpenly '{') := lt_foldl_bracesAfter
  simpa only [Nat.pos_iff_ne_zero, Decidable.not_not, Nat.add_zero, not_exists, not_and,
    Nat.not_lt] using h.not

/-- A place before a character that is no `$`. -/
theorem outside_iff (hc : c ≠ '$') : Outside before (c :: a) ↔
    Quote.outside.after before = .outside ∧ (marked before).foldl bracesAfter 0 = 0 ∧
      ¬ WalksInto before (c :: a) := by
  have hwalks : (∀ u x y rest, before = u ++ x → c :: a = y ++ rest → y ≠ [] →
      ¬ IsWalk (x ++ y) rest) ↔ ¬ WalksInto before (c :: a) := by
    constructor
    · rintro h ⟨u, x, hb, y, rest, ha, hy, hsigns, hrest⟩
      exact h u ('$' :: x) y rest hb ha hy ⟨x ++ y, rfl, hsigns, hrest⟩
    · rintro h u x y rest hb ha hy ⟨run, hrun, hsigns, hrest⟩
      rcases List.append_eq_cons_iff.mp hrun with ⟨-, rfl⟩ | ⟨x', rfl, rfl⟩
      · exact hc (List.cons.inj ha).1
      · exact h ⟨u, x', hb, y, rest, ha, hy, hsigns, hrest⟩
  rw [foldl_bracesAfter_eq_zero, ← hwalks]
  exact ⟨fun h => ⟨h.literals, h.braces, h.walks⟩, fun h => ⟨h.1, h.2.1, h.2.2⟩⟩

theorem not_walksInto_nil (after : Text) : ¬ WalksInto [] after := by
  rintro ⟨u, x, h, -⟩
  simp at h

theorem walksInto_cons : WalksInto (d :: b) after ↔
    d = '$' ∧ SignsInto b after ∨ WalksInto b after := by
  constructor
  · rintro ⟨u, x, h, hx⟩
    rcases List.cons_eq_append_iff.mp h with ⟨-, h⟩ | ⟨u', -, rfl⟩
    · obtain ⟨rfl, rfl⟩ := List.cons.inj h
      exact .inl ⟨rfl, hx⟩
    · exact .inr ⟨u', x, rfl, hx⟩
  · rintro (⟨rfl, hb⟩ | ⟨u, x, rfl, hx⟩)
    · exact ⟨[], b, rfl, hb⟩
    · exact ⟨d :: u, x, rfl, hx⟩

/-- The signs that belong to a `$` reach behind a part of the text after it. -/
theorem lt_walkLength (h : unmarked ms = b ++ a) : b.length < walkLength ms ↔ SignsInto b a := by
  rw [walkLength_eq, h]
  constructor
  · intro hlt
    split at hlt
    next hrest =>
      have hprefix := List.takeWhile_prefix isSign (l := b ++ a)
      have htext := List.prefix_iff_eq_append.mp hprefix
      obtain ⟨y, hy⟩ := List.prefix_of_prefix_length_le (List.prefix_append b a) hprefix hlt.le
      rw [← hy] at hlt hrest htext
      refine ⟨y, _, ?_, ?_, fun c hc => ?_, hrest⟩
      · exact (List.append_cancel_left ((List.append_assoc ..).symm.trans htext)).symm
      · rintro rfl
        simp at hlt
      · exact List.mem_takeWhile_imp (hy ▸ hc)
    next => omega
  · rintro ⟨y, rest, rfl, hy, hsigns, hrest⟩
    have hend : rest.takeWhile isSign = [] := by
      cases rest with
      | nil => rfl
      | cons c rest => exact List.takeWhile_cons_of_neg (by simp [isSign_of_isAsciiBlank hrest])
    have hrun : (b ++ (y ++ rest)).takeWhile isSign = b ++ y := by
      rw [← List.append_assoc, List.takeWhile_append_of_pos hsigns, hend, List.append_nil]
    have hpos : 0 < y.length := List.length_pos_of_ne_nil hy
    rw [hrun, ← List.append_assoc, List.drop_left, if_pos hrest, List.length_append]
    omega

theorem foldl_bracesAfter_of_signs (h : ∀ c ∈ b, isSign c = true) (braces : Nat) :
    (markedFrom q b).foldl bracesAfter braces = braces := by
  induction b generalizing q with
  | nil => rfl
  | cons c b ih =>
    obtain ⟨-, -, hl, hr⟩ := ne_of_isSign (h c List.mem_cons_self)
    rw [markedFrom, List.foldl_cons, bracesAfter_of_ne hl hr]
    exact ih fun c hc => h c (List.mem_cons_of_mem _ hc)

/-- From a `$` in a literal or in braces, its signs do not lead outside. -/
theorem not_signsInto (hopen : ¬ ((Mark.isOpenly ⟨'$', q.isFree '$'⟩ '$' && braces == 0) = true))
    (hq : (q.next '$').after b = .outside)
    (hb : (markedFrom (q.next '$') b).foldl bracesAfter braces = 0) : ¬ SignsInto b after := by
  rintro ⟨y, rest, -, -, hsigns, -⟩
  have hsigns : ∀ c ∈ b, isSign c = true := fun c hc => hsigns c (List.mem_append_left _ hc)
  have hnext : q.next '$' = .outside :=
    Quote.eq_outside_of_after (fun c hc => (ne_of_isSign (hsigns c hc)).1) hq
  obtain rfl : q = .outside := Quote.eq_outside_of_next (by decide) (by decide) hnext
  rw [foldl_bracesAfter_of_signs hsigns] at hb
  exact hopen (by rw [hb]; rfl)

/-- Which characters are sites, among those that are no quotes and no braces and start no walk. The
first `skip` characters are the signs of a `$` before the text. -/
theorem isSite_iff (hc : (c ≠ '"' ∧ c ≠ '\'') ∧ c ≠ '$' ∧ c ≠ '{' ∧ c ≠ '}')
    (hs : ((b ++ c :: a).take skip).all isSign = true) :
    (sitesFrom braces skip (markedFrom q (b ++ c :: a)))[b.length]? = some ⟨c, true⟩ ↔
      skip ≤ b.length ∧ q.after b = .outside ∧ (markedFrom q b).foldl bracesAfter braces = 0 ∧
        ¬ WalksInto b (c :: a) := by
  induction b generalizing q braces skip with
  | nil =>
    obtain ⟨hquote, hd, hl, hr⟩ := hc
    cases skip with
    | succ skip => simp [markedFrom, sitesFrom]
    | zero =>
      simp [markedFrom, sitesFrom, Mark.isOpenly, hd, hl, hr, Quote.isFree_iff, hquote,
        not_walksInto_nil]
  | cons d b ih =>
    rw [List.cons_append, markedFrom, List.length_cons, Quote.after_cons, markedFrom,
      List.foldl_cons, walksInto_cons]
    cases skip with
    | succ skip =>
      rw [List.cons_append, List.take_succ_cons, List.all_cons, Bool.and_eq_true] at hs
      obtain ⟨-, hd, hl, hr⟩ := ne_of_isSign hs.1
      rw [sitesFrom, List.getElem?_cons_succ, ih hs.2, bracesAfter_of_ne hl hr,
        Nat.add_le_add_iff_right]
      simp [hd]
    | zero =>
      rw [sitesFrom]
      split
      next hopen =>
        simp only [Mark.isOpenly, Bool.and_eq_true, beq_iff_eq] at hopen
        obtain ⟨⟨-, rfl⟩, rfl⟩ := hopen
        have htext := unmarked_markedFrom (q.next '$') (b ++ c :: a)
        have hsigns := all_isSign_take_walkLength (markedFrom (q.next '$') (b ++ c :: a))
        rw [htext] at hsigns
        rw [List.getElem?_cons_succ, ih hsigns, ← Nat.not_lt, lt_walkLength htext,
          bracesAfter_of_ne (by decide) (by decide)]
        simp only [true_and, not_or, Nat.zero_le]
        tauto
      next hopen =>
        -- No signs are skipped here, but a `$` in a literal or in braces has its signs as well.
        rw [List.getElem?_cons_succ, ih rfl]
        have hwalk (hd : d = '$') (hq : (q.next d).after b = .outside)
            (hb : (markedFrom (q.next d) b).foldl bracesAfter
              (bracesAfter braces ⟨d, q.isFree d⟩) = 0) : ¬ SignsInto b (c :: a) := by
          subst hd
          rw [bracesAfter_of_ne (by decide) (by decide)] at hb
          exact not_signsInto hopen hq hb
        simp only [Nat.zero_le, true_and]
        tauto

end Places

section Occurrences

variable {e : Text} {symbol : Text} {ms : List Mark} {i : Nat} {op : Operator}

/-- The symbol stands at a site. -/
def StandsAt (symbol : Text) (ms : List Mark) (i : Nat) : Prop :=
  (∃ m, ms[i]? = some m ∧ m.free = true) ∧ startsWith symbol (ms.drop i) = true

theorem standsAt_zero {m : Mark} :
    StandsAt symbol (m :: ms) 0 ↔ (m.free && startsWith symbol (m :: ms)) = true := by
  simp [StandsAt]

theorem standsAt_succ {m : Mark} : StandsAt symbol (m :: ms) (i + 1) ↔ StandsAt symbol ms i :=
  Iff.rfl

theorem siteOf?_eq_none : siteOf? symbol ms = none ↔ ∀ i, ¬ StandsAt symbol ms i := by
  induction ms with
  | nil => simp [siteOf?, StandsAt]
  | cons m ms ih =>
    rw [siteOf?]
    constructor
    · intro h i hi
      split at h
      · cases h
      next hm =>
        cases i with
        | zero => exact hm (standsAt_zero.mp hi)
        | succ i => exact ih.mp (Option.map_eq_none_iff.mp h) i (standsAt_succ.mp hi)
    · intro h
      rw [if_neg fun hm => h 0 (standsAt_zero.mpr hm), Option.map_eq_none_iff, ih]
      exact fun i hi => h (i + 1) (standsAt_succ.mpr hi)

/-- The site that is found is the first one. -/
theorem le_of_siteOf? {j : Nat} (h : siteOf? symbol ms = some i) (hj : StandsAt symbol ms j) :
    i ≤ j := by
  induction ms generalizing i j with
  | nil => cases h
  | cons m ms ih =>
    rw [siteOf?] at h
    split at h
    · obtain rfl := Option.some.inj h
      exact Nat.zero_le j
    next hm =>
      obtain ⟨k, hk, rfl⟩ := Option.map_eq_some_iff.mp h
      cases j with
      | zero => exact absurd (standsAt_zero.mp hj) hm
      | succ j => exact Nat.succ_le_succ (ih hk (standsAt_succ.mp hj))

theorem standsAt_of_siteOf? (h : siteOf? symbol ms = some i) : StandsAt symbol ms i := by
  induction ms generalizing i with
  | nil => cases h
  | cons m ms ih =>
    rw [siteOf?] at h
    split at h
    next hm =>
      obtain rfl := Option.some.inj h
      exact standsAt_zero.mpr hm
    next =>
      obtain ⟨k, hk, rfl⟩ := Option.map_eq_some_iff.mp h
      exact standsAt_succ.mpr (ih hk)

theorem exists_of_standsAt (h : StandsAt symbol (sites e) i) :
    ∃ before after, e = before ++ symbol ++ after ∧ before.length = i := by
  obtain ⟨⟨m, hm, -⟩, hstart⟩ := h
  obtain ⟨rest, hrest⟩ := exists_append_of_startsWith hstart
  have hlen : (sites e).length = e.length := by
    rw [← List.length_map Mark.char, ← unmarked, unmarked_sites]
  have hi : i ≤ e.length := hlen ▸ (List.getElem?_eq_some_iff.mp hm).1.le
  rw [unmarked, List.map_drop, ← unmarked, unmarked_sites] at hrest
  refine ⟨e.take i, rest, ?_, List.length_take_of_le hi⟩
  rw [List.append_assoc, ← hrest, List.take_append_drop]

/-- The sites of an operator are its occurrences outside. -/
theorem standsAt_iff_outside (op : Operator) (before after : Text) :
    StandsAt op.symbol (sites (before ++ op.symbol ++ after)) before.length ↔
      Outside before (op.symbol ++ after) := by
  obtain ⟨c, cs, hsymbol⟩ := List.exists_cons_of_length_pos op.length_symbol_pos
  have hc : (c ≠ '"' ∧ c ≠ '\'') ∧ c ≠ '$' ∧ c ≠ '{' ∧ c ≠ '}' :=
    (of_mem_symbol (hsymbol ▸ List.mem_cons_self)).2
  have hstart : startsWith op.symbol
      ((sites (before ++ op.symbol ++ after)).drop before.length) = true := by
    rw [startsWith_eq, unmarked, List.map_drop, ← unmarked, unmarked_sites, List.append_assoc,
      List.drop_left, List.isPrefixOf_iff_prefix]
    exact List.prefix_append _ _
  have htext : before ++ op.symbol ++ after = before ++ c :: (cs ++ after) := by
    rw [hsymbol, List.append_assoc, List.cons_append]
  have hchar : ∀ m, (sites (before ++ op.symbol ++ after))[before.length]? = some m →
      m.char = c := by
    intro m hm
    have := congrArg (Option.map Mark.char) hm
    rw [← List.getElem?_map, ← unmarked, unmarked_sites, htext] at this
    simpa using this.symm
  have hsite : (∃ m, (sites (before ++ op.symbol ++ after))[before.length]? = some m ∧
      m.free = true) ↔
        (sites (before ++ op.symbol ++ after))[before.length]? = some ⟨c, true⟩ := by
    constructor
    · rintro ⟨⟨d, free⟩, hm, rfl⟩
      obtain rfl : d = c := hchar _ hm
      exact hm
    · exact fun h => ⟨_, h, rfl⟩
  have hout : (sites (before ++ op.symbol ++ after))[before.length]? = some ⟨c, true⟩ ↔
      Outside before (op.symbol ++ after) := by
    rw [htext, sites, marked, isSite_iff hc rfl, hsymbol, List.cons_append, outside_iff hc.2.1]
    simp [marked]
  rw [StandsAt, hsite, hout]
  exact and_iff_left hstart

theorem siteOf?_sites_eq_none : siteOf? op.symbol (sites e) = none ↔
    ∀ before after, e = before ++ op.symbol ++ after → ¬ Outside before (op.symbol ++ after) := by
  rw [siteOf?_eq_none]
  constructor
  · rintro h before after rfl hout
    exact h _ ((standsAt_iff_outside op before after).mpr hout)
  · intro h i hi
    obtain ⟨before, after, rfl, rfl⟩ := exists_of_standsAt hi
    exact h before after rfl ((standsAt_iff_outside op before after).mp hi)

end Occurrences

section Choice

variable {ms : List Mark} {best : Option (Nat × Operator)} {ops : List Operator} {op : Operator}
  {i n : Nat}

/-- The best split so far starts before a place, or its operator is at least as long as the one
there. -/
def Beats (best : Option (Nat × Operator)) (i n : Nat) : Prop :=
  ∃ s ∈ best, s.1 < i ∨ n ≤ s.2.symbol.length

theorem Beats.step (h : Beats best i n) (op : Operator) : Beats (betterSplit ms best op) i n := by
  obtain ⟨⟨start, chosen⟩, hs, hbeats⟩ := h
  obtain rfl : best = some (start, chosen) := hs
  unfold betterSplit
  cases siteOf? op.symbol ms with
  | none => exact ⟨_, rfl, hbeats⟩
  | some j =>
    dsimp only
    split
    next => exact ⟨_, rfl, hbeats⟩
    next hlt =>
      simp only [Bool.or_eq_true, decide_eq_true_eq, not_or, Nat.not_lt, Nat.not_le] at hlt
      refine ⟨_, rfl, ?_⟩
      dsimp only at hbeats ⊢
      omega

theorem beats_betterSplit (h : siteOf? op.symbol ms = some i) :
    Beats (betterSplit ms best op) i op.symbol.length := by
  unfold betterSplit
  rw [h]
  cases best with
  | none => exact ⟨_, rfl, .inr (Nat.le_refl _)⟩
  | some s =>
    obtain ⟨start, chosen⟩ := s
    dsimp only
    split
    next hle =>
      simp only [Bool.or_eq_true, decide_eq_true_eq] at hle
      exact ⟨_, rfl, hle⟩
    next => exact ⟨_, rfl, .inr (Nat.le_refl _)⟩

theorem Beats.foldl (h : Beats best i n) (ops : List Operator) :
    Beats (ops.foldl (betterSplit ms) best) i n := by
  induction ops generalizing best with
  | nil => exact h
  | cons op ops ih => exact ih (h.step op)

/-- No operator of the list is left out of the choice. -/
theorem beats_foldl (best : Option (Nat × Operator)) (hop : op ∈ ops)
    (h : siteOf? op.symbol ms = some i) :
    Beats (ops.foldl (betterSplit ms) best) i op.symbol.length := by
  induction ops generalizing best with
  | nil => cases hop
  | cons o ops ih =>
    rcases List.mem_cons.mp hop with rfl | hop
    · exact (beats_betterSplit h).foldl ops
    · exact ih _ hop

end Choice

section Soundness

variable {e : Text} {s : Split}

theorem split?_eq_none_iff :
    split? e = none ↔ ∀ op : Operator, siteOf? op.symbol (sites e) = none := by
  constructor
  · intro h op
    rw [split?, Option.map_eq_none_iff] at h
    rw [Option.eq_none_iff_forall_ne_some]
    intro i hi
    obtain ⟨s, hs, -⟩ := beats_foldl none op.mem_all hi
    rw [h] at hs
    cases hs
  · exact split?_eq_none

theorem foldl_of_split? (h : split? e = some s) :
    Operator.all.foldl (betterSplit (sites e)) none = some (s.left.length, s.op) := by
  obtain ⟨⟨i, op⟩, hi, rfl⟩ := Option.map_eq_some_iff.mp h
  have hsite := siteOf?_of_foldl_betterSplit (by simp) (i, op) hi
  rw [hi, List.length_take_of_le (le_length_of_siteOf? hsite)]

theorem outside_of_split? (h : split? e = some s) : Outside s.left (s.op.symbol ++ s.right) := by
  have hsite := siteOf?_of_foldl_betterSplit (by simp) _ (foldl_of_split? h)
  have hstands := standsAt_of_siteOf? hsite
  rw [← text_of_split? h] at hstands
  exact (standsAt_iff_outside ..).mp hstands

/-- No longer operator starts where a text is split: it would have been found there or before, and
what is chosen starts no later than it or is at least as long. -/
theorem length_le_of_split? {op : Operator} (h : split? e = some s)
    (hop : op.symbol <+: s.op.symbol ++ s.right) : op.symbol.length ≤ s.op.symbol.length := by
  obtain ⟨rest, hrest⟩ := hop
  have hout := outside_of_split? h
  have htext := text_of_split? h
  rw [← hrest] at hout
  rw [List.append_assoc, ← hrest, ← List.append_assoc] at htext
  have hstands := (standsAt_iff_outside ..).mpr hout
  rw [htext] at hstands
  cases hi : siteOf? op.symbol (sites e) with
  | none => exact absurd hstands (siteOf?_eq_none.mp hi _)
  | some i =>
    obtain ⟨best, hbest, hbeats⟩ := beats_foldl none op.mem_all hi
    obtain rfl : (s.left.length, s.op) = best := by
      simpa [foldl_of_split? h] using hbest
    exact hbeats.resolve_left (Nat.not_lt.mpr (le_of_siteOf? hi hstands))

/-- A split takes the text apart at an operator that stands outside and is not the beginning of a
longer one. There is no split exactly if no operator stands outside. -/
theorem split?_sound (e : Text) :
    (∀ s, split? e = some s →
      s.left ++ s.op.symbol ++ s.right = e ∧ Outside s.left (s.op.symbol ++ s.right) ∧
        ∀ op : Operator, op.symbol <+: s.op.symbol ++ s.right →
          op.symbol.length ≤ s.op.symbol.length) ∧
      (split? e = none ↔ ∀ (op : Operator) (before after : Text),
        e = before ++ op.symbol ++ after → ¬ Outside before (op.symbol ++ after)) := by
  refine ⟨fun s h => ⟨text_of_split? h, outside_of_split? h, fun op => length_le_of_split? h⟩, ?_⟩
  rw [split?_eq_none_iff]
  exact forall_congr' fun op => siteOf?_sites_eq_none

/-- Operators in a literal, in braces and after a `$` are passed over, and `<` is not cut off from
`<=`. -/
theorem split?_sound_sample :
    split? "'<<'<=$-- \x7ba<<b\x7d".toList =
        some ⟨"'<<'".toList, .lessEqual, "$-- \x7ba<<b\x7d".toList⟩ ∧
      Outside "'<<'".toList "<=$-- \x7ba<<b\x7d".toList ∧
      split? "$-- \x7ba<<b\x7d".toList = none ∧ ¬ Outside "$".toList "-- \x7ba<<b\x7d".toList := by
  have h : split? "'<<'<=$-- \x7ba<<b\x7d".toList =
      some ⟨"'<<'".toList, .lessEqual, "$-- \x7ba<<b\x7d".toList⟩ := by decide
  have hnone : split? "$-- \x7ba<<b\x7d".toList = none := by decide
  exact ⟨h, ((split?_sound _).1 _ h).2.1, hnone,
    (split?_sound _).2.mp hnone .sub "$".toList "- \x7ba<<b\x7d".toList (by decide)⟩

end Soundness

end Dcpu.Expr
