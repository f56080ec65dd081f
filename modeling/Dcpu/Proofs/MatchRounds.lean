import Dcpu.Proofs.CleanLines
import Mathlib.Logic.Relation

/-! Matching by places. Here a match is a loop that moves through the pattern and the text by the
numbers of their characters, and every character or part that it takes has to be there. For every
pattern the loop comes to an end within range, with the captures of the match, which are parts of
the text one behind the other. -/
namespace Dcpu

namespace Piece

/-- Where the text behind a sigil goes. -/
def slotOf (sigil id : Char) : Slot :=
  if sigil = '$' then .literal else if id = 'a' then .a else .b

/-- Where a piece puts what it captures. -/
def slot? : Piece → Option Slot
  | .capture _ slot => some slot
  | _ => none

variable {sigil : Char}

theorem parse_capture (h : sigil = '%' ∨ sigil = '$') (id : Char) (t : Text) :
    parse (sigil :: id :: t) = .capture sigil (slotOf sigil id) :: parse t := by
  rcases h with rfl | rfl
  · by_cases hid : id = 'a'
    · subst hid
      rfl
    · simp [parse, slotOf, hid]
  · rfl

theorem parse_dangling (h : sigil = '%' ∨ sigil = '$') : parse [sigil] = [.dangling sigil] := by
  rcases h with rfl | rfl <;> rfl

/-- Induction along a pattern, from one piece of it to the next. -/
theorem parse_induction {motive : Text → Prop} (nil : motive [])
    (gap : ∀ t, motive t → motive ('_' :: t)) (optionalGap : ∀ t, motive t → motive ('-' :: t))
    (dangling : ∀ sigil, sigil = '%' ∨ sigil = '$' → motive [sigil])
    (capture : ∀ sigil id t, sigil = '%' ∨ sigil = '$' → motive t → motive (sigil :: id :: t))
    (char : ∀ c t, isSigil c = false → motive t → motive (c :: t)) (t : Text) : motive t := by
  induction t using parse.induct with
  | case1 => exact nil
  | case2 t ih => exact gap t ih
  | case3 t ih => exact optionalGap t ih
  | case4 => exact dangling '%' (.inl rfl)
  | case5 => exact dangling '$' (.inr rfl)
  | case6 t ih => exact capture '%' 'a' t (.inl rfl) ih
  | case7 id t _ ih => exact capture '%' id t (.inl rfl) ih
  | case8 id t ih => exact capture '$' id t (.inr rfl) ih
  | case9 c t h1 h2 h3 h4 _ h6 h7 ih =>
    refine char c t ?_ ih
    have hpercent : c ≠ '%' := by
      rintro rfl
      cases t with
      | nil => exact h3 rfl rfl
      | cons d t => exact h6 d t rfl rfl
    have hdollar : c ≠ '$' := by
      rintro rfl
      cases t with
      | nil => exact h4 rfl rfl
      | cons d t => exact h7 d t rfl rfl
    have h1 : c ≠ '_' := h1
    have h2 : c ≠ '-' := h2
    simp [isSigil, h1, h2, hpercent, hdollar]

end Piece

namespace Captures

/-- The text in a slot. -/
def get (found : Captures) : Slot → Option Text
  | .a => found.a
  | .b => found.b
  | .literal => found.literal

/-- Puts texts in slots, one after the other. -/
def setAll (found : Captures) (captured : List (Slot × Text)) : Captures :=
  captured.foldl (fun found x => found.set x.1 x.2) found

theorem get_set (found : Captures) (slot k : Slot) (t : Text) :
    (found.set slot t).get k = if k = slot then some t else found.get k := by
  cases slot <;> cases k <;> rfl

/-- The last text that is put in a slot stays there. -/
theorem get_setAll (found : Captures) (captured : List (Slot × Text)) (k : Slot) :
    (found.setAll captured).get k = (captured.reverse.lookup k).or (found.get k) := by
  induction captured generalizing found with
  | nil => rfl
  | cons x captured ih =>
    obtain ⟨slot, t⟩ := x
    have hstep : found.setAll ((slot, t) :: captured) = (found.set slot t).setAll captured := rfl
    rw [hstep, ih, get_set, List.reverse_cons, List.lookup_append, Option.or_assoc,
      List.lookup_cons]
    by_cases hk : k = slot
    · simp [hk]
    · simp [hk, beq_eq_false_iff_ne.mpr hk]

end Captures

namespace Pattern

section Places

/-- The part of a text between two places, which have to be in order and in the text. -/
def sliceAt? (t : Text) (i j : Nat) : Option Text :=
  if i ≤ j ∧ j ≤ t.length then some ((t.drop i).take (j - i)) else none

/-- Tests the character at a place if the text goes that far. -/
def testAt? (t : Text) (i : Nat) (p : Char → Bool) : Option Bool :=
  if i < t.length then t[i]?.map p else some false

/-- Looks from the place `i` on for the end of a capture before the character `term`. For a comma
it is the first one outside of brackets, else it is the last occurrence. -/
def stopFrom? (term : Char) (q : Quote) (depth : Int) (last : Option Nat) (i : Nat) :
    Text → Option Nat
  | [] => last
  | c :: t =>
    let goOn (depth : Int) (last : Option Nat) : Option Nat :=
      stopFrom? term (q.next c) depth last (i + 1) t
    if q.isFree c = false then goOn depth last
    else if term = ',' then
      if c = '(' ∨ c = '[' ∨ c = '{' then goOn (depth + 1) last
      else if c = ')' ∨ c = ']' ∨ c = '}' then goOn (depth - 1) last
      else if c = ',' ∧ depth ≤ 0 then some i
      else goOn depth last
    else goOn depth (if c.toLower = term.toLower then some i else last)

/-- The place where a capture ends that starts at the place `i`, before the rest of a pattern. -/
def stopPlace? (rest t : Text) (i : Nat) : Option Nat :=
  match rest.find? fun c => !(c == '-' || c == '_') with
  | none => some t.length
  | some term => stopFrom? term .outside 0 none i (t.drop i)

variable {q : Quote} {depth : Int} {last : Option Nat} {i j n : Nat} {rest t : Text} {term : Char}

theorem sliceAt?_eq (hi : i ≤ j) (hj : j ≤ t.length) :
    sliceAt? t i j = some ((t.drop i).take (j - i)) := if_pos ⟨hi, hj⟩

theorem testAt?_eq (t : Text) (i : Nat) (p : Char → Bool) :
    testAt? t i p = some ((t.drop i).head?.any p) := by
  rw [testAt?, List.head?_drop]
  split
  next h => simp [h]
  next h => simp [List.getElem?_eq_none (Nat.le_of_not_lt h)]

theorem depthStep_free (c : Char) : (⟨c, true⟩ : Mark).depthStep =
    if c = '(' ∨ c = '[' ∨ c = '{' then 1 else if c = ')' ∨ c = ']' ∨ c = '}' then -1 else 0 := by
  unfold Mark.depthStep
  simp only [Bool.not_true, Bool.false_eq_true, if_false]
  split <;> simp_all

theorem stopFrom?_comma (depth : Int) (i : Nat) :
    stopFrom? ',' q depth none i t =
      (commaIndex? depth (Text.markedFrom q t)).map (i + ·) := by
  induction t generalizing q depth i with
  | nil => rfl
  | cons c t ih =>
    have step (d : Int) : stopFrom? ',' (q.next c) d none (i + 1) t =
        ((commaIndex? d (Text.markedFrom (q.next c) t)).map (· + 1)).map (i + ·) := by
      rw [ih, Option.map_map]
      simp only [Function.comp_def, Nat.add_assoc, Nat.add_comm 1]
    rw [Text.markedFrom]
    unfold stopFrom? commaIndex?
    cases hf : q.isFree c with
    | false => simp [step, Mark.isOpenly, Mark.depthStep]
    | true =>
      rw [depthStep_free]
      by_cases ho : c = '(' ∨ c = '[' ∨ c = '{'
      · have hcomma : c ≠ ',' := by rintro rfl; simp at ho
        simp [step, Mark.isOpenly, ho, hcomma]
      by_cases hc : c = ')' ∨ c = ']' ∨ c = '}'
      · have hcomma : c ≠ ',' := by rintro rfl; simp at hc
        simp [step, Mark.isOpenly, ho, hc, hcomma, Int.sub_eq_add_neg]
      by_cases hcomma : c = ',' ∧ depth ≤ 0
      · simp [Mark.isOpenly, hcomma]
      · simp [step, Mark.isOpenly, ho, hc, hcomma]

theorem stopFrom?_other (h : term ≠ ',') (depth : Int) (last : Option Nat) (i : Nat) :
    stopFrom? term q depth last i t =
      ((lastIndex? term (Text.markedFrom q t)).map (i + ·)).or last := by
  induction t generalizing q last i with
  | nil => rfl
  | cons c t ih =>
    rw [Text.markedFrom]
    unfold stopFrom? lastIndex?
    simp only [h, if_false, ih]
    cases lastIndex? term (Text.markedFrom (q.next c) t) with
    | some k => simp [Nat.add_comm, Nat.add_left_comm]
    | none =>
      cases hf : q.isFree c with
      | false => simp
      | true => by_cases hc : c.toLower = term.toLower <;> simp [hc]

/-- The first character of a pattern that is no gap starts the first piece that is none. -/
theorem findSome?_stop? (rest : Text) : (Piece.parse rest).findSome? Piece.stop? =
    rest.find? fun c => !(c == '-' || c == '_') := by
  induction rest using Piece.parse_induction with
  | nil => rfl
  | gap t ih => exact ih
  | optionalGap t ih => exact ih
  | dangling sigil h =>
    rw [Piece.parse_dangling h]
    rcases h with rfl | rfl <;> rfl
  | capture sigil id t h ih =>
    rw [Piece.parse_capture h]
    rcases h with rfl | rfl <;> rfl
  | char c t h ih =>
    rw [Piece.parse_cons h]
    have hc : c ≠ '-' ∧ c ≠ '_' := by
      constructor <;> rintro rfl <;> cases h
    simp [List.findSome?_cons, Piece.stop?, hc]

/-- A capture ends as many characters behind its start as it takes. -/
theorem stopPlace?_eq (hi : i ≤ t.length) : stopPlace? rest t i =
    (captureLength? (Piece.parse rest) (t.drop i)).map (i + ·) := by
  unfold stopPlace? captureLength?
  rw [findSome?_stop?]
  cases rest.find? fun c => !(c == '-' || c == '_') with
  | none => simp [hi]
  | some term =>
    by_cases hterm : term = ','
    · subst hterm
      exact stopFrom?_comma 0 i
    · simp [stopFrom?_other hterm, Text.marked]

theorem lt_length_of_lastIndex? {ms : List Mark} (h : lastIndex? term ms = some n) :
    n < ms.length := by
  induction ms generalizing n with
  | nil => cases h
  | cons m ms ih =>
    rw [lastIndex?] at h
    split at h
    next k hk =>
      obtain rfl := Option.some.inj h
      exact Nat.succ_lt_succ (ih hk)
    next =>
      split at h
      · obtain rfl := Option.some.inj h
        exact Nat.succ_pos _
      · cases h

theorem captureLength?_le {ps : List Piece} (h : captureLength? ps t = some n) : n ≤ t.length := by
  unfold captureLength? at h
  split at h
  · exact (Option.some.inj h).ge
  · obtain ⟨b, a, rfl, rfl, -⟩ := commaIndex?_eq_some.mp h
    simp
  · rw [← Text.length_markedFrom .outside t]
    exact (lt_length_of_lastIndex? h).le

/-- A capture ends behind its start and in the text. -/
theorem stopPlace?_bounds (hi : i ≤ t.length) (h : stopPlace? rest t i = some j) :
    i ≤ j ∧ j ≤ t.length := by
  rw [stopPlace?_eq hi] at h
  obtain ⟨n, hn, rfl⟩ := Option.map_eq_some_iff.mp h
  have hle := captureLength?_le hn
  rw [List.length_drop] at hle
  omega

end Places

section Rounds

/-- Where the loop stands: at a place of the pattern and of the text, perhaps with a space that a
gap of the pattern has taken, and what has been captured. -/
structure Cursor where
  place : Nat := 0
  read : Nat := 0
  spaced : Bool := false
  found : Captures := {}

/-- What a round of the loop comes to. -/
inductive Round where
  | goOn (s : Cursor)
  | answer (found : Option Captures)

/-- A round at a sigil. -/
def captureRound? (pat t : Text) (s : Cursor) (sigil : Char) : Option Round :=
  match pat[s.place + 1]? with
  | none => some (.answer none)
  | some id => do
    let rest ← sliceAt? pat (s.place + 2) pat.length
    match stopPlace? rest t s.read with
    | none => return .answer none
    | some stop =>
      let part ← sliceAt? t s.read stop
      let captured := Text.trim part
      if captured.isEmpty then return .answer none
      else return .goOn { s with
        place := s.place + 2, read := stop, found := s.found.set (Piece.slotOf sigil id) captured }

/-- A round of the loop. It has no result if it takes a character or a part that is not there. -/
def round? (pat t : Text) (s : Cursor) : Option Round :=
  if s.place < pat.length then do
    let p ← pat[s.place]?
    if p = '_' then
      let space ← testAt? t s.read isSpace
      if space then return .goOn { s with read := s.read + 1, spaced := true }
      else if s.spaced then return .goOn { s with place := s.place + 1, spaced := false }
      else return .answer none
    else if p = '-' then
      -- an optional gap takes one space in a round and stays where it is
      let space ← testAt? t s.read isSpace
      if space then return .goOn { s with read := s.read + 1 }
      else return .goOn { s with place := s.place + 1 }
    else if p = '%' ∨ p = '$' then captureRound? pat t s p
    else
      let same ← testAt? t s.read fun c => c.toLower == p.toLower
      if same then return .goOn { s with place := s.place + 1, read := s.read + 1 }
      else return .answer none
  else some (.answer (if s.read = t.length then some s.found else none))

/-- The places of a cursor are in the pattern and in the text, and only a gap has taken spaces. -/
structure InRange (pat t : Text) (s : Cursor) : Prop where
  place : s.place ≤ pat.length
  read : s.read ≤ t.length
  gap : s.spaced = true → pat[s.place]? = some '_'

/-- What is left of the pattern and of the text. -/
def left (pat t : Text) (s : Cursor) : Nat := (pat.length - s.place) + (t.length - s.read)

/-- What the match comes to from here on. -/
def outcome (pat t : Text) (s : Cursor) : Option Captures :=
  -- the gap at this place is met already and only passes the spaces that follow
  if s.spaced then
    matchPieces (Piece.parse (pat.drop (s.place + 1))) ((t.drop s.read).dropWhile isSpace) s.found
  else matchPieces (Piece.parse (pat.drop s.place)) (t.drop s.read) s.found

/-- A round stays in range, leaves less to do and does not change what the match comes to. -/
def Fits (pat t : Text) (s : Cursor) : Round → Prop
  | .goOn s' => InRange pat t s' ∧ left pat t s' < left pat t s ∧ outcome pat t s' = outcome pat t s
  | .answer found => found = outcome pat t s

variable {pat t ps : Text} {s : Cursor} {c p : Char}

theorem of_drop_eq_cons {l l' : Text} {i : Nat} (h : l.drop i = c :: l') :
    i < l.length ∧ l[i]? = some c ∧ l.drop (i + 1) = l' := by
  have hlt : i < l.length := by
    by_contra hle
    rw [List.drop_eq_nil_of_le (Nat.le_of_not_lt hle)] at h
    cases h
  refine ⟨hlt, ?_, ?_⟩
  · rw [← List.head?_drop, h]
    rfl
  · rw [← List.drop_drop, h]
    rfl

/-- The round at a character of the pattern. -/
theorem round?_of_drop (hp : pat.drop s.place = p :: ps) : round? pat t s =
    if p = '_' then
      some (if (t.drop s.read).head?.any isSpace then
          .goOn { s with read := s.read + 1, spaced := true }
        else if s.spaced then .goOn { s with place := s.place + 1, spaced := false }
        else .answer none)
    else if p = '-' then
      some (if (t.drop s.read).head?.any isSpace then .goOn { s with read := s.read + 1 }
        else .goOn { s with place := s.place + 1 })
    else if p = '%' ∨ p = '$' then captureRound? pat t s p
    else some (if (t.drop s.read).head?.any (fun c => c.toLower == p.toLower) then
        .goOn { s with place := s.place + 1, read := s.read + 1 }
      else .answer none) := by
  obtain ⟨hlt, hget, -⟩ := of_drop_eq_cons hp
  rw [round?, if_pos hlt, hget]
  simp only [Option.bind_eq_bind, Option.bind_some, testAt?_eq, Option.pure_def]
  split
  · split
    · rfl
    · split <;> rfl
  · split
    · split <;> rfl
    · split
      · rfl
      · split <;> rfl

theorem exists_of_any_head? {f : Char → Bool} {u : Text} (h : u.head?.any f = true) :
    ∃ c rest, u = c :: rest ∧ f c = true := by
  cases u with
  | nil => cases h
  | cons c rest => exact ⟨c, rest, rfl, h⟩

theorem dropWhile_of_any_head? {f : Char → Bool} {u : Text} (h : ¬ u.head?.any f = true) :
    u.dropWhile f = u := by
  cases u with
  | nil => rfl
  | cons c rest => exact List.dropWhile_cons_of_neg h

theorem InRange.spaced_eq_false (h : InRange pat t s) (hp : pat[s.place]? ≠ some '_') :
    s.spaced = false := by
  rw [← Bool.not_eq_true]
  exact fun hs => hp (h.gap hs)

/-- A round that goes on moves the cursor. -/
theorem Fits.goOn {s' : Cursor} (h : InRange pat t s') (hplace : s.place ≤ s'.place)
    (hread : s.read ≤ s'.read) (hmoved : s.place + s.read < s'.place + s'.read)
    (hout : outcome pat t s' = outcome pat t s) : Fits pat t s (.goOn s') := by
  refine ⟨h, ?_, hout⟩
  have := h.place
  have := h.read
  unfold left
  omega

theorem outcome_of_not_spaced (hs : s.spaced = false) : outcome pat t s =
    matchPieces (Piece.parse (pat.drop s.place)) (t.drop s.read) s.found := by
  rw [outcome, hs]
  rfl

theorem fits_gap (h : InRange pat t s) (hp : pat.drop s.place = '_' :: ps) :
    ∃ r, round? pat t s = some r ∧ Fits pat t s r := by
  obtain ⟨hlt, hget, hps⟩ := of_drop_eq_cons hp
  rw [round?_of_drop hp, if_pos rfl]
  refine ⟨_, rfl, ?_⟩
  split
  next hspace =>
    obtain ⟨c, u, ht, hc⟩ := exists_of_any_head? hspace
    obtain ⟨hr, -, hu⟩ := of_drop_eq_cons ht
    refine .goOn ⟨h.place, hr, fun _ => hget⟩ (Nat.le_refl _) (Nat.le_succ _)
      (Nat.lt_succ_self _) ?_
    cases hs : s.spaced <;> simp [outcome, hs, hu, ht, hc, hp, hps, Piece.parse, matchPieces]
  next hspace =>
    have hdrop := dropWhile_of_any_head? hspace
    split
    next hs =>
      refine .goOn ⟨hlt, h.read, by simp⟩ (Nat.le_succ _) (Nat.le_refl _)
        (Nat.add_lt_add_right (Nat.lt_succ_self _) _) ?_
      simp [outcome, hs, hdrop]
    next hs =>
      change none = outcome pat t s
      rw [outcome_of_not_spaced (Bool.eq_false_iff.mpr hs), hp, Piece.parse]
      cases hu : t.drop s.read with
      | nil => rfl
      | cons c u =>
        rw [hu] at hspace
        exact (if_neg hspace).symm

theorem fits_optionalGap (h : InRange pat t s) (hp : pat.drop s.place = '-' :: ps) :
    ∃ r, round? pat t s = some r ∧ Fits pat t s r := by
  obtain ⟨hlt, hget, hps⟩ := of_drop_eq_cons hp
  have hs := h.spaced_eq_false (by rw [hget]; decide)
  rw [round?_of_drop hp, if_neg (by decide), if_pos rfl]
  refine ⟨_, rfl, ?_⟩
  split
  next hspace =>
    obtain ⟨c, u, ht, hc⟩ := exists_of_any_head? hspace
    obtain ⟨hr, -, hu⟩ := of_drop_eq_cons ht
    refine .goOn ⟨h.place, hr, h.gap⟩ (Nat.le_refl _) (Nat.le_succ _) (Nat.lt_succ_self _) ?_
    simp [outcome, hs, hu, ht, hc, hp, Piece.parse, matchPieces]
  next hspace =>
    have hdrop := dropWhile_of_any_head? hspace
    refine .goOn ⟨hlt, h.read, by simp [hs]⟩ (Nat.le_succ _) (Nat.le_refl _)
      (Nat.add_lt_add_right (Nat.lt_succ_self _) _) ?_
    simp [outcome, hs, hp, hps, hdrop, Piece.parse, matchPieces]

theorem fits_char (h : InRange pat t s) (hp : pat.drop s.place = p :: ps)
    (hsigil : Piece.isSigil p = false) : ∃ r, round? pat t s = some r ∧ Fits pat t s r := by
  obtain ⟨hlt, hget, hps⟩ := of_drop_eq_cons hp
  obtain ⟨h1, h2, h3, h4⟩ : p ≠ '_' ∧ p ≠ '-' ∧ p ≠ '%' ∧ p ≠ '$' := by
    simpa [Piece.isSigil] using hsigil
  have hs := h.spaced_eq_false (by rw [hget]; simpa using h1)
  rw [round?_of_drop hp, if_neg h1, if_neg h2, if_neg (by simp [h3, h4])]
  refine ⟨_, rfl, ?_⟩
  split
  next hsame =>
    obtain ⟨c, u, ht, hc⟩ := exists_of_any_head? hsame
    obtain ⟨hr, -, hu⟩ := of_drop_eq_cons ht
    refine .goOn ⟨hlt, hr, by simp [hs]⟩ (Nat.le_succ _) (Nat.le_succ _)
      (Nat.add_lt_add (Nat.lt_succ_self _) (Nat.lt_succ_self _)) ?_
    simp [outcome, hs, hu, ht, hc, hp, hps, Piece.parse_cons hsigil, matchPieces]
  next hsame =>
    change none = outcome pat t s
    rw [outcome_of_not_spaced hs, hp, Piece.parse_cons hsigil]
    cases hu : t.drop s.read with
    | nil => rfl
    | cons c u =>
      rw [hu] at hsame
      exact (if_neg hsame).symm

theorem fits_sigil (h : InRange pat t s) (hp : pat.drop s.place = p :: ps)
    (hsigil : p = '%' ∨ p = '$') : ∃ r, round? pat t s = some r ∧ Fits pat t s r := by
  obtain ⟨hlt, hget, hps⟩ := of_drop_eq_cons hp
  have hs := h.spaced_eq_false (by rw [hget]; rcases hsigil with rfl | rfl <;> decide)
  have hround : round? pat t s = captureRound? pat t s p := by
    rw [round?_of_drop hp]
    rcases hsigil with rfl | rfl <;> rfl
  rw [hround, captureRound?]
  cases ps with
  | nil =>
    have hid : pat[s.place + 1]? = none := by rw [← List.head?_drop, hps]; rfl
    rw [hid]
    refine ⟨_, rfl, ?_⟩
    change none = outcome pat t s
    rw [outcome_of_not_spaced hs, hp, Piece.parse_dangling hsigil]
    rfl
  | cons id ps =>
    obtain ⟨hlt', hid, hps'⟩ := of_drop_eq_cons hps
    have hrest : sliceAt? pat (s.place + 2) pat.length = some ps := by
      rw [sliceAt?_eq hlt' (Nat.le_refl _), hps', ← List.length_drop, hps', List.take_length]
    have hout : outcome pat t s = matchPieces (.capture p (Piece.slotOf p id) :: Piece.parse ps)
        (t.drop s.read) s.found := by
      rw [outcome_of_not_spaced hs, hp, Piece.parse_capture hsigil]
    rw [hid]
    simp only [hrest, Option.bind_eq_bind, Option.bind_some, stopPlace?_eq h.read]
    cases hn : captureLength? (Piece.parse ps) (t.drop s.read) with
    | none =>
      refine ⟨_, rfl, ?_⟩
      change none = outcome pat t s
      rw [hout, matchPieces, hn]
    | some n =>
      have hle : s.read + n ≤ t.length := by
        have := captureLength?_le hn
        rw [List.length_drop] at this
        have := h.read
        omega
      have hpart : sliceAt? t s.read (s.read + n) = some ((t.drop s.read).take n) := by
        rw [sliceAt?_eq (Nat.le_add_right _ _) hle, Nat.add_sub_cancel_left]
      simp only [Option.map_some, hpart, Option.bind_some]
      split
      next hempty =>
        refine ⟨_, rfl, ?_⟩
        change none = outcome pat t s
        rw [hout, matchPieces, hn]
        exact (if_pos hempty).symm
      next hempty =>
        refine ⟨_, rfl, .goOn ⟨hlt', hle, by simp [hs]⟩ (Nat.le_add_right _ 2)
          (Nat.le_add_right _ n) (by dsimp only; omega) ?_⟩
        rw [hout, matchPieces, hn]
        simp only [outcome, hs, Bool.false_eq_true, if_false, hps', ← List.drop_drop]
        exact (if_neg hempty).symm

/-- A round in range has a result, whatever the pattern is. -/
theorem round?_fits (h : InRange pat t s) : ∃ r, round? pat t s = some r ∧ Fits pat t s r := by
  cases hp : pat.drop s.place with
  | nil =>
    have hle : pat.length ≤ s.place := List.drop_eq_nil_iff.mp hp
    have hs := h.spaced_eq_false (by simp [List.getElem?_eq_none hle])
    rw [round?, if_neg (Nat.not_lt.mpr hle)]
    refine ⟨_, rfl, ?_⟩
    change (if s.read = t.length then some s.found else none) = outcome pat t s
    rw [outcome_of_not_spaced hs, hp, Piece.parse]
    by_cases hr : s.read = t.length
    · rw [if_pos hr, hr, List.drop_length]
      rfl
    · have hlt : s.read < t.length := Nat.lt_of_le_of_ne h.read hr
      rw [if_neg hr, List.drop_eq_getElem_cons hlt]
      rfl
  | cons p ps =>
    cases hsigil : Piece.isSigil p with
    | false => exact fits_char h hp hsigil
    | true =>
      have hcases : p = '_' ∨ p = '-' ∨ p = '%' ∨ p = '$' := by
        simpa [Piece.isSigil] using hsigil
      rcases hcases with rfl | rfl | hcapture
      · exact fits_gap h hp
      · exact fits_optionalGap h hp
      · exact fits_sigil h hp hcapture

/-- The loop goes on for `n` rounds, each of them in range, and then answers. -/
inductive Runs (pat t : Text) : Nat → Cursor → Option Captures → Prop where
  | answer {s : Cursor} {found : Option Captures} (h : round? pat t s = some (.answer found)) :
      Runs pat t 0 s found
  | goOn {s s' : Cursor} {n : Nat} {found : Option Captures}
      (h : round? pat t s = some (.goOn s')) (run : Runs pat t n s' found) :
      Runs pat t (n + 1) s found

/-- From a cursor in range the loop answers, after at most as many rounds as there is left. -/
theorem InRange.exists_runs (h : InRange pat t s) :
    ∃ n ≤ left pat t s, Runs pat t n s (outcome pat t s) := by
  -- On what is left, since a round need not move in the pattern.
  induction hk : left pat t s using Nat.strong_induction_on generalizing s with
  | _ k ih =>
    obtain ⟨r, hr, hfits⟩ := round?_fits h
    cases r with
    | answer found =>
      obtain rfl : found = outcome pat t s := hfits
      exact ⟨0, Nat.zero_le _, .answer hr⟩
    | goOn s' =>
      obtain ⟨hrange, hlt, hout⟩ := hfits
      obtain ⟨n, hn, hrun⟩ := ih (left pat t s') (hk ▸ hlt) hrange rfl
      rw [hout] at hrun
      exact ⟨n + 1, by omega, .goOn hr hrun⟩

/-- The loop comes from one cursor to another. -/
def Visits (pat t : Text) : Cursor → Cursor → Prop :=
  Relation.ReflTransGen fun s s' => round? pat t s = some (.goOn s')

theorem InRange.visits {s' : Cursor} (h : InRange pat t s) (hv : Visits pat t s s') :
    InRange pat t s' := by
  induction hv with
  | refl => exact h
  | tail _ hstep ih =>
    obtain ⟨r, hr, hfits⟩ := round?_fits ih
    obtain rfl := Option.some.inj (hr.symm.trans hstep)
    exact hfits.1

end Rounds

section Captured

/-- The texts are parts of a text, one behind the other. -/
def InOrder : List Text → Text → Prop
  | [], _ => True
  | x :: xs, t => ∃ before after, t = before ++ x ++ after ∧ InOrder xs after

variable {xs : List Text} {t : Text} {ps : List Piece} {found out : Captures}

theorem InOrder.append_left (h : InOrder xs t) (a : Text) : InOrder xs (a ++ t) := by
  cases xs with
  | nil => trivial
  | cons x xs =>
    obtain ⟨before, after, rfl, h⟩ := h
    exact ⟨a ++ before, after, by simp, h⟩

theorem InOrder.append_right (h : InOrder xs t) (b : Text) : InOrder xs (t ++ b) := by
  induction xs generalizing t with
  | nil => trivial
  | cons x xs ih =>
    obtain ⟨before, after, rfl, h⟩ := h
    exact ⟨before, after ++ b, by simp, ih h⟩

/-- A match captures one text for each sigil, trimmed and not blank, from left to right. -/
theorem exists_captured (h : matchPieces ps t found = some out) :
    ∃ texts, texts.length = (ps.filterMap Piece.slot?).length ∧ InOrder texts t ∧
      (∀ x ∈ texts, x ≠ [] ∧ Text.trim x = x) ∧
      out = found.setAll ((ps.filterMap Piece.slot?).zip texts) := by
  induction ps generalizing t found with
  | nil =>
    obtain ⟨-, rfl⟩ := matchPieces_nil.mp h
    exact ⟨[], rfl, trivial, by simp, rfl⟩
  | cons p ps ih =>
    cases p with
    | gap =>
      obtain ⟨w, rest, rfl, -, -, -, h⟩ := matchPieces_gap.mp h
      obtain ⟨texts, hlen, horder, htexts, hout⟩ := ih h
      exact ⟨texts, hlen, horder.append_left w, htexts, hout⟩
    | optionalGap =>
      obtain ⟨texts, hlen, horder, htexts, hout⟩ := ih h
      refine ⟨texts, hlen, ?_, htexts, hout⟩
      rw [← List.takeWhile_append_dropWhile (p := isSpace) (l := t)]
      exact horder.append_left _
    | capture sigil slot =>
      obtain ⟨n, -, hne, h⟩ := matchPieces_capture.mp h
      obtain ⟨texts, hlen, horder, htexts, hout⟩ := ih h
      obtain ⟨a, b, hpart, -⟩ := Text.exists_append_trim (t.take n)
      refine ⟨Text.trim (t.take n) :: texts, congrArg (· + 1) hlen, ⟨a, b ++ t.drop n, ?_, ?_⟩,
        List.forall_mem_cons.mpr ⟨⟨hne, Text.trim_trim _⟩, htexts⟩, hout⟩
      · rw [← List.append_assoc, ← hpart, List.take_append_drop]
      · exact horder.append_left b
    | dangling sigil => cases h
    | char c =>
      obtain ⟨d, rest, rfl, -, h⟩ := matchPieces_char.mp h
      obtain ⟨texts, hlen, horder, htexts, hout⟩ := ih h
      exact ⟨texts, hlen, horder.append_left [d], htexts, hout⟩

theorem inRange_start (pat t : Text) : InRange pat t {} :=
  ⟨Nat.zero_le _, Nat.zero_le _, by simp⟩

theorem captures_match? (p : Pattern) (t : Text) :
    (p.match? t).map Match.captures = outcome p.text (Text.trim t) {} := by
  rw [match?, Option.map_map, outcome_of_not_spaced rfl]
  exact Option.map_id'

/-- The loop is safe for every pattern: wherever it comes, its places are in range, a capture ends
behind its start and in the text, and no round takes what is not there. It ends, with the captures
of the match. A match captures one text for each sigil of the pattern, trimmed and not blank; they are
parts of the text in the order of the sigils, and a slot has the last text that goes there. -/
theorem match?_safe (p : Pattern) (t : Text) :
    (∀ s, Visits p.text (Text.trim t) {} s →
      InRange p.text (Text.trim t) s ∧ (round? p.text (Text.trim t) s).isSome = true ∧
        ∀ stop, stopPlace? (p.text.drop (s.place + 2)) (Text.trim t) s.read = some stop →
          s.read ≤ stop ∧ stop ≤ (Text.trim t).length) ∧
    (∃ n ≤ p.text.length + (Text.trim t).length,
      Runs p.text (Text.trim t) n {} ((p.match? t).map Match.captures)) ∧
    ∀ m, p.match? t = some m →
      ∃ texts, texts.length = ((Piece.parse p.text).filterMap Piece.slot?).length ∧
        InOrder texts t ∧ (∀ x ∈ texts, x ≠ [] ∧ Text.trim x = x) ∧
        ∀ slot, m.captures.get slot =
          (((Piece.parse p.text).filterMap Piece.slot?).zip texts).reverse.lookup slot := by
  refine ⟨fun s hv => ?_, ?_, fun m hm => ?_⟩
  · have hs := (inRange_start p.text (Text.trim t)).visits hv
    obtain ⟨r, hr, -⟩ := round?_fits hs
    exact ⟨hs, by rw [hr]; rfl, fun stop => stopPlace?_bounds hs.read⟩
  · rw [captures_match?]
    exact (inRange_start p.text (Text.trim t)).exists_runs
  · obtain ⟨found, hfound, rfl⟩ := Option.map_eq_some_iff.mp hm
    obtain ⟨texts, hlen, horder, htexts, rfl⟩ := exists_captured hfound
    obtain ⟨a, b, ht, -⟩ := Text.exists_append_trim t
    refine ⟨texts, hlen, ?_, htexts, fun slot => ?_⟩
    · rw [ht]
      exact (horder.append_left a).append_right b
    · rw [Captures.get_setAll]
      cases slot <;> exact Option.or_none

/-- A sigil that is repeated, and two captures with nothing but an optional gap between them. -/
def repeatedSigils : Pattern := ⟨"%a-,%a-$x".toList, 1⟩

theorem match?_safe_sample :
    repeatedSigils.match? " f(1,2) , B $C".toList =
        some ⟨repeatedSigils, ⟨some ['B'], none, some ['$', 'C']⟩⟩ ∧
      (∃ n ≤ 22, Runs repeatedSigils.text "f(1,2) , B $C".toList n {}
        (some ⟨some ['B'], none, some ['$', 'C']⟩)) ∧
      ∃ texts, texts.length = 3 ∧ InOrder texts " f(1,2) , B $C".toList ∧
        ([Slot.a, .a, .literal].zip texts).reverse.lookup .a = some ['B'] := by
  have hm : repeatedSigils.match? " f(1,2) , B $C".toList =
      some ⟨repeatedSigils, ⟨some ['B'], none, some ['$', 'C']⟩⟩ := by decide
  obtain ⟨-, hruns, hcaptured⟩ := match?_safe repeatedSigils " f(1,2) , B $C".toList
  rw [hm] at hruns
  obtain ⟨texts, hlen, horder, -, hslot⟩ := hcaptured _ hm
  exact ⟨hm, hruns, texts, hlen, horder, (hslot .a).symm⟩

end Captured

end Pattern

end Dcpu
