import Dcpu.Proofs.ByteOffsets
import Dcpu.Proofs.Names
import Dcpu.Source.Template
import Mathlib.Data.List.TakeDrop

/-! Splitting at a separator and joining. Joining takes a split back for every text; splitting takes
a join back for pieces that close what they open and keep the separator in literals or brackets,
such as the arguments of a macro call. -/
namespace Dcpu

namespace Text

open Pattern (depthAfter)

section Joining

theorem exists_splitMarks (sep : Char) (depth : Int) (ms : List Mark) :
    ∃ p ps, splitMarks sep depth ms = p :: ps := by
  cases ms with
  | nil => exact ⟨[], [], rfl⟩
  | cons m ms =>
    rw [splitMarks]
    split
    · exact ⟨_, _, rfl⟩
    · cases splitMarks sep (depth + m.depthStep) ms <;> exact ⟨_, _, rfl⟩

theorem joinWith_consFirst (sep : Text) (c : Char) (ps : List Text) :
    joinWith sep (consFirst c ps) = c :: joinWith sep ps := by
  cases ps <;> rfl

theorem joinWith_splitMarks (sep : Char) (depth : Int) (ms : List Mark) :
    joinWith [sep] (splitMarks sep depth ms) = unmarked ms := by
  induction ms generalizing depth with
  | nil => rfl
  | cons m ms ih =>
    rw [splitMarks]
    split
    next hm =>
      simp only [Mark.isOpenly, Bool.and_eq_true, beq_iff_eq] at hm
      obtain ⟨p, ps, hp⟩ := exists_splitMarks sep depth ms
      have hrest := ih depth
      rw [hp] at hrest ⊢
      calc joinWith [sep] ([] :: p :: ps) = sep :: joinWith [sep] (p :: ps) := rfl
        _ = unmarked (m :: ms) := by rw [hrest, ← hm.1.1.2]; rfl
    next =>
      rw [joinWith_consFirst, ih]
      rfl

end Joining

section Slices

/-- The slices between the separators from the offset `i` on. The first one starts at `start`. -/
def pieceSlicesFrom? (sep : Char) (s : Text) (q : Quote) (depth : Int) (start i : Nat) :
    Text → Option (List Text)
  | [] => (slice? s start (utf8Length s)).map fun piece => [piece]
  | c :: t =>
    let m : Mark := ⟨c, q.isFree c⟩
    if m.isOpenly sep && m.depthStep == 0 && depth ≤ 0 then do
      let piece ← slice? s start i
      let pieces ← pieceSlicesFrom? sep s (q.next c) depth (i + c.utf8Size) (i + c.utf8Size) t
      return piece :: pieces
    else pieceSlicesFrom? sep s (q.next c) (depth + m.depthStep) start (i + c.utf8Size) t

/-- The slices of a text between the separators outside of literals and brackets. -/
def pieceSlices? (sep : Char) (s : Text) : Option (List Text) :=
  pieceSlicesFrom? sep s .outside 0 0 0 s

/-- The scan has read `before` and then `piece` since the last separator. -/
theorem pieceSlicesFrom?_eq {sep : Char} {s before piece t : Text} {q : Quote} {depth : Int}
    (hs : s = before ++ piece ++ t) :
    pieceSlicesFrom? sep s q depth (utf8Length before) (utf8Length (before ++ piece)) t =
      some ((splitMarks sep depth (markedFrom q t)).modifyHead (piece ++ ·)) := by
  induction t generalizing before piece q depth with
  | nil =>
    have hslice : slice? s (utf8Length before) (utf8Length s) = some piece :=
      slice?_eq_some.mpr ⟨before, [], hs, rfl, by rw [hs, List.append_nil]⟩
    simp [pieceSlicesFrom?, hslice, markedFrom, splitMarks]
  | cons c t ih =>
    have hlen : utf8Length (before ++ piece) + c.utf8Size =
        utf8Length (before ++ piece ++ [c]) := by
      rw [utf8Length_append _ [c]]
      rfl
    have hrest : s = before ++ piece ++ [c] ++ t := by rw [hs]; simp
    rw [markedFrom, splitMarks, pieceSlicesFrom?]
    dsimp only
    split
    next =>
      have hslice : slice? s (utf8Length before) (utf8Length (before ++ piece)) = some piece :=
        slice?_eq_some.mpr ⟨before, c :: t, hs, rfl, rfl⟩
      -- The next piece starts behind the separator and is empty so far.
      have htail : pieceSlicesFrom? sep s (q.next c) depth (utf8Length (before ++ piece ++ [c]))
          (utf8Length (before ++ piece ++ [c] ++ [])) t =
            some ((splitMarks sep depth (markedFrom (q.next c) t)).modifyHead ([] ++ ·)) :=
        ih (by rw [hrest, List.append_nil])
      obtain ⟨p, ps, hp⟩ := exists_splitMarks sep depth (markedFrom (q.next c) t)
      rw [List.append_nil, hp] at htail
      rw [hslice, hlen, htail, hp]
      simp
    next =>
      have hpiece : s = before ++ (piece ++ [c]) ++ t := by rw [hrest, List.append_assoc before]
      rw [hlen, List.append_assoc, ih hpiece]
      obtain ⟨p, ps, hp⟩ := exists_splitMarks sep (depth + (⟨c, q.isFree c⟩ : Mark).depthStep)
        (markedFrom (q.next c) t)
      simp [hp, consFirst]

theorem pieceSlices?_eq (sep : Char) (s : Text) : pieceSlices? sep s = some (splitFree sep s) := by
  have hs : s = [] ++ [] ++ s := rfl
  obtain ⟨p, ps, hp⟩ := exists_splitMarks sep 0 (markedFrom .outside s)
  refine (pieceSlicesFrom?_eq hs).trans ?_
  rw [splitFree, marked, hp]
  rfl

end Slices

section Pieces

variable {sep c : Char} {q : Quote} {depth : Int} {t u : Text}

/-- Where the text has the separator, a scan of it stands in a literal or in brackets. -/
def Covers (sep : Char) (q : Quote) (depth : Int) (t : Text) : Prop :=
  ∀ i < t.length, t[i]? = some sep → q.after (t.take i) = .outside →
    0 < depthAfter q depth (t.take i)

/-- A text that can stand between separators: scanned from outside of literals and brackets, it
ends there again, and it has the separator only inside of them. Whether it closes brackets before it
opens them does not matter. -/
structure IsPiece (sep : Char) (t : Text) : Prop where
  closed : Quote.outside.after t = .outside
  level : depthAfter .outside 0 t = 0
  covers : Covers sep .outside 0 t

instance (sep : Char) (t : Text) : Decidable (IsPiece sep t) :=
  decidable_of_iff (Quote.outside.after t = .outside ∧ depthAfter .outside 0 t = 0 ∧
      ∀ i < t.length, t[i]? = some sep → Quote.outside.after (t.take i) = .outside →
        0 < depthAfter .outside 0 (t.take i))
    ⟨fun h => ⟨h.1, h.2.1, h.2.2⟩, fun h => ⟨h.closed, h.level, h.covers⟩⟩

theorem Covers.tail (h : Covers sep q depth (c :: t)) :
    Covers sep (q.next c) (depth + (⟨c, q.isFree c⟩ : Mark).depthStep) t :=
  fun i hi hsep hq => h (i + 1) (Nat.succ_lt_succ hi) hsep hq

/-- A covered part of a text belongs to the first piece. -/
theorem splitMarks_append {p : Text} {ps : List Text} (h : Covers sep q depth t)
    (hu : splitMarks sep (depthAfter q depth t) (markedFrom (q.after t) u) = p :: ps) :
    splitMarks sep depth (markedFrom q (t ++ u)) = (t ++ p) :: ps := by
  induction t generalizing q depth with
  | nil => exact hu
  | cons c t ih =>
    have hnot : ¬ ((Mark.isOpenly ⟨c, q.isFree c⟩ sep &&
        (⟨c, q.isFree c⟩ : Mark).depthStep == 0 && depth ≤ 0) = true) := by
      simp only [Mark.isOpenly, Bool.and_eq_true, beq_iff_eq, decide_eq_true_eq]
      rintro ⟨⟨⟨hfree, rfl⟩, -⟩, hle⟩
      have hpos : 0 < depth := h 0 (Nat.succ_pos _) rfl (Quote.isFree_iff.mp hfree).1
      omega
    rw [List.cons_append, markedFrom, splitMarks, if_neg hnot, ih h.tail hu]
    rfl

/-- Quotes and brackets, which do not separate. -/
def enclosing : List Char := ['"', '\'', '(', ')', '[', ']', '{', '}']

theorem splitMarks_cons (h : sep ∉ enclosing) (u : Text) :
    splitMarks sep 0 (markedFrom .outside (sep :: u)) =
      [] :: splitMarks sep 0 (markedFrom .outside u) := by
  simp only [enclosing, List.mem_cons, List.not_mem_nil, or_false, not_or] at h
  obtain ⟨hs, hc, hbrackets⟩ := h
  have hfree : Quote.outside.isFree sep = true := Quote.isFree_iff.mpr ⟨rfl, hs, hc⟩
  have hstep : (⟨sep, true⟩ : Mark).depthStep = 0 := by
    simp [Mark.depthStep, hbrackets]
  rw [markedFrom, splitMarks, hfree, hstep, Quote.next_outside hs hc]
  simp [Mark.isOpenly]

theorem splitFree_joinWith {pieces : List Text} (hsep : sep ∉ enclosing) (hne : pieces ≠ [])
    (h : ∀ p ∈ pieces, IsPiece sep p) : splitFree sep (joinWith [sep] pieces) = pieces := by
  obtain ⟨p, ps, rfl⟩ := List.exists_cons_of_ne_nil hne
  clear hne
  induction ps generalizing p with
  | nil =>
    have hp := h p List.mem_cons_self
    have hu : splitMarks sep (depthAfter .outside 0 p)
        (markedFrom (Quote.outside.after p) []) = [] :: [] := rfl
    have hsplit := splitMarks_append hp.covers hu
    rw [List.append_nil] at hsplit
    rw [joinWith, List.flatMap_nil, List.append_nil]
    exact hsplit
  | cons r ps ih =>
    have hp := h p List.mem_cons_self
    have hrest : splitMarks sep 0 (markedFrom .outside (joinWith [sep] (r :: ps))) = r :: ps :=
      ih r fun p hp => h p (List.mem_cons_of_mem _ hp)
    have hu : splitMarks sep (depthAfter .outside 0 p) (markedFrom (Quote.outside.after p)
        (sep :: joinWith [sep] (r :: ps))) = [] :: r :: ps := by
      rw [hp.level, hp.closed, splitMarks_cons hsep, hrest]
    have hsplit := splitMarks_append hp.covers hu
    rw [List.append_nil] at hsplit
    exact hsplit

end Pieces

end Text

section Calls

open Text

variable {name t : Text} {args : List Text} {c : Char}

theorem Text.trim_ne_nil (hc : c ∈ t) (hb : isBlank c = false) : trim t ≠ [] := by
  intro h
  obtain ⟨before, after, ht, hbefore, hafter⟩ := exists_append_trim t
  rw [ht, h, List.append_nil] at hc
  rcases List.mem_append.mp hc with hc | hc
  · exact absurd (hbefore c hc) (by simp [hb])
  · exact absurd (hafter c hc) (by simp [hb])

/-- What stands before and after the first parenthesis. -/
theorem Text.cutAt_word (hw : ∀ c ∈ name, isWordChar c = true) (t : Text) :
    cutAt '(' (name ++ '(' :: t) = some (name, t) := by
  have hspan : (marked (name ++ '(' :: t)).span (fun m => !m.isOpenly '(') =
      (freed name, ⟨'(', true⟩ :: marked t) := by
    have hpass : ∀ m ∈ freed name, (!m.isOpenly '(') = true := by
      intro m hm
      obtain ⟨c, hc, rfl⟩ := List.mem_map.mp hm
      simp [Mark.isOpenly, ne_of_isWordChar (hw c hc) (by decide : isWordChar '(' = false)]
    rw [(Expr.scannedAs_word hw).marked, Expr.marked_open, List.span_eq_takeWhile_dropWhile,
      List.takeWhile_append_of_pos hpass, List.dropWhile_append_of_pos hpass]
    simp [Mark.isOpenly]
  rw [cutAt, hspan]
  simp

/-- A call is read back from its name and its arguments. -/
theorem Template.call?_joinWith (hname : Name.isValid name = true)
    (hargs : ∀ a ∈ args, IsPiece ',' a) (hblank : ∀ a, args = [a] → trim a ≠ []) :
    Template.call? (name ++ '(' :: (joinWith [','] args ++ [')'])) = some (name, args) := by
  have hword := Name.isWordChar_of_isStored (Name.isStored_of_isValid hname)
  have htrim : trim name = name := trim_eq_self
    (fun c hc => isBlank_of_isWordChar (hword c (List.mem_of_head? hc)))
    fun c hc => isBlank_of_isWordChar (hword c (List.mem_of_getLast? hc))
  have hend : trimEnd (joinWith [','] args ++ [')']) = joinWith [','] args ++ [')'] := by
    have hparen : isBlank ')' = false := by decide
    simp [trimEnd, hparen]
  have hlast : dropLast? ')' (joinWith [','] args ++ [')']) = some (joinWith [','] args) := by
    simp [dropLast?]
  have hsplit : (if (trim (joinWith [','] args)).isEmpty then [] else
      splitFree ',' (joinWith [','] args)) = args := by
    cases args with
    | nil => rfl
    | cons a as =>
      have hinner : trim (joinWith [','] (a :: as)) ≠ [] := by
        cases as with
        | nil =>
          rw [joinWith, List.flatMap_nil, List.append_nil]
          exact hblank a rfl
        | cons b bs =>
          -- Blank arguments are no matter here, since a comma stands between them.
          have hcomma : ',' ∈ joinWith [','] (a :: b :: bs) := by simp [joinWith]
          exact trim_ne_nil hcomma (by decide)
      rw [if_neg (by rwa [List.isEmpty_iff])]
      exact splitFree_joinWith (by decide) (List.cons_ne_nil _ _) hargs
  unfold Template.call?
  rw [cutAt_word hword]
  simp only [Option.bind_eq_bind, Option.bind_some, hend, hlast, htrim, hname, if_true, hsplit]
  rfl

/-- Splitting and joining are inverse to each other. The slices between the separators are always
there and are the pieces; they join to the whole text. Pieces that can stand between separators are
what their join is split into, and the arguments of a call are read back in this way. -/
theorem split_join_inverse :
    (∀ sep s, pieceSlices? sep s = some (splitFree sep s) ∧
      joinWith [sep] (splitFree sep s) = s) ∧
    (∀ sep pieces, sep ∉ enclosing → pieces ≠ [] → (∀ p ∈ pieces, IsPiece sep p) →
      splitFree sep (joinWith [sep] pieces) = pieces) ∧
    ∀ name args, Name.isValid name = true → (∀ a ∈ args, IsPiece ',' a) →
      (∀ a, args = [a] → trim a ≠ []) →
      Template.call? (name ++ '(' :: (joinWith [','] args ++ [')'])) = some (name, args) := by
  refine ⟨fun sep s => ⟨pieceSlices?_eq sep s, ?_⟩, fun _ _ => splitFree_joinWith,
    fun _ _ => Template.call?_joinWith⟩
  rw [splitFree, joinWith_splitMarks, unmarked_marked]

/-- Commas in a string with an escaped quote, in nested brackets and in a character literal. -/
def closedArguments : List Text :=
  ["f(1,[2,3])".toList, " \"é,\\\",)\"".toList, [], "','".toList]

theorem split_join_inverse_sample :
    splitFree ',' "f(1,[2,3]), \"é,\\\",)\",,','".toList = closedArguments ∧
      Template.call? "put.x(f(1,[2,3]), \"é,\\\",)\",,',')".toList =
        some ("put.x".toList, closedArguments) := by
  have hpieces : ∀ p ∈ closedArguments, IsPiece ',' p := by decide
  have hjoin : joinWith [','] closedArguments = "f(1,[2,3]), \"é,\\\",)\",,','".toList := by decide
  constructor
  · rw [← hjoin]
    exact split_join_inverse.2.1 ',' closedArguments (by decide) (by decide) hpieces
  · have htext : "put.x".toList ++ '(' :: (joinWith [','] closedArguments ++ [')']) =
        "put.x(f(1,[2,3]), \"é,\\\",)\",,',')".toList := by decide
    rw [← htext]
    exact split_join_inverse.2.2 "put.x".toList closedArguments (by decide) hpieces
      fun a h => absurd h (by simp [closedArguments])

end Calls

end Dcpu
