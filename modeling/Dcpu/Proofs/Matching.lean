import Dcpu.Grammar.Table
import Dcpu.Proofs.Scanning
import Mathlib.Data.List.TakeWhile
import Mathlib.Tactic.Simproc.ExistsAndEq

/-! What the pieces of a pattern accept. Every piece is described by the way in which it divides the
text; a capture ends at the first comma that separates operands, or at the last place where the
next character of the pattern can stand. -/
namespace Dcpu

namespace Quote

/-- Where a scan stands after a text. -/
def after (q : Quote) (t : Text) : Quote := t.foldl next q

@[simp] theorem after_nil (q : Quote) : q.after [] = q := rfl

@[simp] theorem after_cons (q : Quote) (c : Char) (t : Text) : q.after (c :: t) = (q.next c).after t :=
  rfl

theorem after_append (q : Quote) (s t : Text) : q.after (s ++ t) = (q.after s).after t :=
  List.foldl_append

theorem isFree_iff {q : Quote} {c : Char} :
    q.isFree c = true ↔ q = .outside ∧ c ≠ '"' ∧ c ≠ '\'' := by
  cases q with
  | outside =>
    rw [isFree, Bool.and_eq_true, decide_eq_true_eq, decide_eq_true_eq]
    simp [Delimiter.mark]
  | inside d e => simp [isFree]

end Quote

namespace Text

theorem markedFrom_append (q : Quote) (s t : Text) :
    markedFrom q (s ++ t) = markedFrom q s ++ markedFrom (q.after s) t := by
  induction s generalizing q with
  | nil => rfl
  | cons c s ih => rw [List.cons_append, markedFrom, ih, markedFrom, List.cons_append,
      Quote.after_cons]

theorem length_markedFrom (q : Quote) (t : Text) : (markedFrom q t).length = t.length := by
  simpa [unmarked] using congrArg List.length (unmarked_markedFrom q t)

theorem length_of_sameFolded {s t : Text} (h : sameFolded s t = true) : s.length = t.length := by
  simpa [lower] using congrArg List.length (beq_iff_eq.mp h)

section Strip

variable {p : Char → Bool} {t w : Text}

/-- A text without the characters of a class at both ends. -/
def stripBy (p : Char → Bool) (t : Text) : Text := ((t.dropWhile p).reverse.dropWhile p).reverse

theorem stripBy_append_left (hw : ∀ c ∈ w, p c = true) (t : Text) :
    stripBy p (w ++ t) = stripBy p t := by
  rw [stripBy, stripBy, List.dropWhile_append_of_pos hw]

theorem stripBy_append_right (t : Text) (hw : ∀ c ∈ w, p c = true) :
    stripBy p (t ++ w) = stripBy p t := by
  rw [stripBy, stripBy, List.dropWhile_append]
  split
  next he =>
    have hnil : w.dropWhile p = [] := List.dropWhile_eq_nil_iff.mpr fun c hc => hw c hc
    rw [hnil, List.isEmpty_iff.mp he]
  next => rw [List.reverse_append, List.dropWhile_append_of_pos fun c hc =>
      hw c (List.mem_reverse.mp hc)]

theorem trim_eq_stripBy (t : Text) : trim t = stripBy isBlank t := rfl

/-- A trimmed text neither starts nor ends with white space. -/
theorem trim_ends (t : Text) : (∀ c ∈ (trim t).head?, isBlank c = false) ∧
    ∀ c ∈ (trim t).getLast?, isBlank c = false := by
  have hhead (u : Text) {c : Char} (hc : c ∈ (u.dropWhile isBlank).head?) : isBlank c = false := by
    have h := List.head?_dropWhile_not isBlank u
    rw [hc] at h
    simpa using h
  refine ⟨fun c hc => hhead t (mem_head?_of_trimEnd hc), fun c hc => ?_⟩
  rw [trim, trimEnd, List.getLast?_reverse] at hc
  exact hhead _ hc

theorem trim_trim (t : Text) : trim (trim t) = trim t := trim_eq_self (trim_ends t).1 (trim_ends t).2

end Strip

end Text

namespace Pattern

variable {q : Quote} {depth : Int} {b t : Text} {c : Char}

theorem isBlank_of_isSpace (h : isSpace c = true) : Text.isBlank c = true := by
  rw [isSpace, Bool.or_eq_true, beq_iff_eq, beq_iff_eq] at h
  rcases h with rfl | rfl <;> decide

theorem trim_dropWhile_isSpace (t : Text) : Text.trim (t.dropWhile isSpace) = Text.trim t := by
  have hw : ∀ c ∈ t.takeWhile isSpace, Text.isBlank c = true := fun c hc =>
    isBlank_of_isSpace (List.mem_takeWhile_imp hc)
  have h := Text.stripBy_append_left hw (t.dropWhile isSpace)
  rwa [List.takeWhile_append_dropWhile, eq_comm] at h

section Commas

/-- The depth of brackets after a text. It falls below the one at the start where brackets are closed
that were not opened. -/
def depthAfter (q : Quote) (depth : Int) (t : Text) : Int :=
  (Text.markedFrom q t).foldl (fun depth m => depth + m.depthStep) depth

/-- After the text a comma separates: it stands outside of literals and of brackets. -/
structure Exposed (q : Quote) (depth : Int) (t : Text) : Prop where
  outside : q.after t = .outside
  shallow : depthAfter q depth t ≤ 0

/-- A comma after the text is the first one that separates. -/
structure FirstComma (q : Quote) (depth : Int) (b : Text) : Prop where
  exposed : Exposed q depth b
  first : ∀ x y, b = x ++ ',' :: y → ¬ Exposed q depth x

theorem exposed_nil : Exposed q depth [] ↔ q = .outside ∧ depth ≤ 0 :=
  ⟨fun h => ⟨h.outside, h.shallow⟩, fun h => ⟨h.1, h.2⟩⟩

theorem exposed_cons : Exposed q depth (c :: t) ↔
    Exposed (q.next c) (depth + (⟨c, q.isFree c⟩ : Mark).depthStep) t :=
  ⟨fun h => ⟨h.outside, h.shallow⟩, fun h => ⟨h.outside, h.shallow⟩⟩

theorem firstComma_cons (h : ¬ (c = ',' ∧ Exposed q depth [])) : FirstComma q depth (c :: b) ↔
    FirstComma (q.next c) (depth + (⟨c, q.isFree c⟩ : Mark).depthStep) b := by
  constructor
  · intro hb
    refine ⟨exposed_cons.mp hb.exposed, fun x y hxy hx => ?_⟩
    exact hb.first (c :: x) y (by rw [hxy, List.cons_append]) (exposed_cons.mpr hx)
  · intro hb
    refine ⟨exposed_cons.mpr hb.exposed, fun x y hxy hx => ?_⟩
    cases x with
    | nil => exact h ⟨(List.cons_eq_cons.mp hxy).1, hx⟩
    | cons d x =>
      obtain ⟨rfl, hb'⟩ := List.cons_eq_cons.mp hxy
      exact hb.first x y hb' (exposed_cons.mp hx)

theorem firstComma_nil : FirstComma q depth [] ↔ Exposed q depth [] :=
  ⟨fun h => h.exposed, fun h => ⟨h, by simp⟩⟩

theorem commaIndex?_eq_some {n : Nat} : commaIndex? depth (Text.markedFrom q t) = some n ↔
    ∃ b a, t = b ++ ',' :: a ∧ b.length = n ∧ FirstComma q depth b := by
  induction t generalizing q depth n with
  | nil => simp [Text.markedFrom, commaIndex?]
  | cons c t ih =>
    have hopen : ((⟨c, q.isFree c⟩ : Mark).isOpenly ',' && decide (depth ≤ 0)) = true ↔
        c = ',' ∧ Exposed q depth [] := by
      rw [Mark.isOpenly, Bool.and_eq_true, Bool.and_eq_true, Quote.isFree_iff, beq_iff_eq,
        decide_eq_true_eq, exposed_nil]
      constructor
      · rintro ⟨⟨⟨hq, -, -⟩, hc⟩, hd⟩
        exact ⟨hc, hq, hd⟩
      · rintro ⟨rfl, hq, hd⟩
        exact ⟨⟨⟨hq, by decide, by decide⟩, rfl⟩, hd⟩
    rw [Text.markedFrom, commaIndex?]
    split
    next h =>
      obtain ⟨rfl, hx⟩ := hopen.mp h
      constructor
      · intro hn
        exact ⟨[], t, rfl, by simpa using hn, firstComma_nil.mpr hx⟩
      · rintro ⟨b, a, hba, rfl, hb⟩
        cases b with
        | nil => rfl
        | cons d b =>
          obtain ⟨rfl, -⟩ := List.cons_eq_cons.mp hba
          exact absurd hx (hb.first [] b rfl)
    next h =>
      have hno : ¬ (c = ',' ∧ Exposed q depth []) := fun hx => h (hopen.mpr hx)
      rw [Option.map_eq_some_iff]
      constructor
      · rintro ⟨m, hm, rfl⟩
        obtain ⟨b, a, rfl, rfl, hb⟩ := ih.mp hm
        exact ⟨c :: b, a, rfl, rfl, (firstComma_cons hno).mpr hb⟩
      · rintro ⟨b, a, hba, rfl, hb⟩
        cases b with
        | nil =>
          obtain ⟨rfl, -⟩ := List.cons_eq_cons.mp hba
          exact absurd ⟨rfl, hb.exposed⟩ hno
        | cons d b =>
          obtain ⟨rfl, rfl⟩ := List.cons_eq_cons.mp hba
          exact ⟨b.length, ih.mpr ⟨b, a, rfl, rfl, (firstComma_cons hno).mp hb⟩, rfl⟩

end Commas

theorem lastIndex?_append (c : Char) (ms ns : List Mark) :
    lastIndex? c (ms ++ ns) =
      ((lastIndex? c ns).map (· + ms.length)).or (lastIndex? c ms) := by
  induction ms with
  | nil => simp [lastIndex?]
  | cons m ms ih =>
    rw [List.cons_append, lastIndex?, ih, lastIndex?]
    cases lastIndex? c ns with
    | none => rfl
    | some i => simp [Nat.add_assoc]

theorem lastIndex?_eq_none (h : ∀ d ∈ t, d.toLower ≠ c.toLower) :
    lastIndex? c (Text.markedFrom q t) = none := by
  induction t generalizing q with
  | nil => rfl
  | cons d t ih =>
    have hd : (d.toLower == c.toLower) = false :=
      beq_eq_false_iff_ne.mpr (h d List.mem_cons_self)
    rw [Text.markedFrom, lastIndex?, ih fun d hd => h d (List.mem_cons_of_mem _ hd), hd]
    simp

/-- Behind closed literals a character is the last of its kind if there is none in the rest. -/
theorem lastIndex?_of_after {u : Text} (ht : Quote.outside.after t = .outside)
    (hc : c ≠ '"' ∧ c ≠ '\'') (hu : ∀ d ∈ u, d.toLower ≠ c.toLower) :
    lastIndex? c (Text.marked (t ++ c :: u)) = some t.length := by
  have hfree : Quote.outside.isFree c = true := Quote.isFree_iff.mpr ⟨rfl, hc⟩
  rw [Text.marked, Text.markedFrom_append, ht, lastIndex?_append, Text.markedFrom, lastIndex?,
    lastIndex?_eq_none hu, hfree]
  simp [Text.length_markedFrom]

section Pieces

variable {ps : List Piece} {p : Char} {slot : Slot} {sigil : Char} {found out : Captures}

theorem matchPieces_nil : matchPieces [] t found = some out ↔ t = [] ∧ found = out := by
  cases t <;> simp [matchPieces]

theorem matchPieces_char : matchPieces (.char p :: ps) t found = some out ↔
    ∃ c rest, t = c :: rest ∧ c.toLower = p.toLower ∧ matchPieces ps rest found = some out := by
  cases t with
  | nil => simp [matchPieces]
  | cons c t => simp [matchPieces]

/-- Plain text is matched in any case. -/
theorem matchPieces_chars {name : Text} :
    matchPieces (name.map .char ++ ps) t found = some out ↔
      ∃ m rest, t = m ++ rest ∧ Text.sameFolded m name = true ∧
        matchPieces ps rest found = some out := by
  induction name generalizing t with
  | nil => simp [Text.sameFolded, Text.lower]
  | cons p name ih =>
    rw [List.map_cons, List.cons_append, matchPieces_char]
    constructor
    · rintro ⟨c, rest, rfl, hc, h⟩
      obtain ⟨m, rest, rfl, hm, h⟩ := ih.mp h
      refine ⟨c :: m, rest, rfl, ?_, h⟩
      simpa [Text.sameFolded, Text.lower, hc] using hm
    · rintro ⟨m, rest, rfl, hm, h⟩
      cases m with
      | nil => simp [Text.sameFolded, Text.lower] at hm
      | cons c m =>
        obtain ⟨hc, hm⟩ : c.toLower = p.toLower ∧ Text.sameFolded m name = true := by
          simpa [Text.sameFolded, Text.lower] using hm
        exact ⟨c, m ++ rest, rfl, hc, ih.mpr ⟨m, rest, rfl, hm, h⟩⟩

/-- A gap takes all spaces and tabs that there are, at least one. -/
theorem matchPieces_gap : matchPieces (.gap :: ps) t found = some out ↔
    ∃ w rest, t = w ++ rest ∧ w ≠ [] ∧ (∀ c ∈ w, isSpace c = true) ∧
      (∀ c ∈ rest.head?, isSpace c = false) ∧ matchPieces ps rest found = some out := by
  constructor
  · intro h
    unfold matchPieces at h
    split at h
    · cases h
    next c u =>
      split at h
      next hc =>
        refine ⟨(c :: u).takeWhile isSpace, (c :: u).dropWhile isSpace,
          List.takeWhile_append_dropWhile.symm, ?_, fun c hc => List.mem_takeWhile_imp hc, ?_, h⟩
        · rw [List.takeWhile_cons_of_pos hc]
          exact List.cons_ne_nil _ _
        · intro d hd
          have := List.head?_dropWhile_not isSpace (c :: u)
          rw [hd] at this
          simpa using this
      next => cases h
  · rintro ⟨w, rest, rfl, hne, hw, hr, h⟩
    obtain ⟨c, u, rfl⟩ := List.exists_cons_of_ne_nil hne
    have hdrop : rest.dropWhile isSpace = rest := by
      cases rest with
      | nil => rfl
      | cons d rest => exact List.dropWhile_cons_of_neg (by simp [hr d rfl])
    have hc : isSpace c = true := hw c List.mem_cons_self
    rw [List.cons_append, matchPieces, if_pos hc, ← List.cons_append,
      List.dropWhile_append_of_pos hw, hdrop]
    exact h

theorem matchPieces_capture : matchPieces (.capture sigil slot :: ps) t found = some out ↔
    ∃ n, captureLength? ps t = some n ∧ Text.trim (t.take n) ≠ [] ∧
      matchPieces ps (t.drop n) (found.set slot (Text.trim (t.take n))) = some out := by
  rw [matchPieces]
  cases captureLength? ps t with
  | none => simp
  | some n =>
    dsimp only
    cases hc : Text.trim (t.take n) with
    | nil => simp [hc]
    | cons c u => simp [hc]

/-- The last capture takes what is left. -/
theorem matchPieces_last : matchPieces [.capture sigil slot] t found = some out ↔
    Text.trim t ≠ [] ∧ found.set slot (Text.trim t) = out := by
  rw [matchPieces_capture]
  simp [captureLength?, matchPieces_nil]

end Pieces

end Pattern

/-- Where at most one record of a table applies, the order of the records does not matter. -/
theorem findSome?_eq_some_of_unique {α β : Type} {f : α → Option β} {l : List α} {b : β}
    (h : ∀ x ∈ l, ∀ y ∈ l, ∀ b c, f x = some b → f y = some c → x = y) :
    l.findSome? f = some b ↔ ∃ x ∈ l, f x = some b := by
  constructor
  · exact List.exists_of_findSome?_eq_some
  · rintro ⟨x, hx, hb⟩
    have hsome : (l.findSome? f).isSome = true :=
      List.findSome?_isSome_iff.mpr ⟨x, hx, by rw [hb]; rfl⟩
    obtain ⟨c, hc⟩ := Option.isSome_iff_exists.mp hsome
    obtain ⟨y, hy, hyc⟩ := List.exists_of_findSome?_eq_some hc
    obtain rfl := h x hx y hy b c hb hyc
    rw [hc, ← hyc, hb]

/-- What a match says about a text, whichever record it is of. -/
def Match.reading (m : Match) : UInt8 × Captures := (m.pattern.code, m.captures)

/-- The characters of a pattern that stand for more than themselves. -/
def Piece.isSigil (c : Char) : Bool := ['_', '-', '%', '$'].contains c

theorem Piece.parse_cons {c : Char} (h : isSigil c = false) (t : Text) :
    parse (c :: t) = .char c :: parse t := by
  obtain ⟨h1, h2, h3, h4⟩ : c ≠ '_' ∧ c ≠ '-' ∧ c ≠ '%' ∧ c ≠ '$' := by simpa [isSigil] using h
  rw [parse.eq_def (c :: t)]
  split <;> simp_all

theorem Piece.parse_append {name : Text} (h : name.all (fun c => !isSigil c) = true) (t : Text) :
    parse (name ++ t) = name.map .char ++ parse t := by
  induction name with
  | nil => rfl
  | cons c name ih =>
    rw [List.all_cons, Bool.and_eq_true, Bool.not_eq_true'] at h
    rw [List.cons_append, parse_cons h.1, ih h.2]
    rfl

end Dcpu
