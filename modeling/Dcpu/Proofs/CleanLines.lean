import Dcpu.Proofs.Matching

/-! The form in which a line is read. Cutting the comment, trimming and collapsing white space each
scan a text of their own from its start; their marks stay in step with those of the line. So a clean
line stays as it is, its closed literals are those of the line, and clean lines can be put together
and taken apart again. -/
namespace Dcpu.Text

variable {q : Quote} {t : Text} {c : Char}

/-- The white space that is collapsed. -/
def isGap (m : Mark) : Bool := m.free && isBlank m.char

/-- The text of a line before its comment. -/
def uncommented (t : Text) : Text := unmarked ((marked t).takeWhile fun m => !m.isOpenly ';')

theorem clean_eq (t : Text) : clean t = squeeze false (marked (trim (uncommented t))) := by
  change squeeze false (marked (trim (trim (uncommented t)))) = _
  rw [trim_trim]

theorem not_quote_of_isBlank (h : isBlank c = true) : c ≠ '"' ∧ c ≠ '\'' ∧ c ≠ '\\' := by
  refine ⟨?_, ?_, ?_⟩
  all_goals
    rintro rfl
    exact absurd h (by decide)

theorem next_of_isBlank (h : isBlank c = true) : Quote.outside.next c = .outside := by
  obtain ⟨hs, hc, -⟩ := not_quote_of_isBlank h
  simp [Quote.next, Delimiter.mark, hs, hc]

/-- White space is collapsed outside of literals only. -/
theorem eq_outside_of_isGap (h : isGap ⟨c, q.isFree c⟩ = true) :
    q = .outside ∧ isBlank c = true := by
  obtain ⟨hf, hb⟩ := Bool.and_eq_true_iff.mp h
  exact ⟨(Quote.isFree_iff.mp hf).1, hb⟩

section Squeeze

/-- Collapses white space and keeps the marks. -/
def squeezeMarks (inRun : Bool) : List Mark → List Mark
  | [] => []
  | m :: ms =>
    if isGap m then
      if inRun then squeezeMarks true ms else ⟨' ', true⟩ :: squeezeMarks true ms
    else m :: squeezeMarks false ms

/-- A scan of the collapsed text finds the marks that the characters had. -/
theorem markedFrom_squeeze (q : Quote) (inRun : Bool) (t : Text) :
    markedFrom q (squeeze inRun (markedFrom q t)) = squeezeMarks inRun (markedFrom q t) := by
  induction t generalizing q inRun with
  | nil => rfl
  | cons c t ih =>
    rw [markedFrom, squeeze, squeezeMarks]
    change markedFrom q (if isGap ⟨c, q.isFree c⟩ then _ else _) = _
    by_cases hg : isGap ⟨c, q.isFree c⟩ = true
    · rw [if_pos hg, if_pos hg]
      -- the scan stands outside of literals before and after, whatever is left of the run
      obtain ⟨rfl, hb⟩ := eq_outside_of_isGap hg
      rw [next_of_isBlank hb]
      cases inRun with
      | true => exact ih .outside true
      | false => exact congrArg (List.cons ⟨' ', true⟩) (ih .outside true)
    · rw [if_neg hg, if_neg hg, markedFrom, ih]

theorem squeeze_squeezeMarks (inRun : Bool) (ms : List Mark) :
    squeeze inRun (squeezeMarks inRun ms) = squeeze inRun ms := by
  induction ms generalizing inRun with
  | nil => rfl
  | cons m ms ih =>
    rw [squeezeMarks, squeeze]
    change _ = if isGap m then _ else _
    by_cases hg : isGap m = true
    · rw [if_pos hg, if_pos hg]
      cases inRun with
      | true => exact ih true
      | false => exact congrArg (List.cons ' ') (ih true)
    · rw [if_neg hg, if_neg hg, squeeze]
      exact (if_neg hg).trans (congrArg (List.cons m.char) (ih false))

theorem mem_squeezeMarks {inRun : Bool} {ms : List Mark} {m : Mark}
    (h : m ∈ squeezeMarks inRun ms) : m = ⟨' ', true⟩ ∨ m ∈ ms := by
  induction ms generalizing inRun with
  | nil => cases h
  | cons m' ms ih =>
    rw [squeezeMarks] at h
    split at h
    · split at h
      · exact (ih h).imp_right (List.mem_cons_of_mem _)
      · obtain rfl | h := List.mem_cons.mp h
        · exact .inl rfl
        · exact (ih h).imp_right (List.mem_cons_of_mem _)
    · obtain rfl | h := List.mem_cons.mp h
      · exact .inr List.mem_cons_self
      · exact (ih h).imp_right (List.mem_cons_of_mem _)

/-- A character at the end stays if it is no white space. -/
theorem squeeze_concat (inRun : Bool) (ms : List Mark) {m : Mark} (h : isBlank m.char = false) :
    squeeze inRun (ms ++ [m]) = squeeze inRun ms ++ [m.char] := by
  induction ms generalizing inRun with
  | nil => simp [squeeze, h]
  | cons m' ms ih =>
    rw [List.cons_append, squeeze, squeeze, ih, ih]
    split
    · split
      · rfl
      · rfl
    · rfl

/-- Collapsing white space keeps both ends of a trimmed text. -/
theorem trim_squeeze (t : Text) :
    trim (squeeze false (marked (trim t))) = squeeze false (marked (trim t)) := by
  obtain ⟨hfirst, hlast⟩ := trim_ends t
  refine trim_eq_self (fun c hc => ?_) fun c hc => ?_
  · cases ht : trim t with
    | nil =>
      rw [ht] at hc
      cases hc
    | cons x u =>
      rw [ht] at hfirst hc
      have hx : isBlank x = false := hfirst x rfl
      rw [marked, markedFrom, squeeze, if_neg (by simp [hx])] at hc
      obtain rfl : x = c := Option.some.inj hc
      exact hx
  · obtain ht | ⟨u, x, ht⟩ := List.eq_nil_or_concat (trim t)
    · rw [ht] at hc
      cases hc
    · rw [ht, List.concat_eq_append] at hlast hc
      have hx : isBlank x = false := hlast x (by simp)
      rw [marked, markedFrom_append, markedFrom, markedFrom, squeeze_concat _ _ hx] at hc
      obtain rfl : x = c := by simpa using hc
      exact hx

end Squeeze

section Marks

theorem exists_trimEnd_append (t : Text) :
    ∃ blanks, t = trimEnd t ++ blanks ∧ ∀ c ∈ blanks, isBlank c = true := by
  refine ⟨(t.reverse.takeWhile isBlank).reverse, ?_, fun c hc => ?_⟩
  · rw [trimEnd, ← List.reverse_append, List.takeWhile_append_dropWhile, List.reverse_reverse]
  · exact List.mem_takeWhile_imp (List.mem_reverse.mp hc)

theorem exists_append_trimStart (t : Text) :
    ∃ blanks, t = blanks ++ trimStart t ∧ ∀ c ∈ blanks, isBlank c = true :=
  ⟨t.takeWhile isBlank, List.takeWhile_append_dropWhile.symm, fun _ hc =>
    List.mem_takeWhile_imp hc⟩

theorem exists_append_trim (t : Text) :
    ∃ before after, t = before ++ trim t ++ after ∧ (∀ c ∈ before, isBlank c = true) ∧
      ∀ c ∈ after, isBlank c = true := by
  obtain ⟨before, hb, hbefore⟩ := exists_append_trimStart t
  obtain ⟨after, ha, hafter⟩ := exists_trimEnd_append (trimStart t)
  refine ⟨before, after, ?_, hbefore, hafter⟩
  rw [List.append_assoc, trim, ← ha]
  exact hb

/-- Trimming keeps the marks of what it leaves. -/
theorem mem_marked_of_trim {m : Mark} (h : m ∈ marked (trim t)) : m ∈ marked t := by
  obtain ⟨before, hb, hblank⟩ := exists_append_trimStart t
  obtain ⟨after, ha, -⟩ := exists_trimEnd_append (trimStart t)
  rw [hb, marked_append_of_free fun c hc => ?_]
  · refine List.mem_append_right _ ?_
    rw [ha, marked, markedFrom_append]
    exact List.mem_append_left _ h
  · obtain ⟨hs, hc, -⟩ := not_quote_of_isBlank (hblank c hc)
    exact ⟨hs, hc⟩

theorem markedFrom_takeWhile (p : Mark → Bool) (q : Quote) (t : Text) :
    markedFrom q (unmarked ((markedFrom q t).takeWhile p)) = (markedFrom q t).takeWhile p := by
  induction t generalizing q with
  | nil => rfl
  | cons c t ih =>
    rw [markedFrom, List.takeWhile_cons]
    split
    · exact congrArg (List.cons _) (ih (q.next c))
    · rfl

theorem marked_clean (t : Text) :
    marked (clean t) = squeezeMarks false (marked (trim (uncommented t))) := by
  rw [clean_eq]
  exact markedFrom_squeeze .outside false _

/-- A clean line has the characters before the comment and single blanks. -/
theorem mem_marked_clean {m : Mark} (h : m ∈ marked (clean t)) :
    m = ⟨' ', true⟩ ∨ m ∈ (marked t).takeWhile fun m => !m.isOpenly ';' := by
  rw [marked_clean] at h
  refine (mem_squeezeMarks h).imp_right fun h => ?_
  have hu := mem_marked_of_trim h
  rwa [uncommented, marked, marked, markedFrom_takeWhile] at hu

/-- A clean line has no comment. -/
theorem isOpenly_clean (t : Text) : ∀ m ∈ marked (clean t), m.isOpenly ';' = false := by
  intro m hm
  obtain rfl | hm := mem_marked_clean hm
  · rfl
  · simpa using List.mem_takeWhile_imp hm

theorem mem_of_mem_clean (h : c ∈ clean t) : c = ' ' ∨ c ∈ t := by
  rw [← unmarked_marked (clean t)] at h
  obtain ⟨m, hm, rfl⟩ := List.mem_map.mp h
  obtain rfl | hm := mem_marked_clean hm
  · exact .inl rfl
  · rw [← unmarked_marked t]
    exact .inr (List.mem_map_of_mem ((List.takeWhile_sublist _).subset hm))

theorem uncommented_clean (t : Text) : uncommented (clean t) = clean t := by
  have h : (marked (clean t)).takeWhile (fun m => !m.isOpenly ';') = marked (clean t) :=
    List.takeWhile_eq_self_iff.mpr fun m hm => by simp [isOpenly_clean t m hm]
  rw [uncommented, h, unmarked_marked]

theorem trim_clean (t : Text) : trim (clean t) = clean t := by
  rw [clean_eq]
  exact trim_squeeze _

/-- A clean line stays as it is. -/
theorem clean_clean (t : Text) : clean (clean t) = clean t := by
  rw [clean_eq (clean t), uncommented_clean, trim_clean, marked_clean, squeeze_squeezeMarks,
    ← clean_eq]

end Marks

section Literals

/-- The closed literals of a text, with their quotes. `opened` is what has been read of the
literal that is open. -/
def literalsFrom (q : Quote) (opened : Text) : Text → List Text
  | [] => []
  | c :: t =>
    if q.next c ≠ .outside then literalsFrom (q.next c) (opened ++ [c]) t
    else if q ≠ .outside then (opened ++ [c]) :: literalsFrom .outside [] t
    else literalsFrom .outside [] t

def literals (t : Text) : List Text := literalsFrom .outside [] t

theorem literalsFrom_blank (h : isBlank c = true) (t : Text) :
    literalsFrom .outside [] (c :: t) = literalsFrom .outside [] t := by
  rw [literalsFrom, next_of_isBlank h]
  rfl

/-- White space closes no literal. -/
theorem next_ne_outside (h : isBlank c = true) (hq : q ≠ .outside) : q.next c ≠ .outside := by
  obtain ⟨hs, hc, hb⟩ := not_quote_of_isBlank h
  cases q with
  | outside => exact absurd rfl hq
  | inside d escaped =>
    cases escaped with
    | true => simp [Quote.next]
    | false => cases d <;> simp [Quote.next, Delimiter.mark, hs, hc, hb]

theorem literalsFrom_blanks {opened blanks : Text} (h : ∀ c ∈ blanks, isBlank c = true) :
    literalsFrom q opened blanks = [] := by
  induction blanks generalizing q opened with
  | nil => rfl
  | cons c bs ih =>
    have hb : isBlank c = true := h c List.mem_cons_self
    have hbs {q : Quote} {o : Text} : literalsFrom q o bs = [] :=
      ih fun c hc => h c (List.mem_cons_of_mem _ hc)
    by_cases hq : q = .outside
    · subst hq
      rw [literalsFrom, next_of_isBlank hb]
      exact hbs
    · rw [literalsFrom, if_pos (next_ne_outside hb hq), hbs]

theorem literalsFrom_append_blanks {opened blanks : Text} (h : ∀ c ∈ blanks, isBlank c = true) :
    literalsFrom q opened (t ++ blanks) = literalsFrom q opened t := by
  induction t generalizing q opened with
  | nil => exact literalsFrom_blanks h
  | cons c t ih => rw [List.cons_append, literalsFrom, literalsFrom, ih, ih]

theorem literals_blanks_append {blanks : Text} (h : ∀ c ∈ blanks, isBlank c = true) (t : Text) :
    literals (blanks ++ t) = literals t := by
  induction blanks with
  | nil => rfl
  | cons c bs ih =>
    exact (literalsFrom_blank (h c List.mem_cons_self) _).trans
      (ih fun c hc => h c (List.mem_cons_of_mem _ hc))

theorem literals_trim (t : Text) : literals (trim t) = literals t := by
  obtain ⟨before, hb, hbefore⟩ := exists_append_trimStart t
  obtain ⟨after, ha, hafter⟩ := exists_trimEnd_append (trimStart t)
  calc literals (trim t) = literals (trim t ++ after) := (literalsFrom_append_blanks hafter).symm
    _ = literals (trimStart t) := congrArg literals ha.symm
    _ = literals (before ++ trimStart t) := (literals_blanks_append hbefore _).symm
    _ = literals t := congrArg literals hb.symm

theorem literalsFrom_squeeze {opened : Text} (ho : q = .outside → opened = []) (inRun : Bool) :
    literalsFrom q opened (squeeze inRun (markedFrom q t)) = literalsFrom q opened t := by
  induction t generalizing q opened inRun with
  | nil => rfl
  | cons c t ih =>
    rw [markedFrom, squeeze]
    change literalsFrom q opened (if isGap ⟨c, q.isFree c⟩ then _ else _) = _
    by_cases hg : isGap ⟨c, q.isFree c⟩ = true
    · obtain ⟨rfl, hb⟩ := eq_outside_of_isGap hg
      obtain rfl := ho rfl
      rw [if_pos hg, next_of_isBlank hb, literalsFrom_blank hb]
      cases inRun with
      | true => exact ih (fun _ => rfl) true
      | false => exact (literalsFrom_blank (by decide) _).trans (ih (fun _ => rfl) true)
    · rw [if_neg hg, literalsFrom, literalsFrom]
      by_cases hn : q.next c = .outside
      · rw [hn, if_neg (not_not.mpr rfl), if_neg (not_not.mpr rfl), ih (fun _ => rfl)]
      · rw [if_pos hn, if_pos hn, ih fun h => absurd h hn]

/-- The closed literals before the comment stay as they are. -/
theorem literals_clean (t : Text) : literals (clean t) = literals (uncommented t) := by
  rw [clean_eq]
  exact (literalsFrom_squeeze (fun _ => rfl) false).trans (literals_trim _)

example : literals (clean "DAT  'b\\'' , \"c  ;\" ; \"d\"".toList) =
    ["'b\\''".toList, "\"c  ;\"".toList] := by
  decide

end Literals

section Lines

/-- The lines, each with its end. -/
def unlines (ls : List Text) : Text := ls.flatMap (· ++ ['\n'])

theorem splitWhere_append_cons {p : Char → Bool} {l : Text} {c : Char} (hl : ∀ x ∈ l, p x = false)
    (hc : p c = true) (rest : Text) :
    splitWhere p (l ++ c :: rest) = l :: splitWhere p rest := by
  induction l with
  | nil => exact if_pos hc
  | cons x l ih =>
    have hx : p x = false := hl x List.mem_cons_self
    have hr := ih fun y hy => hl y (List.mem_cons_of_mem _ hy)
    change (if p x then _ else consFirst x (splitWhere p (l ++ c :: rest))) = _
    rw [hx, hr]
    rfl

theorem splitOn_unlines {ls : List Text} (h : ∀ l ∈ ls, '\n' ∉ l) :
    splitOn '\n' (unlines ls) = ls ++ [[]] := by
  induction ls with
  | nil => rfl
  | cons l ls ih =>
    have hl : ∀ x ∈ l, (x == '\n') = false := fun x hx =>
      beq_false_of_ne fun he => h l List.mem_cons_self (he ▸ hx)
    have hls := ih fun l hl => h l (List.mem_cons_of_mem _ hl)
    rw [unlines, List.flatMap_cons, List.append_assoc]
    exact (splitWhere_append_cons hl rfl _).trans (congrArg (List.cons l) hls)

theorem lines_unlines {ls : List Text} (h : ∀ l ∈ ls, '\n' ∉ l) :
    lines (unlines ls) = ls.map dropReturn := by
  rw [lines, splitOn_unlines h]
  simp

theorem not_of_mem_splitWhere {p : Char → Bool} {t l : Text} (h : l ∈ splitWhere p t) :
    ∀ c ∈ l, p c = false := by
  induction t generalizing l with
  | nil =>
    obtain rfl : l = [] := List.mem_singleton.mp h
    simp
  | cons x t ih =>
    change l ∈ (if p x then [] :: splitWhere p t else consFirst x (splitWhere p t)) at h
    split at h
    · obtain rfl | h := List.mem_cons.mp h
      · simp
      · exact ih h
    next hx =>
      have hx : p x = false := by simpa using hx
      cases hs : splitWhere p t with
      | nil =>
        rw [hs] at h
        obtain rfl : l = [x] := List.mem_singleton.mp h
        simpa using hx
      | cons k ks =>
        rw [hs] at h ih
        obtain rfl | h := List.mem_cons.mp h
        · exact List.forall_mem_cons.mpr ⟨hx, ih List.mem_cons_self⟩
        · exact ih (List.mem_cons_of_mem _ h)

theorem newline_not_mem_of_mem_lines {t l : Text} (h : l ∈ lines t) : '\n' ∉ l := by
  have hpiece {l : Text} (hl : l ∈ splitOn '\n' t) : '\n' ∉ l := fun hn =>
    absurd (not_of_mem_splitWhere hl _ hn) (by decide)
  rw [lines] at h
  obtain h | h := List.mem_append.mp h
  · obtain ⟨k, hk, rfl⟩ := List.mem_map.mp h
    intro hn
    refine hpiece (List.dropLast_subset _ hk) ?_
    unfold dropReturn at hn
    split at hn
    · exact List.dropLast_subset _ hn
    · exact hn
  · obtain hs | ⟨ks, k, hs⟩ := List.eq_nil_or_concat (splitOn '\n' t)
    · simp [hs] at h
    · have hl : k ≠ [] ∧ l = k := by simpa [hs] using h
      exact hpiece (by simp [hs, hl.2])

theorem dropReturn_clean (t : Text) : dropReturn (clean t) = clean t := by
  refine if_neg fun hr => ?_
  rw [← trim_clean] at hr
  exact absurd ((trim_ends (clean t)).2 _ hr) (by decide)

/-- Clean lines that are put together are found again. -/
theorem lines_clean (t : Text) : lines (unlines ((lines t).map clean)) = (lines t).map clean := by
  rw [lines_unlines]
  · simp only [List.map_map, Function.comp_def, dropReturn_clean]
  · intro l hl hn
    obtain ⟨k, hk, rfl⟩ := List.mem_map.mp hl
    obtain hc | hm := mem_of_mem_clean hn
    · exact absurd hc (by decide)
    · exact newline_not_mem_of_mem_lines hk hm

end Lines

end Dcpu.Text
