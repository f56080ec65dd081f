import Dcpu.Proofs.Evaluation
import Mathlib.Logic.Relation

/-! The recursion of evaluation. One level of it, without the recursion, is a function of what the
nested texts give; run with a log it tells which texts are nested in which, and run with a limit on
the depth it tells how deep the recursion goes. An evaluation that is aborted comes to a text that
stops it. -/
namespace Dcpu.Expr

/-- The answer is known without an effect. -/
def known {m : Type → Type} [Monad m] (x : Except Abort Result) : ExceptT Abort m Result :=
  ExceptT.mk (pure x)

/-- One level of evaluation, where `recur` answers for the nested texts. -/
def level {m : Type → Type} [Monad m] (c : Context) (recur : Text → ExceptT Abort m Result)
    (text : Text) : ExceptT Abort m Result :=
  match form text with
  | .empty => known (.ok .failed)
  | .group g =>
    if g.followsWide then known (.error .brokenName)
    else
      match c.hooks.function? g.name with
      | some f =>
        match f (Text.trim g.inner) c.symbols with
        | none => known (.ok .failed)
        | some v => recur (g.lead ++ Numeral.decimal v.toNat ++ g.after)
      | none => do
        let inner ← recur g.inner
        if inner.ok then
          let r ← recur (g.before ++ Numeral.decimal inner.value.toNat ++ g.after)
          return r.absorb inner
        else return inner
  | .complement operand => Result.mapValue (~~~ ·) <$> recur operand
  | .negation operand => Result.mapValue (0 - ·) <$> recur operand
  | .binary s => do
    let left ← recur s.left
    let right ← recur s.right
    return combine s left right
  | .token t => known (c.token t)

/-- The value of a nested text, which is noted. -/
def noted (c : Context) (sub : Text) : ExceptT Abort (StateM (List Text)) Result := do
  modify (· ++ [sub])
  known (eval c sub)

/-- The texts that evaluation is called on by one level, in order. -/
def nested (c : Context) (text : Text) : List Text := ((level c (noted c) text).run.run []).2

/-- Evaluation to a depth, without a result where it goes deeper. -/
def within (c : Context) : Nat → Text → ExceptT Abort Option Result
  | 0, _ => ExceptT.mk none
  | depth + 1, text => level c (within c depth) text

section Noted

variable {c : Context} {sub : Text} {log : List Text}
  {k : Result → ExceptT Abort (StateM (List Text)) Result}

theorem run_noted (f : Result → Result) :
    ((f <$> noted c sub).run.run log).2 = log ++ [sub] := by
  rw [noted, known]
  cases eval c sub with
  | ok r => rfl
  | error a => rfl

theorem run_noted_ok {r : Result} (h : eval c sub = .ok r) :
    (noted c sub >>= k).run.run log = (k r).run.run (log ++ [sub]) := by
  rw [noted, known, h]
  rfl

theorem run_noted_error {a : Abort} (h : eval c sub = .error a) :
    (noted c sub >>= k).run.run log = (.error a, log ++ [sub]) := by
  rw [noted, known, h]
  rfl

end Noted

section Nested

variable {c : Context} {text operand t : Text} {g : Group} {s : Split} {f : Function}

theorem nested_call (h : form text = .group g) (hw : g.followsWide = false)
    (hf : c.hooks.function? g.name = some f) {v : Word}
    (hv : f (Text.trim g.inner) c.symbols = some v) :
    nested c text = [g.lead ++ Numeral.decimal v.toNat ++ g.after] := by
  simp only [nested, level, h, hw, hf, hv]
  rfl

theorem nested_group (h : form text = .group g) (hw : g.followsWide = false)
    (hf : c.hooks.function? g.name = none) :
    nested c text = g.inner :: (eval c g.inner).toOption.elim [] fun r =>
      if r.ok then [g.before ++ Numeral.decimal r.value.toNat ++ g.after] else [] := by
  simp only [nested, level, h, hw, hf, Bool.false_eq_true, if_false]
  cases hi : eval c g.inner with
  | error a =>
    rw [run_noted_error hi]
    rfl
  | ok r =>
    rw [run_noted_ok hi]
    by_cases hr : r.ok = true
    · simp only [hr, if_true, Except.toOption, Option.elim]
      exact run_noted (Result.absorb · r)
    · simp only [hr, Except.toOption, Option.elim]
      rfl

theorem nested_complement (h : form text = .complement operand) : nested c text = [operand] := by
  simp only [nested, level, h]
  exact run_noted _

theorem nested_negation (h : form text = .negation operand) : nested c text = [operand] := by
  simp only [nested, level, h]
  exact run_noted _

theorem nested_binary (h : form text = .binary s) :
    nested c text = s.left :: (eval c s.left).toOption.elim [] fun _ => [s.right] := by
  simp only [nested, level, h]
  cases hl : eval c s.left with
  | error a =>
    rw [run_noted_error hl]
    rfl
  | ok left =>
    rw [run_noted_ok hl]
    exact run_noted (combine s left)

/-- A nested text is a part of the text, or the text with a value in the place of its group and
maybe of the name before it. -/
theorem mem_nested {sub : Text} (h : sub ∈ nested c text) :
    sub ∈ (form text).parts ∨ ∃ g lead, ∃ w : Word, form text = .group g ∧
      (lead = g.lead ∨ lead = g.before) ∧ sub = lead ++ Numeral.decimal w.toNat ++ g.after := by
  cases hf : form text with
  | empty =>
    simp only [nested, level, hf] at h
    cases h
  | token t =>
    simp only [nested, level, hf] at h
    cases h
  | complement operand =>
    rw [nested_complement hf] at h
    exact .inl h
  | negation operand =>
    rw [nested_negation hf] at h
    exact .inl h
  | binary s =>
    rw [nested_binary hf, List.mem_cons] at h
    refine .inl (List.mem_cons.mpr (h.imp_right fun h => ?_))
    cases hl : eval c s.left with
    | ok left => simpa [hl, Except.toOption] using h
    | error a => simp [hl, Except.toOption] at h
  | group g =>
    by_cases hw : g.followsWide = true
    · simp only [nested, level, hf, hw, if_true] at h
      cases h
    have hw : g.followsWide = false := by simpa using hw
    cases hn : c.hooks.function? g.name with
    | some f =>
      cases hv : f (Text.trim g.inner) c.symbols with
      | none =>
        simp only [nested, level, hf, hw, hn, hv, Bool.false_eq_true, if_false] at h
        cases h
      | some v =>
        rw [nested_call hf hw hn hv, List.mem_singleton] at h
        exact .inr ⟨g, _, v, rfl, .inl rfl, h⟩
    | none =>
      rw [nested_group hf hw hn, List.mem_cons] at h
      obtain h | h := h
      · exact .inl (List.mem_singleton.mpr h)
      cases hi : eval c g.inner with
      | error a => simp [hi, Except.toOption] at h
      | ok r =>
        rw [hi] at h
        by_cases hr : r.ok = true
        · simp only [hr, if_true, Except.toOption, Option.elim, List.mem_singleton] at h
          exact .inr ⟨g, _, r.value, rfl, .inr rfl, h⟩
        · simp [hr, Except.toOption] at h

end Nested

theorem weight_nested_lt {c : Context} {text sub : Text} (h : sub ∈ nested c text) :
    weight sub < weight text := by
  obtain h | ⟨g, lead, w, hf, hl, rfl⟩ := mem_nested h
  · exact weight_part_lt h
  · refine weight_replace_lt hf ?_ w
    obtain rfl | rfl := hl
    · exact weight_lead_le g
    · exact Nat.le_refl _

section Level

variable {m : Type → Type} [Monad m] [LawfulMonad m] {c : Context} {text : Text}
  {recur : Text → ExceptT Abort m Result}

theorem known_ok_bind (r : Result) (k : Result → ExceptT Abort m Result) :
    (known (.ok r) >>= k) = k r := by
  apply ExceptT.ext
  simp [known, ExceptT.run_bind]

theorem known_error_bind (a : Abort) (k : Result → ExceptT Abort m Result) :
    (known (.error a) >>= k) = known (.error a) := by
  apply ExceptT.ext
  simp [known, ExceptT.run_bind]

theorem map_known (f : Result → Result) (x : Except Abort Result) :
    f <$> known (m := m) x = known (x.map f) := by
  apply ExceptT.ext
  cases x <;> simp [known, Except.map]

/-- One level gives the value of the text if `recur` gives the values of the nested texts. -/
theorem level_of_nested (h : ∀ sub ∈ nested c text, recur sub = known (eval c sub)) :
    level c recur text = known (eval c text) := by
  cases hf : form text with
  | empty => simp only [level, hf, eval_empty hf]
  | token t => simp only [level, hf, eval_token hf]
  | complement operand =>
    rw [nested_complement hf] at h
    simp only [level, hf, h _ List.mem_cons_self, eval_complement hf, map_known]
  | negation operand =>
    rw [nested_negation hf] at h
    simp only [level, hf, h _ List.mem_cons_self, eval_negation hf, map_known]
  | binary s =>
    rw [nested_binary hf] at h
    simp only [level, hf, h _ List.mem_cons_self, eval_binary hf]
    cases hl : eval c s.left with
    | error a => exact known_error_bind a _
    | ok left =>
      have hr := h s.right (by simp [hl, Except.toOption])
      simp only [known_ok_bind, hr, bind_pure_comp, map_known]
      rfl
  | group g =>
    by_cases hw : g.followsWide = true
    · simp only [level, hf, hw, if_true, eval_wide hf hw]
    have hw : g.followsWide = false := by simpa using hw
    cases hn : c.hooks.function? g.name with
    | some f =>
      cases hv : f (Text.trim g.inner) c.symbols with
      | none =>
        simp only [level, hf, hw, hn, hv, Bool.false_eq_true, if_false,
          eval_call_failed hf hw hn hv]
      | some v =>
        rw [nested_call hf hw hn hv] at h
        simp only [level, hf, hw, hn, hv, Bool.false_eq_true, if_false, h _ List.mem_cons_self,
          eval_call hf hw hn hv]
    | none =>
      rw [nested_group hf hw hn] at h
      simp only [level, hf, hw, hn, Bool.false_eq_true, if_false, h _ List.mem_cons_self,
        eval_group hf hw hn]
      cases hi : eval c g.inner with
      | error a => exact known_error_bind a _
      | ok r =>
        change (known (.ok r) >>= _) = known (pure r >>= _)
        rw [known_ok_bind, pure_bind]
        by_cases hr : r.ok = true
        · have hv := h (g.before ++ Numeral.decimal r.value.toNat ++ g.after)
            (by simp [hi, hr, Except.toOption])
          simp only [hr, if_true, hv, bind_pure_comp, map_known]
          rfl
        · simp only [hr]
          rfl

end Level

theorem within_of_weight {c : Context} {depth : Nat} {text : Text} (h : weight text < depth) :
    within c depth text = known (eval c text) := by
  induction depth generalizing text with
  | zero => omega
  | succ depth ih =>
    -- a nested text is lighter, so one level less is enough for it
    refine level_of_nested fun sub hs => ih ?_
    have := weight_nested_lt hs
    omega

/-- Fewer opening parentheses, or as many of them in a shorter text. -/
def Precedes (sub text : Text) : Prop :=
  Prod.Lex (· < ·) (· < ·) (sub.count '(', sub.length) (text.count '(', text.length)

theorem precedes_wf : WellFounded Precedes :=
  InvImage.wf (fun t : Text => (t.count '(', t.length)) (Prod.lex Nat.lt_wfRel Nat.lt_wfRel).wf

theorem Precedes.of_sublist {sub text : Text} (hs : sub.Sublist text)
    (hl : sub.length < text.length) : Precedes sub text := by
  obtain hc | hc := Nat.lt_or_eq_of_le (hs.count_le '(')
  · exact .left _ _ hc
  · rw [Precedes, hc]
    exact .right _ hl

/-- The value in the place of a group has no parenthesis, and the group had one. -/
theorem count_replace_lt {text lead : Text} {g : Group} (hf : form text = .group g)
    (hl : lead = g.lead ∨ lead = g.before) (w : Word) :
    (lead ++ Numeral.decimal w.toNat ++ g.after).count '(' < text.count '(' := by
  have hle : lead.count '(' ≤ g.before.count '(' := by
    obtain rfl | rfl := hl
    · rw [← g.lead_append_name, List.count_append]
      omega
    · exact Nat.le_refl _
  refine Nat.lt_of_lt_of_le ?_ ((trim_sublist text).count_le '(')
  rw [← text_of_group? (group?_of_form hf), Group.text]
  simp only [List.count_append, List.count_cons_self, count_decimal]
  rw [List.count_cons_of_ne (by decide)]
  omega

theorem precedes_of_mem_nested {c : Context} {text sub : Text} (h : sub ∈ nested c text) :
    Precedes sub text := by
  obtain h | ⟨g, lead, w, hf, hl, rfl⟩ := mem_nested h
  · obtain ⟨hs, hlen⟩ := sublist_of_mem_parts h
    exact .of_sublist hs hlen
  · exact .left _ _ (count_replace_lt hf hl w)

/-- No character but a digit comes in through the nested texts. -/
theorem mem_of_mem_nested {c : Context} {text sub : Text} {ch : Char} (h : sub ∈ nested c text)
    (hd : ch.isDigit = false) (hc : ch ∈ sub) : ch ∈ text := by
  obtain h | ⟨g, lead, w, hf, hl, rfl⟩ := mem_nested h
  · exact (sublist_of_mem_parts h).1.subset hc
  · refine mem_of_mem_replaced hf (fun hm => ?_) hd hc
    obtain rfl | rfl := hl
    · exact Group.mem_before_of_mem_lead hm
    · exact hm

theorem trim_of_form_token {text t : Text} (h : form text = .token t) : Text.trim text = t := by
  unfold form formOfTrimmed at h
  split at h
  · cases h
  split at h
  · cases h
  · cases h
  split at h
  · cases h
  · cases h
  · exact Form.token.inj h

section Aborts

open Answer

variable {c : Context} {text t u : Text} {a : Abort} {ch : Char}

/-- Evaluation of a text comes to another text. -/
def Visits (c : Context) : Text → Text → Prop :=
  Relation.ReflTransGen fun text sub => sub ∈ nested c text

theorem Visits.mem (h : Visits c text t) (hd : ch.isDigit = false) (hc : ch ∈ t) : ch ∈ text := by
  induction h with
  | refl => exact hc
  | tail _ hs ih => exact ih (mem_of_mem_nested hs hd hc)

/-- Evaluation is aborted by the text itself: its group has a name behind a character outside of
ASCII, or it is an instruction in braces. -/
def Stops (c : Context) (text : Text) (a : Abort) : Prop :=
  (a = .brokenName ∧ ∃ g, form text = .group g ∧ g.followsWide = true) ∨
    ∃ u, form text = .token ('{' :: (u ++ ['}'])) ∧ c.literal u = .error a

theorem stops_or_nested (h : eval c text = .error a) :
    Stops c text a ∨ ∃ sub ∈ nested c text, eval c sub = .error a := by
  cases hf : form text with
  | empty =>
    rw [eval_empty hf] at h
    cases h
  | token t =>
    rw [eval_token hf] at h
    obtain ⟨u, rfl, hu⟩ := Context.token_error h
    exact .inl (.inr ⟨u, hf, hu⟩)
  | complement operand =>
    rw [eval_complement hf, map_eq_error] at h
    rw [nested_complement hf]
    exact .inr ⟨operand, List.mem_cons_self, h⟩
  | negation operand =>
    rw [eval_negation hf, map_eq_error] at h
    rw [nested_negation hf]
    exact .inr ⟨operand, List.mem_cons_self, h⟩
  | binary s =>
    rw [eval_binary hf] at h
    rw [nested_binary hf]
    rcases bind_eq_error.mp h with h | ⟨left, hl, h⟩
    · exact .inr ⟨s.left, List.mem_cons_self, h⟩
    rcases bind_eq_error.mp h with h | ⟨right, -, h⟩
    · exact .inr ⟨s.right, by simp [hl, Except.toOption], h⟩
    · cases h
  | group g =>
    cases hw : g.followsWide with
    | true =>
      rw [eval_wide hf hw] at h
      exact .inl (.inl ⟨(Except.error.inj h).symm, g, hf, hw⟩)
    | false =>
      right
      cases hn : c.hooks.function? g.name with
      | some f =>
        cases hv : f (Text.trim g.inner) c.symbols with
        | none =>
          rw [eval_call_failed hf hw hn hv] at h
          cases h
        | some v =>
          rw [eval_call hf hw hn hv] at h
          rw [nested_call hf hw hn hv]
          exact ⟨_, List.mem_cons_self, h⟩
      | none =>
        rw [eval_group hf hw hn] at h
        rw [nested_group hf hw hn]
        rcases bind_eq_error.mp h with h | ⟨inner, hi, h⟩
        · exact ⟨g.inner, List.mem_cons_self, h⟩
        split at h
        next hr =>
          rcases bind_eq_error.mp h with h | ⟨r, -, h⟩
          · exact ⟨_, by simp [hi, hr, Except.toOption], h⟩
          · cases h
        next => cases h

/-- An aborted evaluation has come to a text that stops it. -/
theorem exists_visited_of_error (h : eval c text = .error a) :
    ∃ t, Visits c text t ∧ Stops c t a := by
  induction text using precedes_wf.induction with
  | _ text ih =>
    rcases stops_or_nested h with ha | ⟨sub, hs, h⟩
    · exact ⟨text, .refl, ha⟩
    · obtain ⟨t, ht, ha⟩ := ih sub (precedes_of_mem_nested hs) h
      exact ⟨t, .head hs ht, ha⟩

/-- Evaluation of a text comes to an instruction in braces. -/
def MeetsBraces (c : Context) (text u : Text) : Prop :=
  ∃ t, Visits c text t ∧ form t = .token ('{' :: (u ++ ['}']))

theorem mem_of_form_braces (h : form text = .token ('{' :: u)) : '{' ∈ text := by
  refine mem_of_mem_trim ?_
  rw [trim_of_form_token h]
  exact List.mem_cons_self

theorem MeetsBraces.mem (h : MeetsBraces c text u) : '{' ∈ text := by
  obtain ⟨t, hv, hf⟩ := h
  exact hv.mem (by decide) (mem_of_form_braces hf)

/-- Evaluation is aborted by an instruction in braces that it comes to, or by a name behind a
character outside of ASCII. -/
theorem eval_error (h : eval c text = .error a) :
    (∃ u, MeetsBraces c text u ∧ c.literal u = .error a) ∨ a = .brokenName ∧ IsWide text := by
  obtain ⟨t, hv, ⟨rfl, g, hf, hw⟩ | ⟨u, hf, hu⟩⟩ := exists_visited_of_error h
  · refine .inr ⟨rfl, (isWide_of_followsWide hw).of_mem fun ch hc hd => ?_⟩
    exact hv.mem hd (mem_of_mem_group hf (.inl hc))
  · exact .inl ⟨u, ⟨t, hv, hf⟩, hu⟩

end Aborts

theorem Context.token_literal {c : Context} {t : Text} (h : '{' ∉ t)
    (literal : Text → Except Abort (Option Word)) :
    ({ c with literal := literal } : Context).token t = c.token t := by
  unfold Context.token
  dsimp only
  cases c.hooks.value? t with
  | some v => rfl
  | none =>
    dsimp only
    split
    · rfl
    · simp at h
    · rfl
    · rfl
    · rfl

theorem level_literal {m : Type → Type} [Monad m] {c : Context} {text : Text} (h : '{' ∉ text)
    (literal : Text → Except Abort (Option Word)) (recur : Text → ExceptT Abort m Result) :
    level { c with literal := literal } recur text = level c recur text := by
  unfold level
  cases hf : form text with
  | token t =>
    have ht : '{' ∉ t := fun hm => h (mem_of_mem_trim (trim_of_form_token hf ▸ hm))
    exact congrArg known (Context.token_literal ht literal)
  | _ => rfl

/-- Without braces nothing is assembled on the way. -/
theorem eval_literal {c : Context} {text : Text} (h : '{' ∉ text)
    (literal : Text → Except Abort (Option Word)) :
    eval { c with literal := literal } text = eval c text := by
  induction text using precedes_wf.induction with
  | _ text ih =>
    let c' : Context := { c with literal := literal }
    -- one level of either context, with the values that the nested texts have in the other one
    have hc' : level c' (known (m := Id) <| eval c' ·) text = known (eval c' text) :=
      level_of_nested fun _ _ => rfl
    have hc : level c (known (m := Id) <| eval c' ·) text = known (eval c text) :=
      level_of_nested fun sub hs =>
        congrArg known (ih sub (precedes_of_mem_nested hs)
          fun hm => h (mem_of_mem_nested hs (by decide) hm))
    exact hc'.symm.trans ((level_literal h literal _).trans hc)

/-- Five digits come in for a group of four characters. -/
theorem nested_complement_zero {c : Context} (hn : c.hooks.function? [] = none)
    (hv : c.hooks.value? "0".toList = none) :
    nested c "(~0)".toList = ["~0".toList, "65535".toList] := by
  have hzero : eval c "0".toList = .ok (.ofWord 0) := by
    rw [eval_token (t := "0".toList) (by decide)]
    unfold Context.token
    rw [hv]
    rfl
  have hinner : eval c "~0".toList = .ok (.ofWord 65535) := by
    have hf : form "~0".toList = .complement "0".toList := by decide
    rw [eval_complement hf, hzero]
    rfl
  rw [nested_group (g := ⟨[], "~0".toList, []⟩) (by decide) (by decide) hn, hinner]
  decide

/-- Evaluation of a text without an instruction in braces ends. Every text that it is called on in
turn has fewer opening parentheses, or as many and fewer characters; so with enough depth it gives
its value, and nothing is assembled on the way. Length alone is no such measure. -/
theorem eval_descends (c : Context) {text : Text} (h : '{' ∉ text) :
    (∀ sub ∈ nested c text, '{' ∉ sub ∧ Precedes sub text) ∧
    (∀ depth, text.length + 4 * text.count '(' < depth →
      (within c depth text).run = some (eval c text)) ∧
    (∀ literal, eval { c with literal := literal } text = eval c text) ∧
    ∃ c' text', ∃ sub ∈ nested c' text', '{' ∉ text' ∧ text'.length < sub.length := by
  refine ⟨fun sub hs => ⟨fun hm => ?_, precedes_of_mem_nested hs⟩, fun depth hd => ?_,
    eval_literal h, ?_⟩
  · exact h (mem_of_mem_nested hs (by decide) hm)
  · exact congrArg ExceptT.run (within_of_weight hd)
  · refine ⟨⟨{}, {}, {}, fun _ => .ok none⟩, "(~0)".toList, "65535".toList, ?_, by decide⟩
    rw [nested_complement_zero (by decide) (by decide)]
    decide

/-- A complement in parentheses, nested in a product. -/
theorem eval_descends_sample :
    '{' ∉ "2*(~0)".toList ∧
      (within ⟨{}, {}, {}, fun _ => .ok none⟩ 11 "2*(~0)".toList).run =
        some (eval ⟨{}, {}, {}, fun _ => .error .brokenName⟩ "2*(~0)".toList) := by
  have h : '{' ∉ "2*(~0)".toList := by decide
  obtain ⟨-, hdepth, hliteral, -⟩ := eval_descends ⟨{}, {}, {}, fun _ => .ok none⟩ h
  refine ⟨h, (hdepth 11 (by decide)).trans ?_⟩
  exact congrArg some (hliteral fun _ => .error .brokenName).symm

end Dcpu.Expr
