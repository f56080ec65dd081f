import Dcpu.Expr.Eval
import Dcpu.Proofs.Answer

/-! One equation of evaluation for each form of an expression, the calls that evaluation makes, and
what can abort it. -/
namespace Dcpu.Expr
open Answer

section Equations

variable {c : Context} {text operand t : Text} {g : Group} {s : Split} {f : Function}

theorem eval_empty (h : form text = .empty) : eval c text = .ok .failed := by
  rw [eval.eq_def]
  split <;> simp_all

theorem eval_wide (h : form text = .group g) (hw : g.followsWide = true) :
    eval c text = .error .brokenName := by
  rw [eval.eq_def]
  split <;> simp_all

theorem eval_call_failed (h : form text = .group g) (hw : g.followsWide = false)
    (hf : c.hooks.function? g.name = some f) (hv : f (Text.trim g.inner) c.symbols = none) :
    eval c text = .ok .failed := by
  rw [eval.eq_def]
  split <;> simp_all

theorem eval_call (h : form text = .group g) (hw : g.followsWide = false)
    (hf : c.hooks.function? g.name = some f) {v : Word}
    (hv : f (Text.trim g.inner) c.symbols = some v) :
    eval c text = eval c (g.lead ++ Numeral.decimal v.toNat ++ g.after) := by
  rw [eval.eq_def]
  split <;> simp_all

theorem eval_group (h : form text = .group g) (hw : g.followsWide = false)
    (hf : c.hooks.function? g.name = none) :
    eval c text = do
      let inner ← eval c g.inner
      if inner.ok then
        let r ← eval c (g.before ++ Numeral.decimal inner.value.toNat ++ g.after)
        return r.absorb inner
      else return inner := by
  rw [eval.eq_def]
  split <;> simp_all

theorem eval_complement (h : form text = .complement operand) :
    eval c text = (eval c operand).map (Result.mapValue (~~~ ·)) := by
  rw [eval.eq_def]
  split <;> simp_all

theorem eval_negation (h : form text = .negation operand) :
    eval c text = (eval c operand).map (Result.mapValue (0 - ·)) := by
  rw [eval.eq_def]
  split <;> simp_all

theorem eval_binary (h : form text = .binary s) :
    eval c text = do
      let left ← eval c s.left
      let right ← eval c s.right
      return combine s left right := by
  rw [eval.eq_def]
  split <;> simp_all

theorem eval_token (h : form text = .token t) : eval c text = c.token t := by
  rw [eval.eq_def]
  split <;> simp_all

end Equations

/-- How the spelling of a token says it is to be read. -/
inductive Reading where
  | fixed (value : Option Word)
  | braces (inner : Text)
  | name
  | here
  | walk (signs : Text)
  | word

def Context.read (c : Context) (t : Text) : Reading → Except Abort Result
  | .fixed value => .ok (.ofWord? value)
  | .braces inner => (c.literal inner).map .ofWord?
  | .name => .ok (c.symbol t)
  | .here => .ok (.address? (some c.position.address))
  | .walk signs => .ok (.address? (c.walk? signs))
  | .word => .ok (c.word t)

/-- A token that no plugin has a value for is read in the same way in every context. -/
theorem exists_reading (t : Text) :
    ∃ k, ∀ c : Context, c.hooks.value? t = none → c.token t = c.read t k := by
  unfold Context.token
  split
  next rest => exact ⟨.fixed (charLiteral? rest), fun c h => by rw [h]; rfl⟩
  next rest =>
    cases hd : Text.dropLast? '}' rest with
    | some inner => exact ⟨.braces inner, fun c h => by rw [h]; rfl⟩
    | none => exact ⟨.name, fun c h => by rw [h]; rfl⟩
  next => exact ⟨.here, fun c h => by rw [h]; rfl⟩
  next signs _ => exact ⟨.walk signs, fun c h => by rw [h]; rfl⟩
  next => exact ⟨.word, fun c h => by rw [h]; rfl⟩

section Forms

variable {text operand t : Text} {g : Group} {s : Split} {ch : Char}

theorem trim_of_form_complement (h : form text = .complement operand) :
    Text.trim text = '~' :: operand := by
  unfold form formOfTrimmed at h
  split at h
  · nomatch h
  split at h
  · nomatch h
  next he =>
    obtain rfl := Form.complement.inj h
    exact he
  · split at h <;> nomatch h

theorem split?_of_form_negation (h : form text = .negation operand) :
    split? (Text.trim text) = some ⟨[], .sub, operand⟩ := by
  unfold form formOfTrimmed at h
  split at h
  · nomatch h
  split at h
  · nomatch h
  · nomatch h
  split at h
  next hs =>
    obtain rfl := Form.negation.inj h
    exact hs
  · nomatch h
  · nomatch h

theorem split?_of_form_binary (h : form text = .binary s) : split? (Text.trim text) = some s := by
  unfold form formOfTrimmed at h
  split at h
  · nomatch h
  split at h
  · nomatch h
  · nomatch h
  split at h
  · nomatch h
  next hs =>
    obtain rfl := Form.binary.inj h
    exact hs
  · nomatch h

theorem formOfTrimmed_of_cons (hg : group? (ch :: t) = none) (hch : ch ≠ '~') :
    formOfTrimmed (ch :: t) =
      match split? (ch :: t) with
      | some ⟨[], .sub, right⟩ => .negation right
      | some s => .binary s
      | none => .token (ch :: t) := by
  unfold formOfTrimmed
  rw [hg]
  dsimp only
  split
  next h => cases h
  next h => exact absurd (List.cons.inj h).1 hch
  next => rfl

theorem mem_of_mem_trim (h : ch ∈ Text.trim text) : ch ∈ text := (trim_sublist text).subset h

theorem mem_of_mem_split {e : Text} (h : split? e = some s) (hc : ch ∈ s.left ∨ ch ∈ s.right) :
    ch ∈ e := by
  rw [← text_of_split? h]
  obtain hc | hc := hc
  · simp [hc]
  · simp [hc]

theorem mem_of_mem_group (h : form text = .group g)
    (hc : ch ∈ g.before ∨ ch ∈ g.inner ∨ ch ∈ g.after) : ch ∈ text := by
  refine mem_of_mem_trim ?_
  rw [← text_of_group? (group?_of_form h)]
  obtain hc | hc | hc := hc
  · simp [Group.text, hc]
  · simp [Group.text, hc]
  · simp [Group.text, hc]

theorem Group.mem_before_of_mem_lead (h : ch ∈ g.lead) : ch ∈ g.before := by
  rw [← g.lead_append_name]
  exact List.mem_append_left _ h

/-- The value that replaces a group is made of digits. -/
theorem mem_of_mem_replaced {lead : Text} {w : Word} (h : form text = .group g)
    (hl : ch ∈ lead → ch ∈ g.before) (hd : ch.isDigit = false)
    (hc : ch ∈ lead ++ Numeral.decimal w.toNat ++ g.after) : ch ∈ text := by
  rw [List.mem_append, List.mem_append] at hc
  obtain (hc | hc) | hc := hc
  · exact mem_of_mem_group h (.inl (hl hc))
  · simp [Numeral.isDigit_of_mem_decimal hc] at hd
  · exact mem_of_mem_group h (.inr (.inr hc))

end Forms

/-- The text has a character outside of ASCII. -/
def IsWide (text : Text) : Prop := ∃ ch ∈ text, 1 < ch.utf8Size

instance (text : Text) : Decidable (IsWide text) :=
  decidable_of_iff ((text.any fun ch => decide (1 < ch.utf8Size)) = true) (by simp [IsWide])

theorem isDigit_eq_false_of_wide {ch : Char} (h : 1 < ch.utf8Size) : ch.isDigit = false := by
  rw [← Bool.not_eq_true]
  intro hd
  have hle : ch.val ≤ 127 := by
    simp only [Char.isDigit, Bool.and_eq_true, decide_eq_true_eq] at hd
    exact UInt32.le_trans hd.2 (by decide)
  have hs : ch.utf8Size = 1 := Char.utf8Size_eq_one_iff.mpr hle
  omega

/-- Characters outside of ASCII do not come from digits. -/
theorem IsWide.of_mem {t text : Text} (ht : ∀ ch ∈ t, ch.isDigit = false → ch ∈ text)
    (h : IsWide t) : IsWide text := by
  obtain ⟨ch, hc, hw⟩ := h
  exact ⟨ch, ht ch hc (isDigit_eq_false_of_wide hw), hw⟩

theorem isWide_of_followsWide {g : Group} (h : g.followsWide = true) : IsWide g.before := by
  obtain ⟨ch, hc, hw⟩ := (Option.any_eq_true _ _).mp h
  exact ⟨ch, Group.mem_before_of_mem_lead (List.mem_of_getLast? hc), of_decide_eq_true hw⟩

theorem dropLast?_eq_some {ch : Char} {t u : Text} (h : Text.dropLast? ch t = some u) :
    t = u ++ [ch] := by
  unfold Text.dropLast? at h
  split at h
  next hl =>
    obtain ⟨v, rfl⟩ := List.getLast?_eq_some_iff.mp hl
    rw [← Option.some.inj h, List.dropLast_concat]
  next => cases h

/-- The only token that can abort an evaluation is an instruction in braces. -/
theorem Context.token_error {c : Context} {t : Text} {a : Abort} (h : c.token t = .error a) :
    ∃ u, t = '{' :: (u ++ ['}']) ∧ c.literal u = .error a := by
  unfold token at h
  split at h
  · nomatch h
  split at h
  · nomatch h
  next rest =>
    split at h
    next u hu =>
      obtain rfl := dropLast?_eq_some hu
      exact ⟨u, rfl, map_eq_error.mp h⟩
    · nomatch h
  all_goals nomatch h

/-- Evaluating the text calls the function with the argument. -/
inductive Calls (c : Context) : Text → Function → Text → Prop where
  | here {text : Text} {g : Group} {f : Function} (hf : form text = .group g)
      (hn : c.hooks.function? g.name = some f) : Calls c text f (Text.trim g.inner)
  | next {text arg : Text} {g : Group} {f f' : Function} {v : Word} (hf : form text = .group g)
      (hn : c.hooks.function? g.name = some f) (hv : f (Text.trim g.inner) c.symbols = some v)
      (h : Calls c (g.lead ++ Numeral.decimal v.toNat ++ g.after) f' arg) : Calls c text f' arg
  | inner {text arg : Text} {g : Group} {f : Function} (hf : form text = .group g)
      (hn : c.hooks.function? g.name = none) (h : Calls c g.inner f arg) : Calls c text f arg
  | outer {text arg : Text} {g : Group} {f : Function} {r : Result} (hf : form text = .group g)
      (hn : c.hooks.function? g.name = none) (hr : eval c g.inner = .ok r)
      (h : Calls c (g.before ++ Numeral.decimal r.value.toNat ++ g.after) f arg) :
      Calls c text f arg
  | complement {text operand arg : Text} {f : Function} (hf : form text = .complement operand)
      (h : Calls c operand f arg) : Calls c text f arg
  | negation {text operand arg : Text} {f : Function} (hf : form text = .negation operand)
      (h : Calls c operand f arg) : Calls c text f arg
  | left {text arg : Text} {s : Split} {f : Function} (hf : form text = .binary s)
      (h : Calls c s.left f arg) : Calls c text f arg
  | right {text arg : Text} {s : Split} {f : Function} (hf : form text = .binary s)
      (h : Calls c s.right f arg) : Calls c text f arg

/-- Contexts with the same tokens differ in their functions at most. -/
theorem eval_congr {c c' : Context} {text : Text} (hooks : c'.hooks = c.hooks)
    (tokens : ∀ t, c'.token t = c.token t)
    (calls : ∀ f arg, Calls c text f arg → f arg c'.symbols = f arg c.symbols) :
    eval c' text = eval c text := by
  induction text using eval.induct c with
  | case1 text hf => rw [eval_empty hf, eval_empty hf]
  | case2 text g hf hw => rw [eval_wide hf hw, eval_wide hf hw]
  | case3 text g hf hw f hn hv =>
    have hw : g.followsWide = false := by simpa using hw
    have hv' : f (Text.trim g.inner) c'.symbols = none := (calls _ _ (.here hf hn)).trans hv
    rw [eval_call_failed hf hw hn hv, eval_call_failed hf hw (hooks ▸ hn) hv']
  | case4 text g hf hw f hn v hv ih =>
    have hw : g.followsWide = false := by simpa using hw
    have hv' : f (Text.trim g.inner) c'.symbols = some v := (calls _ _ (.here hf hn)).trans hv
    rw [eval_call hf hw hn hv, eval_call hf hw (hooks ▸ hn) hv']
    exact ih fun f' arg ha => calls f' arg (.next hf hn hv ha)
  | case5 text g hf hw hn ihi ihr =>
    have hw : g.followsWide = false := by simpa using hw
    rw [eval_group hf hw hn, eval_group hf hw (hooks ▸ hn),
      ihi fun f arg ha => calls f arg (.inner hf hn ha)]
    cases hi : eval c g.inner with
    | error a => rfl
    | ok r =>
      have hr := ihr r fun f arg ha => calls f arg (.outer hf hn hi ha)
      simp only [bind, Except.bind, hr]
  | case6 text operand hf ih =>
    rw [eval_complement hf, eval_complement hf, ih fun f arg ha => calls f arg (.complement hf ha)]
  | case7 text operand hf ih =>
    rw [eval_negation hf, eval_negation hf, ih fun f arg ha => calls f arg (.negation hf ha)]
  | case8 text s hf ihl ihr =>
    rw [eval_binary hf, eval_binary hf, ihl fun f arg ha => calls f arg (.left hf ha),
      ihr fun f arg ha => calls f arg (.right hf ha)]
  | case9 text t hf => rw [eval_token hf, eval_token hf, tokens]

/-- The name of a function that is called is spelled in the text, digits apart. -/
theorem Calls.exists_spelled {c : Context} {text arg : Text} {f : Function} (h : Calls c text f arg) :
    ∃ name, c.hooks.function? name = some f ∧ ∀ ch ∈ name, ch.isDigit = false → ch ∈ text := by
  have hn {g : Group} {ch : Char} (hc : ch ∈ g.name) : ch ∈ g.before := by
    rw [← g.lead_append_name]
    exact List.mem_append_right _ hc
  induction h with
  | here hf hfun => exact ⟨_, hfun, fun ch hc _ => mem_of_mem_group hf (.inl (hn hc))⟩
  | next hf _ _ _ ih =>
    obtain ⟨name, hfun, hm⟩ := ih
    refine ⟨name, hfun, fun ch hc hd => ?_⟩
    exact mem_of_mem_replaced hf Group.mem_before_of_mem_lead hd (hm ch hc hd)
  | inner hf _ _ ih =>
    obtain ⟨name, hfun, hm⟩ := ih
    exact ⟨name, hfun, fun ch hc hd => mem_of_mem_group hf (.inr (.inl (hm ch hc hd)))⟩
  | outer hf _ _ _ ih =>
    obtain ⟨name, hfun, hm⟩ := ih
    exact ⟨name, hfun, fun ch hc hd => mem_of_mem_replaced hf id hd (hm ch hc hd)⟩
  | complement hf _ ih =>
    obtain ⟨name, hfun, hm⟩ := ih
    refine ⟨name, hfun, fun ch hc hd => mem_of_mem_trim ?_⟩
    rw [trim_of_form_complement hf]
    exact List.mem_cons_of_mem _ (hm ch hc hd)
  | negation hf _ ih =>
    obtain ⟨name, hfun, hm⟩ := ih
    refine ⟨name, hfun, fun ch hc hd => mem_of_mem_trim ?_⟩
    exact mem_of_mem_split (split?_of_form_negation hf) (.inr (hm ch hc hd))
  | left hf _ ih =>
    obtain ⟨name, hfun, hm⟩ := ih
    refine ⟨name, hfun, fun ch hc hd => mem_of_mem_trim ?_⟩
    exact mem_of_mem_split (split?_of_form_binary hf) (.inl (hm ch hc hd))
  | right hf _ ih =>
    obtain ⟨name, hfun, hm⟩ := ih
    refine ⟨name, hfun, fun ch hc hd => mem_of_mem_trim ?_⟩
    exact mem_of_mem_split (split?_of_form_binary hf) (.inr (hm ch hc hd))

/-- Without parentheses there are no calls. -/
theorem Calls.mem_paren {c : Context} {text arg : Text} {f : Function} (h : Calls c text f arg) :
    '(' ∈ text := by
  have hg {text : Text} {g : Group} (hf : form text = .group g) : '(' ∈ text := by
    refine mem_of_mem_trim ?_
    rw [← text_of_group? (group?_of_form hf)]
    simp [Group.text]
  induction h with
  | here hf _ => exact hg hf
  | next hf _ _ _ _ => exact hg hf
  | inner hf _ _ _ => exact hg hf
  | outer hf _ _ _ _ => exact hg hf
  | complement hf _ ih =>
    refine mem_of_mem_trim ?_
    rw [trim_of_form_complement hf]
    exact List.mem_cons_of_mem _ ih
  | negation hf _ ih =>
    exact mem_of_mem_trim (mem_of_mem_split (split?_of_form_negation hf) (.inr ih))
  | left hf _ ih => exact mem_of_mem_trim (mem_of_mem_split (split?_of_form_binary hf) (.inl ih))
  | right hf _ ih => exact mem_of_mem_trim (mem_of_mem_split (split?_of_form_binary hf) (.inr ih))

end Dcpu.Expr
