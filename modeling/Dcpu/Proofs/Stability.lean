import Dcpu.Proofs.Recursion

/-! When an expression keeps its value although names are defined and addresses change. Values that
are not relocatable do, as far as evaluation comes to an end. -/
namespace Dcpu
open Answer

namespace Result

/-- A value that is relocatable only if that is allowed, and that only depends on these names. -/
structure Settled (r : Result) (movable : Bool) (names : List Text) : Prop where
  ok : r.ok = true
  movable : r.relocatable = true → movable = true
  names : ∀ n ∈ r.references, n ∈ names

/-- Equal up to the references. -/
structure Same (r r' : Result) : Prop where
  ok : r'.ok = r.ok
  value : r'.value = r.value
  relocatable : r'.relocatable = r.relocatable

variable {r r' o o' : Result} {movable : Bool} {names : List Text}

theorem Same.mapValue (h : r.Same r') (f : Word → Word) : (r.mapValue f).Same (r'.mapValue f) :=
  ⟨h.ok, congrArg f h.value, h.relocatable⟩

theorem Same.absorb (h : r.Same r') (ho : o.Same o') : (r.absorb o).Same (r'.absorb o') := by
  refine ⟨h.ok, h.value, ?_⟩
  simp only [Result.absorb, h.relocatable, ho.relocatable]

theorem Settled.of_mapValue {f : Word → Word} (h : (r.mapValue f).Settled movable names) :
    r.Settled movable names :=
  ⟨h.ok, h.movable, h.names⟩

/-- Nothing that a result has absorbed is lost. -/
theorem Settled.of_absorb (h : (r.absorb o).Settled movable names) :
    r.Settled movable names ∧ (o.ok = true → o.Settled movable names) := by
  have hr : (r.relocatable || o.relocatable) = true → movable = true := h.movable
  have hn : ∀ n ∈ NameSet.union r.references o.references, n ∈ names := h.names
  refine ⟨⟨h.ok, fun hm => hr (by simp [hm]), fun n hm => ?_⟩,
    fun ho => ⟨ho, fun hm => hr (by simp [hm]), fun n hm => ?_⟩⟩
  · exact hn n (NameSet.mem_union.mpr (.inl hm))
  · exact hn n (NameSet.mem_union.mpr (.inr hm))

end Result

namespace Expr

variable {c c' : Context} {s : Split} {left left' right right' r r' : Result} {movable : Bool}
  {names : List Text}

/-- Where texts are compared, the values of both sides do not matter. -/
theorem combine_text (h : s.op.comparesText?.isSome = true) :
    (combine s left right).Same (combine s left' right') := by
  obtain ⟨whenSame, h⟩ := Option.isSome_iff_exists.mp h
  simp only [combine, h]
  exact ⟨rfl, rfl, rfl⟩

theorem combine_same (hl : left.Same left') (hr : right.Same right') :
    (combine s left right).Same (combine s left' right') := by
  cases h : s.op.comparesText? with
  | some whenSame => exact combine_text (by simp [h])
  | none =>
    simp only [combine, h, hl.ok, hl.value, hr.ok, hr.value]
    exact Result.Same.absorb (Result.Same.absorb ⟨rfl, rfl, rfl⟩ hl) hr

/-- A computed value needs the values of both sides. -/
theorem settled_of_combine (hs : s.op.comparesText? = none)
    (h : (combine s left right).Settled movable names) :
    left.Settled movable names ∧ right.Settled movable names := by
  simp only [combine, hs] at h
  obtain ⟨h, hr⟩ := h.of_absorb
  obtain ⟨h, hl⟩ := h.of_absorb
  have hok : left.ok = true ∧ right.ok = true := by
    have ho := h.ok
    by_cases hb : (left.ok && right.ok) = true
    · simpa using hb
    · simp [hb, Result.ofWord?, Result.failed] at ho
  exact ⟨hl hok.1, hr hok.2⟩

/-- What was found in one context is found in the other one. Addresses count if values may be
relocatable, and of the labels only those with the given names. -/
structure Context.Keeps (c c' : Context) (movable : Bool) (names : List Text) : Prop where
  hooks : c'.hooks = c.hooks
  literal : c'.literal = c.literal
  scope : c'.position.scope = c.position.scope
  equates : ∀ name w, c.symbols.equate? name = some w → c'.symbols.equate? name = some w
  labels : movable = true → ∀ name l, name ∈ names → c.symbols.equate? name = none →
    c.symbols.label? name = some l →
    c'.symbols.equate? name = none ∧ (c'.symbols.label? name).map Label.address = some l.address
  address : movable = true → c'.position.address = c.position.address
  walk : movable = true → ∀ signs w, c.walk? signs = some w → c'.walk? signs = some w

namespace Context.Keeps

variable {t : Text}

theorem symbol_same (h : c.Keeps c' movable names) (hr : (c.symbol t).Settled movable names) :
    (c.symbol t).Same (c'.symbol t) := by
  simp only [symbol, h.scope] at hr ⊢
  generalize Text.lower (Name.qualify c.position.scope t) = name at hr ⊢
  cases he : c.symbols.equate? name with
  | some w =>
    rw [h.equates name w he]
    exact ⟨rfl, rfl, rfl⟩
  | none =>
    simp only [he] at hr ⊢
    cases hl : c.symbols.label? name with
    | none =>
      simp only [hl] at hr
      nomatch hr.ok
    | some l =>
      simp only [hl] at hr ⊢
      have hm : name ∈ names := hr.names name (by simp)
      obtain ⟨he', hl'⟩ := h.labels (hr.movable rfl) name l hm he hl
      obtain ⟨l', hl', ha⟩ := Option.map_eq_some_iff.mp hl'
      simp only [he', hl', ha]
      exact ⟨rfl, rfl, rfl⟩

theorem word_same (h : c.Keeps c' movable names) (hr : (c.word t).Settled movable names) :
    (c.word t).Same (c'.word t) := by
  unfold word at hr ⊢
  split
  · exact ⟨rfl, rfl, rfl⟩
  next hd =>
    rw [if_neg hd] at hr
    split
    · exact ⟨rfl, rfl, rfl⟩
    next ht =>
      rw [if_neg ht] at hr
      split
      · exact ⟨rfl, rfl, rfl⟩
      next hf =>
        rw [if_neg hf] at hr
        exact h.symbol_same hr

theorem read_same {k : Reading} (h : c.Keeps c' movable names) (hk : c.read t k = .ok r)
    (hr : r.Settled movable names) (hk' : c'.read t k = .ok r') : r.Same r' := by
  cases k with
  | fixed value =>
    obtain rfl := Except.ok.inj (hk.symm.trans hk')
    exact ⟨rfl, rfl, rfl⟩
  | braces inner =>
    rw [read, h.literal] at hk'
    obtain rfl := Except.ok.inj (hk.symm.trans hk')
    exact ⟨rfl, rfl, rfl⟩
  | name =>
    obtain rfl := Except.ok.inj hk
    obtain rfl := Except.ok.inj hk'
    exact h.symbol_same hr
  | here =>
    obtain rfl := Except.ok.inj hk
    obtain rfl := Except.ok.inj hk'
    rw [h.address (hr.movable rfl)]
    exact ⟨rfl, rfl, rfl⟩
  | walk signs =>
    obtain rfl := Except.ok.inj hk
    obtain rfl := Except.ok.inj hk'
    cases hw : c.walk? signs with
    | none =>
      rw [hw] at hr
      nomatch hr.ok
    | some w =>
      rw [hw] at hr
      rw [h.walk (hr.movable rfl) signs w hw]
      exact ⟨rfl, rfl, rfl⟩
  | word =>
    obtain rfl := Except.ok.inj hk
    obtain rfl := Except.ok.inj hk'
    exact h.word_same hr

theorem token_same (h : c.Keeps c' movable names) (ht : c.token t = .ok r)
    (hr : r.Settled movable names) (ht' : c'.token t = .ok r') : r.Same r' := by
  cases hv : c.hooks.value? t with
  | some w =>
    have hv' : c'.hooks.value? t = some w := by rw [h.hooks, hv]
    simp only [token, hv] at ht
    simp only [token, hv'] at ht'
    obtain rfl := Except.ok.inj (ht.symm.trans ht')
    exact ⟨rfl, rfl, rfl⟩
  | none =>
    have hv' : c'.hooks.value? t = none := by rw [h.hooks, hv]
    obtain ⟨k, hk⟩ := exists_reading t
    rw [hk c hv] at ht
    rw [hk c' hv'] at ht'
    exact h.read_same ht hr ht'

end Context.Keeps

/-- If all that an expression looks up and calls gives the same, then so does the expression. -/
theorem eval_same {text : Text} (keeps : c.Keeps c' movable names)
    (calls : ∀ f arg, Calls c text f arg → f arg c'.symbols = f arg c.symbols)
    (h : eval c text = .ok r) (hr : r.Settled movable names) (h' : eval c' text = .ok r') :
    r.Same r' := by
  induction text using eval.induct c generalizing r r' with
  | case1 text hf =>
    rw [eval_empty hf] at h
    obtain rfl := Except.ok.inj h
    cases hr.ok
  | case2 text g hf hw =>
    rw [eval_wide hf hw] at h
    cases h
  | case3 text g hf hw f hn hv =>
    rw [eval_call_failed hf (by simpa using hw) hn hv] at h
    obtain rfl := Except.ok.inj h
    cases hr.ok
  | case4 text g hf hw f hn v hv ih =>
    have hv' : f (Text.trim g.inner) c'.symbols = some v := (calls _ _ (.here hf hn)).trans hv
    rw [eval_call hf (by simpa using hw) hn hv] at h
    rw [eval_call hf (by simpa using hw) (keeps.hooks ▸ hn) hv'] at h'
    exact ih (fun f' arg ha => calls f' arg (.next hf hn hv ha)) h hr h'
  | case5 text g hf hw hn ihi ihr =>
    rw [eval_group hf (by simpa using hw) hn] at h
    rw [eval_group hf (by simpa using hw) (keeps.hooks ▸ hn)] at h'
    obtain ⟨inner, hi, h⟩ := bind_eq_ok.mp h
    obtain ⟨inner', hi', h'⟩ := bind_eq_ok.mp h'
    by_cases hok : inner.ok = true
    · rw [if_pos hok] at h
      obtain ⟨k, hk, h⟩ := bind_eq_ok.mp h
      obtain rfl := pure_eq_ok.mp h
      obtain ⟨hsk, hsi⟩ := hr.of_absorb
      have hsame : inner.Same inner' :=
        ihi (fun f arg ha => calls f arg (.inner hf hn ha)) hi (hsi hok) hi'
      rw [if_pos (hsame.ok.trans hok)] at h'
      obtain ⟨k', hk', h'⟩ := bind_eq_ok.mp h'
      obtain rfl := pure_eq_ok.mp h'
      -- The same text is put in the place of the group, so both sides go on alike.
      rw [hsame.value] at hk'
      refine Result.Same.absorb ?_ hsame
      exact ihr inner (fun f arg ha => calls f arg (.outer hf hn hi ha)) hk hsk hk'
    · rw [if_neg hok] at h
      obtain rfl := pure_eq_ok.mp h
      exact absurd hr.ok hok
  | case6 text operand hf ih =>
    rw [eval_complement hf] at h h'
    obtain ⟨o, ho, rfl⟩ := map_eq_ok.mp h
    obtain ⟨o', ho', rfl⟩ := map_eq_ok.mp h'
    refine Result.Same.mapValue ?_ _
    exact ih (fun f arg ha => calls f arg (.complement hf ha)) ho hr.of_mapValue ho'
  | case7 text operand hf ih =>
    rw [eval_negation hf] at h h'
    obtain ⟨o, ho, rfl⟩ := map_eq_ok.mp h
    obtain ⟨o', ho', rfl⟩ := map_eq_ok.mp h'
    refine Result.Same.mapValue ?_ _
    exact ih (fun f arg ha => calls f arg (.negation hf ha)) ho hr.of_mapValue ho'
  | case8 text s hf ihl ihr =>
    rw [eval_binary hf] at h h'
    obtain ⟨left, hl, h⟩ := bind_eq_ok.mp h
    obtain ⟨right, hrt, h⟩ := bind_eq_ok.mp h
    obtain ⟨left', hl', h'⟩ := bind_eq_ok.mp h'
    obtain ⟨right', hrt', h'⟩ := bind_eq_ok.mp h'
    obtain rfl := pure_eq_ok.mp h
    obtain rfl := pure_eq_ok.mp h'
    cases hs : s.op.comparesText? with
    | some whenSame => exact combine_text (by simp [hs])
    | none =>
      obtain ⟨hsl, hsr⟩ := settled_of_combine hs hr
      refine combine_same ?_ ?_
      · exact ihl (fun f arg ha => calls f arg (.left hf ha)) hl hsl hl'
      · exact ihr (fun f arg ha => calls f arg (.right hf ha)) hrt hsr hrt'
  | case9 text t hf =>
    rw [eval_token hf] at h h'
    exact keeps.token_same h hr h'

/-- One context comes after another one: its table has at least the equates and the same referenced
names, and functions do not tell the tables apart. Addresses, labels and lines are free. -/
structure Context.Extends (c c' : Context) : Prop where
  equates : ∀ name w, c.symbols.equate? name = some w → c'.symbols.equate? name = some w
  referenced : ∀ name, name ∈ c'.symbols.referenced ↔ name ∈ c.symbols.referenced
  scope : c'.position.scope = c.position.scope
  hooks : c'.hooks = c.hooks
  functions : ∀ row ∈ c.hooks.functions,
    row.2 = Function.isReferenced ∨ ∀ arg, row.2 arg c'.symbols = row.2 arg c.symbols
  literal : c'.literal = c.literal

namespace Context.Extends

theorem keeps (h : c.Extends c') (names : List Text) : c.Keeps c' false names where
  hooks := h.hooks
  literal := h.literal
  scope := h.scope
  equates := h.equates
  labels := nofun
  address := nofun
  walk := nofun

theorem isReferenced_eq (h : c.Extends c') (arg : Text) :
    Function.isReferenced arg c'.symbols = Function.isReferenced arg c.symbols := by
  have hc : c'.symbols.isReferenced arg = c.symbols.isReferenced arg := by
    rw [Bool.eq_iff_iff]
    simp only [SymbolTable.isReferenced, List.contains_iff_mem]
    exact h.referenced _
  rw [Function.isReferenced, Function.isReferenced, hc]

theorem functions_eq (h : c.Extends c') {name : Text} {f : Function}
    (hf : c.hooks.function? name = some f) (arg : Text) : f arg c'.symbols = f arg c.symbols := by
  obtain ⟨fs, gs, hr, -⟩ := List.lookup_eq_some_iff.mp hf
  obtain rfl | ha := h.functions (Text.lower name, f) (by simp [hr])
  · exact h.isReferenced_eq arg
  · exact ha arg

end Context.Extends

/-- Every call that an evaluation makes is one of a known function. -/
theorem Calls.exists_name {text arg : Text} {f : Function} (h : Calls c text f arg) :
    ∃ name, c.hooks.function? name = some f := by
  induction h with
  | here _ hn => exact ⟨_, hn⟩
  | next _ _ _ _ ih => exact ih
  | inner _ _ _ ih => exact ih
  | outer _ _ _ _ ih => exact ih
  | complement _ _ ih => exact ih
  | negation _ _ ih => exact ih
  | left _ _ ih => exact ih
  | right _ _ ih => exact ih

/-- A value that is not relocatable stays the same unless its evaluation is aborted later on. That
takes an instruction in braces which cannot be assembled, or a character outside of ASCII. -/
theorem eval_stable {e : Text} (hx : c.Extends c') (h : eval c e = .ok r) (hok : r.ok = true)
    (hr : r.relocatable = false) :
    ((∃ r', eval c' e = .ok r' ∧ r'.ok = true ∧ r'.value = r.value ∧ r'.relocatable = false) ↔
      ∀ a, eval c' e ≠ .error a) ∧
    ∀ a, eval c' e = .error a →
      (∃ u, MeetsBraces c' e u ∧ c'.literal u = .error a) ∨ a = .brokenName ∧ IsWide e := by
  refine ⟨⟨?_, ?_⟩, fun a ha => eval_error ha⟩
  · rintro ⟨r', h', -⟩ a ha
    nomatch h'.symm.trans ha
  · intro hn
    cases h' : eval c' e with
    | error a => exact absurd h' (hn a)
    | ok r' =>
      have hs : r.Settled false r.references := ⟨hok, fun hm => by simp [hr] at hm, fun _ => id⟩
      have hcalls (f : Function) (arg : Text) (hc : Calls c e f arg) :
          f arg c'.symbols = f arg c.symbols := by
        obtain ⟨name, hf⟩ := hc.exists_name
        exact hx.functions_eq hf arg
      have hsame : r.Same r' := eval_same (hx.keeps r.references) hcalls h hs h'
      exact ⟨r', rfl, hsame.ok.trans hok, hsame.value, hsame.relocatable.trans hr⟩

/-- A context with nothing in it but a few equates. -/
def Context.ofEquates (equates : List (Text × Word)) : Context where
  symbols := { equates := equates }
  hooks := {}
  position := {}
  literal := fun _ => .ok none

theorem Context.ofEquates_extends (equates : List (Text × Word)) :
    (ofEquates []).Extends (ofEquates equates) where
  equates := nofun
  referenced _ := .rfl
  scope := rfl
  hooks := rfl
  functions row hr := by
    obtain rfl := List.mem_singleton.mp hr
    exact .inl rfl
  literal := rfl

theorem eval_stable_product :
    ∃ r', eval (.ofEquates [("x".toList, 5)]) "3*(2+1) === 3*x".toList = .ok r' ∧
      r'.ok = true ∧ r'.value = 0 ∧ r'.relocatable = false := by
  obtain ⟨r, h, hr⟩ := exists_ok (x := eval (.ofEquates []) "3*(2+1) === 3*x".toList)
    (p := fun r => r == ⟨0, true, ["x".toList], false⟩) (by decide +kernel)
  obtain rfl := eq_of_beq hr
  have hs := eval_stable (Context.ofEquates_extends [("x".toList, 5)]) h rfl rfl
  refine hs.1.mpr fun a ha => ?_
  obtain ⟨t, ht⟩ | ⟨-, hw⟩ := hs.2 a ha
  · nomatch ht
  · exact absurd hw (by decide +kernel)

/-- Once `x` has a value, the text goes on to a name behind a character that is not in ASCII. -/
theorem eval_not_stable :
    (Context.ofEquates []).Extends (.ofEquates [("x".toList, 5)]) ∧
      (eval (.ofEquates []) "(===(x)é(1)".toList).toOption =
        some ⟨0, true, ["(".toList, "x".toList], false⟩ ∧
      (eval (.ofEquates [("x".toList, 5)]) "(===(x)é(1)".toList).toOption = none :=
  ⟨Context.ofEquates_extends _, by decide +kernel, by decide +kernel⟩

end Expr

end Dcpu
