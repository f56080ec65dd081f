import Dcpu.Proofs.Shrinking

/-! Convergence. Each pass over a program whose packable literals are single tokens packs a further
literal or moves nothing, and after a pass that moves nothing the next one changes nothing. -/
namespace Dcpu
open Answer

section Quiet

variable {v : Session} {s t u : SymbolTable} {p : Position} {ok ok' long : Bool}

/-- A table without marks. -/
def SymbolTable.unmarked (s : SymbolTable) : SymbolTable := { s with referenced := [] }

theorem SymbolTable.Marked.unmarked_eq (h : s.Marked t) : t.unmarked = s.unmarked := by
  rw [h.eq_with]
  rfl

theorem IgnoresMarks.eval_eq {x : Text} (h : IgnoresMarks v x) (hs : t.unmarked = s.unmarked) :
    Expr.eval (v.context t p) x = Expr.eval (v.context s p) x := by
  have hu (w : SymbolTable) :
      Expr.eval (v.context w.unmarked p) x = Expr.eval (v.context w p) x :=
    (h w p).eval_eq []
  rw [← hu, hs, hu]

/-- An operand that has been evaluated against the same bindings stays as it is. -/
theorem Operand.refresh_eq {o o' : Operand} (h : o.refresh v t p = .ok (o', ok, u))
    (he : o.IsEvaluated v s p ok') (hs : t.unmarked = s.unmarked)
    (marks : ∀ x ∈ o.texts, IgnoresMarks v x) :
    o' = o ∧ (o.literal.isSome = true → ok = ok') := by
  rcases Operand.refresh_cases h with ⟨hn, rfl, -, -⟩ | ⟨l, r, hl, hr, rfl, rfl⟩
  · simp [hn]
  · have hx : IgnoresMarks v l.text := marks l.text (by simp [texts, hl])
    obtain ⟨r', hr', hok, hval⟩ := he l hl
    rw [← hx.eval_eq hs, (Session.eval_eq_ok.mp hr).1] at hr'
    obtain rfl := Except.ok.inj hr'
    refine ⟨?_, fun _ => hok⟩
    have hv : (if r.ok = true then r.value else l.value) = l.value := by
      split
      next hr => rw [hval (hok.symm.trans hr)]
      next => rfl
    rw [hv, ← hl]

theorem Instruction.refresh_eq {i i' : Instruction} (h : i.refresh v t p long = .ok (i', ok, u))
    (he : i.IsEvaluated v s p long) (hs : t.unmarked = s.unmarked)
    (marks : ∀ x ∈ (Body.instruction i).texts, IgnoresMarks v x) : i' = i := by
  obtain ⟨okA, w, hea, hw, heb, hp⟩ := he
  obtain ⟨a, okA', t', ha, hcases⟩ := Instruction.refresh_cases h
  obtain ⟨rfl, hok⟩ := Operand.refresh_eq ha hea hs fun x hx => marks x (by simp [Body.texts, hx])
  have ht' : t'.unmarked = w.unmarked := by
    rw [(Operand.refresh_evaluated ha).2.unmarked_eq, hs, hw.unmarked_eq]
  -- Without a literal nothing is packed, whatever the evaluation says.
  have hpack : (okA' && !long && i.a.code == nextWordCode && i.a.fitsPacked) = i.packed := by
    rw [hp]
    cases hl : i.a.literal with
    | none => simp [Operand.fitsPacked, hl]
    | some l => rw [hok (by simp [hl])]
  rcases hcases with ⟨hb, -, -, rfl⟩ | ⟨b, b', okB, hb, hb', -, rfl⟩
  · simp only [pack, hpack]
  · obtain ⟨okB', hevb⟩ := heb b hb
    obtain ⟨rfl, -⟩ := Operand.refresh_eq hb' hevb ht' fun x hx =>
      marks x (by simp [Body.texts, hb, hx])
    simp only [pack, hpack, ← hb]

theorem CellRun.foldlM_eq {cells : List Cell} {run run' : CellRun}
    (h : cells.foldlM (CellRun.add v p) run = .ok run')
    (he : ∀ c ∈ cells, c.IsEvaluated v s p) (hs : run.symbols.unmarked = s.unmarked)
    (marks : ∀ x ∈ cells.filterMap Cell.deferred, IgnoresMarks v x) :
    run'.cells.toList = run.cells.toList ++ cells := by
  induction cells generalizing run with
  | nil =>
    obtain rfl := pure_eq_ok.mp h
    simp
  | cons c cells ih =>
    obtain ⟨next, hn, h⟩ := bind_eq_ok.mp h
    have hstep : next.cells.toList = run.cells.toList ++ [c] ∧
        next.symbols.unmarked = s.unmarked := by
      rcases CellRun.add_cases hn with ⟨-, rfl⟩ | ⟨x, r, hx, hr, -, hcells, -⟩
      · simp [hs]
      · have hm : IgnoresMarks v x := marks x (by simp [hx])
        obtain ⟨w, ok, hw, r', hr', hok, hval⟩ := he c List.mem_cons_self x hx
        have hrun : run.symbols.unmarked = w.unmarked := hs.trans hw.unmarked_eq.symm
        rw [← hm.eval_eq hrun, (Session.eval_eq_ok.mp hr).1] at hr'
        obtain rfl := Except.ok.inj hr'
        have hv : (if r.ok = true then r.value else c.value) = c.value := by
          split
          next hr => rw [hval (hok.symm.trans hr)]
          next => rfl
        constructor
        · rw [hcells, hv, Array.toList_push]
        · rw [(Session.eval_marked hr).unmarked_eq, hs]
    have hrest := ih h (fun c' hc' => he c' (List.mem_cons_of_mem c hc')) hstep.2 fun x hx =>
      marks x (by
        obtain ⟨c', hc', hx⟩ := List.mem_filterMap.mp hx
        exact List.mem_filterMap.mpr ⟨c', List.mem_cons_of_mem c hc', hx⟩)
    rw [hrest, hstep.1]
    simp

/-- Bringing an entry up to date that is so already changes no word of it. -/
theorem Entry.refresh_body_eq {e new : Entry} (hv : e.body.isVariable = true)
    (h : e.refresh v t long = .ok (new, u)) (he : e.body.IsEvaluated v s e.position long)
    (hs : t.unmarked = s.unmarked) (marks : ∀ x ∈ e.body.texts, IgnoresMarks v x) :
    new.body = e.body := by
  unfold refresh at h
  cases hb : e.body with
  | data cells =>
    rw [hb] at h he marks
    obtain ⟨run, hr, h⟩ := bind_eq_ok.mp h
    obtain ⟨rfl, -⟩ := Prod.mk.inj (pure_eq_ok.mp h)
    have hcells := CellRun.foldlM_eq hr he hs marks
    rw [checked_eq]
    simp only [hcells, List.nil_append]
  | instruction i =>
    rw [hb] at h he marks
    obtain ⟨⟨i', ok, w⟩, hr, h⟩ := bind_eq_ok.mp h
    obtain ⟨rfl, -⟩ := Prod.mk.inj (pure_eq_ok.mp h)
    rw [checked_eq, Instruction.refresh_eq hr he hs marks]
  | _ => simp [hb, Body.isVariable] at hv

end Quiet

section Aborts

variable {v : Session} {s : SymbolTable} {p : Position} {x : Abort}

/-- Some evaluation of the text is aborted. -/
def Aborts (v : Session) (x : Abort) (text : Text) : Prop :=
  ∃ s p, Expr.eval (v.context s p) text = .error x

theorem Session.eval_error {text : Text} (h : v.eval s p text = .error x) : Aborts v x text := by
  rcases bind_eq_error.mp h with h | ⟨r, -, h⟩
  · exact ⟨s, p, h⟩
  · cases h

theorem Operand.refresh_error {o : Operand} (h : o.refresh v s p = .error x) :
    ∃ y ∈ o.texts, Aborts v x y := by
  unfold refresh at h
  split at h
  · cases h
  next l hl =>
    refine ⟨l.text, by simp [texts, hl], ?_⟩
    rcases bind_eq_error.mp h with h | ⟨r, -, h⟩
    · rcases bind_eq_error.mp h with h | ⟨r, -, h⟩
      · exact Session.eval_error h
      · cases h
    · cases h

theorem Instruction.refresh_error {i : Instruction} {long : Bool}
    (h : i.refresh v s p long = .error x) : ∃ y ∈ (Body.instruction i).texts, Aborts v x y := by
  rcases bind_eq_error.mp h with h | ⟨⟨a, okA, t⟩, -, h⟩
  · obtain ⟨y, hy, ha⟩ := Operand.refresh_error h
    exact ⟨y, by simp [Body.texts, hy], ha⟩
  · dsimp only at h
    split at h
    · cases h
    next b hb =>
      rcases bind_eq_error.mp h with h | ⟨⟨b', okB, u⟩, -, h⟩
      · obtain ⟨y, hy, ha⟩ := Operand.refresh_error h
        exact ⟨y, by simp [Body.texts, hb, hy], ha⟩
      · cases h

theorem CellRun.foldlM_error {cells : List Cell} {run : CellRun}
    (h : cells.foldlM (CellRun.add v p) run = .error x) :
    ∃ y ∈ cells.filterMap Cell.deferred, Aborts v x y := by
  induction cells generalizing run with
  | nil => cases h
  | cons c cells ih =>
    rcases bind_eq_error.mp h with h | ⟨next, -, h⟩
    · unfold CellRun.add at h
      split at h
      · cases h
      next y hy =>
        refine ⟨y, by simp [hy], ?_⟩
        rcases bind_eq_error.mp h with h | ⟨r, -, h⟩
        · exact Session.eval_error h
        · cases h
    · obtain ⟨y, hy, ha⟩ := ih h
      obtain ⟨c', hc', hy⟩ := List.mem_filterMap.mp hy
      exact ⟨y, List.mem_filterMap.mpr ⟨c', List.mem_cons_of_mem c hc', hy⟩, ha⟩

theorem Entry.refresh_error {e : Entry} {long : Bool} (h : e.refresh v s long = .error x) :
    ∃ y ∈ e.body.texts, Aborts v x y := by
  unfold refresh at h
  split at h
  next cells hb =>
    rw [hb]
    rcases bind_eq_error.mp h with h | ⟨run, -, h⟩
    · exact CellRun.foldlM_error h
    · cases h
  next i hb =>
    rw [hb]
    rcases bind_eq_error.mp h with h | ⟨r, -, h⟩
    · exact Instruction.refresh_error h
    · cases h
  · cases h

end Aborts

namespace Layout

variable {v : Session} {l l' m m' : Layout} {i k n : Nat} {e : Entry} {x : Abort}

/-- The text is an expression of some entry. -/
def HasText (l : Layout) (y : Text) : Prop := ∃ e ∈ l.entries.toList, y ∈ e.body.texts

theorem HasText.of_skeleton {y : Text} (h : l'.HasText y)
    (hs : l'.entries.toList.map Entry.skeleton = l.entries.toList.map Entry.skeleton) :
    l.HasText y := by
  obtain ⟨e', he', hy⟩ := h
  have hm : e'.skeleton ∈ l.entries.toList.map Entry.skeleton := by
    rw [← hs]
    exact List.mem_map_of_mem he'
  obtain ⟨e, he, hee⟩ := List.mem_map.mp hm
  refine ⟨e, he, ?_⟩
  rw [Entry.texts_of_skeleton hee]
  exact hy

theorem refreshAt_error (h : l.refreshAt v i = .error x) : ∃ y, l.HasText y ∧ Aborts v x y := by
  unfold refreshAt at h
  split at h
  · cases h
  next e he =>
    dsimp only at h
    split at h
    · rcases bind_eq_error.mp h with h | ⟨r, -, h⟩
      · obtain ⟨y, hy, ha⟩ := Entry.refresh_error h
        exact ⟨y, ⟨e, List.mem_of_getElem? (by simpa using he), hy⟩, ha⟩
      · cases h
    · cases h

theorem passTo_error (h : l.passTo v n = .error x) : ∃ y, l.HasText y ∧ Aborts v x y := by
  induction n with
  | zero => cases h
  | succ n ih =>
    rw [passTo, List.range_succ, List.foldlM_append, bind_eq_error] at h
    rcases h with h | ⟨m, hm, h⟩
    · exact ih h
    · simp only [List.foldlM_cons, List.foldlM_nil, bind_pure] at h
      obtain ⟨y, hy, ha⟩ := refreshAt_error h
      exact ⟨y, hy.of_skeleton (passTo_skeleton hm), ha⟩

/-- No entry that passes compute has words of its own. -/
def Computed (l : Layout) : Prop :=
  ∀ e ∈ l.entries.toList, e.body.isVariable = true → e.own = none

theorem Computed.of_updated (h : l.Computed) (hu : Updated l.entries.toList l'.entries.toList) :
    l'.Computed := by
  refine hu.forall_mem (fun e f hef ho hv => hef.own_eq_none (ho ?_)) h
  rwa [hef.isVariable_eq] at hv

/-- Every entry is as it comes out of an evaluation against the symbols. -/
def Current (v : Session) (l : Layout) : Prop :=
  ∀ (k : Nat) (e : Entry), l.entries[k]? = some e → e.body.isVariable = true →
    ∃ s : SymbolTable, s.Marked l.symbols ∧
      e.body.IsEvaluated v s e.position (longAt v.settings.longLiterals l.entries.toList k)

theorem UpToDate.current (h : l.UpToDate v l.entries.size) : l.Current v := by
  intro k e he hv
  have hk : k < l.entries.size := (Array.getElem?_eq_some_iff.mp he).1
  obtain ⟨s, hs, hev, -⟩ := h.entries k e hk (by simpa using he) hv
  exact ⟨s, hs, hev⟩

theorem refreshAt_current (h : l.refreshAt v i = .ok l') (hc : l.Current v) (ho : l.Computed)
    (hl : l.long = longAt v.settings.longLiterals l.entries.toList i)
    (marks : ∀ y, l.HasText y → IgnoresMarks v y) :
    l'.changed = l.changed ∧ l'.Current v := by
  have hlong := longAt_of_skeleton (refreshAt_skeleton h) v.settings.longLiterals
  obtain ⟨-, rfl⟩ | ⟨e, -, -, rfl⟩ | ⟨e, new, s, he, hv, hr, rfl⟩ := refreshAt_cases h
  · exact ⟨rfl, hc⟩
  · exact ⟨rfl, hc⟩
  · obtain ⟨t, ht, hev⟩ := hc i e he hv
    rw [← hl] at hev
    obtain ⟨hn, -, hm⟩ := Entry.refresh_cases hv hr
    have hmem : e ∈ l.entries.toList := List.mem_of_getElem? (by simpa using he)
    have hbody : new.body = e.body :=
      Entry.refresh_body_eq hv hr hev ht.unmarked_eq fun y hy => marks y ⟨e, hmem, hy⟩
    have haddr : new.address = e.address := by rw [hn]
    have hpos : new.position = e.position := by rw [hn]; rfl
    have hown : e.own = none := ho e hmem hv
    have hnew : new.own = none := (refresh_updates hv hr).own_eq_none hown
    have hout : new.output = e.output := by
      rw [Entry.output_of_own hnew, Entry.output_of_own hown, hbody, haddr]
    have hroom : new.room = e.room := by
      rw [Entry.room_of_own hnew, Entry.room_of_own hown, ← new.length_output, hout,
        e.length_output]
    rw [replace_of_room_eq hroom] at hlong ⊢
    refine ⟨by simp [hout], ?_⟩
    intro k f hf hfv
    rw [hlong]
    dsimp only at hf ⊢
    rw [Array.getElem?_setIfInBounds] at hf
    split at hf
    next hk =>
      subst hk
      split at hf
      next =>
        obtain rfl := Option.some.inj hf
        rw [hbody, hpos, ← hl]
        exact ⟨t, ht.trans hm, hev⟩
      next => cases hf
    next =>
      obtain ⟨w, hw, hevf⟩ := hc k f hf hfv
      exact ⟨w, hw.trans hm, hevf⟩

/-- A pass over entries that are all current changes nothing. -/
theorem pass_unchanged (h : l.pass v = .ok l') (hc : l.Current v) (ho : l.Computed)
    (marks : ∀ y, l.HasText y → IgnoresMarks v y) :
    l'.changed = false := by
  have hall : l'.changed = false ∧ l'.Current v := by
    refine passTo_induct (P := fun _ m => m.changed = false ∧ m.Current v) h ⟨rfl, hc⟩ ?_
    intro i m m' hm hr ih
    have hmarks : ∀ y, m.HasText y → IgnoresMarks v y := by
      intro y hy
      exact marks y (hy.of_skeleton (passTo_skeleton hm))
    obtain ⟨hchanged, hcur⟩ :=
      refreshAt_current hr ih.2 (ho.of_updated (passTo_updated hm)) (passTo_long hm) hmarks
    exact ⟨hchanged.trans ih.1, hcur⟩
  exact hall.1

/-- After a pass that packs nothing the next one is aborted or changes nothing. -/
theorem Sound.pass_again (hv : v.hooks.plugins = []) (hs : l.Sound v)
    (marks : ∀ y, l.HasText y → IgnoresMarks v y) (h : l.pass v = .ok l')
    (heq : l'.loose = l.loose) (h' : l'.pass v = .ok m) : m.changed = false := by
  have hsize : l.entries.size = l'.entries.size := by
    have hlen := congrArg List.length (passTo_skeleton h)
    simpa using hlen.symm
  have hup := (hs.pass_loose hv h).2 heq
  rw [hsize] at hup
  refine pass_unchanged h' hup.current (fun e he _ => (hs.passTo hv h).laid.own e he) ?_
  intro y hy
  exact marks y (hy.of_skeleton (passTo_skeleton h))

/-- A sound layout settles unless a pass is aborted. There is at most one pass for each loose
literal, one that moves nothing and one that changes nothing. -/
theorem Sound.settles (hv : v.hooks.plugins = []) (hs : l.Sound v)
    (marks : ∀ y, l.HasText y → IgnoresMarks v y) (left done : Nat) (hleft : l.loose + 2 ≤ left) :
    (∃ l' n, l.settle v left done = .ok (l', n, true) ∧ n ≤ done + l.loose + 2) ∨
      ∃ x y, l.settle v left done = .error x ∧ l.HasText y ∧ Aborts v x y := by
  induction left generalizing l done with
  | zero => omega
  | succ left ih =>
    cases hp : l.pass v with
    | error x =>
      obtain ⟨y, hy, ha⟩ := passTo_error hp
      exact .inr ⟨x, y, by simp [settle, hp], hy, ha⟩
    | ok k =>
      by_cases hc : k.changed = true
      · have hstep : l.settle v (left + 1) done = k.settle v left (done + 1) := by
          simp [settle, hp, hc]
        have htext {y : Text} (hy : k.HasText y) : l.HasText y :=
          hy.of_skeleton (passTo_skeleton hp)
        have hle := (hs.pass_loose hv hp).1
        rw [hstep]
        rcases Nat.lt_or_eq_of_le hle with hlt | heq
        · have hrest := ih (hs.passTo hv hp) (fun y hy => marks y (htext hy)) (done + 1) (by omega)
          rcases hrest with ⟨l', n, h, hn⟩ | ⟨x, y, h, hy, ha⟩
          · exact .inl ⟨l', n, h, by omega⟩
          · exact .inr ⟨x, y, h, htext hy, ha⟩
        · obtain ⟨left, rfl⟩ : ∃ n, left = n + 1 := ⟨left - 1, by omega⟩
          cases hp' : k.pass v with
          | error x =>
            obtain ⟨y, hy, ha⟩ := passTo_error hp'
            exact .inr ⟨x, y, by simp [settle, hp'], htext hy, ha⟩
          | ok m =>
            have hm : m.changed = false := hs.pass_again hv marks hp heq hp'
            exact .inl ⟨m, done + 2, by simp [settle, hp', hm], by omega⟩
      · exact .inl ⟨k, done + 1, by simp [settle, hp, hc], by omega⟩

/-- What one step does to instructions and labels: none of the former gets longer, none of the
latter gets higher. -/
structure Sinks (l l' : Layout) : Prop where
  instructions : ∀ (k : Nat) (e : Entry) (i : Instruction), l.entries[k]? = some e →
    e.body = .instruction i →
    ∃ e', l'.entries[k]? = some e' ∧ e'.output.length ≤ e.output.length
  labels : ∀ (name : Text) (b : Label), l.symbols.label? name = some b →
    ∃ b', l'.symbols.label? name = some b' ∧ b'.address ≤ b.address
  anonymous : ∀ (j : Nat) (b : AnonymousLabel), l.symbols.anonymous[j]? = some b →
    ∃ b', l'.symbols.anonymous[j]? = some b' ∧ b'.root = b.root ∧ b'.address ≤ b.address

end Layout

theorem Bound.le_of_sinks {es es' : List Entry} {w w' : Word} {position : Nat}
    (h : Bound es w position) (h' : Bound es' w' position)
    (hs : List.Forall₂ Entry.Sinks es es') : w' ≤ w := by
  obtain ⟨e, he, -, rfl⟩ := h
  obtain ⟨e', he', -, rfl⟩ := h'
  obtain ⟨f, hf, hsink⟩ := exists_getElem?_of_forall₂ hs he
  obtain rfl := Option.some.inj (he'.symm.trans hf)
  exact hsink.address

theorem SymbolTable.getElem?_anonymous_of_skeleton {s t : SymbolTable}
    (h : t.skeleton = s.skeleton) {j : Nat} {b : AnonymousLabel}
    (hb : s.anonymous[j]? = some b) :
    ∃ b', t.anonymous[j]? = some b' ∧ b'.root = b.root ∧ b'.position = b.position := by
  have ha := congrArg (fun u => u.anonymous[j]?) h
  simp only [skeleton, List.getElem?_map, hb, Option.map_some] at ha
  obtain ⟨b', hb', heq⟩ := Option.map_eq_some_iff.mp ha
  obtain ⟨hroot, -, hposition⟩ := AnonymousLabel.mk.inj heq
  exact ⟨b', hb', hroot, hposition⟩

theorem Layout.Sound.layout_sinks {v : Session} {l l' : Layout} {i : Nat} (hs : l.Sound v)
    (hl : l.long = longAt v.settings.longLiterals l.entries.toList i)
    (h : l.refreshAt v i = .ok l') : l.Sinks l' := by
  have hvar := refreshAt_variant h hs.laid
  have hsink := hs.sinks hl h
  constructor
  · intro k e j he hb
    obtain ⟨e', he', hee⟩ := exists_getElem?_of_forall₂ (hs.shrinks hl h) (k := k) (by simpa using he)
    refine ⟨e', by simpa using he', ?_⟩
    rw [Entry.length_output, Entry.length_output]
    apply hee.length_le
    · exact hs.laid.own e (List.mem_of_getElem? (by simpa using he))
    · exact hvar.laid.own e' (List.mem_of_getElem? he')
    · simp [hb]
  · intro name b hb
    have hp := SymbolTable.label?_of_skeleton hvar.symbols name
    rw [hb] at hp
    obtain ⟨b', hb', hpos⟩ := Option.map_eq_some_iff.mp hp
    have hbound := hvar.laid.labels _ (SymbolTable.mem_of_label? hb')
    rw [hpos] at hbound
    exact ⟨b', hb', (hs.laid.labels _ (SymbolTable.mem_of_label? hb)).le_of_sinks hbound hsink⟩
  · intro j b hb
    obtain ⟨b', hb', hroot, hpos⟩ :=
      SymbolTable.getElem?_anonymous_of_skeleton hvar.symbols hb
    have hbound := hvar.laid.anonymous b' (List.mem_of_getElem? hb')
    rw [hpos] at hbound
    exact ⟨b', hb', hroot,
      (hs.laid.anonymous b (List.mem_of_getElem? hb)).le_of_sinks hbound hsink⟩

/-- An instruction whose operand A is the next word or a literal that could be that. -/
def Entry.takesNextWord (e : Entry) : Bool :=
  match e.body with
  | .instruction i => i.a.code == nextWordCode
  | _ => false

theorem Layout.loose_le (l : Layout) : l.loose ≤ l.entries.toList.countP Entry.takesNextWord := by
  apply List.countP_mono_left
  intro e _ he
  unfold Entry.isLoose Entry.takesNextWord at *
  cases hb : e.body with
  | instruction i =>
    by_cases hc : i.a.code = nextWordCode
    · simp [hc]
    · simp [hb, Body.packable?, hc] at he
  | _ => simp [hb, Body.packable?] at he

theorem Session.run_of_settle_ok {v : Session} {steps n : Nat} {file source : Text} {d : Draft}
    {l : Layout} {fixed : Bool} (hd : (v.start file source).readAll v steps = .ok d)
    (h : d.layout.settle v (max v.settings.maxPasses 1) 0 = .ok (l, n, fixed)) :
    ∃ a, v.run steps file source = .ok a ∧ a.passes = n ∧ a.fixedPoint = fixed := by
  have hf : ∃ a, v.finish d = .ok a ∧ a.passes = n ∧ a.fixedPoint = fixed := by
    unfold finish
    dsimp only
    change ∃ a, (d.layout.settle v (max v.settings.maxPasses 1) 0 >>= _) = .ok a ∧ _
    rw [h]
    exact ⟨_, rfl, rfl, rfl⟩
  obtain ⟨a, ha, hn, hfix⟩ := hf
  refine ⟨a, ?_, hn, hfix⟩
  rw [run, hd]
  exact ha

theorem Session.run_of_settle_error {v : Session} {steps : Nat} {file source : Text} {d : Draft}
    {x : Abort} (hd : (v.start file source).readAll v steps = .ok d)
    (h : d.layout.settle v (max v.settings.maxPasses 1) 0 = .error x) :
    v.run steps file source = .error x := by
  have hf : v.finish d = .error x := by
    unfold finish
    apply bind_eq_error.mpr
    exact .inl h
  rw [run, hd]
  exact hf

/-- A program whose layout can only shrink: it is far from the end of memory, what can be packed is
a single token, and no expression depends on the marks of names. -/
structure Draft.Monotone (v : Session) (d : Draft) : Prop where
  plugins : v.hooks.plugins = []
  tokens : ∀ e ∈ d.entries.toList, e.SingleToken
  marks : ∀ y, d.layout.HasText y → IgnoresMarks v y
  low : Low d.entries.toList

/-- The number of instructions that can pack a literal. -/
def Draft.packableCount (d : Draft) : Nat := d.entries.toList.countP Entry.takesNextWord

/-- With two passes more than there are literals to be packed the layout settles. -/
theorem Draft.Monotone.settles {v : Session} {d : Draft} (hm : d.Monotone v)
    (hsound : d.layout.Sound v) (hmax : d.packableCount + 2 ≤ v.settings.maxPasses) :
    (∃ l n, d.layout.settle v (max v.settings.maxPasses 1) 0 = .ok (l, n, true) ∧
      n ≤ d.packableCount + 2) ∨
    ∃ x y, d.layout.settle v (max v.settings.maxPasses 1) 0 = .error x ∧ d.layout.HasText y ∧
      Aborts v x y := by
  have hloose : d.layout.loose ≤ d.packableCount := d.layout.loose_le
  have hleft : d.layout.loose + 2 ≤ max v.settings.maxPasses 1 := by omega
  rcases hsound.settles hm.plugins hm.marks _ 0 hleft with ⟨l, n, h, hn⟩ | haborts
  · exact .inl ⟨l, n, h, by omega⟩
  · exact .inr haborts

/-- Monotone programs settle. No step makes an instruction longer or a label higher, and if there
may be two passes more than there are instructions that can pack a literal, a fixed point is reached
in as many. Only an expression can abort this that comes to an instruction in braces which cannot be
assembled, or to a name behind a character outside of ASCII. -/
theorem run_settles {v : Session} {steps : Nat} {file source : Text} {d : Draft}
    (hs : v.symbols.OnlyEquates) (hd : (v.start file source).readAll v steps = .ok d)
    (hm : d.Monotone v) :
    (∀ l i m m', Layout.Passes v d.layout l → l.passTo v i = .ok m → m.refreshAt v i = .ok m' →
      m.Sinks m') ∧
    (d.packableCount + 2 ≤ v.settings.maxPasses →
      (∃ a, v.run steps file source = .ok a ∧ a.fixedPoint = true ∧
        a.passes ≤ d.packableCount + 2) ∨
      ∃ x y, v.run steps file source = .error x ∧ d.layout.HasText y ∧
        ((∃ s p u, Expr.MeetsBraces (v.context s p) y u ∧ v.literal u = .error x) ∨
          x = .brokenName ∧ Expr.IsWide y)) := by
  have hsound := Layout.sound_of_readAll hm.plugins hs hd hm.low hm.tokens
  constructor
  · intro l i m m' hl hto hr
    have hsm := (hsound.passes hm.plugins hl).passTo hm.plugins hto
    exact hsm.layout_sinks (Layout.passTo_long hto) hr
  · intro hmax
    rcases hm.settles hsound hmax with ⟨l, n, h, hn⟩ | ⟨x, y, h, hy, s, p, hev⟩
    · obtain ⟨a, ha, hpasses, hfix⟩ := Session.run_of_settle_ok hd h
      exact .inl ⟨a, ha, hfix, by omega⟩
    · refine .inr ⟨x, y, Session.run_of_settle_error hd h, hy, ?_⟩
      exact (Expr.eval_error hev).imp_left fun ⟨u, hu⟩ => ⟨s, p, u, hu⟩

def Expr.Form.isToken : Form → Bool
  | .token _ => true
  | _ => false

instance (e : Entry) : Decidable e.SingleToken :=
  decidable_of_iff ((e.body.packable?.all fun x => (Expr.form x).isToken) = true) (by
    simp only [Entry.SingleToken, Option.all_eq_true]
    refine forall₂_congr fun x _ => ?_
    cases Expr.form x <;> simp [Expr.Form.isToken])

/-- A check whether a program is monotone, for the standard functions. -/
def Draft.isMonotone (d : Draft) : Bool :=
  d.entries.toList.all fun e => decide e.SingleToken && decide (e.reach ≤ 0xFFFE) &&
    e.body.texts.all fun y => decide ('r' ∉ Text.lower y)

theorem Draft.monotone_of_isMonotone {d : Draft} (h : d.isMonotone = true) :
    d.Monotone .bare := by
  simp only [isMonotone, List.all_eq_true, Bool.and_eq_true, decide_eq_true_eq] at h
  refine ⟨rfl, fun e he => (h e he).1.1, ?_, fun e he => (h e he).1.2⟩
  rintro y ⟨e, he, hy⟩
  exact ignoresMarks_of_standard rfl ((h e he).2 y hy)

/-- A program with an alignment, deferred data and all kinds of addresses. -/
def shrinkingProgram : Text :=
  "SET A, end\n.align 4\n:mid SET B, mid\n:$ DAT end - mid\nSET C, $-\n:end".toList

theorem run_settles_sample :
    ∃ (d : Draft) (a : Assembly),
      (Session.bare.start [] shrinkingProgram).readAll .bare 9 = .ok d ∧ d.packableCount = 3 ∧
      Session.bare.run 9 [] shrinkingProgram = .ok a ∧ a.fixedPoint = true ∧ a.passes ≤ 5 := by
  obtain ⟨d, hd, hp⟩ := exists_ok
    (x := (Session.bare.start [] shrinkingProgram).readAll .bare 9)
    (p := fun d => d.isMonotone && d.packableCount == 3 &&
      d.entries.toList.all fun e => e.body.texts.all fun y =>
        decide ('{' ∉ y) && decide ¬Expr.IsWide y)
    (by decide +kernel)
  simp only [Bool.and_eq_true, beq_iff_eq, List.all_eq_true, decide_eq_true_eq] at hp
  obtain ⟨⟨hp, hcount⟩, hplain⟩ := hp
  have hall := (run_settles ⟨rfl, rfl⟩ hd (Draft.monotone_of_isMonotone hp)).2
    (by rw [hcount]; decide)
  rw [hcount] at hall
  rcases hall with ⟨a, ha, hfix, hn⟩ | ⟨x, y, -, ⟨e, he, hy⟩, ⟨s, p, u, hu, -⟩ | ⟨-, hwide⟩⟩
  · exact ⟨d, a, hd, hcount, ha, hfix, hn⟩
  · exact absurd hu.mem (hplain e he y hy).1
  · exact absurd hwide (hplain e he y hy).2

/-- Before `x` has a value the data word is put off, and afterwards its evaluation comes to a name
behind a character that is not in ASCII. So the first pass is aborted. -/
theorem run_aborted :
    ∃ d : Draft,
      (Session.bare.start [] "DAT (x)é(1)\n.equ x 5".toList).readAll .bare 9 = .ok d ∧
      d.Monotone .bare ∧ d.packableCount + 2 ≤ Session.bare.settings.maxPasses ∧
      (Session.bare.run 9 [] "DAT (x)é(1)\n.equ x 5".toList).toOption.isNone = true := by
  obtain ⟨d, hd, hp⟩ := exists_ok
    (x := (Session.bare.start [] "DAT (x)é(1)\n.equ x 5".toList).readAll .bare 9)
    (p := fun d => d.isMonotone && d.packableCount == 0)
    (by decide +kernel)
  simp only [Bool.and_eq_true, beq_iff_eq] at hp
  refine ⟨d, hd, Draft.monotone_of_isMonotone hp.1, ?_, by decide +kernel⟩
  rw [hp.2]
  decide

end Dcpu
