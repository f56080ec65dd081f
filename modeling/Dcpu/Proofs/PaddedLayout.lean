import Dcpu.Proofs.Padding

/-! The passes over a padded program: they do to its entries what they do to those of the program
without padding. -/
namespace Dcpu
open Answer

section Refresh

variable {v : Session} (hf : ∀ f ∈ v.hooks.functions, f.2.Unnumbered) (p : Padding)
  (s : SymbolTable) (q : Position)

include hf

theorem Operand.refresh_renumber (o : Operand) :
    o.refresh v (s.renumber p) (q.renumber p) =
      (o.refresh v s q).map fun (o, ok, t) => (o, ok, t.renumber p) := by
  unfold refresh
  split
  next => rfl
  next l _ =>
    unfold Literal.refresh
    rw [Session.eval_renumber hf]
    cases v.eval s q l.text with
    | error x => rfl
    | ok r => rfl

theorem Instruction.refresh_renumber (long : Bool) (i : Instruction) :
    i.refresh v (s.renumber p) (q.renumber p) long =
      (i.refresh v s q long).map fun (i, ok, t) => (i, ok, t.renumber p) := by
  unfold refresh
  rw [Operand.refresh_renumber hf]
  cases i.a.refresh v s q with
  | error x => rfl
  | ok a =>
    obtain ⟨a, ok, t⟩ := a
    cases hb : i.b with
    | none => rfl
    | some b =>
      dsimp only [Except.map, bind, Except.bind]
      rw [Operand.refresh_renumber hf]
      cases b.refresh v t q with
      | error x => rfl
      | ok b => rfl

theorem CellRun.foldlM_renumber (cells : List Cell) (run : CellRun) :
    cells.foldlM (CellRun.add v (q.renumber p)) { run with symbols := run.symbols.renumber p } =
      (cells.foldlM (CellRun.add v q) run).map fun run =>
        { run with symbols := run.symbols.renumber p } := by
  refine foldlM_map (m := fun run : CellRun => { run with symbols := run.symbols.renumber p })
    (fun run c => ?_) cells run
  unfold add
  split
  next => rfl
  next e _ =>
    rw [Session.eval_renumber hf]
    cases v.eval run.symbols q e with
    | error x => rfl
    | ok r => rfl

end Refresh

namespace Entry

/-- The same entry with other numbers. -/
def renumber (line root : Nat) (e : Entry) : Entry := { e with line := line, root := root }

/-- The entry of the padded program for an entry. Its root matters only if the entry is evaluated
again. -/
def Twin (p : Padding) (e e' : Entry) : Prop :=
  ∃ line root, e' = e.renumber line root ∧ (e.body.isVariable = true → root = p.line e.root)

variable {p : Padding} {e e' : Entry}

theorem Twin.body (h : e.Twin p e') : e'.body = e.body := by
  obtain ⟨line, root, rfl, -⟩ := h
  rfl

theorem Twin.output (h : e.Twin p e') : e'.output = e.output := by
  obtain ⟨line, root, rfl, -⟩ := h
  rfl

theorem Twin.room (h : e.Twin p e') : e'.room = e.room := by
  obtain ⟨line, root, rfl, -⟩ := h
  rfl

theorem Twin.stop (h : e.Twin p e') : e'.stop = e.stop := by
  obtain ⟨line, root, rfl, -⟩ := h
  rfl

theorem Twin.moveBy (h : e.Twin p e') (delta : Int) : (e.moveBy delta).Twin p (e'.moveBy delta) := by
  obtain ⟨line, root, rfl, hr⟩ := h
  exact ⟨line, root, rfl, hr⟩

theorem Twin.realign (h : e.Twin p e') (target : Word) (delta : Int) :
    (e.realign target delta).Twin p (e'.realign target delta) := by
  obtain ⟨line, root, rfl, hr⟩ := h
  refine ⟨line, root, ?_, ?_⟩
  · unfold Entry.realign
    dsimp only [Entry.moveBy, renumber]
    split
    · rfl
    · rfl
  · rw [realign_eq]
    exact hr

/-- Both entries are brought up to date alike. -/
theorem Twin.refresh {v : Session} (hf : ∀ f ∈ v.hooks.functions, f.2.Unnumbered)
    (h : e.Twin p e') (hv : e.body.isVariable = true) (s : SymbolTable) (long : Bool) :
    Both (fun x y => x.1.Twin p y.1 ∧ y.2 = x.2.renumber p) (e.refresh v s long)
      (e'.refresh v (s.renumber p) long) := by
  obtain ⟨line, root, rfl, hr⟩ := h
  obtain rfl := hr hv
  have hq : (e.renumber line (p.line e.root)).position = e.position.renumber p := rfl
  have hb : (e.renumber line (p.line e.root)).body = e.body := rfl
  have hc (body : Body) (own : Option (List Word)) (ok : Bool) :
      Twin p ({ e with body := body, own := own }.checked ok)
        ({ e.renumber line (p.line e.root) with body := body, own := own }.checked ok) := by
    cases ok with
    | true => exact ⟨line, p.line e.root, rfl, fun _ => rfl⟩
    | false => exact ⟨line, p.line e.root, rfl, fun _ => rfl⟩
  unfold Entry.refresh
  rw [hb, hq]
  cases hbody : e.body with
  | data cells =>
    dsimp only
    refine Both.map_bind
      (CellRun.foldlM_renumber hf p e.position cells { symbols := s, own := e.own })
      fun run _ => .ok ⟨hc _ _ _, rfl⟩
  | instruction i =>
    dsimp only
    refine Both.map_bind (Instruction.refresh_renumber hf p s e.position long i)
      fun x _ => .ok ⟨hc _ _ _, rfl⟩
  | _ => simp [hbody, Body.isVariable] at hv

end Entry

/-- The entries of a program and those of the padded one, from the indices `i` and `j` on. What may
follow them gets the next numbers. -/
inductive Padded (p : Padding) : Nat → Nat → List Entry → List Entry → Prop where
  | nil {i j : Nat} (h : ∀ k, p.place (i + k) = j + k) : Padded p i j [] []
  | twin {i j : Nat} {e e' : Entry} {es es' : List Entry} (h : p.place i = j) (he : e.Twin p e')
      (hs : Padded p (i + 1) (j + 1) es es') : Padded p i j (e :: es) (e' :: es')
  | spacer {i j : Nat} {e : Entry} {es es' : List Entry} (he : p.IsSpacer e)
      (hs : Padded p i (j + 1) es es') : Padded p i j es (e :: es')

namespace Padded

variable {p : Padding} {i j k : Nat} {e e' : Entry} {es es' ts ts' : List Entry}

theorem le_place (h : Padded p i j es es') : j ≤ p.place i := by
  induction h with
  | nil h => exact Nat.le_of_eq (h 0).symm
  | twin h _ _ _ => exact Nat.le_of_eq h.symm
  | spacer _ _ ih => exact Nat.le_of_succ_le ih

theorem place_length_add (h : Padded p i j es es') (k : Nat) :
    p.place (i + es.length + k) = j + es'.length + k := by
  induction h with
  | nil h => exact h k
  | @twin i _ _ _ es _ _ _ _ ih =>
    rw [List.length_cons, show i + (es.length + 1) + k = i + 1 + es.length + k by omega, ih,
      List.length_cons]
    omega
  | spacer _ _ ih =>
    simp only [List.length_cons]
    omega

theorem place_length (h : Padded p i j es es') : p.place (i + es.length) = j + es'.length :=
  h.place_length_add 0

/-- All words are those of the twins. -/
theorem flatMap_output (h : Padded p i j es es') :
    es'.flatMap Entry.output = es.flatMap Entry.output := by
  induction h with
  | nil => rfl
  | twin _ he _ ih => rw [List.flatMap_cons, List.flatMap_cons, ih, he.output]
  | spacer he _ ih =>
    rw [List.flatMap_cons, ih, Entry.output_of_own (p.own he), p.blank he]
    rfl

/-- The entry at an index has its twin, and both can be replaced together with what follows. -/
theorem at_index (h : Padded p i j es es') (hk : es[k]? = some e) :
    ∃ m e', p.place (i + k) = j + m ∧ es'[m]? = some e' ∧ e.Twin p e' ∧
      Padded p (i + k + 1) (j + m + 1) (es.drop (k + 1)) (es'.drop (m + 1)) ∧
      ∀ x x' ts ts', x.Twin p x' → Padded p (i + k + 1) (j + m + 1) ts ts' →
        Padded p i j (es.take k ++ x :: ts) (es'.take m ++ x' :: ts') := by
  induction h generalizing k with
  | nil => cases hk
  | @twin i j f f' fs fs' h hf hs ih =>
    cases k with
    | zero =>
      obtain rfl : f = e := by simpa using hk
      exact ⟨0, f', h, rfl, hf, hs, fun x x' ts ts' hx ht => .twin h hx ht⟩
    | succ k =>
      obtain ⟨m, e', hm, he', ht, htail, hset⟩ := ih (by simpa using hk)
      refine ⟨m + 1, e', ?_, by simpa using he', ht, ?_, ?_⟩
      · rw [Nat.add_comm k, ← Nat.add_assoc, hm]
        omega
      · have h1 : i + (k + 1) = i + 1 + k := by omega
        have h2 : j + (m + 1) = j + 1 + m := by omega
        rw [h1, h2]
        exact htail
      · intro x x' ts ts' hx hts
        have h1 : i + (k + 1) = i + 1 + k := by omega
        have h2 : j + (m + 1) = j + 1 + m := by omega
        rw [h1, h2] at hts
        exact .twin h hf (hset x x' ts ts' hx hts)
  | @spacer i j f fs fs' hf hs ih =>
    obtain ⟨m, e', hm, he', ht, htail, hset⟩ := ih hk
    have h2 : j + (m + 1) = j + 1 + m := by omega
    refine ⟨m + 1, e', by omega, by simpa using he', ht, ?_, ?_⟩
    · rw [h2]
      exact htail
    · intro x x' ts ts' hx hts
      rw [h2] at hts
      exact .spacer hf (hset x x' ts ts' hx hts)

/-- At an index that no entry was given stands a spacer. -/
theorem isSpacer_of_ne (h : Padded p i j es es') (hk : es'[k]? = some e)
    (hn : ∀ m, p.place m ≠ j + k) : p.IsSpacer e := by
  induction h generalizing k with
  | nil => cases hk
  | @twin i j f f' fs fs' h hf hs ih =>
    cases k with
    | zero => exact absurd h (hn i)
    | succ k =>
      refine ih (by simpa using hk) fun m hm => hn m ?_
      omega
  | @spacer i j f fs fs' hf hs ih =>
    cases k with
    | zero =>
      obtain rfl : f = e := by simpa using hk
      exact hf
    | succ k =>
      refine ih (by simpa using hk) fun m hm => hn m ?_
      omega

theorem push_twin (h : Padded p i j es es') (he : e.Twin p e') :
    Padded p i j (es ++ [e]) (es' ++ [e']) := by
  induction h with
  | @nil i j h =>
    refine .twin (h 0) he (.nil fun k => ?_)
    rw [Nat.add_assoc, h (1 + k), Nat.add_assoc]
  | twin h hf _ ih => exact .twin h hf ih
  | spacer hf _ ih => exact .spacer hf ih

/-- What follows a change of length moves alike. -/
theorem shiftEntries (h : Padded p i j es es') (start : Nat) (delta : Int) (s : SymbolTable) :
    Padded p i j (shiftEntries start i delta s es).1
        (shiftEntries (p.place start) j delta (s.renumber p) es').1 ∧
      (shiftEntries (p.place start) j delta (s.renumber p) es').2 =
        (shiftEntries start i delta s es).2.renumber p := by
  induction h generalizing start delta s with
  | @nil i j h =>
    obtain rfl : p.place i = j := h 0
    exact ⟨.nil h, SymbolTable.shift_renumber ..⟩
  | @twin i j e e' es es' h he hs ih =>
    by_cases hd : delta = 0
    · subst hd
      rw [shiftEntries_zero, shiftEntries_zero]
      exact ⟨.twin h he hs, rfl⟩
    · subst h
      unfold Dcpu.shiftEntries
      rw [if_neg hd, if_neg hd, he.body]
      cases hb : e.body with
      | origin => exact ⟨.twin rfl he hs, SymbolTable.shift_renumber ..⟩
      | align target =>
        dsimp only
        have hm := he.realign target delta
        rw [SymbolTable.shift_renumber, hm.stop, he.stop]
        obtain ⟨hp, ht⟩ := ih i ((e.realign target delta).stop - e.stop)
          (s.shift start i delta)
        exact ⟨.twin rfl hm hp, ht⟩
      | _ =>
        obtain ⟨hp, ht⟩ := ih start delta s
        exact ⟨.twin rfl (he.moveBy delta) hp, ht⟩
  | @spacer i j e es es' he hs ih =>
    by_cases hd : delta = 0
    · subst hd
      rw [shiftEntries_zero, shiftEntries_zero]
      exact ⟨.spacer he hs, rfl⟩
    · have hstep : Dcpu.shiftEntries (p.place start) j delta (s.renumber p) (e :: es') =
          (e.moveBy delta :: (Dcpu.shiftEntries (p.place start) (j + 1) delta (s.renumber p) es').1,
            (Dcpu.shiftEntries (p.place start) (j + 1) delta (s.renumber p) es').2) := by
        rw [Dcpu.shiftEntries, if_neg hd, p.blank he]
        rfl
      rw [hstep]
      obtain ⟨hp, ht⟩ := ih start delta s
      exact ⟨.spacer (p.spacer_moveBy delta he) hp, ht⟩

end Padded

namespace Layout

/-- The layout of a program and that of the padded one. -/
structure Beside (p : Padding) (l l' : Layout) : Prop where
  entries : Padded p 0 0 l.entries.toList l'.entries.toList
  symbols : l'.symbols = l.symbols.renumber p
  long : l'.long = l.long
  changed : l'.changed = l.changed

variable {v : Session} {p : Padding} {l l' : Layout} {i : Nat} {old old' new new' : Entry}

theorem Beside.at_index (h : l.Beside p l') (hi : l.entries[i]? = some old) :
    ∃ old', l'.entries[p.place i]? = some old' ∧ old.Twin p old' := by
  obtain ⟨m, old', hm, ho, ht, -, -⟩ := h.entries.at_index (k := i) (by simpa using hi)
  rw [Nat.zero_add, Nat.zero_add] at hm
  exact ⟨old', by simpa [hm] using ho, ht⟩

theorem Beside.replace (h : l.Beside p l') (hi : l.entries[i]? = some old)
    (hi' : l'.entries[p.place i]? = some old') (hn : new.Twin p new') :
    (l.replace i old new).Beside p (l'.replace (p.place i) old' new') := by
  obtain ⟨m, x, hm, hx, ht, htail, hset⟩ := h.entries.at_index (k := i) (by simpa using hi)
  rw [Nat.zero_add, Nat.zero_add] at hm
  rw [Nat.zero_add, Nat.zero_add, ← hm] at htail hset
  rw [← hm] at hx
  obtain rfl : x = old' := by
    rw [← Array.getElem?_toList, hx] at hi'
    exact Option.some.inj hi'
  have hroom : (new'.room : Int) - x.room = new.room - old.room := by
    rw [hn.room, ht.room]
  obtain ⟨hp, hs⟩ := htail.shiftEntries i ((new.room : Int) - old.room) l.symbols
  have hshift : l'.shifted (p.place i) x new' =
      Dcpu.shiftEntries (p.place i) (p.place i + 1) ((new.room : Int) - old.room)
        (l.symbols.renumber p) (l'.entries.toList.drop (p.place i + 1)) := by
    rw [shifted, hroom, h.symbols]
  constructor
  · rw [replace_entries hi, replace_entries hi', hshift]
    exact hset new new' _ _ hn hp
  · rw [replace_symbols, replace_symbols, hshift]
    exact hs
  · unfold Layout.replace
    dsimp only
    split
    · split
      · exact h.long
      · exact h.long
    · split
      · exact h.long
      · exact h.long
  · unfold Layout.replace
    dsimp only
    rw [hroom]
    split
    · dsimp only
      rw [h.changed, hn.output, ht.output]
    · rfl

/-- Bringing an entry up to date goes together with doing so to its twin. -/
theorem Beside.refreshAt (hf : ∀ f ∈ v.hooks.functions, f.2.Unnumbered) (h : l.Beside p l')
    (hi : l.entries[i]? = some old) :
    Both (Beside p) (l.refreshAt v i) (l'.refreshAt v (p.place i)) := by
  obtain ⟨old', hi', ht⟩ := h.at_index hi
  have hlong : old'.longAfter l'.long = old.longAfter l.long := by
    rw [Entry.longAfter, Entry.longAfter, ht.body, h.long]
  unfold Layout.refreshAt
  rw [hi, hi']
  dsimp only
  rw [hlong, ht.body]
  split
  next hv =>
    rw [h.symbols]
    refine (ht.refresh hf hv l.symbols _).bind fun x x' hx => .ok ?_
    obtain ⟨new, s⟩ := x
    obtain ⟨new', s'⟩ := x'
    obtain ⟨hn, rfl⟩ := hx
    have hmarked : Beside p { l with symbols := s, long := old.longAfter l.long }
        { l' with symbols := s.renumber p, long := old.longAfter l.long } :=
      ⟨h.entries, rfl, rfl, h.changed⟩
    exact hmarked.replace hi hi' hn
  next => exact .ok ⟨h.entries, h.symbols, rfl, h.changed⟩

theorem refreshAt_blank {e : Entry} (hi : l.entries[i]? = some e) (hb : e.body = .blank) :
    l.refreshAt v i = .ok l := by
  unfold Layout.refreshAt
  rw [hi]
  dsimp only
  rw [Entry.longAfter, hb]
  rfl

theorem Beside.place_size (h : l.Beside p l') : p.place l.entries.size = l'.entries.size := by
  simpa using h.entries.place_length

/-- The rest of a pass. The indices that are still to come have the shape of `es` and `es'`, where
spacers change nothing. -/
theorem Beside.foldlM (hf : ∀ f ∈ v.hooks.functions, f.2.Unnumbered) {i j : Nat}
    {es es' : List Entry} (shape : Padded p i j es es') (hlow : ∀ k < i, p.place k < j)
    (h : l.Beside p l') (hsize : l.entries.size = i + es.length) :
    Both (Beside p) ((List.range' i es.length).foldlM (Layout.refreshAt v) l)
      ((List.range' j es'.length).foldlM (Layout.refreshAt v) l') := by
  induction shape generalizing l l' with
  | nil => exact .ok h
  | @twin i j e e' es es' hp he hs ih =>
    rw [List.length_cons] at hsize
    have hlt : i < l.entries.size := by omega
    obtain ⟨old, hold⟩ : ∃ old, l.entries[i]? = some old := ⟨_, Array.getElem?_eq_getElem hlt⟩
    subst hp
    rw [List.length_cons, List.length_cons, List.range'_succ, List.range'_succ, List.foldlM_cons,
      List.foldlM_cons]
    refine (h.refreshAt hf hold).with_ok.bind fun k k' hk => ?_
    obtain ⟨hk, hr, -⟩ := hk
    have hlen := (refreshAt_updated hr).length_eq
    refine ih (fun m hm => ?_) hk ?_
    · rcases Nat.lt_succ_iff_lt_or_eq.mp hm with hm | rfl
      · exact Nat.lt_succ_of_lt (hlow m hm)
      · exact Nat.lt_succ_self _
    · simp only [Array.length_toList] at hlen
      omega
  | @spacer i j e es es' he hs ih =>
    have hj : l'.entries.size = j + (es'.length + 1) := by
      have := hs.place_length
      rw [← h.place_size, hsize, this]
      omega
    obtain ⟨x, hx⟩ : ∃ x, l'.entries[j]? = some x :=
      ⟨_, Array.getElem?_eq_getElem (by omega)⟩
    have hne (m : Nat) : p.place m ≠ 0 + j := by
      rw [Nat.zero_add]
      intro hm
      rcases Nat.lt_or_ge m i with hlt | hge
      · exact absurd (hlow m hlt) (by omega)
      · have hle := hs.le_place
        rcases Nat.eq_or_lt_of_le hge with rfl | hlt
        · omega
        · have := p.place_lt hlt
          omega
    have hspacer := h.entries.isSpacer_of_ne (by simpa using hx) hne
    rw [List.length_cons, List.range'_succ, List.foldlM_cons,
      refreshAt_blank hx (p.blank hspacer)]
    exact ih (fun m hm => Nat.lt_succ_of_lt (hlow m hm)) h hsize

theorem Beside.pass (hf : ∀ f ∈ v.hooks.functions, f.2.Unnumbered) (h : l.Beside p l') :
    Both (Beside p) (l.pass v) (l'.pass v) := by
  unfold Layout.pass
  rw [List.range_eq_range', List.range_eq_range', ← Array.length_toList, ← Array.length_toList]
  refine Beside.foldlM hf h.entries (fun k hk => absurd hk (Nat.not_lt_zero k)) ?_ ?_
  · exact ⟨h.entries, h.symbols, rfl, rfl⟩
  · simp

/-- The passes of both programs go on alike to the end. -/
theorem Beside.settle (hf : ∀ f ∈ v.hooks.functions, f.2.Unnumbered) (left done : Nat)
    (h : l.Beside p l') :
    Both (fun x x' => x.1.Beside p x'.1 ∧ x'.2 = x.2) (l.settle v left done)
      (l'.settle v left done) := by
  induction left generalizing l l' done with
  | zero => exact .ok ⟨h, rfl⟩
  | succ left ih =>
    unfold Layout.settle
    have hp := h.pass hf
    revert hp
    generalize l.pass v = x
    generalize l'.pass v = x'
    intro hp
    cases hp with
    | error e => exact .error e
    | @ok k k' hk =>
      dsimp only
      rw [hk.changed]
      split
      · exact ih (done + 1) hk
      · exact .ok ⟨hk, rfl⟩

end Layout

/-- An assembly and that of the padded program. -/
structure Assembly.Beside (p : Padding) (a a' : Assembly) : Prop where
  entries : Padded p 0 0 a.entries a'.entries
  symbols : a'.symbols = a.symbols.renumber p
  passes : a'.passes = a.passes
  fixedPoint : a'.fixedPoint = a.fixedPoint

theorem Session.finish_beside {v : Session} (hf : ∀ f ∈ v.hooks.functions, f.2.Unnumbered)
    {p : Padding} {d d' : Draft} (hs : d'.symbols = d.symbols.renumber p)
    (he : Padded p 0 0 d.entries.toList d'.entries.toList) :
    Both (Assembly.Beside p) (v.finish d) (v.finish d') := by
  unfold finish
  have h : d.layout.Beside p d'.layout := ⟨he, hs, rfl, rfl⟩
  refine (h.settle hf (max v.settings.maxPasses 1) 0).bind fun x x' hx => .ok ?_
  obtain ⟨l, passes, fixed⟩ := x
  obtain ⟨l', y⟩ := x'
  obtain ⟨hl, rfl⟩ := hx
  exact ⟨hl.entries, hl.symbols, rfl, rfl⟩

end Dcpu
