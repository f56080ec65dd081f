import Dcpu.Assembly.Run
import Dcpu.Proofs.Refresh
import Mathlib.Data.List.Forall2
import Mathlib.Logic.Relation

/-! What passes over a program do to its entries. Each of them is brought up to date or moved, and
keeps its place in the listing. -/
namespace Dcpu
open Answer

namespace Word

theorem ofInt_natCast (n : Nat) : UInt16.ofInt (n : Int) = UInt16.ofNat n := by
  apply UInt16.toNat.inj
  have h : ((n : Int) % 2 ^ 16).toNat = n % 2 ^ 16 := by omega
  rw [UInt16.ofInt, h]
  simp

theorem move_eq_add (w : Word) (delta : Int) : w.move delta = w + UInt16.ofInt delta := by
  rw [move, UInt16.ofInt_add, ofInt_natCast, UInt16.ofNat_toNat]

@[simp] theorem move_zero (w : Word) : w.move 0 = w := by
  have h : UInt16.ofInt 0 = 0 := ofInt_natCast 0
  rw [move_eq_add, h, UInt16.add_zero]

theorem move_move (w : Word) (a b : Int) : (w.move a).move b = w.move (a + b) := by
  simp only [move_eq_add, UInt16.ofInt_add, UInt16.add_assoc]

end Word

namespace SymbolTable

/-- Moves every label by an amount that depends on its position. -/
def shiftBy (s : SymbolTable) (f : Nat → Int) : SymbolTable :=
  { s with
    labels := s.labels.map fun (key, l) => (key, l.moveBy (f l.position))
    anonymous := s.anonymous.map fun l => l.moveBy (f l.position) }

/-- The positions between `after` and `before` ask for `delta`. -/
def window (after before : Nat) (delta : Int) (position : Nat) : Int :=
  if after < position ∧ position < before then delta else 0

theorem move_window {α : Type} (move : Int → α → α) (h : ∀ x, move 0 x = x) (after before : Nat)
    (delta : Int) (position : Nat) (x : α) :
    (if (decide (after < position) && decide (position < before)) = true then move delta x else x) =
      move (window after before delta position) x := by
  by_cases hp : after < position ∧ position < before
  · simp [window, hp]
  · have hb : ¬(decide (after < position) && decide (position < before)) = true := by
      simpa using hp
    rw [if_neg hb, window, if_neg hp, h]

theorem window_of_le {after before p : Nat} {delta : Int} (h : p ≤ after) :
    window after before delta p = 0 :=
  if_neg fun hp => Nat.not_lt.mpr h hp.1

theorem window_of_ge {after before p : Nat} {delta : Int} (h : before ≤ p) :
    window after before delta p = 0 :=
  if_neg fun hp => Nat.not_lt.mpr h hp.2

theorem shift_eq_shiftBy (s : SymbolTable) (after before : Nat) (delta : Int) :
    s.shift after before delta = s.shiftBy (window after before delta) := by
  have hl (l : Label) : l.moveBy 0 = l := by simp [Label.moveBy]
  have ha (l : AnonymousLabel) : l.moveBy 0 = l := by simp [AnonymousLabel.moveBy]
  simp only [shift, shiftBy, move_window Label.moveBy hl, move_window AnonymousLabel.moveBy ha]

theorem shiftBy_zero (s : SymbolTable) : s.shiftBy (fun _ => 0) = s := by
  simp [shiftBy, Label.moveBy, AnonymousLabel.moveBy]

@[simp] theorem shift_zero (s : SymbolTable) (after before : Nat) : s.shift after before 0 = s := by
  have h : window after before 0 = fun _ => 0 := by
    funext p
    simp [window]
  rw [shift_eq_shiftBy, h, shiftBy_zero]

theorem shiftBy_shiftBy (s : SymbolTable) (f g : Nat → Int) :
    (s.shiftBy f).shiftBy g = s.shiftBy fun p => f p + g p := by
  simp [shiftBy, Label.moveBy, AnonymousLabel.moveBy, Word.move_move, Function.comp_def]

theorem lookup_map {α β : Type} (f : α → β) (l : List (Text × α)) (k : Text) :
    (l.map fun x => (x.1, f x.2)).lookup k = (l.lookup k).map f := by
  induction l with
  | nil => rfl
  | cons x l ih =>
    rw [List.map_cons, List.lookup_cons, List.lookup_cons]
    split
    next => rfl
    next => exact ih

theorem label?_shiftBy (s : SymbolTable) (f : Nat → Int) (name : Text) :
    (s.shiftBy f).label? name = (s.label? name).map fun l => l.moveBy (f l.position) :=
  lookup_map (fun l : Label => l.moveBy (f l.position)) s.labels _

end SymbolTable

theorem shiftEntries_zero (start index : Nat) (s : SymbolTable) (es : List Entry) :
    shiftEntries start index 0 s es = (es, s) := by
  cases es with
  | nil => simp [shiftEntries]
  | cons e es => simp [shiftEntries]

/-- Induction along a shift. It stops at an origin or when nothing is left to be moved, an alignment
passes on what it cannot take up, and any other entry moves. -/
theorem shiftEntries_induct
    {P : Nat → Nat → Int → SymbolTable → List Entry → List Entry × SymbolTable → Prop}
    (still : ∀ start index delta s es, (delta ≠ 0 → ∀ e ∈ es.head?, e.body = .origin) →
      P start index delta s es (es, s.shift start index delta))
    (align : ∀ start index delta s e es target out, e.body = .align target →
      P index (index + 1) ((e.realign target delta).stop - e.stop) (s.shift start index delta) es
        out → P start index delta s (e :: es) (e.realign target delta :: out.1, out.2))
    (move : ∀ start index delta s e es out, e.body ≠ .origin →
      (∀ target, e.body ≠ .align target) → P start (index + 1) delta s es out →
      P start index delta s (e :: es) (e.moveBy delta :: out.1, out.2))
    (start index : Nat) (delta : Int) (s : SymbolTable) (es : List Entry) :
    P start index delta s es (shiftEntries start index delta s es) := by
  induction es generalizing start index delta s with
  | nil =>
    refine still start index delta s [] fun _ e he => ?_
    simp at he
  | cons e es ih =>
    by_cases hd : delta = 0
    · subst hd
      have h := still start index 0 s (e :: es) (absurd rfl)
      rw [SymbolTable.shift_zero] at h
      rw [shiftEntries_zero]
      exact h
    · unfold shiftEntries
      rw [if_neg hd]
      split
      next hb =>
        refine still start index delta s (e :: es) fun _ f hf => ?_
        obtain rfl : e = f := by simpa using hf
        exact hb
      next target hb => exact align start index delta s e es target _ hb (ih ..)
      next ho ha => exact move start index delta s e es _ ho ha (ih ..)

namespace Entry

/-- One change of an entry in the course of a pass. Nothing changes an origin, and an instruction
has the words of its code after it has been brought up to date. -/
inductive Update : Entry → Entry → Prop where
  | renew {e : Entry} {body : Body} {own : Option (List Word)} {fault : Option Fault}
      (h : e.body.isVariable = true) (hb : body.isVariable = true)
      (ho : own = none ∨ (∀ i, body ≠ .instruction i) ∧
        own.map List.length = e.own.map List.length) :
      Update e { e with body := body, own := own, fault := fault }
  | move {e : Entry} (ho : e.body ≠ .origin) (ha : ∀ target, e.body ≠ .align target)
      (delta : Int) : Update e (e.moveBy delta)
  | realign {e : Entry} {target : Word} (h : e.body = .align target) (delta : Int) :
      Update e (e.realign target delta)

abbrev Updates : Entry → Entry → Prop := Relation.ReflTransGen Update

variable {e e' : Entry}

@[simp] theorem moveBy_zero (e : Entry) : e.moveBy 0 = e := by
  simp [moveBy]

theorem realign_eq (e : Entry) (target : Word) (delta : Int) :
    e.realign target delta =
      { e with
        address := e.address.move delta
        own := none
        fault := (e.realign target delta).fault } := by
  by_cases h : e.address.move delta ≤ target
  · simp [realign, moveBy, h]
  · simp [realign, moveBy, h]

theorem Updates.eq_of_origin (h : e.Updates e') (ho : e.body = .origin) : e' = e := by
  induction h with
  | refl => rfl
  | tail _ hu ih =>
    subst ih
    cases hu with
    | renew hv => simp [ho, Body.isVariable] at hv
    | move hn _ => exact absurd ho hn
    | realign ha => simp [ho] at ha

theorem Updates.align_of_after {target : Word} (h : e.Updates e') (ha : e'.body = .align target) :
    e.body = .align target := by
  induction h with
  | refl => exact ha
  | tail _ hu ih =>
    cases hu with
    | renew _ hb =>
      dsimp only at ha
      simp [ha, Body.isVariable] at hb
    | move => exact ih ha
    | realign =>
      rw [realign_eq] at ha
      exact ih ha

theorem Updates.isVariable_eq (h : e.Updates e') : e'.body.isVariable = e.body.isVariable := by
  induction h with
  | refl => rfl
  | tail _ hu ih =>
    rw [← ih]
    cases hu with
    | renew hv hb => exact hb.trans hv.symm
    | move => rfl
    | realign =>
      rw [realign_eq]

/-- An entry with fixed words is only moved. -/
theorem Updates.eq_of_words {ws : List Word} (h : e.Updates e') (hb : e.body = .words ws) :
    e' = { e with address := e'.address } := by
  induction h with
  | refl => rfl
  | @tail f _ _ hu ih =>
    have hf : f.body = .words ws := by rw [ih]; exact hb
    cases hu with
    | renew hv => simp [hf, Body.isVariable] at hv
    | move => rw [ih]; rfl
    | realign ha => simp [hf] at ha

/-- No words of its own come to an entry. -/
theorem Updates.own_eq_none (h : e.Updates e') (ho : e.own = none) : e'.own = none := by
  induction h with
  | refl => exact ho
  | tail _ hu ih =>
    cases hu with
    | renew _ _ hn =>
      rcases hn with hn | ⟨-, hn⟩
      · exact hn
      · rw [ih] at hn
        exact Option.map_eq_none_iff.mp hn
    | move => exact ih
    | realign => rw [realign_eq]

theorem Updates.eq_of_blank (h : e.Updates e') (hb : e.body = .blank) :
    e' = { e with address := e'.address } := h.eq_of_words hb

end Entry

theorem exists_getElem?_of_forall₂ {α β : Type} {R : α → β → Prop} {as : List α} {bs : List β}
    (h : List.Forall₂ R as bs) {k : Nat} {a : α} (ha : as[k]? = some a) :
    ∃ b, bs[k]? = some b ∧ R a b := by
  induction h generalizing k with
  | nil => simp at ha
  | cons hr _ ih =>
    cases k with
    | zero =>
      obtain rfl : _ = a := by simpa using ha
      exact ⟨_, rfl, hr⟩
    | succ k => exact ih ha

theorem forall₂_imp_getElem? {α β : Type} {R S : α → β → Prop} {as : List α} {bs : List β}
    (h : List.Forall₂ R as bs)
    (hs : ∀ (k : Nat) (a : α) (b : β), as[k]? = some a → bs[k]? = some b → R a b → S a b) :
    List.Forall₂ S as bs := by
  induction h with
  | nil => exact .nil
  | cons hr _ ih =>
    refine .cons (hs 0 _ _ rfl rfl hr) (ih ?_)
    intro k a b ha hb
    exact hs (k + 1) a b ha hb

theorem forall₂_trans {α : Type} {R : α → α → Prop} (hR : ∀ a b c, R a b → R b c → R a c)
    {as bs cs : List α} (h : List.Forall₂ R as bs) (h' : List.Forall₂ R bs cs) :
    List.Forall₂ R as cs := by
  induction h generalizing cs with
  | nil => exact h'
  | cons hr _ ih =>
    cases h' with
    | cons hr' h' => exact .cons (hR _ _ _ hr hr') (ih h')

/-- Entries before and after some changes, one by one. -/
abbrev Updated : List Entry → List Entry → Prop := List.Forall₂ Entry.Updates

namespace Updated

variable {es fs gs : List Entry}

theorem refl (es : List Entry) : Updated es es := List.forall₂_same.mpr fun _ _ => .refl

theorem trans (h : Updated es fs) (h' : Updated fs gs) : Updated es gs :=
  forall₂_trans (fun _ _ _ => Relation.ReflTransGen.trans) h h'

theorem get (h : Updated es fs) {k : Nat} {e : Entry} (he : es[k]? = some e) :
    ∃ f, fs[k]? = some f ∧ e.Updates f :=
  exists_getElem?_of_forall₂ h he

theorem get_back (h : Updated es fs) {k : Nat} {f : Entry} (hf : fs[k]? = some f) :
    ∃ e, es[k]? = some e ∧ e.Updates f :=
  exists_getElem?_of_forall₂ h.flip hf

/-- What updates keep of one entry they keep of all. -/
theorem forall_mem {P : Entry → Prop} (keeps : ∀ e f, e.Updates f → P e → P f)
    (h : Updated es fs) (he : ∀ e ∈ es, P e) : ∀ f ∈ fs, P f := by
  intro f hf
  obtain ⟨k, hk⟩ := List.mem_iff_getElem?.mp hf
  obtain ⟨e, hek, hu⟩ := h.get_back hk
  exact keeps e f hu (he e (List.mem_of_getElem? hek))

theorem forall_own (h : Updated es fs) (he : ∀ e ∈ es, e.own = none) : ∀ f ∈ fs, f.own = none :=
  h.forall_mem (fun _ _ => Entry.Updates.own_eq_none) he

end Updated

/-- A relation that holds between an entry and what a shift makes of it. -/
structure ShiftClosed (R : Entry → Entry → Prop) : Prop where
  refl : ∀ e, R e e
  move : ∀ e delta, e.body ≠ .origin → (∀ target, e.body ≠ .align target) → R e (e.moveBy delta)
  realign : ∀ e target delta, e.body = .align target → R e (e.realign target delta)

theorem Entry.updates_shiftClosed : ShiftClosed Entry.Updates where
  refl _ := .refl
  move _ delta ho ha := .single (.move ho ha delta)
  realign _ _ delta ha := .single (.realign ha delta)

theorem shiftEntries_forall₂ {R : Entry → Entry → Prop} (hR : ShiftClosed R) (start index : Nat)
    (delta : Int) (s : SymbolTable) (es : List Entry) :
    List.Forall₂ R es (shiftEntries start index delta s es).1 := by
  induction start, index, delta, s, es using shiftEntries_induct with
  | still start index delta s es => exact List.forall₂_same.mpr fun e _ => hR.refl e
  | align start index delta s e es target out ha ih => exact .cons (hR.realign e target delta ha) ih
  | move start index delta s e es out ho ha ih => exact .cons (hR.move e delta ho ha) ih

/-- The outcome `out` of a shift when each position asks for an amount. Labels move with their
entries, except that alignments move without their labels. Labels up to `start` do not move, and
those between it and the first entry move as that entry is told to. -/
structure MovedBy (f : Nat → Int) (start index : Nat) (delta : Int) (s : SymbolTable)
    (es : List Entry) (out : List Entry × SymbolTable) : Prop where
  symbols : out.2 = s.shiftBy f
  before : ∀ p, p ≤ start → f p = 0
  between : ∀ p, start < p → p < index → f p = delta
  entries : ∀ (k : Nat) (e : Entry), es[k]? = some e → (∀ target, e.body ≠ .align target) →
    out.1[k]? = some (e.moveBy (f (index + k)))

namespace MovedBy

variable {f : Nat → Int} {start index : Nat} {delta amount : Int} {s : SymbolTable} {e : Entry}
  {es : List Entry} {out : List Entry × SymbolTable}

theorem still (start index : Nat) (delta : Int) (s : SymbolTable) (es : List Entry) :
    MovedBy (SymbolTable.window start index delta) start index delta s es
      (es, s.shift start index delta) where
  symbols := s.shift_eq_shiftBy ..
  before p hp := SymbolTable.window_of_le hp
  between p hp hp' := if_pos ⟨hp, hp'⟩
  entries k e he _ := by
    rw [SymbolTable.window_of_ge (Nat.le_add_right index k), Entry.moveBy_zero]
    exact he

/-- What stands behind an alignment moves by another amount than what stands before it. -/
theorem align {target : Word} (hs : start < index) (ha : e.body = .align target) (new : Entry)
    (h : MovedBy f index (index + 1) amount (s.shift start index delta) es out) :
    MovedBy (fun p => SymbolTable.window start index delta p + f p) start index delta s (e :: es)
      (new :: out.1, out.2) where
  symbols := by
    rw [← SymbolTable.shiftBy_shiftBy, ← SymbolTable.shift_eq_shiftBy]
    exact h.symbols
  before p hp := by
    simp [SymbolTable.window_of_le hp, h.before p (by omega)]
  between p hp hp' := by
    have hw : SymbolTable.window start index delta p = delta := if_pos ⟨hp, hp'⟩
    simp [hw, h.before p (Nat.le_of_lt hp')]
  entries k g hg hga := by
    cases k with
    | zero =>
      obtain rfl : e = g := by simpa using hg
      exact absurd ha (hga target)
    | succ k =>
      have hi : index + (k + 1) = index + 1 + k := by omega
      simp only [hi, SymbolTable.window_of_ge (show index ≤ index + 1 + k by omega), Int.zero_add]
      exact h.entries k g hg hga

theorem cons (hs : start < index) (e : Entry) (h : MovedBy f start (index + 1) delta s es out) :
    MovedBy f start index delta s (e :: es) (e.moveBy delta :: out.1, out.2) where
  symbols := h.symbols
  before := h.before
  between p hp hp' := h.between p hp (Nat.lt_succ_of_lt hp')
  entries k g hg hga := by
    cases k with
    | zero =>
      obtain rfl : e = g := by simpa using hg
      simp [h.between index hs (Nat.lt_succ_self index)]
    | succ k =>
      have hi : index + (k + 1) = index + 1 + k := by omega
      rw [hi]
      exact h.entries k g hg hga

end MovedBy

theorem shiftEntries_movedBy {start index : Nat} (h : start < index) (delta : Int)
    (s : SymbolTable) (es : List Entry) :
    ∃ f, MovedBy f start index delta s es (shiftEntries start index delta s es) := by
  induction start, index, delta, s, es using shiftEntries_induct with
  | still start index delta s es => exact ⟨_, .still start index delta s es⟩
  | align start index delta s e es target out ha ih =>
    obtain ⟨f, hf⟩ := ih (Nat.lt_succ_self index)
    exact ⟨_, hf.align h ha _⟩
  | move start index delta s e es out _ _ ih =>
    obtain ⟨f, hf⟩ := ih (Nat.lt_succ_of_lt h)
    exact ⟨f, hf.cons h e⟩

/-- The entry at an index is the first of those behind the earlier ones. -/
theorem eq_take_cons_drop {α : Type} {xs : List α} {k : Nat} {x : α} (h : xs[k]? = some x) :
    xs = xs.take k ++ x :: xs.drop (k + 1) := by
  obtain ⟨hk, rfl⟩ := List.getElem?_eq_some_iff.mp h
  rw [← List.drop_eq_getElem_cons hk, List.take_append_drop]

namespace Layout

variable {v : Session} {l l' : Layout} {i : Nat}

/-- What follows an entry that is replaced, and the symbols, moved by the difference in room. -/
def shifted (l : Layout) (i : Nat) (old new : Entry) : List Entry × SymbolTable :=
  shiftEntries i (i + 1) ((new.room : Int) - old.room) l.symbols (l.entries.toList.drop (i + 1))

theorem shifted_movedBy (l : Layout) (i : Nat) (old new : Entry) :
    ∃ f, MovedBy f i (i + 1) ((new.room : Int) - old.room) l.symbols
      (l.entries.toList.drop (i + 1)) (l.shifted i old new) :=
  shiftEntries_movedBy (Nat.lt_succ_self i) ..

theorem replace_symbols (l : Layout) (i : Nat) (old new : Entry) :
    (l.replace i old new).symbols = (l.shifted i old new).2 := by
  by_cases hd : (new.room : Int) - old.room = 0
  · simp [replace, shifted, hd, shiftEntries_zero]
  · simp [replace, shifted, hd]

theorem replace_entries {old : Entry} (h : l.entries[i]? = some old) (new : Entry) :
    (l.replace i old new).entries.toList =
      l.entries.toList.take i ++ new :: (l.shifted i old new).1 := by
  have hi : i < l.entries.toList.length := by
    obtain ⟨hi, -⟩ := Array.getElem?_eq_some_iff.mp h
    exact hi
  by_cases hd : (new.room : Int) - old.room = 0
  · simp only [replace, shifted, hd, shiftEntries_zero, if_true, Array.toList_setIfInBounds]
    rw [List.set_eq_take_append_cons_drop, if_pos hi]
  · simp [replace, shifted, hd]

theorem replace_forall₂ {R : Entry → Entry → Prop} (hR : ShiftClosed R) {old new : Entry}
    (h : l.entries[i]? = some old) (hn : R old new) :
    List.Forall₂ R l.entries.toList (l.replace i old new).entries.toList := by
  have hl : l.entries.toList[i]? = some old := by simpa using h
  rw [replace_entries h]
  nth_rewrite 1 [eq_take_cons_drop hl]
  exact List.rel_append (List.forall₂_same.mpr fun e _ => hR.refl e)
    (.cons hn (shiftEntries_forall₂ hR ..))

/-- What one step of a pass does. -/
theorem refreshAt_cases (h : l.refreshAt v i = .ok l') :
    (l.entries[i]? = none ∧ l' = l) ∨
    (∃ e, l.entries[i]? = some e ∧ e.body.isVariable = false ∧
      l' = { l with long := e.longAfter l.long }) ∨
    ∃ e new s, l.entries[i]? = some e ∧ e.body.isVariable = true ∧
      e.refresh v l.symbols l.long = .ok (new, s) ∧
      l' = { l with symbols := s }.replace i e new := by
  unfold refreshAt at h
  split at h
  next hi =>
    obtain rfl := Except.ok.inj h
    exact .inl ⟨hi, rfl⟩
  next e hi =>
    dsimp only at h
    split at h
    next hv =>
      have hl : e.longAfter l.long = l.long := by
        cases hb : e.body <;> simp_all [Entry.longAfter, Body.isVariable]
      obtain ⟨⟨new, s⟩, hr, h⟩ := bind_eq_ok.mp h
      obtain rfl := pure_eq_ok.mp h
      rw [hl] at hr ⊢
      exact .inr (.inr ⟨e, new, s, hi, hv, hr, rfl⟩)
    next hv =>
      obtain rfl := pure_eq_ok.mp h
      exact .inr (.inl ⟨e, hi, by simpa using hv, rfl⟩)

/-- How entries before and after a step are related: as after a shift, and the entry that is brought
up to date as its evaluation says. -/
theorem refreshAt_forall₂ {R : Entry → Entry → Prop} (hR : ShiftClosed R)
    (h : l.refreshAt v i = .ok l')
    (hn : ∀ e new s, l.entries[i]? = some e → e.body.isVariable = true →
      e.refresh v l.symbols l.long = .ok (new, s) → R e new) :
    List.Forall₂ R l.entries.toList l'.entries.toList := by
  obtain ⟨-, rfl⟩ | ⟨e, -, -, rfl⟩ | ⟨e, new, s, he, hv, hr, rfl⟩ := refreshAt_cases h
  · exact List.forall₂_same.mpr fun e _ => hR.refl e
  · exact List.forall₂_same.mpr fun e _ => hR.refl e
  · exact replace_forall₂ (l := { l with symbols := s }) hR he (hn e new s he hv hr)

theorem refresh_updates {e new : Entry} {s t : SymbolTable} {long : Bool}
    (hv : e.body.isVariable = true) (hr : e.refresh v s long = .ok (new, t)) :
    e.Updates new := by
  obtain ⟨hn, hb, -⟩ := Entry.refresh_cases hv hr
  rw [hn]
  exact .single (.renew hv hb.isVariable (Entry.refresh_own hv hr))

theorem refreshAt_updated (h : l.refreshAt v i = .ok l') :
    Updated l.entries.toList l'.entries.toList :=
  refreshAt_forall₂ Entry.updates_shiftClosed h fun _ _ _ _ hv hr => refresh_updates hv hr

/-- Any number of passes. -/
abbrev Passes (v : Session) : Layout → Layout → Prop :=
  Relation.ReflTransGen fun l l' => l.pass v = .ok l'

/-- What every step of a pass keeps, all passes keep. -/
theorem Passes.keeps {P : Array Entry → SymbolTable → Prop}
    (step : ∀ l i l', refreshAt v l i = .ok l' → P l.entries l.symbols → P l'.entries l'.symbols)
    (h : Passes v l l') (hl : P l.entries l.symbols) : P l'.entries l'.symbols := by
  induction h with
  | refl => exact hl
  | tail _ hp ih =>
    unfold pass at hp
    refine foldlM_keeps (P := fun k : Layout => P k.entries k.symbols) ?_ ?_ hp
    · intro k i k' hk hr
      exact step k i k' hr hk
    · exact ih

theorem Passes.updated (h : Passes v l l') : Updated l.entries.toList l'.entries.toList := by
  refine h.keeps (P := fun es _ => Updated l.entries.toList es.toList) ?_ (.refl _)
  intro k i k' hr hk
  exact hk.trans (refreshAt_updated hr)

/-- Settling is some passes; if a fixed point was reached, the last one changed nothing. -/
theorem settle_passes {left done n : Nat} {fixed : Bool}
    (h : l.settle v left done = .ok (l', n, fixed)) :
    Passes v l l' ∧ (fixed = true →
      ∃ k, Passes v l k ∧ k.pass v = .ok l' ∧ l'.changed = false) := by
  induction left generalizing l done with
  | zero =>
    obtain ⟨rfl, -, rfl⟩ : l = l' ∧ done = n ∧ false = fixed := by simpa [settle] using h
    exact ⟨.refl, nofun⟩
  | succ left ih =>
    unfold settle at h
    split at h
    next => cases h
    next k hk =>
      split at h
      next hc =>
        obtain ⟨hp, hf⟩ := ih h
        refine ⟨.head hk hp, fun hfix => ?_⟩
        obtain ⟨m, hm, hl⟩ := hf hfix
        exact ⟨m, .head hk hm, hl⟩
      next hc =>
        obtain ⟨rfl, -, rfl⟩ : k = l' ∧ done + 1 = n ∧ true = fixed := by simpa using h
        exact ⟨.single hk, fun _ => ⟨l, .refl, hk, by simpa using hc⟩⟩

end Layout

/-- The layout that reading the lines gives. -/
def Draft.layout (d : Draft) : Layout := { entries := d.entries, symbols := d.symbols }

/-- An assembly is what some passes make of the lines that have been read. -/
theorem Session.run_passes {v : Session} {steps : Nat} {file source : Text} {a : Assembly}
    (h : v.run steps file source = .ok a) :
    ∃ d l, (v.start file source).readAll v steps = .ok d ∧ Layout.Passes v d.layout l ∧
      a.entries = l.entries.toList ∧ a.symbols = l.symbols ∧ (a.fixedPoint = true →
        ∃ k, Layout.Passes v d.layout k ∧ k.pass v = .ok l ∧ l.changed = false) := by
  obtain ⟨d, hd, h⟩ := bind_eq_ok.mp h
  obtain ⟨⟨l, n, fixed⟩, hs, h⟩ := bind_eq_ok.mp h
  obtain rfl := pure_eq_ok.mp h
  obtain ⟨hp, hf⟩ := Layout.settle_passes hs
  exact ⟨d, l, hd, hp, rfl, rfl, hf⟩

/-- A session with nothing but the standard instructions. -/
def Session.bare : Session where
  disk := Disk.ofKnown []
  literal := fun _ => .ok none

end Dcpu
