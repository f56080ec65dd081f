import Dcpu.Proofs.DraftSteps
import Dcpu.Proofs.LayoutSteps
import Mathlib.Algebra.GroupWithZero.Nat

/-! The addresses of a program. Entries stand one behind the other from the last origin on, and
labels have the addresses of their entries. Reading lines establishes this, and passes keep it
although they move entries and labels apart from each other. -/
namespace Dcpu
open Answer

namespace Body

/-- Only alignments have a length that depends on the address. -/
theorem length_eq_of_not_align {b : Body} (hb : ∀ target, b ≠ .align target) (w w' : Word) :
    b.length w = b.length w' := by
  cases b with
  | align target => exact absurd rfl (hb target)
  | _ => rfl

end Body

namespace Entry

variable {e e' : Entry}

/-- The address behind the last word. -/
def behind (e : Entry) : Word := e.address + e.size

/-- The address behind the room that an entry takes. -/
def limit (e : Entry) : Word := e.address + UInt16.ofNat e.room

theorem behind_eq_ofInt_stop (e : Entry) : e.behind = UInt16.ofInt e.stop := by
  rw [behind, stop, size, UInt16.ofInt_add, Word.ofInt_natCast, Word.ofInt_natCast,
    UInt16.ofNat_toNat]

/-- Moving by the difference of two ends leads from one end to the other. -/
theorem behind_move (e e' : Entry) : e.behind.move (e'.stop - e.stop) = e'.behind := by
  rw [Word.move_eq_add, behind_eq_ofInt_stop, behind_eq_ofInt_stop, ← UInt16.ofInt_add]
  congr 1
  omega

theorem limit_of_room (h : e.room = e.length) : e.limit = e.behind := by
  rw [limit, h, behind, size]

theorem limit_of_align {target : Word} (h : e.body = .align target) : e.limit = e.behind :=
  limit_of_room (room_of_ne (by simp [h]))

theorem limit_moveBy (he : ∀ target, e.body ≠ .align target) (delta : Int) :
    (e.moveBy delta).limit = e.limit.move delta := by
  have hl : (e.moveBy delta).length = e.length := by
    simp only [length, moveBy, Body.length_eq_of_not_align he _ e.address]
  have hr : (e.moveBy delta).room = e.room := by
    simp only [room, hl]
    rfl
  simp only [limit, hr, Word.move_eq_add]
  simp only [moveBy, Word.move_eq_add]
  rw [UInt16.add_assoc, UInt16.add_comm (UInt16.ofInt delta), ← UInt16.add_assoc]

/-- Another entry at the same address takes more room by the difference. -/
theorem limit_move (h : e'.address = e.address) :
    e.limit.move ((e'.room : Int) - e.room) = e'.limit := by
  rw [limit, limit, h, Word.move_eq_add, UInt16.add_assoc, ← Word.ofInt_natCast e.room,
    ← UInt16.ofInt_add, ← Word.ofInt_natCast e'.room]
  congr 2
  omega

/-- If an entry has words of its own for an instruction, they are as many as those of its code. -/
def CountsWords (e : Entry) : Prop :=
  ∀ i ws, e.body = .instruction i → e.own = some ws → ws.length = i.encode.length

theorem countsWords_of_own (h : e.own = none) : e.CountsWords := by
  intro i ws _ ho
  simp [h] at ho

theorem CountsWords.room_eq (h : e.CountsWords) : e.room = e.length := by
  cases ho : e.own with
  | none => exact room_of_own ho
  | some ws =>
    unfold room
    split
    next i hb => simp only [length, ho, h i ws hb ho]
    next => rfl

end Entry

/-- Each entry stands behind the one before it and the first one at `w`, but for origins. -/
def Chained : Word → List Entry → Prop
  | _, [] => True
  | w, e :: es => (e.body ≠ .origin → e.address = w) ∧ Chained e.behind es

/-- The address behind all entries, of which the first one stands at `w`. -/
def behindAll : Word → List Entry → Word
  | w, [] => w
  | _, e :: es => behindAll e.behind es

theorem chained_append {w : Word} {es fs : List Entry} :
    Chained w (es ++ fs) ↔ Chained w es ∧ Chained (behindAll w es) fs := by
  induction es generalizing w with
  | nil => simp [Chained, behindAll]
  | cons e es ih => simp [Chained, behindAll, ih, and_assoc]

theorem behindAll_append {w : Word} {es fs : List Entry} :
    behindAll w (es ++ fs) = behindAll (behindAll w es) fs := by
  induction es generalizing w with
  | nil => rfl
  | cons e es ih => exact ih

theorem Chained.address_succ {w : Word} {es : List Entry} {k : Nat} {e f : Entry}
    (h : Chained w es) (he : es[k]? = some e) (hf : es[k + 1]? = some f) (ho : f.body ≠ .origin) :
    f.address = e.behind := by
  induction es generalizing w k with
  | nil => simp at he
  | cons g es ih =>
    cases k with
    | zero =>
      obtain rfl : g = e := by simpa using he
      cases es with
      | nil => simp at hf
      | cons g' es =>
        obtain rfl : g' = f := by simpa using hf
        exact h.2.1 ho
    | succ k => exact ih h.2 he hf

section Gaps

variable {w : Word} {e f : Entry} {es fs : List Entry}

/-- The number of words between each entry and the room of the one before it, of which the first one
ends at `w`. There is none for origins. -/
def gaps : Word → List Entry → List (Option Word)
  | _, [] => []
  | w, e :: es => (if e.body = .origin then none else some (e.address - w)) :: gaps e.limit es

theorem gaps_append (h : ∀ w, gaps w es = gaps w fs) (pre : List Entry) (w : Word) :
    gaps w (pre ++ es) = gaps w (pre ++ fs) := by
  induction pre generalizing w with
  | nil => exact h w
  | cons e pre ih => simp only [List.cons_append, gaps, ih]

/-- If every entry takes the room of its words, there are no gaps exactly in a chain. -/
theorem chained_iff_gaps (h : ∀ e ∈ es, e.CountsWords) :
    Chained w es ↔ ∀ g ∈ gaps w es, ∀ n ∈ g, n = 0 := by
  induction es generalizing w with
  | nil => simp [Chained, gaps]
  | cons e es ih =>
    have hl : e.limit = e.behind := Entry.limit_of_room (h e List.mem_cons_self).room_eq
    have hr := ih (w := e.behind) fun f hf => h f (List.mem_cons_of_mem e hf)
    simp only [Chained, gaps, List.forall_mem_cons, hl, hr]
    refine and_congr_left fun _ => ?_
    split
    next ho => simp [ho]
    next ho =>
      have hz : e.address - w = 0 ↔ e.address = w := by
        rw [UInt16.sub_eq_iff_eq_add, UInt16.zero_add]
      simp [ho, hz]

theorem getElem?_gaps_zero (he : es[0]? = some e) :
    (gaps w es)[0]? = some (if e.body = .origin then none else some (e.address - w)) := by
  cases es with
  | nil => simp at he
  | cons f es =>
    obtain rfl : f = e := by simpa using he
    rfl

theorem getElem?_gaps_succ {k : Nat} (he : es[k]? = some e) (hf : es[k + 1]? = some f) :
    (gaps w es)[k + 1]? =
      some (if f.body = .origin then none else some (f.address - e.limit)) := by
  induction es generalizing w k with
  | nil => simp at he
  | cons g es ih =>
    cases k with
    | zero =>
      obtain rfl : g = e := by simpa using he
      exact getElem?_gaps_zero hf
    | succ k => exact ih he hf

theorem move_sub_move (a w : Word) (delta : Int) : a.move delta - w.move delta = a - w := by
  rw [Word.move_eq_add, Word.move_eq_add]
  grind

/-- What moves keeps its distance. -/
theorem shiftEntries_gaps (start index : Nat) (delta : Int) (s : SymbolTable) (es : List Entry)
    (w : Word) : gaps (w.move delta) (shiftEntries start index delta s es).1 = gaps w es := by
  induction start, index, delta, s, es using shiftEntries_induct generalizing w with
  | still start index delta s es hs =>
    by_cases hd : delta = 0
    · rw [hd, Word.move_zero]
    · cases es with
      | nil => rfl
      | cons e es => simp only [gaps, hs hd e rfl, if_true]
  | align start index delta s e es target out ha ih =>
    have hb : (e.realign target delta).body = e.body := by rw [Entry.realign_eq]
    have haddr : (e.realign target delta).address = e.address.move delta := by
      rw [Entry.realign_eq]
    -- What follows an alignment moves by as much as the end of its padding does.
    have hl : (e.realign target delta).limit =
        e.limit.move ((e.realign target delta).stop - e.stop) := by
      rw [Entry.limit_of_align ha, Entry.limit_of_align (hb.trans ha), Entry.behind_move]
    simp only [gaps, hb, haddr, hl, ih, move_sub_move]
  | move start index delta s e es out ho ha ih =>
    have hb : (e.moveBy delta).body = e.body := rfl
    have haddr : (e.moveBy delta).address = e.address.move delta := rfl
    simp only [gaps, hb, haddr, Entry.limit_moveBy ha, ih, move_sub_move]

end Gaps

/-- A label stands at an entry without words, which nothing but a shift moves. -/
def Bound (es : List Entry) (address : Word) (position : Nat) : Prop :=
  ∃ e, es[position]? = some e ∧ e.body = .blank ∧ e.address = address

/-- All labels are bound. -/
structure Labelled (es : List Entry) (s : SymbolTable) : Prop where
  labels : ∀ row ∈ s.labels, Bound es row.2.address row.2.position
  anonymous : ∀ l ∈ s.anonymous, Bound es l.address l.position

/-- The entries are chained, all labels are bound, and no entry has words of its own. -/
structure WellLaid (es : List Entry) (s : SymbolTable) : Prop extends Labelled es s where
  chained : Chained 0 es
  own : ∀ e ∈ es, e.own = none

theorem Bound.append {es : List Entry} {address : Word} {position : Nat}
    (h : Bound es address position) (fs : List Entry) : Bound (es ++ fs) address position := by
  obtain ⟨e, he, hb, ha⟩ := h
  obtain ⟨hp, -⟩ := List.getElem?_eq_some_iff.mp he
  exact ⟨e, by rwa [List.getElem?_append_left hp], hb, ha⟩

theorem Labelled.mark {es : List Entry} {s t : SymbolTable} (h : Labelled es s)
    (hm : s.Marked t) : Labelled es t := by
  rw [hm.eq_with]
  exact ⟨h.labels, h.anonymous⟩

namespace Layout

variable {v : Session} {l l' : Layout} {i : Nat} {old new : Entry}

/-- A label is where its entry is after an entry has been replaced and the rest moved. -/
theorem replace_bound (new : Entry) (h : l.entries[i]? = some old)
    (hv : old.body.isVariable = true) :
    ∃ f : Nat → Int, (l.replace i old new).symbols = l.symbols.shiftBy f ∧
      ∀ address position, Bound l.entries.toList address position →
        Bound (l.replace i old new).entries.toList (address.move (f position)) position := by
  obtain ⟨f, hf⟩ := l.shifted_movedBy i old new
  refine ⟨f, by rw [replace_symbols, hf.symbols], ?_⟩
  rintro address position ⟨e, he, hb, rfl⟩
  refine ⟨e.moveBy (f position), ?_, hb, rfl⟩
  have hi : (l.entries.toList.take i).length = i := by
    obtain ⟨hi, -⟩ := Array.getElem?_eq_some_iff.mp h
    simp [Nat.le_of_lt hi]
  rw [replace_entries h]
  obtain hp | rfl | hp := Nat.lt_trichotomy position i
  · rw [List.getElem?_append_left (by omega), List.getElem?_take_of_lt hp, hf.before _ (by omega),
      Entry.moveBy_zero]
    exact he
  · -- An entry that is brought up to date has words and no label.
    obtain rfl : old = e := by simpa [h] using he
    simp [hb, Body.blank, Body.isVariable] at hv
  · obtain ⟨k, rfl⟩ : ∃ k, position = i + 1 + k := ⟨position - (i + 1), by omega⟩
    have hk : i + 1 + k - i = k + 1 := by omega
    rw [List.getElem?_append_right (by omega), hi, hk, List.getElem?_cons_succ]
    exact hf.entries k e (by rwa [List.getElem?_drop]) (by simp [hb, Body.blank])

theorem replace_labelled (new : Entry) (h : l.entries[i]? = some old)
    (hv : old.body.isVariable = true) (hl : Labelled l.entries.toList l.symbols) :
    Labelled (l.replace i old new).entries.toList (l.replace i old new).symbols := by
  obtain ⟨f, hf, hb⟩ := replace_bound new h hv
  constructor
  · rw [hf]
    intro row hr
    obtain ⟨row, hm, rfl⟩ := List.mem_map.mp hr
    exact hb _ _ (hl.labels row hm)
  · rw [hf]
    intro m hr
    obtain ⟨m, hm, rfl⟩ := List.mem_map.mp hr
    exact hb _ _ (hl.anonymous m hm)

theorem replace_gaps (h : l.entries[i]? = some old) (hv : old.body.isVariable = true)
    (hn : new.body.isVariable = true) (ha : new.address = old.address) (w : Word) :
    gaps w (l.replace i old new).entries.toList = gaps w l.entries.toList := by
  have hl : l.entries.toList[i]? = some old := by simpa using h
  have ne_origin {e : Entry} (he : e.body.isVariable = true) : e.body ≠ .origin := by
    intro ho
    simp [ho, Body.isVariable] at he
  rw [replace_entries h]
  conv_rhs => rw [eq_take_cons_drop hl]
  refine gaps_append (fun w => ?_) _ w
  simp only [gaps, ne_origin hv, ne_origin hn, if_false, ha]
  rw [shifted, ← Entry.limit_move ha, shiftEntries_gaps]

theorem refreshAt_labelled (h : l.refreshAt v i = .ok l')
    (hl : Labelled l.entries.toList l.symbols) : Labelled l'.entries.toList l'.symbols := by
  obtain ⟨-, rfl⟩ | ⟨e, -, -, rfl⟩ | ⟨e, new, s, he, hv, hr, rfl⟩ := refreshAt_cases h
  · exact hl
  · exact hl
  · obtain ⟨-, -, hm⟩ := Entry.refresh_cases hv hr
    exact replace_labelled (l := { l with symbols := s }) new he hv (hl.mark hm)

/-- No step of a pass changes the gaps. -/
theorem refreshAt_gaps (h : l.refreshAt v i = .ok l') (w : Word) :
    gaps w l'.entries.toList = gaps w l.entries.toList := by
  obtain ⟨-, rfl⟩ | ⟨e, -, -, rfl⟩ | ⟨e, new, s, he, hv, hr, rfl⟩ := refreshAt_cases h
  · rfl
  · rfl
  · obtain ⟨hn, hb, -⟩ := Entry.refresh_cases hv hr
    exact replace_gaps (l := { l with symbols := s }) he hv hb.isVariable (by rw [hn]) w

theorem Passes.labelled (h : Passes v l l') (hl : Labelled l.entries.toList l.symbols) :
    Labelled l'.entries.toList l'.symbols :=
  h.keeps (P := fun es s => Labelled es.toList s) (fun _ _ _ => refreshAt_labelled) hl

theorem Passes.gaps (h : Passes v l l') (w : Word) :
    Dcpu.gaps w l'.entries.toList = Dcpu.gaps w l.entries.toList :=
  h.keeps (P := fun es _ => Dcpu.gaps w es.toList = Dcpu.gaps w l.entries.toList)
    (fun _ _ _ hr hk => (refreshAt_gaps hr w).trans hk) rfl

end Layout

/-- Where the gaps are the same, chains are chains. -/
theorem Chained.of_gaps {w : Word} {es fs : List Entry} (h : Chained w es)
    (he : ∀ e ∈ es, e.CountsWords) (hf : ∀ f ∈ fs, f.CountsWords) (hg : gaps w fs = gaps w es) :
    Chained w fs := by
  rw [chained_iff_gaps hf, hg, ← chained_iff_gaps he]
  exact h

/-- What follows an entry has kept its distance to the room of that entry. -/
theorem Chained.address_of_gaps {w : Word} {es fs : List Entry} {k : Nat} {e f f' : Entry}
    (h : Chained w es) (hu : Updated es fs) (hg : gaps w fs = gaps w es) (he : es[k]? = some e)
    (hf : fs[k]? = some f) (hf' : fs[k + 1]? = some f') (ho : f'.body ≠ .origin) :
    f'.address = f.limit + (e.behind - e.limit) := by
  obtain ⟨e', he', hu'⟩ := hu.get_back hf'
  have ho' : e'.body ≠ .origin := by
    intro hb
    rw [hu'.eq_of_origin hb] at ho
    exact ho hb
  have hgap := getElem?_gaps_succ (w := w) hf hf'
  rw [hg, getElem?_gaps_succ he he', if_neg ho, if_neg ho'] at hgap
  have heq : e'.address - e.limit = f'.address - f.limit := by simpa using hgap
  rw [← h.address_succ he he' ho', heq]
  grind

/-- A change that updates the entries, keeps the gaps and binds all labels keeps a layout. -/
theorem WellLaid.of_gaps {es fs : List Entry} {s t : SymbolTable} (h : WellLaid es s)
    (hu : Updated es fs) (hg : gaps 0 fs = gaps 0 es) (hl : Labelled fs t) : WellLaid fs t := by
  have hown := hu.forall_own h.own
  refine ⟨hl, h.chained.of_gaps ?_ ?_ hg, hown⟩
  · exact fun e he => Entry.countsWords_of_own (h.own e he)
  · exact fun f hf => Entry.countsWords_of_own (hown f hf)

theorem Layout.refreshAt_wellLaid {v : Session} {l l' : Layout} {i : Nat}
    (h : l.refreshAt v i = .ok l') (hw : WellLaid l.entries.toList l.symbols) :
    WellLaid l'.entries.toList l'.symbols :=
  hw.of_gaps (refreshAt_updated h) (refreshAt_gaps h 0) (refreshAt_labelled h hw.toLabelled)

theorem Layout.Passes.wellLaid {v : Session} {l l' : Layout} (h : Passes v l l')
    (hw : WellLaid l.entries.toList l.symbols) : WellLaid l'.entries.toList l'.symbols :=
  hw.of_gaps h.updated (h.gaps 0) (h.labelled hw.toLabelled)

theorem AnonymousLabel.mem_insert {l m : AnonymousLabel} {ms : List AnonymousLabel}
    (h : m ∈ insert l ms) : m = l ∨ m ∈ ms := by
  induction ms with
  | nil => exact .inl (List.mem_singleton.mp h)
  | cons k ks ih =>
    unfold insert at h
    split at h
    · exact List.mem_cons.mp h
    split at h
    · obtain rfl | h := List.mem_cons.mp h
      · exact .inl rfl
      · exact .inr (List.mem_cons_of_mem _ h)
    · obtain rfl | h := List.mem_cons.mp h
      · exact .inr List.mem_cons_self
      · exact (ih h).imp_right (List.mem_cons_of_mem _)

namespace Draft

variable {v : Session} {d d' : Draft} {e : Entry}

/-- The entries so far are chained, the labels are bound, and the current address is behind the last
entry. -/
structure Laid (d : Draft) : Prop extends Labelled d.entries.toList d.symbols where
  chained : Chained 0 d.entries.toList
  behind : behindAll 0 d.entries.toList = d.address

/-- An entry may be pushed that stands at the current address or says where to go on. -/
theorem Laid.push_at (h : d.Laid) (he : e.body ≠ .origin → e.address = d.address) :
    ({ d with address := e.address }.push e).Laid := by
  obtain ⟨c, hp⟩ := ({ d with address := e.address } : Draft).push_eq e
  rw [hp]
  refine ⟨⟨fun row hr => ?_, fun l hl => ?_⟩, ?_, ?_⟩
  · rw [Array.toList_push]
    exact (h.labels row hr).append _
  · rw [Array.toList_push]
    exact (h.anonymous l hl).append _
  · simp only [Array.toList_push]
    exact chained_append.mpr ⟨h.chained, fun ho => (he ho).trans h.behind.symm, trivial⟩
  · rw [Array.toList_push, behindAll_append]
    rfl

theorem Laid.push (h : d.Laid) (he : e.address = d.address) : (d.push e).Laid := by
  have hp := h.push_at fun _ => he
  rwa [he] at hp

/-- The entry that is about to be pushed, with a label bound to it. -/
theorem bound_push (d : Draft) (hb : e.body = .blank) (ha : e.address = d.address) :
    Bound (d.push e).entries.toList d.address d.entries.size := by
  obtain ⟨c, hp⟩ := d.push_eq e
  rw [hp]
  exact ⟨{ e with caution := c }, by simp, hb, ha⟩

/-- A label may be added with the entry that it is bound to. -/
theorem Laid.push_bind {s : SymbolTable} (h : d.Laid) (hb : e.body = .blank)
    (ha : e.address = d.address)
    (hl : ∀ row ∈ s.labels, row ∈ d.symbols.labels ∨
      row.2.address = d.address ∧ row.2.position = d.entries.size)
    (hm : ∀ l ∈ s.anonymous, l ∈ d.symbols.anonymous ∨
      l.address = d.address ∧ l.position = d.entries.size) :
    ({ d with symbols := s }.push e).Laid := by
  have hw := h.push ha
  have hs := d.bound_push hb ha
  refine ⟨⟨fun row hr => ?_, fun l hr => ?_⟩, hw.chained, hw.behind⟩
  · obtain hr | ⟨hra, hrp⟩ := hl row hr
    · exact hw.labels row hr
    · rw [hra, hrp]
      exact hs
  · obtain hr | ⟨hra, hrp⟩ := hm l hr
    · exact hw.anonymous l hr
    · rw [hra, hrp]
      exact hs

theorem Step.laid (h : d.Step d') (hw : d.Laid) : d'.Laid := by
  cases h with
  | control h =>
    refine ⟨?_, ?_, ?_⟩
    · rw [h.entries, h.symbols]
      exact hw.toLabelled
    · rw [h.entries]
      exact hw.chained
    · rw [h.entries, h.address]
      exact hw.behind
  | mark h => exact ⟨hw.toLabelled.mark h, hw.chained, hw.behind⟩
  | equate h =>
    obtain ⟨-, -, rfl⟩ := SymbolTable.defineEquate_eq_ok.mp h
    exact ⟨⟨hw.labels, hw.anonymous⟩, hw.chained, hw.behind⟩
  | emit h _ => exact hw.push h
  | form h _ =>
    obtain ⟨hl, hc, hb⟩ := hw.push h
    exact ⟨hl, hc, hb⟩
  | jump h => exact hw.push_at fun ho => absurd h ho
  | label h ha hb =>
    obtain ⟨-, -, rfl⟩ := SymbolTable.defineLabel_eq_ok.mp h
    refine hw.push_bind hb ha (fun row hr => ?_) fun l hl => .inl hl
    obtain rfl | hr := List.mem_cons.mp hr
    · exact .inr ⟨rfl, rfl⟩
    · exact .inl hr
  | @anonymous feed _ _ ha hb =>
    have hf : ({ d with feed := feed } : Draft).Laid := ⟨hw.toLabelled, hw.chained, hw.behind⟩
    refine hf.push_bind hb ha (fun row hr => .inl hr) fun l hl => ?_
    obtain rfl | hl := AnonymousLabel.mem_insert hl
    · exact .inr ⟨rfl, rfl⟩
    · exact .inl hl

theorem Steps.laid (h : d.Steps d') (hw : d.Laid) : d'.Laid :=
  h.keeps (fun _ _ => Step.laid) hw

end Draft

/-- The number of words of the entries from `i` on and before `k`. -/
def wordsBetween (es : List Entry) (i k : Nat) : Nat :=
  (((es.take k).drop i).map fun e => e.output.length).sum

/-- None of the entries from `i` up to `k` is an origin. -/
def NoOrigin (es : List Entry) (i k : Nat) : Prop :=
  ∀ j e, i ≤ j → j ≤ k → es[j]? = some e → e.body ≠ .origin

/-- Where everything in a program has to be: entries behind the last origin at or before them or, if
there is none, behind the start of memory, and labels at their entries. Origins are the entries of
directives that have set the address. -/
structure Placed (es : List Entry) (s : SymbolTable) : Prop where
  behindOrigin {i k : Nat} {o e : Entry} : es[i]? = some o → o.body = .origin → i ≤ k →
    NoOrigin es (i + 1) k → es[k]? = some e →
    e.address.toNat = (o.address.toNat + wordsBetween es i k) % Word.count
  behindStart {k : Nat} {e : Entry} : NoOrigin es 0 k → es[k]? = some e →
    e.address.toNat = wordsBetween es 0 k % Word.count
  labels : ∀ key l, (key, l) ∈ s.labels →
    ∃ e, es[l.position]? = some e ∧ l.address = e.address
  anonymous : ∀ l ∈ s.anonymous, ∃ e, es[l.position]? = some e ∧ l.address = e.address

theorem wordsBetween_drop (es : List Entry) (i k : Nat) :
    wordsBetween es i k = wordsBetween (es.drop i) 0 (k - i) := by
  simp only [wordsBetween, List.drop_zero, List.drop_take, Nat.sub_zero]

/-- Entries without an origin among them stand one behind the other. -/
theorem address_of_chained {w : Word} {e f : Entry} {es : List Entry} {k : Nat}
    (h : Chained w (e :: es)) (hn : NoOrigin (e :: es) 1 k) (hf : (e :: es)[k]? = some f) :
    f.address = e.address + UInt16.ofNat (wordsBetween (e :: es) 0 k) := by
  induction k generalizing w e es with
  | zero =>
    obtain rfl : e = f := by simpa using hf
    simp [wordsBetween]
  | succ k ih =>
    cases es with
    | nil => simp at hf
    | cons g es =>
      have hg : g.address = e.behind := h.2.1 (hn 1 g (Nat.le_refl 1) (by omega) rfl)
      have hr : NoOrigin (g :: es) 1 k := by
        intro j x hj hjk hx
        exact hn (j + 1) x (by omega) (by omega) (by simpa using hx)
      have hw : wordsBetween (e :: g :: es) 0 (k + 1) = e.length + wordsBetween (g :: es) 0 k := by
        simp [wordsBetween, Entry.length_output]
      rw [ih h.2 hr (by simpa using hf), hg, hw, UInt16.ofNat_add, ← UInt16.add_assoc]
      rfl

theorem toNat_add_ofNat (w : Word) (n : Nat) :
    (w + UInt16.ofNat n).toNat = (w.toNat + n) % Word.count := by
  simp [Word.count, UInt16.toNat_add]

theorem Chained.drop {w : Word} {es : List Entry} (h : Chained w es) (i : Nat) :
    Chained (behindAll w (es.take i)) (es.drop i) := by
  rw [← List.take_append_drop i es, chained_append] at h
  exact h.2

theorem Chained.placed {es : List Entry} {s : SymbolTable} (h : Chained 0 es)
    (hl : Labelled es s) : Placed es s where
  behindOrigin {i k o e} ho _ hik hn he := by
    have hd : es.drop i = o :: es.drop (i + 1) := by
      obtain ⟨hi, rfl⟩ := List.getElem?_eq_some_iff.mp ho
      exact List.drop_eq_getElem_cons hi
    have hc := h.drop i
    have hr : NoOrigin (es.drop i) 1 (k - i) := by
      intro j x hj hjk hx
      rw [List.getElem?_drop] at hx
      exact hn (i + j) x (by omega) (by omega) hx
    have hf : (es.drop i)[k - i]? = some e := by
      rw [List.getElem?_drop]
      rwa [Nat.add_sub_cancel' hik]
    rw [hd] at hc hr hf
    rw [wordsBetween_drop es i k, hd, address_of_chained hc hr hf, toNat_add_ofNat]
  behindStart {k e} hn he := by
    cases es with
    | nil => simp at he
    | cons f es =>
      have hf : f.address = 0 := h.1 (hn 0 f (Nat.le_refl 0) (Nat.zero_le k) rfl)
      have hr : NoOrigin (f :: es) 1 k := fun j x hj => hn j x (Nat.zero_le j)
      rw [address_of_chained h hr he, toNat_add_ofNat, hf]
      simp
  labels key l hm := by
    obtain ⟨e, he, -, ha⟩ := hl.labels (key, l) hm
    exact ⟨e, he, ha.symm⟩
  anonymous l hm := by
    obtain ⟨e, he, -, ha⟩ := hl.anonymous l hm
    exact ⟨e, he, ha.symm⟩

/-- A table as it is given to an assembly. -/
def SymbolTable.OnlyEquates (s : SymbolTable) : Prop := s.labels = [] ∧ s.anonymous = []

theorem Session.start_laid {v : Session} (hs : v.symbols.OnlyEquates) (file source : Text) :
    (v.start file source).Laid := by
  refine ⟨⟨?_, ?_⟩, trivial, rfl⟩
  · intro row hr
    simp [start, hs.1] at hr
  · intro l hl
    simp [start, hs.2] at hl

namespace Draft

variable {v : Session} {steps : Nat} {file source : Text} {d : Draft}

theorem laid_of_readAll (hs : v.symbols.OnlyEquates)
    (h : (v.start file source).readAll v steps = .ok d) : d.Laid :=
  (readAll_steps h).laid (Session.start_laid hs file source)

theorem wellLaid_of_readAll (hv : v.hooks.plugins = []) (hs : v.symbols.OnlyEquates)
    (h : (v.start file source).readAll v steps = .ok d) :
    WellLaid d.entries.toList d.symbols :=
  ⟨(laid_of_readAll hs h).toLabelled, (laid_of_readAll hs h).chained, own_of_readAll hv h⟩

end Draft

/-- A plugin that gives words for an instruction gives as many as the instruction takes. -/
def Plugin.CountsWords (plugin : Plugin) : Prop :=
  ∀ c t e, plugin.claim c t = some e → e.CountsWords

section Samples

/-- A plugin that takes a line, with an entry that has this body and words of its own. -/
def Plugin.forLine (line : Text) (body : Body) (own : Option (List Word)) : Plugin where
  name := line
  claim c t :=
    if t = line then
      some { code := t, file := c.file, line := c.line, address := c.address, body := body, own := own }
    else none

theorem Plugin.forLine_claim {line t : Text} {body : Body} {own : Option (List Word)}
    {c : LineContext} {e : Entry} (h : (forLine line body own).claim c t = some e) :
    e.body = body ∧ e.own = own ∧ e.caution = none := by
  unfold forLine at h
  dsimp only at h
  split at h
  · obtain rfl := Option.some.inj h
    exact ⟨rfl, rfl, rfl⟩
  · nomatch h

/-- A session in which the line `SAVE` is the instruction `SET PUSH, A`, at first with other
words. -/
def Session.withSave (ws : List Word) : Session :=
  { Session.bare with
    hooks :=
      { plugins := [.forLine "SAVE".toList (.instruction ⟨1, ⟨0, none⟩, some ⟨0x18, none⟩, false⟩)
          (some ws)] } }

/-- A plugin that does not count: the line `SAVE` has two words until a pass gives it one, and what
follows stays behind both. -/
theorem layout_not_placed :
    ∃ a, (Session.withSave [0x0301, 0x0701]).run 9 [] "SAVE\n:end SET A, 1".toList = .ok a ∧
      a.fixedPoint = true ∧ a.words.length = 2 ∧
      a.symbols.label? "end".toList = some ⟨"end".toList, 2, 1⟩ ∧ ¬Placed a.entries a.symbols := by
  obtain ⟨a, ha, hp⟩ := exists_ok
    (x := (Session.withSave [0x0301, 0x0701]).run 9 [] "SAVE\n:end SET A, 1".toList)
    (p := fun a => a.fixedPoint && a.words.length == 2 &&
      a.symbols.label? "end".toList == some ⟨"end".toList, 2, 1⟩ &&
      a.entries.all (fun e => decide (e.body ≠ .origin)) &&
      a.entries[1]?.any (fun e => e.address == 2) && wordsBetween a.entries 0 1 == 1)
    (by decide +kernel)
  simp only [Bool.and_eq_true, beq_iff_eq, Option.any_eq_true, List.all_eq_true,
    decide_eq_true_eq] at hp
  obtain ⟨⟨⟨⟨⟨hfix, hwords⟩, hlabel⟩, horigin⟩, e, he, haddr⟩, hbetween⟩ := hp
  refine ⟨a, ha, hfix, hwords, hlabel, fun hplaced => ?_⟩
  have hat := hplaced.behindStart (fun j f _ _ hf => horigin f (List.mem_of_getElem? hf)) he
  rw [haddr, hbetween] at hat
  cases hat

end Samples

end Dcpu
