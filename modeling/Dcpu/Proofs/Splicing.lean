import Dcpu.Proofs.CommonLines
import Dcpu.Proofs.FirstPass

/-! Lines and entries that are put into a program at one place. -/
namespace Dcpu
open Answer

namespace Entry

/-- There is nothing to say about the entry. -/
structure IsSilent (e : Entry) : Prop where
  body : e.body = .blank
  own : e.own = none
  fault : e.fault = none
  caution : e.caution = none

theorem IsSilent.output {e : Entry} (h : e.IsSilent) : e.output = [] := by
  rw [Entry.output_of_own h.own, h.body]
  rfl

theorem IsSilent.length {e : Entry} (h : e.IsSilent) : e.length = 0 := by
  rw [← e.length_output, h.output]
  rfl

/-- What an entry says, wherever its line stands. -/
def content (e : Entry) : Text × EntryKind × List Word × Word × Option Fault × Option Caution :=
  (e.code, e.kind, e.output, e.address, e.fault, e.caution)

theorem Twin.content {p : Padding} {e e' : Entry} (h : e.Twin p e') : e'.content = e.content := by
  obtain ⟨line, root, rfl, -⟩ := h
  rfl

end Entry

/-- A number of lines after the line `line`, and a number of silent entries before the index `place`
of which something is known. -/
def Padding.insert (line place lines places : Nat) (Known : Entry → Prop)
    (hk : ∀ e delta, Known e → Known (e.moveBy delta)) : Padding where
  line k := if k ≤ line then k else k + lines
  place k := if k < place then k else k + places
  IsSpacer e := e.IsSilent ∧ Known e
  line_lt h := by
    split
    · split <;> omega
    · split <;> omega
  place_lt h := by
    split
    · split <;> omega
    · split <;> omega
  blank h := h.1.body
  own h := h.1.own
  spacer_moveBy delta h := ⟨⟨h.1.body, h.1.own, h.1.fault, h.1.caution⟩, hk _ delta h.2⟩

namespace Padding

variable {line place lines places k : Nat} {Known : Entry → Prop}
  {hk : ∀ e delta, Known e → Known (e.moveBy delta)}

theorem insert_line_of_lt (h : line < k) :
    (insert line place lines places Known hk).line k = k + lines :=
  if_neg (Nat.not_le.mpr h)

theorem insert_place_of_le (h : place ≤ k) :
    (insert line place lines places Known hk).place k = k + places :=
  if_neg (Nat.not_lt.mpr h)

end Padding

namespace Padded

variable {p : Padding} {i j n : Nat} {es es' ss : List Entry}

theorem of_spacers (hs : ∀ s ∈ ss, p.IsSpacer s) (h : ∀ k, p.place (i + k) = j + ss.length + k) :
    Padded p i j [] ss := by
  induction ss generalizing j with
  | nil => exact .nil h
  | cons s ss ih =>
    refine .spacer (hs s List.mem_cons_self)
      (ih (fun x hx => hs x (List.mem_cons_of_mem _ hx)) fun k => ?_)
    rw [h, List.length_cons]
    omega

/-- Entries without padding, and spacers behind them. -/
theorem append_spacers (h : Padded .none i j es es') (hs : ∀ s ∈ ss, p.IsSpacer s)
    (hp : ∀ k < i + es.length, p.place k = k)
    (hend : ∀ k, p.place (i + es.length + k) = i + es.length + ss.length + k)
    (hr : ∀ e ∈ es, e.body.isVariable = true → p.line e.root = e.root) :
    Padded p i j es (es' ++ ss) := by
  induction h with
  | @nil i j hij =>
    obtain rfl : i = j := hij 0
    exact of_spacers hs hend
  | @twin i j e e' es es' hij he _ ih =>
    obtain rfl : i = j := hij
    have hlen : i + 1 + es.length = i + (es.length + 1) := by omega
    obtain ⟨line, root, rfl, hroot⟩ := he
    refine .twin (hp i (by simp)) ⟨line, root, rfl, fun hv => ?_⟩ (ih ?_ ?_ ?_)
    · rw [hr e List.mem_cons_self hv]
      exact hroot hv
    · rw [hlen]
      exact hp
    · rw [hlen]
      exact hend
    · exact fun x hx => hr x (List.mem_cons_of_mem _ hx)
  | spacer he => exact he.elim

theorem length_le (h : Padded p i j es es') : es.length ≤ es'.length := by
  induction h with
  | nil => exact Nat.le_refl _
  | twin _ _ _ ih => exact Nat.succ_le_succ ih
  | spacer _ _ ih => exact Nat.le_succ_of_le ih

/-- Without spacers the entries say the same. -/
theorem map_content (h : Padded p i j es es') (hl : es'.length = es.length) :
    es'.map Entry.content = es.map Entry.content := by
  induction h with
  | nil => rfl
  | twin _ he _ ih => rw [List.map_cons, List.map_cons, he.content, ih (Nat.succ.inj hl)]
  | @spacer _ _ e es es' _ hs _ =>
    have := hs.length_le
    rw [List.length_cons] at hl
    omega

/-- With one spacer the other entries say the same. -/
theorem exists_spacer (h : Padded p i j es es') (hl : es'.length = es.length + 1) :
    ∃ before e after, es' = before ++ e :: after ∧ p.IsSpacer e ∧
      (before ++ after).map Entry.content = es.map Entry.content := by
  induction h with
  | nil => cases hl
  | @twin _ _ e e' es es' _ he _ ih =>
    obtain ⟨before, s, after, rfl, hs, hm⟩ := ih (Nat.succ.inj hl)
    refine ⟨e' :: before, s, after, rfl, hs, ?_⟩
    rw [List.cons_append, List.map_cons, List.map_cons, he.content, hm]
  | @spacer _ _ e es es' he hs _ =>
    exact ⟨[], e, es', rfl, he, hs.map_content (Nat.succ.inj hl)⟩

/-- Where all padding comes first, it is followed by entries that say the same. -/
theorem exists_leading (h : Padded p i j es es') (hp : ∀ k, p.place (i + k) = j + n + k) :
    ∃ pre post, es' = pre ++ post ∧ (∀ e ∈ pre, p.IsSpacer e) ∧
      post.map Entry.content = es.map Entry.content := by
  induction n generalizing j es' with
  | zero =>
    have hlen := h.place_length
    rw [hp] at hlen
    exact ⟨[], es', rfl, fun e he => absurd he List.not_mem_nil, h.map_content (by omega)⟩
  | succ n ih =>
    have hi : p.place i = j + (n + 1) := hp 0
    cases h with
    | nil h =>
      have hj : p.place i = j := h 0
      omega
    | twin hj => omega
    | @spacer _ _ e _ es' he hs =>
      obtain ⟨pre, post, rfl, hpre, hpost⟩ := ih hs fun k => by rw [hp]; omega
      refine ⟨e :: pre, post, rfl, ?_, hpost⟩
      intro x hx
      rcases List.mem_cons.mp hx with rfl | hx
      · exact he
      · exact hpre x hx

end Padded

/-- The same words and symbols, found in the same number of passes. -/
structure Assembly.Agrees (a a' : Assembly) : Prop where
  words : a'.words = a.words
  equates : a'.symbols.equates = a.symbols.equates
  labels : a'.symbols.labels.map (fun row => (row.1, row.2.name, row.2.address)) =
    a.symbols.labels.map fun row => (row.1, row.2.name, row.2.address)
  anonymous : a'.symbols.anonymous.map AnonymousLabel.address =
    a.symbols.anonymous.map AnonymousLabel.address
  passes : a'.passes = a.passes
  fixedPoint : a'.fixedPoint = a.fixedPoint

theorem Assembly.Beside.agrees {p : Padding} {a a' : Assembly} (h : a.Beside p a') :
    a.Agrees a' where
  words := h.entries.flatMap_output
  equates := by
    rw [h.symbols]
    rfl
  labels := by
    rw [h.symbols]
    exact List.map_map
  anonymous := by
    rw [h.symbols]
    exact List.map_map
  passes := h.passes
  fixedPoint := h.fixedPoint

namespace Draft

variable {v : Session} {p : Padding} {F G : Feed → Feed → Prop} {x y : Draft}

/-- Everything that the symbols refer to has been read. -/
structure Settled (d : Draft) : Prop where
  labels : ∀ row ∈ d.symbols.labels, row.2.position < d.entries.size
  anonymous : ∀ l ∈ d.symbols.anonymous, l.root ≤ d.feed.root ∧ l.position < d.entries.size

theorem Settled.of_reads (hv : v.hooks.plugins = []) (hs : v.symbols.OnlyEquates)
    {file source : Text} (h : Relation.ReflTransGen (ReadsLine v) (v.start file source) x) :
    x.Settled := by
  have hw := (Steps.of_reads h).laid (Session.start_laid hs file source)
  have hp := (Advances.of_reads h).packed hv (packed_start hs)
  have hlt {address : Word} {k : Nat} (hb : Bound x.entries.toList address k) :
      k < x.entries.size := by
    obtain ⟨e, he, -⟩ := hb
    obtain ⟨hk, -⟩ := List.getElem?_eq_some_iff.mp he
    simpa using hk
  exact ⟨fun row hrow => hlt (hw.labels row hrow),
    fun l hl => ⟨hp.anonymous l hl, hlt (hw.anonymous l hl)⟩⟩

/-- Adding a silent entry changes nothing else. -/
theorem push_silent (d : Draft) {e : Entry} (h : e.IsSilent) :
    d.push e = { d with entries := d.entries.push e } := by
  have hlt := d.address.toNat_lt
  have hsize : e.size = 0 := by
    unfold Entry.size
    rw [h.length]
    rfl
  have hw : ¬ Word.count < d.address.toNat + e.length := by
    rw [h.length]
    unfold Word.count
    omega
  simp only [push, hw, if_false, hsize]
  rw [UInt16.add_zero]

/-- Programs that have been the same so far go on beside each other, the second one after some lines
and silent entries of its own. -/
theorem Beside.insert {Known : Entry → Prop} {hk : ∀ e delta, Known e → Known (e.moveBy delta)}
    (h : y.Beside .none F x) (hroot : x.feed.root = y.feed.root) (hset : x.Settled)
    {f g : Feed} (hf : f.root = y.feed.root) (lines : Nat) {entries : Array Entry}
    {ss : List Entry} (hentries : entries.toList = x.entries.toList ++ ss)
    (hs : ∀ s ∈ ss, s.IsSilent ∧ Known s)
    (hG : G f g) :
    Beside (.insert y.feed.root y.entries.size lines ss.length Known hk) G { y with feed := f }
      { x with feed := g, entries := entries } := by
  have hsize : x.entries.size = y.entries.size := h.place_size.symm
  have hsymbols : x.symbols = y.symbols := h.symbols.trans y.symbols.renumber_none
  refine { h with feed := hG, symbols := ?_, entries := ?_, rooted := ?_ }
  · dsimp only
    rw [SymbolTable.renumber_eq_self]
    · exact hsymbols
    · intro row hrow
      have hlt := hset.labels row (by rwa [hsymbols])
      exact if_pos (by omega)
    · intro l hl
      obtain ⟨hr, hlt⟩ := hset.anonymous l (by rwa [hsymbols])
      exact ⟨if_pos (by omega), if_pos (by omega)⟩
  · dsimp only
    rw [hentries]
    refine h.entries.append_spacers hs (fun k hk => ?_) (fun k => ?_) fun e he hv => ?_
    · exact if_pos (by simpa using hk)
    · simp only [Nat.zero_add, Array.length_toList]
      rw [Padding.insert_place_of_le (Nat.le_add_right _ k)]
      omega
    · exact if_pos (h.rooted e he hv)
  · intro e he hv
    exact Nat.le_trans (h.rooted e he hv) (Nat.le_of_eq hf.symm)

end Draft

end Dcpu
