import Dcpu.Proofs.Rounds
import Dcpu.Proofs.Scanning
import Mathlib.Algebra.GroupWithZero.Nat

/-! What a fixed point is worth. A pass that changes nothing has evaluated every expression against
the symbols that the assembly ends with, so the words are the current ones. -/
namespace Dcpu
open Answer

section Form

/-- The form of literals that an entry asks for. -/
def Entry.form? (e : Entry) : Option Bool :=
  match e.body with
  | .form long => some long
  | _ => none

/-- Whether literals are long at the entry `k`: the last form before it counts, and without one the
settings do. -/
def longAt (long : Bool) (es : List Entry) (k : Nat) : Bool :=
  ((es.take k).filterMap Entry.form?).getLast?.getD long

theorem Entry.longAfter_eq (e : Entry) (long : Bool) : e.longAfter long = e.form?.getD long := by
  unfold longAfter form?
  cases e.body <;> rfl

theorem Entry.form?_of_variable {e : Entry} (h : e.body.isVariable = true) : e.form? = none := by
  unfold form?
  split
  next hb => simp [hb, Body.isVariable] at h
  next => rfl

theorem longAt_succ (long : Bool) (es : List Entry) (k : Nat) :
    longAt long es (k + 1) = (es[k]?.bind Entry.form?).getD (longAt long es k) := by
  unfold longAt
  rw [List.take_add_one, List.filterMap_append]
  cases es[k]? with
  | none => simp
  | some e => cases he : e.form? <;> simp [he]

theorem longAt_of_take_eq {es fs : List Entry} {k : Nat} (long : Bool)
    (h : es.take k = fs.take k) : longAt long es k = longAt long fs k := by
  rw [longAt, longAt, h]

end Form

namespace Layout

variable {v : Session} {l l' : Layout} {i : Nat}

/-- The entries before `n` are as they come out of an evaluation against the symbols, and the form
of literals is the one that they leave. -/
structure UpToDate (v : Session) (l : Layout) (n : Nat) : Prop where
  long : l.long = longAt v.settings.longLiterals l.entries.toList n
  entries : ∀ (k : Nat) (e : Entry), k < n → l.entries.toList[k]? = some e →
    e.body.isVariable = true → ∃ s : SymbolTable, s.Marked l.symbols ∧
      e.body.IsEvaluated v s e.position (longAt v.settings.longLiterals l.entries.toList k) ∧
      e.ShowsValues v s ∧ (e.fault = none → ∀ x ∈ e.body.texts, Answers v s e.position x true)

/-- An entry that takes the same room comes in the place of another one, and nothing moves. -/
theorem replace_of_room_eq {old new : Entry} (h : new.room = old.room) :
    l.replace i old new =
      { l with
        entries := l.entries.setIfInBounds i new
        changed := l.changed || new.output != old.output } := by
  simp [replace, h]

/-- A replacement that counts as no change is one in place. -/
theorem replace_quiet {old new : Entry} (h : (l.replace i old new).changed = false) :
    l.changed = false ∧ new.room = old.room := by
  unfold replace at h
  dsimp only at h
  split at h
  next hd => exact ⟨(Bool.or_eq_false_iff.mp h).1, by omega⟩
  next => nomatch h

theorem UpToDate.skip (hu : l.UpToDate v i) (hl : l' = { l with long := l'.long })
    (hlong : l'.long = longAt v.settings.longLiterals l.entries.toList (i + 1))
    (he : ∀ e, l.entries.toList[i]? = some e → e.body.isVariable = false) :
    l'.UpToDate v (i + 1) := by
  rw [hl]
  refine ⟨hlong, fun k e hk hke hv => ?_⟩
  obtain hk | rfl := Nat.lt_succ_iff_lt_or_eq.mp hk
  · exact hu.entries k e hk hke hv
  · simp [he e hke] at hv

/-- An entry is brought up to date in place. -/
theorem UpToDate.set {e new : Entry} {s : SymbolTable} (hu : l.UpToDate v i)
    (he : l.entries[i]? = some e) (hv : e.body.isVariable = true)
    (hr : e.refresh v l.symbols l.long = .ok (new, s)) :
    ({ l with symbols := s, entries := l.entries.setIfInBounds i new } : Layout).UpToDate v
      (i + 1) := by
  obtain ⟨hn, hb, hm⟩ := Entry.refresh_cases hv hr
  obtain ⟨hi, -⟩ := Array.getElem?_eq_some_iff.mp he
  have hnew : (l.entries.toList.set i new)[i]? = some new := by
    rw [List.getElem?_set_self (by simpa using hi)]
  have hlong (k : Nat) (hk : k ≤ i) :
      longAt v.settings.longLiterals (l.entries.toList.set i new) k =
      longAt v.settings.longLiterals l.entries.toList k :=
    longAt_of_take_eq _ (List.take_set_of_le hk)
  refine ⟨?_, fun k f hk hf hfv => ?_⟩
  · simp only [Array.toList_setIfInBounds, longAt_succ, hnew, Option.bind_some,
      Entry.form?_of_variable hb.isVariable, Option.getD_none, hlong i (Nat.le_refl i)]
    exact hu.long
  · simp only [Array.toList_setIfInBounds] at hf ⊢
    rw [hlong k (Nat.lt_succ_iff.mp hk)]
    obtain hk | rfl := Nat.lt_succ_iff_lt_or_eq.mp hk
    · rw [List.getElem?_set_ne (by omega)] at hf
      obtain ⟨t, ht, hte⟩ := hu.entries k f hk hf hfv
      exact ⟨t, ht.trans hm, hte⟩
    · obtain rfl := Option.some.inj (hnew.symm.trans hf)
      have hp : new.position = e.position := by rw [hn]; rfl
      rw [hp, ← hu.long]
      exact ⟨l.symbols, hm, hb, Entry.refresh_showsValues hr, Entry.answers_of_refresh hr⟩

/-- A step that moves nothing brings the next entry up to date. -/
theorem refreshAt_upToDate (h : l.refreshAt v i = .ok l')
    (hin : ∀ e e', l.entries[i]? = some e → l'.entries[i]? = some e' → e'.room = e.room)
    (hu : l.UpToDate v i) : l'.UpToDate v (i + 1) := by
  obtain ⟨he, rfl⟩ | ⟨e, he, hv, rfl⟩ | ⟨e, new, s, he, hv, hr, rfl⟩ := refreshAt_cases h
  · refine hu.skip rfl ?_ fun e he' => ?_
    · rw [longAt_succ, Array.getElem?_toList, he]
      exact hu.long
    · simp [he] at he'
  · refine hu.skip rfl ?_ fun f hf => ?_
    · rw [longAt_succ, Array.getElem?_toList, he, ← hu.long]
      exact e.longAfter_eq l.long
    · obtain rfl : e = f := by simpa [he] using hf
      exact hv
  · have hl := hin e new he (replace_getElem?_self (l := { l with symbols := s }) he new)
    have hset := hu.set he hv hr
    rw [replace_of_room_eq hl]
    exact ⟨hset.long, hset.entries⟩

theorem refreshAt_room_eq (h : l.refreshAt v i = .ok l') (hc : l'.changed = false)
    {e e' : Entry} (he : l.entries[i]? = some e) (he' : l'.entries[i]? = some e') :
    e'.room = e.room := by
  obtain ⟨-, rfl⟩ | ⟨f, -, -, rfl⟩ | ⟨f, new, s, hf, hv, hr, rfl⟩ := refreshAt_cases h
  · obtain rfl := Option.some.inj (he.symm.trans he')
    rfl
  · obtain rfl := Option.some.inj (he.symm.trans he')
    rfl
  · obtain rfl := Option.some.inj (he.symm.trans hf)
    rw [replace_getElem?_self (l := { l with symbols := s }) he new] at he'
    obtain rfl := Option.some.inj he'
    exact (replace_quiet hc).2

theorem refreshAt_changed (h : l.refreshAt v i = .ok l') (hc : l'.changed = false) :
    l.changed = false := by
  obtain ⟨-, rfl⟩ | ⟨e, -, -, rfl⟩ | ⟨e, new, s, -, -, -, rfl⟩ := refreshAt_cases h
  · exact hc
  · exact hc
  · exact (replace_quiet hc).1

/-- After a pass without a change all entries are up to date. -/
theorem pass_upToDate (h : l.pass v = .ok l') (hc : l'.changed = false) :
    l'.UpToDate v l.entries.size := by
  unfold pass at h
  refine foldlM_range_keeps (P := fun i k => k.changed = false → k.UpToDate v i) ?_ ?_ h hc
  · intro i k k' hk hr hk'
    refine refreshAt_upToDate hr (fun e e' he he' => ?_) (hk (refreshAt_changed hr hk'))
    exact refreshAt_room_eq hr hk' he he'
  · intro _
    exact ⟨by simp [longAt], fun k _ hk => absurd hk (Nat.not_lt_zero k)⟩

end Layout

theorem toNat_field {bits : Word} {n : Nat} (h : (((1 : Word) <<< bits) - 1).toNat = 2 ^ n - 1)
    (code : UInt8) : (field bits code).toNat = code.toNat % 2 ^ n := by
  rw [field, UInt16.toNat_and, h, Nat.and_two_pow_sub_one_eq_mod]
  rfl

theorem toNat_field_five (code : UInt8) : (field 5 code).toNat = code.toNat % 32 :=
  toNat_field (n := 5) (by decide) code

theorem toNat_field_six (code : UInt8) : (field 6 code).toNat = code.toNat % 64 :=
  toNat_field (n := 6) (by decide) code

/-- The six bits of operand A are the high end of the word, below them are ten others. -/
theorem shiftRight_or_ten {low a : Word} (hl : low.toNat < 1024) (ha : a.toNat < 64) :
    (low ||| (a <<< 10)) >>> 10 = a := by
  apply UInt16.toNat.inj
  have hs : (a <<< 10).toNat = a.toNat <<< 10 := by
    rw [UInt16.toNat_shiftLeft]
    simp [Nat.shiftLeft_eq]
    omega
  rw [UInt16.toNat_shiftRight, UInt16.toNat_or, hs]
  have h10 : (10 : Word).toNat % 16 = 10 := by decide
  rw [h10, Nat.shiftRight_or_distrib, Nat.shiftLeft_shiftRight, Nat.shiftRight_eq_div_pow low.toNat,
    Nat.div_eq_of_lt hl, Nat.zero_or]

theorem basicWord_high (opcode b a : UInt8) : basicWord opcode b a >>> 10 = field 6 a := by
  have ho := toNat_field_five opcode
  have hb := toNat_field_five b
  have ha := toNat_field_six a
  refine shiftRight_or_ten ?_ (by omega)
  rw [UInt16.toNat_or, UInt16.toNat_shiftLeft]
  refine Nat.or_lt_two_pow (n := 10) (by omega) ?_
  simp [Nat.shiftLeft_eq]
  omega

theorem nonBasicWord_high (opcode a : UInt8) : nonBasicWord opcode a >>> 10 = field 6 a := by
  have ho := toNat_field_five opcode
  have ha := toNat_field_six a
  refine shiftRight_or_ten ?_ (by omega)
  rw [UInt16.toNat_shiftLeft]
  simp [Nat.shiftLeft_eq]
  omega

/-- The text has this value against the symbols, whatever names are referenced. -/
def HasValue (v : Session) (s : SymbolTable) (p : Position) (text : Text) (w : Word) : Prop :=
  ∀ names : NameSet, ∃ r, Expr.eval (v.context { s with referenced := names } p) text = .ok r ∧
    r.ok = true ∧ r.value = w

/-- No function that the text calls looks at the names that are referenced. -/
def ReadsNoMarks (v : Session) (s : SymbolTable) (p : Position) (text : Text) : Prop :=
  ∀ f arg names, Expr.Calls (v.context s p) text f arg →
    f arg { s with referenced := names } = f arg s

theorem ReadsNoMarks.eval_eq {v : Session} {s : SymbolTable} {p : Position} {text : Text}
    (h : ReadsNoMarks v s p text) (names : NameSet) :
    Expr.eval (v.context { s with referenced := names } p) text =
      Expr.eval (v.context s p) text :=
  Expr.eval_congr rfl (fun _ => rfl) fun f arg ha => h f arg names ha

/-- Wherever the text is evaluated, no function that it calls looks at the names that are
referenced. -/
def IgnoresMarks (v : Session) (text : Text) : Prop := ∀ s p, ReadsNoMarks v s p text

/-- The only standard function cannot be called without an `r`. -/
theorem ignoresMarks_of_standard {v : Session} {text : Text}
    (hv : v.hooks.functions = [("isref".toList, Function.isReferenced)])
    (h : 'r' ∉ Text.lower text) : IgnoresMarks v text := by
  intro s p f arg names hc
  obtain ⟨name, hf, hm⟩ := hc.exists_spelled
  have hname : Text.lower name = "isref".toList := by
    rw [Hooks.function?, hv, List.lookup_cons] at hf
    split at hf
    next he => exact eq_of_beq he
    next => simp at hf
  obtain ⟨ch, hch, hlow⟩ : ∃ ch ∈ name, ch.toLower = 'r' := by
    apply List.mem_map.mp
    change 'r' ∈ Text.lower name
    rw [hname]
    decide
  have hd : ch.isDigit = false := by
    rw [← Bool.not_eq_true]
    intro hd
    rw [Text.toLower_of_isDigit hd] at hlow
    simp [hlow] at hd
  exact absurd (List.mem_map.mpr ⟨ch, hm ch hch hd, hlow⟩) h

/-- One evaluation tells the value if no function that it calls looks at the referenced names. -/
theorem hasValue_of_eval {v : Session} {s : SymbolTable} {p : Position} {text : Text} {r : Result}
    (h : Expr.eval (v.context s p) text = .ok r) (hok : r.ok = true)
    (calls : ReadsNoMarks v s p text) : HasValue v s p text r.value := by
  intro names
  refine ⟨r, ?_, hok, rfl⟩
  rw [calls.eval_eq]
  exact h

section Values

variable {v : Session} {s t u : SymbolTable} {p : Position} {text : Text} {w value : Word}

theorem HasValue.of_marked (h : HasValue v t p text w) (ht : s.Marked t) (hu : s.Marked u) :
    ∃ r, Expr.eval (v.context u p) text = .ok r ∧ r.ok = true ∧ r.value = w := by
  have hut : u = { t with referenced := u.referenced } := by
    rw [ht.eq_with]
    exact hu.eq_with
  rw [hut]
  exact h u.referenced

/-- What has been evaluated before the last marks comes to the same in the end. -/
theorem Answers.exists_eval {ok : Bool} (h : Answers v s p text ok) (ht : s.Marked t)
    (hn : ReadsNoMarks v t p text) :
    ∃ r, Expr.eval (v.context t p) text = .ok r ∧ r.ok = ok := by
  obtain ⟨u, r, hu, hr, hok⟩ := h
  have hut : u = { t with referenced := u.referenced } := by
    rw [ht.eq_with]
    exact hu.eq_with
  rw [hut, hn.eval_eq] at hr
  exact ⟨r, hr, hok⟩

theorem Evaluated.eq_of_hasValue {ok : Bool} (he : Evaluated v u p text value ok)
    (h : HasValue v t p text w) (ht : s.Marked t) (hu : s.Marked u) : ok = true ∧ value = w := by
  obtain ⟨r, hr, hok, hv⟩ := h.of_marked ht hu
  obtain ⟨r', hr', rfl, hv'⟩ := he
  obtain rfl := Except.ok.inj (hr.symm.trans hr')
  exact ⟨hok, (hv' hok).trans hv⟩

end Values

namespace Instruction

variable {v : Session} {s t : SymbolTable} {p : Position} {long : Bool} {i : Instruction}

/-- The words of the operands that follow the instruction word. -/
def wordsA (i : Instruction) : List Word := if i.packed then [] else i.a.trailing

def wordsB (i : Instruction) : List Word := i.b.toList.flatMap Operand.trailing

theorem encode_eq (i : Instruction) : i.encode = i.head :: (i.wordsA ++ i.wordsB) := rfl

/-- The code of operand A is the high end of the instruction word. -/
theorem head_high (i : Instruction) : i.head >>> 10 = field 6 i.codeA := by
  unfold head
  split
  · exact basicWord_high ..
  · exact nonBasicWord_high ..

/-- A literal of operand A with this value is part of the instruction word. -/
def Inline (i : Instruction) (long : Bool) (w : Word) : Prop :=
  i.a.code = nextWordCode ∧ (w ≤ 30 ∨ w = 0xFFFF) ∧ long = false

theorem packedCode?_eq_some {w : Word} (h : w ≤ 30 ∨ w = 0xFFFF) :
    ∃ code, packedCode? w = some code ∧ field 6 code = if w = 0xFFFF then 0x20 else 0x21 + w := by
  by_cases hw : w = 0xFFFF
  · subst hw
    exact ⟨0x20, by decide, by decide⟩
  · have hle : w ≤ 30 := h.resolve_right hw
    refine ⟨0x21 + w.toUInt8, by simp [packedCode?, hw, hle], ?_⟩
    rw [if_neg hw]
    apply UInt16.toNat.inj
    have hn : w.toNat ≤ 30 := hle
    rw [toNat_field_six]
    simp only [UInt8.toNat_add, UInt16.toNat_add, UInt16.toNat_toUInt8]
    simp
    omega

theorem packedCode?_isSome_iff {w : Word} :
    (packedCode? w).isSome = true ↔ w ≤ 30 ∨ w = 0xFFFF := by
  unfold packedCode?
  split
  next h => simp [h]
  next h =>
    split
    next hle => simp [hle]
    next hle => simp [h, hle]

end Instruction

namespace Instruction

variable {v : Session} {s t : SymbolTable} {p : Position} {long : Bool} {i : Instruction} {w : Word}
  {l : Literal}

theorem IsEvaluated.valueB_eq (hi : i.IsEvaluated v s p long) (ht : s.Marked t) {b : Operand}
    (hb : i.b = some b) (hl : b.literal = some l) (hw : HasValue v t p l.text w) :
    l.value = w := by
  obtain ⟨-, u, -, hu, hbs, -⟩ := hi
  obtain ⟨okB, heb⟩ := hbs b hb
  exact ((heb l hl).eq_of_hasValue hw ht hu).2

theorem IsEvaluated.wordsB_eq (hi : i.IsEvaluated v s p long) (ht : s.Marked t) {b : Operand}
    (hb : i.b = some b) (hl : b.literal = some l) (hw : HasValue v t p l.text w) :
    i.wordsB = [w] := by
  have hv := hi.valueB_eq ht hb hl hw
  simp [wordsB, hb, Operand.trailing, hl, hv]

/-- The literal of operand A has its value, and is packed if that can be. -/
theorem IsEvaluated.packed_iff (hi : i.IsEvaluated v s p long) (ht : s.Marked t)
    (hl : i.a.literal = some l) (hw : HasValue v t p l.text w) :
    l.value = w ∧ (i.packed = true ↔ i.Inline long w) := by
  obtain ⟨ok, u, hea, hu, -, hp⟩ := hi
  obtain ⟨rfl, hv⟩ := (hea l hl).eq_of_hasValue hw ht (.refl s)
  refine ⟨hv, ?_⟩
  have hf : i.a.fitsPacked = true ↔ w ≤ 30 ∨ w = 0xFFFF := by
    rw [← packedCode?_isSome_iff]
    simp [Operand.fitsPacked, hl, hv]
  rw [hp]
  simp only [Bool.and_eq_true, hf, Inline, beq_iff_eq, Bool.not_eq_true', true_and]
  tauto

theorem IsEvaluated.encode_inline (hi : i.IsEvaluated v s p long) (ht : s.Marked t)
    (hl : i.a.literal = some l) (hw : HasValue v t p l.text w) (h : i.Inline long w) :
    i.encode = i.head :: i.wordsB ∧
      i.head >>> 10 = if w = 0xFFFF then 0x20 else 0x21 + w := by
  obtain ⟨hv, hp⟩ := hi.packed_iff ht hl hw
  have hp := hp.mpr h
  obtain ⟨code, hc, hf⟩ := packedCode?_eq_some h.2.1
  refine ⟨by simp [encode_eq, wordsA, hp], ?_⟩
  rw [head_high, ← hf]
  simp [codeA, hp, hl, hv, hc]

theorem IsEvaluated.encode_long (hi : i.IsEvaluated v s p long) (ht : s.Marked t)
    (hl : i.a.literal = some l) (hw : HasValue v t p l.text w) (h : ¬i.Inline long w) :
    i.encode = i.head :: w :: i.wordsB ∧ i.head >>> 10 = field 6 i.a.code := by
  obtain ⟨hv, hp⟩ := hi.packed_iff ht hl hw
  have hp : ¬i.packed = true := fun hq => h (hp.mp hq)
  refine ⟨by simp [encode_eq, wordsA, hp, Operand.trailing, hl, hv], ?_⟩
  rw [head_high]
  simp [codeA, hp]

end Instruction

/-- A deferred word has its value, if there is a word. -/
theorem Entry.ShowsValues.word_eq {v : Session} {s t : SymbolTable} {e : Entry}
    {cells : List Cell} {j : Nat} {c : Cell} {x : Text} {w : Word} (he : e.ShowsValues v s)
    (ht : s.Marked t) (hb : e.body = .data cells) (hj : cells[j]? = some c)
    (hx : c.deferred = some x) (hw : HasValue v t e.position x w) (hlt : j < e.output.length) :
    e.output[j]? = some w := by
  simp only [ShowsValues, hb] at he
  have hget : e.output[j]? = some e.output[j] := List.getElem?_eq_getElem hlt
  obtain ⟨u, ok, hu, hev⟩ := he j c x _ hj hx hget
  rw [hget, (hev.eq_of_hasValue hw ht hu).2]

/-- At a fixed point all entries are up to date with the symbols of the assembly. -/
theorem Session.exists_upToDate {v : Session} {steps : Nat} {file source : Text} {a : Assembly}
    (h : v.run steps file source = .ok a) (hf : a.fixedPoint = true) :
    ∃ l : Layout, a.entries = l.entries.toList ∧ a.symbols = l.symbols ∧
      l.UpToDate v l.entries.size := by
  obtain ⟨d, l, -, -, hae, has, hfix⟩ := Session.run_passes h
  obtain ⟨m, -, hm, hc⟩ := hfix hf
  have hlen : m.entries.toList.length = l.entries.toList.length :=
    (Layout.Passes.updated (.single hm)).length_eq
  have hu := Layout.pass_upToDate hm hc
  simp only [Array.length_toList] at hlen
  rw [hlen] at hu
  exact ⟨l, hae, has, hu⟩

theorem Session.run_upToDate {v : Session} {steps : Nat} {file source : Text} {a : Assembly}
    (h : v.run steps file source = .ok a) (hf : a.fixedPoint = true) {k : Nat} {e : Entry}
    (he : a.entries[k]? = some e) (hv : e.body.isVariable = true) :
    ∃ s : SymbolTable, s.Marked a.symbols ∧
      e.body.IsEvaluated v s e.position (longAt v.settings.longLiterals a.entries k) ∧
      e.ShowsValues v s := by
  obtain ⟨l, hae, has, hu⟩ := Session.exists_upToDate h hf
  rw [hae] at he ⊢
  rw [has]
  have hk : k < l.entries.size := (List.getElem?_eq_some_iff.mp he).1
  obtain ⟨s, hs, hev, hshows, -⟩ := hu.entries k e hk he hv
  exact ⟨s, hs, hev, hshows⟩

/-- At a fixed point deferred data and operands have the words that the final symbols give at the
final addresses. A literal of operand A is inline exactly if its value and the form of literals
allow it. Data to which a plugin has given fewer words than it has cells shows as many values as it
has words. -/
theorem fixedPoint_words {v : Session} {steps : Nat} {file source : Text} {a : Assembly}
    (h : v.run steps file source = .ok a) (hf : a.fixedPoint = true) {k : Nat} {e : Entry}
    (he : a.entries[k]? = some e) :
    (∀ cells, e.body = .data cells → ∀ (j : Nat) (c : Cell) (x : Text) (w : Word),
      cells[j]? = some c → c.deferred = some x → HasValue v a.symbols e.position x w →
      e.own = none ∨ j < e.output.length → e.output[j]? = some w) ∧
    ∀ i, e.body = .instruction i →
      (∀ l w, i.a.literal = some l → HasValue v a.symbols e.position l.text w →
        (i.Inline (longAt v.settings.longLiterals a.entries k) w →
          e.output = i.head :: i.wordsB ∧
            i.head >>> 10 = if w = 0xFFFF then 0x20 else 0x21 + w) ∧
        (¬i.Inline (longAt v.settings.longLiterals a.entries k) w →
          e.output = i.head :: w :: i.wordsB ∧ i.head >>> 10 = field 6 i.a.code)) ∧
      ∀ b l w, i.b = some b → b.literal = some l → HasValue v a.symbols e.position l.text w →
        e.output = i.head :: (i.wordsA ++ [w]) := by
  refine ⟨fun cells hb j c x w hj hx hw hlt => ?_, fun i hb => ?_⟩
  · obtain ⟨s, hs, -, hshows⟩ := Session.run_upToDate h hf he (by simp [hb, Body.isVariable])
    refine hshows.word_eq hs hb hj hx hw ?_
    rcases hlt with ho | hlt
    · rw [Entry.output_of_own ho, hb, Body.output, List.length_map]
      exact (List.getElem?_eq_some_iff.mp hj).1
    · exact hlt
  · obtain ⟨s, hs, hev, hshows⟩ := Session.run_upToDate h hf he (by simp [hb, Body.isVariable])
    rw [hb] at hev
    simp only [Entry.ShowsValues, hb] at hshows
    rw [hshows]
    refine ⟨fun l w hl hw => ⟨hev.encode_inline hs hl hw, hev.encode_long hs hl hw⟩, ?_⟩
    intro b l w hib hl hw
    rw [Instruction.encode_eq, hev.wordsB_eq hs hib hl hw]

theorem fixedPoint_words_sample :
    ∃ (a : Assembly) (e : Entry) (i : Instruction),
      Session.bare.run 9 [] "SET [mid], end\n:mid DAT end\n:end".toList = .ok a ∧
      a.fixedPoint = true ∧ a.entries[0]? = some e ∧ e.body = .instruction i ∧
      HasValue .bare a.symbols e.position "end".toList 3 ∧
      e.output = i.head :: i.wordsB ∧ i.head >>> 10 = 0x24 := by
  obtain ⟨a, ha, hp⟩ := exists_ok
    (x := Session.bare.run 9 [] "SET [mid], end\n:mid DAT end\n:end".toList)
    (p := fun a => a.fixedPoint && a.entries[0]?.any fun e =>
      (Expr.eval (Session.bare.context a.symbols e.position) "end".toList).toOption.any
        (fun r => r.ok && r.value == 3) &&
      e.body == .instruction ⟨1, ⟨nextWordCode, some ⟨"end".toList, 3⟩⟩,
        some ⟨0x1E, some ⟨"mid".toList, 2⟩⟩, true⟩)
    (by decide +kernel)
  obtain ⟨hf, hp⟩ := Bool.and_eq_true_iff.mp hp
  obtain ⟨e, he, hp⟩ := (Option.any_eq_true _ _).mp hp
  obtain ⟨hv, hp⟩ := Bool.and_eq_true_iff.mp hp
  obtain ⟨r, hr, hw⟩ := exists_ok hv
  obtain ⟨hok, hw⟩ := Bool.and_eq_true_iff.mp hw
  have hval : HasValue .bare a.symbols e.position "end".toList 3 := by
    rw [← eq_of_beq hw]
    exact hasValue_of_eval hr hok fun f arg names hc => absurd hc.mem_paren (by decide +kernel)
  have hb := eq_of_beq hp
  have hl : longAt Session.bare.settings.longLiterals a.entries 0 = false := rfl
  obtain ⟨ho, hc⟩ := (((fixedPoint_words ha hf he).2 _ hb).1 ⟨"end".toList, 3⟩ 3 rfl hval).1
    ⟨rfl, by decide, hl⟩
  exact ⟨a, e, _, ha, hf, he, hb, hval, ho, hc⟩

end Dcpu
