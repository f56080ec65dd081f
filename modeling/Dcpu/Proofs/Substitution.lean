import Dcpu.Proofs.Scanning
import Mathlib.Data.List.Basic

/-! A group in parentheses gives way to its value in decimal, and the operators are applied to
decimals. What they compute is stated on numbers. A minus sign behind an operator belongs to the
right operand, unless the operator comes after it in the order of operators. -/
namespace Dcpu

namespace Operator

/-- The value of the operator on numbers below 65536; that of a division by zero does not count. -/
def value (op : Operator) (a b : Nat) : Nat :=
  match op with
  | .mul => a * b % 65536
  | .div => a / b
  | .mod => a % b
  | .add => (a + b) % 65536
  | .sub => (65536 + a - b) % 65536
  | .shiftLeft => (a <<< b) % 65536
  | .shiftRight => a >>> b
  | .bitOr => a ||| b
  | .bitXor => a ^^^ b
  | .bitAnd => a &&& b
  | .or => if a ≠ 0 ∨ b ≠ 0 then 1 else 0
  | .and => if a ≠ 0 ∧ b ≠ 0 then 1 else 0
  | .xor => if a = 0 ↔ b = 0 then 0 else 1
  | .equal | .sameText => if a = b then 1 else 0
  | .notEqual | .unequal | .otherText => if a = b then 0 else 1
  | .less => if a < b then 1 else 0
  | .greater => if b < a then 1 else 0
  | .lessEqual => if a ≤ b then 1 else 0
  | .greaterEqual => if b ≤ a then 1 else 0

def divides : Operator → Bool
  | .div | .mod => true
  | _ => false

/-- The operators of one character that are tried after `-`. Next to a minus sign none of them is
where a text is split. -/
def yieldsToMinus : Operator → Bool
  | .bitOr | .bitXor | .bitAnd | .mod | .greater | .less => true
  | _ => false

theorem compute?_eq_none {op : Operator} (h : op.divides = true) (a : Word) :
    op.compute? a 0 = none := by
  cases op <;> first | rfl | cases h

theorem toNat_ofBool (b : Bool) : (Word.ofBool b).toNat = if b then 1 else 0 := by
  cases b <;> rfl

theorem toNat_shiftLeft (a b : Word) :
    (if b < 16 then a <<< b else 0 : Word).toNat = (a.toNat <<< b.toNat) % 65536 := by
  by_cases hb : b < 16
  · have hlt : b.toNat < 16 := UInt16.lt_iff_toNat_lt.mp hb
    rw [if_pos hb, UInt16.toNat_shiftLeft, Nat.mod_eq_of_lt hlt]
  · have hle : 16 ≤ b.toNat := Nat.le_of_not_lt fun h => hb (UInt16.lt_iff_toNat_lt.mpr h)
    obtain ⟨k, hk⟩ := Nat.exists_eq_add_of_le hle
    have hm : a.toNat <<< (16 + k) = 65536 * (a.toNat <<< k) := by
      rw [Nat.shiftLeft_eq, Nat.shiftLeft_eq, Nat.pow_add, ← Nat.mul_assoc, Nat.mul_right_comm,
        Nat.mul_comm]
    rw [if_neg hb, hk, hm, Nat.mul_mod_right]
    rfl

theorem toNat_shiftRight (a b : Word) :
    (if b < 16 then a >>> b else 0 : Word).toNat = a.toNat >>> b.toNat := by
  by_cases hb : b < 16
  · have hlt : b.toNat < 16 := UInt16.lt_iff_toNat_lt.mp hb
    rw [if_pos hb, UInt16.toNat_shiftRight, Nat.mod_eq_of_lt hlt]
  · have hle : 16 ≤ b.toNat := Nat.le_of_not_lt fun h => hb (UInt16.lt_iff_toNat_lt.mpr h)
    rw [if_neg hb, Nat.shiftRight_eq_div_pow, Nat.div_eq_of_lt]
    · rfl
    · exact Nat.lt_of_lt_of_le a.toNat_lt (Nat.pow_le_pow_right (by decide) hle)

/-- The words compute what the numbers do. -/
theorem exists_compute? {op : Operator} (ht : op.comparesText? = none) {a b : Word}
    (hb : op.divides = true → b ≠ 0) :
    ∃ w, op.compute? a b = some w ∧ w.toNat = op.value a.toNat b.toNat := by
  have hz (w : Word) : w.toNat = 0 ↔ w = 0 := UInt16.toNat_inj (b := 0)
  have he : a.toNat = b.toNat ↔ a = b := UInt16.toNat_inj
  cases op with
  | sameText => cases ht
  | otherText => cases ht
  | div => exact ⟨a / b, if_neg (hb rfl), UInt16.toNat_div a b⟩
  | mod => exact ⟨a % b, if_neg (hb rfl), UInt16.toNat_mod a b⟩
  | mul => exact ⟨_, rfl, UInt16.toNat_mul a b⟩
  | add => exact ⟨_, rfl, UInt16.toNat_add a b⟩
  | sub =>
    refine ⟨_, rfl, ?_⟩
    rw [UInt16.toNat_sub, value]
    have hb := b.toNat_lt
    congr 1
    omega
  | shiftLeft => exact ⟨_, rfl, toNat_shiftLeft a b⟩
  | shiftRight => exact ⟨_, rfl, toNat_shiftRight a b⟩
  | bitOr => exact ⟨_, rfl, UInt16.toNat_or a b⟩
  | bitXor => exact ⟨_, rfl, UInt16.toNat_xor a b⟩
  | bitAnd => exact ⟨_, rfl, UInt16.toNat_and a b⟩
  | _ =>
    refine ⟨_, rfl, ?_⟩
    simp [toNat_ofBool, value, UInt16.lt_iff_toNat_lt, UInt16.le_iff_toNat_le, hz, he]

end Operator

namespace Expr

variable {c : Context} {lead u rest : Text} {ms : List Mark} {r : Result} {g : Group}

theorem Group.name_eq_nil (h : ∀ ch ∈ g.before.getLast?, isNameChar ch = false) : g.name = [] := by
  rw [name]
  rw [← List.head?_reverse] at h
  cases hr : g.before.reverse with
  | nil => rfl
  | cons ch t =>
    rw [hr] at h
    simp [h ch rfl]

theorem Group.followsWide_eq_false (hn : g.name = [])
    (h : ∀ ch ∈ g.before.getLast?, ch.utf8Size = 1) : g.followsWide = false := by
  have hl : g.lead = g.before := by rw [← g.lead_append_name, hn, List.append_nil]
  rw [followsWide, hl]
  cases hb : g.before.getLast? with
  | none => rfl
  | some ch => simp [h ch hb]

/-- A group in front of which no name stands gives way to its value. -/
theorem eval_substitute (hf : c.hooks.function? [] = none) (hlead : ScannedAs lead ms)
    (hlast : ∀ ch ∈ lead.getLast?, Group.isNameChar ch = false ∧ ch.utf8Size = 1)
    (hb : Text.trim (lead ++ '(' :: (u ++ ')' :: rest)) = lead ++ '(' :: (u ++ ')' :: rest))
    (hu : Balanced u) (hr : eval c u = .ok r) :
    eval c (lead ++ '(' :: (u ++ ')' :: rest)) =
      if r.ok then (eval c (lead ++ Numeral.decimal r.value.toNat ++ rest)).map (·.absorb r)
      else .ok r := by
  have hn : (⟨lead, u, rest⟩ : Group).name = [] := Group.name_eq_nil fun ch hc => (hlast ch hc).1
  have hw := Group.followsWide_eq_false hn fun ch hc => (hlast ch hc).2
  rw [eval_group (form_group hb hlead hu) hw (by rw [hn, hf]), hr]
  dsimp only [bind, Except.bind]
  split
  · cases eval c (lead ++ Numeral.decimal r.value.toNat ++ rest) <;> rfl
  · rfl

theorem Context.token_word {t : Text} (hw : ∀ ch ∈ t, Text.isWordChar ch = true)
    (hv : c.hooks.value? t = none) : c.token t = .ok (c.word t) := by
  have hne {x : Char} {rest : Text} (hx : Text.isWordChar x = false) : t ≠ x :: rest := by
    rintro rfl
    rw [hw x (by simp)] at hx
    cases hx
  unfold Context.token
  rw [hv]
  dsimp only
  split
  · exact absurd rfl (hne (by decide))
  · exact absurd rfl (hne (by decide))
  · exact absurd rfl (hne (by decide))
  · exact absurd rfl (hne (by decide))
  · rfl

theorem isWordChar_decimal (w : Word) : ∀ ch ∈ Numeral.decimal w.toNat, Text.isWordChar ch = true :=
  fun _ hc => Text.isWordChar_of_isDigit (Numeral.isDigit_of_mem_decimal hc)

theorem eval_numeral {w : Word} (hv : c.hooks.value? (Numeral.decimal w.toNat) = none) :
    eval c (Numeral.decimal w.toNat) = .ok (.ofWord w) := by
  have hd : (Numeral.decimal w.toNat).head?.any Char.isDigit = true := by
    cases hh : (Numeral.decimal w.toNat).head? with
    | none => exact absurd (List.head?_eq_none_iff.mp hh) (Numeral.decimal_ne_nil _)
    | some ch => exact Numeral.isDigit_of_mem_decimal (List.mem_of_head? hh)
  rw [eval_token (form_word (Numeral.decimal_ne_nil _) (isWordChar_decimal w)),
    Context.token_word (isWordChar_decimal w) hv, Context.word, hd, if_pos rfl,
    Numeral.number?_decimal]
  rfl

theorem eval_decimal (hp : c.hooks.plugins = []) (w : Word) :
    eval c (Numeral.decimal w.toNat) = .ok (.ofWord w) :=
  eval_numeral (by simp [Hooks.value?, hp])

theorem trim_symbol {l t : Text} (op : Operator) (hl : ∀ ch ∈ l, Text.isWordChar ch = true)
    (ht : ∀ ch ∈ t, Text.isWordChar ch = true) (hne : t ≠ []) :
    Text.trim (l ++ op.symbol ++ t) = l ++ op.symbol ++ t := by
  refine Text.trim_eq_self (fun ch hc => ?_) fun ch hc => ?_
  · cases l with
    | nil =>
      have hm : ch ∈ op.symbol.head? := by
        cases op <;> simpa [Operator.symbol] using hc
      revert ch
      cases op <;> simp [Operator.symbol] <;> decide
    | cons x l => exact Text.isBlank_of_isWordChar (hl ch (List.mem_of_head? (by simpa using hc)))
  · rw [List.getLast?_append, List.getLast?_eq_some_getLast hne, Option.some_or] at hc
    rw [← List.getLast?_eq_some_getLast hne] at hc
    exact Text.isBlank_of_isWordChar (ht ch (List.mem_of_getLast? hc))

theorem form_of_split? {e : Text} {s : Split} (hb : Text.trim e = e) (hg : group? e = none)
    (hc : e.head? ≠ some '~') (hs : split? e = some s) :
    form e = if s.left = [] ∧ s.op = .sub then .negation s.right else .binary s := by
  unfold form formOfTrimmed
  rw [hb, hg]
  dsimp only
  split
  · cases hs
  · exact absurd rfl hc
  · rw [hs]
    split
    next right he =>
      obtain rfl := Option.some.inj he
      rfl
    next s' hne he =>
      obtain rfl := Option.some.inj he
      rw [if_neg]
      rintro ⟨hl, ho⟩
      exact hne s.right (by rw [← hl, ← ho])
    next he => cases he

theorem form_symbol {l t : Text} (op : Operator) (hl : ∀ ch ∈ l, Text.isWordChar ch = true)
    (ht : ∀ ch ∈ t, Text.isWordChar ch = true) (hne : t ≠ []) :
    form (l ++ op.symbol ++ t) = if l = [] ∧ op = .sub then .negation t else .binary ⟨l, op, t⟩ := by
  refine form_of_split? (trim_symbol op hl ht hne) ?_ ?_ (split?_symbol op hl ht)
  · exact (((scannedAs_word hl).append (scannedAs_symbol op)).append
      (scannedAs_word ht)).group?_eq_none
  · cases l with
    | nil => cases op <;> simp [Operator.symbol]
    | cons x l =>
      intro hx
      have := hl '~' (List.mem_of_head? (by simpa using hx))
      revert this
      decide

/-- The operator on two values that were put into the text. -/
theorem eval_values (hp : c.hooks.plugins = []) (op : Operator) (a b : Word) :
    eval c (Numeral.decimal a.toNat ++ op.symbol ++ Numeral.decimal b.toNat) =
      .ok (combine ⟨Numeral.decimal a.toNat, op, Numeral.decimal b.toNat⟩ (.ofWord a)
        (.ofWord b)) := by
  have hform := form_symbol op (isWordChar_decimal a) (isWordChar_decimal b)
    (Numeral.decimal_ne_nil b.toNat)
  rw [if_neg (fun h => Numeral.decimal_ne_nil _ h.1)] at hform
  rw [eval_binary hform]
  dsimp only
  rw [eval_decimal hp, eval_decimal hp]
  rfl

theorem eval_minus_numeral {w : Word} (hv : c.hooks.value? (Numeral.decimal w.toNat) = none) :
    eval c ('-' :: Numeral.decimal w.toNat) = .ok (.ofWord (0 - w)) := by
  have hform := form_symbol (l := []) .sub (by simp) (isWordChar_decimal w)
    (Numeral.decimal_ne_nil w.toNat)
  rw [if_pos ⟨rfl, rfl⟩] at hform
  have hform : form ('-' :: Numeral.decimal w.toNat) = .negation (Numeral.decimal w.toNat) := hform
  rw [eval_negation hform, eval_numeral hv]
  rfl

theorem eval_minus_value (hp : c.hooks.plugins = []) (w : Word) :
    eval c ('-' :: Numeral.decimal w.toNat) = .ok (.ofWord (0 - w)) :=
  eval_minus_numeral (by simp [Hooks.value?, hp])

theorem eval_complement_value (hp : c.hooks.plugins = []) (w : Word) :
    eval c ('~' :: Numeral.decimal w.toNat) = .ok (.ofWord (~~~ w)) := by
  rw [eval_complement (form_complement (Numeral.decimal_ne_nil _) (isWordChar_decimal w)),
    eval_decimal hp]
  rfl

/-- Texts of values are the same exactly if the values are. -/
theorem sameFolded_decimal (a b : Word) :
    Text.sameFolded (Text.trim (Numeral.decimal a.toNat)) (Text.trim (Numeral.decimal b.toNat)) =
      decide (a = b) := by
  have ht (w : Word) : Text.trim (Numeral.decimal w.toNat) = Numeral.decimal w.toNat :=
    Text.trim_eq_self
      (fun ch hc => Text.isBlank_of_isWordChar (isWordChar_decimal w ch (List.mem_of_head? hc)))
      fun ch hc => Text.isBlank_of_isWordChar (isWordChar_decimal w ch (List.mem_of_getLast? hc))
  have hl (w : Word) : Text.lower (Numeral.decimal w.toNat) = Numeral.decimal w.toNat :=
    Numeral.lower_of_isDigit fun _ => Numeral.isDigit_of_mem_decimal
  rw [ht, ht, Text.sameFolded, hl, hl, Bool.eq_iff_iff, beq_iff_eq, Numeral.decimal_inj,
    decide_eq_true_iff]

/-- What an operator makes of two values. -/
structure Combines (op : Operator) (a b : Word) (r : Result) : Prop where
  ok : r.ok = true ↔ ¬ (op.divides = true ∧ b.toNat = 0)
  value : r.ok = true → r.value.toNat = op.value a.toNat b.toNat
  relocatable : r.relocatable = false
  references : r.references = []

theorem combine_values (op : Operator) (a b : Word) :
    Combines op a b (combine ⟨Numeral.decimal a.toNat, op, Numeral.decimal b.toNat⟩ (.ofWord a)
      (.ofWord b)) := by
  unfold combine
  split
  next whenSame hs =>
    dsimp only at hs ⊢
    rw [sameFolded_decimal]
    have hd : op.divides = false := by cases op <;> first | rfl | cases hs
    refine ⟨by simp [hd], fun _ => ?_, rfl, rfl⟩
    have he : a.toNat = b.toNat ↔ a = b := UInt16.toNat_inj
    cases op <;> cases hs
    · simp [Operator.value, Operator.toNat_ofBool, he]
    · simp [Operator.value, Operator.toNat_ofBool, he]
  next ht =>
    by_cases hz : op.divides = true ∧ b = 0
    · obtain ⟨hd, rfl⟩ := hz
      simp only [Result.ofWord, Bool.and_self, if_true, Operator.compute?_eq_none hd]
      exact ⟨by simp [Result.ofWord?, Result.failed, Result.absorb, hd], nofun, rfl, rfl⟩
    · obtain ⟨w, hw, hv⟩ := Operator.exists_compute? (a := a) ht fun hd hb => hz ⟨hd, hb⟩
      have hz' : ¬ (op.divides = true ∧ b.toNat = 0) := fun h => hz ⟨h.1, UInt16.toNat_inj.mp h.2⟩
      simp only [Result.ofWord, Bool.and_self, if_true, hw]
      exact ⟨by simp [Result.ofWord?, Result.ofWord, Result.absorb, hz'], fun _ => hv, rfl, rfl⟩

theorem trim_grouped {u : Text} (h : ∀ ch ∈ (u ++ [')']).head?, Text.isBlank ch = false) :
    Text.trim (u ++ [')']) = u ++ [')'] := by
  refine Text.trim_eq_self h ?_
  simp
  decide

/-- The left operand is evaluated first. -/
theorem eval_left {w : Text} {op : Operator} (hf : c.hooks.function? [] = none) (hu : Balanced u)
    (hr : eval c u = .ok r) :
    eval c ('(' :: (u ++ ')' :: (op.symbol ++ '(' :: (w ++ [')'])))) =
      if r.ok then
        (eval c (Numeral.decimal r.value.toNat ++ op.symbol ++ '(' :: (w ++ [')']))).map (·.absorb r)
      else .ok r := by
  have htrim := trim_grouped (u := '(' :: (u ++ ')' :: (op.symbol ++ '(' :: w))) (by simp; decide)
  simp only [List.cons_append, List.append_assoc] at htrim
  have hnil : ScannedAs [] [] := ⟨fun _ => rfl, by simp⟩
  have he := eval_substitute hf hnil (by simp) htrim hu hr
  rw [List.nil_append, ← List.append_assoc] at he
  exact he

/-- Then the right one, and the operator on both values. -/
theorem eval_right {op : Operator} {a : Word} (hp : c.hooks.plugins = [])
    (hf : c.hooks.function? [] = none) (hu : Balanced u) (hr : eval c u = .ok r) :
    eval c (Numeral.decimal a.toNat ++ op.symbol ++ '(' :: (u ++ [')'])) =
      .ok (if r.ok then
        (combine ⟨Numeral.decimal a.toNat, op, Numeral.decimal r.value.toNat⟩ (.ofWord a)
          (.ofWord r.value)).absorb r
      else r) := by
  have hlead := (scannedAs_word (isWordChar_decimal a)).append (scannedAs_symbol op)
  have hlast : ∀ ch ∈ (Numeral.decimal a.toNat ++ op.symbol).getLast?,
      Group.isNameChar ch = false ∧ ch.utf8Size = 1 := by
    cases op <;> simp [Operator.symbol] <;> decide
  have htrim : Text.trim (Numeral.decimal a.toNat ++ op.symbol ++ '(' :: (u ++ [')'])) =
      Numeral.decimal a.toNat ++ op.symbol ++ '(' :: (u ++ [')']) := by
    have := trim_grouped (u := Numeral.decimal a.toNat ++ op.symbol ++ '(' :: u) fun ch hc => by
      cases hd : Numeral.decimal a.toNat with
      | nil => exact absurd hd (Numeral.decimal_ne_nil _)
      | cons x t =>
        obtain rfl : x = ch := by simpa [hd] using hc
        exact Text.isBlank_of_isWordChar (isWordChar_decimal a x (by simp [hd]))
    simpa using this
  rw [eval_substitute hf hlead hlast htrim hu hr]
  split
  · rw [List.append_nil, eval_values hp]
    rfl
  · rfl

section Signs

open Text (isWordChar)

theorem isBlank_of_mem_symbol {op : Operator} {ch : Char} (h : ch ∈ op.symbol) :
    Text.isBlank ch = false := by
  have hall : op.symbol.all (fun ch => !Text.isBlank ch) = true := by
    cases op <;> decide
  simpa using List.all_eq_true.mp hall ch h

/-- Words with characters of operators between them are an operation, whatever the split. -/
theorem form_between {l mid r : Text} {s : Split} (hne : l ≠ [])
    (hl : ∀ ch ∈ l, isWordChar ch = true) (hm : ∀ ch ∈ mid, ∃ o : Operator, ch ∈ o.symbol)
    (hr : ∀ ch ∈ r, isWordChar ch = true) (hs : split? (l ++ mid ++ r) = some s)
    (hleft : s.left ≠ []) : form (l ++ mid ++ r) = .binary s := by
  have hsolid : ∀ ch ∈ l ++ mid ++ r, Text.isBlank ch = false := by
    intro ch hc
    rw [List.mem_append, List.mem_append] at hc
    rcases hc with (hc | hc) | hc
    · exact Text.isBlank_of_isWordChar (hl ch hc)
    · obtain ⟨o, ho⟩ := hm ch hc
      exact isBlank_of_mem_symbol ho
    · exact Text.isBlank_of_isWordChar (hr ch hc)
  have htrim : Text.trim (l ++ mid ++ r) = l ++ mid ++ r :=
    Text.trim_eq_self (fun ch hc => hsolid ch (List.mem_of_head? hc))
      fun ch hc => hsolid ch (List.mem_of_getLast? hc)
  have hscan := ((scannedAs_word hl).append (scannedAs_symbols hm)).append (scannedAs_word hr)
  have hhead : (l ++ mid ++ r).head? ≠ some '~' := by
    intro h
    rw [List.append_assoc, List.head?_append_of_ne_nil _ hne] at h
    have := hl '~' (List.mem_of_head? h)
    revert this
    decide
  rw [form_of_split? htrim hscan.group?_eq_none hhead hs, if_neg fun h => hleft h.1]

theorem exists_symbol_of_mem_append {o p : Operator} {ch : Char} (h : ch ∈ o.symbol ++ p.symbol) :
    ∃ q : Operator, ch ∈ q.symbol := by
  rcases List.mem_append.mp h with h | h
  · exact ⟨o, h⟩
  · exact ⟨p, h⟩

/-- Where the characters of an operator and of a minus sign behind it are split. -/
theorem split?_minus (op : Operator) {l r : Text} (hl : ∀ ch ∈ l, isWordChar ch = true)
    (hr : ∀ ch ∈ r, isWordChar ch = true) :
    split? (l ++ (op.symbol ++ ['-']) ++ r) =
      some (if op.yieldsToMinus then ⟨l ++ op.symbol, .sub, r⟩ else ⟨l, op, '-' :: r⟩) := by
  cases hy : op.yieldsToMinus with
  | false =>
    have hbest : Operator.all.foldl (betterSplit (Text.freed ([] ++ op.symbol ++ ['-']))) none =
        some (0, op) := by
      cases op <;> first | decide | cases hy
    have h := split?_between (x := []) (y := ['-'])
      (fun _ => exists_symbol_of_mem_append (p := .sub)) hbest hl hr
    simpa using h
  | true =>
    have hbest : Operator.all.foldl
        (betterSplit (Text.freed (op.symbol ++ Operator.sub.symbol ++ []))) none =
        some (op.symbol.length, .sub) := by
      cases op <;> first | decide | cases hy
    have h := split?_between (x := op.symbol) (y := [])
      (fun _ hc => exists_symbol_of_mem_append (by simpa using hc)) hbest hl hr
    simpa [Operator.symbol] using h

theorem form_minus (op : Operator) (a b : Word) :
    form (Numeral.decimal a.toNat ++ op.symbol ++ '-' :: Numeral.decimal b.toNat) = .binary
      (if op.yieldsToMinus then ⟨Numeral.decimal a.toNat ++ op.symbol, .sub, Numeral.decimal b.toNat⟩
        else ⟨Numeral.decimal a.toNat, op, '-' :: Numeral.decimal b.toNat⟩) := by
  have htext : Numeral.decimal a.toNat ++ op.symbol ++ '-' :: Numeral.decimal b.toNat =
      Numeral.decimal a.toNat ++ (op.symbol ++ ['-']) ++ Numeral.decimal b.toNat := by simp
  rw [htext]
  refine form_between (Numeral.decimal_ne_nil _) (isWordChar_decimal a)
    (fun _ => exists_symbol_of_mem_append (p := .sub)) (isWordChar_decimal b)
    (split?_minus op (isWordChar_decimal a) (isWordChar_decimal b)) ?_
  split <;> simp [Numeral.decimal_ne_nil]

/-- An operator without a right operand. -/
theorem eval_dangling {op : Operator} (ht : op.comparesText? = none) {a : Word}
    (ha : c.hooks.value? (Numeral.decimal a.toNat) = none) :
    eval c (Numeral.decimal a.toNat ++ op.symbol) = .ok .failed := by
  have hsplit := split?_symbol op (isWordChar_decimal a) (r := []) (by simp)
  have hform := form_between (Numeral.decimal_ne_nil a.toNat) (isWordChar_decimal a)
    (fun ch hc => ⟨op, hc⟩) (by simp) hsplit (Numeral.decimal_ne_nil a.toNat)
  rw [List.append_nil] at hform
  have hempty : eval c [] = .ok .failed := eval_empty rfl
  rw [eval_binary hform, eval_numeral ha, hempty]
  simp [bind, Except.bind, pure, Except.pure, combine, ht, Result.failed, Result.ofWord,
    Result.ofWord?, Result.absorb, NameSet.union]

/-- A minus sign in front of the right operand is its sign, except next to an operator that yields to
it: then the text is split at the minus sign, and the left side lacks an operand. -/
theorem eval_negative_right {op : Operator} (ht : op.comparesText? = none) {a b : Word}
    (ha : c.hooks.value? (Numeral.decimal a.toNat) = none)
    (hb : c.hooks.value? (Numeral.decimal b.toNat) = none) :
    ∃ r, eval c (Numeral.decimal a.toNat ++ op.symbol ++ '-' :: Numeral.decimal b.toNat) = .ok r ∧
      (op.yieldsToMinus = false → Combines op a (0 - b) r) ∧
      (op.yieldsToMinus = true → r = .failed) := by
  have hform := form_minus op a b
  cases hy : op.yieldsToMinus with
  | false =>
    rw [hy, if_neg (by decide)] at hform
    refine ⟨combine ⟨Numeral.decimal a.toNat, op, '-' :: Numeral.decimal b.toNat⟩ (.ofWord a)
      (.ofWord (0 - b)), ?_, fun _ => ?_, nofun⟩
    · rw [eval_binary hform, eval_numeral ha, eval_minus_numeral hb]
      rfl
    · -- Only the operators on texts look at how an operand is written.
      have h := combine_values op a (0 - b)
      unfold combine at h ⊢
      dsimp only at h ⊢
      rw [ht] at h ⊢
      exact h
  | true =>
    rw [hy, if_pos rfl] at hform
    refine ⟨.failed, ?_, nofun, fun _ => rfl⟩
    rw [eval_binary hform, eval_dangling ht ha, eval_numeral hb]
    rfl

/-- `-65534` is 2. -/
theorem eval_negative_right_shift :
    Operator.shiftLeft.comparesText? = none ∧
      ∃ r, eval ⟨{}, {}, {}, fun _ => .ok none⟩ "60<<-65534".toList = .ok r ∧ r.ok = true ∧
        r.value = 240 := by
  have ht : Operator.shiftLeft.comparesText? = none := rfl
  obtain ⟨r, hr, hcombines, -⟩ := eval_negative_right (c := ⟨{}, {}, {}, fun _ => .ok none⟩) ht
    (a := 60) (b := 65534) rfl rfl
  have h := hcombines rfl
  have hok : r.ok = true := h.ok.mpr (by decide)
  have htext : "60<<-65534".toList = Numeral.decimal (60 : Word).toNat ++
      Operator.shiftLeft.symbol ++ '-' :: Numeral.decimal (65534 : Word).toNat := by decide
  rw [htext]
  exact ⟨ht, r, hr, hok, UInt16.toNat_inj.mp ((h.value hok).trans (by decide))⟩

/-- The bitwise or of 5 and `-1` is 65535, but the text without parentheses has no value. -/
theorem eval_bitOr_minus_failed :
    (eval ⟨{}, {}, {}, fun _ => .ok none⟩ "5|-1".toList).toOption = some .failed ∧
      Operator.bitOr.compute? 5 (0 - 1) = some 65535 :=
  ⟨by decide +kernel, by decide⟩

end Signs

end Expr

end Dcpu
