import Dcpu.Proofs.Names
import Dcpu.Proofs.Substitution

/-! Terms: expressions as trees, written out with every operand in parentheses. Their meaning is
given by arithmetic on the tree. Main statement: evaluating the written text, which knows no tree
and puts values into the text group by group, comes to the meaning of the term. -/
namespace Dcpu

/-- What a term is made of. A character literal is given by the text between its quotes. -/
inductive Leaf where
  | number (t : Text)
  | char (t : Text)
  | name (t : Text)
  | here

namespace Leaf

def text : Leaf → Text
  | .number t | .name t => t
  | .char t => '\'' :: (t ++ ['\''])
  | .here => ['$']

/-- A number starts with a digit; the one character of a literal has a code of at most sixteen bits
and is no bare quote; a name is defined and neither `true` nor `false`. -/
def Valid (s : SymbolTable) : Leaf → Prop
  | .number t => t.head?.any Char.isDigit = true ∧ (Numeral.number? t).isSome = true
  | .char t => t ≠ ['\''] ∧ ∃ ch, Text.unescape? t = some [ch] ∧ ch.toNat ≤ 0xFFFF
  | .name t => s.isDefined t = true ∧ Text.lower t ≠ "true".toList ∧ Text.lower t ≠ "false".toList
  | .here => True

def value (c : Expr.Context) : Leaf → Nat
  | .number t => ((Numeral.number? t).getD 0).toNat
  | .char t => (((Text.unescape? t).getD []).headD ' ').toNat
  | .name t =>
    (((c.symbols.equate? t).or ((c.symbols.label? t).map Label.address)).getD 0).toNat
  | .here => c.position.address.toNat

/-- The value is an address. -/
def IsAddress (s : SymbolTable) : Leaf → Prop
  | .name t => (s.label? t).isSome = true
  | .here => True
  | _ => False

/-- The name in lower case. -/
def name? : Leaf → Option Text
  | .name t => some (Text.lower t)
  | _ => none

end Leaf

inductive Term where
  | leaf (l : Leaf)
  | complement (t : Term)
  | negation (t : Term)
  | binary (op : Operator) (l r : Term)

namespace Term

/-- Every operand stands in parentheses. -/
def text : Term → Text
  | .leaf l => l.text
  | .complement t => '~' :: '(' :: (t.text ++ [')'])
  | .negation t => '-' :: '(' :: (t.text ++ [')'])
  | .binary op l r => '(' :: (l.text ++ ')' :: (op.symbol ++ '(' :: (r.text ++ [')'])))

def leaves : Term → List Leaf
  | .leaf l => [l]
  | .complement t | .negation t => t.leaves
  | .binary _ l r => l.leaves ++ r.leaves

def value (c : Expr.Context) : Term → Nat
  | .leaf l => l.value c
  | .complement t => 65535 - t.value c
  | .negation t => (65536 - t.value c) % 65536
  | .binary op l r => op.value (l.value c) (r.value c)

/-- Somewhere in the term the right side of a division or a remainder is zero. -/
def DividesByZero (c : Expr.Context) : Term → Prop
  | .leaf _ => False
  | .complement t | .negation t => t.DividesByZero c
  | .binary op l r =>
    l.DividesByZero c ∨ r.DividesByZero c ∨ op.divides = true ∧ r.value c = 0

/-- The result says what the term means. -/
structure Means (c : Expr.Context) (t : Term) (r : Result) : Prop where
  ok : r.ok = true ↔ ¬ t.DividesByZero c
  value : r.ok = true → r.value.toNat = t.value c
  relocatable : r.ok = true → (r.relocatable = true ↔ ∃ l ∈ t.leaves, l.IsAddress c.symbols)
  references : r.ok = true → ∀ n, n ∈ r.references ↔ ∃ l ∈ t.leaves, l.name? = some n

theorem means_leaf {c : Expr.Context} {l : Leaf} {r : Result} (ok : r.ok = true)
    (value : r.value.toNat = l.value c) (relocatable : r.relocatable = true ↔ l.IsAddress c.symbols)
    (references : ∀ n, n ∈ r.references ↔ l.name? = some n) : (leaf l).Means c r where
  ok := by simp [ok, DividesByZero]
  value _ := value
  relocatable _ := by simp [leaves, relocatable]
  references _ := by simp [leaves, references]

end Term

namespace Text

theorem unescape?_eq_nil {t : Text} (h : unescape? t = some []) : t = [] := by
  unfold unescape? at h
  split at h
  · rfl
  · simp [Option.bind_eq_some_iff] at h
  · cases h
  · simp [Option.bind_eq_some_iff] at h
  · simp at h

/-- One character is spelled by itself, by an escape, or by its code. -/
theorem unescape?_eq_singleton {t : Text} {ch : Char} (h : unescape? t = some [ch]) :
    (∃ c, t = [c] ∧ c ≠ '\\') ∨ (∃ e, t = ['\\', e]) ∨
      ∃ a b, t = ['\\', 'x', a, b] ∧ (Numeral.unsigned? 16 [a, b]).isSome = true := by
  unfold unescape? at h
  split at h
  · cases h
  next a b u =>
    simp only [Option.bind_eq_bind, Option.bind_eq_some_iff] at h
    obtain ⟨code, hc, rest, hr, he⟩ := h
    obtain ⟨-, rfl⟩ : _ ∧ rest = [] := by simpa using he
    obtain rfl := unescape?_eq_nil hr
    exact .inr (.inr ⟨a, b, rfl, by rw [hc]; rfl⟩)
  · cases h
  next u e _ _ =>
    simp only [Option.bind_eq_bind, Option.bind_eq_some_iff] at h
    obtain ⟨c, -, rest, hr, he⟩ := h
    obtain ⟨-, rfl⟩ : _ ∧ rest = [] := by simpa using he
    obtain rfl := unescape?_eq_nil hr
    exact .inr (.inl ⟨e, rfl⟩)
  next c u _ h2 h3 =>
    obtain ⟨rest, hr, he⟩ := Option.map_eq_some_iff.mp h
    obtain ⟨-, rfl⟩ : _ ∧ rest = [] := by simpa using he
    obtain rfl := unescape?_eq_nil hr
    refine .inl ⟨c, rfl, ?_⟩
    rintro rfl
    exact h2 rfl rfl

end Text

namespace Leaf

open Dcpu.Expr

variable {c : Context} {s : SymbolTable} {l : Leaf}

theorem scannedAs_char {t : Text} (h : (Leaf.char t).Valid s) :
    ScannedAs (Leaf.char t).text (Text.quoted (Leaf.char t).text) where
  marked rest := by
    obtain ⟨hq, ch, hch, -⟩ := h
    have hx {x : Char} (h : (Numeral.digit? 16 x).isSome = true) : x ≠ '\'' ∧ x ≠ '\\' :=
      ⟨Text.ne_of_isWordChar (Numeral.isWordChar_of_digit? h) (by decide),
        Text.ne_of_isWordChar (Numeral.isWordChar_of_digit? h) (by decide)⟩
    rcases Text.unescape?_eq_singleton hch with ⟨c, rfl, hb⟩ | ⟨e, rfl⟩ | ⟨a, b, rfl, hn⟩
    · have hc : c ≠ '\'' := fun hc => hq (by rw [hc])
      simp [text, Text.quoted, Text.marked, Text.markedFrom, Quote.next, Quote.isFree,
        Delimiter.mark, hb, hc]
    · simp [text, Text.quoted, Text.marked, Text.markedFrom, Quote.next, Quote.isFree,
        Delimiter.mark]
    · obtain ⟨ha, hb⟩ : (a ≠ '\'' ∧ a ≠ '\\') ∧ b ≠ '\'' ∧ b ≠ '\\' := by
        unfold Numeral.unsigned? at hn
        split at hn
        next u he =>
          obtain ⟨rfl, rfl⟩ := List.cons.inj he
          have hd := Numeral.isSome_digit?_of_digits? hn
          exact ⟨by decide, hx (hd b (by simp))⟩
        next =>
          have hd := Numeral.isSome_digit?_of_digits? hn
          exact ⟨hx (hd a (by simp)), hx (hd b (by simp))⟩
      simp [text, Text.quoted, Text.marked, Text.markedFrom, Quote.next, Quote.isFree,
        Delimiter.mark, ha, hb]
  inert m hm := by
    obtain ⟨c, -, rfl⟩ := List.mem_map.mp hm
    exact inert_quoted c

theorem isWordChar_of_name {t : Text} (h : (Leaf.name t).Valid s) (hs : s.WellNamed) :
    ∀ c ∈ t, Text.isWordChar c = true :=
  Name.isWordChar_of_isStored (hs.isStored h.1)

theorem exists_scannedAs (h : l.Valid s) (hs : s.WellNamed) : ∃ ms, ScannedAs l.text ms := by
  cases l with
  | number t => exact ⟨_, scannedAs_word (Numeral.isWordChar_of_number? h.2)⟩
  | char t => exact ⟨_, scannedAs_char h⟩
  | name t => exact ⟨_, scannedAs_word (isWordChar_of_name h hs)⟩
  | here => exact ⟨Text.freed ['$'], fun rest => rfl, by simp [Text.freed, Inert, Mark.isOpenly]⟩

/-- A leaf is a token. -/
theorem form_text (h : l.Valid s) (hs : s.WellNamed) : form l.text = .token l.text := by
  cases l with
  | number t =>
    refine form_word ?_ (Numeral.isWordChar_of_number? h.2)
    rintro rfl
    cases h.1
  | char t =>
    have hscan := scannedAs_char h
    refine form_token ?_ hscan.group?_eq_none (by simp [text]) (by simp [text]) ?_
    · refine Text.trim_eq_self (by simp [text]; decide) ?_
      rw [text, ← List.cons_append, List.getLast?_append]
      simp
      decide
    · refine split?_eq_none fun op => ?_
      rw [sites, hscan.marked_self, sitesFrom_quoted, siteOf?_quoted]
  | name t =>
    refine form_word ?_ (isWordChar_of_name h hs)
    rintro rfl
    cases hs.isStored h.1
  | here => rfl

theorem word_name {t : Text} (h : Name.isStored t = true) (ht : Text.lower t ≠ "true".toList)
    (hf : Text.lower t ≠ "false".toList) : c.word t = c.symbol t := by
  have hd : t.head?.any Char.isDigit = false := by
    cases t with
    | nil => cases h
    | cons x t =>
      rw [← Bool.not_eq_true]
      intro hx
      have hx : x.isDigit = true := by simpa using hx
      simp only [Name.isStored, Bool.and_eq_true, Bool.or_eq_true, beq_iff_eq] at h
      rcases h.1 with h | rfl
      · rw [Text.isAlpha_of_isDigit hx] at h
        cases h
      · cases hx
  rw [Context.word, hd, if_neg (by decide), if_neg ht, if_neg hf]

/-- A defined name is looked up as it is spelled. -/
theorem symbol_eq {t : Text} (hs : c.symbols.WellNamed) (hd : c.symbols.isDefined t = true) :
    c.symbol t =
      { value := ((c.symbols.equate? t).or ((c.symbols.label? t).map Label.address)).getD 0
        ok := true
        references := [Text.lower t]
        relocatable := (c.symbols.label? t).isSome } := by
  have hq : Name.qualify c.position.scope t = t := by
    refine Name.qualify_of_global fun hdot => ?_
    obtain ⟨u, rfl⟩ := List.head?_eq_some_iff.mp hdot
    exact Bool.noConfusion (hs.isStored hd)
  have he : c.symbols.equate? (Text.lower t) = c.symbols.equate? t := by
    simp [SymbolTable.equate?, Text.lower_lower]
  have hl : c.symbols.label? (Text.lower t) = c.symbols.label? t := by
    simp [SymbolTable.label?, Text.lower_lower]
  rw [Context.symbol, hq, he, hl]
  cases hev : c.symbols.equate? t with
  | some v => simp [hs.label?_eq_none hev, Result.ofWord]
  | none =>
    cases hlv : c.symbols.label? t with
    | some l => simp [Result.address?, Result.ofWord?, Result.ofWord]
    | none => simp [SymbolTable.isDefined, hev, hlv] at hd

/-- A leaf is evaluated to what it means. -/
theorem exists_token (hp : c.hooks.plugins = []) (hs : c.symbols.WellNamed)
    (h : l.Valid c.symbols) : ∃ r, c.token l.text = .ok r ∧ (Term.leaf l).Means c r := by
  have hv : c.hooks.value? l.text = none := by simp [Hooks.value?, hp]
  cases l with
  | number t =>
    obtain ⟨w, hw⟩ := Option.isSome_iff_exists.mp h.2
    refine ⟨.ofWord w, ?_, ?_⟩
    · rw [text, Context.token_word (Numeral.isWordChar_of_number? h.2) hv, Context.word, h.1, if_pos rfl, hw]
      rfl
    · exact Term.means_leaf rfl (by simp [value, hw, Result.ofWord])
        (by simp [IsAddress, Result.ofWord]) (by simp [name?, Result.ofWord])
  | char t =>
    obtain ⟨-, ch, hch, hle⟩ := h
    have hlit : charLiteral? (t ++ ['\'']) = some (UInt16.ofNat ch.toNat) := by
      have hd : Text.dropLast? '\'' (t ++ ['\'']) = some t := by simp [Text.dropLast?]
      have hw : Word.ofNat? ch.toNat = some (UInt16.ofNat ch.toNat) :=
        if_pos (Nat.lt_succ_of_le hle)
      simp [charLiteral?, hd, hch, hw]
    refine ⟨.ofWord (UInt16.ofNat ch.toNat), ?_, ?_⟩
    · rw [text, Context.token, ← text, hv]
      dsimp only
      rw [hlit]
      rfl
    · have hn : (UInt16.ofNat ch.toNat).toNat = ch.toNat :=
        Nat.mod_eq_of_lt (Nat.lt_succ_of_le hle)
      exact Term.means_leaf rfl (by simpa [value, hch, Result.ofWord] using hn)
        (by simp [IsAddress, Result.ofWord]) (by simp [name?, Result.ofWord])
  | name t =>
    refine ⟨c.symbol t, ?_, ?_⟩
    · rw [text, Context.token_word (isWordChar_of_name h hs) hv, word_name (hs.isStored h.1) h.2.1 h.2.2]
    · rw [symbol_eq hs h.1]
      exact Term.means_leaf rfl rfl Iff.rfl (by simp [name?, eq_comm])
  | here =>
    refine ⟨.address? (some c.position.address), ?_, ?_⟩
    · rw [text, Context.token, ← text, hv]
    · exact Term.means_leaf rfl rfl (by simp [IsAddress, Result.address?])
        (by simp [name?, Result.address?, Result.ofWord?, Result.ofWord])

end Leaf

namespace Term

open Dcpu.Expr

variable {c : Context} {t l r : Term} {s : SymbolTable}

/-- The sign in front of an operand. -/
theorem scannedAs_sign {x : Char} (hx : x ∈ ['~', '-']) : ScannedAs [x] (Text.freed [x]) where
  marked _ := by
    obtain rfl | rfl : x = '~' ∨ x = '-' := by simpa using hx
    · rfl
    · rfl
  inert := by
    obtain rfl | rfl : x = '~' ∨ x = '-' := by simpa using hx
    · simp [Text.freed, Inert, Mark.isOpenly]
    · simp [Text.freed, Inert, Mark.isOpenly]

theorem balanced_text (hs : s.WellNamed) (h : ∀ l ∈ t.leaves, l.Valid s) : Balanced t.text := by
  induction t with
  | leaf l =>
    obtain ⟨ms, hm⟩ := Leaf.exists_scannedAs (h l (by simp [leaves])) hs
    exact hm.balanced
  | complement t ih => exact (scannedAs_sign (x := '~') (by decide)).balanced.append (ih h).group
  | negation t ih => exact (scannedAs_sign (x := '-') (by decide)).balanced.append (ih h).group
  | binary op l r ihl ihr =>
    have hl := (ihl fun x hx => h x (by simp [leaves, hx])).group
    have hr := (ihr fun x hx => h x (by simp [leaves, hx])).group
    have := (hl.append (scannedAs_symbol op).balanced).append hr
    simpa [text] using this

theorem Means.dividesByZero {x : Result} (h : t.Means c x) (hx : x.ok = false) :
    t.DividesByZero c := by
  refine Classical.byContradiction fun hn => ?_
  rw [h.ok.mpr hn] at hx
  cases hx

theorem Means.of_failed {x : Result} (h : t.DividesByZero c) (hx : x.ok = false) : t.Means c x :=
  ⟨by simp [h, hx], by simp [hx], by simp [hx], by simp [hx]⟩

/-- A sign in front of an operand: `u` is the term with the sign, `f` what the sign does. -/
theorem exists_signed {x : Char} {f : Word → Word} {u : Term} {q : Result}
    (hf : c.hooks.function? [] = none) (hx : x ∈ ['~', '-'])
    (hop : ∀ w : Word, eval c (x :: Numeral.decimal w.toNat) = .ok (.ofWord (f w)))
    (hb : Balanced t.text) (hq : eval c t.text = .ok q) (hm : t.Means c q)
    (hd : u.DividesByZero c ↔ t.DividesByZero c) (hl : u.leaves = t.leaves)
    (hv : q.value.toNat = t.value c → (f q.value).toNat = u.value c) :
    ∃ y, eval c (x :: '(' :: (t.text ++ [')'])) = .ok y ∧ u.Means c y := by
  have hx' : Group.isNameChar x = false ∧ x.utf8Size = 1 ∧ Text.isBlank x = false := by
    obtain rfl | rfl : x = '~' ∨ x = '-' := by simpa using hx
    · decide
    · decide
  have htrim : Text.trim ([x] ++ '(' :: (t.text ++ ')' :: [])) = [x] ++ '(' :: (t.text ++ [')']) :=
    trim_grouped (u := x :: '(' :: t.text) (by simp [hx'])
  have he := eval_substitute hf (scannedAs_sign hx) (by simp [hx']) htrim hb hq
  cases hok : q.ok with
  | false =>
    rw [hok] at he
    exact ⟨q, he, .of_failed (hd.mpr (hm.dividesByZero hok)) hok⟩
  | true =>
    rw [hok, if_pos rfl, List.append_nil] at he
    replace he := he.trans (congrArg (Except.map _) (hop q.value))
    refine ⟨_, he, ?_, fun _ => hv (hm.value hok), fun _ => ?_, fun _ n => ?_⟩
    · rw [hd, ← hm.ok, hok]
      rfl
    · rw [hl, ← hm.relocatable hok]
      simp [Result.absorb, Result.ofWord]
    · rw [hl, ← hm.references hok n]
      simp [Result.absorb, Result.ofWord, NameSet.mem_union]

/-- Two operands and the operator between them. -/
theorem exists_binary {op : Operator} {p q : Result} (hp : c.hooks.plugins = [])
    (hf : c.hooks.function? [] = none) (hbl : Balanced l.text) (hbr : Balanced r.text)
    (hl : eval c l.text = .ok p) (hr : eval c r.text = .ok q) (hml : l.Means c p)
    (hmr : r.Means c q) :
    ∃ y, eval c (binary op l r).text = .ok y ∧ (binary op l r).Means c y := by
  have he : eval c (binary op l r).text = _ := eval_left hf hbl hl
  rw [eval_right hp hf hbr hr] at he
  cases hpok : p.ok with
  | false =>
    rw [hpok] at he
    exact ⟨p, he, .of_failed (.inl (hml.dividesByZero hpok)) hpok⟩
  | true =>
    rw [hpok, if_pos rfl] at he
    cases hqok : q.ok with
    | false =>
      rw [hqok] at he
      exact ⟨_, he, .of_failed (.inr (.inl (hmr.dividesByZero hqok))) hqok⟩
    | true =>
      rw [hqok, if_pos rfl] at he
      have hc := combine_values op p.value q.value
      refine ⟨_, he, ?_, fun h => ?_, fun _ => ?_, fun _ n => ?_⟩
      · simp only [DividesByZero, hml.ok.mp hpok, hmr.ok.mp hqok, ← hmr.value hqok, false_or]
        exact hc.ok
      · rw [value, ← hml.value hpok, ← hmr.value hqok]
        exact hc.value h
      · simp only [Result.absorb, hc.relocatable, Bool.false_or, Bool.or_eq_true,
          hml.relocatable hpok, hmr.relocatable hqok, leaves, List.mem_append, or_and_right,
          exists_or]
        exact or_comm
      · simp only [Result.absorb, hc.references, NameSet.mem_union, hml.references hpok,
          hmr.references hqok, leaves, List.mem_append, or_and_right, exists_or, List.not_mem_nil,
          false_or]
        exact or_comm

/-- Evaluating the text of a term, with no plugins and no function without a name, succeeds
exactly if nothing in the term is divided by zero. Then the value is that of the term, it can move
exactly if some leaf is an address, and the names that were looked up are those of the leaves. -/
theorem eval_text (hp : c.hooks.plugins = []) (hf : c.hooks.function? [] = none)
    (hs : c.symbols.Reached) (t : Term) (h : ∀ l ∈ t.leaves, l.Valid c.symbols) :
    ∃ y, eval c t.text = .ok y ∧ (y.ok = true ↔ ¬ t.DividesByZero c) ∧
      (y.ok = true → y.value.toNat = t.value c ∧
        (y.relocatable = true ↔ ∃ l ∈ t.leaves, l.IsAddress c.symbols) ∧
        ∀ n, n ∈ y.references ↔ ∃ l ∈ t.leaves, l.name? = some n) := by
  have hn := hs.wellNamed
  have key : ∃ y, eval c t.text = .ok y ∧ t.Means c y := by
    induction t with
    | leaf l =>
      have hl := h l (by simp [leaves])
      obtain ⟨y, hy, hm⟩ := Leaf.exists_token hp hn hl
      exact ⟨y, (eval_token (Leaf.form_text hl hn)).trans hy, hm⟩
    | complement t ih =>
      obtain ⟨q, hq, hm⟩ := ih h
      refine exists_signed hf (by decide) (eval_complement_value hp) (balanced_text hn h) hq hm
        Iff.rfl rfl fun hv => ?_
      rw [UInt16.toNat_not, hv]
      rfl
    | negation t ih =>
      obtain ⟨q, hq, hm⟩ := ih h
      refine exists_signed hf (by decide) (eval_minus_value hp) (balanced_text hn h) hq hm
        Iff.rfl rfl fun hv => ?_
      rw [UInt16.toNat_sub, hv]
      rfl
    | binary op l r ihl ihr =>
      have hl : ∀ x ∈ l.leaves, x.Valid c.symbols := fun x hx => h x (by simp [leaves, hx])
      have hr : ∀ x ∈ r.leaves, x.Valid c.symbols := fun x hx => h x (by simp [leaves, hx])
      obtain ⟨p, hp', hmp⟩ := ihl hl
      obtain ⟨q, hq', hmq⟩ := ihr hr
      exact exists_binary hp hf (balanced_text hn hl) (balanced_text hn hr) hp' hq' hmp hmq
  obtain ⟨y, hy, hm⟩ := key
  exact ⟨y, hy, hm.ok, fun hok => ⟨hm.value hok, hm.relocatable hok, hm.references hok⟩⟩

/-- `('A')===(((K)<<(0b1_00))+(-($)))` -/
def sample : Term :=
  .binary .sameText (.leaf (.char ['A']))
    (.binary .add (.binary .shiftLeft (.leaf (.name "K".toList)) (.leaf (.number "0b1_00".toList)))
      (.negation (.leaf .here)))

def sampleContext : Context where
  symbols := { equates := [("k".toList, 5)] }
  hooks := {}
  position := { address := 15, root := 1 }
  literal _ := .ok none

/-- A character, an equate in the other case, digits with a separator and the current address. -/
theorem eval_text_sample :
    sample.text = "('A')===(((K)<<(0b1_00))+(-($)))".toList ∧
      ∃ y, eval sampleContext sample.text = .ok y ∧ y.ok = true ∧ y.value.toNat = 1 ∧
        y.relocatable = true ∧ ∀ n, n ∈ y.references ↔ n = "k".toList := by
  have hs : sampleContext.symbols.Reached :=
    @SymbolTable.Reached.equate _ _ "K".toList 5 .empty rfl
  have hv : ∀ l ∈ sample.leaves, l.Valid sampleContext.symbols := by
    have hleaves : sample.leaves =
        [.char ['A'], .name "K".toList, .number "0b1_00".toList, .here] := rfl
    simp only [hleaves, List.forall_mem_cons]
    exact ⟨⟨by decide, 'A', rfl, by decide⟩, ⟨rfl, by decide, by decide⟩, ⟨rfl, rfl⟩, trivial,
      by simp⟩
  obtain ⟨y, hy, hok, h⟩ := eval_text rfl rfl hs sample hv
  have hyok : y.ok = true := hok.mpr (by simp [sample, DividesByZero, Operator.divides])
  obtain ⟨hval, hrel, href⟩ := h hyok
  refine ⟨rfl, y, hy, hyok, hval, hrel.mpr ⟨.here, by simp [sample, leaves], trivial⟩, fun n => ?_⟩
  rw [href]
  simp [sample, leaves, Leaf.name?, eq_comm]
  rfl

end Term

end Dcpu
