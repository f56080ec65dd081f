import Dcpu.Proofs.FixedPoint

/-! Reading machine code: the fields of instruction words, the words that operands take, and the
instructions that a list of words consists of. An instruction whose operands have a literal exactly
if their codes take a word is read back from its words. -/
namespace Dcpu

/-- An operand as the machine sees it: its code and the value that goes with it, if any. -/
structure ReadOperand where
  code : UInt8
  value : Option Word
  deriving DecidableEq, Repr

structure ReadInstruction where
  opcode : UInt8
  a : ReadOperand
  b : Option ReadOperand
  deriving DecidableEq, Repr

/-- The operand codes that are followed by a word. -/
def takesWord (code : UInt8) : Bool :=
  (0x10 ≤ code && code ≤ 0x17) || code == 0x1A || code == 0x1E || code == 0x1F

namespace Word

/-- The lowest five bits. -/
def lowField (w : Word) : UInt8 := (w &&& 31).toUInt8

/-- The five bits above them. -/
def midField (w : Word) : UInt8 := ((w >>> 5) &&& 31).toUInt8

/-- The highest six bits. -/
def highField (w : Word) : UInt8 := (w >>> 10).toUInt8

end Word

/-- Reads an operand. Codes from 0x20 on are values themselves, beginning with minus one. -/
def ReadOperand.take (code : UInt8) (ws : List Word) : Option (ReadOperand × List Word) :=
  if 0x20 ≤ code then some (⟨nextWordCode, some (code.toUInt16 - 0x21)⟩, ws)
  else if takesWord code then
    match ws with
    | [] => none
    | w :: ws => some (⟨code, some w⟩, ws)
  else some (⟨code, none⟩, ws)

/-- Reads the operands of an instruction word, `a` before `b`. -/
def ReadInstruction.take (w : Word) (ws : List Word) : Option (ReadInstruction × List Word) := do
  let (a, ws) ← ReadOperand.take w.highField ws
  if w.lowField = 0 then return (⟨w.midField, a, none⟩, ws)
  else
    let (b, ws) ← ReadOperand.take w.midField ws
    return (⟨w.lowField, a, some b⟩, ws)

theorem ReadOperand.length_take {code : UInt8} {ws rest : List Word} {o : ReadOperand}
    (h : take code ws = some (o, rest)) : rest.length ≤ ws.length := by
  unfold take at h
  split at h
  · simp_all
  split at h
  · split at h
    · cases h
    · simp_all
  · simp_all

theorem ReadInstruction.length_take {w : Word} {ws rest : List Word} {i : ReadInstruction}
    (h : take w ws = some (i, rest)) : rest.length ≤ ws.length := by
  simp only [take, Option.bind_eq_bind, Option.bind_eq_some_iff] at h
  obtain ⟨⟨a, ws₁⟩, ha, h⟩ := h
  have hla := ReadOperand.length_take ha
  dsimp only at h
  split at h
  · simp_all
  · obtain ⟨⟨b, ws₂⟩, hb, h⟩ := Option.bind_eq_some_iff.mp h
    have hlb := ReadOperand.length_take hb
    simp_all
    omega

/-- Reads instructions until no word is left. -/
def decode : List Word → Option (List ReadInstruction)
  | [] => some []
  | w :: ws => (ReadInstruction.take w ws).pbind fun r _ => (decode r.2).map (r.1 :: ·)
termination_by ws => ws.length
decreasing_by
  rename_i h
  exact Nat.lt_succ_of_le (ReadInstruction.length_take h)

theorem decode_cons {w : Word} {ws rest : List Word} {i : ReadInstruction}
    (h : ReadInstruction.take w ws = some (i, rest)) :
    decode (w :: ws) = (decode rest).map (i :: ·) := by
  rw [decode]
  simp [h]

section Fields

theorem Word.toNat_lowField (w : Word) : w.lowField.toNat = w.toNat % 32 := by
  have h (n : Nat) : n &&& 31 = n % 32 := Nat.and_two_pow_sub_one_eq_mod n 5
  simp [lowField, h]

theorem Word.toNat_midField (w : Word) : w.midField.toNat = w.toNat / 32 % 32 := by
  have h (n : Nat) : n &&& 31 = n % 32 := Nat.and_two_pow_sub_one_eq_mod n 5
  simp [midField, h, Nat.shiftRight_eq_div_pow]

theorem Word.toNat_highField (w : Word) : w.highField.toNat = w.toNat / 1024 := by
  have hw := w.toNat_lt
  simp [highField, Nat.shiftRight_eq_div_pow]
  omega

theorem toNat_nonBasicWord (opcode a : UInt8) :
    (nonBasicWord opcode a).toNat = 32 * (opcode.toNat % 32) + 1024 * (a.toNat % 64) := by
  have ho := toNat_field_five opcode
  have ha := toNat_field_six a
  have hs : (field 5 opcode <<< 5).toNat = 32 * (opcode.toNat % 32) := by
    rw [UInt16.toNat_shiftLeft, ho]
    simp [Nat.shiftLeft_eq]
    omega
  have hs' : (field 6 a <<< 10).toNat = (a.toNat % 64) <<< 10 := by
    rw [UInt16.toNat_shiftLeft, ha]
    simp [Nat.shiftLeft_eq]
    omega
  rw [nonBasicWord, UInt16.toNat_or, hs, hs', Nat.or_comm,
    ← Nat.shiftLeft_add_eq_or_of_lt (by omega : 32 * (opcode.toNat % 32) < 2 ^ 10),
    Nat.shiftLeft_eq]
  omega

theorem toNat_basicWord (opcode b a : UInt8) :
    (basicWord opcode b a).toNat =
      opcode.toNat % 32 + 32 * (b.toNat % 32) + 1024 * (a.toNat % 64) := by
  have ho := toNat_field_five opcode
  have hw : basicWord opcode b a = field 5 opcode ||| nonBasicWord b a := by
    rw [basicWord, nonBasicWord, UInt16.or_assoc]
  have hn : (nonBasicWord b a).toNat = (b.toNat % 32 + 32 * (a.toNat % 64)) <<< 5 := by
    rw [toNat_nonBasicWord, Nat.shiftLeft_eq]
    omega
  rw [hw, UInt16.toNat_or, ho, hn, Nat.or_comm,
    ← Nat.shiftLeft_add_eq_or_of_lt (by omega : opcode.toNat % 32 < 2 ^ 5), Nat.shiftLeft_eq]
  omega

end Fields

/-- An operand as it is read back. -/
def Operand.view (o : Operand) : ReadOperand := ⟨o.code, o.literal.map Literal.value⟩

def Instruction.view (i : Instruction) : ReadInstruction :=
  ⟨i.opcode, i.a.view, i.b.map Operand.view⟩

/-- The code has five bits, and there is a literal exactly if it takes a word. -/
structure Operand.WellCoded (o : Operand) : Prop where
  code_lt : o.code < 32
  takesWord_iff : takesWord o.code = o.literal.isSome

/-- The opcode has five bits, not all of them zero if there are two operands. -/
structure Instruction.WellCoded (i : Instruction) : Prop where
  opcode_lt : i.opcode < 32
  opcode_pos : i.b.isSome = true → 0 < i.opcode
  a : i.a.WellCoded
  b : ∀ b, i.b = some b → b.WellCoded
  packed : i.packed = true → i.a.code = nextWordCode ∧ i.a.fitsPacked = true

theorem Operand.WellCoded.take {o : Operand} (h : o.WellCoded) (ws : List Word) :
    ReadOperand.take o.code (o.trailing ++ ws) = some (o.view, ws) := by
  have hlt := h.code_lt
  have hnot : ¬0x20 ≤ o.code := UInt8.not_le.mpr hlt
  have hiff := h.takesWord_iff
  unfold ReadOperand.take
  rw [if_neg hnot]
  cases hl : o.literal with
  | none =>
    rw [hl] at hiff
    simp [hiff, Operand.view, Operand.trailing, hl]
  | some l =>
    rw [hl] at hiff
    simp [hiff, Operand.view, Operand.trailing, hl]

/-- A packed value is read back from the code that stands for it. -/
theorem take_packedCode? {value : Word} {code : UInt8} (h : packedCode? value = some code)
    (ws : List Word) : ReadOperand.take code ws = some (⟨nextWordCode, some value⟩, ws) := by
  unfold packedCode? at h
  split at h
  next hv =>
    obtain rfl := Option.some.inj h
    subst hv
    rfl
  next =>
    split at h
    next hle =>
      obtain rfl := Option.some.inj h
      have hn : value.toNat ≤ 30 := hle
      have hcode : (0x21 + value.toUInt8).toNat = 0x21 + value.toNat := by
        simp
        omega
      have hge : (0x20 : UInt8) ≤ 0x21 + value.toUInt8 := by
        rw [UInt8.le_iff_toNat_le, hcode]
        simp
        omega
      have hval : (0x21 + value.toUInt8).toUInt16 - 0x21 = value := by
        apply UInt16.toNat.inj
        rw [UInt16.toNat_sub_of_le]
        · simp
          omega
        · rw [UInt16.le_iff_toNat_le, UInt8.toNat_toUInt16, hcode]
          simp
      unfold ReadOperand.take
      rw [if_pos hge, hval]
    next => nomatch h

namespace Instruction

variable {i : Instruction}

/-- Operand A is read back from its code and the words that follow the instruction word. -/
theorem WellCoded.takeA (h : i.WellCoded) (ws : List Word) :
    ReadOperand.take i.codeA (i.wordsA ++ ws) = some (i.a.view, ws) := by
  cases hp : i.packed with
  | false => simpa [codeA, wordsA, hp] using h.a.take ws
  | true =>
    obtain ⟨hc, hf⟩ := h.packed hp
    obtain ⟨l, hl, hs⟩ := (Option.any_eq_true _ _).mp hf
    obtain ⟨code, hcode⟩ := Option.isSome_iff_exists.mp hs
    have ha : i.a.view = ⟨nextWordCode, some l.value⟩ := by simp [Operand.view, hl, hc]
    simpa [codeA, wordsA, hp, hl, hcode, ha] using take_packedCode? hcode ws

theorem WellCoded.codeA_lt (h : i.WellCoded) : i.codeA.toNat < 64 := by
  have hlt : i.a.code.toNat < 32 := h.a.code_lt
  unfold codeA
  split
  next hp =>
    cases hb : i.a.literal.bind fun l => packedCode? l.value with
    | none =>
      rw [Option.getD_none]
      omega
    | some code =>
      obtain ⟨l, -, hcode⟩ := Option.bind_eq_some_iff.mp hb
      unfold packedCode? at hcode
      split at hcode
      · obtain rfl := Option.some.inj hcode
        simp
      · split at hcode
        next hle =>
          have hn : l.value.toNat ≤ 30 := hle
          obtain rfl := Option.some.inj hcode
          simp
          omega
        next => nomatch hcode
  next => omega

theorem head_none (h : i.b = none) : i.head = nonBasicWord i.opcode i.codeA := by
  simp [head, h]

theorem head_some {b : Operand} (h : i.b = some b) :
    i.head = basicWord i.opcode b.code i.codeA := by
  simp [head, h]

theorem WellCoded.highField (h : i.WellCoded) : i.head.highField = i.codeA := by
  have hlt := h.codeA_lt
  apply UInt8.toNat.inj
  rw [Word.toNat_highField, head]
  split
  · rw [toNat_basicWord]
    omega
  · rw [toNat_nonBasicWord]
    omega

/-- The words of an instruction are read back as that instruction. -/
theorem WellCoded.take (h : i.WellCoded) (ws : List Word) :
    ReadInstruction.take i.head ((i.wordsA ++ i.wordsB) ++ ws) = some (i.view, ws) := by
  have ho : i.opcode.toNat < 32 := h.opcode_lt
  have hlow := Word.toNat_lowField i.head
  have hmid := Word.toNat_midField i.head
  rw [ReadInstruction.take, h.highField, List.append_assoc, h.takeA]
  cases hb : i.b with
  | none =>
    have hhead : i.head.toNat = _ := (congrArg _ (head_none hb)).trans (toNat_nonBasicWord ..)
    have hzero : i.head.lowField = 0 := by
      apply UInt8.toNat.inj
      rw [hlow, hhead]
      simp
      omega
    have hop : i.head.midField = i.opcode := by
      apply UInt8.toNat.inj
      omega
    simp [hzero, hop, view, wordsB, hb]
  | some b =>
    have hwb := h.b b hb
    have hlt : b.code.toNat < 32 := hwb.code_lt
    have hpos : 0 < i.opcode.toNat := h.opcode_pos (by simp [hb])
    have hhead : i.head.toNat = _ := (congrArg _ (head_some hb)).trans (toNat_basicWord ..)
    have hop : i.head.lowField = i.opcode := by
      apply UInt8.toNat.inj
      omega
    have hcode : i.head.midField = b.code := by
      apply UInt8.toNat.inj
      omega
    have hne : i.opcode ≠ 0 := by
      intro hz
      simp [hz] at hpos
    simp [hop, hcode, hne, view, wordsB, hb, hwb.take]

theorem WellCoded.decode_encode (h : i.WellCoded) (ws : List Word) :
    decode (i.encode ++ ws) = (decode ws).map (i.view :: ·) := by
  rw [encode_eq, List.cons_append]
  exact decode_cons (h.take ws)

end Instruction

section Grammar

/-- A piece of a pattern that takes a literal. -/
def Piece.isLiteral : Piece → Bool
  | .capture _ .literal => true
  | _ => false

/-- A match has a literal exactly if its pattern asks for one. -/
theorem Pattern.matchPieces_literal {ps : List Piece} {t : Text} {found out : Captures}
    (h : matchPieces ps t found = some out) :
    out.literal.isSome = (found.literal.isSome || ps.any Piece.isLiteral) := by
  induction ps generalizing t found with
  | nil =>
    cases t with
    | nil =>
      obtain rfl : found = out := by simpa [matchPieces] using h
      simp
    | cons c t => simp [matchPieces] at h
  | cons p ps ih =>
    have hskip (hp : p.isLiteral = false) {t : Text} (h : matchPieces ps t found = some out) :
        out.literal.isSome = (found.literal.isSome || (p :: ps).any Piece.isLiteral) := by
      rw [ih h]
      simp [hp]
    cases p with
    | gap =>
      unfold matchPieces at h
      split at h
      · nomatch h
      · split at h
        · exact hskip rfl h
        · nomatch h
    | optionalGap => exact hskip rfl h
    | capture sigil slot =>
      unfold matchPieces at h
      split at h
      · nomatch h
      · dsimp only at h
        split at h
        · nomatch h
        · rw [ih h]
          cases slot <;> simp [Captures.set, Piece.isLiteral]
    | dangling sigil => simp [matchPieces] at h
    | char c =>
      cases t with
      | nil => simp [matchPieces] at h
      | cons d t =>
        unfold matchPieces at h
        split at h
        · exact hskip rfl h
        · nomatch h

theorem Grammar.match?_mem {g : Grammar} {kind : TableKind} {t : Text} {m : Match}
    (h : g.match? kind t = some m) :
    m.pattern ∈ g.table kind ∧
      m.captures.literal.isSome = (Piece.parse m.pattern.text).any Piece.isLiteral := by
  obtain ⟨p, hp, hm⟩ := List.exists_of_findSome?_eq_some h
  obtain ⟨found, hf, rfl⟩ := Option.map_eq_some_iff.mp hm
  refine ⟨hp, ?_⟩
  rw [Pattern.matchPieces_literal hf]
  simp

/-- In the standard table exactly the operands with a literal have a code that takes a word. -/
theorem Grammar.standard_values : ∀ p ∈ standard.values,
    p.code < 32 ∧ takesWord p.code = (Piece.parse p.text).any Piece.isLiteral := by
  decide +kernel

theorem Grammar.standard_opcodes : ∀ p ∈ standard.opcodes, 0 < p.code ∧ p.code < 32 := by
  decide +kernel

theorem Grammar.standard_nonBasic : ∀ p ∈ standard.nonBasic, p.code < 32 := by
  decide +kernel

end Grammar

end Dcpu
